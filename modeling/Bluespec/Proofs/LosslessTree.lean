import Bluespec.Parse
import Bluespec.Proofs.Scanning
import Bluespec.Proofs.TreeBuilding

/-!
# The concrete tree keeps the source

A tree is put together by calls: a node is started, a token is added, a node is finished.  The calls that
build a tree over tokens are balanced, they yield that tree, and the tree holds the source with a node around
each piece of it that is no token.

* **`Call.run`**, **`Call.tree?`** — what a call does to the parts of a tree, and the tree of balanced calls.
* **`Builder.calls`** — the calls that a builder makes for tokens.
* **`tree_calls`** — they yield the tree over the tokens.
* **`parse_lossless`** — text, calls and errors of the concrete tree of any source.
-/

namespace Bluespec

namespace Concrete

/-! ## Calls -/

/-- A call that puts a part of a tree in its place. -/
inductive Call
  /-- A node of a kind is started. -/
  | start (kind : Kind)
  /-- A token is added. -/
  | token (kind : Kind) (text : String)
  /-- The node that was started last is finished. -/
  | finish

/-- A node that has been started and not finished, with its parts, the last one first. -/
structure Started where
  /-- Its kind. -/
  kind : Kind
  /-- Its parts so far. -/
  children : List Concrete

/-- The parts of a tree while calls put it together. -/
structure Assembly where
  /-- The started nodes, the innermost one first. -/
  started : List Started
  /-- The parts outside all nodes, the last one first. -/
  outside : List Concrete

namespace Assembly

/-- Adds parts to the innermost started node, the last one first. -/
def add (a : Assembly) (parts : List Concrete) : Assembly :=
  match a.started with
  | [] => { a with outside := parts ++ a.outside }
  | s :: ss => { a with started := { s with children := parts ++ s.children } :: ss }

end Assembly

namespace Call

/-- What a call does.  Only a started node can be finished. -/
def run (a : Assembly) : Call → Option Assembly
  | start k => some { a with started := ⟨k, []⟩ :: a.started }
  | token k text => some (a.add [leaf k text])
  | finish =>
    match a.started with
    | [] => none
    | s :: ss => some (Assembly.add { a with started := ss } [node s.kind s.children.reverse])

/-- What calls do, one after another. -/
def runAll (a : Assembly) (calls : List Call) : Option Assembly := calls.foldlM run a

/-- The tree that calls put together, if each node that is started is finished and one tree is left. -/
def tree? (calls : List Call) : Option Concrete :=
  match runAll ⟨[], []⟩ calls with
  | some ⟨[], [t]⟩ => some t
  | _ => none

theorem runAll_append (a : Assembly) (xs ys : List Call) :
    runAll a (xs ++ ys) = (runAll a xs).bind fun b => runAll b ys :=
  List.foldlM_append

theorem runAll_cons (a : Assembly) (x : Call) (xs : List Call) :
    runAll a (x :: xs) = (run a x).bind fun b => runAll b xs :=
  List.foldlM_cons

end Call

/-! ## The calls of a builder -/

namespace Builder

open Call

/-- The parts that a builder holds, with some more in the innermost node. -/
def assemblyOf (root : List Concrete) (fs : List Frame) : Assembly :=
  ⟨fs.map (fun f => ⟨.node f.kind, f.children⟩) ++ [⟨.node .sourceFile, root⟩], []⟩

/-- The parts that a builder holds. -/
def assembly (b : Builder) : Assembly := assemblyOf b.children b.frames

/-- The calls that finish nodes that end at or before an offset. -/
def closings (offset : Nat) (fs : List Frame) : List Call :=
  (fs.takeWhile fun f => f.stop ≤ offset).map fun _ => .finish

/-- The calls that start the nodes of declarations that start at or before an offset and end after it. -/
def openings (offset : Nat) (ns : List NodeSpan) : List Call :=
  ((ns.takeWhile fun n => n.span.start ≤ offset).filter fun n => ¬n.span.stop ≤ offset).map
    fun n => .start (.node n.kind)

/-- The calls for the part of one token. -/
def partCalls (t : Token) : List Call :=
  if t.kind = .error then [.start .error, .token .error t.text, .finish] else [.token t.kind t.text]

/-- The calls that add a token. -/
def tokenCalls (b : Builder) (t : Token) : List Call :=
  closings t.span.start b.frames ++ openings t.span.start b.pending ++ partCalls t

/-- The calls that add tokens and finish all nodes. -/
def calls (b : Builder) : List Token → List Call
  | [] => b.frames.map (fun _ => .finish) ++ [.finish]
  | t :: ts => b.tokenCalls t ++ calls (b.addToken t) ts

theorem add_assemblyOf (b : Builder) (parts : List Concrete) (fs : List Frame) :
    (assemblyOf b.children fs).add parts = (b.holding parts fs).assembly := by
  cases fs <;> rfl

theorem run_finish (b : Builder) (parts : List Concrete) (f : Frame) (fs : List Frame) :
    run (b.holding parts (f :: fs)).assembly .finish =
      some (b.holding [(f.add parts).close] fs).assembly := by
  rw [← add_assemblyOf b [(f.add parts).close] fs]
  rfl

theorem runAll_closings (offset : Nat) (b : Builder) (parts : List Concrete) (fs : List Frame) :
    runAll (b.holding parts fs).assembly (closings offset fs) =
      some (closeUntil offset b parts fs).assembly := by
  induction fs generalizing parts with
  | nil => rfl
  | cons f fs ih =>
    by_cases h : f.stop ≤ offset
    · have hcalls : closings offset (f :: fs) = .finish :: closings offset fs := by
        rw [closings, List.takeWhile_cons_of_pos (by simpa using h)]
        rfl
      rw [hcalls, runAll_cons, run_finish, closeUntil_of_le h]
      exact ih _
    · have hcalls : closings offset (f :: fs) = [] := by
        rw [closings, List.takeWhile_cons_of_neg (by simpa using h)]
        rfl
      rw [hcalls, closeUntil_of_lt h]
      rfl

theorem runAll_openings (offset : Nat) (b : Builder) (ns : List NodeSpan) :
    runAll b.assembly (openings offset ns) = some (openUntil offset b ns).assembly := by
  induction ns generalizing b with
  | nil => rfl
  | cons n ns ih =>
    unfold openUntil
    by_cases hstart : n.span.start ≤ offset
    · by_cases hstop : n.span.stop ≤ offset
      · have hcalls : openings offset (n :: ns) = openings offset ns := by
          rw [openings, List.takeWhile_cons_of_pos (by simpa using hstart),
            List.filter_cons_of_neg (by simpa using hstop)]
          rfl
        rw [if_pos hstart, if_pos hstop, hcalls, ih]
      · have hcalls : openings offset (n :: ns) = .start (.node n.kind) :: openings offset ns := by
          rw [openings, List.takeWhile_cons_of_pos (by simpa using hstart),
            List.filter_cons_of_pos (by simpa using hstop)]
          rfl
        rw [if_pos hstart, if_neg hstop, hcalls, runAll_cons]
        exact ih { b with frames := ⟨n.kind, n.span.stop, []⟩ :: b.frames }
    · have hcalls : openings offset (n :: ns) = [] := by
        rw [openings, List.takeWhile_cons_of_neg (by simpa using hstart)]
        rfl
      rw [if_neg hstart, hcalls]
      rfl

theorem runAll_partCalls (b : Builder) (t : Token) :
    runAll b.assembly (partCalls t) = some (b.push (partOf t)).assembly := by
  rw [push_eq_holding, ← add_assemblyOf]
  unfold partCalls partOf
  by_cases h : t.kind = .error
  · rw [if_pos h, if_pos h]
    rfl
  · rw [if_neg h, if_neg h]
    rfl

/-- The calls for a token have the effect of adding it. -/
theorem runAll_tokenCalls (b : Builder) (t : Token) :
    runAll b.assembly (b.tokenCalls t) = some (b.addToken t).assembly := by
  have hclose := runAll_closings t.span.start b [] b.frames
  rw [holding_nil] at hclose
  rw [tokenCalls, runAll_append, runAll_append, hclose, Option.bind_some,
    ← pending_closeUntil t.span.start b [] b.frames, runAll_openings, Option.bind_some, runAll_partCalls]
  rfl

theorem runAll_finishes (b : Builder) (parts : List Concrete) (fs : List Frame) :
    runAll (b.holding parts fs).assembly (fs.map (fun _ => .finish) ++ [.finish]) =
      some ⟨[], [node (.node .sourceFile) (finish parts b.children fs)]⟩ := by
  induction fs generalizing parts with
  | nil => rfl
  | cons f fs ih =>
    rw [List.map_cons, List.cons_append, runAll_cons, run_finish, Option.bind_some, ih]
    rfl

theorem runAll_calls (b : Builder) (ts : List Token) :
    runAll b.assembly (b.calls ts) = some ⟨[], [node (.node .sourceFile)
      (finish [] (ts.foldl addToken b).children (ts.foldl addToken b).frames)]⟩ := by
  induction ts generalizing b with
  | nil =>
    have h := runAll_finishes b [] b.frames
    rw [holding_nil] at h
    exact h
  | cons t ts ih =>
    rw [calls, runAll_append, runAll_tokenCalls, Option.bind_some, ih]
    rfl

end Builder

/-- The calls that build the tree over tokens with the given declarations. -/
def calls (tokens : List Token) (nodes : List NodeSpan) : List Call :=
  .start (.node .sourceFile) :: Builder.calls ⟨[], [], openingOrder nodes⟩ tokens

/-- Each node that is started is finished, and the calls yield the tree over the tokens. -/
theorem tree_calls (tokens : List Token) (nodes : List NodeSpan) :
    Call.tree? (calls tokens nodes) = some (ofTokens tokens nodes) := by
  have h : Call.runAll ⟨[], []⟩ (calls tokens nodes) = some ⟨[], [ofTokens tokens nodes]⟩ :=
    Builder.runAll_calls ⟨[], [], openingOrder nodes⟩ tokens
  rw [Call.tree?, h]

/-! ## Errors -/

/-- Whether a tree is a node around text that is no token. -/
def Placed.isError (p : Placed) : Bool := p.tree.kind == .error

/-- The nodes of a tree around text that is no token. -/
def errorNodes (t : Concrete) : List Placed := (t.nodesAt 0).filter Placed.isError

/-- The nodes for the error tokens of a source, at their places. -/
def errorsOf (tokens : List Token) : List Placed :=
  (tokens.filter fun t => t.kind == .error).map fun t => ⟨t.span.start, Builder.partOf t⟩

theorem filter_isError_of_node {ps : List Placed} (h : ∀ p ∈ ps, ∃ k, p.tree.kind = .node k) :
    ps.filter Placed.isError = [] := by
  rw [List.filter_eq_nil_iff]
  intro p hp herror
  obtain ⟨k, hk⟩ := h p hp
  rw [Placed.isError, hk] at herror
  cases herror

theorem isError_partOf {t : Token} {offset : Nat} (h : t.span.start = offset) :
    ((Builder.partOf t).nodesAt offset).filter Placed.isError = errorsOf [t] := by
  by_cases hkind : t.kind = .error
  · rw [errorsOf, List.filter_cons_of_pos (by simpa using hkind), List.filter_nil, List.map_singleton,
      Builder.partOf, if_pos hkind, h]
    rfl
  · rw [errorsOf, List.filter_cons_of_neg (by simpa using hkind), Builder.partOf, if_neg hkind]
    rfl

/-- Tokens that stand where a builder's text ends add their errors to its nodes. -/
theorem errors_foldl {b : Builder} {ts : List Token} {stop : Nat}
    (h : Tiles (Text.byteSize b.text) ts stop) :
    (ts.foldl Builder.addToken b).nodes.filter Placed.isError =
      b.nodes.filter Placed.isError ++ errorsOf ts := by
  induction ts generalizing b with
  | nil => exact (List.append_nil _).symm
  | cons t ts ih =>
    obtain ⟨hstart, hstop, -, hrest⟩ := h
    have htiles : Tiles (Text.byteSize (b.addToken t).text) ts stop := by
      rw [Builder.text_addToken, Text.byteSize_append, ← hstop]
      exact hrest
    have hclosed : (Builder.closed t.span.start b [] b.frames).filter Placed.isError = [] :=
      filter_isError_of_node fun p hp => Builder.kind_of_mem_closed hp
    have hcons : errorsOf (t :: ts) = errorsOf [t] ++ errorsOf ts := by
      unfold errorsOf
      rw [← List.map_append, ← List.filter_append]
      rfl
    rw [List.foldl_cons, ih htiles, Builder.nodes_addToken, List.filter_append, List.filter_append, hclosed,
      List.append_nil, isError_partOf hstart, List.append_assoc, hcons]

/-- The error nodes of a tree over tokens are those of its error tokens, for any declarations. -/
theorem errorNodes_ofTokens {tokens : List Token} {stop : Nat} (h : Tiles 0 tokens stop)
    (nodes : List NodeSpan) : (ofTokens tokens nodes).errorNodes = errorsOf tokens := by
  have hroot : (ofTokens tokens nodes).nodesAt 0 = nodesIn 0 (ofTokens tokens nodes).children ++
      [⟨0, ofTokens tokens nodes⟩] := rfl
  have hbuilt := errors_foldl (b := ⟨[], [], openingOrder nodes⟩) h
  rw [errorNodes, hroot, nodesIn_ofTokens, List.filter_append, List.filter_append,
    filter_isError_of_node fun p hp => Builder.kind_of_mem_left hp, built, hbuilt, List.append_nil]
  exact List.append_nil _

theorem span_errorsOf {tokens : List Token} {stop : Nat} (h : Tiles 0 tokens stop) :
    (errorsOf tokens).map Placed.span = (tokens.filter fun t => t.kind == .error).map Token.span := by
  rw [errorsOf, List.map_map]
  refine List.map_congr_left fun t ht => ?_
  have hstop := h.stop_of_mem (List.mem_filter.mp ht).1
  show Span.mk t.span.start (t.span.start + Text.byteSize (Builder.partOf t).text) = t.span
  rw [Builder.text_partOf, ← hstop]

theorem tree_of_mem_errorsOf {tokens : List Token} {p : Placed} (h : p ∈ errorsOf tokens) :
    ∃ text, p.tree = node .error [leaf .error text] := by
  obtain ⟨t, ht, rfl⟩ := List.mem_map.mp h
  have hkind : t.kind = .error := by simpa using (List.mem_filter.mp ht).2
  exact ⟨t.text, if_pos hkind⟩

end Concrete

/-! ## Whole sources -/

/-- The declarations that the concrete tree of a source has nodes for. -/
def recordedNodes (source : String) (recovery : Recovery) : List NodeSpan :=
  if recovery = .firstError ∧ !((LexicalError.ofText source).map Diagnostic.ofLexicalError).isEmpty then []
  else (Parser.sourceUnit (.ofText source recovery) (.ofText source)).2.nodes.reverse

theorem parse_concrete (source : String) (recovery : Recovery) :
    (parse source recovery).concrete = .ofTokens (Token.ofText source) (recordedNodes source recovery) := by
  by_cases h : recovery = .firstError ∧ !((LexicalError.ofText source).map Diagnostic.ofLexicalError).isEmpty
  · rw [recordedNodes, if_pos h, parse, if_pos h]
  · rw [recordedNodes, if_neg h, parse, if_neg h]

open Concrete in
/-- The error nodes of the concrete tree of a source are those of its error tokens. -/
theorem errorNodes_parse (source : String) (recovery : Recovery) :
    (parse source recovery).concrete.errorNodes = errorsOf (Token.ofText source) := by
  rw [parse_concrete]
  exact errorNodes_ofTokens (Token.tiles_ofText source) (recordedNodes source recovery)

open Concrete in
/-- The error nodes of the concrete tree of a source stand at the texts of the lexical errors. -/
theorem spans_errorNodes (source : String) (recovery : Recovery) :
    (parse source recovery).concrete.errorNodes.map Placed.span =
      (LexicalError.ofText source).map LexicalError.textSpan := by
  rw [errorNodes_parse, span_errorsOf (Token.tiles_ofText source), Token.errors_ofText]

open Concrete in
/-- The text of the concrete tree of a source is the source. -/
theorem text_parse (source : String) (recovery : Recovery) :
    (parse source recovery).concrete.text = source.toList := by
  rw [parse_concrete, text_ofTokens, Token.texts_ofText]

open Concrete in
/-- The concrete tree of a source holds the source, its calls are balanced and yield it, and its error nodes
stand at the texts of the lexical errors, each around one error token. -/
theorem parse_lossless (source : String) (recovery : Recovery) :
    String.ofList (parse source recovery).concrete.text = source ∧
      Call.tree? (calls (Token.ofText source) (recordedNodes source recovery)) =
        some (parse source recovery).concrete ∧
      (parse source recovery).concrete.errorNodes.map Placed.span =
        (LexicalError.ofText source).map LexicalError.textSpan ∧
      ∀ p ∈ (parse source recovery).concrete.errorNodes, ∃ text, p.tree = node .error [leaf .error text] := by
  refine ⟨?_, ?_, spans_errorNodes source recovery, ?_⟩
  · rw [text_parse, String.ofList_toList]
  · rw [parse_concrete]
    exact tree_calls _ _
  · rw [errorNodes_parse]
    exact fun p hp => tree_of_mem_errorsOf hp

end Bluespec
