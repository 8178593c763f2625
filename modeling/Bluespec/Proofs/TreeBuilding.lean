import Bluespec.Concrete

/-!
# The concrete tree while it is built

What a builder holds at any moment is a text and the nodes it has finished, and each of its steps adds to
both at the end only.

* **`Concrete.nodesAt`** — the inner nodes of a tree, each with the offset at which it starts.
* **`Builder.text`**, **`Builder.nodes`** — the text that a builder holds, and the nodes it has finished.
* **`Builder.nodes_closeUntil`**, **`Builder.nodes_openUntil`**, **`Builder.nodes_push`** — what each step
  adds to the nodes.
-/

namespace Bluespec

namespace Concrete

/-! ## Trees and their places -/

/-- The kind of a tree's outermost node or token. -/
def kind : Concrete → Kind
  | leaf k _ => k
  | node k _ => k

/-- The parts of a tree. -/
def children : Concrete → List Concrete
  | leaf _ _ => []
  | node _ cs => cs

/-- A tree with the offset at which it starts. -/
structure Placed where
  /-- The offset. -/
  start : Nat
  /-- The tree. -/
  tree : Concrete

/-- The text range of a tree at its place. -/
def Placed.span (p : Placed) : Span := ⟨p.start, p.start + p.tree.byteSize⟩

mutual

/-- The inner nodes of a tree that starts at an offset; those inside a node come before it. -/
def nodesAt (offset : Nat) : Concrete → List Placed
  | leaf _ _ => []
  | node k cs => nodesIn offset cs ++ [⟨offset, node k cs⟩]

/-- The inner nodes of trees in a row. -/
def nodesIn (offset : Nat) : List Concrete → List Placed
  | [] => []
  | t :: ts => nodesAt offset t ++ nodesIn (offset + t.byteSize) ts

end

theorem text_node (k : Kind) (cs : List Concrete) : (node k cs).text = texts cs := by
  rw [text]

theorem texts_append (as bs : List Concrete) : texts (as ++ bs) = texts as ++ texts bs := by
  induction as with
  | nil => rfl
  | cons a as ih =>
    show a.text ++ texts (as ++ bs) = (a.text ++ texts as) ++ texts bs
    rw [ih, List.append_assoc]

theorem texts_singleton (t : Concrete) : texts [t] = t.text := by
  show t.text ++ [] = t.text
  rw [List.append_nil]

theorem nodesIn_append (offset : Nat) (as bs : List Concrete) :
    nodesIn offset (as ++ bs) =
      nodesIn offset as ++ nodesIn (offset + Text.byteSize (texts as)) bs := by
  induction as generalizing offset with
  | nil => rfl
  | cons a as ih =>
    have hsize : Text.byteSize (texts (a :: as)) = a.byteSize + Text.byteSize (texts as) :=
      Text.byteSize_append a.text (texts as)
    rw [List.cons_append, nodesIn, ih, nodesIn, List.append_assoc, hsize, Nat.add_assoc]

theorem nodesIn_singleton (offset : Nat) (t : Concrete) : nodesIn offset [t] = t.nodesAt offset := by
  rw [nodesIn, nodesIn, List.append_nil]

namespace Builder

/-! ## What a builder holds -/

/-- The text of the parts of the root and of unfinished nodes, the last part and the innermost node
first. -/
def textOf (root : List Concrete) : List Frame → List Char
  | [] => texts root.reverse
  | f :: fs => textOf root fs ++ texts f.children.reverse

/-- The finished nodes among the parts of the root and of unfinished nodes. -/
def nodesOf (root : List Concrete) : List Frame → List Placed
  | [] => nodesIn 0 root.reverse
  | f :: fs => nodesOf root fs ++ nodesIn (Text.byteSize (textOf root fs)) f.children.reverse

/-- The text that a builder holds. -/
def text (b : Builder) : List Char := textOf b.children b.frames

/-- The nodes that a builder has finished. -/
def nodes (b : Builder) : List Placed := nodesOf b.children b.frames

/-- A builder with the given frames, and with more parts in the innermost of them. -/
def holding (b : Builder) (parts : List Concrete) : List Frame → Builder
  | [] => { b with frames := [], children := parts ++ b.children }
  | f :: fs => { b with frames := f.add parts :: fs }

theorem text_holding (b : Builder) (parts : List Concrete) (fs : List Frame) :
    (b.holding parts fs).text = textOf b.children fs ++ texts parts.reverse := by
  cases fs with
  | nil =>
    show texts (parts ++ b.children).reverse = texts b.children.reverse ++ _
    rw [List.reverse_append, texts_append]
  | cons f fs =>
    show textOf b.children fs ++ texts (parts ++ f.children).reverse =
      (textOf b.children fs ++ texts f.children.reverse) ++ _
    rw [List.reverse_append, texts_append, List.append_assoc]

theorem nodes_holding (b : Builder) (parts : List Concrete) (fs : List Frame) :
    (b.holding parts fs).nodes =
      nodesOf b.children fs ++ nodesIn (Text.byteSize (textOf b.children fs)) parts.reverse := by
  cases fs with
  | nil =>
    show nodesIn 0 (parts ++ b.children).reverse = nodesIn 0 b.children.reverse ++ _
    rw [List.reverse_append, nodesIn_append, Nat.zero_add]
    rfl
  | cons f fs =>
    show nodesOf b.children fs ++ nodesIn _ (parts ++ f.children).reverse =
      (nodesOf b.children fs ++ nodesIn _ f.children.reverse) ++ nodesIn (Text.byteSize
        (textOf b.children fs ++ texts f.children.reverse)) parts.reverse
    rw [List.reverse_append, nodesIn_append, Text.byteSize_append, List.append_assoc]
    rfl

/-! ## Closing nodes -/

/-- A frame when it is finished, at its place. -/
def closedAt (b : Builder) (parts : List Concrete) (f : Frame) (fs : List Frame) : Placed :=
  ⟨Text.byteSize (textOf b.children fs), (f.add parts).close⟩

/-- Finishing a node keeps the text. -/
theorem text_close (b : Builder) (parts : List Concrete) (f : Frame) (fs : List Frame) :
    (b.holding [(f.add parts).close] fs).text = (b.holding parts (f :: fs)).text := by
  rw [text_holding, text_holding, List.reverse_singleton, texts_singleton, Frame.close, text_node]
  show _ ++ texts (parts ++ f.children).reverse = (_ ++ texts f.children.reverse) ++ _
  rw [List.reverse_append, texts_append, List.append_assoc]

/-- Finishing a node adds it to the nodes. -/
theorem nodes_close (b : Builder) (parts : List Concrete) (f : Frame) (fs : List Frame) :
    (b.holding [(f.add parts).close] fs).nodes =
      (b.holding parts (f :: fs)).nodes ++ [b.closedAt parts f fs] := by
  have hinner := nodes_holding b parts (f :: fs)
  rw [hinner, nodes_holding, List.reverse_singleton, nodesIn_singleton, Frame.close, nodesAt]
  show nodesOf b.children fs ++ (nodesIn _ (parts ++ f.children).reverse ++ _) = (nodesOf b.children fs ++
    nodesIn _ f.children.reverse) ++ nodesIn (Text.byteSize (textOf b.children fs ++
      texts f.children.reverse)) parts.reverse ++ _
  rw [List.reverse_append, nodesIn_append, Text.byteSize_append, List.append_assoc, List.append_assoc,
    List.append_assoc]
  rfl

/-- The nodes that are finished before a token at an offset. -/
def closed (offset : Nat) (b : Builder) (parts : List Concrete) : List Frame → List Placed
  | [] => []
  | f :: fs =>
    if f.stop ≤ offset then b.closedAt parts f fs :: closed offset b [(f.add parts).close] fs else []

theorem closeUntil_of_le {offset : Nat} {f : Frame} (h : f.stop ≤ offset) (b : Builder)
    (parts : List Concrete) (fs : List Frame) :
    closeUntil offset b parts (f :: fs) = closeUntil offset b [(f.add parts).close] fs :=
  if_pos h

theorem closeUntil_of_lt {offset : Nat} {f : Frame} (h : ¬f.stop ≤ offset) (b : Builder)
    (parts : List Concrete) (fs : List Frame) :
    closeUntil offset b parts (f :: fs) = b.holding parts (f :: fs) :=
  if_neg h

theorem text_closeUntil (offset : Nat) (b : Builder) (parts : List Concrete) (fs : List Frame) :
    (closeUntil offset b parts fs).text = (b.holding parts fs).text := by
  induction fs generalizing parts with
  | nil => rfl
  | cons f fs ih =>
    by_cases h : f.stop ≤ offset
    · rw [closeUntil_of_le h, ih, text_close]
    · rw [closeUntil_of_lt h]

theorem nodes_closeUntil (offset : Nat) (b : Builder) (parts : List Concrete) (fs : List Frame) :
    (closeUntil offset b parts fs).nodes = (b.holding parts fs).nodes ++ closed offset b parts fs := by
  induction fs generalizing parts with
  | nil => exact (List.append_nil _).symm
  | cons f fs ih =>
    by_cases h : f.stop ≤ offset
    · rw [closeUntil_of_le h, ih, nodes_close, closed, if_pos h, List.append_assoc]
      rfl
    · rw [closeUntil_of_lt h, closed, if_neg h, List.append_nil]

theorem pending_closeUntil (offset : Nat) (b : Builder) (parts : List Concrete) (fs : List Frame) :
    (closeUntil offset b parts fs).pending = b.pending := by
  induction fs generalizing parts with
  | nil => rfl
  | cons f fs ih =>
    by_cases h : f.stop ≤ offset
    · rw [closeUntil_of_le h, ih]
    · rw [closeUntil_of_lt h]
      rfl

/-- Only nodes of declarations are finished. -/
theorem kind_of_mem_closed {offset : Nat} {b : Builder} {parts : List Concrete} {fs : List Frame} {p : Placed}
    (h : p ∈ closed offset b parts fs) : ∃ k, p.tree.kind = .node k := by
  induction fs generalizing parts with
  | nil => cases h
  | cons f fs ih =>
    by_cases hstop : f.stop ≤ offset
    · rw [closed, if_pos hstop] at h
      cases h with
      | head => exact ⟨f.kind, rfl⟩
      | tail _ h => exact ih h
    · rw [closed, if_neg hstop] at h
      cases h

theorem holding_nil (b : Builder) : b.holding [] b.frames = b := by
  cases b with
  | mk frames children pending => cases frames <;> rfl

/-! ## Opening nodes and adding parts -/

theorem text_openUntil (offset : Nat) (b : Builder) (ns : List NodeSpan) :
    (openUntil offset b ns).text = b.text := by
  induction ns generalizing b with
  | nil => rfl
  | cons n ns ih =>
    unfold openUntil
    split
    · split
      · exact ih b
      · rw [ih]
        exact List.append_nil _
    · rfl

theorem nodes_openUntil (offset : Nat) (b : Builder) (ns : List NodeSpan) :
    (openUntil offset b ns).nodes = b.nodes := by
  induction ns generalizing b with
  | nil => rfl
  | cons n ns ih =>
    unfold openUntil
    split
    · split
      · exact ih b
      · rw [ih]
        exact List.append_nil _
    · rfl

theorem push_eq_holding (b : Builder) (part : Concrete) : b.push part = b.holding [part] b.frames := by
  cases b with
  | mk frames children pending => cases frames <;> rfl

theorem text_push (b : Builder) (part : Concrete) : (b.push part).text = b.text ++ part.text := by
  rw [push_eq_holding, text_holding, List.reverse_singleton, texts_singleton]
  rfl

theorem nodes_push (b : Builder) (part : Concrete) :
    (b.push part).nodes = b.nodes ++ part.nodesAt (Text.byteSize b.text) := by
  rw [push_eq_holding, nodes_holding, List.reverse_singleton, nodesIn_singleton]
  rfl

/-! ## Adding tokens -/

theorem text_partOf (t : Token) : (partOf t).text = t.text.toList := by
  unfold partOf
  split
  · rw [text_node, texts_singleton, Concrete.text]
  · rw [Concrete.text]

theorem text_addToken (b : Builder) (t : Token) : (b.addToken t).text = b.text ++ t.text.toList := by
  unfold addToken
  rw [text_push, text_partOf, text_openUntil, text_closeUntil, holding_nil]

theorem nodes_addToken (b : Builder) (t : Token) :
    (b.addToken t).nodes =
      b.nodes ++ closed t.span.start b [] b.frames ++ (partOf t).nodesAt (Text.byteSize b.text) := by
  unfold addToken
  rw [nodes_push, nodes_openUntil, nodes_closeUntil, text_openUntil, text_closeUntil, holding_nil]

theorem text_foldl (b : Builder) (ts : List Token) :
    (ts.foldl addToken b).text = b.text ++ ts.flatMap fun t => t.text.toList := by
  induction ts generalizing b with
  | nil => exact (List.append_nil _).symm
  | cons t ts ih => rw [List.foldl_cons, ih, text_addToken, List.flatMap_cons, List.append_assoc]

/-! ## Finishing -/

/-- The nodes that are finished at the end. -/
def left (b : Builder) (parts : List Concrete) : List Frame → List Placed
  | [] => []
  | f :: fs => b.closedAt parts f fs :: left b [(f.add parts).close] fs

theorem texts_finish (b : Builder) (parts : List Concrete) (fs : List Frame) :
    texts (finish parts b.children fs) = (b.holding parts fs).text := by
  induction fs generalizing parts with
  | nil => rfl
  | cons f fs ih => rw [finish, ih, text_close]

theorem nodesIn_finish (b : Builder) (parts : List Concrete) (fs : List Frame) :
    nodesIn 0 (finish parts b.children fs) = (b.holding parts fs).nodes ++ left b parts fs := by
  induction fs generalizing parts with
  | nil => exact (List.append_nil _).symm
  | cons f fs ih =>
    rw [finish, ih, nodes_close, left, List.append_assoc]
    rfl

theorem kind_of_mem_left {b : Builder} {parts : List Concrete} {fs : List Frame} {p : Placed}
    (h : p ∈ left b parts fs) : ∃ k, p.tree.kind = .node k := by
  induction fs generalizing parts with
  | nil => cases h
  | cons f fs ih =>
    cases h with
    | head => exact ⟨f.kind, rfl⟩
    | tail _ h => exact ih h

end Builder

/-! ## Whole trees -/

/-- The builder after all tokens. -/
def built (tokens : List Token) (nodes : List NodeSpan) : Builder :=
  tokens.foldl Builder.addToken ⟨[], [], openingOrder nodes⟩

theorem ofTokens_eq (tokens : List Token) (nodes : List NodeSpan) :
    ofTokens tokens nodes = node (.node .sourceFile)
      (Builder.finish [] (built tokens nodes).children (built tokens nodes).frames) := rfl

/-- The text of a tree over tokens is the text of the tokens, for any declarations. -/
theorem text_ofTokens (tokens : List Token) (nodes : List NodeSpan) :
    (ofTokens tokens nodes).text = tokens.flatMap fun t => t.text.toList := by
  rw [ofTokens_eq, text_node, Builder.texts_finish, Builder.holding_nil, built, Builder.text_foldl]
  rfl

/-- The nodes below the root of a tree over tokens. -/
theorem nodesIn_ofTokens (tokens : List Token) (nodes : List NodeSpan) :
    nodesIn 0 (ofTokens tokens nodes).children =
      (built tokens nodes).nodes ++ (built tokens nodes).left [] (built tokens nodes).frames := by
  rw [ofTokens_eq, children, Builder.nodesIn_finish, Builder.holding_nil]

end Concrete

end Bluespec
