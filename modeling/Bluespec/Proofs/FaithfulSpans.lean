import Bluespec.Proofs.LineTexts
import Bluespec.Proofs.SpanDefinitions
import Bluespec.Proofs.SupportedConstructs
import Bluespec.Proofs.TrackedUnits
import Bluespec.Proofs.WholeTexts

/-!
# Spans are faithful

The text at the span of an expression or a statement, read on its own, is that expression or statement.

* **`Token.Sliced`** — a part of a source whose tokens are neighbouring tokens of the source.
* **`parseOnly_of_goes`** — what is read from the tokens of a part alone is read from its text.
* **`spans_faithful`** — all expressions and statements in the tree of a text without diagnostics.
-/

namespace Bluespec

open Bluespec.Parser

/-! ## The text of neighbouring tokens -/

/-- Neighbours among the elements of a row that are kept come from a part of the row that begins and ends with them. -/
theorem exists_part_of_filter {α : Type} {f : α → Bool} {xs us ts vs : List α} (h : xs.filter f = us ++ ts ++ vs)
    (hne : ts ≠ []) : ∃ earlier part later, xs = earlier ++ part ++ later ∧ part.filter f = ts ∧
      part.head? = ts.head? ∧ part.getLast? = ts.getLast? := by
  obtain ⟨front, later, rfl, hfront, -⟩ := List.filter_eq_append_iff.mp h
  obtain ⟨earlier, middle, rfl, -, hmiddle⟩ := List.filter_eq_append_iff.mp hfront
  obtain ⟨t, rest, rfl⟩ := List.exists_cons_of_ne_nil hne
  obtain ⟨before, behind, rfl, -, ht, hbehind⟩ := List.filter_eq_cons_iff.mp hmiddle
  obtain ⟨init, l, hlast⟩ : ∃ init l, t :: rest = init ++ [l] :=
    ⟨_, _, (List.dropLast_concat_getLast (List.cons_ne_nil t rest)).symm⟩
  have hkept : (t :: behind).filter f = init ++ [l] := by rw [List.filter_cons_of_pos ht, hbehind, hlast]
  obtain ⟨front, back, hcut, hinit, hback⟩ := List.filter_eq_append_iff.mp hkept
  obtain ⟨skipped, dropped, rfl, hskipped, hl, -⟩ := List.filter_eq_cons_iff.mp hback
  refine ⟨earlier ++ before, front ++ skipped ++ [l], dropped ++ later, ?_, ?_, ?_, ?_⟩
  · rw [hcut]
    simp only [List.append_assoc, List.cons_append, List.nil_append]
  · have hnone : skipped.filter f = [] := List.filter_eq_nil_iff.mpr hskipped
    rw [List.filter_append, List.filter_append, hinit, hnone, List.append_nil, List.filter_cons_of_pos hl, hlast]
    rfl
  · have hparts : t :: behind = front ++ skipped ++ [l] ++ dropped := by
      rw [hcut, List.append_assoc, List.append_assoc, List.singleton_append]
    obtain ⟨x, part, hpart⟩ := List.exists_cons_of_ne_nil (List.concat_ne_nil l (front ++ skipped))
    rw [hpart] at hparts ⊢
    obtain ⟨rfl, -⟩ := List.cons.inj hparts
    rfl
  · rw [hlast, List.getLast?_concat, List.getLast?_concat]

/-- The text at a span of a source is without errors, and its tokens are given ones of the source. -/
structure Token.Sliced (source : String) (ts : List Token) (span : Span) (text : String) : Prop where
  slice : Text.slice? span.start span.stop source.toList = some text.toList
  lexical : LexicalError.ofText text = []
  tokens : ts = (Token.significant text).map (Token.move (· + span.start))

namespace Item

theorem significant_eq (source : String) : Token.significant source =
    ((scan 0 source.toList).filter fun i => i.toToken.isSignificant).map toToken := by
  rw [Token.significant, Token.ofText, List.filter_map]
  rfl

end Item

/-- Tokens that lie side by side begin where the first one does, and end where the last one does. -/
theorem Tiles.ends {start stop : Nat} {ts : List Token} {a b : Token} (h : Tiles start ts stop) (ha : ts.head? = some a)
    (hb : ts.getLast? = some b) : a.span.start = start ∧ b.span.stop = stop := by
  induction ts generalizing start a with
  | nil => cases ha
  | cons t ts ih =>
    obtain ⟨hstart, -, -, hrest⟩ := h
    cases ha
    refine ⟨hstart, ?_⟩
    cases ts with
    | nil =>
      cases hb
      exact hrest
    | cons u us => exact (ih hrest rfl hb).2

/-- The text from the first to the last of neighbouring tokens of a source has just these tokens. -/
theorem Token.exists_sliced {source : String} {ts : List Token} {span : Span}
    (hlexical : LexicalError.ofText source = []) (hts : ts <:+: Token.significant source)
    (hspan : span.Reaches ts 0 ts.length) : ∃ text, Token.Sliced source ts span text := by
  obtain ⟨hpos, a, b, ha, hb, rfl⟩ := hspan
  rw [← List.head?_eq_getElem?] at ha
  rw [← List.getLast?_eq_getElem?] at hb
  obtain ⟨us, vs, hparts⟩ := hts
  rw [Item.significant_eq] at hparts
  obtain ⟨before, after, hkept, hbefore, rfl⟩ := List.map_eq_append_iff.mp hparts.symm
  obtain ⟨before, is, rfl, rfl, rfl⟩ := List.map_eq_append_iff.mp hbefore
  have hne : is ≠ [] := by
    rintro rfl
    cases hpos
  obtain ⟨earlier, part, later, hitems, rfl, hhead, hlast⟩ := exists_part_of_filter hkept hne
  -- The part of the source that these items cover, and its items read on their own.
  have hsource : source.toList = Item.textOf earlier ++ Item.textOf part ++ Item.textOf later := by
    rw [← Item.textOf_append, ← Item.textOf_append, ← hitems, Item.textOf_scan]
  have hscan := Item.scan_between hitems
  rw [Nat.zero_add] at hscan
  have htiles := Item.tiles_scan (Text.byteSize (Item.textOf earlier)) (Item.textOf part)
  rw [hscan] at htiles
  rw [List.head?_map, ← hhead, ← List.head?_map] at ha
  rw [List.getLast?_map, ← hlast, ← List.getLast?_map] at hb
  obtain ⟨hstart, hstop⟩ := htiles.ends ha hb
  refine ⟨String.ofList (Item.textOf part), ?_, ?_, ?_⟩
  · rw [String.toList_ofList, hsource, hstart, hstop]
    exact Text.slice?_append _ _ _
  · have hpart := Item.errors_at (Text.byteSize (Item.textOf earlier)) (String.ofList (Item.textOf part))
    have herrors := hlexical
    rw [LexicalError.ofText, hitems, List.filterMap_append, List.filterMap_append] at herrors
    obtain ⟨-, hnone⟩ := List.append_eq_nil_iff.mp (List.append_eq_nil_iff.mp herrors).1
    rw [String.toList_ofList, hscan, hnone] at hpart
    exact List.map_eq_nil_iff.mp hpart.symm
  · have hpart := Item.significant_at (Text.byteSize (Item.textOf earlier)) (String.ofList (Item.textOf part))
    rw [String.toList_ofList, hscan, List.filter_map] at hpart
    rw [hstart]
    exact hpart

/-! ## Reading the text of a part -/

/-- All offsets moved up by the same number. -/
def Parser.Relocation.shift (k : Nat) : Relocation where
  move := (· + k)
  starts _ := True
  mono h := Nat.add_le_add_right h k

/-- What is read from the tokens of a part alone is read from its text, at another place. -/
theorem parseOnly_of_goes {α : Type} {production : Parser α} {problem : SyntaxProblem} {move : (Nat → Nat) → α → α}
    {source text : String} {ts : List Token} {span : Span} {a : α} (hsliced : Token.Sliced source ts span text)
    (htracks : Tracks (.shift span.start) 0 (By (move (· + span.start))) production production)
    (hgoes : Goes production [] ts a []) :
    ∃ a', parseOnly production problem text = .ok a' ∧ a = move (· + span.start) a' := by
  have halike := alike_ofText (.shift span.start) text .collectAll (fun _ _ => trivial) trivial
  obtain ⟨hrel, hafter, -⟩ := htracks _ _ _ _ halike (Nat.zero_le _)
  obtain ⟨ns, hrun⟩ := hgoes ⟨Text.byteSize text.toList + span.start, .collectAll⟩ []
  rw [List.append_nil, hsliced.tokens] at hrun
  replace hrun : production ⟨Relocation.move (.shift span.start) (Text.byteSize text.toList), .collectAll⟩
      (.start ((Token.significant text).map (Token.move (Relocation.move (.shift span.start))))) = _ := hrun
  rw [hrun] at hrel hafter
  obtain ⟨a', ha', hmoved⟩ := Option.map_eq_some_iff.mp (Tracks.rel_by.mp hrel).symm
  have hend := List.map_eq_nil_iff.mp hafter.rest.symm
  have hclean := List.map_eq_nil_iff.mp hafter.diagnostics.symm
  exact ⟨a', parseOnly_eq_ok.mpr ⟨hsliced.lexical, _, Prod.ext ha' rfl, hend, hclean⟩, hmoved.symm⟩

/-! ## Sites -/

/-- The text at the span of a site, read on its own, is the site, at another place. -/
def Site.Faithful (source : String) : Site → Prop
  | .expr e => ∃ text, Text.slice? e.span.start e.span.stop source.toList = some text ∧
      ∃ e', parseExpression (String.ofList text) = .ok e' ∧ e = e'.move (· + e.span.start)
  | .stmt dialect s => ∃ text, Text.slice? s.span.start s.span.stop source.toList = some text ∧
      ∃ s', parseStatement dialect (String.ofList text) = .ok s' ∧ s = s'.move (· + s.span.start)

/-- An expression that is read from tokens alone reaches from the first to the last of them. -/
theorem reaches_of_expr {ts : List Token} {e : Expr} (hord : Token.Ordered ts)
    (hgoes : Goes (Grammar.full.expr 0) [] ts e []) : e.span.Reaches ts 0 ts.length := by
  obtain ⟨ns, hrun⟩ := hgoes ⟨0, .collectAll⟩ []
  rw [List.append_nil, List.append_nil, ← Grammar.innerExpr_eq] at hrun
  have hwalk : Walk ⟨0, .collectAll⟩ ts 0 (withGrammar fun g => g.expr 0) fun j e => SpanTree.Over ts 0 j e.spans :=
    walk_withGrammar fun g hg => walk_expr hg 0 0
  have hbefore : State.Before ⟨0, .collectAll⟩ ts 0 ⟨[], ts, [], []⟩ :=
    ⟨hord, Nat.zero_le _, rfl, rfl, fun _ hd => absurd hd List.not_mem_nil⟩
  obtain ⟨j, -, hafter, hover⟩ := hwalk _ _ _ hbefore hrun
  have hend : ts.length ≤ j := List.drop_eq_nil_iff.mp hafter.rest.symm
  obtain rfl : j = ts.length := Nat.le_antisymm hafter.le hend
  exact e.span_spans ▸ (hover e rfl).reaches

/-- A statement behind its attributes is written from its first token up to where it ends. -/
theorem span_of_plainStmt {g : Grammar} {dialect : Dialect} {c : Setting} {s s' : State} {st : Stmt}
    (h : Inner.plainStmt g dialect c s = (some st, s')) : st.span = s'.spanFrom (s.peekSpan c).start := by
  obtain ⟨start, s₁, hstart, h⟩ := bind_eq_some.mp h
  cases hstart
  obtain ⟨form, s₂, -, h⟩ := bind_eq_some.mp h
  cases h
  rfl

/-- No attribute instance stands in front of a statement without diagnostics: it would have been reported. -/
theorem Grammar.unattributed {dialect : Dialect} {c : Setting} {s s' : State} {st : Stmt}
    (h : full.stmt dialect c s = (some st, s')) (hclean : s'.diagnostics = []) : Lacks (.punct .attrOpen) s.rest := by
  have hplain : Moving (Inner.plainStmt full dialect) :=
    ((inner_full [] 0).plainStmt_confined (H := any) (u := true) dialect).moves
  obtain ⟨_, s₁, hskip, hrest⟩ := bind_eq_some.mp h
  by_contra hopen
  have hdirty := Confined.skipAttributes_dirty (c := c) hopen
  rw [hskip] at hdirty
  exact hdirty ((hplain.of_run hrest).clean hclean)

/-- A statement that is read from tokens alone reaches from the first to the last of them. -/
theorem reaches_of_stmt {ts : List Token} {dialect : Dialect} {s : Stmt} (hord : Token.Ordered ts) (hne : ts ≠ [])
    (hgoes : Goes (Grammar.full.stmt dialect) [] ts s []) : s.span.Reaches ts 0 ts.length := by
  obtain ⟨ns, hrun⟩ := hgoes ⟨0, .collectAll⟩ []
  rw [List.append_nil, List.append_nil] at hrun
  have hlacks : Lacks (.punct .attrOpen) ts := Grammar.unattributed hrun rfl
  obtain ⟨_, s₁, hskip, hrest⟩ := bind_eq_some.mp hrun
  rw [Confined.skipAttributes_of_lacks hlacks] at hskip
  cases hskip
  have hpos := List.length_pos_iff.mpr hne
  obtain ⟨a, ha⟩ : ∃ a, ts[0]? = some a := ⟨_, List.getElem?_eq_getElem hpos⟩
  obtain ⟨b, hb⟩ : ∃ b, ts[ts.length - 1]? = some b := ⟨_, List.getElem?_eq_getElem (by omega)⟩
  have hle := Nat.le_trans (Nat.le_of_lt (hord.start_lt_stop ha)) (hord.stop_le_stop (Nat.zero_le _) ha hb)
  have hlast : ts.reverse.head? = some b := by rw [List.head?_reverse, List.getLast?_eq_getElem?, hb]
  refine ⟨hpos, a, b, ha, hb, (span_of_plainStmt hrest).trans ?_⟩
  rw [← List.head?_eq_getElem?] at ha
  rw [State.spanFrom, State.lastEnd, State.peekSpan, hlast, ha]
  exact congrArg (Span.mk a.span.start) (Nat.max_eq_left hle)

/-- A site that is read from its own tokens alone is faithful. -/
theorem faithful_of_alone {source : String} (hlexical : LexicalError.ofText source = []) {x : Site}
    (h : x.Alone (Token.significant source)) : x.Faithful source := by
  have hordered : ∀ {ts : List Token}, ts <:+: Token.significant source → Token.Ordered ts := by
    rintro ts ⟨us, vs, hts⟩
    have hall := Token.ordered_significant source
    rw [← hts] at hall
    exact hall.left.right
  cases x with
  | expr e =>
    obtain ⟨ts, -, hts, hgoes⟩ := h
    obtain ⟨text, hsliced⟩ := Token.exists_sliced hlexical hts (reaches_of_expr (hordered hts) hgoes)
    rw [← Grammar.innerExpr_eq] at hgoes
    have htracks : Tracks (.shift e.span.start) 0 (By (Expr.move (· + e.span.start)))
        (withGrammar fun g => g.expr 0) (withGrammar fun g => g.expr 0) := .withGrammar fun level =>
      ((Grammar.Tracked.upTo _ level).expr 0).weaken (Nat.le_refl 0) fun _ _ _ _ he => he.1
    refine ⟨text.toList, hsliced.slice, ?_⟩
    rw [String.ofList_toList]
    exact parseOnly_of_goes hsliced htracks hgoes
  | stmt dialect s =>
    obtain ⟨ts, hne, hts, hgoes⟩ := h
    obtain ⟨text, hsliced⟩ := Token.exists_sliced hlexical hts (reaches_of_stmt (hordered hts) hne hgoes)
    rw [← Grammar.innerStmt_eq] at hgoes
    have htracks : Tracks (.shift s.span.start) 0 (By (Stmt.move (· + s.span.start)))
        (withGrammar fun g => g.stmt dialect) (withGrammar fun g => g.stmt dialect) := .withGrammar fun level =>
      (Grammar.Tracked.upTo _ level).stmt dialect
    refine ⟨text.toList, hsliced.slice, ?_⟩
    rw [String.ofList_toList]
    exact parseOnly_of_goes hsliced htracks hgoes

/-- What is read without diagnostics by an inner production has only sites that are read alone. -/
theorem allAlone_of_parseOnly {α : Type} {production : Parser α} {problem : SyntaxProblem} {sites : α → List Site}
    {source : String} {a : α} {F : α → List Token → Prop}
    (hproduction : ∀ tokens n, Confined tokens n any true false F (fun a => AllSites (Site.Alone tokens) (sites a))
      production)
    (h : parseOnly production problem source = .ok a) : AllSites (Site.Alone (Token.significant source)) (sites a) := by
  obtain ⟨-, s', hrun, -, hclean⟩ := parseOnly_eq_ok.mp h
  have hstarts : Starts (Token.significant source) ((State.ofText source).rest.length + 1) any (.ofText source) :=
    ⟨Nat.lt_succ_self _, List.suffix_refl _, trivial⟩
  exact ((hproduction _ _).runs _ _ _ _ hstarts hrun hclean).1

/-- Spans are faithful: the text at the span of an expression or a statement in the tree of a source without
diagnostics, or of a text that was read as one expression or one statement, is read on its own as that expression or as
that statement of its dialect, with all its spans moved by the start of the span. -/
theorem spans_faithful :
    (∀ source recovery, (parse source recovery).diagnostics = [] →
      AllSites (Site.Faithful source) (parse source recovery).root.sites) ∧
    (∀ source e, parseExpression source = .ok e → AllSites (Site.Faithful source) e.sites) ∧
    ∀ dialect source s, parseStatement dialect source = .ok s → AllSites (Site.Faithful source) (s.sites dialect) := by
  refine ⟨fun source recovery h x hx => ?_, fun source e h x hx => ?_, fun dialect source s h x hx => ?_⟩
  · exact faithful_of_alone (parse_clean h).1 (alone_of_clean h x hx)
  · have halone := allAlone_of_parseOnly (fun tokens n => (inner_full tokens n).expr 0) h
    exact faithful_of_alone (parseOnly_eq_ok.mp h).1 (halone x hx)
  · have halone := allAlone_of_parseOnly (fun tokens n => (inner_full tokens n).stmt dialect) h
    exact faithful_of_alone (parseOnly_eq_ok.mp h).1 (halone x hx)

end Bluespec
