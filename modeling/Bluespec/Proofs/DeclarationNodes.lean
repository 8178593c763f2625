import Mathlib.Data.List.Nodup
import Mathlib.Data.List.Pairwise
import Bluespec.Proofs.LosslessTree
import Bluespec.Proofs.NodePlaces
import Bluespec.Proofs.WholeTexts

/-!
# The concrete tree and the syntax tree agree

The declarations of a source unit are among those that its run recorded, and the nodes of the concrete tree are
those that the run recorded.

* **`Recorded`** — where the declarations stand that a concrete tree has nodes for, and which of them a source unit
  holds.
* **`recorded_parse`** — they are so for every source.
* **`parse_declarationNodes`** — each declaration has one node, with its text; nodes are nested as their texts are;
  and without diagnostics there are no other nodes.
-/

namespace Bluespec

/-! ## Recorded declarations -/

/-- Declarations over tokens, recorded in order, and those of them that a source unit holds. -/
structure Recorded (tokens : List Token) (ns kept : List NodeSpan) : Prop where
  covering : ∀ n ∈ ns, n.Over tokens
  ordered : ns.Pairwise NodeSpan.Precedes
  kept : ∃ part : List NodeSpan, part.Sublist ns ∧ kept.Perm part

namespace Recorded

variable {tokens : List Token} {ns kept : List NodeSpan}

theorem subset (h : Recorded tokens ns kept) : kept ⊆ ns := by
  obtain ⟨part, hsub, hperm⟩ := h.kept
  exact List.Subset.trans hperm.subset hsub.subset

/-- No two recorded declarations stand at the same place. -/
theorem eq_of_span (h : Recorded tokens ns kept) {a b : NodeSpan} (ha : a ∈ ns) (hb : b ∈ ns)
    (hspan : a.span = b.span) : a = b := by
  refine Decidable.byContradiction fun hne => ?_
  have hsymm : Std.Symm fun a b : NodeSpan => a.Precedes b ∨ b.Precedes a := ⟨fun _ _ => Or.symm⟩
  have happart : ns.Pairwise fun a b => a.Precedes b ∨ b.Precedes a := h.ordered.imp Or.inl
  have hpos := (h.covering a ha).nonempty
  have hprecedes : a.Precedes b ∨ b.Precedes a := happart.forall ha hb hne
  rw [NodeSpan.Precedes, NodeSpan.Precedes, hspan] at hprecedes
  rw [hspan] at hpos
  omega

theorem nodup (h : Recorded tokens ns kept) : ns.Nodup := by
  refine h.ordered.imp_of_mem fun {a b} ha _ hprecedes heq => ?_
  have hpos := (h.covering a ha).nonempty
  rw [← heq, NodeSpan.Precedes] at hprecedes
  omega

theorem nodup_kept (h : Recorded tokens ns kept) : kept.Nodup := by
  obtain ⟨part, hsub, hperm⟩ := h.kept
  exact hperm.nodup_iff.mpr (h.nodup.sublist hsub)

end Recorded

theorem Token.ordered_of_tiles {start stop : Nat} {ts : List Token} (h : Tiles start ts stop) : Token.Ordered ts := by
  induction ts generalizing start with
  | nil => exact ⟨nofun, .nil⟩
  | cons t ts ih =>
    obtain ⟨hstart, -, hlt, hrest⟩ := h
    have hordered := ih hrest
    refine ⟨List.forall_mem_cons.mpr ⟨hstart ▸ hlt, hordered.nonempty⟩, List.pairwise_cons.mpr ⟨?_, hordered.before⟩⟩
    exact fun b hb => (hrest.bounds_of_mem hb).1

theorem Token.Ordered.filter {ts : List Token} (h : Token.Ordered ts) (f : Token → Bool) :
    Token.Ordered (ts.filter f) :=
  ⟨fun t ht => h.nonempty t (List.mem_filter.mp ht |>.1), h.before.filter f⟩

/-- Where no diagnostic is kept there was none. -/
theorem Recovery.eq_nil_of_keep {recovery : Recovery} {ds : List Diagnostic}
    (h : Diagnostic.sortByStart (recovery.keep ds) = []) : ds = [] := by
  have hkeep : recovery.keep ds = [] := by
    have hperm := Diagnostic.sortByStart_perm (recovery.keep ds)
    rw [h] at hperm
    exact hperm.nil_eq.symm
  cases recovery with
  | collectAll => exact hkeep
  | firstError =>
    cases ds with
    | nil => rfl
    | cons d ds => cases hkeep

section Runs

open Bluespec.Parser

/-- What a run over a text recorded, and what its value holds of it: all where there is no diagnostic. -/
theorem recorded_run {α : Type} {p : Parser α} {declared : α → List NodeSpan} {mark : α → Parser.Mark} {source : String}
    {recovery : Recovery} {r : Option α} {s' : State}
    (h : Holds recording (Grade.free ((State.ofText source).rest.length + 1) false) mark [] p p
      fun a => [] ++ declared a) (hrun : p (.ofText source recovery) (.ofText source) = (r, s')) :
    Recorded (Token.ofText source) s'.nodes.reverse (r.elim [] declared) ∧
      ∀ a, r = some a → s'.diagnostics = [] → (declared a).Perm s'.nodes.reverse := by
  have htokens : Token.Ordered (Token.ofText source) := Token.ordered_of_tiles (Token.tiles_ofText source)
  obtain ⟨ts, ns, hadds, haccounts⟩ := h.trait _ _ r s' (htokens.filter Token.isSignificant)
    ⟨Nat.lt_succ_self _, trivial⟩ hrun
  have hnodes : s'.nodes.reverse = ns := by
    rw [hadds.nodes]
    show (ns.reverse ++ []).reverse = ns
    rw [List.append_nil, List.reverse_reverse]
  have hread : ts ⊆ Token.ofText source := by
    have hsub : ts ⊆ (State.ofText source).rest := hadds.rest ▸ List.subset_append_left _ _
    exact List.Subset.trans hsub fun t ht => (List.mem_filter.mp ht).1
  have hover : ∀ n ∈ ns, n.Over (Token.ofText source) := fun n hn => (hadds.covering n hn).mono hread
  rw [hnodes]
  cases r with
  | none => exact ⟨⟨hover, hadds.ordered, [], List.nil_sublist ns, .nil⟩, nofun⟩
  | some a =>
    obtain ⟨kept, hsub, hperm, hall⟩ := haccounts a rfl
    refine ⟨⟨hover, hadds.ordered, kept, hsub, hperm⟩, fun b hb hclean => ?_⟩
    cases hb
    exact hall rfl hclean ▸ hperm

/-- What the run over a source recorded, and what its source unit holds of it: all where there is no diagnostic. -/
theorem recorded_parse (source : String) (recovery : Recovery) :
    Recorded (Token.ofText source) (recordedNodes source recovery) (parse source recovery).root.declared ∧
      ((parse source recovery).diagnostics = [] →
        (parse source recovery).root.declared.Perm (recordedNodes source recovery)) := by
  by_cases hlexical : recovery = .firstError ∧
      !((LexicalError.ofText source).map Diagnostic.ofLexicalError).isEmpty
  · rw [recordedNodes, if_pos hlexical, parse, if_pos hlexical]
    exact ⟨⟨fun n hn => absurd hn List.not_mem_nil, .nil, [], .slnil, .nil⟩, fun _ => .nil⟩
  rw [recordedNodes, if_neg hlexical, parse, if_neg hlexical]
  have hholds : Holds recording (Grade.free ((State.ofText source).rest.length + 1) false) (fun _ => Mark.nothing) []
      sourceUnit sourceUnit fun u => [] ++ u.declared := inherited_recording.sourceUnit
  cases hrun : sourceUnit (.ofText source recovery) (.ofText source) with
  | mk r s' =>
    obtain ⟨hrecorded, hall⟩ := recorded_run hholds hrun
    have hnil : Diagnostic.sortByStart (recovery.keep ((LexicalError.ofText source).map Diagnostic.ofLexicalError ++
        s'.diagnostics.reverse)) = [] → s'.diagnostics = [] := fun hclean =>
      List.reverse_eq_nil_iff.mp (List.append_eq_nil_iff.mp (Recovery.eq_nil_of_keep hclean)).2
    cases r with
    | none => exact ⟨hrecorded, fun hclean => absurd (hnil hclean)
        (hholds.steady.dirty ⟨Nat.lt_succ_self _, trivial⟩ hrun)⟩
    | some u => exact ⟨hrecorded, fun hclean => hall u rfl (hnil hclean)⟩

/-- The declarations that a production records over a text. -/
def recordedIn {α : Type} (production : Parser α) (text : String) : List NodeSpan :=
  (production (.ofText text .collectAll) (.ofText text)).2.nodes.reverse

/-- Over a text that holds one thing each declaration of it is recorded once, and nothing else is. -/
theorem count_recordedIn {α : Type} {production : Parser α} {problem : SyntaxProblem} {declared : α → List NodeSpan}
    {mark : α → Parser.Mark} {text : String} {a : α}
    (h : Holds recording (Grade.free ((State.ofText text).rest.length + 1) false) mark [] production production
      fun a => [] ++ declared a) (hread : parseOnly production problem text = .ok a) {d : NodeSpan} (hd : d ∈ declared a) :
    (recordedIn production text).count d = 1 := by
  obtain ⟨-, s', hrun, -, hclean⟩ := parseOnly_eq_ok.mp hread
  obtain ⟨hrecorded, hall⟩ := recorded_run h hrun
  rw [recordedIn, hrun, ← (hall a rfl hclean).count_eq]
  exact List.count_eq_one_of_mem hrecorded.nodup_kept hd

theorem count_recordedIn_expr {text : String} {e : Expr} (h : parseExpression text = .ok e) {d : NodeSpan}
    (hd : d ∈ e.declared) : (recordedIn (withGrammar fun g => g.expr 0) text).count d = 1 := by
  have hholds : Holds recording (Grade.free ((State.ofText text).rest.length + 1) false) (fun _ => Mark.reading) []
      (withGrammar fun g => g.expr 0) (withGrammar fun g => g.expr 0) fun e => [] ++ e.declared :=
    inherited_recording.withGrammar fun _ hg =>
      inherited_recording.restrict (inherited_recording.expr hg 0) ⟨fun _ hs => hs, nofun⟩
  exact count_recordedIn hholds h hd

theorem count_recordedIn_stmt {dialect : Dialect} {text : String} {s : Stmt} (h : parseStatement dialect text = .ok s)
    {d : NodeSpan} (hd : d ∈ s.declared) : (recordedIn (withGrammar fun g => g.stmt dialect) text).count d = 1 := by
  have hholds : Holds recording (Grade.free ((State.ofText text).rest.length + 1) false) (fun _ => Mark.reading) []
      (withGrammar fun g => g.stmt dialect) (withGrammar fun g => g.stmt dialect) fun s => [] ++ s.declared :=
    inherited_recording.withGrammar fun _ hg => inherited_recording.stmt hg dialect
  exact count_recordedIn hholds h hd

end Runs

/-! ## Their nodes -/

namespace Concrete

/-- The nodes below the root that are for a declaration. -/
def nodesFor (t : Concrete) (d : NodeSpan) : List Placed := t.innerNodes.filter fun p => p.declaration? == some d

theorem Placed.span_of_declaration {p : Placed} {d : NodeSpan} (h : p.declaration? = some d) : d.span = p.span := by
  unfold declaration? at h
  split at h
  · cases h
    rfl
  · cases h

/-- Where each declaration occurs once it is that of one node. -/
theorem exists_filter_eq_singleton {ps : List Placed} {d : NodeSpan} (hnodup : (ps.filterMap Placed.declaration?).Nodup)
    (hd : d ∈ ps.filterMap Placed.declaration?) : ∃ p, ps.filter (fun p => p.declaration? == some d) = [p] := by
  induction ps with
  | nil => cases hd
  | cons p ps ih =>
    cases hp : p.declaration? with
    | none =>
      rw [List.filterMap_cons_none hp] at hnodup hd
      rw [List.filter_cons_of_neg (by simp [hp])]
      exact ih hnodup hd
    | some e =>
      rw [List.filterMap_cons_some hp] at hnodup hd
      obtain ⟨hnotin, hnodup⟩ := List.nodup_cons.mp hnodup
      by_cases he : e = d
      · subst he
        refine ⟨p, ?_⟩
        rw [List.filter_cons_of_pos (by simp [hp]), List.filter_eq_nil_iff.mpr]
        intro q hq hqe
        exact hnotin (List.mem_filterMap.mpr ⟨q, hq, beq_iff_eq.mp hqe⟩)
      · rw [List.filter_cons_of_neg (by simpa [hp] using he)]
        exact ih hnodup (List.mem_of_ne_of_mem (Ne.symm he) hd)

section Nodes

variable {tokens : List Token} {stop : Nat} {ns kept : List NodeSpan}

theorem exists_nodesFor (htiles : Tiles 0 tokens stop) (h : Recorded tokens ns kept) {d : NodeSpan} (hd : d ∈ ns) :
    ∃ p, (ofTokens tokens ns).nodesFor d = [p] := by
  have hperm := declarations_ofTokens htiles h.covering h.ordered
  exact exists_filter_eq_singleton (hperm.nodup_iff.mpr h.nodup) (hperm.mem_iff.mpr hd)

/-- The text of a node is that of the tree at its place. -/
theorem slice_of_mem_innerNodes {t : Concrete} {p : Placed} (h : p ∈ t.innerNodes) :
    Text.slice? p.span.start p.span.stop (texts t.children) = some p.tree.text := by
  obtain ⟨pre, post, htext, hstart⟩ := text_of_mem_nodesIn h
  rw [Nat.zero_add] at hstart
  rw [htext]
  show Text.slice? p.start (p.start + Text.byteSize p.tree.text) _ = _
  rw [hstart]
  exact Text.slice?_append pre p.tree.text post

/-- The node of one declaration is inside that of another one exactly where its text is. -/
theorem inside_iff (htiles : Tiles 0 tokens stop) (h : Recorded tokens ns kept) {p q : Placed} {d e : NodeSpan}
    (hp : p ∈ (ofTokens tokens ns).innerNodes) (hq : q ∈ (ofTokens tokens ns).innerNodes)
    (hd : p.declaration? = some d) (he : q.declaration? = some e) :
    q ∈ p.inside ↔ Within e.span d.span ∧ e ≠ d := by
  have hperm := declarations_ofTokens htiles h.covering h.ordered
  have hdmem : d ∈ ns := hperm.mem_iff.mp (List.mem_filterMap.mpr ⟨p, hp, hd⟩)
  have hemem : e ∈ ns := hperm.mem_iff.mp (List.mem_filterMap.mpr ⟨q, hq, he⟩)
  have hdspan := Placed.span_of_declaration hd
  have hespan := Placed.span_of_declaration he
  constructor
  · intro hinside
    refine ⟨by rw [hdspan, hespan]; exact within_of_inside hinside, fun heq => ?_⟩
    subst heq
    obtain ⟨r, hr⟩ := exists_nodesFor htiles h hdmem
    have hone : ∀ {x : Placed}, x ∈ (ofTokens tokens ns).innerNodes → x.declaration? = some e → x = r := by
      intro x hx hxe
      have hmem : x ∈ (ofTokens tokens ns).nodesFor e := List.mem_filter.mpr ⟨hx, beq_iff_eq.mpr hxe⟩
      exact List.mem_singleton.mp (hr ▸ hmem)
    cases (hone hp hd).trans (hone hq he).symm
    exact not_mem_inside p hinside
  · rintro ⟨hwithin, hne⟩
    have hspans : q.span ≠ p.span := fun hspan => hne (h.eq_of_span hemem hdmem (by rw [hespan, hspan, hdspan]))
    have hpos := (h.covering e hemem).nonempty
    rw [hespan] at hpos
    rw [hdspan, hespan] at hwithin
    exact inside_of_within_nodesIn hp hq hpos hwithin hspans

end Nodes

theorem kind_of_mem_partOf {t : Token} {offset : Nat} {p : Placed} (h : p ∈ (Builder.partOf t).nodesAt offset) :
    p.tree.kind = .error := by
  unfold Builder.partOf at h
  split at h
  · cases List.mem_singleton.mp h
    rfl
  · cases h

/-- The nodes of a builder are for declarations or around text that is no token. -/
theorem kind_of_mem_foldl {b : Builder} {ts : List Token} {p : Placed} (h : p ∈ (ts.foldl Builder.addToken b).nodes) :
    p ∈ b.nodes ∨ p.tree.kind = .error ∨ ∃ k, p.tree.kind = .node k := by
  induction ts generalizing b with
  | nil => exact .inl h
  | cons t ts ih =>
    rcases ih h with hadded | hkind
    · rw [Builder.nodes_addToken, List.append_assoc] at hadded
      rcases List.mem_append.mp hadded with hold | hnew
      · exact .inl hold
      · rcases List.mem_append.mp hnew with hclosed | hpart
        · exact .inr (.inr (Builder.kind_of_mem_closed hclosed))
        · exact .inr (.inl (kind_of_mem_partOf hpart))
    · exact .inr hkind

/-- A node of a tree that has no errors is for a declaration. -/
theorem isSome_declaration {tokens : List Token} {ns : List NodeSpan} (herrors : (ofTokens tokens ns).errorNodes = [])
    {p : Placed} (h : p ∈ (ofTokens tokens ns).innerNodes) : p.declaration?.isSome = true := by
  have hroot : p ∈ (ofTokens tokens ns).nodesAt 0 := List.mem_append_left _ h
  have hkind : p.tree.kind = .error ∨ ∃ k, p.tree.kind = .node k := by
    rw [innerNodes, nodesIn_ofTokens] at h
    rcases List.mem_append.mp h with hbuilt | hleft
    · rcases kind_of_mem_foldl hbuilt with hnone | hkind
      · cases hnone
      · exact hkind
    · exact .inr (Builder.kind_of_mem_left hleft)
  rcases hkind with herror | ⟨k, hk⟩
  · have hmem : p ∈ (ofTokens tokens ns).errorNodes := List.mem_filter.mpr ⟨hroot, beq_iff_eq.mpr herror⟩
    rw [herrors] at hmem
    cases hmem
  · rw [Placed.declaration?, hk]
    rfl

end Concrete

/-! ## Whole sources -/

open Concrete in
/-- A source without diagnostics has no text that is no token. -/
theorem errorNodes_of_clean {source : String} {recovery : Recovery} (h : (parse source recovery).diagnostics = []) :
    (parse source recovery).concrete.errorNodes = [] := by
  have hlexical : LexicalError.ofText source = [] := by
    unfold parse at h
    dsimp only at h
    split at h
    · exact List.map_eq_nil_iff.mp (Recovery.eq_nil_of_keep h)
    · exact List.map_eq_nil_iff.mp (List.append_eq_nil_iff.mp (Recovery.eq_nil_of_keep h)).1
  have hspans := spans_errorNodes source recovery
  rw [hlexical, List.map_nil, List.map_eq_nil_iff] at hspans
  exact hspans

open Concrete in
/-- Each declaration of a source unit has exactly one node in the concrete tree, of its kind and with the text at
its place.  The node of one declaration is inside that of another one exactly where its text is.  Without
diagnostics every node below the root is that of a declaration. -/
theorem parse_declarationNodes (source : String) (recovery : Recovery) :
    (parse source recovery).root.declared.Nodup ∧
      (∀ d ∈ (parse source recovery).root.declared, ∃ p, (parse source recovery).concrete.nodesFor d = [p] ∧
        Text.slice? d.span.start d.span.stop source.toList = some p.tree.text) ∧
      (∀ p ∈ (parse source recovery).concrete.innerNodes, ∀ q ∈ (parse source recovery).concrete.innerNodes,
        ∀ d e, p.declaration? = some d → q.declaration? = some e →
          (q ∈ p.inside ↔ Within e.span d.span ∧ e ≠ d)) ∧
      ((parse source recovery).diagnostics = [] →
        ((parse source recovery).concrete.innerNodes.map Placed.declaration?).Perm
          ((parse source recovery).root.declared.map some)) := by
  have htiles := Token.tiles_ofText source
  obtain ⟨hrecorded, hclean⟩ := recorded_parse source recovery
  have hconcrete := parse_concrete source recovery
  have hdeclarations := declarations_ofTokens htiles hrecorded.covering hrecorded.ordered
  refine ⟨hrecorded.nodup_kept, fun d hd => ?_, fun p hp q hq d e hpd hqe => ?_, fun hnone => ?_⟩
  · obtain ⟨p, hp⟩ := exists_nodesFor htiles hrecorded (hrecorded.subset hd)
    rw [← hconcrete] at hp
    have hmem : p ∈ (parse source recovery).concrete.nodesFor d := hp ▸ List.mem_singleton_self p
    have hspan := Placed.span_of_declaration (beq_iff_eq.mp (List.mem_filter.mp hmem).2)
    have hslice := slice_of_mem_innerNodes (List.mem_filter.mp hmem).1
    have htext : texts (parse source recovery).concrete.children = source.toList := by
      rw [← text_parse source recovery, hconcrete]
      exact (text_node _ _).symm
    rw [htext, ← hspan] at hslice
    exact ⟨p, hp, hslice⟩
  · rw [hconcrete] at hp hq
    exact inside_iff htiles hrecorded hp hq hpd hqe
  · have herrors := errorNodes_of_clean hnone
    rw [hconcrete] at herrors ⊢
    have hall : ∀ o ∈ (ofTokens (Token.ofText source) (recordedNodes source recovery)).innerNodes.map
        Placed.declaration?, o.isSome = true := List.forall_mem_map.mpr fun p hp => isSome_declaration herrors hp
    rw [← List.filter_eq_self.mpr hall, ← List.map_filterMap_some_eq_filter_map_isSome]
    exact (hdeclarations.trans (hclean hnone).symm).map some

end Bluespec
