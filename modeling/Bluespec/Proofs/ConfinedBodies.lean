import Bluespec.Proofs.ConfinedExpressions

/-!
# Simple statements and bodies are confined

Whether a body is a lone action block is decided by the tokens behind that block.  In a body without diagnostics the
block is read as such either way, so the answer is the same wherever else the tokens of the body stand
(**`Inner.atLoneBlock_elsewhere`**).

* **`Inner.simple`** — simple statements.
* **`Inner.body`** — bodies of functions and methods.
-/

namespace Bluespec

open Bluespec.Parser

/-! ## What stands behind an action block -/

/-- A label, or none where no colon follows. -/
def IsLabel (lab rest : List Token) : Prop :=
  lab = [] ∧ Lacks (.punct .colon) rest ∨ ∃ colon name, lab = [colon, name] ∧ colon.kind = .punct .colon

theorem afterLabel_append {lab rest : List Token} (h : IsLabel lab rest) : afterLabel (lab ++ rest) = rest := by
  rcases h with ⟨rfl, hlacks⟩ | ⟨colon, name, rfl, hcolon⟩
  · cases rest with
    | nil => rfl
    | cons t rest => exact if_neg (hlacks t rfl)
  · exact if_pos hcolon

/-- Between its words the tokens of an action block are neutral. -/
theorem afterActionBlock_append {t t' : Token} {us lab rest : List Token} {opening closing : Keyword}
    (hopen : opening = .action ∨ opening = .actionvalue) (hclose : closing = .endaction ∨ closing = .endactionvalue)
    (ht : t.kind = .keyword opening) (ht' : t'.kind = .keyword closing) (hus : Neutral us) (hlab : IsLabel lab rest) :
    afterActionBlock (t :: (us ++ t' :: lab) ++ rest) = (afterSemicolon rest).head?.map Token.kind := by
  have hwords : afterActionWords 0 (t :: (us ++ t' :: lab) ++ rest) = lab ++ rest := by
    rw [List.cons_append, List.append_assoc, afterActionWords_opening ht hopen, hus.paired, List.cons_append,
      afterActionWords_closing ht' hclose, if_pos rfl]
  rw [afterActionBlock, hwords, afterLabel_append hlab]

/-- Behind an optional semicolon the same token comes next. -/
theorem afterSemicolon_head {us rest rest' : List Token} (hhead : rest'.head? = rest.head?)
    (hsemi : us = [] → Lacks (.punct .semi) rest) :
    (afterSemicolon (us ++ rest')).head? = (afterSemicolon (us ++ rest)).head? := by
  have hkeep : ∀ {ts}, Lacks (.punct .semi) ts → afterSemicolon ts = ts := by
    rintro (_ | ⟨t, ts⟩) hts
    · rfl
    · exact if_neg (hts t rfl)
  have happend : ∀ ts : List Token, (ts ++ rest').head? = (ts ++ rest).head? := by
    rintro (_ | ⟨t, ts⟩)
    · exact hhead
    · rfl
  cases us with
  | nil =>
    have hlacks : Lacks (.punct .semi) rest' := fun t ht => hsemi rfl t (hhead ▸ ht)
    rw [List.nil_append, List.nil_append, hkeep hlacks, hkeep (hsemi rfl), hhead]
  | cons t us =>
    rw [List.cons_append, List.cons_append, afterSemicolon, afterSemicolon]
    split
    · exact happend us
    · rfl

namespace Parser

variable {c : Setting} {s s' : State}

theorem expect_took {k : Kind} {t : Token} (h : expect k c s = (some t, s')) : t.kind = k ∧ s.Took [t] s' := by
  rcases Confined.eat_cases k c s with ⟨t', ts, hrest, hk, heat⟩ | ⟨-, heat⟩
  · rw [expect, bind_of_some heat] at h
    cases h
    exact ⟨hk, .step hrest⟩
  · rw [expect, bind_of_some heat] at h
    cases h

theorem expectKeyword_took {k : Keyword} {x : Unit} (h : expectKeyword k c s = (some x, s')) :
    ∃ t, t.kind = .keyword k ∧ s.Took [t] s' := by
  obtain ⟨t, s₁, hexpect, hdone⟩ := bind_eq_some.mp h
  cases hdone
  exact ⟨t, expect_took hexpect⟩

theorem label_took {l : Option Label} (h : label c s = (some l, s')) (hclean : s'.diagnostics = []) :
    ∃ lab, s.Took lab s' ∧ IsLabel lab s'.rest := by
  rw [label, Confined.accept_bind] at h
  rcases Confined.eat_cases (.punct .colon) c s with ⟨colon, ts, hrest, hcolon, heat⟩ | ⟨hlacks, heat⟩
  · rw [bind_of_some heat] at h
    replace h : (eat .ident >>= _) c s.step = _ := h
    rcases Confined.eat_cases .ident c s.step with ⟨name, ts, hrest', -, heat'⟩ | ⟨-, heat'⟩
    · rw [bind_of_some heat'] at h
      cases h
      exact ⟨_, (State.Took.step hrest).append (.step hrest'), .inr ⟨colon, name, rfl, hcolon⟩⟩
    · rw [bind_of_some heat'] at h
      replace h : (eat .typeIdent >>= _) c s.step = _ := h
      rcases Confined.eat_cases .typeIdent c s.step with ⟨name, ts, hrest', -, heat''⟩ | ⟨-, heat''⟩
      · rw [bind_of_some heat''] at h
        cases h
        exact ⟨_, (State.Took.step hrest).append (.step hrest'), .inr ⟨colon, name, rfl, hcolon⟩⟩
      · rw [bind_of_some heat''] at h
        cases h
        cases hclean
  · rw [bind_of_some heat] at h
    cases h
    exact ⟨[], .nil s, .inl ⟨rfl, hlacks⟩⟩

/-- Items without diagnostics end at a closing word. -/
theorem itemsUpTo_closing {α : Type} {item : Parser α} {limit : Nat} {as : List α}
    (h : itemsUpTo item limit c s = (some as, s')) (hclean : s'.diagnostics = []) : Closing s'.rest := by
  induction limit generalizing s as with
  | zero => cases h
  | succ limit ih =>
    rw [itemsUpTo, Confined.unlessCloser_apply] at h
    split at h
    · next hclosed =>
      cases h
      rw [hclean, List.isEmpty_nil, Bool.not_true, Bool.and_false, Bool.or_false] at hclosed
      exact Confined.atCloser_iff.mp hclosed
    · obtain ⟨first, s₁, -, h⟩ := bind_eq_some.mp h
      obtain ⟨others, s₂, hothers, h⟩ := bind_eq_some.mp h
      cases h
      exact ih hothers

/-- The first one of some items. -/
theorem items_first {α : Type} {item : Parser α} {as : List α} (hitem : Moving item)
    (hfails : ∀ s₁, item c s = (none, s₁) → s₁.diagnostics ≠ []) (hopen : s.atCloser = false)
    (h : items item c s = (some as, s')) (hclean : s'.diagnostics = []) :
    ∃ a s₁, item c s = (some a, s₁) ∧ s₁.Moves s' := by
  replace h : itemsUpTo item (s.rest.length + 1) c s = (some as, s') := h
  rw [itemsUpTo, Confined.unlessCloser_apply] at h
  split at h
  · next hclosed =>
    cases h
    rw [hclean, hopen, List.isEmpty_nil, Bool.not_true, Bool.and_false, Bool.or_false] at hclosed
    cases hclosed
  · obtain ⟨first, s₁, hfirst, h⟩ := bind_eq_some.mp h
    obtain ⟨others, s₂, hothers, h⟩ := bind_eq_some.mp h
    cases h
    have hmoves := (Moving.itemsUpTo hitem s.rest.length).of_run hothers
    obtain ⟨a, rfl, hrun⟩ := Confined.resuming_clean hfails hfirst (hmoves.clean hclean)
    exact ⟨a, s₁, hrun, hmoves⟩

end Parser

namespace Inner

variable {tokens : List Token} {n : Nat} {H : Option Kind → Prop} {u : Bool} {c : Setting} {s s' : State}

/-- The tokens of an action block. -/
structure BlockTokens (opening closing : Keyword) (s : State) (ts : List Token) (s' : State) : Prop where
  took : s.Took ts s'
  parts : ∃ t us t' lab, ts = t :: (us ++ t' :: lab) ∧ t.kind = .keyword opening ∧ t'.kind = .keyword closing ∧
    Neutral us ∧ IsLabel lab s'.rest

theorem block_took (h : Inner tokens n) {dialect : Dialect} {opening closing : Keyword} {b : Block}
    (hs : Starts tokens (n + 1) H s) (hrun : Grammar.full.block dialect opening closing c s = (some b, s'))
    (hclean : s'.diagnostics = []) : ∃ ts, BlockTokens opening closing s ts s' := by
  rw [block_eq] at hrun
  obtain ⟨start, s₀, hstart, hrun⟩ := bind_eq_some.mp hrun
  cases hstart
  obtain ⟨_, s₁, hopening, hrun⟩ := bind_eq_some.mp hrun
  obtain ⟨x, s₂, hinner, hrun⟩ := bind_eq_some.mp hrun
  obtain ⟨_, s₃, hclosing, hrun⟩ := bind_eq_some.mp hrun
  obtain ⟨l, s₄, hlabel, hrun⟩ := bind_eq_some.mp hrun
  cases hrun
  obtain ⟨lab, hlab, hshape⟩ := label_took hlabel hclean
  obtain ⟨t', ht', hts'⟩ := expectKeyword_took hclosing
  obtain ⟨t, ht, hts⟩ := expectKeyword_took hopening
  have hclean₂ := ((Moving.expectKeyword closing).of_run hclosing).clean ((Moving.label.of_run hlabel).clean hclean)
  obtain ⟨-, us, -, hus⟩ := (h.labelled_confined dialect).runs c s₁ x s₂ (hs.later hts (Nat.le_refl _)) hinner hclean₂
  refine ⟨t :: (us ++ t' :: lab), ?_, t, us, t', lab, rfl, ht, ht', hus.shape, hshape⟩
  have htook := ((hts.append hus.took).append hts').append hlab
  rw [List.append_assoc, List.append_assoc, List.singleton_append, List.singleton_append] at htook
  exact htook

/-- Whether an action block comes first. -/
def AtAction (k : Option Kind) : Prop := k = some (.keyword .action) ∨ k = some (.keyword .actionvalue)

/-- What an action block as a primary is read from. -/
theorem primary_took (h : Inner tokens n) {e : Expr} (hs : Starts tokens (n + 1) H s) (haction : AtAction s.peek)
    (hrun : Grammar.full.primary c s = (some e, s')) (hclean : s'.diagnostics = []) :
    ∃ ts opening closing, (opening = .action ∨ opening = .actionvalue) ∧
      (closing = .endaction ∨ closing = .endactionvalue) ∧ BlockTokens opening closing s ts s' := by
  obtain ⟨start, s₀, hstart, hrun⟩ := bind_eq_some.mp hrun
  cases hstart
  rw [bind_of_some peek_eq] at hrun
  rcases haction with hk | hk <;> rw [hk] at hrun
  · obtain ⟨b, s₁, hblock, hrun⟩ := bind_eq_some.mp hrun
    cases hrun
    obtain ⟨ts, hts⟩ := h.block_took hs hblock hclean
    exact ⟨ts, _, _, .inl rfl, .inl rfl, hts⟩
  · obtain ⟨b, s₁, hblock, hrun⟩ := bind_eq_some.mp hrun
    cases hrun
    obtain ⟨ts, hts⟩ := h.block_took hs hblock hclean
    exact ⟨ts, _, _, .inr rfl, .inr rfl, hts⟩

/-- Where an action block has been read, the same token comes behind it and an optional semicolon wherever else the
tokens stand, if no semicolon is left. -/
theorem afterActionBlock_elsewhere (h : Inner tokens n) {e : Expr} {s₁ : State} {ts rest : List Token}
    (hs : Starts tokens (n + 1) H s) (haction : AtAction s.peek) (hrun : Grammar.full.primary c s = (some e, s₁))
    (hmoves : s₁.Moves s') (hclean : s'.diagnostics = []) (hts : s.Took ts s')
    (hsemi : s₁.rest = s'.rest → Lacks (.punct .semi) s'.rest) (hrest : SameNext s'.rest rest) :
    afterActionBlock (ts ++ rest) = afterActionBlock s.rest := by
  obtain ⟨ts₁, opening, closing, hopen, hclose, hblock⟩ := h.primary_took hs haction hrun (hmoves.clean hclean)
  obtain ⟨t, us, t', lab, rfl, ht, ht', hus, hlab⟩ := hblock.parts
  obtain ⟨vs, hvs⟩ := hmoves.rest
  have hsplit : ts = t :: (us ++ t' :: lab) ++ vs := by
    refine (List.append_left_inj s'.rest).mp ?_
    rw [← hts.rest, hblock.took.rest, ← hvs, List.append_assoc]
  have hhead : (vs ++ rest).head? = s₁.rest.head? := by
    rw [← hvs]
    cases vs with
    | nil => exact hrest.head
    | cons v vs => rfl
  have hlab' : IsLabel lab (vs ++ rest) := hlab.imp_left fun ⟨hnil, hlacks⟩ => ⟨hnil, fun t ht => hlacks t (hhead ▸ ht)⟩
  rw [hsplit, List.append_assoc, afterActionBlock_append hopen hclose ht ht' hus hlab', hblock.took.rest,
    afterActionBlock_append hopen hclose ht ht' hus hlab, ← hvs]
  refine congrArg _ (afterSemicolon_head hrest.head fun hnil => hsemi ?_)
  rw [← hvs, hnil, List.nil_append]

/-! ## Bodies -/

/-- A body that is one action block. -/
def blockBody (g : Grammar) (dialect : Dialect) : Parser Body := do
  match ← resuming g.primary with
  | some e =>
    let _ ← eat (.punct .semi)
    return .block e
  | none => return .stmts dialect (← items (g.innerStmt dialect))

/-- A body of statements. -/
def stmtsBody (g : Grammar) (dialect : Dialect) : Parser Body := do
  return .stmts dialect (← items (g.innerStmt dialect))

theorem body_eq (g : Grammar) (dialect : Dialect) (closing : Keyword) : g.body dialect closing = (do
    if ← Grammar.atLoneBlock closing then blockBody g dialect else stmtsBody g dialect) := rfl

theorem stmtsBody_confined (h : Inner tokens n) (dialect : Dialect) : Confined tokens n any false true never
    (fun b => AllSites (Site.Alone tokens) b.sites) (stmtsBody Grammar.full dialect) :=
  .passKeep .never (.items (h.stmt dialect).part (advances_stmt dialect)) fun _ => .ret Stmt.allSitesIn.mpr

theorem blockBody_confined (h : Inner tokens n) (dialect : Dialect) : Confined tokens (n + 1) any true true never
    (fun b => AllSites (Site.Alone tokens) b.sites) (blockBody Grammar.full dialect) := by
  have hprimary : Confined tokens (n + 1) any true true (fun x rest => ∀ e ∈ x, OperandStops rest)
      (fun x => ∃ e, x = some e ∧ AllSites (Site.Alone tokens) e.sites) (resuming Grammar.full.primary) :=
    h.primary_alone.resuming fun e rest hrest => hrest e rfl
  refine hprimary.first false .never fun x => ?_
  cases x with
  | none => exact (h.stmtsBody_confined dialect).imp fun _ _ hx => hx.elim fun _ he => nomatch he.1
  | some e =>
    have hend : ∀ x : Option Token, Confined tokens n any false true never
        (fun b => (∃ e', some e = some e' ∧ AllSites (Site.Alone tokens) e'.sites) →
          AllSites (Site.Alone tokens) b.sites) (pure (Body.block e)) := by
      refine fun _ => .ret ?_
      rintro ⟨_, ⟨⟩, he⟩
      exact he
    exact .eat rfl (.inr fun _ _ h => h.elim) (fun t => (hend (some t)).imp fun _ hb _ => hb) (hend none)

/-- What a lone block is told by. -/
def loneAnswer (closing : Keyword) (rest : List Token) : Bool :=
  (rest.head?.map Token.kind == some (.keyword .action) || rest.head?.map Token.kind == some (.keyword .actionvalue)) &&
    afterActionBlock rest == some (.keyword closing)

theorem atLoneBlock_eq (closing : Keyword) (c : Setting) (s : State) :
    Grammar.atLoneBlock closing c s = (some (loneAnswer closing s.rest), s) := rfl

theorem loneAnswer_of_action {closing : Keyword} {rest rest' : List Token} (hhead : rest'.head? = rest.head?)
    (h : AtAction (rest.head?.map Token.kind) → afterActionBlock rest' = afterActionBlock rest) :
    loneAnswer closing rest' = loneAnswer closing rest := by
  rw [loneAnswer, loneAnswer, hhead]
  by_cases haction : AtAction (rest.head?.map Token.kind)
  · rw [h haction]
  · have hno : (rest.head?.map Token.kind == some (.keyword .action) ||
        rest.head?.map Token.kind == some (.keyword .actionvalue)) = false := by
      rw [Bool.or_eq_false_iff]
      exact ⟨beq_false_of_ne fun hk => haction (.inl hk), beq_false_of_ne fun hk => haction (.inr hk)⟩
    rw [hno, Bool.false_and, Bool.false_and]

theorem stmtForm_of_action (dialect : Dialect) (haction : AtAction s.peek) :
    Grammar.full.stmtForm dialect c s = Grammar.full.actionStmt dialect c s := by
  rw [Grammar.stmtForm, bind_of_some peek_eq]
  rcases haction with hk | hk <;> rw [hk]

/-- A statement that begins with an action block begins with it as a primary. -/
theorem primary_of_stmt {dialect : Dialect} {st : Stmt} (haction : AtAction s.peek)
    (hrun : Grammar.full.innerStmt dialect c s = (some st, s')) :
    ∃ e s₁, Grammar.full.primary c s = (some e, s₁) ∧ s₁.Moves s' := by
  have hattributes : skipAttributes c s = (some (), s) := by
    refine Confined.skipAttributes_of_lacks fun t ht hk => ?_
    rw [AtAction, State.peek, show s.rest.head? = some t from ht, Option.map_some, hk] at haction
    rcases haction with haction | haction <;> cases haction
  rw [Grammar.innerStmt_eq, Grammar.stmt, bind_of_some hattributes] at hrun
  obtain ⟨start, s₀, hstart, hrun⟩ := bind_eq_some.mp hrun
  cases hstart
  obtain ⟨form, s₄, hstmt, hdone⟩ := bind_eq_some.mp hrun
  cases hdone
  rw [stmtForm_of_action dialect haction] at hstmt
  obtain ⟨span, s₀, hspan, hrun⟩ := bind_eq_some.mp hstmt
  cases hspan
  obtain ⟨e', s₂, hoperand, hrun⟩ := bind_eq_some.mp hrun
  obtain ⟨x, s₃, heat, hrun⟩ := bind_eq_some.mp hrun
  obtain ⟨_, s₅, hpermit, hrun⟩ := bind_eq_some.mp hrun
  cases hrun
  obtain ⟨e, s₁, hprimary, hsuffixes⟩ := bind_eq_some.mp hoperand
  have hmoves : Moving (Grammar.full.suffixes e) := Grammar.onward_full.suffixes e
  exact ⟨e, s₁, hprimary, (hmoves.of_run hsuffixes).trans (((Moving.eat _).of_run heat).trans
    ((Moving.permit _ _ _).of_run hpermit))⟩

theorem steady_body (dialect : Dialect) (closing : Keyword) (k : Nat) :
    Steady (.free (k + 1) false) (fun _ => .nothing) (Grammar.full.body dialect closing) :=
  have hbody : Inside sameRuns (k + 1) [] ((Grammar.upTo (k + 1)).body dialect closing)
      (Grammar.full.body dialect closing) fun b => [] ++ b.declared :=
    Inherited.body inherited_sameRuns (level_full (Nat.le_refl _)) dialect closing
  hbody.steady_full

/-- What a body that is one action block is read from. -/
theorem blockBody_eq_some (h : Inner tokens n) {dialect : Dialect} {b : Body} (hs : Starts tokens (n + 1) H s)
    (hrun : blockBody Grammar.full dialect c s = (some b, s')) (hclean : s'.diagnostics = []) :
    ∃ e s₁ x, b = .block e ∧ Grammar.full.primary c s = (some e, s₁) ∧ eat (.punct .semi) c s₁ = (some x, s') := by
  obtain ⟨read, s₁, hfirst, hrun⟩ := bind_eq_some.mp hrun
  have hfails : ∀ s₁, Grammar.full.primary c s = (none, s₁) → s₁.diagnostics ≠ [] := fun s₁ hnone =>
    (h.primary (H := H) (u := true)).fails c s s₁ hs hnone
  cases read with
  | none =>
    obtain ⟨ss, s₂, hitems, hdone⟩ := bind_eq_some.mp hrun
    cases hdone
    have hmoves : s₁.Moves s' := (Moving.itemsUpTo (Grammar.onward_full.stmt dialect) _).of_run hitems
    obtain ⟨e, heq, -⟩ := Confined.resuming_clean hfails hfirst (hmoves.clean hclean)
    cases heq
  | some e =>
    obtain ⟨x, s₂, heat, hdone⟩ := bind_eq_some.mp hrun
    cases hdone
    obtain ⟨e', heq, hprimary⟩ := Confined.resuming_clean hfails hfirst (((Moving.eat _).of_run heat).clean hclean)
    cases heq
    exact ⟨e, s₁, x, rfl, hprimary, heat⟩

/-- An action block at the beginning of a body is read as a primary either way. -/
theorem primary_of_body (h : Inner tokens n) {dialect : Dialect} {lone : Bool} {b : Body} (hs : Starts tokens n any s)
    (haction : AtAction s.peek)
    (hrun : (if lone = true then blockBody Grammar.full dialect else stmtsBody Grammar.full dialect) c s = (some b, s'))
    (hclean : s'.diagnostics = []) : ∃ e s₁, Grammar.full.primary c s = (some e, s₁) ∧ s₁.Moves s' ∧
      (s₁.rest = s'.rest → Lacks (.punct .semi) s'.rest) := by
  cases lone with
  | true =>
    have hstarts : Starts tokens (n + 1) any s := ⟨Nat.lt_succ_of_lt hs.bound, hs.within, hs.head⟩
    obtain ⟨e, s₁, x, rfl, hprimary, heat⟩ := h.blockBody_eq_some hstarts hrun hclean
    refine ⟨e, s₁, hprimary, (Moving.eat _).of_run heat, fun hsame => ?_⟩
    rcases Confined.eat_cases (.punct .semi) c s₁ with ⟨t, ts, hrest, -, heat'⟩ | ⟨hlacks, -⟩
    · rw [heat'] at heat
      cases heat
      have hlt := (State.Took.step hrest).length_lt (List.cons_ne_nil _ _)
      rw [hsame] at hlt
      exact absurd hlt (Nat.lt_irrefl _)
    · rwa [hsame] at hlacks
  | false =>
    obtain ⟨ss, s₁, hrun, hdone⟩ := bind_eq_some.mp hrun
    cases hdone
    have hopen : s.atCloser = false := by
      rw [State.atCloser]
      rcases haction with hk | hk <;> rw [hk] <;> rfl
    have hfails : ∀ s₁, Grammar.full.innerStmt dialect c s = (none, s₁) → s₁.diagnostics ≠ [] := fun s₁ hnone =>
      (h.stmt dialect).fails c s s₁ hs hnone
    obtain ⟨st, s₁, hstmt, hmoves⟩ := items_first (Grammar.onward_full.stmt dialect) hfails hopen hrun hclean
    obtain ⟨e, s₂, hprimary, hmoves'⟩ := primary_of_stmt haction hstmt
    refine ⟨e, s₂, hprimary, hmoves'.trans hmoves, fun _ t ht hk => ?_⟩
    have hcloser := itemsUpTo_closing hrun hclean t ht
    rw [hk] at hcloser
    cases hcloser

theorem body (h : Inner tokens n) (dialect : Dialect) (closing : Keyword) : Confined tokens n any false true never
    (fun b => AllSites (Site.Alone tokens) b.sites) (Grammar.full.body dialect closing) := by
  refine .of_steady (steady_body dialect closing) fun c s b s' hs hrun hclean => ?_
  have hchosen : ∀ lone : Bool, Confined tokens n any false true never (fun b => AllSites (Site.Alone tokens) b.sites)
      (if lone = true then blockBody Grammar.full dialect else stmtsBody Grammar.full dialect) := by
    rintro (_ | _)
    · exact h.stmtsBody_confined dialect
    · exact (h.blockBody_confined dialect).lower.maybe
  rw [body_eq, bind_of_some (atLoneBlock_eq closing c s)] at hrun
  obtain ⟨hsites, ts, hcommon, hts⟩ := (hchosen _).runs c s b s' hs hrun hclean
  refine ⟨hsites, ts, hcommon, hts.took, hts.shape, hts.reads, fun cs rest hcs hrest => ?_⟩
  refine .look (fun c' ns => ?_) (hts.again cs rest hcs hrest)
  have hsame : SameNext s'.rest rest := hrest.elim id fun h => h.elim
  have hhead : (ts ++ rest).head? = s.rest.head? := by
    rw [hts.took.rest]
    cases ts with
    | nil => exact hsame.head
    | cons t ts => rfl
  rw [atLoneBlock_eq, loneAnswer_of_action hhead fun haction => ?_]
  obtain ⟨e, s₁, hprimary, hmoves, hsemi⟩ := h.primary_of_body hs haction hrun hclean
  exact h.afterActionBlock_elsewhere ⟨Nat.lt_succ_of_lt hs.bound, hs.within, hs.head⟩ haction hprimary hmoves hclean
    hts.took hsemi hsame

/-! ## Simple statements -/

theorem steady_simpleTail (target : Expr) (k : Nat) :
    Steady (.free (k + 1) true) (fun _ => .reading) (Grammar.full.simpleTail target) :=
  have htail : Outset sameRuns k ([] ++ target.declared) ((Grammar.upTo k).simpleTail target)
      (Grammar.full.simpleTail target) fun s => [] ++ s.inner :=
    Inherited.simpleTail inherited_sameRuns (level_full (Nat.le_refl k)) target
  htail.steady_full

/-- A simple statement that begins with an expression is at least two tokens long. -/
theorem untyped_reads {x : SimpleStmt} (hrun : (Grammar.full.operand >>= Grammar.full.simpleTail) c s = (some x, s')) :
    s'.rest.length + 1 < s.rest.length := by
  obtain ⟨target, s₁, hoperand, htail⟩ := bind_eq_some.mp hrun
  have hfirst := ((steady_operand s.rest.length).tells ⟨Nat.lt_succ_self _, trivial⟩ hoperand).read rfl
  have hrest := ((steady_simpleTail target s₁.rest.length).tells ⟨Nat.lt_succ_self _, trivial⟩ htail).read rfl
  omega

/-- Behind a name of a type the mark of parameters begins no statement. -/
theorem untyped_of_hash {x : SimpleStmt} {t t' : Token} {ts : List Token} (hrest : s.rest = t :: t' :: ts)
    (hk : t.kind = .typeIdent) (hk' : t'.kind = .punct .hash) :
    (Grammar.full.operand >>= Grammar.full.simpleTail) c s ≠ (some x, s') := by
  intro hrun
  obtain ⟨cs, rest, ds, ns⟩ := s
  cases hrest
  have hlacks : ∀ k, k ≠ .punct .hash → Lacks k (t' :: ts) := by
    rintro k hne t'' ht rfl
    cases ht
    exact hne hk'
  obtain ⟨e, hoperand⟩ : ∃ e, Grammar.full.operand c ⟨cs, t :: t' :: ts, ds, ns⟩ = (some e, ⟨t :: cs, t' :: ts, ds, ns⟩) :=
    Grammar.operand_of_typeIdent hk (hlacks _ nofun) (fun t'' ht => by cases ht; rw [hk']; rfl)
  rw [bind_of_some hoperand, Grammar.simpleTail, bind_of_some peek_cons, hk'] at hrun
  cases hrun

theorem simple (h : Inner tokens n) : Confined tokens (n + 1) H true u anything
    (fun x => AllSites (Site.Alone tokens) x.sites) Grammar.full.simple := by
  refine .isNext (.inl rfl) h.letStmt ?_
  have huntyped : Confined tokens (n + 1) (fun k => H k ∧ k ≠ some (.keyword .let_)) true u anything
      (fun x => AllSites (Site.Alone tokens) x.sites) (Grammar.full.operand >>= Grammar.full.simpleTail) :=
    .first true .reads h.operand_confined.behind h.simpleTail
  refine .atTypedDecl h.typedStmt huntyped (fun c s x s' _ _ hrun => typedStmt_reads hrun) ?_ ?_
    (.inl fun c s x s' hrun _ => untyped_reads hrun)
  · intro c s x s' hbit hrun
    obtain ⟨target, s₁, hoperand, -⟩ := bind_eq_some.mp hrun
    obtain ⟨e, s₂, hprimary, -⟩ := bind_eq_some.mp hoperand
    obtain ⟨k, hpeek, hk⟩ := Grammar.primary_head hprimary
    rw [hbit] at hpeek
    cases hpeek
    cases hk
  · intro c s x s' t ts hrest hk hrun _
    refine .inr fun t' ht hk' => ?_
    obtain ⟨us, rfl⟩ : ∃ us, ts = t' :: us := by
      cases ts with
      | nil => cases ht
      | cons t'' us => cases ht; exact ⟨us, rfl⟩
    exact untyped_of_hash hrest hk hk' hrun

end Inner

end Bluespec
