import Bluespec.Proofs.UnitTraits

/-!
# The declarations that a run records

A run records declarations as it completes them.  Each of them reaches from one token that was read to another,
what lies in a declaration is recorded before it, and where no diagnostic is reported the value of the run holds
exactly the declarations that the run recorded.

* **`NodeSpan.Over`**, **`NodeSpan.Precedes`** — where a declaration stands, alone and with one recorded later.
* **`Adds`**, **`Accounts`** — what a run records, and what its value holds of it.
* **`recording`** — the trait of parsers of which both hold; **`inherited_recording`** — a grammar inherits it.
-/

namespace Bluespec

/-- No token is empty, and each of them ends before the next one begins. -/
structure Token.Ordered (ts : List Token) : Prop where
  nonempty : ∀ t ∈ ts, t.span.start < t.span.stop
  before : ts.Pairwise fun a b => a.span.stop ≤ b.span.start

namespace NodeSpan

/-- A declaration that reaches from one token to another. -/
def Over (ts : List Token) (n : NodeSpan) : Prop :=
  ∃ a ∈ ts, ∃ b ∈ ts, n.span = ⟨a.span.start, b.span.stop⟩ ∧ a.span.start < b.span.stop

/-- A declaration lies before another one, or inside it behind its first token. -/
def Precedes (a b : NodeSpan) : Prop :=
  a.span.stop ≤ b.span.start ∨ b.span.start < a.span.start ∧ a.span.stop ≤ b.span.stop

theorem Over.mono {ts ts' : List Token} {n : NodeSpan} (h : n.Over ts) (hsub : ts ⊆ ts') : n.Over ts' := by
  obtain ⟨a, ha, b, hb, hspan, hlt⟩ := h
  exact ⟨a, hsub ha, b, hsub hb, hspan, hlt⟩

theorem Over.nonempty {ts : List Token} {n : NodeSpan} (h : n.Over ts) : n.span.start < n.span.stop := by
  obtain ⟨a, -, b, -, hspan, hlt⟩ := h
  rw [hspan]
  exact hlt

end NodeSpan

namespace Token.Ordered

variable {ts ts₁ ts₂ : List Token} {n m : NodeSpan}

theorem right (h : Token.Ordered (ts₁ ++ ts₂)) : Token.Ordered ts₂ :=
  ⟨fun t ht => h.nonempty t (List.mem_append_right _ ht), (List.pairwise_append.mp h.before).2.1⟩

theorem left (h : Token.Ordered (ts₁ ++ ts₂)) : Token.Ordered ts₁ :=
  ⟨fun t ht => h.nonempty t (List.mem_append_left _ ht), (List.pairwise_append.mp h.before).1⟩

theorem tail {t : Token} (h : Token.Ordered (t :: ts)) : Token.Ordered ts :=
  ⟨fun t' ht' => h.nonempty t' (List.mem_cons_of_mem t ht'), h.before.tail⟩

/-- Tokens begin in their order. -/
theorem starts (h : Token.Ordered ts) : ts.Pairwise fun a b => a.span.start ≤ b.span.start :=
  h.before.imp_of_mem fun ha _ hle => Nat.le_trans (Nat.le_of_lt (h.nonempty _ ha)) hle

/-- Declarations over earlier tokens lie before those over later ones. -/
theorem precedes (h : Token.Ordered (ts₁ ++ ts₂)) (hn : n.Over ts₁) (hm : m.Over ts₂) : n.Precedes m := by
  obtain ⟨_, -, b, hb, hnspan, -⟩ := hn
  obtain ⟨a, ha, _, -, hmspan, -⟩ := hm
  rw [NodeSpan.Precedes, hnspan, hmspan]
  exact .inl ((List.pairwise_append.mp h.before).2.2 b hb a ha)

theorem stop_le_getLast (h : Token.Ordered ts) (hne : ts ≠ []) {t : Token} (ht : t ∈ ts) :
    t.span.stop ≤ (ts.getLast hne).span.stop := by
  induction ts generalizing t with
  | nil => cases ht
  | cons a ts ih =>
    cases ts with
    | nil =>
      cases ht with
      | head => exact Nat.le_refl _
      | tail _ ht => cases ht
    | cons b ts =>
      have htail : Token.Ordered (b :: ts) := right (show Token.Ordered ([a] ++ b :: ts) from h)
      rw [List.getLast_cons (List.cons_ne_nil b ts)]
      cases ht with
      | head =>
        have hle : a.span.stop ≤ b.span.start := List.rel_of_pairwise_cons h.before List.mem_cons_self
        have hb := ih htail (List.cons_ne_nil b ts) List.mem_cons_self
        have hlt := htail.nonempty b List.mem_cons_self
        omega
      | tail _ ht => exact ih htail (List.cons_ne_nil b ts) ht

theorem head_lt_getLast (h : Token.Ordered ts) (hne : ts ≠ []) :
    (ts.head hne).span.start < (ts.getLast hne).span.stop :=
  Nat.lt_of_lt_of_le (h.nonempty _ (List.head_mem hne)) (h.stop_le_getLast hne (List.head_mem hne))

end Token.Ordered

namespace Parser

open Grade Mark

/-! ## What a run records -/

/-- A run reads some tokens and records some declarations over them, over all but the first if it is asked. -/
structure Adds (past : Bool) (s s' : State) (ts : List Token) (ns : List NodeSpan) : Prop where
  rest : s.rest = ts ++ s'.rest
  nodes : s'.nodes = ns.reverse ++ s.nodes
  covering : ∀ n ∈ ns, n.Over (if past then ts.tail else ts)
  ordered : ns.Pairwise NodeSpan.Precedes

/-- The declarations of a value are those of the values before it and some that its run recorded: all of them
if no diagnostic is reported. -/
def Accounts (before now : List NodeSpan) (s s' : State) (ns : List NodeSpan) : Prop :=
  ∃ kept : List NodeSpan, kept.Sublist ns ∧ now.Perm (before ++ kept) ∧
    (s.diagnostics = [] → s'.diagnostics = [] → kept = ns)

section Runs

variable {past : Bool} {s s₁ s' : State} {ts ts₁ : List Token} {ns ns₁ : List NodeSpan}
  {before middle now : List NodeSpan}

/-- A run that only moves forward records nothing. -/
theorem Adds.nothing (hrest : s'.rest <:+ s.rest) (hnodes : s'.nodes = s.nodes) : ∃ ts, Adds past s s' ts [] := by
  obtain ⟨ts, hts⟩ := hrest
  exact ⟨ts, hts.symm, hnodes, nofun, .nil⟩

theorem Accounts.nothing (h : now.Perm before) : Accounts before now s s' [] :=
  ⟨[], .slnil, by rw [List.append_nil]; exact h, fun _ _ => rfl⟩

theorem Adds.weaken {past' : Bool} (h : Adds past s s' ts ns) (hpast : past' = true → past = true) :
    Adds past' s s' ts ns := by
  refine ⟨h.rest, h.nodes, fun n hn => (h.covering n hn).mono ?_, h.ordered⟩
  cases past' with
  | true => rw [hpast rfl]; exact List.Subset.refl _
  | false =>
    cases past with
    | true => exact (List.tail_sublist ts).subset
    | false => exact List.Subset.refl _

/-- Later tokens, and further declarations over them. -/
theorem Adds.trans {read : Bool} (hordered : Token.Ordered s.rest) (h : Adds past s s₁ ts ns)
    (h' : Adds (past && !read) s₁ s' ts₁ ns₁) (hread : read = true → ts ≠ []) :
    Adds past s s' (ts ++ ts₁) (ns ++ ns₁) := by
  have hfirst : (if past then ts.tail else ts) ⊆ ts := by
    split
    · exact (List.tail_sublist ts).subset
    · exact List.Subset.refl _
  have hsecond : (if (past && !read) then ts₁.tail else ts₁) ⊆ ts₁ := by
    split
    · exact (List.tail_sublist ts₁).subset
    · exact List.Subset.refl _
  constructor
  · rw [h.rest, h'.rest, List.append_assoc]
  · rw [h'.nodes, h.nodes, List.reverse_append, List.append_assoc]
  · intro n hn
    cases past with
    | false =>
      rcases List.mem_append.mp hn with hn | hn
      · exact (h.covering n hn).mono (List.subset_append_left _ _)
      · exact (h'.covering n hn).mono (List.Subset.trans hsecond (List.subset_append_right _ _))
    | true =>
      cases ts with
      | nil =>
        have hno : read = false := Bool.eq_false_iff.mpr fun hr => hread hr rfl
        subst hno
        rcases List.mem_append.mp hn with hn | hn
        · exact (h.covering n hn).mono (List.nil_subset _)
        · exact h'.covering n hn
      | cons t ts =>
        rcases List.mem_append.mp hn with hn | hn
        · exact (h.covering n hn).mono (List.subset_append_left _ _)
        · exact (h'.covering n hn).mono (List.Subset.trans hsecond (List.subset_append_right _ _))
  · rw [h.rest, h'.rest, ← List.append_assoc] at hordered
    refine List.pairwise_append.mpr ⟨h.ordered, h'.ordered, fun n hn m hm => ?_⟩
    exact hordered.left.precedes ((h.covering n hn).mono hfirst) ((h'.covering m hm).mono hsecond)

theorem Accounts.trans (h : Accounts before middle s s₁ ns) (h' : Accounts middle now s₁ s' ns₁)
    (hclean : s'.diagnostics = [] → s₁.diagnostics = []) : Accounts before now s s' (ns ++ ns₁) := by
  obtain ⟨kept, hsub, hperm, hall⟩ := h
  obtain ⟨kept', hsub', hperm', hall'⟩ := h'
  refine ⟨kept ++ kept', hsub.append hsub', ?_, fun hs hs' => ?_⟩
  · rw [← List.append_assoc]
    exact hperm'.trans (hperm.append_right _)
  · rw [hall hs (hclean hs'), hall' (hclean hs') hs']

end Runs

/-! ## The trait -/

/-- What a run records lies over the tokens it reads, and its value accounts for it. -/
def recording : Trait := fun _ γ before p _ after =>
  ∀ c s r s', Token.Ordered s.rest → γ.Admits s → p c s = (r, s') →
    ∃ ts ns, Adds γ.past s s' ts ns ∧ ∀ a, r = some a → Accounts before (after a) s s' ns

theorem eat_quiet {k : Kind} {c : Setting} {s s' : State} {r : Option (Option Token)} {before : List NodeSpan}
    (h : eat k c s = (r, s')) :
    s'.rest <:+ s.rest ∧ s'.nodes = s.nodes ∧ ∀ a, r = some a → before.Perm before := by
  obtain ⟨cs, rest, ds, ns⟩ := s
  cases rest with
  | nil =>
    cases h
    exact ⟨List.suffix_refl _, rfl, fun _ _ => .refl _⟩
  | cons t ts =>
    by_cases hk : t.kind = k
    · rw [eat_of_kind hk] at h
      cases h
      exact ⟨List.suffix_cons t ts, rfl, fun _ _ => .refl _⟩
    · have hno : eat k c ⟨cs, t :: ts, ds, ns⟩ = (some none, ⟨cs, t :: ts, ds, ns⟩) := if_neg hk
      rw [hno] at h
      cases h
      exact ⟨List.suffix_refl _, rfl, fun _ _ => .refl _⟩

section Closure

variable {α β : Type} {γ : Grade} {n : Nat} {past : Bool} {pre : State → Prop} {before : List NodeSpan}
  {k : α → Mark} {p p' : Parser α}

/-- A run that records nothing and whose value holds what was read before. -/
theorem recording_quiet {after : α → List NodeSpan}
    (h : ∀ c s r s', γ.Admits s → p c s = (r, s') →
      s'.rest <:+ s.rest ∧ s'.nodes = s.nodes ∧ ∀ a, r = some a → (after a).Perm before) :
    recording α γ before p p' after := by
  intro c s r s' _ hs hrun
  obtain ⟨hrest, hnodes, hafter⟩ := h c s r s' hs hrun
  obtain ⟨ts, hadds⟩ := Adds.nothing hrest hnodes
  exact ⟨ts, [], hadds, fun a ha => .nothing (hafter a ha)⟩

theorem recording_eat {kind : Kind} : recording (Option Token) γ before (eat kind) (eat kind) fun _ => before :=
  recording_quiet fun _ _ _ _ _ hrun => eat_quiet hrun

theorem recording_bind {mark : β → Mark} {f f' : α → Parser β} {middle : α → List NodeSpan}
    {after : β → List NodeSpan} (hp : Holds recording γ k before p p' middle)
    (hf : ∀ a, Holds recording (γ.after (k a)) (fun b => (mark b).without (k a)) (middle a) (f a) (f' a) after) :
    recording β γ before (p >>= f) (p' >>= f') after := by
  intro c s r s' hordered hs hrun
  rw [bind_apply] at hrun
  cases hfirst : p c s with
  | mk r₁ s₁ =>
    obtain ⟨ts, ns, hadds, haccounts⟩ := hp.trait c s r₁ s₁ hordered hs hfirst
    rw [hfirst] at hrun
    cases r₁ with
    | none =>
      cases hrun
      exact ⟨ts, ns, hadds, nofun⟩
    | some a =>
      have hs₁ := hp.steady.after hs hfirst
      have hordered₁ : Token.Ordered s₁.rest := (hadds.rest ▸ hordered).right
      obtain ⟨ts₁, ns₁, hadds₁, haccounts₁⟩ := (hf a).trait c s₁ r s' hordered₁ hs₁ hrun
      have hread : (k a).read = true → ts ≠ [] := by
        intro hr hts
        have hlt := (hp.steady.tells hs hfirst).read hr
        rw [hadds.rest, hts] at hlt
        exact Nat.lt_irrefl _ hlt
      refine ⟨ts ++ ts₁, ns ++ ns₁, hadds.trans hordered hadds₁ hread, fun b hb => ?_⟩
      exact (haccounts a rfl).trans (haccounts₁ b hb) ((hf a).steady.moves hs₁ hrun).clean

theorem closed_recording : Closed recording where
  vacuous hbound _ s _ _ _ hs := absurd hs.1 (by rw [hbound]; exact Nat.not_lt_zero _)
  weaken hγ hp c s r s' hordered hs hrun := by
    obtain ⟨ts, ns, hadds, haccounts⟩ := hp c s r s' hordered (hγ.admits s hs) hrun
    exact ⟨ts, ns, hadds.weaken hγ.past, haccounts⟩
  value ha := recording_quiet fun c s r s' _ hrun => by
    cases hrun
    exact ⟨List.suffix_refl _, rfl, fun a h => by cases h; exact ha⟩
  failure _ := recording_quiet fun c s r s' _ hrun => by
    cases hrun
    exact ⟨List.suffix_refl _, rfl, nofun⟩
  looks hq hf c s r s' hordered hs hrun := by
    rw [bind_apply, hq] at hrun
    exact (hf _).trait c s r s' hordered ⟨hs.1, hs.2, c.sourceEnd, rfl⟩ hrun
  reports hr := recording_quiet fun c s r s' _ hrun => by
    rw [hr.run] at hrun
    cases hrun
    exact ⟨List.suffix_refl _, rfl, fun _ _ => .refl _⟩
  skips := recording_quiet fun c s r s' _ hrun => by
    cases hrun
    exact ⟨(State.Moves.advance s _).rest, State.advance_nodes s _, fun _ _ => .refl _⟩
  eats := recording_eat
  binds := recording_bind

/-! ## Grammars -/

/-- A run that goes on without recording anything. -/
theorem Adds.further {s s₁ s' : State} {ts : List Token} {ns : List NodeSpan} (h : Adds past s s₁ ts ns)
    (hrest : s'.rest <:+ s₁.rest) (hnodes : s'.nodes = s₁.nodes) : ∃ ts', Adds past s s' ts' ns := by
  obtain ⟨more, hmore⟩ := hrest
  refine ⟨ts ++ more, ?_, hnodes.trans h.nodes, fun n hn => (h.covering n hn).mono ?_, h.ordered⟩
  · rw [h.rest, ← hmore, List.append_assoc]
  · cases past with
    | false => exact List.subset_append_left ts more
    | true =>
      cases ts with
      | nil => exact List.nil_subset _
      | cons t ts => exact List.subset_append_left ts more

theorem recording_attempt {after : α → List NodeSpan} (hp : Holds recording γ k before p p' after) :
    recording (Option α) γ before (attempt p) (attempt p') fun r => r.elim before after := by
  intro c s r s' hordered hs hrun
  cases hfirst : p c s with
  | mk r₁ s₁ =>
    obtain ⟨ts, ns, hadds, haccounts⟩ := hp.trait c s r₁ s₁ hordered hs hfirst
    have hattempt : attempt p c s = (some r₁, s₁) := by rw [attempt, hfirst]
    rw [hattempt] at hrun
    cases hrun
    refine ⟨ts, ns, hadds, fun a ha => ?_⟩
    cases ha
    cases r₁ with
    | some a => exact haccounts a rfl
    | none =>
      refine ⟨[], List.nil_sublist ns, .of_eq (List.append_nil before).symm, fun _ hclean => ?_⟩
      exact absurd hclean (hp.steady.dirty hs hfirst)

theorem nodes_resumeState (s s' : State) : (resumeState s s').nodes = s'.nodes := by
  unfold resumeState
  split
  · exact State.advance_nodes s' _
  · rfl

theorem recording_resume {after : α → List NodeSpan} (hp : Holds recording γ k before p p' after) :
    recording (Option α) γ before (resuming p) (resuming p') fun r => r.elim before after := by
  intro c s r s' hordered hs hrun
  cases hfirst : p c s with
  | mk r₁ s₁ =>
    obtain ⟨ts, ns, hadds, haccounts⟩ := hp.trait c s r₁ s₁ hordered hs hfirst
    rw [resuming, hfirst] at hrun
    cases r₁ with
    | some a =>
      cases hrun
      refine ⟨ts, ns, hadds, fun r hr => ?_⟩
      cases hr
      exact haccounts a rfl
    | none =>
      cases hrun
      have hmoves := State.Moves.resumeState s s₁
      obtain ⟨ts', hadds'⟩ := hadds.further hmoves.rest (nodes_resumeState s s₁)
      refine ⟨ts', ns, hadds', fun r hr => ?_⟩
      cases hr
      refine ⟨[], List.nil_sublist ns, .of_eq (List.append_nil before).symm, fun _ hclean => ?_⟩
      exact absurd (hmoves.clean hclean) (hp.steady.dirty hs hfirst)

/-- A declaration over all the tokens that were read comes after those over all but the first. -/
theorem Adds.record {s s' : State} {ts : List Token} {ns : List NodeSpan} (hordered : Token.Ordered s.rest)
    (h : Adds true s s' ts ns) (hne : ts ≠ []) (kind : NodeKind) :
    Adds false s (s'.record kind ⟨(ts.head hne).span.start, (ts.getLast hne).span.stop⟩) ts
      (ns ++ [⟨kind, (ts.head hne).span.start, (ts.getLast hne).span.stop⟩]) := by
  have hts : Token.Ordered ts := (h.rest ▸ hordered).left
  have hnonempty := hts.head_lt_getLast hne
  have hrecord : s'.record kind ⟨(ts.head hne).span.start, (ts.getLast hne).span.stop⟩ =
      { s' with nodes := ⟨kind, (ts.head hne).span.start, (ts.getLast hne).span.stop⟩ :: s'.nodes } :=
    if_neg (by rw [Span.isEmpty, decide_eq_true_eq]; exact Nat.not_le_of_lt hnonempty)
  rw [hrecord]
  refine ⟨h.rest, ?_, fun n hn => ?_, List.pairwise_append.mpr ⟨h.ordered, List.pairwise_singleton _ _, ?_⟩⟩
  · rw [h.nodes, List.reverse_append]
    rfl
  · rcases List.mem_append.mp hn with hn | hn
    · exact (h.covering n hn).mono (List.tail_sublist ts).subset
    · cases List.mem_singleton.mp hn
      exact ⟨_, List.head_mem hne, _, List.getLast_mem hne, rfl, hnonempty⟩
  · intro n hn m hm
    cases List.mem_singleton.mp hm
    obtain ⟨a, ha, b, hb, hspan, -⟩ := h.covering n hn
    refine .inr ?_
    rw [hspan]
    refine ⟨?_, hts.stop_le_getLast hne ((List.tail_sublist ts).subset hb)⟩
    cases ts with
    | nil => exact absurd rfl hne
    | cons t ts =>
      have hlt : t.span.start < t.span.stop := hts.nonempty t List.mem_cons_self
      have hle : t.span.stop ≤ a.span.start := List.rel_of_pairwise_cons hts.before ha
      exact Nat.lt_of_lt_of_le hlt hle

theorem State.Moves.consumed {s s' : State} {ts : List Token} (h : s.Moves s') (hrest : s.rest = ts ++ s'.rest) :
    s'.consumed = ts.reverse ++ s.consumed := by
  have htokens : s'.consumed.reverse ++ s'.rest = s.consumed.reverse ++ (ts ++ s'.rest) :=
    hrest ▸ h.tokens
  rw [← List.append_assoc] at htokens
  have hreverse := congrArg List.reverse (List.append_cancel_right htokens)
  rw [List.reverse_reverse, List.reverse_append, List.reverse_reverse] at hreverse
  exact hreverse

/-- Where what a run read begins and ends. -/
theorem State.Moves.extent {s s' : State} {ts : List Token} (h : s.Moves s') (hrest : s.rest = ts ++ s'.rest)
    (hne : ts ≠ []) (c : Setting) :
    (s.peekSpan c).start = (ts.head hne).span.start ∧ s'.lastEnd = (ts.getLast hne).span.stop := by
  constructor
  · rw [State.peekSpan, hrest]
    cases ts with
    | nil => exact absurd rfl hne
    | cons t ts => rfl
  · rw [State.lastEnd, h.consumed hrest, List.head?_append, List.head?_reverse, List.getLast?_eq_some_getLast hne]
    rfl

theorem spanFrom_extent {s s' : State} {ts : List Token} (hordered : Token.Ordered s.rest) (h : s.Moves s')
    (hrest : s.rest = ts ++ s'.rest) (hne : ts ≠ []) (c : Setting) :
    s'.spanFrom (s.peekSpan c).start = ⟨(ts.head hne).span.start, (ts.getLast hne).span.stop⟩ := by
  obtain ⟨hstart, hstop⟩ := h.extent hrest hne c
  have hts : Token.Ordered ts := (hrest ▸ hordered).left
  rw [State.spanFrom, hstart, hstop, Nat.max_eq_left (Nat.le_of_lt (hts.head_lt_getLast hne))]

theorem diagnostics_record (s : State) (kind : NodeKind) (span : Span) :
    (s.record kind span).diagnostics = s.diagnostics := by
  obtain ⟨ns, hrecord⟩ := s.record_eq kind span
  rw [hrecord]

theorem recording_noting {n : Nat} {node? : α → Option NodeSpan} {after : α → List NodeSpan}
    (hcovering : Covering node? p) (hread : ∀ a m, node? a = some m → (k a).read = true)
    (hp : Holds recording ⟨n, pre, true⟩ k before p p' after) :
    recording α ⟨n, pre, false⟩ before (p >>= noting node?) (p' >>= noting node?)
      fun a => after a ++ (node? a).toList := by
  intro c s r s' hordered hs hrun
  rw [bind_apply] at hrun
  have hadmits : (⟨n, pre, true⟩ : Grade).Admits s := hs
  cases hfirst : p c s with
  | mk r₁ s₁ =>
    obtain ⟨ts, ns, hadds, haccounts⟩ := hp.trait c s r₁ s₁ hordered hadmits hfirst
    rw [hfirst] at hrun
    cases r₁ with
    | none =>
      cases hrun
      exact ⟨ts, ns, hadds.weaken nofun, nofun⟩
    | some a =>
      cases hnode : node? a with
      | none =>
        have hnoting : noting node? a c s₁ = (some a, s₁) := by rw [noting, hnode]; rfl
        cases hnoting.symm.trans hrun
        refine ⟨ts, ns, hadds.weaken nofun, fun b hb => ?_⟩
        cases hb
        show Accounts before (after a ++ (node? a).toList) _ _ _
        rw [hnode, Option.toList_none, List.append_nil]
        exact haccounts a rfl
      | some m =>
        have hnoting : noting node? a c s₁ = (some a, s₁.record m.kind m.span) := by rw [noting, hnode]; rfl
        cases hnoting.symm.trans hrun
        have hne : ts ≠ [] := by
          intro hts
          have hlt := (hp.steady.tells hadmits hfirst).read (hread a m hnode)
          rw [hadds.rest, hts] at hlt
          exact Nat.lt_irrefl _ hlt
        have hspan := spanFrom_extent hordered (hp.steady.moves hadmits hfirst) hadds.rest hne c
        rw [← hcovering c s a s₁ m hfirst hnode] at hspan
        have hrecord := hadds.record hordered hne m.kind
        rw [← hspan] at hrecord
        refine ⟨ts, _, hrecord, fun b hb => ?_⟩
        cases hb
        show Accounts before (after a ++ (node? a).toList) _ _ _
        rw [hnode]
        obtain ⟨kept, hsub, hperm, hall⟩ := haccounts a rfl
        refine ⟨kept ++ [m], hsub.append (.refl _), ?_, fun hclean hclean' => ?_⟩
        · rw [← List.append_assoc]
          exact hperm.append_right [m]
        · rw [hall hclean (diagnostics_record _ _ _ ▸ hclean')]

theorem recording_nameList {n : Nat} {reader : ListReader α} {kind : NodeKind} :
    recording (α × Span) (headed n false) before (nameList reader kind) (nameList reader kind)
      fun r => before ++ [⟨kind, r.2⟩] := by
  intro c s r s' hordered hs hrun
  obtain ⟨t, rest, hrest⟩ := hs.2
  have hmoves := State.Moves.advance s (Extent.nameList s.rest)
  have hnodes := State.advance_nodes s (Extent.nameList s.rest)
  have hadds : Adds true s (s.advance (Extent.nameList s.rest)) (s.rest.take (Extent.nameList s.rest)) [] := by
    refine ⟨?_, hnodes, nofun, .nil⟩
    rw [State.advance_rest, List.take_append_drop]
  have hne : s.rest.take (Extent.nameList s.rest) ≠ [] := by
    have hpos := nameList_pos t rest
    rw [hrest]
    intro htake
    rcases List.take_eq_nil_iff.mp htake with hzero | hnil
    · rw [hzero] at hpos
      exact Nat.lt_irrefl 0 hpos
    · cases hnil
  obtain ⟨hstart, hstop⟩ := hmoves.extent hadds.rest hne c
  have hrecord := hadds.record hordered hne kind
  rw [← hstart, ← hstop] at hrecord
  unfold nameList at hrun
  dsimp only at hrun
  split at hrun
  · cases hrun
    refine ⟨_, _, hrecord, fun b hb => ?_⟩
    cases hb
    exact ⟨_, .refl _, .refl _, fun _ _ => rfl⟩
  · cases hrun
    exact ⟨_, [], ⟨hadds.rest, hnodes, nofun, .nil⟩, nofun⟩

theorem recording_halted {n : Nat} {mark : β → Mark} {f f' : Bool → Parser β} {after : β → List NodeSpan}
    (htrue : Holds recording (Grade.dirty n past) mark before (f true) (f' true) after)
    (hfalse : Holds recording ⟨n, pre, past⟩ mark before (f false) (f' false) after) :
    recording β ⟨n, pre, past⟩ before (halted >>= f) (halted >>= f') after := by
  intro c s r s' hordered hs hrun
  have hbind : (halted >>= f) c s = f (c.recovery == .firstError && !s.diagnostics.isEmpty) c s := rfl
  rw [hbind] at hrun
  cases hb : c.recovery == .firstError && !s.diagnostics.isEmpty with
  | false =>
    rw [hb] at hrun
    exact hfalse.trait c s r s' hordered hs hrun
  | true =>
    rw [hb] at hrun
    refine htrue.trait c s r s' hordered ⟨hs.1, fun hnil => ?_⟩ hrun
    rw [hnil, List.isEmpty_nil, Bool.not_true, Bool.and_false] at hb
    cases hb

theorem recording_chain {n : Nat} {g g' : Grammar}
    (hread : Holds recording (free n true) (fun _ => nothing) before (g.furtherConjuncts (conditionalPower + 1))
      (g'.furtherConjuncts (conditionalPower + 1)) fun es => before ++ es.flatMap Expr.declared) :
    recording (Option (List Expr)) (free n true) before
      (tentatively g.conjunctsOfConditional) (tentatively g'.conjunctsOfConditional)
      fun r => before ++ (r.getD []).flatMap Expr.declared := by
  intro c s r s' hordered hs hrun
  rcases chain_cases (hread.steady c s hs).1 with ⟨es, s₁, hconjuncts, hkept⟩ | hdropped
  · cases hkept.symm.trans hrun
    obtain ⟨ts, ns, hadds, haccounts⟩ := hread.trait c s (some es) s' hordered hs hconjuncts
    refine ⟨ts, ns, hadds, fun r hr => ?_⟩
    cases hr
    exact haccounts es rfl
  · cases hdropped.symm.trans hrun
    have hnothing : ∃ ts, Adds true s s ts [] := Adds.nothing (List.suffix_refl s.rest) rfl
    obtain ⟨ts, hadds⟩ := hnothing
    refine ⟨ts, [], hadds, fun r hr => ?_⟩
    cases hr
    exact .nothing (.of_eq (List.append_nil before))

end Closure

theorem inherited_recording : Inherited recording where
  toClosed := closed_recording
  discards hdirty hp c s r s' hordered hs hrun := by
    obtain ⟨ts, ns, hadds, -⟩ := hp c s r s' hordered hs hrun
    refine ⟨ts, ns, hadds, fun _ _ => ⟨[], List.nil_sublist ns, .of_eq (List.append_nil _).symm, fun hclean => ?_⟩⟩
    exact absurd hclean (hdirty s hs)
  halts := recording_halted
  attempts := recording_attempt
  resumes := recording_resume
  looksAhead _ hmoves _ := recording_quiet fun c s r s' _ hrun => by
    cases (lookahead_eq (hmoves c s)).symm.trans hrun
    exact ⟨List.suffix_refl _, rfl, fun _ _ => .refl _⟩
  records := recording_noting
  lists := recording_nameList
  chains _ := recording_chain

end Parser

end Bluespec
