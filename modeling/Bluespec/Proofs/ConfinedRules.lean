import Bluespec.Proofs.Confined
import Bluespec.Proofs.InheritedTraits

/-!
# Rules for confined parsers

* **`Confined.first`**, **`Confined.seq`**, **`Confined.keep`** — parsers in a row.
* **`Confined.peek`**, **`Confined.isNext`**, **`Confined.accept`** — choices by the next token.
* **`Confined.separated`**, **`Confined.items`**, **`Confined.rounds`** — loops.
* **`Confined.between`** — what stands between two words.
-/

namespace Bluespec.Parser.Confined

variable {α β : Type} {tokens : List Token} {n m : Nat} {H H' : Option Kind → Prop} {r r' u w : Bool}
  {F : α → List Token → Prop} {P : α → Prop} {p : Parser α} {f : α → Parser β} {F' : β → List Token → Prop}
  {Q : β → Prop}

/-! ## Parsers in a row -/

/-- A first token and what comes after it, which may call any production. -/
theorem first (q : Bool) (hF : Tail q F' F) (hp : Confined tokens (n + 1) H true u F P p)
    (hf : ∀ a, Confined tokens n any q true F' (fun b => P a → Q b) (f a)) :
    Confined tokens (n + 1) H true u F' Q (p >>= f) := by
  refine hp.bind (q := q) (fun a => ?_) (Nat.le_refl _) hF
  rw [Bool.or_true]
  exact hf a

theorem enter (q : Bool) (hF : Tail q F' F) (hp : Confined tokens (n + 1) H true u F P p)
    (hf : ∀ a, Confined tokens n any q true F' Q (f a)) : Confined tokens (n + 1) H true u F' Q (p >>= f) :=
  hp.first q hF fun a => (hf a).imp fun _ hb _ => hb

/-- Two parsers in a row, the first of which reads a token.  What is known of the first value may be used. -/
theorem keep (q : Bool) (hF : Tail q F' F) (hp : Confined tokens n H true u F P p)
    (hf : ∀ a, Confined tokens n any q true F' (fun b => P a → Q b) (f a)) : Confined tokens n H true u F' Q (p >>= f) := by
  refine hp.bind (q := q) (fun a => ?_) (Nat.le_add_right _ _) hF
  rw [Bool.or_true]
  exact hf a

/-- Where the second parser stops the first one does, as far as the second value comes from the first one. -/
theorem keepOf (q : Bool) (R : α → β → Prop) (hF : q = true ∨ ∀ a b rest, R a b → F' b rest → F a rest)
    (hp : Confined tokens n H true u F P p)
    (hf : ∀ a, Confined tokens n any q true F' (fun b => R a b ∧ (P a → Q b)) (f a)) :
    Confined tokens n H true u F' Q (p >>= f) := by
  refine hp.bindOf (q := q) R (fun a => ?_) (Nat.le_add_right _ _) hF fun _ _ => .append
  rw [Bool.or_true]
  exact hf a

/-- Where the second parser reads nothing and stops, the first one does. -/
theorem keepUnread (hp : Confined tokens n H true u F P p)
    (hf : ∀ a, Confined tokens n any false true F' (fun b => P a → Q b) (f a))
    (hF : ∀ c s a s₁ b s', Starts tokens n H s → p c s = (some a, s₁) → f a c s₁ = (some b, s') →
      s'.diagnostics = [] → s₁.Took [] s' → ∀ rest, F' b rest → F a rest) :
    Confined tokens n H true u F' Q (p >>= f) := by
  refine hp.bindUnread (q := false) (fun a => ?_) (Nat.le_add_right _ _) hF fun _ _ => .append
  rw [Bool.or_true]
  exact hf a

theorem seq (q : Bool) (hF : Tail q F' F) (hp : Confined tokens n H true u F P p)
    (hf : ∀ a, Confined tokens n any q true F' Q (f a)) : Confined tokens n H true u F' Q (p >>= f) :=
  hp.keep q hF fun a => (hf a).imp fun _ hb _ => hb

/-- Two parsers in a row, the first of which may read nothing. -/
theorem passKeep (hF : Tail r F' F) (hp : Confined tokens n H false u F P p)
    (hf : ∀ a, Confined tokens n any r u F' (fun b => P a → Q b) (f a)) : Confined tokens n H r u F' Q (p >>= f) := by
  have hrow := hp.bind (q := r) (fun a => by rw [Bool.or_false]; exact hf a) (Nat.le_add_right n false.toNat) hF
  rw [Bool.false_or] at hrow
  exact hrow

theorem pass (hF : Tail r F' F) (hp : Confined tokens n H false u F P p)
    (hf : ∀ a, Confined tokens n any r u F' Q (f a)) : Confined tokens n H r u F' Q (p >>= f) :=
  hp.passKeep hF fun a => (hf a).imp fun _ hb _ => hb

theorem map (g : α → β) (hF : Tail false F' F) (hp : Confined tokens n H true u F P p) (hP : ∀ a, P a → Q (g a)) :
    Confined tokens n H true u F' Q (g <$> p) := by
  rw [map_eq_bind]
  exact hp.keep false hF fun a => .ret (hP a)

/-! ## Looking -/

/-- A parser that looks at the next token, before one that reads it. -/
theorem look {q : Parser α} (answer : Option Token → Nat → α)
    (hq : ∀ c s, q c s = (some (answer s.rest.head? c.sourceEnd), s))
    (hsame : ∀ t e e', answer (some t) e = answer (some t) e')
    (hf : ∀ a, Confined tokens n (fun k => H k ∧ ∃ t e, answer t e = a ∧ t.map Token.kind = k) true u F' Q (f a)) :
    Confined tokens n H true u F' Q (q >>= f) where
  moves := .bind (.look fun c s => by rw [hq]) fun a => (hf a).moves
  fails c s s' hs hrun := by
    rw [bind_of_some (hq c s)] at hrun
    exact (hf _).fails c s s' ⟨hs.bound, hs.within, hs.head, _, _, rfl, rfl⟩ hrun
  runs c s b s' hs hrun hclean := by
    rw [bind_of_some (hq c s)] at hrun
    obtain ⟨hQ, ts, hcommon, hts⟩ :=
      (hf _).runs c s b s' ⟨hs.bound, hs.within, hs.head, _, _, rfl, rfl⟩ hrun hclean
    refine ⟨hQ, ts, hcommon, hts.took, hts.shape, hts.reads, fun cs rest hcs hrest => ?_⟩
    obtain ⟨t, us, rfl⟩ := List.exists_cons_of_ne_nil (hts.reads rfl)
    rw [hts.took.rest] at hts
    intro c' ns
    obtain ⟨ns', hgo⟩ := hts.again cs rest hcs hrest c' ns
    refine ⟨ns', ?_⟩
    rw [bind_of_some (hq c' _), ← hgo]
    exact congrArg (fun a => f a c' _) (hsame t _ _)

theorem offset {f : Nat → Parser β} (hf : ∀ start, Confined tokens n H true u F' Q (f start)) :
    Confined tokens n H true u F' Q (offset >>= f) :=
  .look (fun t e => ((t.map Token.span).getD (.point e)).start) (fun _ _ => rfl) (fun _ _ _ => rfl)
    fun start => (hf start).weaken (Nat.le_refl n) (fun _ hk => hk.1) id id (fun _ _ h => h) fun _ h => h

theorem peekSpan {f : Span → Parser β} (hf : ∀ span, Confined tokens n H true u F' Q (f span)) :
    Confined tokens n H true u F' Q (peekSpan >>= f) :=
  .look (fun t e => (t.map Token.span).getD (.point e)) (fun _ _ => rfl) (fun _ _ _ => rfl)
    fun span => (hf span).weaken (Nat.le_refl n) (fun _ hk => hk.1) id id (fun _ _ h => h) fun _ h => h

/-- A choice by the next token, before it is read.  What is known of it is not forgotten. -/
theorem peekOf {f : Option Kind → Parser β}
    (hf : ∀ k, Confined tokens n (fun k' => H k' ∧ k' = k) true u F' Q (f k)) :
    Confined tokens n H true u F' Q (Parser.peek >>= f) :=
  .look (fun t _ => t.map Token.kind) (fun _ _ => rfl) (fun _ _ _ => rfl) fun k =>
    (hf k).weaken (Nat.le_refl n) (fun _ hk => ⟨hk.1, hk.2.elim fun _ h => h.elim fun _ h => h.2.symm.trans h.1⟩) id id
      (fun _ _ h => h) fun _ h => h

theorem peek {f : Option Kind → Parser β} (hf : ∀ k, Confined tokens n (· = k) true u F' Q (f k)) :
    Confined tokens n H true u F' Q (Parser.peek >>= f) :=
  .peekOf fun k => (hf k).weaken (Nat.le_refl n) (fun _ hk => hk.2) id id (fun _ _ h => h) fun _ h => h

/-- Nothing is to be shown where no token can come next. -/
theorem nowhere (hp : Moving p) (hH : ∀ k, ¬ H k) : Confined tokens n H r u F P p where
  moves := hp
  fails _ _ _ hs := (hH _ hs.head).elim
  runs _ _ _ _ hs := (hH _ hs.head).elim

/-- Two cases of the next token. -/
theorem byHead {T : Option Kind → Prop} (h : Confined tokens n (fun k => H k ∧ T k) r u F P p)
    (h' : Confined tokens n (fun k => H k ∧ ¬ T k) r u F P p) : Confined tokens n H r u F P p where
  moves := h.moves
  fails c s s' hs hrun := by
    by_cases hT : T s.peek
    · exact h.fails c s s' ⟨hs.bound, hs.within, hs.head, hT⟩ hrun
    · exact h'.fails c s s' ⟨hs.bound, hs.within, hs.head, hT⟩ hrun
  runs c s a s' hs := by
    by_cases hT : T s.peek
    · exact h.runs c s a s' ⟨hs.bound, hs.within, hs.head, hT⟩
    · exact h'.runs c s a s' ⟨hs.bound, hs.within, hs.head, hT⟩

/-- The next token is not of a kind where nothing is read and the parser stops. -/
theorem head_of_next {k : Kind} {a : α} {s s' : State} {ts rest : List Token} (hts : s.Took ts s')
    (hk : ∀ t ∈ s.rest.head?, t.kind ≠ k) (hrest : SameNext s'.rest rest ∨ F a rest)
    (hF : ts ≠ [] ∨ ∀ rest, F a rest → ∀ t ∈ rest.head?, t.kind ≠ k) : ∀ t ∈ (ts ++ rest).head?, t.kind ≠ k := by
  cases ts with
  | cons t us =>
    rw [hts.rest] at hk
    exact hk
  | nil =>
    have hrest₁ : s.rest = s'.rest := hts.rest
    rcases hrest with hsame | hstops
    · rw [hrest₁, ← hsame.head] at hk
      exact hk
    · rcases hF with hne | hF
      · exact absurd rfl hne
      · exact hF rest hstops

/-- A parser that stops where a token of a kind comes next reads a token, or it stops at no such token. -/
abbrev Passes (r : Bool) (F : α → List Token → Prop) (k : Kind) : Prop :=
  r = true ∨ ∀ a rest, F a rest → ∀ t ∈ rest.head?, t.kind ≠ k

/-- A choice by whether a token comes next, which is read then. -/
theorem isNext {k : Kind} {f : Bool → Parser β} (hF : Passes r F' k)
    (htrue : Confined tokens n (· = some k) true u F' Q (f true))
    (hfalse : Confined tokens n (fun k' => H k' ∧ k' ≠ some k) r u F' Q (f false)) :
    Confined tokens n H r u F' Q (Parser.isNext k >>= f) where
  moves := by
    refine .bind (.look fun _ _ => rfl) fun b => ?_
    cases b with
    | true => exact htrue.moves
    | false => exact hfalse.moves
  fails c s s' hs hrun := by
    rw [bind_of_some (show Parser.isNext k c s = (some (s.peek == some k), s) from rfl)] at hrun
    cases hb : s.peek == some k with
    | true =>
      rw [hb] at hrun
      exact htrue.fails c s s' ⟨hs.bound, hs.within, eq_of_beq hb⟩ hrun
    | false =>
      rw [hb] at hrun
      exact hfalse.fails c s s' ⟨hs.bound, hs.within, hs.head, ne_of_beq_false hb⟩ hrun
  runs c s b s' hs hrun hclean := by
    obtain ⟨next, s₁, hnext, hrun⟩ := bind_eq_some.mp hrun
    obtain ⟨rfl, hyes, hno⟩ := isNext_eq_some hnext
    cases next with
    | true =>
      obtain ⟨t, us, hk, hrest⟩ := hyes rfl
      have hpeek : s₁.peek = some k := by rw [State.peek, hrest, ← hk]; rfl
      obtain ⟨hQ, ts, hcommon, hts⟩ := htrue.runs c s₁ b s' ⟨hs.bound, hs.within, hpeek⟩ hrun hclean
      refine ⟨hQ, ts, hcommon, hts.took, hts.shape, fun _ => hts.reads rfl, fun cs rest hcs hfollow => ?_⟩
      refine .look (fun c' ns => ?_) (hts.again cs rest hcs hfollow)
      obtain ⟨t', us', rfl⟩ := List.exists_cons_of_ne_nil (hts.reads rfl)
      have hcons := hts.took.rest
      rw [hrest] at hcons
      obtain ⟨rfl, -⟩ := List.cons.inj hcons
      exact isNext_of_kind hk
    | false =>
      have hpeek : s₁.peek ≠ some k := by
        intro hpeek
        obtain ⟨t, ht, hk⟩ := Option.map_eq_some_iff.mp hpeek
        exact hno rfl t ht hk
      obtain ⟨hQ, ts, hcommon, hts⟩ := hfalse.runs c s₁ b s' ⟨hs.bound, hs.within, hs.head, hpeek⟩ hrun hclean
      refine ⟨hQ, ts, hcommon, hts.took, hts.shape, hts.reads, fun cs rest hcs hfollow => ?_⟩
      refine .look (fun c' ns => ?_) (hts.again cs rest hcs hfollow)
      exact isNext_of_head (head_of_next hts.took (hno rfl) hfollow (hF.imp hts.reads fun hF => hF b))

/-- A choice by the next token, which is read if it passes a test. -/
theorem peekIf (test : Option Kind → Bool) {f : Option Kind → Parser β} {q : Parser β}
    (hF : ∀ b rest, F' b rest → test (rest.head?.map Token.kind) = false)
    (hq : ∀ k, test k = false → f k = q) (htrue : ∀ k, test k = true → Confined tokens n (· = k) true u F' Q (f k))
    (hfalse : Confined tokens n H false u F' Q q) : Confined tokens n H false u F' Q (Parser.peek >>= f) where
  moves := by
    refine .bind (.look fun _ _ => rfl) fun k => ?_
    cases hk : test k with
    | true => exact (htrue k hk).moves
    | false =>
      rw [hq k hk]
      exact hfalse.moves
  fails c s s' hs hrun := by
    rw [bind_of_some (show Parser.peek c s = (some s.peek, s) from rfl)] at hrun
    cases hk : test s.peek with
    | true => exact (htrue _ hk).fails c s s' ⟨hs.bound, hs.within, rfl⟩ hrun
    | false =>
      rw [hq _ hk] at hrun
      exact hfalse.fails c s s' hs hrun
  runs c s b s' hs hrun hclean := by
    rw [bind_of_some (show Parser.peek c s = (some s.peek, s) from rfl)] at hrun
    cases hk : test s.peek with
    | true =>
      obtain ⟨hQ, ts, hcommon, hts⟩ := (htrue _ hk).runs c s b s' ⟨hs.bound, hs.within, rfl⟩ hrun hclean
      refine ⟨hQ, ts, hcommon, hts.took, hts.shape, nofun, fun cs rest hcs hrest => ?_⟩
      refine .look (fun c' ns => ?_) (hts.again cs rest hcs hrest)
      obtain ⟨t, us, rfl⟩ := List.exists_cons_of_ne_nil (hts.reads rfl)
      rw [State.peek, hts.took.rest]
      rfl
    | false =>
      rw [hq _ hk] at hrun
      obtain ⟨hQ, ts, hcommon, hts⟩ := hfalse.runs c s b s' hs hrun hclean
      refine ⟨hQ, ts, hcommon, hts.took, hts.shape, hts.reads, fun cs rest hcs hrest c' ns => ?_⟩
      have htest : test ((ts ++ rest).head?.map Token.kind) = false := by
        cases ts with
        | cons t us =>
          rw [State.peek, hts.took.rest] at hk
          exact hk
        | nil =>
          rcases hrest with hsame | hstops
          · rw [State.peek, show s.rest = s'.rest from hts.took.rest, ← hsame.head] at hk
            exact hk
          · exact hF b rest hstops
      rw [bind_of_some (show Parser.peek c' ⟨cs, ts ++ rest, [], ns⟩ = (some _, _) from rfl)]
      rw [show f (State.peek ⟨cs, ts ++ rest, [], ns⟩) = q from hq _ htest]
      exact hts.again cs rest hcs hrest c' ns

/-- A parser whose runs are those of another one where its runs start. -/
theorem congr {p' : Parser α} (h : Confined tokens n H true u F P p) (hp : ∀ c s, H s.peek → p' c s = p c s)
    (hmoves : Moving p') : Confined tokens n H true u F P p' where
  moves := hmoves
  fails c s s' hs hrun := h.fails c s s' hs ((hp c s hs.head).symm.trans hrun)
  runs c s a s' hs hrun hclean := by
    obtain ⟨hP, ts, hcommon, hts⟩ := h.runs c s a s' hs ((hp c s hs.head).symm.trans hrun) hclean
    refine ⟨hP, ts, hcommon, hts.took, hts.shape, hts.reads, fun cs rest hcs hrest c' ns => ?_⟩
    obtain ⟨t, us, rfl⟩ := List.exists_cons_of_ne_nil (hts.reads rfl)
    have hhead := hs.head
    rw [State.peek, hts.took.rest] at hhead
    obtain ⟨ns', hgo⟩ := hts.again cs rest hcs hrest c' ns
    exact ⟨ns', (hp c' ⟨cs, t :: us ++ rest, [], ns⟩ hhead).trans hgo⟩

/-- What is read next may hold the span of what was read before. -/
theorem spanSoFar {start : Nat} {f : Span → Parser β} (hf : ∀ span, Confined tokens n H r true F' Q (f span)) :
    Confined tokens n H r true F' Q (spanFrom start >>= f) where
  moves := .bind (.look fun _ _ => rfl) fun span => (hf span).moves
  fails c s s' hs hrun := (hf (s.spanFrom start)).fails c s s' hs hrun
  runs c s b s' hs hrun hclean := by
    obtain ⟨hQ, ts, hcommon, hts⟩ := (hf (s.spanFrom start)).runs c s b s' hs hrun hclean
    refine ⟨hQ, ts, hcommon, hts.took, hts.shape, hts.reads, fun cs rest hcs hrest => ?_⟩
    refine .look (fun c' ns => ?_) (hts.again cs rest hcs hrest)
    show (some (⟨start, max (lastStop cs) start⟩ : Span), _) = (some ⟨start, max (lastStop s.consumed) start⟩, _)
    rw [hcs rfl]

/-- The value holds the span of what was read. -/
theorem spanned {start : Nat} {g : Span → α} (h : ∀ span, P (g span)) :
    Confined tokens n H false true F P (spanFrom start >>= fun span => pure (g span)) :=
  .spanSoFar fun span => .ret (h span)

/-- A recorded declaration makes no difference. -/
theorem record {kind : NodeKind} {span : Span} {f : Unit → Parser β} (hf : Confined tokens n H r u F' Q (f ())) :
    Confined tokens n H r u F' Q (Parser.record kind span >>= f) where
  moves c s := (State.Moves.record s kind span).trans (hf.moves c _)
  fails c s s' hs hrun := by
    obtain ⟨ns, hs₁⟩ := s.record_eq kind span
    refine hf.fails c (s.record kind span) s' ?_ hrun
    rw [hs₁]
    exact ⟨hs.bound, hs.within, hs.head⟩
  runs c s b s' hs hrun hclean := by
    obtain ⟨ns, hs₁⟩ := s.record_eq kind span
    rw [bind_of_some (show Parser.record kind span c s = (some (), s.record kind span) from rfl), hs₁] at hrun
    obtain ⟨hQ, ts, hcommon, hts⟩ := hf.runs c { s with nodes := ns } b s' ⟨hs.bound, hs.within, hs.head⟩ hrun hclean
    refine ⟨hQ, ts, hcommon, ⟨hts.took.consumed, hts.took.rest⟩, hts.shape, hts.reads, fun cs rest hcs hrest c' ns' => ?_⟩
    obtain ⟨ns'', hs₂⟩ := State.record_eq ⟨cs, ts ++ rest, [], ns'⟩ kind span
    have hrecord : Parser.record kind span c' ⟨cs, ts ++ rest, [], ns'⟩ = (some (), ⟨cs, ts ++ rest, [], ns''⟩) :=
      congrArg (some (), ·) hs₂
    rw [bind_of_some hrecord]
    exact hts.again cs rest hcs hrest c' ns''

/-- A first part behind which anything may stand, and a choice by its value between what is confined behind it and what
is confined together with it. -/
theorem byValue (test : α → Bool) {g : α → Parser β} (hp : Confined tokens n H true u anything P p)
    (htrue : ∀ a, test a = true → Confined tokens n any r true F' (fun b => P a → Q b) (f a))
    (hg : Confined tokens n H true u F' Q (p >>= g)) (hmoves : ∀ a, Moving (g a))
    (hfalse : ∀ a, test a = false → f a = g a) : Confined tokens n H true u F' Q (p >>= f) where
  moves := by
    refine hp.moves.bind fun a => ?_
    cases ha : test a with
    | true => exact (htrue a ha).moves
    | false =>
      rw [hfalse a ha]
      exact hmoves a
  fails c s s' hs hrun := by
    rcases hfirst : p c s with ⟨_ | a, s₁⟩
    · rw [bind_of_none hfirst] at hrun
      cases hrun
      exact hp.fails c s s' hs hfirst
    · rw [bind_of_some hfirst] at hrun
      cases ha : test a with
      | true =>
        by_cases hclean : s₁.diagnostics = []
        · obtain ⟨-, ts, -, hts⟩ := hp.runs c s a s₁ hs hfirst hclean
          exact (htrue a ha).fails c s₁ s' (hs.later hts.took (Nat.le_add_right _ _)) hrun
        · exact ((htrue a ha).moves.of_run hrun).dirty hclean
      | false =>
        rw [hfalse a ha] at hrun
        exact hg.fails c s s' hs (by rw [bind_of_some hfirst]; exact hrun)
  runs c s b s' hs hrun hclean := by
    obtain ⟨a, s₁, hfirst, hrun⟩ := bind_eq_some.mp hrun
    cases ha : test a with
    | true =>
      have hmoves := (htrue a ha).moves
      obtain ⟨hPa, ts₁, hcommon, hts₁⟩ := hp.runs c s a s₁ hs hfirst ((hmoves.of_run hrun).clean hclean)
      obtain ⟨hQb, ts₂, -, hts₂⟩ :=
        (htrue a ha).runs c s₁ b s' (hs.later hts₁.took (Nat.le_add_right _ _)) hrun hclean
      obtain ⟨t, us, rfl⟩ := List.exists_cons_of_ne_nil (hts₁.reads rfl)
      have hsecond : Contained Neutral (f a) r (u || true) (F' b) b s₁ ts₂ s' := by
        rw [Bool.or_true]
        exact hts₂
      have hwhole := hts₁.bind hsecond (fun _ _ => Neutral.append) fun _ _ => .inr trivial
      exact ⟨hQb hPa, t :: us ++ ts₂, hcommon, hwhole.weaken (fun _ => rfl) id fun _ h => h⟩
    | false =>
      rw [hfalse a ha] at hrun
      have hmoved : s₁.Moves s' := (hmoves a).of_run hrun
      obtain ⟨-, ts₁, -, hts₁⟩ := hp.runs c s a s₁ hs hfirst (hmoved.clean hclean)
      obtain ⟨hQb, ts, hcommon, hts⟩ := hg.runs c s b s' hs (by rw [bind_of_some hfirst]; exact hrun) hclean
      refine ⟨hQb, ts, hcommon, hts.took, hts.shape, hts.reads, fun cs rest hcs hrest c' ns => ?_⟩
      obtain ⟨us, hus⟩ := hmoved.rest
      obtain rfl : ts = ts₁ ++ us := by
        refine (List.append_left_inj s'.rest).mp ?_
        rw [← hts.took.rest, hts₁.took.rest, List.append_assoc, hus]
      obtain ⟨ns₁, hgo₁⟩ := hts₁.again cs (us ++ rest) hcs (.inr trivial) c' ns
      obtain ⟨ns', hgo⟩ := hts.again cs rest hcs hrest c' ns
      rw [List.append_assoc, bind_of_some hgo₁] at hgo
      exact ⟨ns', by rw [List.append_assoc, bind_of_some hgo₁, hfalse a ha, hgo]⟩

/-- A first part, and a choice between what is confined behind it and what is confined together with it. -/
theorem either {test : Option Kind → Bool} {g : α → Parser β} (hp : Confined tokens n H true u F P p)
    (hf : ∀ a, Confined tokens n any true true never (fun _ => True) (f a))
    (hg : Confined tokens n H true u never Q (p >>= g)) (hmoves : ∀ a, Moving (g a))
    (hQ : ∀ c s a s₁ b s', Starts tokens n H s → p c s = (some a, s₁) → test s₁.peek = true →
      f a c s₁ = (some b, s') → s'.diagnostics = [] → Q b)
    (hnext : ∀ a c s b s' t us, g a c s = (some b, s') → s.rest = t :: us → s'.rest.length ≤ us.length →
      t.kind.isCommon = true ∨ ∀ rest, F a (t :: rest)) :
    Confined tokens n H true u never Q
      (p >>= fun a => Parser.peek >>= fun k => if test k = true then f a else g a) where
  moves := by
    refine hp.moves.bind fun a => .bind (.look fun _ _ => rfl) fun k => ?_
    split
    · exact (hf a).moves
    · exact hmoves a
  fails c s s' hs hrun := by
    rcases hfirst : p c s with ⟨_ | a, s₁⟩
    · rw [bind_of_none hfirst] at hrun
      cases hrun
      exact hp.fails c s s' hs hfirst
    · rw [bind_of_some hfirst] at hrun
      replace hrun : (if test s₁.peek = true then f a else g a) c s₁ = (none, s') := hrun
      split at hrun
      · by_cases hclean : s₁.diagnostics = []
        · obtain ⟨-, ts, -, hts⟩ := hp.runs c s a s₁ hs hfirst hclean
          exact (hf a).fails c s₁ s' (hs.later hts.took (Nat.le_add_right _ _)) hrun
        · exact ((hf a).moves.of_run hrun).dirty hclean
      · exact hg.fails c s s' hs (by rw [bind_of_some hfirst]; exact hrun)
  runs c s b s' hs hrun hclean := by
    obtain ⟨a, s₁, hfirst, hrun⟩ := bind_eq_some.mp hrun
    replace hrun : (if test s₁.peek = true then f a else g a) c s₁ = (some b, s') := hrun
    split at hrun
    · next htest =>
      obtain ⟨-, ts₁, hcommon, hts₁⟩ := hp.runs c s a s₁ hs hfirst (((hf a).moves.of_run hrun).clean hclean)
      obtain ⟨-, ts₂, hcommon₂, hts₂⟩ :=
        (hf a).runs c s₁ b s' (hs.later hts₁.took (Nat.le_add_right _ _)) hrun hclean
      obtain ⟨t, us, rfl⟩ := List.exists_cons_of_ne_nil (hts₁.reads rfl)
      obtain ⟨t₂, us₂, rfl⟩ := List.exists_cons_of_ne_nil (hts₂.reads rfl)
      have hchosen : Contained Neutral (Parser.peek >>= fun k => if test k = true then f a else g a) true (u || true)
          (fun _ => False) b s₁ (t₂ :: us₂) s' := by
        refine ⟨hts₂.took, hts₂.shape, hts₂.reads, fun cs rest hcs hrest c' ns => ?_⟩
        obtain ⟨ns', hgo⟩ := hts₂.again cs rest (fun _ => hcs (Bool.or_true u)) hrest c' ns
        refine ⟨ns', ?_⟩
        have hhead : test (some t₂.kind) = true := by
          rw [State.peek, hts₂.took.rest] at htest
          exact htest
        show (if test (some t₂.kind) = true then f a else g a) c' _ = _
        rw [if_pos hhead, hgo]
      refine ⟨hQ c s a s₁ b s' hs hfirst htest hrun hclean, t :: us ++ t₂ :: us₂, hcommon, ?_⟩
      exact hts₁.bind hchosen (fun _ _ => .append) fun rest _ => .inl (hts₂.took.rest ▸ .of_cons (hcommon₂ t₂ rfl))
    · next htest =>
      have hmoved : s₁.Moves s' := (hmoves a).of_run hrun
      obtain ⟨-, ts₁, -, hts₁⟩ := hp.runs c s a s₁ hs hfirst (hmoved.clean hclean)
      obtain ⟨hQb, ts, hcommon, hts⟩ := hg.runs c s b s' hs (by rw [bind_of_some hfirst]; exact hrun) hclean
      refine ⟨hQb, ts, hcommon, hts.took, hts.shape, hts.reads, fun cs rest hcs hrest c' ns => ?_⟩
      obtain ⟨us, hus⟩ := hmoved.rest
      obtain rfl : ts = ts₁ ++ us := by
        refine (List.append_left_inj s'.rest).mp ?_
        rw [← hts.took.rest, hts₁.took.rest, List.append_assoc, hus]
      have hsame : SameNext s'.rest rest := hrest.elim id fun h => h.elim
      have hpeek : (us ++ rest).head? = s₁.rest.head? := by
        rw [← hus]
        cases us with
        | nil => exact hsame.head
        | cons t us => rfl
      have hfollow : SameNext s₁.rest (us ++ rest) ∨ F a (us ++ rest) := by
        cases us with
        | nil =>
          rw [← hus]
          exact .inl hsame
        | cons t us =>
          refine (hnext a c s₁ b s' t (us ++ s'.rest) hrun hus.symm ?_).imp (fun hcommon => ?_) fun hF => hF _
          · rw [List.length_append]
            omega
          · rw [← hus]
            exact .of_cons hcommon
      obtain ⟨ns₁, hgo₁⟩ := hts₁.again cs (us ++ rest) hcs hfollow c' ns
      obtain ⟨ns', hgo⟩ := hts.again cs rest hcs hrest c' ns
      rw [List.append_assoc, bind_of_some hgo₁] at hgo
      refine ⟨ns', ?_⟩
      rw [List.append_assoc, bind_of_some hgo₁]
      show (if test ((us ++ rest).head?.map Token.kind) = true then f a else g a) c' _ = _
      rw [hpeek, if_neg (show ¬ test (s₁.rest.head?.map Token.kind) = true from htest), hgo]

/-! ## Single tokens -/

section Tokens

variable {k : Kind}

/-- A single token that is read wherever it stands. -/
theorem one {p : Parser α} {a : α} {t : Token} {s s' : State} {F : List Token → Prop} (hk : t.kind.isCalm = true)
    (hts : s.Took [t] s')
    (hp : ∀ c cs ts ns, p c ⟨cs, t :: ts, [], ns⟩ = (some a, ⟨t :: cs, ts, [], ns⟩)) :
    (∀ t' ∈ [t].head?, t'.kind.isCommon = true) ∧ Contained Neutral p true u F a s [t] s' := by
  refine ⟨?_, hts, .of_calm hk, fun _ => List.cons_ne_nil _ _,
    fun cs rest _ _ c ns => ⟨ns, hp c cs rest ns⟩⟩
  rintro t' ht
  cases ht
  exact Kind.common_of_calm hk

theorem eat_cases (k : Kind) (c : Setting) (s : State) :
    (∃ t ts, s.rest = t :: ts ∧ t.kind = k ∧ eat k c s = (some (some t), s.step)) ∨
      (∀ t ∈ s.rest.head?, t.kind ≠ k) ∧ eat k c s = (some none, s) := by
  obtain ⟨cs, rest, ds, ns⟩ := s
  cases rest with
  | nil => exact .inr ⟨nofun, rfl⟩
  | cons t ts =>
    by_cases hk : t.kind = k
    · exact .inl ⟨t, ts, rfl, hk, eat_of_kind hk⟩
    · refine .inr ⟨?_, if_neg hk⟩
      rintro t' ht
      cases ht
      exact hk

/-- A token that is read if it comes next.  Where it is not read, what comes of it tells that it does not follow. -/
theorem eatOf {f : Option Token → Parser β} (hk : k.isCalm = true) (R : β → Prop)
    (hF : r = true ∨ ∀ b rest, R b → F' b rest → Lacks k rest)
    (hsome : ∀ t, Confined tokens n any false true F' (fun b => t.kind = k → Q b) (f (some t)))
    (hnone : Confined tokens n H r u F' (fun b => R b ∧ Q b) (f none)) :
    Confined tokens n H r u F' Q (Parser.eat k >>= f) where
  moves := by
    refine (Moving.eat k).bind fun t => ?_
    cases t with
    | some t => exact (hsome t).moves
    | none => exact hnone.moves
  fails c s s' hs hrun := by
    rcases eat_cases k c s with ⟨t, ts, hrest, -, heat⟩ | ⟨-, heat⟩
    · rw [bind_of_some heat] at hrun
      exact (hsome t).fails c _ s' (hs.later (.step hrest) (Nat.le_add_right _ _)) hrun
    · rw [bind_of_some heat] at hrun
      exact hnone.fails c s s' hs hrun
  runs c s b s' hs hrun hclean := by
    rcases eat_cases k c s with ⟨t, ts, hrest, hkind, heat⟩ | ⟨hno, heat⟩
    · rw [bind_of_some heat] at hrun
      have htook := State.Took.step hrest
      obtain ⟨hQ, us, -, hus⟩ := (hsome t).runs c _ b s' (hs.later htook (Nat.le_add_right _ _)) hrun hclean
      have hread : (∀ t' ∈ [t].head?, t'.kind.isCommon = true) ∧
          Contained Neutral (Parser.eat k) true u (fun _ => True) (some t) s [t] s.step :=
        one (by rw [hkind]; exact hk) htook fun _ _ _ _ => eat_of_kind hkind
      have hboth : Contained Neutral (Parser.eat k >>= f) (true || false) u (F' b) b s ([t] ++ us) s' :=
        hread.2.bind (hus.weaken id (fun _ => Bool.or_true u) fun _ h => h) (fun _ _ => .append)
          fun _ _ => .inr trivial
      exact ⟨hQ hkind, [t] ++ us, hread.1, hboth.weaken (fun _ => rfl) id fun _ h => h⟩
    · rw [bind_of_some heat] at hrun
      obtain ⟨⟨hR, hQ⟩, ts, hcommon, hts⟩ := hnone.runs c s b s' hs hrun hclean
      refine ⟨hQ, ts, hcommon, hts.took, hts.shape, hts.reads, fun cs rest hcs hfollow => ?_⟩
      refine .look (fun c' ns => ?_) (hts.again cs rest hcs hfollow)
      have hhead := head_of_next hts.took hno hfollow (hF.imp hts.reads fun hF rest => hF b rest hR)
      rcases eat_cases k c' ⟨cs, ts ++ rest, [], ns⟩ with ⟨t, us, hcons, hkind, -⟩ | ⟨-, heat'⟩
      · have hcons' : ts ++ rest = t :: us := hcons
        rw [hcons'] at hhead
        exact absurd hkind (hhead t rfl)
      · exact heat'

theorem eat {f : Option Token → Parser β} (hk : k.isCalm = true) (hF : Passes r F' k)
    (hsome : ∀ t, Confined tokens n any false true F' (fun b => t.kind = k → Q b) (f (some t)))
    (hnone : Confined tokens n H r u F' Q (f none)) :
    Confined tokens n H r u F' Q (Parser.eat k >>= f) :=
  eatOf hk (fun _ => True) (hF.imp_right fun hF b rest _ => hF b rest) hsome (hnone.imp fun _ h => ⟨trivial, h⟩)

theorem accept_bind (k : Kind) (f : Bool → Parser β) :
    Parser.accept k >>= f = Parser.eat k >>= fun t => f t.isSome := bind_assoc _ _ _

/-- A choice by whether a token comes next, which is read. -/
theorem accept {f : Bool → Parser β} (hk : k.isCalm = true) (hF : Passes r F' k)
    (htrue : Confined tokens n any false true F' Q (f true)) (hfalse : Confined tokens n H r u F' Q (f false)) :
    Confined tokens n H r u F' Q (Parser.accept k >>= f) := by
  rw [accept_bind]
  exact eat hk hF (fun _ => htrue.imp fun _ h _ => h) hfalse

theorem acceptOf {f : Bool → Parser β} (hk : k.isCalm = true) (R : β → Prop)
    (hF : r = true ∨ ∀ b rest, R b → F' b rest → Lacks k rest)
    (htrue : Confined tokens n any false true F' Q (f true))
    (hfalse : Confined tokens n H r u F' (fun b => R b ∧ Q b) (f false)) :
    Confined tokens n H r u F' Q (Parser.accept k >>= f) := by
  rw [accept_bind]
  exact eatOf hk R hF (fun _ => htrue.imp fun _ h _ => h) hfalse

theorem accepted (hk : k.isCalm = true) :
    Confined tokens n H false u (fun _ => Lacks k) (fun _ => True) (Parser.accept k) :=
  eat hk (.inr fun _ _ h => h) (fun _ => .ret fun _ => trivial) (.ret trivial)

theorem expect (hk : k.isCalm = true) :
    Confined tokens n H true u anything (fun t => t.kind = k) (expect k) :=
  eat hk (.inl rfl) (fun _ => .ret id) (.failExpected _)

theorem expectText (hk : k.isCalm = true) :
    Confined tokens n H true u anything (fun _ => True) (expectText k) :=
  (expect hk).seq false .any fun _ => .ret trivial

theorem expectPunct {k : Punct} (hk : (Kind.punct k).isCalm = true) :
    Confined tokens n H true u anything (fun _ => True) (expectPunct k) :=
  (expect hk).seq false .any fun _ => .ret trivial

theorem expectKeyword {k : Keyword} (hk : (Kind.keyword k).isCalm = true) :
    Confined tokens n H true u anything (fun _ => True) (expectKeyword k) :=
  (expect hk).seq false .any fun _ => .ret trivial

/-- A token whose kind is known is read. -/
theorem skipOne (hk : ∀ k, H k → ∃ k', k = some k' ∧ k'.isCalm = true) :
    Confined tokens n H true u anything (fun _ => True) skip where
  moves _ s := .step s
  fails _ _ _ _ hrun := by cases hrun
  runs c s a s' hs hrun _ := by
    cases hrun
    obtain ⟨k, hpeek, hcalm⟩ := hk _ hs.head
    cases hrest : s.rest with
    | nil =>
      rw [State.peek, hrest] at hpeek
      cases hpeek
    | cons t ts =>
      rw [State.peek, hrest] at hpeek
      cases hpeek
      exact ⟨trivial, [t], one hcalm (.step hrest) fun _ _ _ _ => rfl⟩

theorem skip {k : Kind} (hk : k.isCalm = true) :
    Confined tokens n (· = some k) true u anything (fun _ => True) Parser.skip :=
  skipOne fun _ h => ⟨k, h, hk⟩

end Tokens

/-! ## Loops -/

section Loops

variable {item : Parser α} {separator : Punct}

/-- The number of rounds that are allowed makes no difference if there are enough. -/
theorem separatedUpTo_congr (hitem : Moving item) (limit limit' : Nat) (c : Setting) (s : State)
    (h : s.rest.length < limit) (h' : s.rest.length < limit') :
    separatedUpTo separator item limit c s = separatedUpTo separator item limit' c s := by
  induction limit generalizing limit' s with
  | zero => exact absurd h (Nat.not_lt_zero _)
  | succ limit ih =>
    obtain ⟨limit', rfl⟩ : ∃ m, limit' = m + 1 := ⟨limit' - 1, by omega⟩
    rw [separatedUpTo, separatedUpTo, bind_apply, bind_apply]
    rcases hrun : item c s with ⟨_ | a, s₁⟩
    · rfl
    · have hle := (hitem.of_run hrun).length_le
      show (Parser.accept (.punct separator) >>= _) c s₁ = (Parser.accept (.punct separator) >>= _) c s₁
      rw [accept_bind, accept_bind]
      rcases eat_cases (.punct separator) c s₁ with ⟨t, ts, hrest, -, heat⟩ | ⟨-, heat⟩
      · have hlt := (State.Took.step hrest).length_lt (List.cons_ne_nil _ _)
        rw [bind_of_some heat, bind_of_some heat]
        show (separatedUpTo separator item limit >>= _) c _ = (separatedUpTo separator item limit' >>= _) c _
        rw [bind_apply, bind_apply, ih limit' s₁.step (by omega) (by omega)]
      · rw [bind_of_some heat, bind_of_some heat]
        rfl

/-- One item, and further ones if a separator comes next. -/
theorem separated_eq (hitem : Moving item) : separated separator item = (do
    let first ← item
    if ← Parser.accept (.punct separator) then return first :: (← separated separator item) else return [first]) := by
  funext c s
  show (item >>= _) c s = (item >>= _) c s
  rw [bind_apply, bind_apply]
  rcases hrun : item c s with ⟨_ | a, s₁⟩
  · rfl
  · have hle := (hitem.of_run hrun).length_le
    show (Parser.accept (.punct separator) >>= _) c s₁ = (Parser.accept (.punct separator) >>= _) c s₁
    rw [accept_bind, accept_bind]
    rcases eat_cases (.punct separator) c s₁ with ⟨t, ts, hrest, -, heat⟩ | ⟨-, heat⟩
    · have hlt := (State.Took.step hrest).length_lt (List.cons_ne_nil _ _)
      rw [bind_of_some heat, bind_of_some heat]
      show (separatedUpTo separator item s.rest.length >>= _) c _ =
        (separatedUpTo separator item (s₁.step.rest.length + 1) >>= _) c _
      rw [bind_apply, bind_apply,
        separatedUpTo_congr hitem s.rest.length (s₁.step.rest.length + 1) c s₁.step (by omega) (by omega)]
    · rw [bind_of_some heat, bind_of_some heat]
      rfl

/-- Items with a separator between them. -/
theorem separated (hitem : Confined tokens n any true true F P item)
    (hsep : (Kind.punct separator).isCalm = true) :
    Confined tokens n any true true never (fun as => ∀ a ∈ as, P a) (Parser.separated separator item) := by
  suffices h : ∀ m, m ≤ n →
      Confined tokens m any true true never (fun as => ∀ a ∈ as, P a) (Parser.separated separator item) from
    h n (Nat.le_refl n)
  intro m hm
  induction m with
  | zero => exact .vacuous fun c s => Moving.separatedUpTo hitem.moves _ c s
  | succ m ih =>
    rw [separated_eq hitem.moves]
    have hfirst : Confined tokens (m + 1) any true true F P item :=
      hitem.weaken hm (fun _ hk => hk) id id (fun _ _ h => h) fun _ h => h
    refine hfirst.bind (q := false) (fun first => ?_) (Nat.le_refl _) .never
    refine .accept hsep (.inr fun _ _ h => h.elim) (.maybe (r := true) ?_) (.ret fun hfirst a ha => ?_)
    · refine (ih (Nat.le_of_succ_le hm)).keep false .never fun as => .ret fun has hfirst a ha => ?_
      rcases List.mem_cons.mp ha with rfl | ha
      · exact hfirst
      · exact has a ha
    · obtain rfl := List.mem_singleton.mp ha
      exact hfirst

/-- Items before a closing symbol, or none. -/
theorem enclosed {close : Punct} (hitem : Confined tokens n any true true F P item)
    (hclose : (Kind.punct close).isCalm = true) :
    Confined tokens n any true true anything (fun as => ∀ a ∈ as, P a) (Parser.enclosed close item) := by
  refine .accept hclose (.inl rfl) (.ret nofun) ?_
  refine (separated hitem rfl).keep true .reads fun items => ?_
  exact (expectPunct hclose).seq false .any fun _ => .ret fun h => h

end Loops

/-! ## Items -/

section Items

variable {item : Parser α} {c : Setting} {s s' : State}

/-- A run that resumes has a diagnostic, so without one the parser has yielded a value. -/
theorem resuming_clean {a : Option α} (hfails : ∀ s', item c s = (none, s') → s'.diagnostics ≠ [])
    (hrun : Parser.resuming item c s = (some a, s')) (hclean : s'.diagnostics = []) :
    ∃ b, a = some b ∧ item c s = (some b, s') := by
  rw [Parser.resuming] at hrun
  rcases hitem : item c s with ⟨_ | b, s₁⟩
  · rw [hitem] at hrun
    cases hrun
    exact absurd ((State.Moves.resumeState s s₁).clean hclean) (hfails s₁ hitem)
  · rw [hitem] at hrun
    cases hrun
    exact ⟨b, rfl, rfl⟩

/-- Where no closing word comes next, a token is read or skipped. -/
theorem resuming_advances {a : Option α} (hitem : Moving item)
    (hadv : ∀ b, item c s = (some b, s') → s'.rest.length < s.rest.length) (hopen : s.atCloser = false)
    (hrun : Parser.resuming item c s = (some a, s')) : s'.rest.length < s.rest.length := by
  rw [Parser.resuming] at hrun
  rcases hfirst : item c s with ⟨_ | b, s₁⟩
  · rw [hfirst] at hrun
    cases hrun
    exact resumeState_reads (hitem.of_run hfirst) hopen
  · rw [hfirst] at hrun
    cases hrun
    exact hadv b hfirst

/-- A parser whose failures are passed over. -/
theorem resuming {G : Option α → List Token → Prop} (h : Confined tokens n H r u F P item)
    (hG : ∀ a rest, G (some a) rest → F a rest) :
    Confined tokens n H r u G (fun a => ∃ b, a = some b ∧ P b) (Parser.resuming item) where
  moves := Moving.resuming h.moves
  fails c s s' _ hrun := by
    rw [Parser.resuming] at hrun
    rcases hitem : item c s with ⟨_ | b, s₁⟩ <;> rw [hitem] at hrun <;> cases hrun
  runs c s a s' hs hrun hclean := by
    obtain ⟨b, rfl, hitem⟩ := resuming_clean (fun s' => h.fails c s s' hs) hrun hclean
    obtain ⟨hP, ts, hcommon, hts⟩ := h.runs c s b s' hs hitem hclean
    refine ⟨⟨b, rfl, hP⟩, ts, hcommon, hts.took, hts.shape, hts.reads, fun cs rest hcs hrest c' ns => ?_⟩
    obtain ⟨ns', hgo⟩ := hts.again cs rest hcs (hrest.imp_right (hG b rest)) c' ns
    exact ⟨ns', by rw [Parser.resuming, hgo]⟩

theorem atCloser_iff {s : State} : s.atCloser = true ↔ Closing s.rest := by
  obtain ⟨cs, rest, ds, ns⟩ := s
  cases rest with
  | nil => exact ⟨fun _ => nofun, fun _ => rfl⟩
  | cons t ts =>
    constructor
    · rintro h t' ht
      cases ht
      exact h
    · exact fun h => h t rfl

theorem unlessCloser_apply (b : β) (q : Parser β) (c : Setting) (s : State) :
    (do if (← ask State.atCloser) || (← halted) then return b else q : Parser β) c s =
      if (s.atCloser || (c.recovery == .firstError && !s.diagnostics.isEmpty)) = true then (some b, s) else q c s := by
  show (if (s.atCloser || (c.recovery == .firstError && !s.diagnostics.isEmpty)) = true then pure b else q :
    Parser β) c s = _
  split <;> rfl

/-- The end of a row of items, or one more of them. -/
theorem unlessCloser {b : β} (hb : Q b) (hF : ∀ b rest, F' b rest → Closing rest) {q : Parser β}
    (hq : Confined tokens n (fun k => ∀ s : State, s.peek = k → s.atCloser = false) true u F' Q q) :
    Confined tokens n H false u F' Q (do if (← ask State.atCloser) || (← halted) then return b else q) where
  moves := by
    refine .bind (.look fun _ _ => rfl) fun closer => .bind (.look fun _ _ => rfl) fun halt => ?_
    cases closer || halt with
    | true => exact .value b
    | false => exact hq.moves
  fails c s s' hs hrun := by
    rw [unlessCloser_apply] at hrun
    split at hrun
    · cases hrun
    · next hopen =>
      have hcloser := (Bool.or_eq_false_iff.mp (Bool.not_eq_true _ ▸ hopen)).1
      refine hq.fails c s s' ⟨hs.bound, hs.within, fun s₁ hs₁ => ?_⟩ hrun
      rw [State.atCloser, hs₁]
      exact hcloser
  runs c s b' s' hs hrun hclean := by
    rw [unlessCloser_apply] at hrun
    split at hrun
    · next hclosed =>
      cases hrun
      rw [hclean, List.isEmpty_nil, Bool.not_true, Bool.and_false, Bool.or_false, atCloser_iff] at hclosed
      refine ⟨hb, [], (fun t ht => by cases ht), .nil s, .nil, fun h => absurd h Bool.false_ne_true,
        fun cs rest _ hrest c' ns => ⟨ns, ?_⟩⟩
      have hclosing : Closing rest := by
        rcases hrest with hsame | hstops
        · intro t ht
          rw [hsame.head] at ht
          exact hclosed t ht
        · exact hF b rest hstops
      have hcloser : State.atCloser ⟨cs, rest, [], ns⟩ = true := atCloser_iff.mpr hclosing
      show (do if (← ask State.atCloser) || (← halted) then return b else q : Parser β) c' ⟨cs, rest, [], ns⟩ = _
      rw [unlessCloser_apply, hcloser, Bool.true_or, if_pos rfl]
      rfl
    · next hopen =>
      have hcloser := (Bool.or_eq_false_iff.mp (Bool.not_eq_true _ ▸ hopen)).1
      have hs' : Starts tokens n (fun k => ∀ s : State, s.peek = k → s.atCloser = false) s := by
        refine ⟨hs.bound, hs.within, fun s₁ hs₁ => ?_⟩
        rw [State.atCloser, hs₁]
        exact hcloser
      obtain ⟨hQ, ts, hcommon, hts⟩ := hq.runs c s b' s' hs' hrun hclean
      refine ⟨hQ, ts, hcommon, hts.took, hts.shape, fun h => absurd h Bool.false_ne_true, fun cs rest hcs hrest c' ns => ?_⟩
      obtain ⟨t, us, rfl⟩ := List.exists_cons_of_ne_nil (hts.reads rfl)
      have hcloser' : State.atCloser ⟨cs, t :: us ++ rest, [], ns⟩ = false := by
        refine hs'.head _ ?_
        rw [State.peek, State.peek, hts.took.rest]
        rfl
      obtain ⟨ns', hgo⟩ := hts.again cs rest hcs hrest c' ns
      refine ⟨ns', ?_⟩
      rw [unlessCloser_apply, hcloser', List.isEmpty_nil, Bool.not_true, Bool.and_false, Bool.or_false,
        if_neg Bool.false_ne_true]
      exact hgo

/-- A run that stops only where there is a diagnostic. -/
theorem unlessHalted {q : Parser β} (hq : Confined tokens n H r u F' Q q) :
    Confined tokens n H r u F' Q (do if ← halted then fail else q) where
  moves := by
    refine .bind (.look fun _ _ => rfl) fun b => ?_
    cases b with
    | true => exact .fail
    | false => exact hq.moves
  fails c s s' hs hrun := by
    replace hrun : (if (c.recovery == .firstError && !s.diagnostics.isEmpty) = true then fail else q : Parser β) c s =
      (none, s') := hrun
    split at hrun
    · next hhalt =>
      cases hrun
      intro hclean
      rw [hclean, List.isEmpty_nil, Bool.not_true, Bool.and_false] at hhalt
      cases hhalt
    · exact hq.fails c s s' hs hrun
  runs c s b s' hs hrun hclean := by
    replace hrun : (if (c.recovery == .firstError && !s.diagnostics.isEmpty) = true then fail else q : Parser β) c s =
      (some b, s') := hrun
    split at hrun
    · cases hrun
    · obtain ⟨hQ, ts, hcommon, hts⟩ := hq.runs c s b s' hs hrun hclean
      refine ⟨hQ, ts, hcommon, hts.took, hts.shape, hts.reads, fun cs rest hcs hrest c' ns => ?_⟩
      obtain ⟨ns', hgo⟩ := hts.again cs rest hcs hrest c' ns
      refine ⟨ns', ?_⟩
      show (if (c'.recovery == .firstError && false) = true then fail else q : Parser β) c' _ = _
      rw [Bool.and_false, if_neg Bool.false_ne_true, hgo]

/-- Where no closing word is allowed to come. -/
theorem atCloser {what : Expectation} {q : Parser β} (hq : Confined tokens n H true u F' Q q) :
    Confined tokens n H true u F' Q (do if ← ask State.atCloser then Parser.failExpected what else q) := by
  refine .look (fun t _ => ((t.map Token.kind).map Kind.isCloser).getD true) (fun _ _ => rfl)
    (fun _ _ _ => rfl) fun closes => ?_
  cases closes with
  | true => exact .failExpected what
  | false => exact hq.weaken (Nat.le_refl n) (fun _ hk => hk.1) id id (fun _ _ h => h) fun _ h => h

theorem itemsUpTo_congr (hitem : Moving item) (hadv : Advances item) (limit limit' : Nat) (c : Setting)
    (s : State) (h : s.rest.length < limit) (h' : s.rest.length < limit') :
    itemsUpTo item limit c s = itemsUpTo item limit' c s := by
  induction limit generalizing limit' s with
  | zero => exact absurd h (Nat.not_lt_zero _)
  | succ limit ih =>
    obtain ⟨limit', rfl⟩ : ∃ m, limit' = m + 1 := ⟨limit' - 1, by omega⟩
    rw [itemsUpTo, itemsUpTo, unlessCloser_apply, unlessCloser_apply]
    split
    · rfl
    · next hopen =>
      have hcloser := (Bool.or_eq_false_iff.mp (Bool.not_eq_true _ ▸ hopen)).1
      rw [bind_apply, bind_apply]
      rcases hrun : Parser.resuming item c s with ⟨_ | a, s₁⟩
      · rfl
      · have hlt := resuming_advances hitem (fun b => hadv c s b s₁) hcloser hrun
        show (itemsUpTo item limit >>= _) c s₁ = (itemsUpTo item limit' >>= _) c s₁
        rw [bind_apply, bind_apply, ih limit' s₁ (by omega) (by omega)]

theorem items_eq (hitem : Moving item) (hadv : Advances item) : Parser.items item = (do
    if (← ask State.atCloser) || (← halted) then return []
    else
      let first ← Parser.resuming item
      let others ← Parser.items item
      return first.toList ++ others) := by
  funext c s
  show itemsUpTo item (s.rest.length + 1) c s = _
  rw [itemsUpTo, unlessCloser_apply, unlessCloser_apply]
  split
  · rfl
  · next hopen =>
    have hcloser := (Bool.or_eq_false_iff.mp (Bool.not_eq_true _ ▸ hopen)).1
    rw [bind_apply, bind_apply]
    rcases hrun : Parser.resuming item c s with ⟨_ | a, s₁⟩
    · rfl
    · have hlt := resuming_advances hitem (fun b => hadv c s b s₁) hcloser hrun
      show (itemsUpTo item s.rest.length >>= _) c s₁ = (itemsUpTo item (s₁.rest.length + 1) >>= _) c s₁
      rw [bind_apply, bind_apply,
        itemsUpTo_congr hitem hadv s.rest.length (s₁.rest.length + 1) c s₁ (by omega) (by omega)]

/-- Items up to a closing word. -/
theorem items (hitem : Confined tokens n any true true F P item) (hadv : Advances item) :
    Confined tokens n any false true never (fun as => ∀ a ∈ as, P a) (Parser.items item) := by
  suffices h : ∀ m, m ≤ n →
      Confined tokens m any false true never (fun as => ∀ a ∈ as, P a) (Parser.items item) from
    h n (Nat.le_refl n)
  intro m hm
  induction m with
  | zero => exact .vacuous fun c s => Moving.itemsUpTo hitem.moves _ c s
  | succ m ih =>
    rw [items_eq hitem.moves hadv]
    refine unlessCloser nofun (fun _ _ h => h.elim) ?_
    have hfirst : Confined tokens (m + 1) (fun k => ∀ s : State, s.peek = k → s.atCloser = false) true true never
        (fun a => ∃ b, a = some b ∧ P b) (Parser.resuming item) :=
      (hitem.weaken hm (fun _ _ => trivial) id id (fun _ _ h => h) fun _ h => h).resuming fun _ _ h => h.elim
    refine hfirst.first false .never fun first => ?_
    refine (ih (Nat.le_of_succ_le hm)).passKeep .never fun others => .ret ?_
    rintro hothers ⟨a, rfl, ha⟩ b hb
    rcases List.mem_append.mp hb with hb | hb
    · obtain rfl : b = a := by simpa using hb
      exact ha
    · exact hothers b hb

end Items

/-! ## Between two words -/

/-- A single word. -/
def OneWord (k : Keyword) (ts : List Token) : Prop := ∃ t, ts = [t] ∧ t.kind = .keyword k

theorem expectWord (k : Keyword) :
    ConfinedBy (OneWord k) tokens n H true u anything (fun _ => True) (Parser.expectKeyword k) where
  moves := by
    refine ((Moving.eat _).bind fun t => ?_).bind fun _ => .value _
    cases t with
    | some t => exact .value t
    | none => exact .failExpected _
  fails c s s' _ hrun := by
    rcases eat_cases (.keyword k) c s with ⟨t, ts, hrest, -, heat⟩ | ⟨-, heat⟩
    · rw [Parser.expectKeyword, Parser.expect, bind_assoc, bind_of_some heat] at hrun
      cases hrun
    · rw [Parser.expectKeyword, Parser.expect, bind_assoc, bind_of_some heat] at hrun
      cases hrun
      exact List.cons_ne_nil _ _
  runs c s a s' _ hrun _ := by
    rcases eat_cases (.keyword k) c s with ⟨t, ts, hrest, hkind, heat⟩ | ⟨-, heat⟩
    · rw [Parser.expectKeyword, Parser.expect, bind_assoc, bind_of_some heat] at hrun
      cases hrun
      refine ⟨trivial, [t], ?_, .step hrest, ⟨t, rfl, hkind⟩, fun _ => List.cons_ne_nil _ _, ?_⟩
      · rintro t' ht
        cases ht
        rw [hkind]
        rfl
      · intro cs rest _ _ c' ns
        refine ⟨ns, ?_⟩
        show (Parser.expect (.keyword k) >>= _) c' ⟨cs, t :: rest, [], ns⟩ = _
        rw [bind_of_some (expect_of_kind hkind)]
        rfl
    · rw [Parser.expectKeyword, Parser.expect, bind_assoc, bind_of_some heat] at hrun
      cases hrun

/-- What stands between two words that open and close a block, and what comes after them. -/
theorem between {opening closing : Keyword} {inner : Parser α} {after : α → Parser β} (hpair : opening.Pair closing)
    (hinner : Confined tokens n any r true F P inner)
    (hafter : ∀ a, Confined tokens n any false true F' (fun b => P a → Q b) (after a)) :
    Confined tokens (n + 1) H true u F' Q (do
      Parser.expectKeyword opening
      let a ← inner
      Parser.expectKeyword closing
      after a) := by
  have hend : ∀ a, ConfinedBy (fun ts => ∃ t us, ts = t :: us ∧ t.kind = .keyword closing ∧ Neutral us) tokens n any
      true true F' (fun b => P a → True → Q b) (Parser.expectKeyword closing >>= fun _ => after a) := by
    intro a
    have hnext : ConfinedBy Neutral tokens n any false true F' (fun b => True → P a → True → Q b) (after a) :=
      (hafter a).imp fun b hb _ hP _ => hb hP
    refine (expectWord closing).bind (fun _ => hnext) (Nat.le_add_right _ _) .any ?_
    · rintro _ us ⟨t, rfl, hk⟩ hus
      exact ⟨t, us, rfl, hk, hus⟩
  have hrest : ConfinedBy (fun ts => ∃ ts' t us, ts = ts' ++ t :: us ∧ Neutral ts' ∧ t.kind = .keyword closing ∧
      Neutral us) tokens n any (r || true) true F' (fun b => True → Q b)
      (inner >>= fun a => Parser.expectKeyword closing >>= fun _ => after a) := by
    refine ConfinedBy.bind hinner hend (Nat.le_add_right _ _) .reads ?_
    rintro ts' _ hts' ⟨t, us, rfl, hk, hus⟩
    exact ⟨ts', t, us, rfl, hts', hk, hus⟩
  have hword : ConfinedBy (OneWord opening) tokens (n + 1) H true u anything (fun _ => True)
      (Parser.expectKeyword opening) := expectWord opening
  rw [Bool.or_true] at hrest
  refine hword.bind (fun _ => by rw [Bool.or_true]; exact hrest) (Nat.le_refl _) .any ?_
  · rintro _ _ ⟨t, rfl, ht⟩ ⟨ts', t', us, rfl, hts', ht', hus⟩
    have hwhole : [t] ++ (ts' ++ t' :: us) = t :: (ts' ++ [t']) ++ us := by simp
    rw [hwhole]
    exact (Neutral.between hpair ht ht' hts').append hus

/-! ## Labels, attribute instances and headers -/

theorem label : Confined tokens n H false u (fun _ => Lacks (.punct .colon)) (fun _ => True) label := by
  refine .accept rfl (.inr fun _ _ h => h) (.maybe (r := true) ?_) (.ret trivial)
  refine .eat rfl (.inl rfl) (fun t => .ret fun _ => trivial) ?_
  refine .eat rfl (.inl rfl) (fun t => .ret fun _ => trivial) ?_
  exact .dirty (fun _ _ => State.Moves.reported _ _) fun _ _ => List.cons_ne_nil _ _

/-- A round that steps over an attribute instance. -/
def attributeRound (_ : Unit) : Parser (Round Unit Unit) := do
  if ← Parser.isNext (.punct .attrOpen) then
    let start ← Parser.offset
    skipBalanced
    reportUnsupported (← spanFrom start) .attributeInstance
    return .again ()
  else return .done ()

theorem moving_attributeRound (u : Unit) : Moving (attributeRound u) := by
  refine .bind (.look fun _ _ => rfl) fun b => ?_
  cases b with
  | false => exact .value _
  | true =>
    refine .bind (.look fun _ _ => rfl) fun start => (Moving.skipExtent _).bind fun _ => ?_
    exact .bind (.look fun _ _ => rfl) fun span => (Moving.reportUnsupported _ _).bind fun _ => .value _

theorem skipAttributes_of_lacks {c : Setting} {s : State} (h : Lacks (.punct .attrOpen) s.rest) :
    skipAttributes c s = (some (), s) := by
  show roundsUpTo attributeRound (s.rest.length + 1) () c s = _
  have hnext : Parser.isNext (.punct .attrOpen) c s = (some false, s) := isNext_of_head h
  rw [roundsUpTo, attributeRound, bind_assoc, bind_of_some hnext]
  rfl

/-- An attribute instance is reported, so without diagnostics there is none. -/
theorem skipAttributes_dirty {c : Setting} {s : State} (h : ¬ Lacks (.punct .attrOpen) s.rest) :
    (skipAttributes c s).2.diagnostics ≠ [] := by
  show (roundsUpTo attributeRound (s.rest.length + 1) () c s).2.diagnostics ≠ []
  have hnext : Parser.isNext (.punct .attrOpen) c s = (some true, s) := by
    cases hb : s.peek == some (.punct .attrOpen) with
    | true => exact congrArg (fun b => (some b, s)) hb
    | false =>
      refine absurd (fun t ht hk => ?_) h
      rw [State.peek, show s.rest.head? = some t from ht, Option.map_some, hk, beq_self_eq_true] at hb
      exact absurd hb.symm Bool.false_ne_true
  rw [roundsUpTo, attributeRound, bind_assoc, bind_of_some hnext]
  refine (Moving.roundsUpTo moving_attributeRound s.rest.length () c _).dirty ?_
  exact List.cons_ne_nil _ _

/-- Where no attribute instance is allowed to come. -/
theorem skipAttributes {f : Unit → Parser β} (hf : Confined tokens n H true u F' Q (f ())) :
    Confined tokens n H true u F' Q (Parser.skipAttributes >>= f) where
  moves := Moving.skipAttributes.bind fun _ => hf.moves
  fails c s s' hs hrun := by
    by_cases hlacks : Lacks (.punct .attrOpen) s.rest
    · rw [bind_of_some (skipAttributes_of_lacks hlacks)] at hrun
      exact hf.fails c s s' hs hrun
    · have hdirty := skipAttributes_dirty (c := c) hlacks
      rw [bind_apply] at hrun
      rcases hskip : Parser.skipAttributes c s with ⟨_ | x, s₁⟩
      · rw [hskip] at hrun hdirty
        cases hrun
        exact hdirty
      · rw [hskip] at hrun hdirty
        exact (hf.moves.of_run hrun).dirty hdirty
  runs c s b s' hs hrun hclean := by
    obtain ⟨x, s₁, hskip, hrun⟩ := bind_eq_some.mp hrun
    have hlacks : Lacks (.punct .attrOpen) s.rest := by
      by_cases hlacks : Lacks (.punct .attrOpen) s.rest
      · exact hlacks
      · have hdirty := skipAttributes_dirty (c := c) hlacks
        rw [hskip] at hdirty
        exact absurd ((hf.moves.of_run hrun).clean hclean) hdirty
    rw [skipAttributes_of_lacks hlacks] at hskip
    cases hskip
    obtain ⟨hQ, ts, hcommon, hts⟩ := hf.runs c s b s' hs hrun hclean
    refine ⟨hQ, ts, hcommon, hts.took, hts.shape, hts.reads, fun cs rest hcs hrest => ?_⟩
    refine .look (fun c' ns => skipAttributes_of_lacks ?_) (hts.again cs rest hcs hrest)
    obtain ⟨t, us, rfl⟩ := List.exists_cons_of_ne_nil (hts.reads rfl)
    rw [hts.took.rest] at hlacks
    exact hlacks

theorem header_of_some {closing : Keyword} {c : Setting} {s s' : State} {a : α} (h : p c s = (some a, s')) :
    Parser.header closing p c s = (some a, s') := by
  have hattempt : attempt p c s = (some (some a), s') := by rw [attempt, h]
  rw [Parser.header, bind_of_some hattempt]
  rfl

theorem header_of_none {closing : Keyword} {c : Setting} {s s' : State} (h : p c s = (none, s')) :
    Parser.header closing p c s = (abandon closing >>= fun _ => fail) c s' := by
  have hattempt : attempt p c s = (some none, s') := by rw [attempt, h]
  rw [Parser.header, bind_of_some hattempt]

theorem header_eq_some {closing : Keyword} {c : Setting} {s s' : State} {a : α} :
    Parser.header closing p c s = (some a, s') ↔ p c s = (some a, s') := by
  refine ⟨fun h => ?_, header_of_some⟩
  rcases hp : p c s with ⟨_ | b, s₁⟩
  · rw [header_of_none hp] at h
    obtain ⟨x, s₂, -, hfail⟩ := bind_eq_some.mp h
    cases hfail
  · rwa [header_of_some hp] at h

/-- The header of a definition that is stepped over if the header is broken. -/
theorem header {closing : Keyword} (h : Confined tokens n H r u F P p) :
    Confined tokens n H r u F P (Parser.header closing p) where
  moves c s := by
    rcases hrun : p c s with ⟨_ | a, s₁⟩
    · rw [header_of_none hrun]
      exact (h.moves.of_run hrun).trans ((Moving.abandon closing).bind (fun _ => .fail) c s₁)
    · rw [header_of_some hrun]
      exact h.moves.of_run hrun
  fails c s s' hs hrun := by
    rcases hp : p c s with ⟨_ | a, s₁⟩
    · rw [header_of_none hp] at hrun
      exact (((Moving.abandon closing).bind fun _ => .fail).of_run hrun).dirty (h.fails c s s₁ hs hp)
    · rw [header_of_some hp] at hrun
      cases hrun
  runs c s a s' hs hrun hclean := by
    obtain ⟨hP, ts, hcommon, hts⟩ := h.runs c s a s' hs (header_eq_some.mp hrun) hclean
    refine ⟨hP, ts, hcommon, hts.took, hts.shape, hts.reads, fun cs rest hcs hrest c' ns => ?_⟩
    obtain ⟨ns', hgo⟩ := hts.again cs rest hcs hrest c' ns
    exact ⟨ns', header_of_some hgo⟩

/-! ## Rounds -/

theorem roundsUpTo_congr {round : α → Parser (Round α β)}
    (hround : ∀ a c s a' s', round a c s = (some (.again a'), s') → s'.rest.length < s.rest.length)
    (limit limit' : Nat) (a : α) (c : Setting) (s : State) (h : s.rest.length < limit) (h' : s.rest.length < limit') :
    roundsUpTo round limit a c s = roundsUpTo round limit' a c s := by
  induction limit generalizing limit' a s with
  | zero => exact absurd h (Nat.not_lt_zero _)
  | succ limit ih =>
    obtain ⟨limit', rfl⟩ : ∃ m, limit' = m + 1 := ⟨limit' - 1, by omega⟩
    rw [roundsUpTo, roundsUpTo, bind_apply, bind_apply]
    rcases hrun : round a c s with ⟨_ | a' | b, s₁⟩
    · rfl
    · have hlt := hround a c s a' s₁ hrun
      exact ih limit' a' s₁ (by omega) (by omega)
    · rfl

/-- One round, and further ones if it asks for them. -/
theorem repeatUntil_eq {round : α → Parser (Round α β)}
    (hround : ∀ a c s a' s', round a c s = (some (.again a'), s') → s'.rest.length < s.rest.length) (a : α) :
    repeatUntil round a = (do
      match ← round a with
      | .again a' => repeatUntil round a'
      | .done b => return b) := by
  funext c s
  show roundsUpTo round (s.rest.length + 1) a c s = _
  rw [roundsUpTo, bind_apply, bind_apply]
  rcases hrun : round a c s with ⟨_ | a' | b, s₁⟩
  · rfl
  · have hlt := hround a c s a' s₁ hrun
    exact roundsUpTo_congr hround _ _ a' c s₁ (by omega) (Nat.lt_succ_self _)
  · rfl

/-- Rounds of a loop, each of which reads a token if another one follows. -/
theorem rounds {round : α → Parser (Round α β)} {G : Round α β → List Token → Prop} {I : α → Prop}
    (hround : ∀ a, Confined tokens n any r true G (fun x => I a → Round.Ends I Q x) (round a))
    (hless : ∀ a c s a' s', round a c s = (some (.again a'), s') → s'.rest.length < s.rest.length)
    (hdone : ∀ b rest, F' b rest → G (.done b) rest) (hagain : r = true ∨ ∀ a b rest, F' b rest → G (.again a) rest)
    (a : α) : Confined tokens n any r true F' (fun b => I a → Q b) (repeatUntil round a) := by
  suffices h : ∀ m, m ≤ n → ∀ a, Confined tokens m any r true F' (fun b => I a → Q b) (repeatUntil round a) from
    h n (Nat.le_refl n) a
  intro m hm
  induction m with
  | zero => exact fun a => .vacuous (Moving.repeatUntil (fun a => (hround a).moves) a)
  | succ m ih =>
    intro a
    have hbefore : ∀ {s}, Starts tokens (m + 1) any s → Starts tokens n any s := fun hs =>
      ⟨Nat.lt_of_lt_of_le hs.bound hm, hs.within, trivial⟩
    have hmoves : ∀ a, Moving (repeatUntil round a) := Moving.repeatUntil fun a => (hround a).moves
    refine ⟨hmoves a, fun c s s' hs hrun => ?_, fun c s b s' hs hrun hclean => ?_⟩
    · rw [repeatUntil_eq hless, bind_apply] at hrun
      rcases hfirst : round a c s with ⟨_ | a' | b, s₁⟩
      · rw [hfirst] at hrun
        cases hrun
        exact (hround a).fails c s s' (hbefore hs) hfirst
      · rw [hfirst] at hrun
        by_cases hclean : s₁.diagnostics = []
        · obtain ⟨-, ts, -, hts⟩ := (hround a).runs c s _ s₁ (hbefore hs) hfirst hclean
          refine (ih (Nat.le_of_succ_le hm) a').fails c s₁ s' ⟨?_, hts.took.suffix.trans hs.within, trivial⟩ hrun
          exact Nat.lt_of_lt_of_le (hless a c s a' s₁ hfirst) (Nat.le_of_lt_succ hs.bound)
        · exact ((hmoves a').of_run hrun).dirty hclean
      · rw [hfirst] at hrun
        cases hrun
    · rw [repeatUntil_eq hless] at hrun ⊢
      obtain ⟨x, s₁, hfirst, hrun⟩ := bind_eq_some.mp hrun
      cases x with
      | done b =>
        cases hrun
        obtain ⟨hQ, ts, hcommon, hts⟩ := (hround a).runs c s _ s' (hbefore hs) hfirst hclean
        refine ⟨hQ, ts, hcommon, hts.took, hts.shape, hts.reads, fun cs rest hcs hrest c' ns => ?_⟩
        obtain ⟨ns', hgo⟩ := hts.again cs rest hcs (hrest.imp_right (hdone b rest)) c' ns
        exact ⟨ns', by rw [bind_of_some hgo]; rfl⟩
      | again a' =>
        obtain ⟨hI, ts, hcommon, hts⟩ :=
          (hround a).runs c s _ s₁ (hbefore hs) hfirst (((hmoves a').of_run hrun).clean hclean)
        obtain ⟨hQ, ts', hcommon', hts'⟩ := (ih (Nat.le_of_succ_le hm) a').runs c s₁ b s'
          ⟨Nat.lt_of_lt_of_le (hless a c s a' s₁ hfirst) (Nat.le_of_lt_succ hs.bound), hts.took.suffix.trans hs.within,
            trivial⟩ hrun hclean
        have hlater : Contained Neutral (repeatUntil round a') _ (true || r) _ b s₁ ts' s' :=
          hts'.weaken id (fun _ => rfl) fun _ h => h
        have hboth := hts.bind hlater (fun _ _ => Neutral.append)
          (f := fun x => match x with
            | .again a' => repeatUntil round a'
            | .done b => pure b)
          fun rest => hts'.next hcommon' fun hnil rest =>
            hagain.elim (fun hr => absurd hnil (hts'.reads hr)) fun h => h a' b rest
        refine ⟨fun hIa => hQ (hI hIa), ts ++ ts', fun t ht => ?_,
          hboth.weaken (by rw [Bool.or_self]; exact id) id fun _ h => h⟩
        cases ts with
        | nil => exact hcommon' t ht
        | cons t' ts => exact hcommon t ht

end Bluespec.Parser.Confined
