import Bluespec.Grammar.Statement

/-!
# Running parsers — single steps and how runs are put together

Facts about one run of a parser from one state.  A state is written out as its four parts, so that the
result of reading a token is again a state that is written out.

* **`Parser.bind_eq_some`**, **`Parser.bind_of_some`** — a run of two parsers in a row.
* **`Parser.Leads`**, **`Parser.repeatUntil_of_leads`**, **`Parser.repeatUntil_induct`** — the rounds of a loop.
* **`Parser.Reads`** — a parser reads given tokens and yields a given value, whatever was read before.
-/

namespace Bluespec.Parser

variable {α β : Type} {c : Setting} {s s' : State}

/-! ## Two parsers in a row -/

theorem bind_of_some {p : Parser α} {f : α → Parser β} {a : α} (h : p c s = (some a, s')) :
    (p >>= f) c s = f a c s' := by
  rw [bind_apply, h]

theorem bind_of_none {p : Parser α} {f : α → Parser β} (h : p c s = (none, s')) :
    (p >>= f) c s = (none, s') := by
  rw [bind_apply, h]

/-- Two parsers that do the same, each in front of a third one. -/
theorem bind_of_eq {p q : Parser α} {f : α → Parser β} (h : p c s = q c s') : (p >>= f) c s = (q >>= f) c s' := by
  rw [bind_apply, bind_apply, h]

/-- A run of two parsers yields a value exactly when both do. -/
theorem bind_eq_some {p : Parser α} {f : α → Parser β} {b : β} :
    (p >>= f) c s = (some b, s') ↔ ∃ a s₁, p c s = (some a, s₁) ∧ f a c s₁ = (some b, s') := by
  rw [bind_apply]
  rcases p c s with ⟨_ | a, s₁⟩
  · simp
  · constructor
    · intro h
      exact ⟨a, s₁, rfl, h⟩
    · rintro ⟨a', s₂, h, hf⟩
      cases h
      exact hf

theorem bind_assoc {γ : Type} (p : Parser α) (f : α → Parser β) (g : β → Parser γ) :
    p >>= f >>= g = p >>= fun a => f a >>= g := by
  funext c s
  rw [bind_apply, bind_apply, bind_apply]
  rcases p c s with ⟨_ | a, s₁⟩
  · rfl
  · exact bind_apply (f a) g c s₁

theorem pure_bind (a : α) (f : α → Parser β) : pure a >>= f = f a := rfl

theorem map_eq_bind (p : Parser α) (f : α → β) : f <$> p = p >>= fun a => pure (f a) := rfl

theorem pure_eq_some {a b : α} : (pure a : Parser α) c s = (some b, s') ↔ a = b ∧ s = s' := by
  rw [pure_apply]
  simp

/-! ## Single tokens -/

/-- Looking at the next token always succeeds and moves nothing. -/
theorem peek_eq : peek c s = (some s.peek, s) := rfl

theorem offset_eq : offset c s = (some (s.peekSpan c).start, s) := rfl

section Tokens

variable {cs ts : List Token} {ds : List Diagnostic} {ns : List NodeSpan} {t : Token} {k : Kind}

@[simp] theorem peek_cons : peek c ⟨cs, t :: ts, ds, ns⟩ = (some (some t.kind), ⟨cs, t :: ts, ds, ns⟩) := rfl

@[simp] theorem peek_nil : peek c ⟨cs, [], ds, ns⟩ = (some none, ⟨cs, [], ds, ns⟩) := rfl

@[simp] theorem offset_cons :
    offset c ⟨cs, t :: ts, ds, ns⟩ = (some t.span.start, ⟨cs, t :: ts, ds, ns⟩) := rfl

@[simp] theorem skip_cons : skip c ⟨cs, t :: ts, ds, ns⟩ = (some (), ⟨t :: cs, ts, ds, ns⟩) := rfl

theorem isNext_cons :
    isNext k c ⟨cs, t :: ts, ds, ns⟩ = (some (t.kind == k), ⟨cs, t :: ts, ds, ns⟩) := rfl

theorem isNext_of_kind (h : t.kind = k) :
    isNext k c ⟨cs, t :: ts, ds, ns⟩ = (some true, ⟨cs, t :: ts, ds, ns⟩) := by
  rw [isNext_cons, h, beq_self_eq_true]

theorem isNext_of_head (h : ∀ t ∈ ts.head?, t.kind ≠ k) :
    isNext k c ⟨cs, ts, ds, ns⟩ = (some false, ⟨cs, ts, ds, ns⟩) := by
  cases ts with
  | nil => rfl
  | cons t ts => rw [isNext_cons, beq_eq_false_iff_ne.mpr (h t rfl)]

theorem eat_of_kind (h : t.kind = k) :
    eat k c ⟨cs, t :: ts, ds, ns⟩ = (some (some t), ⟨t :: cs, ts, ds, ns⟩) := by
  simp [eat, h, State.step]

theorem accept_of_kind (h : t.kind = k) :
    accept k c ⟨cs, t :: ts, ds, ns⟩ = (some true, ⟨t :: cs, ts, ds, ns⟩) := by
  rw [accept, bind_of_some (eat_of_kind h)]
  rfl

theorem accept_of_ne (h : t.kind ≠ k) :
    accept k c ⟨cs, t :: ts, ds, ns⟩ = (some false, ⟨cs, t :: ts, ds, ns⟩) := by
  have he : eat k c ⟨cs, t :: ts, ds, ns⟩ = (some none, ⟨cs, t :: ts, ds, ns⟩) := by simp [eat, h]
  rw [accept, bind_of_some he]
  rfl

theorem accept_of_head (h : ∀ t ∈ ts.head?, t.kind ≠ k) :
    accept k c ⟨cs, ts, ds, ns⟩ = (some false, ⟨cs, ts, ds, ns⟩) := by
  cases ts with
  | nil => rfl
  | cons t ts => exact accept_of_ne (h t rfl)

theorem expect_of_kind (h : t.kind = k) :
    expect k c ⟨cs, t :: ts, ds, ns⟩ = (some t, ⟨t :: cs, ts, ds, ns⟩) := by
  rw [expect, bind_of_some (eat_of_kind h)]
  rfl

theorem expectText_of_kind (h : t.kind = k) :
    expectText k c ⟨cs, t :: ts, ds, ns⟩ = (some t.text, ⟨t :: cs, ts, ds, ns⟩) := by
  rw [expectText, bind_of_some (expect_of_kind h)]
  rfl

theorem expectPunct_of_kind {p : Punct} (h : t.kind = .punct p) :
    expectPunct p c ⟨cs, t :: ts, ds, ns⟩ = (some (), ⟨t :: cs, ts, ds, ns⟩) := by
  rw [expectPunct, bind_of_some (expect_of_kind h)]
  rfl

theorem expectKeyword_of_kind {w : Keyword} (h : t.kind = .keyword w) :
    expectKeyword w c ⟨cs, t :: ts, ds, ns⟩ = (some (), ⟨t :: cs, ts, ds, ns⟩) := by
  rw [expectKeyword, bind_of_some (expect_of_kind h)]
  rfl

end Tokens

section Inversion

variable {k : Kind} {t : Token} {b : Bool}

theorem eat_eq_some {t? : Option Token} (h : eat k c s = (some t?, s')) :
    (∃ t, t? = some t ∧ t.kind = k ∧ s.rest = t :: s'.rest) ∨
      (t? = none ∧ s' = s ∧ ∀ t ∈ s.rest.head?, t.kind ≠ k) := by
  obtain ⟨cs, rest, ds, ns⟩ := s
  cases rest with
  | nil =>
    cases h
    exact .inr ⟨rfl, rfl, fun t ht => by cases ht⟩
  | cons t ts =>
    by_cases hk : t.kind = k
    · rw [eat_of_kind hk] at h
      cases h
      exact .inl ⟨t, rfl, hk, rfl⟩
    · simp only [eat, if_neg hk] at h
      cases h
      refine .inr ⟨rfl, rfl, fun t' ht => ?_⟩
      cases ht
      exact hk

theorem accept_eq_some (h : accept k c s = (some b, s')) :
    (b = true ∧ ∃ t, t.kind = k ∧ s.rest = t :: s'.rest) ∨
      (b = false ∧ s' = s ∧ ∀ t ∈ s.rest.head?, t.kind ≠ k) := by
  obtain ⟨t?, s₁, he, h⟩ := bind_eq_some.mp h
  obtain ⟨rfl, rfl⟩ := pure_eq_some.mp h
  rcases eat_eq_some he with ⟨t, rfl, hk, hr⟩ | ⟨rfl, rfl, hne⟩
  · exact .inl ⟨rfl, t, hk, hr⟩
  · exact .inr ⟨rfl, rfl, hne⟩

theorem expect_eq_some (h : expect k c s = (some t, s')) : t.kind = k ∧ s.rest = t :: s'.rest := by
  obtain ⟨t?, s₁, he, h⟩ := bind_eq_some.mp h
  rcases eat_eq_some he with ⟨t', rfl, hk, hr⟩ | ⟨rfl, -, -⟩
  · obtain ⟨rfl, rfl⟩ := pure_eq_some.mp h
    exact ⟨hk, hr⟩
  · cases h

theorem expectText_eq_some {text : String} (h : expectText k c s = (some text, s')) :
    ∃ t, t.kind = k ∧ t.text = text ∧ s.rest = t :: s'.rest := by
  obtain ⟨t, s₁, he, h⟩ := bind_eq_some.mp h
  obtain ⟨rfl, rfl⟩ := pure_eq_some.mp h
  exact ⟨t, (expect_eq_some he).1, rfl, (expect_eq_some he).2⟩

theorem isNext_eq_some (h : isNext k c s = (some b, s')) :
    s' = s ∧ (b = true → ∃ t ts, t.kind = k ∧ s.rest = t :: ts) ∧
      (b = false → ∀ t ∈ s.rest.head?, t.kind ≠ k) := by
  obtain ⟨cs, rest, ds, ns⟩ := s
  cases rest with
  | nil =>
    cases h
    exact ⟨rfl, fun hb => absurd hb Bool.false_ne_true, fun _ t ht => by cases ht⟩
  | cons t ts =>
    rw [isNext_cons] at h
    cases h
    refine ⟨rfl, fun hb => ⟨t, ts, by simpa using hb, rfl⟩, fun hb t' ht => ?_⟩
    cases ht
    simpa using hb

theorem spanFrom_eq_some {start : Nat} {span : Span} (h : spanFrom start c s = (some span, s')) : s' = s := by
  cases h
  rfl

end Inversion

/-! ## Loops -/

section Loops

/-- What is known after a round: of what the next one starts with, or of the result. -/
def Round.Ends (I : α → Prop) (Q : β → Prop) : Round α β → Prop
  | .again a => I a
  | .done b => Q b

variable {round : α → Parser (Round α β)}

/-- The rounds of a loop from one state to another.  Each of them reads a token. -/
inductive Leads (round : α → Parser (Round α β)) (c : Setting) : α → State → α → State → Prop
  | refl {a : α} {s : State} : Leads round c a s a s
  | step {a a₁ a' : α} {s s₁ s' : State} (h : round a c s = (some (.again a₁), s₁))
      (less : s₁.rest.length < s.rest.length) (more : Leads round c a₁ s₁ a' s') :
      Leads round c a s a' s'

theorem Leads.trans {a a₁ a' : α} {s₁ : State} (h : Leads round c a s a₁ s₁)
    (h' : Leads round c a₁ s₁ a' s') : Leads round c a s a' s' := by
  induction h with
  | refl => exact h'
  | step hr less _ ih => exact .step hr less (ih h')

theorem Leads.one {a a' : α} (h : round a c s = (some (.again a'), s'))
    (less : s'.rest.length < s.rest.length) : Leads round c a s a' s' :=
  .step h less .refl

/-- What each round keeps holds after all of them. -/
theorem Leads.keeps {motive : α → State → Prop} {a a' : α} (h : Leads round c a s a' s')
    (keep : ∀ a s a' s', motive a s → round a c s = (some (.again a'), s') → motive a' s') (start : motive a s) :
    motive a' s' := by
  induction h with
  | refl => exact start
  | step hround _ _ ih => exact ih (keep _ _ _ _ start hround)

/-- The rounds lead nowhere, or there is a last one. -/
theorem Leads.last {a a' : α} (h : Leads round c a s a' s') : (a' = a ∧ s' = s) ∨
    ∃ a₁ s₁, Leads round c a s a₁ s₁ ∧ round a₁ c s₁ = (some (.again a'), s') ∧ s'.rest.length < s₁.rest.length := by
  induction h with
  | refl => exact .inl ⟨rfl, rfl⟩
  | step hround less _ ih =>
    rcases ih with ⟨rfl, rfl⟩ | ⟨a₁, s₁, hleads, hlast, hless⟩
    · exact .inr ⟨_, _, .refl, hround, less⟩
    · exact .inr ⟨a₁, s₁, .step hround less hleads, hlast, hless⟩

theorem roundsUpTo_of_leads {a a' : α} {b : β} {s₁ : State} (h : Leads round c a s a' s₁)
    (done : round a' c s₁ = (some (.done b), s')) (limit : Nat) (hl : s.rest.length < limit) :
    roundsUpTo round limit a c s = (some b, s') := by
  induction h generalizing limit with
  | refl =>
    obtain ⟨limit, rfl⟩ : ∃ m, limit = m + 1 := ⟨limit - 1, by omega⟩
    rw [roundsUpTo, bind_of_some done]
    rfl
  | step hr less _ ih =>
    obtain ⟨limit, rfl⟩ : ∃ m, limit = m + 1 := ⟨limit - 1, by omega⟩
    rw [roundsUpTo, bind_of_some hr]
    exact ih done limit (by omega)

/-- A loop ends as its last round does. -/
theorem repeatUntil_of_leads {a a' : α} {b : β} {s₁ : State} (h : Leads round c a s a' s₁)
    (done : round a' c s₁ = (some (.done b), s')) : repeatUntil round a c s = (some b, s') :=
  roundsUpTo_of_leads h done _ (Nat.lt_succ_self _)

/-- What holds at the start of a loop, and is kept by each round that asks for another one, holds when the
last round begins. -/
theorem roundsUpTo_induct {motive : α → State → Prop}
    (keep : ∀ a s a' s', motive a s → round a c s = (some (.again a'), s') → motive a' s')
    (limit : Nat) {a : α} {b : β} (start : motive a s) (h : roundsUpTo round limit a c s = (some b, s')) :
    ∃ a' s₁, motive a' s₁ ∧ round a' c s₁ = (some (.done b), s') := by
  induction limit generalizing a s with
  | zero => simp [roundsUpTo, fail] at h
  | succ limit ih =>
    rw [roundsUpTo, bind_eq_some] at h
    obtain ⟨r, s₁, hr, h⟩ := h
    cases r with
    | again a' => exact ih (keep a s a' s₁ start hr) h
    | done b' =>
      obtain ⟨rfl, rfl⟩ := pure_eq_some.mp h
      exact ⟨a, s, start, hr⟩

theorem repeatUntil_induct {motive : α → State → Prop}
    (keep : ∀ a s a' s', motive a s → round a c s = (some (.again a'), s') → motive a' s')
    {a : α} {b : β} (start : motive a s) (h : repeatUntil round a c s = (some b, s')) :
    ∃ a' s₁, motive a' s₁ ∧ round a' c s₁ = (some (.done b), s') :=
  roundsUpTo_induct keep _ start h

/-- A loop whose rounds read tokens runs through rounds to a last one. -/
theorem leads_of_repeatUntil {a : α} {b : β}
    (hless : ∀ a s a' s', round a c s = (some (.again a'), s') → s'.rest.length < s.rest.length)
    (h : repeatUntil round a c s = (some b, s')) :
    ∃ a' s₁, Leads round c a s a' s₁ ∧ round a' c s₁ = (some (.done b), s') :=
  repeatUntil_induct (motive := Leads round c a s)
    (fun a s a' s' hleads hround => hleads.trans (.one hround (hless a s a' s' hround))) .refl h

end Loops

/-! ## Reading given tokens -/

/-- The parser reads the tokens `ts` and yields `a` when `rest` follows them, whatever was read and
recorded before. -/
def Reads (p : Parser α) (ts : List Token) (a : α) (rest : List Token) : Prop :=
  ∀ c cs ds ns, p c ⟨cs, ts ++ rest, ds, ns⟩ = (some a, ⟨ts.reverse ++ cs, rest, ds, ns⟩)

section Reading

variable {p q : Parser α} {f : α → Parser β} {a : α} {b : β} {t : Token} {ts ts' rest : List Token}

theorem Reads.pure : Reads (Pure.pure a) [] a rest := fun _ _ _ _ => rfl

theorem Reads.bind (h : Reads p ts a (ts' ++ rest)) (h' : Reads (f a) ts' b rest) :
    Reads (p >>= f) (ts ++ ts') b rest := by
  intro c cs ds ns
  rw [List.append_assoc, bind_of_some (h c cs ds ns), h', List.reverse_append, List.append_assoc]

theorem Reads.map (g : α → β) (h : Reads p ts a rest) : Reads (g <$> p) ts (g a) rest := by
  intro c cs ds ns
  rw [map_eq_bind, bind_of_some (h c cs ds ns)]
  rfl

theorem Reads.tentatively (h : Reads p ts a rest) : Reads (tentatively p) ts (some a) rest := by
  intro c cs ds ns
  rw [Parser.tentatively, h]

theorem Reads.expectPunct {p : Punct} (h : t.kind = .punct p) : Reads (expectPunct p) [t] () rest :=
  fun _ _ _ _ => expectPunct_of_kind h

/-- A parser of one token, and one of the tokens after it. -/
theorem Reads.cons
    (h : ∀ c cs ds ns, p c ⟨cs, t :: (ts ++ rest), ds, ns⟩ = (some a, ⟨t :: cs, ts ++ rest, ds, ns⟩))
    (h' : Reads (f a) ts b rest) : Reads (p >>= f) (t :: ts) b rest := by
  intro c cs ds ns
  rw [List.cons_append, bind_of_some (h c cs ds ns), h', List.reverse_cons, List.append_assoc]
  rfl

/-- A parser that only looks at what comes next. -/
theorem Reads.look
    (h : ∀ c cs ds ns, p c ⟨cs, ts ++ rest, ds, ns⟩ = (some a, ⟨cs, ts ++ rest, ds, ns⟩))
    (h' : Reads (f a) ts b rest) : Reads (p >>= f) ts b rest := by
  intro c cs ds ns
  rw [bind_of_some (h c cs ds ns), h']

/-- A parser that does what another one does in front of the same tokens. -/
theorem Reads.of_eq
    (h : ∀ c cs ds ns, p c ⟨cs, ts ++ rest, ds, ns⟩ = q c ⟨cs, ts ++ rest, ds, ns⟩)
    (hq : Reads q ts a rest) : Reads p ts a rest := by
  intro c cs ds ns
  rw [h, hq]

/-- A parser that reads one token and then does what another one does. -/
theorem Reads.of_cons
    (h : ∀ c cs ds ns, p c ⟨cs, t :: (ts ++ rest), ds, ns⟩ = q c ⟨t :: cs, ts ++ rest, ds, ns⟩)
    (hq : Reads q ts a rest) : Reads p (t :: ts) a rest := by
  intro c cs ds ns
  rw [List.cons_append, h, hq, List.reverse_cons, List.append_assoc]
  rfl

end Reading

end Bluespec.Parser
