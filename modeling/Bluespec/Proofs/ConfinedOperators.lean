import Bluespec.Proofs.ConfinedOperands
import Bluespec.Proofs.OperatorReading

/-!
# Operations and conditions are confined

Conditions are read either as those of a conditional or as those of a predicate around the expression, and what comes
after them decides which.  Where they lead to no conditional, reading them for one goes through the same tokens and
fails at the same place, so a copy of those tokens does not lead to a conditional either.

* **`Grammar.Settled`** — no operation comes next.
* **`Grammar.conjuncts_raise`** — conditions that lead to no conditional are read in the same way for one.
* **`Inner.operated`** — an operand with its suffixes and operations.
-/

namespace Bluespec

open Bluespec.Parser

/-- Whether an expression is a conditional that begins with its predicate, so that no parentheses are around it. -/
def Expr.isConditional : Expr → Bool
  | ⟨.cond p _ _, span⟩ => span.start == p.span.start
  | _ => false

/-! ## Further conditions -/

namespace Grammar

theorem conjunctRound_of_head {g : Grammar} {min : Nat} {read : List Expr} {c : Setting} {s : State}
    (h : ∀ t ∈ s.rest.head?, t.kind ≠ .punct .ampAmpAmp) :
    g.conjunctRound min read c s = (some (.done read), s) := by
  have haccept : accept (.punct .ampAmpAmp) c s = (some false, s) := accept_of_head h
  rw [conjunctRound, bind_of_some haccept]
  rfl

theorem conjunctRound_of_and {g : Grammar} {min : Nat} {read : List Expr} {c : Setting} {s : State} {t : Token}
    {ts : List Token} (h : s.rest = t :: ts) (hk : t.kind = .punct .ampAmpAmp) :
    g.conjunctRound min read c s = (g.innerExpr min >>= fun e => pure (.again (read ++ [e]))) c s.step := by
  obtain ⟨cs, rest, ds, ns⟩ := s
  cases h
  rw [conjunctRound, bind_of_some (accept_of_kind hk)]
  rfl

/-- The conditions read before stay in front. -/
theorem conjuncts_before (g : Grammar) (min limit : Nat) (before read : List Expr) (c : Setting) (s : State) :
    roundsUpTo (g.conjunctRound min) limit (before ++ read) c s =
      (roundsUpTo (g.conjunctRound min) limit read >>= fun es => pure (before ++ es)) c s := by
  induction limit generalizing read s with
  | zero => rfl
  | succ limit ih =>
    rw [roundsUpTo, roundsUpTo, bind_assoc]
    rcases Confined.eat_cases (.punct .ampAmpAmp) c s with ⟨t, ts, hrest, hk, -⟩ | ⟨hhead, -⟩
    · rw [bind_apply, bind_apply, conjunctRound_of_and hrest hk, conjunctRound_of_and hrest hk, bind_apply, bind_apply]
      rcases g.innerExpr min c s.step with ⟨_ | e, s₁⟩
      · rfl
      · show roundsUpTo _ limit (before ++ read ++ [e]) c s₁ = _
        rw [List.append_assoc, ih]
        rfl
    · rw [bind_of_some (conjunctRound_of_head hhead), bind_of_some (conjunctRound_of_head hhead)]
      rfl

end Grammar

/-- Further conditions, one at a time. -/
theorem Grammar.furtherConjuncts_unfold (min : Nat) : full.furtherConjuncts min = (do
    if ← accept (.punct .ampAmpAmp) then
      let e ← full.innerExpr min
      let es ← full.furtherConjuncts min
      return e :: es
    else return []) := by
  have hround : ∀ read c s read' s', full.conjunctRound min read c s = (some (.again read'), s') →
      s'.rest.length < s.rest.length := by
    intro read c s read' s' hrun
    rcases Confined.eat_cases (.punct .ampAmpAmp) c s with ⟨t, ts, hrest, hk, -⟩ | ⟨hhead, -⟩
    · rw [conjunctRound_of_and hrest hk] at hrun
      obtain ⟨e, s₁, hexpr, hrun⟩ := bind_eq_some.mp hrun
      cases hrun
      have hle := ((onward_full.expr min).of_run hexpr).length_le
      have hlt := (State.Took.step hrest).length_lt (List.cons_ne_nil _ _)
      omega
    · rw [conjunctRound_of_head hhead] at hrun
      cases hrun
  show repeatUntil (full.conjunctRound min) [] = _
  rw [Confined.repeatUntil_eq hround]
  funext c s
  rcases Confined.eat_cases (.punct .ampAmpAmp) c s with ⟨t, ts, hrest, hk, -⟩ | ⟨hhead, -⟩
  · have haccept : accept (.punct .ampAmpAmp) c s = (some true, s.step) := by
      obtain ⟨cs, rest, ds, ns⟩ := s
      cases hrest
      exact accept_of_kind hk
    rw [bind_of_some haccept, bind_apply, conjunctRound_of_and hrest hk]
    show _ = (full.innerExpr min >>= _) c s.step
    rw [bind_apply, bind_apply]
    rcases full.innerExpr min c s.step with ⟨_ | e, s₁⟩
    · rfl
    · exact conjuncts_before full min (s₁.rest.length + 1) [e] [] c s₁
  · have haccept : accept (.punct .ampAmpAmp) c s = (some false, s) := by
      obtain ⟨cs, rest, ds, ns⟩ := s
      exact accept_of_head hhead
    rw [bind_of_some haccept, bind_of_some (conjunctRound_of_head hhead)]
    rfl

namespace Grammar

theorem furtherConjuncts_of_head {min : Nat} {c : Setting} {s : State}
    (h : ∀ t ∈ s.rest.head?, t.kind ≠ .punct .ampAmpAmp) : full.furtherConjuncts min c s = (some [], s) := by
  have haccept : accept (.punct .ampAmpAmp) c s = (some false, s) := accept_of_head h
  rw [furtherConjuncts_unfold, bind_of_some haccept]
  rfl

theorem furtherConjuncts_of_and {min : Nat} {c : Setting} {s : State} {t : Token} {ts : List Token}
    (h : s.rest = t :: ts) (hk : t.kind = .punct .ampAmpAmp) :
    full.furtherConjuncts min c s =
      (full.innerExpr min >>= fun e => full.furtherConjuncts min >>= fun es => pure (e :: es)) c s.step := by
  obtain ⟨cs, rest, ds, ns⟩ := s
  cases h
  conv => lhs; rw [furtherConjuncts_unfold, bind_of_some (accept_of_kind hk)]
  rfl

/-! ## Where operations end -/

/-- No operation that binds at least as tightly as `min` comes next. -/
def Settled (min : Nat) (c : Setting) (s : State) : Prop :=
  ∀ t ∈ s.rest.head?, (t.kind = .punct .question → ¬ min ≤ conditionalPower) ∧
    (t.kind = .punct .ampAmpAmp → min ≤ conditionalPower → (full.conjunctsOfConditional c s).1 = none) ∧
    t.kind ≠ .keyword .matches_ ∧ ∀ op, BinaryOp.ofKind? t.kind = some op → ¬ min ≤ op.power

/-- A conditional comes next. -/
def AtConditional (c : Setting) (s : State) : Prop :=
  (∃ t ts, s.rest = t :: ts ∧ t.kind = .punct .question) ∨
    ∃ t ts others s', s.rest = t :: ts ∧ t.kind = .punct .ampAmpAmp ∧
      full.conjunctsOfConditional c s = (some others, s')

theorem Settled.mono {min min' : Nat} {c : Setting} {s : State} (h : Settled min c s) (hle : min ≤ min') :
    Settled min' c s := by
  intro t ht
  obtain ⟨hquestion, hand, hmatches, hbinary⟩ := h t ht
  exact ⟨fun hk hmin => hquestion hk (Nat.le_trans hle hmin), fun hk hmin => hand hk (Nat.le_trans hle hmin), hmatches,
    fun op hop hmin => hbinary op hop (Nat.le_trans hle hmin)⟩

theorem operation_of_settled {min : Nat} {c : Setting} {s : State} (h : Settled min c s) (e : Expr) :
    full.operation min e c s = (some (.done e), s) := by
  obtain ⟨cs, rest, ds, ns⟩ := s
  cases rest with
  | nil => rfl
  | cons t rest =>
    obtain ⟨hquestion, hand, hmatches, hbinary⟩ := h t rfl
    by_cases hq : t.kind = .punct .question
    · rw [operation_of_question e hq, if_neg (hquestion hq)]
      rfl
    by_cases ha : t.kind = .punct .ampAmpAmp
    · rw [operation_of_and e ha]
      split
      · next hmin =>
        have hnone := hand ha hmin
        rcases hrun : full.conjunctsOfConditional c ⟨cs, t :: rest, ds, ns⟩ with ⟨_ | others, s₁⟩
        · exact onward_full.chained_of_none e hrun
        · rw [hrun] at hnone
          cases hnone
      · rfl
    cases hop : BinaryOp.ofKind? t.kind with
    | none =>
      rw [operation_of_ne e hq ha hmatches, hop]
      rfl
    | some op =>
      rw [operation_of_binary e hop, if_neg (hbinary op hop)]
      rfl

/-- Where no operation comes next, an operand is the whole expression. -/
theorem operations_of_settled {min : Nat} {c : Setting} {s : State} (h : Settled min c s) (e : Expr) :
    Grammar.full.operations min e c s = (some e, s) := repeatUntil_of_leads .refl (operation_of_settled h e)

/-- What an operation on `e` can do. -/
inductive Operation (min : Nat) (e : Expr) (c : Setting) (s : State) : Round Expr Expr → State → Prop
  /-- It is the end of them. -/
  | done (settled : Settled min c s) : Operation min e c s (.done e) s
  /-- It is a conditional with a single condition. -/
  | conditional {t : Token} {ts : List Token} {e' : Expr} {s' : State} (rest : s.rest = t :: ts)
      (kind : t.kind = .punct .question) (power : min ≤ conditionalPower)
      (run : full.conditional ⟨[e], e.span⟩ c s = (some e', s')) : Operation min e c s (.again e') s'
  /-- It is a conditional with further conditions. -/
  | chained {t : Token} {ts : List Token} {others : List Expr} {e' : Expr} {s₁ s' : State} (rest : s.rest = t :: ts)
      (kind : t.kind = .punct .ampAmpAmp) (power : min ≤ conditionalPower)
      (conjuncts : full.conjunctsOfConditional c s = (some others, s₁))
      (run : full.conditional ⟨e :: others, s₁.spanFrom e.span.start⟩ c s₁ = (some e', s')) :
      Operation min e c s (.again e') s'
  /-- It is one with a binary operator. -/
  | binary {t : Token} {ts : List Token} {op : BinaryOp} {rhs : Expr} {s' : State} (rest : s.rest = t :: ts)
      (kind : BinaryOp.ofKind? t.kind = some op) (power : min ≤ op.power)
      (run : full.innerExpr (op.power + 1) c s.step = (some rhs, s')) :
      Operation min e c s (.again ⟨.binary op e rhs, ⟨e.span.start, rhs.span.stop⟩⟩) s'

theorem operation_cases {min : Nat} {e : Expr} {r : Round Expr Expr} {c : Setting} {s s' : State}
    (h : full.operation min e c s = (some r, s')) : Operation min e c s r s' := by
  obtain ⟨cs, rest, ds, ns⟩ := s
  cases rest with
  | nil =>
    cases h
    exact .done fun t ht => by cases ht
  | cons t rest =>
    have hne : ∀ {k k' : Kind} {P : Prop}, t.kind = k → k ≠ k' → t.kind = k' → P := by
      intro k k' P hk hkk' hk'
      exact absurd (hk.symm.trans hk') hkk'
    by_cases hq : t.kind = .punct .question
    · rw [operation_of_question e hq] at h
      split at h
      · next hmin =>
        obtain ⟨e', s₁, hrun, h⟩ := bind_eq_some.mp h
        cases h
        exact .conditional rfl hq hmin hrun
      · next hmin =>
        cases h
        refine .done ?_
        rintro t' ⟨⟩
        exact ⟨fun _ => hmin, hne hq (by decide), hne hq (by decide), by rw [hq]; rintro op ⟨⟩⟩
    by_cases ha : t.kind = .punct .ampAmpAmp
    · rw [operation_of_and e ha] at h
      split at h
      · next hmin =>
        rcases hconjuncts : full.conjunctsOfConditional c ⟨cs, t :: rest, ds, ns⟩ with ⟨_ | others, s₁⟩
        · rw [onward_full.chained_of_none e hconjuncts] at h
          cases h
          refine .done ?_
          rintro t' ⟨⟩
          exact ⟨hne ha (by decide), fun _ _ => by rw [hconjuncts], hne ha (by decide), by rw [ha]; rintro op ⟨⟩⟩
        · rw [Onward.chained_of_some e hconjuncts] at h
          obtain ⟨e', s₃, hrun, h⟩ := bind_eq_some.mp h
          cases h
          exact .chained rfl ha hmin hconjuncts hrun
      · next hmin =>
        cases h
        refine .done ?_
        rintro t' ⟨⟩
        exact ⟨hne ha (by decide), fun _ hle => absurd hle hmin, hne ha (by decide), by rw [ha]; rintro op ⟨⟩⟩
    by_cases hm : t.kind = .keyword .matches_
    · simp only [operation, bind_of_some peek_cons, hm] at h
      cases h
    cases hop : BinaryOp.ofKind? t.kind with
    | none =>
      rw [operation_of_ne e hq ha hm, hop] at h
      cases h
      refine .done ?_
      rintro t' ⟨⟩
      exact ⟨fun hk => absurd hk hq, fun hk => absurd hk ha, hm, by rw [hop]; rintro op ⟨⟩⟩
    | some op =>
      rw [operation_of_binary e hop] at h
      split at h
      · next hmin =>
        obtain ⟨x, s₁, hskip, h⟩ := bind_eq_some.mp h
        cases hskip
        obtain ⟨rhs, s₂, hrun, h⟩ := bind_eq_some.mp h
        cases h
        exact .binary rfl hop hmin hrun
      · next hmin =>
        cases h
        refine .done ?_
        rintro t' ⟨⟩
        refine ⟨fun hk => absurd hk hq, fun hk => absurd hk ha, hm, fun op' hop' => ?_⟩
        rw [hop] at hop'
        cases hop'
        exact hmin

/-- An expression ends where no operation follows. -/
theorem expr_settled {min : Nat} {c : Setting} {s s' : State} {e : Expr}
    (h : full.innerExpr min c s = (some e, s')) : Settled min c s' := by
  rw [full_expr] at h
  obtain ⟨e₀, s₀, -, h⟩ := bind_eq_some.mp h
  obtain ⟨e₁, s₁, -, h⟩ := bind_eq_some.mp h
  obtain ⟨e₂, s₂, -, hdone⟩ := repeatUntil_induct (motive := fun _ _ => True) (fun _ _ _ _ _ _ => trivial) trivial h
  cases operation_cases hdone with
  | done hsettled => exact hsettled

/-! ## Conditions that lead to no conditional -/

/-- Above conditionals, what comes next is no operation where a conditional does. -/
theorem AtConditional.settled {c : Setting} {s : State} (h : AtConditional c s) :
    Settled (conditionalPower + 1) c s := by
  have habove : ¬ conditionalPower + 1 ≤ conditionalPower := Nat.not_succ_le_self _
  intro t ht
  rcases h with ⟨t', ts, hrest, hk⟩ | ⟨t', ts, others, s', hrest, hk, -⟩ <;>
    · rw [hrest] at ht
      cases ht
      refine ⟨fun _ => habove, fun _ hmin => absurd hmin habove, ?_, ?_⟩ <;> rw [hk] <;> exact nofun

theorem operation_of_power {min : Nat} {e rhs : Expr} {c : Setting} {s s' : State} {t : Token} {ts : List Token}
    {op : BinaryOp} (hrest : s.rest = t :: ts) (hop : BinaryOp.ofKind? t.kind = some op) (hmin : min ≤ op.power)
    (hrun : full.innerExpr (op.power + 1) c s.step = (some rhs, s')) :
    full.operation min e c s = (some (.again ⟨.binary op e rhs, ⟨e.span.start, rhs.span.stop⟩⟩), s') := by
  obtain ⟨cs, rest, ds, ns⟩ := s
  cases hrest
  change full.innerExpr (op.power + 1) c ⟨t :: cs, ts, ds, ns⟩ = (some rhs, s') at hrun
  rw [operation_of_binary e hop, if_pos hmin, bind_of_some skip_cons, bind_of_some hrun]
  rfl

/-- Behind a conditional no operation comes next at all. -/
theorem Settled.zero {c : Setting} {s : State} (h : Settled conditionalPower c s) : Settled 0 c s := by
  intro t ht
  obtain ⟨hquestion, hand, hmatches, hbinary⟩ := h t ht
  exact ⟨fun hk => absurd (Nat.le_refl _) (hquestion hk), fun hk _ => hand hk (Nat.le_refl _), hmatches,
    fun op hop _ => hbinary op hop (Nat.le_of_lt (conditionalPower_lt_power op))⟩

theorem conditional_settled {p : Predicate} {e : Expr} {c : Setting} {s s' : State}
    (h : full.conditional p c s = (some e, s')) : Settled conditionalPower c s' := by
  obtain ⟨_, s₁, -, h⟩ := bind_eq_some.mp h
  obtain ⟨_, s₂, -, h⟩ := bind_eq_some.mp h
  obtain ⟨_, s₃, -, h⟩ := bind_eq_some.mp h
  obtain ⟨_, s₄, hexpr, h⟩ := bind_eq_some.mp h
  cases h
  exact expr_settled hexpr

/-- A conditional is read as one that begins with its predicate. -/
theorem conditional_isConditional {p : Predicate} {e : Expr} {c : Setting} {s s' : State}
    (h : full.conditional p c s = (some e, s')) : e.isConditional = true := by
  obtain ⟨_, s₁, -, h⟩ := bind_eq_some.mp h
  obtain ⟨_, s₂, -, h⟩ := bind_eq_some.mp h
  obtain ⟨_, s₃, -, h⟩ := bind_eq_some.mp h
  obtain ⟨_, s₄, -, h⟩ := bind_eq_some.mp h
  cases h
  exact beq_self_eq_true _

/-- An operation is one above conditionals, or it is a conditional and the last one. -/
theorem operation_raise {e e' : Expr} {c : Setting} {s s' : State}
    (h : full.operation 0 e c s = (some (.again e'), s')) :
    full.operation (conditionalPower + 1) e c s = (some (.again e'), s') ∨
      AtConditional c s ∧ e'.isConditional = true ∧ Settled 0 c s' := by
  cases operation_cases h with
  | conditional hrest hk _ hrun =>
    exact .inr ⟨.inl ⟨_, _, hrest, hk⟩, conditional_isConditional hrun, (conditional_settled hrun).zero⟩
  | chained hrest hk _ hconjuncts hrun =>
    exact .inr ⟨.inr ⟨_, _, _, _, hrest, hk, hconjuncts⟩, conditional_isConditional hrun,
      (conditional_settled hrun).zero⟩
  | binary hrest hop _ hrun => exact .inl (operation_of_power hrest hop (conditionalPower_lt_power _) hrun)

/-- An expression is one above conditionals, or it is a conditional, and the beginning of it that is one stands in front
of a conditional. -/
theorem expr_raise {c : Setting} {s s' : State} {e : Expr} (h : full.innerExpr 0 c s = (some e, s')) :
    full.innerExpr (conditionalPower + 1) c s = (some e, s') ∨ e.isConditional = true ∧
      ∃ e₁ s₁, full.innerExpr (conditionalPower + 1) c s = (some e₁, s₁) ∧ AtConditional c s₁ := by
  rw [full_expr] at h
  obtain ⟨e₀, s₀, hunary, h⟩ := bind_eq_some.mp h
  obtain ⟨e₁, s₁, hsuffixes, h⟩ := bind_eq_some.mp h
  have hraised : ∀ {e' s'}, Leads (full.operation (conditionalPower + 1)) c e₁ s₁ e' s' →
      Settled (conditionalPower + 1) c s' → full.innerExpr (conditionalPower + 1) c s = (some e', s') := by
    intro e' s' hleads hsettled
    rw [full_expr, expr, bind_of_some hunary, bind_of_some hsuffixes]
    exact repeatUntil_of_leads hleads (operation_of_settled hsettled e')
  let motive (e : Expr) (s : State) : Prop :=
    Leads (full.operation (conditionalPower + 1)) c e₁ s₁ e s ∨ (e.isConditional = true ∧ Settled 0 c s) ∧
      ∃ e₂ s₂, Leads (full.operation (conditionalPower + 1)) c e₁ s₁ e₂ s₂ ∧ AtConditional c s₂
  have hkeep : ∀ e s e' s', motive e s → full.operation 0 e c s = (some (.again e'), s') → motive e' s' := by
    rintro e s e' s' (hleads | ⟨⟨-, hsettled⟩, -⟩) hround
    · rcases operation_raise hround with hround' | ⟨hnext, hlast⟩
      · have hsteady := steady_operation (conditionalPower + 1) e s.rest.length
        have hless := (hsteady.tells ⟨Nat.lt_succ_self _, trivial⟩ hround').read rfl
        exact .inl (hleads.trans (.one hround' hless))
      · exact .inr ⟨hlast, e, s, hleads, hnext⟩
    · rw [operation_of_settled hsettled] at hround
      cases hround
  obtain ⟨e₂, s₂, hmotive, hdone⟩ := repeatUntil_induct hkeep (.inl .refl) h
  cases operation_cases hdone with
  | done hsettled =>
    rcases hmotive with hleads | ⟨⟨hconditional, -⟩, e₃, s₃, hleads, hnext⟩
    · exact .inl (hraised hleads (hsettled.mono (Nat.zero_le _)))
    · exact .inr ⟨hconditional, e₃, s₃, hraised hleads hnext.settled, hnext⟩

theorem conjunctsOfConditional_eq_some {others : List Expr} {c : Setting} {s s' : State} :
    full.conjunctsOfConditional c s = (some others, s') ↔
      full.furtherConjuncts (conditionalPower + 1) c s = (some others, s') ∧ others ≠ [] ∧
        s'.peek = some (.punct .question) := by
  have hend : ∀ (es : List Expr) (s₁ : State),
      (isNext (.punct .question) >>= fun b => if (!es.isEmpty && b) = true then pure es else fail) c s₁ =
        (some others, s') ↔ (es = others ∧ s₁ = s') ∧ es ≠ [] ∧ s₁.peek = some (.punct .question) := by
    intro es s₁
    rw [bind_of_some (show isNext (.punct .question) c s₁ = (some (s₁.isNext (.punct .question)), s₁) from rfl)]
    by_cases hb : (!es.isEmpty && s₁.isNext (.punct .question)) = true
    · rw [if_pos hb, pure_eq_some]
      rw [Bool.and_eq_true, State.isNext, beq_iff_eq] at hb
      refine ⟨fun h => ⟨h, ?_, hb.2⟩, fun h => h.1⟩
      rintro rfl
      exact Bool.false_ne_true hb.1
    · rw [if_neg hb]
      refine ⟨nofun, fun h => absurd ?_ hb⟩
      rw [Bool.and_eq_true, State.isNext, beq_iff_eq, Bool.not_eq_true', List.isEmpty_eq_false_iff]
      exact h.2
  rw [conjunctsOfConditional, bind_eq_some]
  constructor
  · rintro ⟨es, s₁, hrun, h⟩
    obtain ⟨⟨rfl, rfl⟩, hne, hpeek⟩ := (hend es s₁).mp h
    exact ⟨hrun, hne, hpeek⟩
  · rintro ⟨hrun, hne, hpeek⟩
    exact ⟨others, s', hrun, (hend others s').mpr ⟨⟨rfl, rfl⟩, hne, hpeek⟩⟩

/-- Conditions are read above conditionals in the same way, or they lead to a conditional. -/
theorem conjuncts_raise {c : Setting} {s s' : State} {es : List Expr} (n : Nat) (hn : s.rest.length < n)
    (h : full.furtherConjuncts 0 c s = (some es, s')) :
    full.furtherConjuncts (conditionalPower + 1) c s = (some es, s') ∨
      ∃ others s₁, full.conjunctsOfConditional c s = (some others, s₁) := by
  induction n generalizing s es with
  | zero => exact absurd hn (Nat.not_lt_zero _)
  | succ n ih =>
    rcases Confined.eat_cases (.punct .ampAmpAmp) c s with ⟨t, ts, hrest, hk, -⟩ | ⟨hhead, -⟩
    · rw [furtherConjuncts_of_and hrest hk] at h
      obtain ⟨e, s₁, hexpr, h⟩ := bind_eq_some.mp h
      obtain ⟨es', s₂, hmore, h⟩ := bind_eq_some.mp h
      obtain ⟨rfl, rfl⟩ := pure_eq_some.mp h
      have hlt := (State.Took.step hrest).length_lt (List.cons_ne_nil _ _)
      have hle := ((onward_full.expr 0).of_run hexpr).length_le
      -- what stands behind the first condition is read above conditionals, too
      have hchain : ∀ {e s₁ es s₂}, full.innerExpr (conditionalPower + 1) c s.step = (some e, s₁) →
          full.furtherConjuncts (conditionalPower + 1) c s₁ = (some es, s₂) →
            full.furtherConjuncts (conditionalPower + 1) c s = (some (e :: es), s₂) := by
        intro e s₁ es s₂ he hes
        rw [furtherConjuncts_of_and hrest hk, bind_of_some he, bind_of_some hes]
        rfl
      rcases expr_raise hexpr with hraised | ⟨-, e₁, s₃, hraised, hnext⟩
      · rcases ih (by omega) hmore with hmore' | ⟨others, s₃, hothers⟩
        · exact .inl (hchain hraised hmore')
        · obtain ⟨hothers, -, hpeek⟩ := conjunctsOfConditional_eq_some.mp hothers
          exact .inr ⟨_, s₃, conjunctsOfConditional_eq_some.mpr
            ⟨hchain hraised hothers, List.cons_ne_nil _ _, hpeek⟩⟩
      · right
        rcases hnext with ⟨t', ts', hrest', hk'⟩ | ⟨t', ts', others, s₄, -, -, hothers⟩
        · have hnone : full.furtherConjuncts (conditionalPower + 1) c s₃ = (some [], s₃) := by
            refine furtherConjuncts_of_head fun t ht => ?_
            rw [hrest'] at ht
            cases ht
            rw [hk']
            exact nofun
          refine ⟨_, s₃, conjunctsOfConditional_eq_some.mpr ⟨hchain hraised hnone, List.cons_ne_nil _ _, ?_⟩⟩
          rw [State.peek, hrest', ← hk']
          rfl
        · obtain ⟨hothers, -, hpeek⟩ := conjunctsOfConditional_eq_some.mp hothers
          exact ⟨_, s₄, conjunctsOfConditional_eq_some.mpr ⟨hchain hraised hothers, List.cons_ne_nil _ _, hpeek⟩⟩
    · rw [furtherConjuncts_of_head hhead] at h ⊢
      exact .inl h

end Grammar

/-! ## Conditions are confined -/

/-- The tokens `ts` are further conditions, wherever else they stand before the same token. -/
structure Conditions (tokens : List Token) (min : Nat) (s : State) (es : List Expr) (ts : List Token) (s' : State) :
    Prop where
  took : s.Took ts s'
  shape : Neutral ts
  sites : ∀ e ∈ es, AllSites (Site.Alone tokens) e.sites
  head : ∀ t ∈ ts.head?, t.kind = .punct .ampAmpAmp
  again : ∀ cs rest, SameNext s'.rest rest → Goes (Grammar.full.furtherConjuncts min) cs ts es rest

/-- Conditions that lead to no conditional do not lead to one elsewhere. -/
def DropsElsewhere (tokens : List Token) (n : Nat) : Prop :=
  ∀ c s es s' ts rest, Grammar.full.furtherConjuncts 0 c s = (some es, s') → s'.diagnostics = [] →
    s.rest.length < n → s.rest <:+ tokens → (Grammar.full.conjunctsOfConditional c s).1 = none → s.Took ts s' →
    SameNext s'.rest rest → Dropped (ts ++ rest)

/-- An expression ends before the conditions that follow it, elsewhere as well. -/
theorem Conditions.next {tokens : List Token} {n min : Nat} {c : Setting} {s s₁ s' : State} {e : Expr} {es : List Expr}
    {ts rest : List Token} (h : Conditions tokens min s₁ es ts s')
    (hdrops : min = conditionalPower + 1 ∨ min = 0 ∧ DropsElsewhere tokens n)
    (hexpr : Grammar.full.innerExpr min c s = (some e, s₁))
    (hrun : Grammar.full.furtherConjuncts min c s₁ = (some es, s')) (hclean : s'.diagnostics = [])
    (hs : s₁.rest.length < n) (hwithin : s₁.rest <:+ tokens) (hsame : SameNext s'.rest rest) :
    SameNext s₁.rest (ts ++ rest) ∨ ExprStops min (ts ++ rest) := by
  cases ts with
  | nil =>
    rw [show s₁.rest = s'.rest from h.took.rest]
    exact .inl hsame
  | cons t us =>
    refine .inr ?_
    rintro t' ⟨⟩
    have hand := h.head t rfl
    refine .inr ⟨by rw [hand]; rfl, fun hmin => ⟨hand, ?_⟩⟩
    rcases hdrops with rfl | ⟨rfl, hdrops⟩
    · exact absurd hmin (Nat.not_succ_le_self _)
    · have hnone := (Grammar.expr_settled hexpr t (by rw [h.took.rest]; rfl)).2.1 hand hmin
      exact hdrops c s₁ es s' _ rest hrun hclean hs hwithin hnone h.took hsame

namespace Inner

variable {tokens : List Token} {n : Nat}

/-- Further conditions go the same way elsewhere if those that lead to no conditional do not lead to one there. -/
theorem conditions (h : Inner tokens n) {min m : Nat} (hm : m ≤ n)
    (hdrops : min = conditionalPower + 1 ∨ min = 0 ∧ DropsElsewhere tokens n)
    {c : Setting} {s s' : State} {es : List Expr} (hs : s.rest.length < m) (hwithin : s.rest <:+ tokens)
    (hrun : Grammar.full.furtherConjuncts min c s = (some es, s')) (hclean : s'.diagnostics = []) :
    ∃ ts, Conditions tokens min s es ts s' := by
  induction m generalizing s es with
  | zero => exact absurd hs (Nat.not_lt_zero _)
  | succ m ih =>
    rcases Confined.eat_cases (.punct .ampAmpAmp) c s with ⟨t, us, hrest, hk, -⟩ | ⟨hhead, -⟩
    · rw [Grammar.furtherConjuncts_of_and hrest hk] at hrun
      obtain ⟨e, s₁, hexpr, hrun⟩ := bind_eq_some.mp hrun
      obtain ⟨es', s₂, hmore, hrun⟩ := bind_eq_some.mp hrun
      obtain ⟨rfl, rfl⟩ := pure_eq_some.mp hrun
      have hstep := State.Took.step hrest
      have hlt := hstep.length_lt (List.cons_ne_nil _ _)
      have hmoves : s₁.Moves s₂ := (Grammar.onward_full.furtherConjuncts min).of_run hmore
      have hclean₁ := hmoves.clean hclean
      obtain ⟨hsites, ts₁, -, hts₁⟩ := (h.expr min).runs c s.step e s₁
        ⟨by omega, hstep.suffix.trans hwithin, trivial⟩ hexpr hclean₁
      have hle := hts₁.took.length_le
      have hwithin₁ : s₁.rest <:+ tokens := hts₁.took.suffix.trans (hstep.suffix.trans hwithin)
      obtain ⟨ts₂, hts₂⟩ := ih (Nat.le_of_succ_le hm) (by omega) hwithin₁ hmore
      have hnext : ∀ rest, SameNext s₂.rest rest → SameNext s₁.rest (ts₂ ++ rest) ∨ ExprStops min (ts₂ ++ rest) :=
        fun rest => hts₂.next hdrops hexpr hmore hclean (by omega) hwithin₁
      refine ⟨t :: (ts₁ ++ ts₂), hstep.append (hts₁.took.append hts₂.took), ?_, ?_, ?_, fun cs rest hsame c' ns => ?_⟩
      · have hquiet : Neutral [t] := .single (by rw [hk]; rfl)
        exact hquiet.append (hts₁.shape.append hts₂.shape)
      · exact List.forall_mem_cons.mpr ⟨hsites, hts₂.sites⟩
      · rintro t' ⟨⟩
        exact hk
      · obtain ⟨ns₁, hfirst⟩ := hts₁.again (t :: cs) (ts₂ ++ rest) nofun (hnext rest hsame) c' ns
        obtain ⟨ns₂, hothers⟩ := hts₂.again (ts₁.reverse ++ t :: cs) rest hsame c' ns₁
        refine ⟨ns₂, ?_⟩
        have hcons : (⟨cs, t :: (ts₁ ++ ts₂) ++ rest, [], ns⟩ : State).rest = t :: (ts₁ ++ (ts₂ ++ rest)) := by
          show t :: (ts₁ ++ ts₂) ++ rest = _
          rw [List.cons_append, List.append_assoc]
        rw [Grammar.furtherConjuncts_of_and hcons hk, show State.step ⟨cs, t :: (ts₁ ++ ts₂) ++ rest, [], ns⟩ =
          ⟨t :: cs, ts₁ ++ (ts₂ ++ rest), [], ns⟩ by rw [← List.append_assoc]; rfl, bind_of_some hfirst,
          bind_of_some hothers, List.reverse_cons, List.reverse_append, List.append_assoc, List.append_assoc]
        rfl
    · rw [Grammar.furtherConjuncts_of_head hhead] at hrun
      cases hrun
      refine ⟨[], .nil _, .nil, nofun, nofun, fun cs rest hrest c' ns => ⟨ns, ?_⟩⟩
      refine Grammar.furtherConjuncts_of_head fun t ht => hhead t ?_
      rw [← hrest.head]
      exact ht

/-- The conditions of a conditional. -/
theorem conditionsAbove (h : Inner tokens n) {c : Setting} {s s' : State} {es : List Expr} (hs : s.rest.length < n)
    (hwithin : s.rest <:+ tokens) (hrun : Grammar.full.furtherConjuncts (conditionalPower + 1) c s = (some es, s'))
    (hclean : s'.diagnostics = []) : ∃ ts, Conditions tokens (conditionalPower + 1) s es ts s' :=
  h.conditions (Nat.le_refl n) (.inl rfl) hs hwithin hrun hclean

/-- Conditions that lead to no conditional are read as those of one as well, and fail where no conditional follows. -/
theorem dropsElsewhere (h : Inner tokens n) : DropsElsewhere tokens n := by
  intro c s es s' ts rest hrun hclean hs hwithin hnone htook hsame c' cs ns
  have habove : Grammar.full.furtherConjuncts (conditionalPower + 1) c s = (some es, s') := by
    rcases Grammar.conjuncts_raise n hs hrun with habove | ⟨others, s₁, hothers⟩
    · exact habove
    · rw [hothers] at hnone
      cases hnone
  obtain ⟨ts', hts'⟩ := h.conditionsAbove hs hwithin habove hclean
  obtain rfl := htook.unique hts'.took
  obtain ⟨ns', hgo⟩ := hts'.again cs rest hsame c' ns
  cases hkept : Grammar.full.conjunctsOfConditional c' ⟨cs, ts ++ rest, [], ns⟩ with
  | mk r s₁ =>
    cases r with
    | none => rfl
    | some others =>
      obtain ⟨hothers, hne, hpeek⟩ := Grammar.conjunctsOfConditional_eq_some.mp hkept
      rw [hgo] at hothers
      cases hothers
      have hpeek' : s'.peek = some (.punct .question) := by
        rw [State.peek, ← hsame.head]
        exact hpeek
      rw [Grammar.conjunctsOfConditional_eq_some.mpr ⟨habove, hne, hpeek'⟩] at hnone
      cases hnone

/-- The conditions of a predicate behind the first one. -/
theorem conditionsBelow (h : Inner tokens n) {c : Setting} {s s' : State} {es : List Expr} (hs : s.rest.length < n)
    (hwithin : s.rest <:+ tokens) (hrun : Grammar.full.furtherConjuncts 0 c s = (some es, s'))
    (hclean : s'.diagnostics = []) : ∃ ts, Conditions tokens 0 s es ts s' :=
  h.conditions (Nat.le_refl n) (.inr ⟨rfl, h.dropsElsewhere⟩) hs hwithin hrun hclean

/-! ## Operations are confined -/

/-- A conditional behind its predicate. -/
theorem conditional (h : Inner tokens n) (p : Predicate) :
    Confined tokens n any true true (fun _ => ExprStops conditionalPower)
      (fun e => AllSites (Site.Alone tokens) p.sites → AllSites (Site.Alone tokens) e.form.sites)
      (Grammar.full.conditional p) := by
  refine .seq true .reads (.expectPunct rfl) fun _ => ?_
  refine .keep true .reads (h.expr 0).part fun a => ?_
  refine .seq true .reads (.expectPunct rfl) fun _ => ?_
  refine .keep false .same (h.expr conditionalPower).part fun b => .spanned fun span hb ha hp => ?_
  exact allSites_append.mpr ⟨allSites_append.mpr ⟨hp, ha⟩, hb⟩

end Inner

/-- An operation that some tokens are, wherever else they stand before a rest at which it ends. -/
structure Operates (tokens : List Token) (min : Nat) (c : Setting) (e e' : Expr) (s : State) (ts : List Token) (s' : State)
    (F : List Token → Prop) : Prop where
  contained : Contained Neutral (Grammar.full.operation min e) true true F (.again e') s ts s'
  sites : AllSites (Site.Alone tokens) e.sites → AllSites (Site.Alone tokens) e'.form.sites
  stops : ∀ rest, ExprStops min rest → F rest
  -- behind a conditional there are no further conditions of one
  after : (∀ rest, OperandStops rest → F rest) ∨ Grammar.Settled conditionalPower c s'
  head : (∀ t ∈ ts.head?, t.kind.isCommon = true) ∨
    (∀ rest, OperandStops (ts ++ rest)) ∧ ¬ Grammar.Settled conditionalPower c s

section Operations

variable {tokens : List Token} {n min : Nat} {c : Setting} {e e' : Expr} {s s' : State} {t : Token} {us : List Token}

theorem OperandStops.of_and {ts : List Token} (hne : ts ≠ []) (h : ∀ t ∈ ts.head?, t.kind = .punct .ampAmpAmp)
    (rest : List Token) : OperandStops (ts ++ rest) := by
  obtain ⟨t, us, rfl⟩ := List.exists_cons_of_ne_nil hne
  exact fun t ht => .inl (by rw [h t ht]; rfl)

theorem ExprStops.mono {min min' : Nat} {rest : List Token} (h : ExprStops min rest) (hmin : min ≤ conditionalPower) :
    ExprStops min' rest := fun t ht => (h t ht).imp_right fun hk => ⟨hk.1, fun _ => hk.2 hmin⟩

/-- A conditional with one condition. -/
theorem Inner.operates_conditional (h : Inner tokens n) (hs : Starts tokens n any s) (hrest : s.rest = t :: us)
    (hk : t.kind = .punct .question) (hmin : min ≤ conditionalPower)
    (hrun : Grammar.full.conditional ⟨[e], e.span⟩ c s = (some e', s')) (hclean : s'.diagnostics = []) :
    ∃ ts, Operates tokens min c e e' s ts s' (ExprStops conditionalPower) := by
  obtain ⟨hsites, ts, hcommon, hts⟩ := (h.conditional ⟨[e], e.span⟩).runs c s e' s' hs hrun hclean
  refine ⟨ts, ⟨hts.took, hts.shape, hts.reads, fun cs rest hcs hnext => ?_⟩, ?_, fun rest hrest => hrest.mono hmin,
    .inr (Grammar.conditional_settled hrun), .inl hcommon⟩
  · obtain ⟨t', us', rfl⟩ := List.exists_cons_of_ne_nil (hts.reads rfl)
    have hcons := hts.took.rest
    rw [hrest] at hcons
    obtain ⟨rfl, -⟩ := List.cons.inj hcons
    intro c' ns
    obtain ⟨ns', hgo⟩ := hts.again cs rest hcs hnext c' ns
    refine ⟨ns', ?_⟩
    show Grammar.full.operation min e c' ⟨cs, t :: (us' ++ rest), [], ns⟩ = _
    rw [Grammar.operation_of_question e hk, if_pos hmin]
    exact bind_of_some hgo
  · intro he
    refine hsites (Expr.allSitesIn.mpr ?_)
    exact List.forall_mem_singleton.mpr he

/-- Conditions that a question mark follows begin with a mark between conditions. -/
theorem Conditions.ne_nil {others : List Expr} {s₁ : State} {ts : List Token}
    (h : Conditions tokens min s others ts s₁) (hrest : s.rest = t :: us) (hk : t.kind = .punct .ampAmpAmp)
    (hpeek : s₁.peek = some (.punct .question)) : ts ≠ [] := by
  rintro rfl
  rw [State.peek, ← show s.rest = s₁.rest from h.took.rest, hrest, List.head?_cons, Option.map_some, hk] at hpeek
  cases hpeek

/-- Conditions of a conditional lead to it, wherever they stand before it. -/
theorem Conditions.chained {others : List Expr} {s₁ : State} {ts rest : List Token}
    (h : Conditions tokens (conditionalPower + 1) s others ts s₁) (hreads : ts ≠ []) (hne : others ≠ [])
    (hpeek : s₁.peek = some (.punct .question)) (hmin : min ≤ conditionalPower) (hsame : SameNext s₁.rest rest)
    (e : Expr) (c : Setting) (cs : List Token) (ns : List NodeSpan) :
    ∃ ns', Grammar.full.operation min e c ⟨cs, ts ++ rest, [], ns⟩ =
      (Grammar.full.conditional ⟨e :: others, s₁.spanFrom e.span.start⟩ >>= fun e' => pure (Round.again e')) c
        ⟨ts.reverse ++ cs, rest, [], ns'⟩ := by
  obtain ⟨ns', hothers⟩ := h.again cs rest hsame c ns
  have hkept : Grammar.full.conjunctsOfConditional c ⟨cs, ts ++ rest, [], ns⟩ =
      (some others, ⟨ts.reverse ++ cs, rest, [], ns'⟩) := by
    refine Grammar.conjunctsOfConditional_eq_some.mpr ⟨hothers, hne, ?_⟩
    rw [State.peek, hsame.head]
    exact hpeek
  have hspan : State.spanFrom ⟨ts.reverse ++ cs, rest, [], ns'⟩ e.span.start = s₁.spanFrom e.span.start := by
    show (⟨e.span.start, max (lastStop (ts.reverse ++ cs)) e.span.start⟩ : Span) =
      ⟨e.span.start, max (lastStop s₁.consumed) e.span.start⟩
    rw [h.took.consumed, lastStop_reverse_append hreads cs s.consumed]
  have hlook : spanFrom e.span.start c ⟨ts.reverse ++ cs, rest, [], ns'⟩ =
      (some (s₁.spanFrom e.span.start), ⟨ts.reverse ++ cs, rest, [], ns'⟩) := congrArg (fun x => (some x, _)) hspan
  refine ⟨ns', ?_⟩
  obtain ⟨u, vs, rfl⟩ := List.exists_cons_of_ne_nil hreads
  rw [List.cons_append] at hkept ⊢
  rw [Grammar.operation_of_and e (h.head u rfl), if_pos hmin, Grammar.chained, bind_of_some (tentatively_of_some hkept)]
  dsimp only
  rw [bind_of_some hlook]

/-- A conditional with further conditions. -/
theorem Inner.operates_chained (h : Inner tokens n) (hs : Starts tokens n any s) (hrest : s.rest = t :: us)
    (hk : t.kind = .punct .ampAmpAmp) (hmin : min ≤ conditionalPower) {others : List Expr} {s₁ : State}
    (hconjuncts : Grammar.full.conjunctsOfConditional c s = (some others, s₁))
    (hrun : Grammar.full.conditional ⟨e :: others, s₁.spanFrom e.span.start⟩ c s₁ = (some e', s'))
    (hclean : s'.diagnostics = []) : ∃ ts, Operates tokens min c e e' s ts s' (ExprStops conditionalPower) := by
  obtain ⟨hothers, hne, hpeek⟩ := Grammar.conjunctsOfConditional_eq_some.mp hconjuncts
  have hmoves : s₁.Moves s' := (h.conditional _).moves.of_run hrun
  obtain ⟨ts, hts⟩ := h.conditionsAbove hs.bound hs.within hothers (hmoves.clean hclean)
  obtain ⟨hsites, ts', hcommon, hts'⟩ := (h.conditional _).runs c s₁ e' s'
    (hs.later hts.took (Nat.le_add_right _ _)) hrun hclean
  have hquestion : ∀ rest, SameNext s₁.rest (ts' ++ rest) := by
    intro rest
    obtain ⟨u, vs, rfl⟩ := List.exists_cons_of_ne_nil (hts'.reads rfl)
    rw [hts'.took.rest]
    exact .of_cons (hcommon u rfl)
  have hreads := hts.ne_nil hrest hk hpeek
  have hstops : ∀ rest, OperandStops (ts ++ ts' ++ rest) := fun rest => by
    rw [List.append_assoc]
    exact .of_and hreads hts.head _
  refine ⟨ts ++ ts', ⟨hts.took.append hts'.took, hts.shape.append hts'.shape,
    fun _ => List.append_ne_nil_of_left_ne_nil hreads _, fun cs rest hcs hnext c' ns => ?_⟩, ?_,
    fun rest hrest => hrest.mono hmin, .inr (Grammar.conditional_settled hrun), .inr ⟨hstops, fun hsettled => ?_⟩⟩
  · obtain ⟨ns₁, hfirst⟩ := hts.chained hreads hne hpeek hmin (hquestion rest) e c' cs ns
    have hlast : lastStop (ts.reverse ++ cs) = lastStop s₁.consumed := by
      rw [hts.took.consumed]
      exact lastStop_reverse_append hreads _ _
    obtain ⟨ns₂, hsecond⟩ := hts'.again (ts.reverse ++ cs) rest (fun _ => hlast) hnext c' ns₁
    refine ⟨ns₂, ?_⟩
    rw [List.append_assoc, hfirst, bind_of_some hsecond, List.reverse_append, List.append_assoc]
    rfl
  · intro he
    refine hsites (Expr.allSitesIn.mpr ?_)
    exact List.forall_mem_cons.mpr ⟨he, hts.sites⟩
  · have hnone := (hsettled t (by rw [hrest]; rfl)).2.1 hk (Nat.le_refl _)
    rw [hconjuncts] at hnone
    cases hnone

/-- The kinds of binary operators are calm. -/
theorem Kind.calm_of_binary {k : Kind} {op : BinaryOp} (h : BinaryOp.ofKind? k = some op) : k.isCalm = true := by
  cases k with
  | punct p => cases p <;> first | rfl | cases h
  | _ => cases h

theorem Kind.not_asks_of_binary {k : Kind} {op : BinaryOp} (h : BinaryOp.ofKind? k = some op) : k.asks = false := by
  cases k with
  | punct p => cases p <;> first | rfl | cases h
  | _ => rfl

/-- An operation with a binary operator. -/
theorem Inner.operates_binary (h : Inner tokens n) (hs : Starts tokens n any s) (hrest : s.rest = t :: us)
    {op : BinaryOp} (hop : BinaryOp.ofKind? t.kind = some op) (hmin : min ≤ op.power) {rhs : Expr}
    (hrun : Grammar.full.innerExpr (op.power + 1) c s.step = (some rhs, s')) (hclean : s'.diagnostics = []) :
    ∃ ts, Operates tokens min c e ⟨.binary op e rhs, ⟨e.span.start, rhs.span.stop⟩⟩ s ts s' OperandStops := by
  have hcalm := Kind.calm_of_binary hop
  have hstep := State.Took.step hrest
  obtain ⟨hsites, ts, -, hts⟩ := (h.expr (op.power + 1)).runs c s.step rhs s'
    (hs.later hstep (Nat.le_add_right _ _)) hrun hclean
  have hpower : conditionalPower < op.power + 1 := Nat.lt_succ_of_lt (conditionalPower_lt_power op)
  refine ⟨t :: ts, ⟨hstep.append hts.took, (Neutral.of_calm hcalm).append hts.shape, fun _ => List.cons_ne_nil _ _,
    fun cs rest hcs hnext c' ns => ?_⟩, fun he => allSites_append.mpr ⟨he, hsites⟩, fun rest hrest => hrest.operandStops,
    .inl fun rest hrest => hrest, .inl ?_⟩
  · obtain ⟨ns', hgo⟩ := hts.again (t :: cs) rest nofun (hnext.imp_right fun hstops => hstops.exprStops hpower) c' ns
    refine ⟨ns', ?_⟩
    have hround := Grammar.operation_of_power (e := e) (s := ⟨cs, t :: (ts ++ rest), [], ns⟩) rfl hop hmin hgo
    rw [List.reverse_cons, List.append_assoc]
    exact hround
  · rintro t' ⟨⟩
    exact Kind.common_of_calm hcalm

/-- Every operation without diagnostics goes the same way elsewhere. -/
theorem Inner.operates (h : Inner tokens n) (hs : Starts tokens n any s)
    (hrun : Grammar.full.operation min e c s = (some (.again e'), s')) (hclean : s'.diagnostics = []) :
    ∃ ts stops, Operates tokens min c e e' s ts s' stops := by
  cases Grammar.operation_cases hrun with
  | conditional hrest hk hmin hrun =>
    obtain ⟨ts, hts⟩ := h.operates_conditional hs hrest hk hmin hrun hclean
    exact ⟨ts, _, hts⟩
  | chained hrest hk hmin hconjuncts hrun =>
    obtain ⟨ts, hts⟩ := h.operates_chained hs hrest hk hmin hconjuncts hrun hclean
    exact ⟨ts, _, hts⟩
  | binary hrest hop hmin hrun =>
    obtain ⟨ts, hts⟩ := h.operates_binary hs hrest hop hmin hrun hclean
    exact ⟨ts, _, hts⟩

end Operations

/-- No operation goes on with a token with which no expression does. -/
theorem Grammar.settled_of_ends {min : Nat} {k : Kind} {P : Prop} (h : k.endsExpr = true) :
    (k = .punct .question → ¬ min ≤ conditionalPower) ∧ (k = .punct .ampAmpAmp → min ≤ conditionalPower → P) ∧
      k ≠ .keyword .matches_ ∧ ∀ op, BinaryOp.ofKind? k = some op → ¬ min ≤ op.power := by
  have hop : BinaryOp.ofKind? k = none := by
    cases k with
    | punct p => cases p <;> first | rfl | cases h
    | _ => rfl
  refine ⟨?_, ?_, ?_, fun op hk => ?_⟩
  · rintro rfl
    cases h
  · rintro rfl
    cases h
  · rintro rfl
    cases h
  · rw [hop] at hk
    cases hk

/-- Where no further operation follows in one place, none follows elsewhere before the same token. -/
theorem Grammar.Settled.elsewhere {min : Nat} {c c' : Setting} {s s' : State} (h : Settled min c s)
    (hnext : SameNext s.rest s'.rest ∨ ExprStops min s'.rest) (hclean : s'.diagnostics = []) : Settled min c' s' := by
  intro t ht
  rcases hnext with hsame | hstops
  · have hcommon := hsame.common t (by rw [← hsame.head]; exact ht)
    obtain ⟨hquestion, -, hmatches, hbinary⟩ := h t (by rw [← hsame.head]; exact ht)
    refine ⟨hquestion, fun hk => ?_, hmatches, hbinary⟩
    rw [hk] at hcommon
    cases hcommon
  · rcases hstops t ht with hends | ⟨hasks, hdropped⟩
    · exact settled_of_ends hends
    · obtain ⟨cs, rest, ds, ns⟩ := s'
      cases hclean
      refine ⟨fun hk hmin => ?_, fun _ hmin => (hdropped hmin).2 c' cs ns, ?_, ?_⟩
      · cases hk.symm.trans (hdropped hmin).1
      · rintro hk
        rw [hk] at hasks
        cases hasks
      · exact fun op hop => absurd hasks (by rw [Kind.not_asks_of_binary hop]; exact Bool.false_ne_true)

/-- An operation begins with a common token, or with a mark between conditions where an operand ends before it. -/
theorem Operates.next {tokens : List Token} {min : Nat} {c : Setting} {e e' : Expr} {s s' : State} {ts : List Token}
    {F F' : List Token → Prop} (h : Operates tokens min c e e' s ts s' F')
    (hbefore : (∀ rest, OperandStops rest → F rest) ∨ Grammar.Settled conditionalPower c s) (rest : List Token) :
    SameNext s.rest (ts ++ rest) ∨ F (ts ++ rest) := by
  rcases h.head with hcommon | ⟨hand, hopen⟩
  · obtain ⟨t, us, rfl⟩ := List.exists_cons_of_ne_nil (h.contained.reads rfl)
    rw [h.contained.took.rest]
    exact .inl (.of_cons (hcommon t rfl))
  · exact .inr (hbefore.elim (fun hF => hF _ (hand rest)) fun hsettled => absurd hsettled hopen)

theorem operation_reads {min : Nat} {c : Setting} {e e' : Expr} {s s' : State}
    (h : Grammar.full.operation min e c s = (some (.again e'), s')) : s'.rest.length < s.rest.length :=
  ((steady_operation min e s.rest.length).tells ⟨Nat.lt_succ_self _, trivial⟩ h).read rfl

section Operated

variable {tokens : List Token} {n min : Nat} {p : Parser Expr} {H : Option Kind → Prop}

/-- Rounds of operations on an operand with its suffixes lead to an expression.  It ends where expressions end, and
before conditions unless it is a conditional. -/
theorem Inner.reached_operations (h : Inner tokens n) {c : Setting} {s s₁ s' : State} {e₁ e : Expr} (hunary : IsUnary p)
    (hp : Confined tokens (n + 1) H true false (fun _ => OperandStops) (fun e => AllSites (Site.Alone tokens) e.sites)
      (p >>= Grammar.full.suffixes)) (hs : Starts tokens (n + 1) H s)
    (hfirst : (p >>= Grammar.full.suffixes) c s = (some e₁, s₁))
    (hleads : Leads (Grammar.full.operation min) c e₁ s₁ e s') (hclean : s'.diagnostics = []) :
    AllSites (Site.Alone tokens) e.sites ∧ ∃ ts F, Reached (Operated p min) F s ts e s' ∧
      (∀ rest, ExprStops min rest → F rest) ∧
      ((∀ rest, OperandStops rest → F rest) ∨ Grammar.Settled conditionalPower c s') := by
  let motive (e : Expr) (s₁ : State) : Prop := s₁.diagnostics = [] → AllSites (Site.Alone tokens) e.sites ∧
    ∃ ts F, Reached (Operated p min) F s ts e s₁ ∧ (∀ rest, ExprStops min rest → F rest) ∧
      ((∀ rest, OperandStops rest → F rest) ∨ Grammar.Settled conditionalPower c s₁)
  have hstart : motive e₁ s₁ := by
    intro hclean
    obtain ⟨hsites, ts, hcommon, hts⟩ := hp.runs c s e₁ s₁ hs hfirst hclean
    refine ⟨hsites, ts, OperandStops, ⟨hts.took, hts.shape, hts.reads rfl, hcommon, fun c cs rest ns hrest => ?_⟩,
      fun rest hrest => hrest.operandStops, .inl fun rest hrest => hrest⟩
    obtain ⟨ns', hgo⟩ := hts.again cs rest nofun hrest c ns
    obtain ⟨hsuffixed, hstops⟩ := Suffixed.of_run hgo
    exact ⟨ns', e₁, _, hsuffixed, hstops, .refl⟩
  have hkeep : ∀ e s₁ e' s₂, motive e s₁ → Grammar.full.operation min e c s₁ = (some (.again e'), s₂) → motive e' s₂ := by
    intro e s₁ e' s₂ hmotive hround hclean
    have hmoves : s₁.Moves s₂ := (Grammar.onward_full.operation min e).of_run hround
    obtain ⟨hsites, ts, F, hreached, -, hbefore⟩ := hmotive (hmoves.clean hclean)
    have hlater : Starts tokens n any s₁ :=
      hs.later hreached.took (Nat.add_le_add_left (List.length_pos_iff.mpr hreached.reads) n)
    obtain ⟨ts', F', hts'⟩ := h.operates hlater hround hclean
    have hnext : Reached (Operated p min) F' s (ts ++ ts') e' s₂ := by
      refine hreached.round hts'.contained (hts'.contained.reads rfl) (fun rest _ => hts'.next hbefore rest) ?_
      rintro c s s₁ s₂ ⟨e₁, s₀, hsuffixed, hstops, hleads⟩ hround hless
      exact ⟨e₁, s₀, hsuffixed, hstops, hleads.trans (.one hround hless)⟩
    have halone := hnext.alone (hts'.stops [] .nil) hs.within fun hR => hR.expr hunary
    exact ⟨Expr.allSites.mpr ⟨halone, hts'.sites hsites⟩, _, F', hnext, hts'.stops, hts'.after⟩
  exact hleads.keeps hkeep hstart hclean

/-- An operand with its suffixes takes the operations on it. -/
theorem Inner.reached_operated (h : Inner tokens n) {c : Setting} {s s' : State} {e : Expr} (hunary : IsUnary p)
    (hp : Confined tokens (n + 1) H true false (fun _ => OperandStops) (fun e => AllSites (Site.Alone tokens) e.sites)
      (p >>= Grammar.full.suffixes)) (hs : Starts tokens (n + 1) H s)
    (hrun : ((p >>= Grammar.full.suffixes) >>= Grammar.full.operations min) c s = (some e, s'))
    (hclean : s'.diagnostics = []) : AllSites (Site.Alone tokens) e.sites ∧ Grammar.Settled min c s' ∧
      ∃ ts, Reached (Operated p min) (ExprStops min) s ts e s' := by
  obtain ⟨e₁, s₁, hfirst, hloop⟩ := bind_eq_some.mp hrun
  obtain ⟨e₂, s₂, hleads, hdone⟩ := leads_of_repeatUntil (fun _ _ _ _ => operation_reads) hloop
  cases Grammar.operation_cases hdone with
  | done hsettled =>
    obtain ⟨hsites, ts, F, hreached, hstops, -⟩ := h.reached_operations hunary hp hs hfirst hleads hclean
    exact ⟨hsites, hsettled, ts, hreached.weaken hstops fun _ _ _ _ _ _ => id⟩

/-- An operand with its suffixes and operations is confined. -/
theorem Inner.operated (h : Inner tokens n) (hunary : IsUnary p)
    (hp : Confined tokens (n + 1) H true false (fun _ => OperandStops) (fun e => AllSites (Site.Alone tokens) e.sites)
      (p >>= Grammar.full.suffixes)) :
    Confined tokens (n + 1) H true false (fun _ => ExprStops min) (fun e => AllSites (Site.Alone tokens) e.sites)
      ((p >>= Grammar.full.suffixes) >>= Grammar.full.operations min) where
  moves := hp.moves.bind fun e => Grammar.onward_full.operations min e
  fails c s s' hs hrun := by
    rcases hfirst : (p >>= Grammar.full.suffixes) c s with ⟨_ | e, s₁⟩
    · rw [bind_of_none hfirst] at hrun
      cases hrun
      exact hp.fails c s s' hs hfirst
    · rw [bind_of_some hfirst] at hrun
      exact (steady_operations min e s₁.rest.length).dirty ⟨Nat.lt_succ_self _, trivial⟩ hrun
  runs c s e s' hs hrun hclean := by
    obtain ⟨hsites, hsettled, ts, hreached⟩ := h.reached_operated hunary hp hs hrun hclean
    refine ⟨hsites, ts, hreached.head, hreached.took, hreached.shape, fun _ => hreached.reads,
      fun cs rest _ hnext c' ns => ?_⟩
    obtain ⟨ns', hR⟩ := hreached.again c' cs rest ns hnext
    refine ⟨ns', ?_⟩
    rw [Parser.bind_assoc]
    exact hR.run (Grammar.operation_of_settled (hsettled.elsewhere hnext rfl) e)

end Operated

end Bluespec
