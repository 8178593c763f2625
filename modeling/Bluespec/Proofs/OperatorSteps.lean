import Bluespec.Proofs.OperatorGrammar
import Bluespec.Proofs.Running

/-!
# Single steps of the expression grammar — what the next token makes of an expression

Each production of the operator grammar looks at one token and goes on accordingly.  The facts here say how,
one for each kind of token that such a production tells apart.

* **`Stops`** — the next token does not continue an expression.
* **`Grammar.primary_of_ident`**, … — a primary by its first token.
* **`Grammar.suffix_of_lparen`**, … — a suffix by its first token.
* **`Grammar.operation_of_question`**, … — an operation by its first token.
-/

namespace Bluespec

open Bluespec.Parser

/-! ## Where expressions end -/

theorem Kind.eq_of_startsSuffix {k : Kind} (h : k.startsSuffix = true) :
    k = .punct .lparen ∨ k = .punct .lbracket ∨ k = .punct .dot := by
  unfold startsSuffix at h
  split at h
  · exact .inl rfl
  · exact .inr (.inl rfl)
  · exact .inr (.inr rfl)
  · cases h

/-- Whether a token after an operand asks for an operation that binds at least as tightly as `min`. -/
def Kind.startsOperation (min : Nat) : Kind → Bool
  | .punct .question | .punct .ampAmpAmp => min ≤ conditionalPower
  | .keyword .matches_ => true
  | k => (BinaryOp.ofKind? k).any fun op => min ≤ op.power

/-- The next token does not continue an expression whose operators bind at least as tightly as `min`. -/
def Stops (min : Nat) (rest : List Token) : Prop :=
  ∀ t ∈ rest.head?, t.kind.startsSuffix = false ∧ t.kind.startsOperation min = false

theorem Stops.nil {min : Nat} : Stops min [] := by
  intro t ht
  cases ht

theorem Stops.cons {min : Nat} {t : Token} {k : Kind} {rest : List Token} (hk : t.kind = k)
    (hs : k.startsSuffix = false) (ho : k.startsOperation min = false) : Stops min (t :: rest) := by
  intro t' ht
  obtain rfl : t = t' := by simpa using ht
  rw [hk]
  exact ⟨hs, ho⟩

theorem Kind.startsOperation_mono {min min' : Nat} (h : min ≤ min') {k : Kind}
    (hk : k.startsOperation min = false) : k.startsOperation min' = false := by
  unfold startsOperation at hk ⊢
  split at hk
  · simp at hk ⊢
    omega
  · simp at hk ⊢
    omega
  · simp at hk
  · cases ho : BinaryOp.ofKind? k with
    | none => rfl
    | some op =>
      rw [ho] at hk
      simp at hk ⊢
      omega

/-- The tokens that ask for an operation. -/
theorem Kind.eq_of_startsOperation {min : Nat} {k : Kind} (h : k.startsOperation min = true) :
    (k = .punct .question ∧ min ≤ conditionalPower) ∨ (k = .punct .ampAmpAmp ∧ min ≤ conditionalPower) ∨
      k = .keyword .matches_ ∨ ∃ op, BinaryOp.ofKind? k = some op ∧ min ≤ op.power := by
  unfold startsOperation at h
  split at h
  · exact .inl ⟨rfl, of_decide_eq_true h⟩
  · exact .inr (.inl ⟨rfl, of_decide_eq_true h⟩)
  · exact .inr (.inr (.inl rfl))
  · obtain ⟨op, hop, hmin⟩ := Option.any_eq_true _ _ |>.mp h
    exact .inr (.inr (.inr ⟨op, hop, of_decide_eq_true hmin⟩))

theorem Stops.mono {min min' : Nat} {rest : List Token} (h : min ≤ min') (hr : Stops min rest) :
    Stops min' rest := fun t ht => ⟨(hr t ht).1, Kind.startsOperation_mono h (hr t ht).2⟩

namespace Grammar

variable {g : Grammar} {c : Setting} {cs rest : List Token} {ds : List Diagnostic} {ns : List NodeSpan}
  {t : Token}

/-! ## Primaries -/

theorem primary_of_ident (hk : t.kind = .ident) :
    g.primary c ⟨cs, t :: rest, ds, ns⟩ =
      (some ⟨.var t.text, .through t.span.start [t]⟩, ⟨t :: cs, rest, ds, ns⟩) := by
  rw [primary, bind_of_some offset_cons, bind_of_some peek_cons]
  simp only [hk]
  rw [bind_of_some (expectText_of_kind hk)]
  rfl

theorem primary_of_question (hk : t.kind = .punct .question) :
    g.primary c ⟨cs, t :: rest, ds, ns⟩ =
      (some ⟨.dontCare, .through t.span.start [t]⟩, ⟨t :: cs, rest, ds, ns⟩) := by
  rw [primary, bind_of_some offset_cons, bind_of_some peek_cons]
  simp only [hk]
  rw [bind_of_some skip_cons]
  rfl

theorem primary_of_lparen (hk : t.kind = .punct .lparen) :
    g.primary c ⟨cs, t :: rest, ds, ns⟩ =
      (do
        let inner ← g.innerExpr 0
        expectPunct .rparen
        return ⟨inner.form, ← spanFrom t.span.start⟩ : Parser Expr) c ⟨t :: cs, rest, ds, ns⟩ := by
  rw [primary, bind_of_some offset_cons, bind_of_some peek_cons]
  simp only [hk]
  rw [bind_of_some skip_cons]

/-! ## Suffixes -/

theorem suffix_of_lparen (lhs : Expr) (hk : t.kind = .punct .lparen) :
    g.suffix lhs c ⟨cs, t :: rest, ds, ns⟩ =
      (do
        let args ← enclosed .rparen (g.innerExpr 0)
        return .again ⟨.call lhs args, ← spanFrom lhs.span.start⟩ : Parser (Round Expr Expr))
        c ⟨t :: cs, rest, ds, ns⟩ := by
  rw [suffix, bind_of_some peek_cons]
  simp only [hk]
  have ha : g.arguments c ⟨cs, t :: rest, ds, ns⟩ =
      enclosed .rparen (g.innerExpr 0) c ⟨t :: cs, rest, ds, ns⟩ := by
    rw [arguments, bind_of_some (expectPunct_of_kind hk)]
  rw [bind_apply, ha]
  rfl

theorem suffix_of_lbracket (lhs : Expr) (hk : t.kind = .punct .lbracket) :
    g.suffix lhs c ⟨cs, t :: rest, ds, ns⟩ =
      (do
        let form ← g.selection lhs
        return .again ⟨form, ← spanFrom lhs.span.start⟩ : Parser (Round Expr Expr))
        c ⟨cs, t :: rest, ds, ns⟩ := by
  rw [suffix, bind_of_some peek_cons]
  simp only [hk]

theorem suffix_of_dot (lhs : Expr) (hk : t.kind = .punct .dot) :
    g.suffix lhs c ⟨cs, t :: rest, ds, ns⟩ =
      (do
        let form ← g.memberOf lhs
        return .again ⟨form, ← spanFrom lhs.span.start⟩ : Parser (Round Expr Expr))
        c ⟨cs, t :: rest, ds, ns⟩ := by
  rw [suffix, bind_of_some peek_cons]
  simp only [hk]

theorem suffix_of_head (lhs : Expr) (h : ∀ t ∈ rest.head?, t.kind.startsSuffix = false) :
    g.suffix lhs c ⟨cs, rest, ds, ns⟩ = (some (.done lhs), ⟨cs, rest, ds, ns⟩) := by
  cases rest with
  | nil => rfl
  | cons t rest =>
    have hs := h t rfl
    rw [suffix, bind_of_some peek_cons]
    cases hk : t.kind with
    | punct p => cases p <;> simp [hk, Kind.startsSuffix] at hs <;> rfl
    | _ => rfl

/-- In front of no suffix an operand stays as it is. -/
theorem suffixes_of_head (e : Expr) (h : ∀ t ∈ rest.head?, t.kind.startsSuffix = false) :
    g.suffixes e c ⟨cs, rest, ds, ns⟩ = (some e, ⟨cs, rest, ds, ns⟩) := repeatUntil_of_leads .refl (suffix_of_head e h)

/-- Where a round of suffixes is the last one, there is no suffix. -/
theorem eq_of_suffix_done {lhs e : Expr} {s s' : State} (h : g.suffix lhs c s = (some (.done e), s')) :
    e = lhs ∧ s' = s ∧ ∀ t ∈ s.rest.head?, t.kind.startsSuffix = false := by
  obtain ⟨cs, rest, ds, ns⟩ := s
  have hagain : ∀ {α : Type} (p : Parser α) (form : α → ExprForm) (s₁ : State),
      (do let a ← p; return .again ⟨form a, ← spanFrom lhs.span.start⟩ : Parser (Round Expr Expr)) c s₁ ≠
        (some (.done e), s') := by
    intro α p form s₁ hrun
    obtain ⟨a, s₂, -, hrun⟩ := bind_eq_some.mp hrun
    cases hrun
  by_cases hs : ∀ t ∈ rest.head?, t.kind.startsSuffix = false
  · rw [suffix_of_head lhs hs] at h
    cases h
    exact ⟨rfl, rfl, hs⟩
  · exfalso
    cases rest with
    | nil => exact hs fun t ht => by cases ht
    | cons t ts =>
      have ht : t.kind.startsSuffix = true := by simpa using hs
      rcases Kind.eq_of_startsSuffix ht with hk | hk | hk
      · exact hagain _ _ _ ((suffix_of_lparen lhs hk).symm.trans h)
      · exact hagain _ _ _ ((suffix_of_lbracket lhs hk).symm.trans h)
      · exact hagain _ _ _ ((suffix_of_dot lhs hk).symm.trans h)

/-! ## Unary operators -/

theorem unary_of_none (h : UnaryOp.ofKind? t.kind = none) :
    g.unary c ⟨cs, t :: rest, ds, ns⟩ = g.primary c ⟨cs, t :: rest, ds, ns⟩ := by
  rw [unary, bind_of_some peek_cons, Option.bind_some, h]

theorem unary_of_some {op : UnaryOp} (h : UnaryOp.ofKind? t.kind = some op) :
    g.unary c ⟨cs, t :: rest, ds, ns⟩ = g.unaryOperand t.span.start op c ⟨t :: cs, rest, ds, ns⟩ := by
  rw [unary, bind_of_some peek_cons, Option.bind_some, h]
  show (offset >>= _) _ _ = _
  rw [bind_of_some offset_cons, bind_of_some skip_cons]

/-- Before anything but an integer literal, the operand of a unary operator is an expression. -/
theorem unaryOperand_eq (start : Nat) (op : UnaryOp) (h : ∀ t ∈ rest.head?, t.kind ≠ .int) :
    g.unaryOperand start op c ⟨cs, rest, ds, ns⟩ =
      (do
        let inner ← g.innerExpr unaryPower
        return ⟨.unary op inner, ← spanFrom start⟩ : Parser Expr) c ⟨cs, rest, ds, ns⟩ := by
  have hn : isNext .int c ⟨cs, rest, ds, ns⟩ = (some false, ⟨cs, rest, ds, ns⟩) := by
    cases rest with
    | nil => rfl
    | cons t rest => simpa [isNext_cons] using h t rfl
  unfold unaryOperand
  cases Sign.ofOperator? op with
  | none => rfl
  | some sign =>
    show (isNext .int >>= _) _ _ = _
    rw [bind_of_some hn]
    rfl
/-! ## Operations -/

/-- An operation with a token that is no mark of a conditional and no `matches` is one with a binary
operator, or none. -/
theorem operation_of_ne {min : Nat} (lhs : Expr) (hq : t.kind ≠ .punct .question)
    (ha : t.kind ≠ .punct .ampAmpAmp) (hm : t.kind ≠ .keyword .matches_) :
    g.operation min lhs c ⟨cs, t :: rest, ds, ns⟩ =
      (match BinaryOp.ofKind? t.kind with
        | some op =>
          if min ≤ op.power then do
            skip
            let rhs ← g.innerExpr (op.power + 1)
            return .again ⟨.binary op lhs rhs, ⟨lhs.span.start, rhs.span.stop⟩⟩
          else return .done lhs
        | none => return .done lhs : Parser (Round Expr Expr)) c ⟨cs, t :: rest, ds, ns⟩ := by
  rw [operation, bind_of_some peek_cons]
  cases hk : t.kind with
  | punct p => cases p <;> first | exact absurd hk hq | exact absurd hk ha | rfl
  | keyword k => cases k <;> first | exact absurd hk hm | rfl
  | _ => rfl

theorem operation_of_binary {min : Nat} {op : BinaryOp} (lhs : Expr) (hk : BinaryOp.ofKind? t.kind = some op) :
    g.operation min lhs c ⟨cs, t :: rest, ds, ns⟩ =
      (if min ≤ op.power then do
        skip
        let rhs ← g.innerExpr (op.power + 1)
        return .again ⟨.binary op lhs rhs, ⟨lhs.span.start, rhs.span.stop⟩⟩
      else return .done lhs : Parser (Round Expr Expr)) c ⟨cs, t :: rest, ds, ns⟩ := by
  have hq : t.kind ≠ .punct .question := by
    intro h
    rw [h] at hk
    cases hk
  have ha : t.kind ≠ .punct .ampAmpAmp := by
    intro h
    rw [h] at hk
    cases hk
  have hm : t.kind ≠ .keyword .matches_ := by
    intro h
    rw [h] at hk
    cases hk
  rw [operation_of_ne lhs hq ha hm, hk]

theorem operation_of_question {min : Nat} (lhs : Expr) (hk : t.kind = .punct .question) :
    g.operation min lhs c ⟨cs, t :: rest, ds, ns⟩ =
      (if min ≤ conditionalPower then do return .again (← g.conditional ⟨[lhs], lhs.span⟩)
        else return .done lhs : Parser (Round Expr Expr)) c ⟨cs, t :: rest, ds, ns⟩ := by
  rw [operation, bind_of_some peek_cons, hk]

theorem operation_of_and {min : Nat} (lhs : Expr) (hk : t.kind = .punct .ampAmpAmp) :
    g.operation min lhs c ⟨cs, t :: rest, ds, ns⟩ =
      (if min ≤ conditionalPower then g.chained lhs else return .done lhs) c
        ⟨cs, t :: rest, ds, ns⟩ := by
  rw [operation, bind_of_some peek_cons, hk]

theorem operation_of_head {min : Nat} (h : ∀ t ∈ rest.head?, t.kind.startsOperation min = false) (lhs : Expr) :
    g.operation min lhs c ⟨cs, rest, ds, ns⟩ = (some (.done lhs), ⟨cs, rest, ds, ns⟩) := by
  cases rest with
  | nil => rfl
  | cons t rest =>
    have ho := h t rfl
    by_cases hq : t.kind = .punct .question
    · have hmin : ¬ min ≤ conditionalPower := by simpa [hq, Kind.startsOperation] using ho
      rw [operation_of_question lhs hq, if_neg hmin, pure_apply]
    by_cases ha : t.kind = .punct .ampAmpAmp
    · have hmin : ¬ min ≤ conditionalPower := by simpa [ha, Kind.startsOperation] using ho
      rw [operation_of_and lhs ha, if_neg hmin, pure_apply]
    by_cases hm : t.kind = .keyword .matches_
    · simp [hm, Kind.startsOperation] at ho
    rw [operation_of_ne lhs hq ha hm]
    cases hk : BinaryOp.ofKind? t.kind with
    | none => rfl
    | some op =>
      have hmin : ¬ min ≤ op.power := by simpa [Kind.startsOperation, hk] using ho
      simp only [if_neg hmin, pure_apply]

theorem operation_of_stops {min : Nat} (h : Stops min rest) (lhs : Expr) :
    g.operation min lhs c ⟨cs, rest, ds, ns⟩ = (some (.done lhs), ⟨cs, rest, ds, ns⟩) :=
  operation_of_head (fun t ht => (h t ht).2) lhs

end Grammar

end Bluespec
