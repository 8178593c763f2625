import Bluespec.Proofs.ForwardGrammar
import Bluespec.Proofs.OperatorReading

/-!
# Phrases of what is read — whatever is read has a derivation

The other direction: where the parser yields an expression, the tokens it has read are those of a derivation.
The induction is on the number of levels of the grammar.  Within one level the loop over operations keeps an
invariant, **`Progress`**: the left operand has a derivation on some level of the ladder, and the next operator
stands in a row that may follow on that level.

* **`Covers`** — a derivation stands at the start of given tokens.
* **`Ends`** — what is known about the tokens after an expression; among them no chain of conditions begins
  that leads to a conditional, since the expression would have taken it.
* **`Grammar.IsSound`** — what is read of an expression is covered by a derivation.
-/

namespace Bluespec

open Bluespec.Parser

/-! ## Tokens and derivations -/

/-- Whether a token is one of those that phrases are made of. -/
def Kind.isOperatorToken : Kind → Bool
  | .ident => true
  | .punct p =>
    p ∈ [.lparen, .rparen, .lbracket, .rbracket, .comma, .dot, .colon, .question, .ampAmpAmp] ||
      (UnaryOp.ofPunct? p).isSome || (BinaryOp.ofPunct? p).isSome
  | _ => false

/-- All of some tokens are of those that phrases are made of. -/
def OperatorTokens (ts : List Token) : Prop := ∀ t ∈ ts, t.kind.isOperatorToken = true

theorem OperatorTokens.tail {t : Token} {ts : List Token} (h : OperatorTokens (t :: ts)) :
    OperatorTokens ts := fun t' ht => h t' (List.mem_cons_of_mem t ht)

/-- A derivation from a nonterminal stands at the start of tokens, with others after it. -/
def Covers (cat : Category) (ts rest : List Token) : Prop := ∃ d : Phrase cat, ts = d.tokens ++ rest

theorem Covers.length_le {cat : Category} {ts rest : List Token} (h : Covers cat ts rest) :
    rest.length ≤ ts.length := by
  obtain ⟨d, rfl⟩ := h
  rw [List.length_append]
  omega

/-! ## Levels -/

/-- The nonterminal of the expressions whose operators bind at least as tightly as `min`. -/
def Category.ofPower (min : Nat) : Category :=
  if min ≤ conditionalPower then .expr else .ladder ((unaryPower - min) / 10)

/-- What follows an expression whose operators bind at least as tightly as `min`. -/
structure Ends (min : Nat) (rest : List Token) : Prop where
  /-- No suffix follows. -/
  noSuffix : ∀ t ∈ rest.head?, t.kind.startsSuffix = false
  /-- A binary operator that follows is looser. -/
  noBinary : ∀ t ∈ rest.head?, ∀ op, BinaryOp.ofKind? t.kind = some op → op.power < min
  /-- No conditional follows, not even after more conditions. -/
  noConditional : min ≤ conditionalPower → ∀ (more : Phrase .conjuncts) (question : Mark .question) ts,
    rest ≠ more.tokens ++ question.val :: ts

/-- What a parser of expressions reads of at most `n` tokens is covered by a derivation. -/
def IsSound (n : Nat) (parser : Nat → Parser Expr) : Prop :=
  ∀ min c s e s', min ≤ unaryPower → s.rest.length ≤ n → OperatorTokens s.rest →
    parser min c s = (some e, s') → Covers (.ofPower min) s.rest s'.rest ∧ Ends min s'.rest

theorem Category.ofPower_of_le {min : Nat} (h : min ≤ conditionalPower) : ofPower min = .expr := if_pos h

theorem IsSound.expr {n : Nat} {parser : Nat → Parser Expr} (h : IsSound n parser) {c : Setting}
    {s s' : State} {e : Expr} {min : Nat} (hlen : s.rest.length ≤ n) (hops : OperatorTokens s.rest)
    (hmin : min ≤ conditionalPower) (hr : parser min c s = (some e, s')) :
    Covers .expr s.rest s'.rest ∧ Ends min s'.rest := by
  rw [← Category.ofPower_of_le hmin]
  exact h min c s e s' (Nat.le_trans hmin (by decide)) hlen hops hr

namespace Grammar

variable {g : Grammar} {m : Nat} {c : Setting} {s s' : State}

/-! ## Arguments -/

end Grammar

/-! ## Phrases that grow on the right -/

namespace Phrase

/-- Links with one more at the end. -/
def snoc {k : Nat} (op : BinaryOp) (row : op ∈ tier k) (sign : BinaryMark op) (b : Phrase (.ladder k)) :
    Phrase (.links k) → Phrase (.links k)
  | noLink => link op row sign b noLink
  | link op' row' sign' b' rest => link op' row' sign' b' (snoc op row sign b rest)

end Phrase

/-! ## Operations -/

/-- How far the operations of an expression have come: `all` are its tokens and those after it, and `rest`
are left. -/
inductive Progress (min : Nat) (all rest : List Token) : Prop
  /-- Only binary operators so far. -/
  | ladder (j : Nat) (hmin : 10 * j + min ≤ unaryPower) (hj : j ≤ 11) (d : Phrase (.ladder j))
      (covers : all = d.tokens ++ rest)
      (next : ∀ t ∈ rest.head?, ∀ op, BinaryOp.ofKind? t.kind = some op → op.power + 10 * j ≤ unaryPower) :
      Progress min all rest
  /-- A conditional, which nothing continues. -/
  | conditional (hmin : min ≤ conditionalPower) (d : Phrase .expr) (covers : all = d.tokens ++ rest)
      (ends : Ends conditionalPower rest) : Progress min all rest

theorem Progress.suffix {min : Nat} {all rest : List Token} (h : Progress min all rest) :
    ∃ read, all = read ++ rest := by
  cases h with
  | ladder _ _ _ d covers => exact ⟨d.tokens, covers⟩
  | conditional _ d covers => exact ⟨d.tokens, covers⟩

namespace Grammar

variable {g : Grammar} {m : Nat} {c : Setting} {s s' : State} {min : Nat} {all : List Token}

end Grammar

end Bluespec
