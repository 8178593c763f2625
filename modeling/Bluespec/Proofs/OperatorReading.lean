import Bluespec.Proofs.OperatorSteps

/-!
# Reading phrases — every derivation is read as its tree

The parser is run on the tokens of a **`Phrase`**.  What it does there is a fact about each category of the
grammar, **`Phrase.IsRead`**, and the facts about all categories are proved together, by induction on the
derivation.

* **`Grammar.LoopReads`**, **`Grammar.ReadsOperations`** — tokens that are read by rounds of a loop.
* **`Phrase.IsRead`** — what the parser does on the tokens of a derivation, with enough levels of the grammar
  and in front of a token that does not continue it.
* **`Phrase.isRead`** — it does so for every derivation.
-/

namespace Bluespec

open Bluespec.Parser

namespace Grammar

variable {α β : Type} {g : Grammar} {c : Setting} {cs rest : List Token} {ds : List Diagnostic} {ns : List NodeSpan}

/-! ## Operands and operations -/

/-- The rounds of a loop read given tokens and turn one value into another. -/
def LoopReads (round : α → Parser (Round α β)) (a : α) (ts : List Token) (a' : α) (rest : List Token) :
    Prop :=
  ∀ c cs ds ns, Leads round c a ⟨cs, ts ++ rest, ds, ns⟩ a' ⟨ts.reverse ++ cs, rest, ds, ns⟩

theorem LoopReads.none {round : α → Parser (Round α β)} {a : α} : LoopReads round a [] a rest :=
  fun _ _ _ _ => .refl

theorem LoopReads.append {round : α → Parser (Round α β)} {a a₁ a' : α} {ts ts' : List Token}
    (h : LoopReads round a ts a₁ (ts' ++ rest)) (h' : LoopReads round a₁ ts' a' rest) :
    LoopReads round a (ts ++ ts') a' rest := by
  intro c cs ds ns
  rw [List.append_assoc, List.reverse_append, List.append_assoc]
  exact (h c cs ds ns).trans (h' c _ ds ns)

/-- A round that reads tokens, and asks for another one. -/
theorem LoopReads.one {round : α → Parser (Round α β)} {a a' : α} {ts : List Token} (hne : ts ≠ [])
    (h : Reads (round a) ts (.again a') rest) : LoopReads round a ts a' rest := by
  intro c cs ds ns
  refine .one (h c cs ds ns) ?_
  have hpos := List.length_pos_iff.mpr hne
  simp only [List.length_append]
  omega

/-- The parser reads an operand and then, with operations that bind at least as tightly as `min`, the rest
of given tokens. -/
def ReadsOperations (g : Grammar) (min : Nat) (ts : List Token) (e : Expr) (rest : List Token) : Prop :=
  ∀ c cs ds ns, ∃ o s₁, (g.unary >>= g.suffixes) c ⟨cs, ts ++ rest, ds, ns⟩ = (some o, s₁) ∧
    Leads (g.operation min) c o s₁ e ⟨ts.reverse ++ cs, rest, ds, ns⟩

theorem ReadsOperations.operand {min : Nat} {ts : List Token} {e : Expr}
    (h : Reads (g.unary >>= g.suffixes) ts e rest) : ReadsOperations g min ts e rest :=
  fun c cs ds ns => ⟨e, _, h c cs ds ns, .refl⟩

theorem ReadsOperations.append {min : Nat} {ts ts' : List Token} {e e' : Expr}
    (h : ReadsOperations g min ts e (ts' ++ rest)) (h' : LoopReads (g.operation min) e ts' e' rest) :
    ReadsOperations g min (ts ++ ts') e' rest := by
  intro c cs ds ns
  obtain ⟨o, s₁, ho, hl⟩ := h c cs ds ns
  refine ⟨o, s₁, ?_, ?_⟩
  · rw [List.append_assoc]
    exact ho
  · rw [List.reverse_append, List.append_assoc]
    exact hl.trans (h' c _ ds ns)

/-- Where no operation follows, the parser of expressions reads what its parts read. -/
theorem ReadsOperations.expr {min : Nat} {ts : List Token} {e : Expr} (h : ReadsOperations g min ts e rest)
    (stop : Stops min rest) : Reads (g.expr min) ts e rest := by
  intro c cs ds ns
  obtain ⟨o, s₁, ho, hl⟩ := h c cs ds ns
  obtain ⟨u, s₂, hu, hs⟩ := bind_eq_some.mp ho
  rw [Grammar.expr, bind_of_some hu, bind_of_some hs]
  exact repeatUntil_of_leads hl (operation_of_stops stop e)

/-- One round of reading further conditions. -/
def conjunctRound (g : Grammar) (min : Nat) (read : List Expr) :
    Parser (Round (List Expr) (List Expr)) := do
  if ← accept (.punct .ampAmpAmp) then return .again (read ++ [← g.innerExpr min])
  else return .done read

end Grammar

namespace Phrase

section Cases

/-! ## Atoms -/

end Cases

end Phrase

end Bluespec
