import Bluespec.Proofs.ForwardGrammar
import Bluespec.Proofs.UnitTraits

/-!
# The grammar that refers to itself

A production is given as many levels as there are tokens left, and more levels change nothing.  So the productions
can be taken with one grammar, whose inner parsers are the productions themselves.

* **`Parser.sameRuns`** — the trait of two parsers that do the same.
* **`Grammar.full_expr`** and the like — the grammar that refers to itself does so.
* **`Grammar.onward_full`** — its runs move forward as well.
-/

namespace Bluespec

open Bluespec.Parser

theorem Grammar.onward_full : Grammar.full.Onward where
  expr min := .withGrammar fun h => h.operated min
  operand := .withGrammar Onward.suffixed
  stmt dialect := .withGrammar fun h => h.statement dialect
  method := .withGrammar Onward.methodDef
  subinterface := .withGrammar Onward.subinterfaceDef
  module := .withGrammar Onward.moduleDef

namespace Parser

open Grade Mark

/-! ## Parsers that do the same -/

/-- The trait of two parsers that do the same. -/
def sameRuns : Trait := fun _ γ _ p p' _ => ∀ c s, γ.Admits s → p c s = p' c s

/-- What a trait of all runs says of one of them. -/
theorem Holds.sameRun {γ : Grade} {mark : α → Mark} {p p' : Parser α} {after : α → List NodeSpan} {c : Setting}
    {s : State} (h : Holds sameRuns γ mark [] p p' after) (hs : γ.Admits s) : p c s = p' c s := h.trait c s hs

theorem same_bind {α β : Type} {γ : Grade} {k : α → Mark} {mark : β → Mark} {before : List NodeSpan}
    {p p' : Parser α} {f f' : α → Parser β} {middle : α → List NodeSpan} {after : β → List NodeSpan}
    (hp : Holds sameRuns γ k before p p' middle)
    (hf : ∀ a, Holds sameRuns (γ.after (k a)) (fun b => (mark b).without (k a)) (middle a) (f a) (f' a) after) :
    sameRuns β γ before (p >>= f) (p' >>= f') after := by
  intro c s hs
  have hsame := hp.trait c s hs
  rw [bind_apply, bind_apply, ← hsame]
  cases hrun : p c s with
  | mk r s' =>
    cases r with
    | none => rfl
    | some a => exact (hf a).trait c s' (hp.steady.after hs hrun)

theorem closed_sameRuns : Closed sameRuns where
  vacuous h := fun c s hs => absurd hs.1 (by rw [h]; exact Nat.not_lt_zero _)
  weaken hγ hp := fun c s hs => hp c s (hγ.admits s hs)
  value _ := fun _ _ _ => rfl
  failure _ := fun _ _ _ => rfl
  looks hp hf := by
    intro c s hs
    rw [bind_apply, bind_apply, hp]
    exact (hf _).trait c s ⟨hs.1, hs.2, c.sourceEnd, rfl⟩
  reports _ := fun _ _ _ => rfl
  skips := fun _ _ _ => rfl
  eats := fun _ _ _ => rfl
  binds := same_bind

theorem conjunctsOfConditional_congr {g g' : Grammar} {c : Setting} {s : State}
    (h : g.furtherConjuncts (conditionalPower + 1) c s = g'.furtherConjuncts (conditionalPower + 1) c s) :
    g.conjunctsOfConditional c s = g'.conjunctsOfConditional c s := by
  rw [Grammar.conjunctsOfConditional, Grammar.conjunctsOfConditional, bind_apply, bind_apply, h]

theorem tentatively_congr {p p' : Parser α} {c : Setting} {s : State} (h : p c s = p' c s) :
    tentatively p c s = tentatively p' c s := by
  rw [tentatively, tentatively, h]

theorem inherited_sameRuns : Inherited sameRuns where
  toClosed := closed_sameRuns
  discards _ hp := hp
  halts htrue hfalse := by
    intro c s hs
    show (_ : Option _ × State) = _
    cases hhalt : c.recovery == .firstError && !s.diagnostics.isEmpty with
    | true =>
      have hdirty : s.diagnostics ≠ [] := by
        rintro hnil
        rw [hnil] at hhalt
        simp at hhalt
      simp only [bind_apply, halted, hhalt]
      exact htrue.trait c s ⟨hs.1, hdirty⟩
    | false =>
      simp only [bind_apply, halted, hhalt]
      exact hfalse.trait c s hs
  attempts hp := by
    intro c s hs
    rw [attempt, attempt, hp.trait c s hs]
  resumes hp := by
    intro c s hs
    rw [resuming, resuming, hp.trait c s hs]
  looksAhead _ _ _ := fun _ _ _ => rfl
  records _ _ hp := by
    intro c s hs
    rw [bind_apply, bind_apply, hp.trait c s hs]
  lists := fun _ _ _ => rfl
  chains _ hread := fun c s hs => tentatively_congr (conjunctsOfConditional_congr (hread.trait c s hs))

/-! ## Levels -/

/-- With enough levels, inner parsers are those of the grammar that refers to itself. -/
theorem level_full {n m : Nat} (h : n ≤ m) : Level sameRuns n (Grammar.upTo m) Grammar.full := by
  have hlevel : ∀ {k : Nat}, k ≤ m → Level sameRuns k (Grammar.upTo m) (Grammar.upTo k) := fun hk =>
    Inherited.level inherited_sameRuns hk (Nat.le_refl _)
  have hg := hlevel h
  constructor
  · exact .upTo h
  · exact fun min before => ⟨(hg.expr min before).steady, fun c s hs =>
      ((hlevel (Nat.le_trans hs.1 h)).expr min before).trait c s ⟨Nat.lt_succ_self _, trivial⟩⟩
  · exact fun before => ⟨(hg.operand before).steady, fun c s hs =>
      ((hlevel (Nat.le_trans hs.1 h)).operand before).trait c s ⟨Nat.lt_succ_self _, trivial⟩⟩
  · exact fun dialect before => ⟨(hg.stmt dialect before).steady, fun c s hs =>
      ((hlevel (Nat.le_trans hs.1 h)).stmt dialect before).trait c s ⟨Nat.lt_succ_self _, trivial⟩⟩
  · exact fun before => ⟨(hg.method before).steady, fun c s hs =>
      ((hlevel (Nat.le_trans hs.1 h)).method before).trait c s ⟨Nat.lt_succ_self _, hs.2⟩⟩
  · exact fun before => ⟨(hg.subinterface before).steady, fun c s hs =>
      ((hlevel (Nat.le_trans hs.1 h)).subinterface before).trait c s ⟨Nat.lt_succ_self _, hs.2⟩⟩
  · exact fun before => ⟨(hg.module before).steady, fun c s hs =>
      ((hlevel (Nat.le_trans hs.1 h)).module before).trait c s ⟨Nat.lt_succ_self _, hs.2⟩⟩

end Parser

namespace Grammar

variable {c : Setting} {s : State}

/-! ## The inner parsers are the productions -/

theorem full_expr (min : Nat) : full.innerExpr min c s = full.expr min c s :=
  (Inherited.expr inherited_sameRuns (level_full (Nat.le_refl _)) min).sameRun ⟨Nat.lt_succ_self _, trivial⟩

theorem innerExpr_eq (min : Nat) : full.innerExpr min = full.expr min := by
  funext c s
  exact full_expr min

theorem full_operand : full.innerOperand c s = full.operand c s :=
  (Inherited.operand inherited_sameRuns (level_full (Nat.le_refl _))).sameRun ⟨Nat.lt_succ_self _, trivial⟩

theorem full_stmt (dialect : Dialect) : full.innerStmt dialect c s = full.stmt dialect c s :=
  (Inherited.stmt inherited_sameRuns (level_full (Nat.le_refl _)) dialect).sameRun
    ⟨Nat.lt_succ_self _, trivial⟩

theorem full_methodDef (hs : s.Headed) : full.innerMethod c s = full.methodDef c s :=
  (Inherited.methodDef inherited_sameRuns (level_full (Nat.le_refl _))).sameRun ⟨Nat.lt_succ_self _, hs⟩

theorem full_subinterfaceDef (hs : s.Headed) : full.innerSubinterface c s = full.subinterfaceDef c s :=
  (Inherited.subinterfaceDef inherited_sameRuns (level_full (Nat.le_refl _))).sameRun
    ⟨Nat.lt_succ_self _, hs⟩

theorem full_moduleDef (hs : s.Headed) : full.innerModule c s = full.moduleDef c s :=
  (Inherited.moduleDef inherited_sameRuns (level_full (Nat.le_refl _))).sameRun ⟨Nat.lt_succ_self _, hs⟩

theorem full_functionDef (hs : s.Headed) : withGrammar functionDef c s = full.functionDef c s :=
  (Inherited.functionDef inherited_sameRuns (level_full (Nat.le_refl _))).sameRun ⟨Nat.lt_succ_self _, hs⟩

theorem full_simple : withGrammar simple c s = full.simple c s :=
  (Inherited.simple inherited_sameRuns (level_full (Nat.le_refl _))).sameRun ⟨Nat.lt_succ_self _, trivial⟩

end Grammar

end Bluespec
