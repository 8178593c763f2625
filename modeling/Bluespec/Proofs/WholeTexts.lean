import Bluespec.Parse
import Bluespec.Proofs.Running

/-!
# Texts that hold one thing

* **`parseOnly_eq`** — a text is judged by the outcome of one run; **`verdict`** tells how.
* **`parseOnly_eq_ok`** — when a text that is to hold one thing is accepted; **`parseOnly_of_reports`** — what it is
  rejected for.
-/

namespace Bluespec

open Bluespec.Parser

/-- The last step for a text that holds one thing: something that is left is reported. -/
def atEndOrReport (a : α) : Parser α := do
  if !(← ask State.atEnd) then reportExpected .endOfInput
  return a

theorem atEndOrReport_apply (a : α) (c : Setting) (s : State) :
    ∃ s', atEndOrReport a c s = (some a, s') ∧ (s'.diagnostics = [] → s' = s ∧ s.rest = []) ∧
      (s.rest = [] → s' = s) := by
  obtain ⟨cs, rest, ds, ns⟩ := s
  cases rest with
  | nil => exact ⟨_, rfl, fun _ => ⟨rfl, rfl⟩, fun _ => rfl⟩
  | cons t ts => exact ⟨_, rfl, fun h => (by cases h), fun h => by cases h⟩

variable {α : Type} {production : Parser α} {problem : SyntaxProblem} {source : String}

/-- What is said about a text for the outcome of a run. -/
def verdict (problem : SyntaxProblem) (source : String) (outcome : Option α × State) : Except (List Diagnostic) α :=
  match outcome.1, (LexicalError.ofText source).map Diagnostic.ofLexicalError ++ outcome.2.diagnostics.reverse with
  | some a, [] => .ok a
  | none, [] => .error [⟨.grammar problem, ⟨0, Text.byteSize source.toList⟩⟩]
  | _, d :: ds => .error (Diagnostic.sortByStart (d :: ds))

theorem parseOnly_eq : parseOnly production problem source =
    verdict problem source ((production >>= atEndOrReport) (.ofText source .collectAll) (.ofText source)) := rfl

section Verdict

variable {r : Option α} {s : State}

theorem verdict_eq_ok {a : α} : verdict problem source (r, s) = .ok a ↔
    LexicalError.ofText source = [] ∧ r = some a ∧ s.diagnostics = [] := by
  unfold verdict
  cases hall : (LexicalError.ofText source).map Diagnostic.ofLexicalError ++ s.diagnostics.reverse with
  | nil =>
    obtain ⟨hlexical, hrev⟩ := List.append_eq_nil_iff.mp hall
    have hclean : LexicalError.ofText source = [] ∧ s.diagnostics = [] :=
      ⟨List.map_eq_nil_iff.mp hlexical, List.reverse_eq_nil_iff.mp hrev⟩
    cases r with
    | none => exact ⟨nofun, fun h => nomatch h.2.1⟩
    | some b =>
      refine ⟨fun h => ⟨hclean.1, ?_, hclean.2⟩, fun h => ?_⟩
      · cases h
        rfl
      · cases h.2.1
        rfl
  | cons d ds =>
    refine ⟨fun h => (by cases r <;> cases h), fun h => ?_⟩
    rw [h.1, h.2.2] at hall
    cases hall

/-- The diagnostics of a text that is not accepted, where something has been reported. -/
theorem verdict_of_dirty (h : s.diagnostics ≠ []) : verdict problem source (r, s) = .error
    (Diagnostic.sortByStart ((LexicalError.ofText source).map Diagnostic.ofLexicalError ++ s.diagnostics.reverse)) := by
  unfold verdict
  cases hall : (LexicalError.ofText source).map Diagnostic.ofLexicalError ++ s.diagnostics.reverse with
  | nil => exact absurd (List.reverse_eq_nil_iff.mp (List.append_eq_nil_iff.mp hall).2) h
  | cons d ds => cases r <;> rfl

/-- A text is at fault for no known reason only if the run has failed without a word. -/
theorem mem_of_verdict_eq_error {ds : List Diagnostic} (h : verdict problem source (r, s) = .error ds)
    (hloud : r = none → s.diagnostics ≠ []) :
    ∀ d ∈ ds, d ∈ (LexicalError.ofText source).map Diagnostic.ofLexicalError ∨ d ∈ s.diagnostics := by
  unfold verdict at h
  cases hall : (LexicalError.ofText source).map Diagnostic.ofLexicalError ++ s.diagnostics.reverse with
  | nil =>
    have hclean : s.diagnostics = [] := List.reverse_eq_nil_iff.mp (List.append_eq_nil_iff.mp hall).2
    rw [hall] at h
    cases r with
    | none => exact absurd hclean (hloud rfl)
    | some a => cases h
  | cons e es =>
    have hds : ds = Diagnostic.sortByStart (e :: es) := by
      rw [hall] at h
      cases r <;> cases h <;> rfl
    intro d hd
    rw [hds, (Diagnostic.sortByStart_perm _).mem_iff, ← hall, List.mem_append, List.mem_reverse] at hd
    exact hd

end Verdict

/-- A text is accepted if its words have no fault, the production reads all of them, and nothing is
reported. -/
theorem parseOnly_eq_ok {a : α} :
    parseOnly production problem source = .ok a ↔
      LexicalError.ofText source = [] ∧
        ∃ s', production (.ofText source .collectAll) (.ofText source) = (some a, s') ∧ s'.rest = [] ∧
          s'.diagnostics = [] := by
  rw [parseOnly_eq, bind_apply]
  rcases production (.ofText source .collectAll) (.ofText source) with ⟨_ | b, s₁⟩
  · refine verdict_eq_ok.trans ⟨fun h => ?_, fun h => ?_⟩
    · cases h.2.1
    · obtain ⟨-, s', hrun, -⟩ := h
      cases hrun
  · obtain ⟨s', hs', hclean, hend⟩ := atEndOrReport_apply b (.ofText source .collectAll) s₁
    dsimp only
    rw [hs', verdict_eq_ok]
    refine and_congr_right fun _ => ⟨fun h => ?_, fun h => ?_⟩
    · obtain ⟨rfl, hrest⟩ := hclean h.2
      cases h.1
      exact ⟨s', rfl, hrest, h.2⟩
    · obtain ⟨s₂, hrun, hrest, hdiag⟩ := h
      cases hrun
      rw [hend hrest]
      exact ⟨rfl, hdiag⟩

/-- A text without lexical errors is rejected for what its run reports. -/
theorem parseOnly_of_reports {ds : List Diagnostic} (hlexical : LexicalError.ofText source = [])
    (h : ((production >>= atEndOrReport) (.ofText source .collectAll) (.ofText source)).2.diagnostics = ds) (hds : ds ≠ []) :
    parseOnly production problem source = .error (Diagnostic.sortByStart ds.reverse) := by
  rw [← h] at hds ⊢
  refine (verdict_of_dirty hds).trans ?_
  rw [hlexical]
  rfl

/-- The same for a run that reports one thing. -/
theorem parseOnly_of_report {d : Diagnostic} (hlexical : LexicalError.ofText source = [])
    (h : ((production >>= atEndOrReport) (.ofText source .collectAll) (.ofText source)).2.diagnostics = [d]) :
    parseOnly production problem source = .error [d] := by
  rw [parseOnly_of_reports hlexical h (List.cons_ne_nil d []), List.reverse_singleton, Diagnostic.sortByStart_singleton]

end Bluespec
