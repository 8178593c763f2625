import Bluespec.Proofs.JoinedUnits
import Bluespec.Proofs.ReportedRuns

/-!
# Source units with reports

The loop over the items of a source, where items fail and words close nothing.

* **`Parser.PackageLoops`** — the loop reads on over given tokens; **`PackageLoops.item`** and **`PackageLoops.closer`**
  are its rounds.
* **`parse_of_packageLoops`** — what is said about a source is what the loop over its tokens has reported.
-/

namespace Bluespec

open Bluespec.Parser

namespace Parser

variable {c : Setting} {cs ts us rest : List Token} {t : Token} {ds ds₁ ds' : List Diagnostic}
  {body body₁ body' : PackageBody}

/-- The loop over the items of a source reads on over the tokens `ts`, in front of `rest`: behind the items and the
diagnostics that there were it has `body'` and `ds'`. -/
def PackageLoops (c : Setting) (cs ts : List Token) (ds : List Diagnostic) (body body' : PackageBody)
    (ds' : List Diagnostic) (rest : List Token) : Prop :=
  ∀ ns, ∃ ns', Leads (packageRound false) c body ⟨cs, ts ++ rest, ds, ns⟩ body' ⟨ts.reverse ++ cs, rest, ds', ns'⟩

namespace PackageLoops

theorem nil : PackageLoops c cs [] ds body body ds rest := fun ns => ⟨ns, .refl⟩

theorem append (h : PackageLoops c cs ts ds body body₁ ds₁ (us ++ rest))
    (h' : PackageLoops c (ts.reverse ++ cs) us ds₁ body₁ body' ds' rest) :
    PackageLoops c cs (ts ++ us) ds body body' ds' rest := by
  intro ns
  obtain ⟨ns₁, hfirst⟩ := h ns
  obtain ⟨ns', hothers⟩ := h' ns₁
  rw [List.append_assoc, List.reverse_append, List.append_assoc]
  exact ⟨ns', hfirst.trans hothers⟩

/-- One round. -/
theorem round (hgo : c.GoesOn ds) (h : ComesTo c (packageItem body t.kind) cs (t :: ts) ds (some body') ds' rest) :
    PackageLoops c cs (t :: ts) ds body body' ds' rest := by
  have hround : ComesTo c (packageRound false body) cs (t :: ts) ds (some (.again body')) ds' rest :=
    .look (a := false) (fun _ => congrArg (fun b => (some b, _)) hgo.halts) (.peek (h.then_ .value))
  intro ns
  obtain ⟨ns', hrun⟩ := hround ns
  refine ⟨ns', .one hrun ?_⟩
  rw [List.length_append]
  exact Nat.lt_add_of_pos_left (Nat.succ_pos _)

/-- One statement, which is read, or behind which reading resumes at once. -/
theorem item {read : Option PackageStmt} (hgo : c.GoesOn ds) (hexport : t.kind ≠ .keyword .export_)
    (himport : t.kind ≠ .keyword .import_) (hopen : t.kind.isCloser = false)
    (h : ComesTo c (resuming packageStmt) cs (t :: ts) ds (some read) ds' rest) :
    PackageLoops c cs (t :: ts) ds body { body with stmts := body.stmts ++ read.toList } ds' rest := by
  refine round hgo ?_
  rw [packageItem_stmt hexport himport hopen]
  exact h.then_ .value

/-- A closing word closes nothing here. -/
theorem closer (hgo : c.GoesOn ds) (hclose : t.kind.isCloser = true) :
    PackageLoops c cs [t] ds body body (⟨.grammar (.unexpected t.kind), t.span⟩ :: ds) rest := by
  refine round hgo fun ns => ⟨ns, ?_⟩
  rw [packageItem_closer hclose]
  rfl

end PackageLoops

/-- The loop is left at the end of the tokens. -/
theorem PackageLoops.packageBody (h : PackageLoops c [] ts [] .empty body ds []) (hgo : c.GoesOn ds) (ns : List NodeSpan) :
    ∃ ns', packageBody false c ⟨[], ts, [], ns⟩ = (some body, ⟨ts.reverse, [], ds, ns'⟩) := by
  obtain ⟨ns', hleads⟩ := h ns
  rw [List.append_nil, List.append_nil] at hleads
  refine ⟨ns', repeatUntil_of_leads hleads ?_⟩
  rw [packageRound, bind_of_some (show halted c _ = (some (State.halts c _), _) from rfl), hgo.halts]
  rfl

end Parser

/-- What is said about a source without lexical errors is what its tokens are at fault for, in the order of places. -/
theorem parse_of_sourceUnit {source : String} (hlexical : LexicalError.ofText source = []) :
    (parse source .collectAll).diagnostics =
        Diagnostic.sortByStart (sourceUnit (.ofText source .collectAll) (.ofText source)).2.diagnostics.reverse ∧
      (parse source .collectAll).root = (sourceUnit (.ofText source .collectAll) (.ofText source)).1.getD (.items .empty) := by
  unfold parse
  dsimp only
  rw [hlexical, if_neg (fun hstops => by cases hstops.1)]
  exact ⟨rfl, rfl⟩

/-- What the loop over the tokens of a source has reported is said about the source, in the order of places. -/
theorem parse_of_packageLoops {source : String} {body : PackageBody} {ds : List Diagnostic}
    (hlexical : LexicalError.ofText source = []) (hbare : Lacks (.keyword .package) (Token.significant source))
    (h : PackageLoops (.ofText source .collectAll) [] (Token.significant source) [] .empty body ds []) :
    (parse source .collectAll).diagnostics = Diagnostic.sortByStart ds.reverse ∧
      (parse source .collectAll).root = .items body := by
  obtain ⟨ns, hbody⟩ := h.packageBody (.inl rfl) []
  replace hbody : packageBody false (.ofText source .collectAll) (.ofText source) = _ := hbody
  have hnext : isNext (.keyword .package) (.ofText source .collectAll) (.ofText source) = (some false, .ofText source) :=
    isNext_of_head hbare
  have hunit : sourceUnit (.ofText source .collectAll) (.ofText source) =
      (some (.items body), ⟨(Token.significant source).reverse, [], ds, ns⟩) := by
    rw [sourceUnit, bind_of_some hnext, if_neg Bool.false_ne_true, bind_of_some hbody]
    rfl
  obtain ⟨hdiagnostics, hroot⟩ := parse_of_sourceUnit hlexical
  rw [hunit] at hdiagnostics hroot
  exact ⟨hdiagnostics, hroot⟩

end Bluespec
