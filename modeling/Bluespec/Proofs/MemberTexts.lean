import Bluespec.Proofs.FailureReports
import Bluespec.Proofs.JoinedUnits
import Bluespec.Proofs.ReportedRuns

/-!
# Texts of members of a module

A text that is one member of a module is this member wherever it stands on a line of its own, in front of what is no
label.

* **`Grammar.Tracked.full`** — the grammar that refers to itself reads moved tokens as it reads the tokens themselves.
* **`Inner.moduleMember`** — a member ends by its own tokens, in front of what is no label.
* **`Parser.Goes.comesTo`** — what is read without diagnostics is read alike where others have been reported.
* **`MemberText`** — a text that is one member of a module.
* **`MemberText.loops_onLines`** — texts on lines of their own are read as their members.
-/

namespace Bluespec

open Bluespec.Parser

theorem Grammar.Tracked.full (ℓ : Relocation) : Grammar.full.Tracked ℓ where
  onward := onward_full
  innerExpr min _ := Tracks.withGrammar fun level => ((upTo ℓ level).expr min).weaken (Nat.le_refl _) fun _ _ _ _ he => he.1
  innerOperand _ := Tracks.withGrammar fun level => (upTo ℓ level).operand
  innerStmt dialect _ := Tracks.withGrammar fun level => (upTo ℓ level).stmt dialect
  innerMethod _ := Tracks.withGrammar fun level => (upTo ℓ level).methodDef
  innerSubinterface _ := Tracks.withGrammar fun level => (upTo ℓ level).subinterfaceDef
  innerModule _ := Tracks.withGrammar fun level => (upTo ℓ level).moduleDef

theorem Inner.moduleMember {tokens : List Token} {n : Nat} {u : Bool} (h : Inner tokens n) :
    Confined tokens (n + 1) any true u (fun _ => Lacks (.punct .colon)) (fun s => AllSites (Site.Alone tokens) s.sites)
      Grammar.full.moduleStmt := by
  have hmodule : Confined tokens (n + 1) (· = some (.keyword .module)) true u (fun _ => Lacks (.punct .colon))
      (fun d => AllSites (Site.Alone tokens) d.sites) Grammar.full.innerModule :=
    h.moduleDef.congr (fun _ _ hk => Grammar.full_moduleDef (State.headed_of_peek hk)) Grammar.onward_full.module
  refine .skipAttributes (.peek fun k => ?_)
  split
  · exact h.methodDef.first false .same fun d => .ret id
  · exact h.subinterfaceDef.first false .same fun d => .ret id
  · exact h.ruleDef.first false .same fun d => .ret id
  · exact h.returned.first false .any fun e => .ret id
  · exact h.functionDef.first false .same fun d => .ret id
  · exact hmodule.first false .same fun d => .ret id
  · exact skipUnsupported .action
  · exact skipUnsupported .action
  · exact skipUnsupported .action
  · exact moduleTask
  · exact h.simpleModuleStmt.narrow fun _ _ _ => trivial

theorem moduleMember_confined (tokens : List Token) (n : Nat) :
    Confined tokens n any true false (fun _ => Lacks (.punct .colon)) (fun s => AllSites (Site.Alone tokens) s.sites)
      Grammar.full.moduleStmt := (inner_full tokens n).moduleMember.lower

/-! ## Members behind reports -/

namespace Parser

variable {α : Type} {p q : Parser α} {c : Setting} {s : State}

theorem RunsAbove.congr (h : RunsAbove p c s) (hsame : ∀ ds, q c (s.withDiagnostics ds) = p c (s.withDiagnostics ds)) :
    RunsAbove q c s := by
  obtain ⟨r, s', hreasons, hrun⟩ := h
  exact ⟨r, s', hreasons, fun ds => (hsame ds).trans (hrun ds)⟩

theorem runsAbove_moduleStmt (hc : c.recovery = .collectAll) (s : State) : RunsAbove Grammar.full.moduleStmt c s := by
  have hadmits : ∀ ds, (Grade.free (s.rest.length + 1) false).Admits (s.withDiagnostics ds) :=
    fun _ => ⟨Nat.lt_succ_self _, trivial⟩
  have hlevel := inherited_reporting.level (Nat.le_refl (s.rest.length + 1)) (Nat.le_refl _)
  refine ((inherited_reporting.moduleStmt hlevel []).trait c s hc (hadmits s.diagnostics)).congr fun ds => ?_
  exact ((Inherited.moduleStmt inherited_sameRuns (level_full (Nat.le_refl _)) []).sameRun (hadmits ds)).symm

/-- What is read without diagnostics is read alike where others have been reported, if all of them are wanted. -/
theorem Goes.comesTo {a : α} {cs ts rest : List Token} {ds : List Diagnostic} (h : Goes p cs ts a rest) (hgo : c.GoesOn ds)
    (habove : c.recovery = .collectAll → ∀ s, RunsAbove p c s) : ComesTo c p cs ts ds (some a) ds rest := by
  rcases hgo with hc | rfl
  · intro ns
    obtain ⟨ns', hclean⟩ := h c ns
    obtain ⟨r, ⟨cs', rest', own, ns''⟩, -, hrun⟩ := habove hc ⟨cs, ts ++ rest, [], ns⟩
    obtain ⟨rfl, hstate⟩ := Prod.mk.inj ((hrun []).symm.trans hclean)
    obtain ⟨rfl, rfl, hown, -⟩ := State.mk.inj hstate
    obtain rfl : own = [] := by rwa [List.append_nil] at hown
    exact ⟨ns'', hrun ds⟩
  · exact .of_goes h

end Parser

/-! ## Texts of members -/

/-- No member of a module begins with a colon or a closing word. -/
theorem Parser.moduleStmt_of_head {c : Setting} {s : State} {k : Kind} (hpeek : s.peek = some k)
    (hk : k = .punct .colon ∨ k.isCloser = true) : (Grammar.full.moduleStmt c s).1 = none := by
  have hhead : k ≠ .punct .attrOpen ∧ k ≠ .keyword .let_ ∧ startsTyped k = false ∧ k.startsPrimary = false := by
    rcases hk with rfl | hk
    · decide
    · cases k with
      | keyword w => cases w <;> first | decide | cases hk
      | _ => cases hk
  have hlacks : Lacks (.punct .attrOpen) s.rest := by
    intro t ht hkind
    rw [State.peek, show s.rest.head? = some t from ht] at hpeek
    exact hhead.1 ((Option.some.inj hpeek).symm.trans hkind)
  have hform : Grammar.full.moduleStmt c s = Grammar.full.simpleModuleStmt c s := by
    rw [Grammar.moduleStmt, bind_of_some (Confined.skipAttributes_of_lacks hlacks), bind_of_some peek_eq, hpeek]
    rcases hk with rfl | hk
    · rfl
    · cases k with
      | keyword w => cases w <;> first | rfl | cases hk
      | _ => cases hk
  have hsimple := simple_of_head (g := Grammar.full) (c := c) hpeek hhead.2.1 hhead.2.2.1 hhead.2.2.2
  rw [hform, Grammar.simpleModuleStmt, bind_apply]
  rcases hrun : Grammar.full.simple c s with ⟨_ | x, s₁⟩
  · rfl
  · rw [hrun] at hsimple
    cases hsimple

/-- A text that is read as one member of a module. -/
structure MemberText where
  /-- The text. -/
  text : String
  /-- The member. -/
  member : ModuleStmt
  /-- The text is read as the member. -/
  read : parseOnly Grammar.full.moduleStmt .invalidStatement text = .ok member

namespace MemberText

theorem lexical (x : MemberText) : LexicalError.ofText x.text = [] := (parseOnly_eq_ok.mp x.read).1

/-- The tokens of a text at an offset. -/
def tokensAt (x : MemberText) (offset : Nat) : List Token :=
  (Token.significant x.text).map (Token.move (· + offset))

/-- The members of texts on lines of their own, the first of them at `offset`. -/
def membersAt (offset : Nat) : List MemberText → List ModuleStmt
  | [] => []
  | x :: xs => x.member.move (· + offset) :: membersAt (offset + Text.byteSize x.text.toList + 1) xs

theorem goes (x : MemberText) (offset : Nat) (cs : List Token) {rest : List Token} (hrest : Lacks (.punct .colon) rest) :
    Goes Grammar.full.moduleStmt cs (x.tokensAt offset) (x.member.move (· + offset)) rest :=
  goes_of_parseOnly moduleMember_confined (Grammar.Tracked.full (.shift offset)).moduleStmt x.read cs rest hrest

/-- The first token of a text is neither a colon nor a closing word. -/
theorem starts (x : MemberText) (offset : Nat) :
    ∃ t us, x.tokensAt offset = t :: us ∧ t.kind ≠ .punct .colon ∧ t.kind.isCloser = false := by
  obtain ⟨t, us, hcons⟩ := exists_first_of_parseOnly moduleMember_confined x.read
  obtain ⟨-, s', hrun, -⟩ := parseOnly_eq_ok.mp x.read
  have hpeek : State.peek (.ofText x.text) = some t.kind := by
    show Option.map Token.kind (Token.significant x.text).head? = _
    rw [hcons]
    rfl
  have hhead : ¬ (t.kind = .punct .colon ∨ t.kind.isCloser = true) := by
    intro hk
    have hnone := moduleStmt_of_head (c := .ofText x.text .collectAll) hpeek hk
    rw [hrun] at hnone
    cases hnone
  refine ⟨t.move (· + offset), us.map (Token.move (· + offset)), by rw [tokensAt, hcons]; rfl, ?_⟩
  exact ⟨fun hk => hhead (.inl hk), Bool.eq_false_iff.mpr fun hk => hhead (.inr hk)⟩

/-- No label comes before members. -/
theorem lacks_onLines (offset : Nat) (xs : List MemberText) {rest : List Token} (hrest : Lacks (.punct .colon) rest) :
    Lacks (.punct .colon) (Token.onLines offset (xs.map text) ++ rest) := by
  cases xs with
  | nil => exact hrest
  | cons x xs =>
    obtain ⟨t, us, hcons, hk, -⟩ := x.starts offset
    rw [tokensAt] at hcons
    rw [List.map_cons, Token.onLines, hcons]
    rintro t' ⟨⟩
    exact hk

/-- The tokens of texts on lines of their own are read as their members, whatever has been reported before. -/
theorem loops_onLines (xs : List MemberText) {rest : List Token} (hrest : Lacks (.punct .colon) rest) (offset : Nat)
    (cs : List Token) {c : Setting} {ds : List Diagnostic} (hgo : c.GoesOn ds) :
    Loops c Grammar.full.moduleStmt cs (Token.onLines offset (xs.map text)) ds (membersAt offset xs) ds rest := by
  induction xs generalizing offset cs with
  | nil => exact .nil
  | cons x xs ih =>
    obtain ⟨t, us, hcons, -, hopen⟩ := x.starts offset
    have hlater := lacks_onLines (offset + Text.byteSize x.text.toList + 1) xs hrest
    have hread := (x.goes offset cs hlater).comesTo hgo runsAbove_moduleStmt
    rw [hcons] at hread
    have hfirst := Loops.read hgo hopen hread
    rw [← hcons] at hfirst
    exact hfirst.append (ih _ _)

end MemberText

end Bluespec
