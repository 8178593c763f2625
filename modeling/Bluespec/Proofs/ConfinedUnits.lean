import Bluespec.Grammar.SourceUnit
import Bluespec.Proofs.ConfinedGrammar

/-!
# The statements of a package are confined

Statements of a package end as the definitions and simple statements in them do.

* **`Inner.interfaceDecl`** — interfaces with their members.
* **`Inner.packageStmt`** — one statement of a package.
-/

namespace Bluespec

open Bluespec.Parser

variable {tokens : List Token} {n : Nat} {H : Option Kind → Prop} {u : Bool}

/-! ## Interfaces -/

namespace Parser

variable {β : Type}

/-- A part behind a mark is read where the mark has been read. -/
theorem isNext_expectPunct (p : Punct) (q r : Parser β) :
    (isNext (.punct p) >>= fun b => if b = true then expectPunct p >>= fun _ => q else r) =
      accept (.punct p) >>= fun b => if b = true then q else r := by
  funext c s
  obtain ⟨cs, ts, ds, ns⟩ := s
  cases ts with
  | nil => rfl
  | cons t ts =>
    by_cases hk : t.kind = .punct p
    · rw [bind_of_some (isNext_of_kind hk), bind_of_some (accept_of_kind hk)]
      exact bind_of_some (expectPunct_of_kind hk)
    · rw [bind_of_some isNext_cons, bind_of_some (accept_of_ne hk), beq_eq_false_iff_ne.mpr hk]
      rfl

namespace Confined

theorem typeFormal : Confined tokens n any true true anything (fun _ => True) typeFormal := by
  have hmark : Confined tokens n any false true (fun _ => Lacks (.keyword .string)) (fun _ => True)
      (Parser.accept (.keyword .string) >>= fun marked =>
        pure (if marked = true then TypeFormalKind.string else TypeFormalKind.type)) :=
    .accept rfl (.inr fun _ _ h => h) (.ret trivial) (.ret trivial)
  have hkind : Confined tokens n any false true
      (fun _ rest => Lacks (.keyword .numeric) rest ∧ Lacks (.keyword .string) rest) (fun _ => True) typeFormalKind :=
    .accept rfl (.inr fun _ _ h => h.1) (.ret trivial) (hmark.narrow fun _ _ h => h.2)
  refine .offset fun start => .pass .reads hkind fun kind => ?_
  refine .seq true .any (expectKeyword rfl) fun _ => ?_
  exact .seq false .any (expectText rfl) fun name => .spanned fun _ => trivial

/-- The type formals of an interface behind their mark. -/
def markedFormals : Parser (List TypeFormal) := do
  Parser.expectPunct .lparen
  let formals ← Parser.separated .comma Parser.typeFormal
  Parser.expectPunct .rparen
  return formals

theorem interfaceHeader : Confined tokens n (· = some (.keyword .interface)) true u never (fun _ => True)
    interfaceHeader := by
  have hend : ∀ (name : String) (formals : List TypeFormal), Confined tokens n any true true never (fun _ => True)
      (Parser.expectPunct .semi >>= fun _ => pure (name, formals)) := fun _ _ =>
    .seq false .never (expectPunct rfl) fun _ => .ret trivial
  have hmarked : Confined tokens n any true true anything (fun _ => True) markedFormals := by
    refine .seq true .any (expectPunct rfl) fun _ => ?_
    exact .seq true .reads (separated typeFormal rfl) fun formals =>
      .seq false .any (expectPunct rfl) fun _ => .ret trivial
  have hrest : ∀ name : String, (do
      let formals ← if ← Parser.isNext (.punct .hash) then typeFormals else pure []
      Parser.expectPunct .semi
      return (name, formals)) = (Parser.accept (.punct .hash) >>= fun b =>
        if b = true then markedFormals >>= fun formals => Parser.expectPunct .semi >>= fun _ => pure (name, formals)
        else Parser.expectPunct .semi >>= fun _ => pure (name, [])) := by
    intro name
    rw [← isNext_expectPunct]
    simp only [typeFormals, markedFormals, bind_assoc]
    rfl
  refine .seq true .any (skip rfl) fun _ => ?_
  simp only [hrest]
  refine hashed (q := true) (fun name marked => ?_) (Nat.le_succ n) rfl fun _ _ h => h.elim
  cases marked with
  | true => exact hmarked.seq true .reads (hend name)
  | false => exact hend name []

theorem methodProto (start : Nat) : Confined tokens n (· = some (.keyword .method)) true u anything (fun _ => True)
    (methodProto start) := by
  refine .seq true .any (skip rfl) fun _ => .seq true .reads type fun result => ?_
  refine .seq true .any (expectText rfl) fun name => .pass .reads (formalsIfAny false) fun formals => ?_
  exact .seq false .any (expectPunct rfl) fun _ => .spanned fun _ => trivial

theorem interfaceMember : Confined tokens n any true true anything (fun _ => True) interfaceMember := by
  refine .skipAttributes (.offset fun start => .peek fun k => ?_)
  split
  · exact .seq false .any (methodProto start) fun d => .ret trivial
  · have hdecl : Confined tokens n (· = some (.keyword .interface)) true true anything (fun _ => True)
        (subinterfaceDecl start) := .seq false .any Inner.subinterfaceHeader fun d => .spanned fun _ => trivial
    exact hdecl.seq false .any fun d => .ret trivial
  · exact .failExpected _

theorem advances_interfaceMember : Advances Parser.interfaceMember := by
  intro c s a s' hrun
  have hmember : Holds sameRuns (.free (s.rest.length + 1) false) (fun _ => .reading) [] Parser.interfaceMember
      Parser.interfaceMember fun _ => [] := Inherited.interfaceMember inherited_sameRuns
  exact (hmember.steady.tells ⟨Nat.lt_succ_self _, trivial⟩ hrun).read rfl

end Confined

end Parser

namespace Inner

theorem interfaceDecl : Confined tokens (n + 1) (· = some (.keyword .interface)) true u
    (fun _ => Lacks (.punct .colon)) (fun _ => True) interfaceDecl :=
  definition (fun x b l span => InterfaceDecl.mk x.1 x.2 b l span) rfl .interfaceHeader
    (fun _ => .items .interfaceMember Confined.advances_interfaceMember) fun _ _ _ _ _ _ => trivial

/-! ## Statements of a package -/

theorem complains_skipUnsupportedDecl : Complains skipUnsupportedDecl := by
  refine .after (fun _ _ => ⟨_, _, rfl⟩) fun start => .after (fun _ _ => ⟨_, _, rfl⟩) fun k => ?_
  split
  · refine .after (fun _ _ => ⟨_, _, rfl⟩) fun _ => .after label_yields fun _ => ?_
    exact .after (fun _ _ => ⟨_, _, rfl⟩) fun span => .reportUnsupported _ _
  · refine .after (fun _ _ => ⟨_, _, rfl⟩) fun _ => .after label_yields fun _ => ?_
    exact .after (fun _ _ => ⟨_, _, rfl⟩) fun span => .reportUnsupported _ _
  · exact .after (fun _ _ => ⟨_, _, rfl⟩) fun _ => .after (fun _ _ => ⟨_, _, rfl⟩) fun span => .reportUnsupported _ _

theorem simplePackageStmt : Confined tokens (n + 1) H true u anything
    (fun s => AllSites (Site.Alone tokens) s.sites) simplePackageStmt := by
  have hsimple : withGrammar Grammar.simple = Grammar.full.simple := by
    funext c s
    exact Grammar.full_simple
  rw [Parser.simplePackageStmt, hsimple]
  refine (inner_full tokens n).simple.first false .any fun x => ?_
  cases x with
  | varDecl d => exact .record (.ret id)
  | assign a => exact .record (.ret id)
  | bind b => exact .reportFail _ _
  | expr e => exact .reportFail _ _
  | regWrite w => exact .reportFail _ _

theorem packageStmt : Confined tokens (n + 1) any true u (fun _ => Lacks (.punct .colon))
    (fun s => AllSites (Site.Alone tokens) s.sites) packageStmt := by
  have hmodule : Confined tokens (n + 1) (· = some (.keyword .module)) true u (fun _ => Lacks (.punct .colon))
      (fun d => AllSites (Site.Alone tokens) d.sites) (withGrammar Grammar.moduleDef) :=
    (inner_full tokens n).moduleDef.congr (fun _ _ hk => Grammar.full_moduleDef (State.headed_of_peek hk))
      Grammar.onward_full.module
  have hfunction : Confined tokens (n + 1) (· = some (.keyword .function)) true u (fun _ => Lacks (.punct .colon))
      (fun d => AllSites (Site.Alone tokens) d.sites) (withGrammar Grammar.functionDef) :=
    (inner_full tokens n).functionDef.congr (fun _ _ hk => Grammar.full_functionDef (State.headed_of_peek hk))
      (.withGrammar Grammar.Onward.functionDef)
  have hskip : ∀ {H : Option Kind → Prop}, Confined tokens (n + 1) H true u (fun _ => Lacks (.punct .colon))
      (fun s : PackageStmt => AllSites (Site.Alone tokens) s.sites) (skipUnsupportedDecl >>= fun _ => fail) :=
    .dirty (Moving.skipUnsupportedDecl.bind fun _ => .fail) (complains_skipUnsupportedDecl.bind fun _ => .fail)
  refine .skipAttributes (.peek fun k => ?_)
  split
  · exact interfaceDecl.first false .same fun d => .ret fun _ => nofun
  · exact hmodule.first false .same fun d => .ret id
  · exact hfunction.first false .same fun d => .ret id
  · exact hskip
  · exact hskip
  · exact hskip
  · exact .failExpected _
  · exact simplePackageStmt.narrow fun _ _ _ => trivial

end Inner

end Bluespec
