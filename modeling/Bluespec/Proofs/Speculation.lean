import Bluespec.Proofs.FailureReports
import Bluespec.Proofs.FullGrammar

/-!
# Reading ahead

The grammar reads ahead in two places: for a type with a name behind it, where a declaration may begin, and for
conditions with a question mark behind them, where a conditional may go on.  All it keeps for the way back is the
place of the cursor and the lengths of two lists.  That is enough, since whatever is run in between only adds to the
lists, and what is run may read ahead itself.

* **`Grammar.InUse`** — the grammars that productions are run with.
* **`Grammar.Production.moving`** — their productions move forward from any state.
* **`Grammar.Onward.chained_eq_done_iff`** — when a chain of conditions is handed back, and in which state.
* **`speculation_leaves_no_trace`** — both kinds of reading ahead, and why they lead back.
-/

namespace Bluespec

open Bluespec.Parser

namespace Grammar

/-- The grammars that productions are run with: those of some number of levels, and the one that refers to
itself. -/
inductive InUse : Grammar → Prop
  | upTo (n : Nat) : InUse (upTo n)
  | full : InUse full

variable {g : Grammar}

theorem InUse.onward (hg : g.InUse) : g.Onward := by
  cases hg with
  | upTo n => exact onward_upTo n
  | full => exact onward_full

/-- Productions move forward if the parsers that they call do. -/
theorem Production.moving {α : Type} {p : Parser α} (hp : g.Production p) (h : g.Onward) : Moving p := by
  cases hp with
  | bitBound => exact .bitBound
  | type => exact .type
  | typeFormal => exact .typeFormal
  | typeFormals => exact .typeFormals
  | formal untyped => exact .formal untyped
  | formals untyped => exact .formals untyped
  | moduleParam => exact .moduleParam
  | moduleParams => exact .moduleParams
  | moduleArg => exact .moduleArg
  | moduleArgs => exact .moduleArgs
  | arguments => exact h.arguments
  | fieldBind => exact h.fieldBind
  | fieldBinds => exact h.fieldBinds
  | concatItems => exact h.concatItems
  | selection base => exact h.selection base
  | memberOf receiver => exact h.memberOf receiver
  | suffixes operand => exact h.suffixes operand
  | furtherConjuncts min => exact h.furtherConjuncts min
  | conditional predicate => exact h.conditional predicate
  | operations min lhs => exact h.operations min lhs
  | literal k => exact .literal k
  | payload => exact h.payload
  | primary => exact h.primary
  | operand => exact h.suffixed
  | unary => exact h.unary
  | expr min => exact h.operated min
  | predicate => exact h.predicate
  | parenPredicate => exact h.parenPredicate
  | valueAndSemicolon => exact h.valueAndSemicolon
  | simpleTail target => exact h.simpleTail target
  | letStmt => exact h.letStmt
  | dimensions => exact h.dimensions
  | declarator => exact h.declarator
  | typedStmt => exact h.typedStmt
  | permit dialect leaf span => exact .permit dialect leaf span
  | permitSimple dialect stmt => exact .permitSimple dialect stmt
  | block dialect opening closing => exact h.block dialect opening closing
  | blockStmtTail start target => exact h.blockStmtTail start target
  | blockItem => exact h.blockItem
  | valueBlock => exact h.valueBlock
  | interfaceStmt => exact h.interfaceStmt
  | interfaceExpr => exact h.interfaceExpr
  | simple => exact h.simple
  | returned => exact h.returned
  | body dialect closing => exact h.body dialect closing
  | functionHeader => exact .functionHeader
  | functionDef => exact h.functionDef
  | methodHeader => exact h.methodHeader
  | methodDef => exact h.methodDef
  | ruleHeader => exact h.ruleHeader
  | ruleDef => exact h.ruleDef
  | subinterfaceHeader => exact .subinterfaceHeader
  | subinterfaceDef => exact h.subinterfaceDef
  | moduleHeader => exact .moduleHeader
  | moduleStmt => exact h.moduleStmt
  | moduleDef => exact h.moduleDef
  | ifStmt dialect => exact h.ifStmt dialect
  | returnStmt dialect => exact h.returnStmt dialect
  | actionStmt dialect => exact h.actionStmt dialect
  | stmt dialect => exact h.statement dialect
  | methodProto start => exact .methodProto start
  | subinterfaceDecl start => exact .subinterfaceDecl start
  | interfaceMember => exact .interfaceMember
  | interfaceHeader => exact .interfaceHeader
  | interfaceDecl => exact .interfaceDecl
  | packageStmt => exact .packageStmt
  | exportDecl => exact .exportDecl
  | importDecl => exact .importDecl

/-- A first condition is handed back exactly if no conditional follows it, and then as it was and in the state that
the reading began in. -/
theorem Onward.chained_eq_done_iff (h : g.Onward) {c : Setting} {s s' : State} {first e : Expr} :
    g.chained first c s = (some (.done e), s') ↔
      (g.conjunctsOfConditional c s).1 = none ∧ e = first ∧ s' = s := by
  rcases hrun : g.conjunctsOfConditional c s with ⟨_ | others, s₁⟩
  · rw [h.chained_of_none first hrun]
    constructor
    · intro heq
      cases heq
      exact ⟨rfl, rfl, rfl⟩
    · rintro ⟨-, rfl, rfl⟩
      rfl
  · rw [chained_of_some first hrun]
    constructor
    · intro heq
      -- a chain that is kept goes on with a conditional
      obtain ⟨e', s₂, -, hagain⟩ := bind_eq_some.mp heq
      cases (pure_eq_some.mp hagain).1
    · exact fun heq => absurd heq.1 (Option.some_ne_none others)

end Grammar

/-- Reading ahead leaves no trace.  Whether a declaration with a type comes next is answered in the state that the
question is asked in; and where no conditional follows a condition, the condition is handed back as it was, in the
state that the reading began in.  Rewinding leads back exactly if the tokens are the same, and the diagnostics and the
declarations are still there below those that were added; and every production keeps them, wherever it starts. -/
theorem speculation_leaves_no_trace {g : Grammar} (hg : g.InUse) (c : Setting) (s : State) :
    atTypedDecl c s = (some (s.peek.any startsTyped && typeAndName c s), s) ∧
    (∀ first e s', g.chained first c s = (some (.done e), s') ↔
      (g.conjunctsOfConditional c s).1 = none ∧ e = first ∧ s' = s) ∧
    (∀ s' : State, s'.rewind s.checkpoint = s ↔
      s'.tokens = s.tokens ∧ s.diagnostics <:+ s'.diagnostics ∧ s.nodes <:+ s'.nodes) ∧
    (∀ (α : Type) (p : Parser α), g.Production p → s.Moves (p c s).2) ∧
    s.Moves (sourceUnit c s).2 :=
  ⟨atTypedDecl_eq c s, fun _ _ _ => hg.onward.chained_eq_done_iff, fun _ => State.rewind_eq_iff,
    fun _ _ hp => hp.moving hg.onward c s, Moving.sourceUnit c s⟩

/-- A condition with `&&&` behind it, where a block comes next but no question mark behind the block. -/
def unfinishedChain : String := "a &&& begin function Bool f; return p &&& q; endfunction let; x end;"

/-- Behind the first condition of the text, where a diagnostic and a declaration are there already. -/
def behindCondition : State :=
  ((State.ofText unfinishedChain).step.report ⟨0, 1⟩ (.grammar .invalidTarget)).record .package ⟨0, 1⟩

/-- What a conditional would go on with behind that condition. -/
def afterUnfinishedChain : Option (List Expr) × State :=
  Grammar.full.conjunctsOfConditional (.ofText unfinishedChain .collectAll) behindCondition

/-- In the block a function is recognised, two things are reported, and a chain of conditions is read ahead.  All that
is taken back. -/
theorem speculation_leaves_no_trace_block :
    Grammar.full.InUse ∧ Grammar.full.Production (Grammar.full.furtherConjuncts (conditionalPower + 1)) ∧
    (afterUnfinishedChain.1 = none ∧ afterUnfinishedChain.2.diagnostics.length = 3 ∧
      afterUnfinishedChain.2.nodes.length = 2) ∧
    Grammar.full.chained ⟨.var "a", ⟨0, 1⟩⟩ (.ofText unfinishedChain .collectAll) behindCondition =
      (some (.done ⟨.var "a", ⟨0, 1⟩⟩), behindCondition) ∧
    behindCondition.Moves (Grammar.full.furtherConjuncts (conditionalPower + 1) (.ofText unfinishedChain .collectAll)
      behindCondition).2 := by
  have hrun : afterUnfinishedChain.1 = none ∧ afterUnfinishedChain.2.diagnostics.length = 3 ∧
      afterUnfinishedChain.2.nodes.length = 2 := by decide +kernel
  obtain ⟨-, hchained, -, hmoves, -⟩ :=
    speculation_leaves_no_trace .full (.ofText unfinishedChain .collectAll) behindCondition
  exact ⟨.full, .furtherConjuncts _, hrun, (hchained _ _ _).mpr ⟨hrun.1, rfl, rfl⟩, hmoves _ _ (.furtherConjuncts _)⟩

end Bluespec
