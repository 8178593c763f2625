import Bluespec.Grammar.SourceUnit
import Bluespec.Proofs.ForwardRuns

/-!
# The grammar only moves forward

All parsers of the grammar are put together from parsers whose runs move forward, so their runs do as well: by
induction on the number of levels of the grammar, with one step for each production.

* **`Grammar.Onward`** — all parsers that an outer production calls move forward; then all productions of that
  grammar do, and **`Grammar.Onward.next`** leads one level up.
* **`Grammar.onward_upTo`** — grammars of any number of levels are such.
* **`Parser.Moving.sourceUnit`** — and so the parser of a whole source moves forward.
-/

namespace Bluespec

namespace Grammar

open Bluespec.Parser

/-- All parsers that an outer production calls move forward. -/
structure Onward (g : Grammar) : Prop where
  expr (min : Nat) : Moving (g.innerExpr min)
  operand : Moving g.innerOperand
  stmt (dialect : Dialect) : Moving (g.innerStmt dialect)
  method : Moving g.innerMethod
  subinterface : Moving g.innerSubinterface
  module : Moving g.innerModule

theorem onward_empty : empty.Onward := ⟨fun _ => .fail, .fail, fun _ => .fail, .fail, .fail, .fail⟩

namespace Onward

variable {g : Grammar} (h : g.Onward)

include h

/-! ## Suffixes and operators -/

theorem arguments : Moving g.arguments := (Moving.expectPunct _).bind fun _ => (h.expr 0).enclosed

theorem fieldBind : Moving g.fieldBind :=
  Moving.offset.bind fun start => (Moving.expectText _).bind fun _ => (Moving.expectPunct _).bind fun _ =>
    (h.expr 0).bind fun _ => .spanned start _

theorem fieldBinds : Moving g.fieldBinds :=
  (Moving.expectPunct _).bind fun _ => h.fieldBind.separated.bind fun _ => (Moving.expectPunct _).bind fun _ =>
    .value _

theorem concatItems : Moving g.concatItems :=
  (Moving.expectPunct _).bind fun _ => (h.expr 0).separated.bind fun _ => (Moving.expectPunct _).bind fun _ =>
    .value _

theorem selection (base : Expr) : Moving (g.selection base) := by
  refine Moving.skip.bind fun _ => (h.expr 0).bind fun hi => (Moving.accept _).bind fun ranged => ?_
  exact (h.expr 0).optional fun lo => (Moving.expectPunct _).bind fun _ => .value _

theorem memberOf (receiver : Expr) : Moving (g.memberOf receiver) := by
  refine Moving.skip.bind fun _ => (Moving.expectText _).bind fun name => (Moving.isNext _).bind fun called => ?_
  cases called with
  | true => exact h.arguments.bind fun _ => .value _
  | false => exact .value _

theorem suffix (operand : Expr) : Moving (g.suffix operand) := by
  refine Moving.peek.bind fun k => ?_
  split
  · exact h.arguments.bind fun _ => .spanned _ _
  · exact (h.selection operand).bind fun _ => .spanned _ _
  · exact (h.memberOf operand).bind fun _ => .spanned _ _
  · exact .value _

theorem suffixes (operand : Expr) : Moving (g.suffixes operand) := .repeatUntil h.suffix operand

theorem furtherConjuncts (min : Nat) : Moving (g.furtherConjuncts min) := by
  refine .repeatUntil (fun read => (Moving.accept _).bind fun more => ?_) []
  cases more with
  | true => exact (h.expr min).bind fun _ => .value _
  | false => exact .value _

theorem conditional (predicate : Predicate) : Moving (g.conditional predicate) :=
  (Moving.expectPunct _).bind fun _ => (h.expr 0).bind fun _ => (Moving.expectPunct _).bind fun _ =>
    (h.expr _).bind fun _ => .spanned _ _

theorem conjunctsOfConditional : Moving g.conjunctsOfConditional := by
  refine (h.furtherConjuncts _).bind fun others => (Moving.isNext _).bind fun follows => ?_
  split
  · exact .value _
  · exact .fail

/-- A chain of conditions is read ahead inside of others that are. -/
theorem chained (first : Expr) : Moving (g.chained first) := by
  refine h.conjunctsOfConditional.tentatively.bind fun others => ?_
  cases others with
  | some others =>
    exact (Moving.spanFrom _).bind fun span => (h.conditional ⟨first :: others, span⟩).bind fun _ => .value _
  | none => exact .value _

/-- Where no conditional follows a first condition, the state is what it was. -/
theorem chained_of_none {c : Setting} {s s' : State} (first : Expr)
    (hrun : g.conjunctsOfConditional c s = (none, s')) : g.chained first c s = (some (.done first), s) := by
  rw [Grammar.chained, bind_of_some (tentatively_of_none (h.conjunctsOfConditional.of_run hrun) hrun)]
  rfl

omit h in
/-- Where a conditional follows, its branches are read behind its conditions. -/
theorem chained_of_some {c : Setting} {s s' : State} {others : List Expr} (first : Expr)
    (hrun : g.conjunctsOfConditional c s = (some others, s')) :
    g.chained first c s =
      (g.conditional ⟨first :: others, s'.spanFrom first.span.start⟩ >>= fun e => pure (.again e)) c s' := by
  rw [Grammar.chained, bind_of_some (tentatively_of_some hrun)]
  rfl

theorem operation (min : Nat) (lhs : Expr) : Moving (g.operation min lhs) := by
  refine Moving.peek.bind fun k => ?_
  split
  · split
    · exact (h.conditional _).bind fun _ => .value _
    · exact .value _
  · split
    · exact h.chained lhs
    · exact .value _
  · exact Moving.skip.bind fun _ => (Moving.spanFrom _).bind fun _ => (Moving.reportUnsupported _ _).bind fun _ => .fail
  · split
    · split
      · exact Moving.skip.bind fun _ => (h.expr _).bind fun _ => .value _
      · exact .value _
    · exact .value _

theorem operations (min : Nat) (lhs : Expr) : Moving (g.operations min lhs) := .repeatUntil (h.operation min) lhs

/-! ## Simple statements -/

theorem valueAndSemicolon : Moving g.valueAndSemicolon :=
  (h.expr 0).bind fun _ => (Moving.expectPunct _).bind fun _ => .value _

theorem simpleTail (target : Expr) : Moving (g.simpleTail target) := by
  refine Moving.peek.bind fun k => ?_
  split
  · refine Moving.skip.bind fun _ => h.valueAndSemicolon.bind fun value => ?_
    split
    · exact .spanned _ _
    · exact .reportFail _ _
  · exact Moving.skip.bind fun _ => h.valueAndSemicolon.bind fun _ => .spanned _ _
  · split
    · exact Moving.skip.bind fun _ => h.valueAndSemicolon.bind fun _ => .spanned _ _
    · exact .reportFail _ _
  · exact Moving.skip.bind fun _ => .value _
  · exact .failExpected _

theorem letStmt : Moving g.letStmt := by
  refine Moving.offset.bind fun start => Moving.skip.bind fun _ => (Moving.expect _).bind fun name => ?_
  refine (Moving.accept _).bind fun bound => ?_
  cases bound with
  | true => exact h.valueAndSemicolon.bind fun _ => .spanned _ _
  | false =>
    exact (Moving.expectPunct _).bind fun _ => (h.expr 0).bind fun _ => (Moving.spanFrom _).bind fun _ =>
      (Moving.expectPunct _).bind fun _ => .spanned _ _

theorem dimensions : Moving g.dimensions := by
  refine .repeatUntil (fun read => (Moving.accept _).bind fun more => ?_) []
  cases more with
  | true => exact (h.expr 0).bind fun _ => (Moving.expectPunct _).bind fun _ => .value _
  | false => exact .value _

theorem declaratorTail (name : Token) : Moving (g.declaratorTail name) :=
  h.dimensions.bind fun _ => (Moving.accept _).bind fun _ => (h.expr 0).optional fun _ => .spanned _ _

theorem declarator : Moving g.declarator := (Moving.expect _).bind h.declaratorTail

theorem typedStmt : Moving g.typedStmt := by
  refine Moving.offset.bind fun start => Moving.type.bind fun type => (Moving.expect _).bind fun name => ?_
  refine (Moving.accept _).bind fun bound => ?_
  cases bound with
  | true => exact h.valueAndSemicolon.bind fun _ => .spanned _ _
  | false =>
    refine (h.declaratorTail name).bind fun first => (Moving.accept _).bind fun more => ?_
    cases more with
    | true => exact h.declarator.separated.bind fun _ => (Moving.expectPunct _).bind fun _ => .spanned _ _
    | false => exact (Moving.value []).bind fun _ => (Moving.expectPunct _).bind fun _ => .spanned _ _

/-! ## Blocks -/

theorem block (dialect : Dialect) (opening closing : Keyword) : Moving (g.block dialect opening closing) :=
  Moving.offset.bind fun start => (Moving.expectKeyword _).bind fun _ => Moving.label.bind fun _ =>
    (h.stmt dialect).items.bind fun _ => (Moving.expectKeyword _).bind fun _ => Moving.label.bind fun _ =>
      .spanned start _

theorem blockStmtTail (start : Nat) (target : Expr) : Moving (g.blockStmtTail start target) :=
  (h.simpleTail target).bind fun simple => (Moving.permitSimple _ simple).bind fun _ => .spanned start _

theorem blockItem : Moving g.blockItem := by
  have hstarts : Moving atBlockStmt := by
    refine Moving.peek.bind fun k => ?_
    split
    · exact .value _
    · exact .atTypedDecl
  refine hstarts.bind fun starts => ?_
  cases starts with
  | true => exact (h.stmt _).bind fun _ => .value _
  | false =>
    refine Moving.offset.bind fun start => h.operand.bind fun target => Moving.peek.bind fun k => ?_
    split
    · exact h.blockStmtTail start target
    · exact h.blockStmtTail start target
    · refine (Moving.ask _).bind fun second => ?_
      split
      · exact Moving.skip.bind fun _ => .value _
      · exact h.blockStmtTail start target
    · exact (h.operations 0 target).bind fun _ => (Moving.eat _).bind fun _ => .value _

theorem blockRound (read : List Stmt) : Moving (g.blockRound read) := by
  refine Moving.halted.bind fun halts => ?_
  split
  · exact .fail
  · refine (Moving.ask _).bind fun closes => ?_
    split
    · exact .failExpected _
    · refine h.blockItem.resuming.bind fun item => ?_
      split <;> exact .value _

theorem blockItems : Moving g.blockItems := .repeatUntil h.blockRound []

theorem valueBlock : Moving g.valueBlock :=
  (Moving.expectKeyword _).bind fun _ => Moving.label.bind fun _ => h.blockItems.bind fun _ =>
    (Moving.expectKeyword _).bind fun _ => Moving.label.bind fun _ => .value _

theorem interfaceStmt : Moving g.interfaceStmt := by
  refine Moving.skipAttributes.bind fun _ => Moving.peek.bind fun k => ?_
  split
  · exact h.method.bind fun _ => .value _
  · exact h.subinterface.bind fun _ => .value _
  · exact (h.stmt _).bind fun _ => .value _

theorem interfaceExpr : Moving g.interfaceExpr :=
  Moving.skip.bind fun _ => Moving.type.bind fun _ => (Moving.expectPunct _).bind fun _ =>
    h.interfaceStmt.items.bind fun _ => (Moving.expectKeyword _).bind fun _ => Moving.label.bind fun _ => .value _

/-! ## Expressions -/

theorem payload : Moving g.payload := by
  refine Moving.peek.bind fun k => ?_
  split
  · exact h.fieldBinds.bind fun _ => .value _
  · split
    · exact h.operand.bind fun _ => .value _
    · exact .value _
  · exact .value _

theorem primary : Moving g.primary := by
  refine Moving.offset.bind fun start => ?_
  have hplain : ∀ form, Moving (spanFrom start >>= fun span => pure (Expr.mk form span)) := fun _ => .spanned start _
  refine Moving.peek.bind fun k => ?_
  split
  · exact (Moving.expectText _).bind fun _ => hplain _
  · refine (Moving.expectText _).bind fun name => (Moving.isNext _).bind fun braced => ?_
    split
    · exact h.fieldBinds.bind fun _ => hplain _
    · exact hplain _
  · exact (Moving.literal _).bind fun _ => hplain _
  · exact (Moving.literal _).bind fun _ => hplain _
  · exact (Moving.literal _).bind fun _ => hplain _
  · exact (Moving.literal _).bind fun _ => hplain _
  · exact Moving.skip.bind fun _ => hplain _
  · exact Moving.skip.bind fun _ => (h.expr 0).bind fun _ => (Moving.expectPunct _).bind fun _ => hplain _
  · exact h.concatItems.bind fun _ => hplain _
  · exact h.valueBlock.bind fun _ => hplain _
  · exact (h.block _ _ _).bind fun _ => hplain _
  · exact (h.block _ _ _).bind fun _ => hplain _
  · exact Moving.skip.bind fun _ => (Moving.expectText _).bind fun _ => h.payload.bind fun _ => hplain _
  · exact h.interfaceExpr.bind fun _ => hplain _
  · exact Moving.skip.bind fun _ => (Moving.expectPunct _).bind fun _ => Moving.type.bind fun _ =>
      (Moving.expectPunct _).bind fun _ => hplain _
  · exact Moving.systemCall.bind fun _ => (Moving.reportUnsupported _ _).bind fun _ => .fail
  · exact .failExpected _

theorem suffixed : Moving g.operand := h.primary.bind h.suffixes

theorem unaryOperand (start : Nat) (op : UnaryOp) : Moving (g.unaryOperand start op) := by
  have hinner : Moving (g.innerExpr unaryPower >>= fun inner => spanFrom start >>= fun span =>
      pure (Expr.mk (.unary op inner) span)) := (h.expr _).bind fun _ => .spanned start _
  unfold Grammar.unaryOperand
  split
  · refine (Moving.isNext _).bind fun digits => ?_
    split
    · refine h.primary.bind fun lit => ?_
      split
      · exact .spanned start _
      · exact (h.suffixes lit).bind fun e => (h.operations _ e).bind fun _ => .spanned start _
    · exact hinner
  · exact hinner

theorem unary : Moving g.unary := by
  refine Moving.peek.bind fun k => ?_
  split
  · exact h.primary
  · exact Moving.offset.bind fun start => Moving.skip.bind fun _ => h.unaryOperand start _

theorem operated (min : Nat) : Moving (g.expr min) :=
  h.unary.bind fun e => (h.suffixes e).bind fun e => h.operations min e

theorem predicate : Moving g.predicate :=
  Moving.offset.bind fun start => (h.expr 0).bind fun _ => (h.furtherConjuncts 0).bind fun _ => .spanned start _

theorem parenPredicate : Moving g.parenPredicate :=
  (Moving.expectPunct _).bind fun _ => h.predicate.bind fun _ => (Moving.expectPunct _).bind fun _ => .value _

/-! ## Definitions -/

theorem simple : Moving g.simple := by
  refine (Moving.isNext _).bind fun lets => ?_
  split
  · exact h.letStmt
  · refine Moving.atTypedDecl.bind fun typed => ?_
    split
    · exact h.typedStmt
    · exact h.suffixed.bind h.simpleTail

theorem returned : Moving g.returned := Moving.skip.bind fun _ => h.valueAndSemicolon

theorem skipUnsupported (dialect : Dialect) : Moving (g.skipUnsupported dialect) := by
  refine Moving.offset.bind fun start => Moving.peek.bind fun k => ?_
  split
  · exact (Moving.skipExtent _).bind fun _ => Moving.label.bind fun _ => (Moving.spanFrom _).bind fun _ =>
      .reportUnsupported _ _
  · exact Moving.skip.bind fun _ => Moving.skipParenthesized.bind fun _ => (Moving.spanFrom _).bind fun _ =>
      (Moving.reportUnsupported _ _).bind fun _ => (h.stmt dialect).resuming.bind fun _ => .value _

theorem body (dialect : Dialect) (closing : Keyword) : Moving (g.body dialect closing) := by
  refine (Moving.ask _).bind fun lone => .choice h.primary.resuming (.value none) fun block => ?_
  cases block with
  | some e => exact (Moving.eat _).bind fun _ => .value _
  | none => exact (h.stmt dialect).items.bind fun _ => .value _

theorem functionDef : Moving g.functionDef := Moving.functionHeader.definition fun _ => h.body _ _

theorem methodHeader : Moving g.methodHeader := by
  refine Moving.skip.bind fun _ => (Moving.ask _).bind fun named => ?_
  refine .choice (.value none) (Moving.type.map some) fun result => ?_
  exact (Moving.expectText _).bind fun _ => (Moving.formalsIfAny _).bind fun _ => (Moving.accept _).bind fun _ =>
    h.parenPredicate.optional fun _ => (Moving.expectPunct _).bind fun _ => .value _

theorem methodDef : Moving g.methodDef := h.methodHeader.definition fun _ => h.body _ _

theorem ruleHeader : Moving g.ruleHeader :=
  Moving.skip.bind fun _ => (Moving.expectText _).bind fun _ => (Moving.isNext _).bind fun _ =>
    h.parenPredicate.optional fun _ => (Moving.expectPunct _).bind fun _ => .value _

theorem ruleDef : Moving g.ruleDef := h.ruleHeader.definition fun _ => (h.stmt _).items

theorem subinterfaceDef : Moving g.subinterfaceDef :=
  Moving.subinterfaceHeader.definition fun _ => h.interfaceStmt.items

theorem simpleModuleStmt : Moving g.simpleModuleStmt := by
  refine h.simple.bind fun stmt => ?_
  cases stmt with
  | varDecl d => exact (Moving.record _ _).bind fun _ => .value _
  | assign a => exact (Moving.record _ _).bind fun _ => .value _
  | bind b => exact .value _
  | expr e => exact .value _
  | regWrite w => exact .failMisplaced _ _

theorem moduleStmt : Moving g.moduleStmt := by
  refine Moving.skipAttributes.bind fun _ => Moving.peek.bind fun k => ?_
  have hskip : Moving (g.skipUnsupported .action >>= fun _ => (fail : Parser ModuleStmt)) :=
    (h.skipUnsupported _).bind fun _ => .fail
  split
  · exact h.methodDef.bind fun _ => .value _
  · exact h.subinterfaceDef.bind fun _ => .value _
  · exact h.ruleDef.bind fun _ => .value _
  · exact h.returned.bind fun _ => .value _
  · exact h.functionDef.bind fun _ => .value _
  · exact h.module.bind fun _ => .value _
  · exact hskip
  · exact hskip
  · exact hskip
  · exact Moving.systemCall.bind fun _ => (Moving.eat _).bind fun _ => (Moving.reportUnsupported _ _).bind fun _ =>
      .fail
  · exact h.simpleModuleStmt

theorem moduleDef : Moving g.moduleDef := Moving.moduleHeader.definition fun _ => h.moduleStmt.items

/-! ## Statements -/

theorem ifStmt (dialect : Dialect) : Moving (g.ifStmt dialect) :=
  Moving.skip.bind fun _ => h.parenPredicate.bind fun _ => (h.stmt dialect).bind fun _ =>
    (Moving.accept _).bind fun _ => (h.stmt dialect).optional fun _ => .value _

theorem returnStmt (dialect : Dialect) : Moving (g.returnStmt dialect) :=
  Moving.peekSpan.bind fun _ => h.returned.bind fun _ => (Moving.permit _ _ _).bind fun _ => .value _

theorem actionStmt (dialect : Dialect) : Moving (g.actionStmt dialect) :=
  Moving.peekSpan.bind fun _ => h.suffixed.bind fun _ => (Moving.eat _).bind fun _ =>
    (Moving.permit _ _ _).bind fun _ => .value _

theorem stmtForm (dialect : Dialect) : Moving (g.stmtForm dialect) := by
  refine Moving.peek.bind fun k => ?_
  have hskip : Moving (g.skipUnsupported dialect >>= fun _ => (fail : Parser StmtForm)) :=
    (h.skipUnsupported _).bind fun _ => .fail
  split
  · exact (h.block _ _ _).bind fun _ => .value _
  · exact h.ifStmt dialect
  · exact h.returnStmt dialect
  · exact h.functionDef.bind fun _ => .value _
  · exact h.moduleDef.bind fun _ => .value _
  · exact hskip
  · exact hskip
  · exact hskip
  · exact (Moving.systemTask dialect).bind fun _ => .fail
  · exact h.actionStmt dialect
  · exact h.actionStmt dialect
  · exact .failExpected _
  · exact h.simple.bind fun _ => .permitSimple _ _

theorem statement (dialect : Dialect) : Moving (g.stmt dialect) :=
  Moving.skipAttributes.bind fun _ => Moving.offset.bind fun start => (h.stmtForm dialect).bind fun _ =>
    .spanned start _

/-- One level up. -/
theorem next : g.next.Onward :=
  ⟨h.operated, h.suffixed, h.statement, h.methodDef, h.subinterfaceDef, h.moduleDef⟩

end Onward

/-- Grammars of any number of levels only move forward, also where they have too few of them. -/
theorem onward_upTo (n : Nat) : (upTo n).Onward := by
  induction n with
  | zero => exact onward_empty
  | succ n ih => exact ih.next

end Grammar

namespace Parser.Moving

/-! ## Source units -/

variable {α : Type}

theorem withGrammar {production : Grammar → Parser α} (h : ∀ {g : Grammar}, g.Onward → Moving (production g)) :
    Moving (withGrammar production) := fun c s => h (Grammar.onward_upTo s.rest.length) c s

theorem nameList (reader : ListReader α) (kind : NodeKind) : Moving (nameList reader kind) := by
  intro c s
  have hadvance : s.Moves (s.advance (Extent.nameList s.rest)) := .advance s _
  unfold Parser.nameList
  dsimp only
  split
  · exact hadvance.trans (.record _ _ _)
  · exact hadvance.trans (.reported _ _)

theorem exportDecl : Moving exportDecl := (nameList _ _).bind fun _ => value _

theorem importDecl : Moving importDecl := (nameList _ _).bind fun _ => value _

theorem methodProto (start : Nat) : Moving (methodProto start) :=
  skip.bind fun _ => type.bind fun _ => (expectText _).bind fun _ => (formalsIfAny false).bind fun _ =>
    (expectPunct _).bind fun _ => spanned start _

theorem subinterfaceDecl (start : Nat) : Moving (subinterfaceDecl start) :=
  subinterfaceHeader.bind fun _ => spanned start _

theorem interfaceMember : Moving interfaceMember := by
  refine skipAttributes.bind fun _ => offset.bind fun start => peek.bind fun k => ?_
  split
  · exact (methodProto start).bind fun _ => value _
  · exact (subinterfaceDecl start).bind fun _ => value _
  · exact failExpected _

theorem interfaceHeader : Moving interfaceHeader := by
  refine skip.bind fun _ => (expectText _).bind fun name => (isNext _).bind fun generic => ?_
  have hrest : ∀ formals : List TypeFormal, Moving (Parser.expectPunct .semi >>= fun _ => pure (name, formals)) :=
    fun _ => (expectPunct _).bind fun _ => value _
  cases generic with
  | true => exact typeFormals.bind hrest
  | false => exact (value []).bind hrest

theorem interfaceDecl : Moving interfaceDecl := interfaceHeader.definition fun _ => interfaceMember.items

theorem skipUnsupportedDecl : Moving skipUnsupportedDecl := by
  refine offset.bind fun start => peek.bind fun k => ?_
  have hreport : ∀ construct, Moving (Parser.spanFrom start >>= fun span => Parser.reportUnsupported span construct) :=
    fun _ => (spanFrom start).bind fun _ => reportUnsupported _ _
  split
  · exact (skipExtent _).bind fun _ => label.bind fun _ => hreport _
  · exact (skipExtent _).bind fun _ => label.bind fun _ => hreport _
  · exact (skipExtent _).bind fun _ => hreport _

theorem simplePackageStmt : Moving simplePackageStmt := by
  refine (withGrammar Grammar.Onward.simple).bind fun stmt => ?_
  cases stmt with
  | varDecl d => exact (record _ _).bind fun _ => value _
  | assign a => exact (record _ _).bind fun _ => value _
  | bind b => exact failMisplaced _ _
  | expr e => exact failMisplaced _ _
  | regWrite w => exact failMisplaced _ _

theorem packageStmt : Moving packageStmt := by
  refine skipAttributes.bind fun _ => peek.bind fun k => ?_
  have hskip : Moving (Parser.skipUnsupportedDecl >>= fun _ => (Parser.fail : Parser PackageStmt)) :=
    skipUnsupportedDecl.bind fun _ => fail
  split
  · exact interfaceDecl.bind fun _ => value _
  · exact (withGrammar Grammar.Onward.moduleDef).bind fun _ => value _
  · exact (withGrammar Grammar.Onward.functionDef).bind fun _ => value _
  · exact hskip
  · exact hskip
  · exact hskip
  · exact failExpected _
  · exact simplePackageStmt

theorem packageItem (body : PackageBody) (k : Kind) : Moving (packageItem body k) := by
  unfold Parser.packageItem
  split
  · exact exportDecl.attempt.bind fun _ => value _
  · exact importDecl.attempt.bind fun _ => value _
  · split
    · exact peekSpan.bind fun _ => (report _ _).bind fun _ => skip.bind fun _ => value _
    · exact packageStmt.resuming.bind fun _ => value _

theorem packageRound (inPackage : Bool) (body : PackageBody) : Moving (packageRound inPackage body) := by
  refine halted.bind fun halts => ?_
  split
  · exact value _
  · refine peek.bind fun k => ?_
    split
    · exact value _
    · split
      · exact value _
      · exact (packageItem body _).bind fun _ => value _

theorem packageBody (inPackage : Bool) : Moving (packageBody inPackage) := repeatUntil (packageRound inPackage) _

theorem packageHeader : Moving packageHeader := by
  refine skip.bind fun _ => (expectText _).attempt.bind fun name => (expectPunct _).attempt.bind fun semi => ?_
  split
  · exact (skipExtent _).bind fun _ => value _
  · exact value _

theorem packageEnd : Moving packageEnd := by
  refine (expectKeyword _).attempt.bind fun closed => ?_
  split
  · exact label
  · exact value _

theorem package : Moving package :=
  offset.bind fun start => packageHeader.bind fun _ => (packageBody true).bind fun _ => packageEnd.bind fun _ =>
    (spanFrom start).bind fun _ => (record _ _).bind fun _ => value _

theorem sourceUnit : Moving sourceUnit := by
  refine (isNext _).bind fun packaged => ?_
  split
  · refine package.bind fun p => (ask _).bind fun ended => halted.bind fun halts => ?_
    split
    · exact (reportExpected _).bind fun _ => value _
    · exact value _
  · exact (packageBody false).bind fun _ => value _

end Parser.Moving

end Bluespec
