import Bluespec.Grammar.Expression

/-!
# Definitions

* **`Grammar.simple`** — a simple statement.
* **`Grammar.functionDef`**, **`Grammar.methodDef`**, **`Grammar.ruleDef`** — definitions with statements of one
  dialect as their body.
* **`Grammar.moduleDef`**, **`Grammar.subinterfaceDef`** — definitions with statements of their own.

A definition whose header is broken is stepped over as a whole.
-/

namespace Bluespec.Grammar

open Bluespec.Parser

variable (g : Grammar)

/-! ## Statements that definitions share -/

/-- A simple statement. -/
def simple : Parser SimpleStmt := do
  if ← isNext (.keyword .let_) then g.letStmt
  else
    if ← atTypedDecl then g.typedStmt
    else g.simpleTail (← g.operand)

/-- A returned value. -/
def returned : Parser Expr := do
  skip
  g.valueAndSemicolon

/-- Steps over a case statement, or over the head of a loop, and reports it.  The body of a loop is still
read, so that problems in it are found. -/
def skipUnsupported (dialect : Dialect) : Parser Unit := do
  let start ← offset
  match ← peek with
  | some (.keyword .case) =>
    skipThrough .case .endcase
    let _ ← label
    reportUnsupported (← spanFrom start) .case
  | next =>
    skip
    skipParenthesized
    reportUnsupported (← spanFrom start)
      (if next = some (.keyword .for_) then .for_ else .while_)
    let _ ← resuming (g.innerStmt dialect)

/-! ## Bodies -/

/-- The dialect of the body of a method with the given result. -/
def methodDialect (result : Option TypeExpr) : Dialect :=
  match result with
  | none => .action
  | some type =>
    if type.name? = some "Action" then .action
    else if type.name? = some "ActionValue" then .actionValue
    else .functionBody

/-- Whether an action block comes next with nothing between it and the closing word of the body. -/
def atLoneBlock (closing : Keyword) : Parser Bool :=
  ask fun s =>
    (s.isNext (.keyword .action) || s.isNext (.keyword .actionvalue)) &&
      afterActionBlock s.rest == some (.keyword closing)

/-- The body of a method or function: one action block, or statements of a dialect. -/
def body (dialect : Dialect) (closing : Keyword) : Parser Body := do
  let block ← if ← atLoneBlock closing then resuming g.primary else pure none
  match block with
  | some e =>
    let _ ← eat (.punct .semi)
    return .block e
  | none => return .stmts dialect (← items (g.innerStmt dialect))

/-- The closing word of a definition that began at `start`, with its label; records the definition. -/
def ending (closing : Keyword) (kind : NodeKind) (start : Nat) : Parser (Option Label × Span) := do
  expectKeyword closing
  let endLabel ← label
  let span ← spanFrom start
  record kind span
  return (endLabel, span)

/-! ## Functions, methods and rules -/

/-- The header of a function: result, name and formals. -/
def functionHeader : Parser (TypeExpr × String × List Formal) := do
  skip
  let result ← type
  let name ← expectText .ident
  let formals ← formalsIfAny false
  skipProvisos
  expectPunct .semi
  return (result, name, formals)

/-- A function. -/
def functionDef : Parser FunctionDef := do
  let start ← offset
  let (result, name, formals) ← header .endfunction functionHeader
  let body ← g.body .functionBody .endfunction
  let (endLabel, span) ← ending .endfunction .functionDef start
  return ⟨result, name, formals, body, endLabel, span⟩

/-- Whether the name of a method comes next, with no type before it. -/
def atMethodName : Parser Bool :=
  ask fun s => s.isNext .ident &&
    (s.nth 1 == some (.punct .lparen) || s.nth 1 == some (.punct .semi) ||
      s.nth 1 == some (.keyword .if_))

/-- The header of a method: result, name, formals and guard. -/
def methodHeader : Parser (Option TypeExpr × String × List Formal × Option Predicate) := do
  skip
  let result ← if ← atMethodName then pure none else some <$> type
  let name ← expectText .ident
  let formals ← formalsIfAny true
  let guard ← if ← accept (.keyword .if_) then some <$> g.parenPredicate else pure none
  expectPunct .semi
  return (result, name, formals, guard)

/-- A method. -/
def methodDef : Parser MethodDef := do
  let start ← offset
  let (result, name, formals, guard) ← header .endmethod g.methodHeader
  let body ← g.body (methodDialect result) .endmethod
  let (endLabel, span) ← ending .endmethod .methodDef start
  return ⟨result, name, formals, guard, body, endLabel, span⟩

/-- The header of a rule: name and guard. -/
def ruleHeader : Parser (String × Option Predicate) := do
  skip
  let name ← expectText .ident
  let guard ← if ← isNext (.punct .lparen) then some <$> g.parenPredicate else pure none
  expectPunct .semi
  return (name, guard)

/-- A rule. -/
def ruleDef : Parser RuleDef := do
  let start ← offset
  let (name, guard) ← header .endrule g.ruleHeader
  let body ← items (g.innerStmt .action)
  let (endLabel, span) ← ending .endrule .rule start
  return ⟨name, guard, body, endLabel, span⟩

/-! ## Interfaces and modules -/

/-- The header of an interface that is defined inside another definition. -/
def subinterfaceHeader : Parser (TypeExpr × String) := do
  skip
  let type ← type
  let name ← expectText .ident
  expectPunct .semi
  return (type, name)

/-- A definition of an interface inside another definition. -/
def subinterfaceDef : Parser SubinterfaceDef := do
  let start ← offset
  let (type, name) ← header .endinterface subinterfaceHeader
  let stmts ← items g.interfaceStmt
  let (endLabel, span) ← ending .endinterface .subinterfaceDef start
  return ⟨type, name, stmts, endLabel, span⟩

/-- The type of context of a module, in square brackets. -/
def moduleContext : Parser (Option TypeExpr) := do
  if ← accept (.punct .lbracket) then
    let type ← type
    expectPunct .rbracket
    return some type
  else return none

/-- The header of a module: context, name, parameters and arguments. -/
def moduleHeader : Parser (Option TypeExpr × String × List ModuleParam × List ModuleArg) := do
  skip
  let context ← moduleContext
  let name ← expectText .ident
  let params ← moduleParams
  let args ← moduleArgs
  skipProvisos
  expectPunct .semi
  return (context, name, params, args)

/-- A simple statement of a module; a register write may not stand there. -/
def simpleModuleStmt : Parser ModuleStmt := do
  match ← g.simple with
  | .varDecl d =>
    record .varDecl d.span
    return .varDecl d
  | .assign a =>
    record .varAssign a.span
    return .assign a
  | .bind b => return .bind b
  | .expr e => return .expr e
  | .regWrite w => failMisplaced (.regWrite w) .moduleBody

/-- One statement of a module. -/
def moduleStmt : Parser ModuleStmt := do
  skipAttributes
  match ← peek with
  | some (.keyword .method) => return .method (← g.methodDef)
  | some (.keyword .interface) => return .subinterface (← g.subinterfaceDef)
  | some (.keyword .rule) => return .rule (← g.ruleDef)
  | some (.keyword .return_) => return .return_ (← g.returned)
  | some (.keyword .function) => return .function (← g.functionDef)
  | some (.keyword .module) => return .module (← g.innerModule)
  | some (.keyword .case) | some (.keyword .for_) | some (.keyword .while_) =>
    g.skipUnsupported .action
    fail
  | some .systemIdent =>
    let span ← systemCall
    let _ ← eat (.punct .semi)
    reportUnsupported span .systemCall
    fail
  | _ => g.simpleModuleStmt

/-- A module. -/
def moduleDef : Parser ModuleDef := do
  let start ← offset
  let (context, name, params, args) ← header .endmodule moduleHeader
  let stmts ← items g.moduleStmt
  let (endLabel, span) ← ending .endmodule .moduleDef start
  return ⟨context, name, params, args, stmts, endLabel, span⟩

end Bluespec.Grammar
