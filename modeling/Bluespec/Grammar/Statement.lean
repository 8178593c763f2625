import Bluespec.Grammar.Definition

/-!
# Statements and the whole grammar

* **`Grammar.stmt`** — a statement of a dialect.
* **`Grammar.next`** — the grammar one level up: its inner parsers are the productions of the level below.
* **`Grammar.upTo`** — the grammar with a given number of levels, and **`Parser.withGrammar`**, a parser that
  is given as many levels as there are tokens left.
-/

namespace Bluespec

namespace Grammar

open Bluespec.Parser

variable (g : Grammar)

/-! ## Statements -/

/-- A conditional; the second branch belongs to the nearest one without. -/
def ifStmt (dialect : Dialect) : Parser StmtForm := do
  skip
  let predicate ← g.parenPredicate
  let thenBranch ← g.innerStmt dialect
  let elseBranch ←
    if ← accept (.keyword .else_) then some <$> g.innerStmt dialect else pure none
  return .cond predicate thenBranch elseBranch

/-- Steps over a system task and reports it. -/
def systemTask (dialect : Dialect) : Parser Unit := do
  let span ← systemCall
  let _ ← eat (.punct .semi)
  permit dialect .systemTask span
  reportUnsupported span .systemCall

/-- A returned value, where the dialect permits one. -/
def returnStmt (dialect : Dialect) : Parser StmtForm := do
  let span ← peekSpan
  let e ← g.returned
  permit dialect .return_ span
  return .return_ e

/-- An action block as a statement, where the dialect permits one. -/
def actionStmt (dialect : Dialect) : Parser StmtForm := do
  let span ← peekSpan
  let e ← g.operand
  let _ ← eat (.punct .semi)
  permit dialect .actionBlock span
  return .expr e

/-- The form of a statement of a dialect. -/
def stmtForm (dialect : Dialect) : Parser StmtForm := do
  match ← peek with
  | some (.keyword .begin) => return .block (← g.block dialect .begin .end_)
  | some (.keyword .if_) => g.ifStmt dialect
  | some (.keyword .return_) => g.returnStmt dialect
  | some (.keyword .function) => return .function (← g.functionDef)
  | some (.keyword .module) => return .module (← g.moduleDef)
  | some (.keyword .case) | some (.keyword .for_) | some (.keyword .while_) =>
    g.skipUnsupported dialect
    fail
  | some .systemIdent =>
    systemTask dialect
    fail
  | some (.keyword .action) | some (.keyword .actionvalue) => g.actionStmt dialect
  | none => failExpected .statement
  | some _ => permitSimple dialect (← g.simple)

/-- A statement of a dialect.  Where it fails, a problem has been reported. -/
def stmt (dialect : Dialect) : Parser Stmt := do
  skipAttributes
  let start ← offset
  let form ← g.stmtForm dialect
  return ⟨form, ← spanFrom start⟩

/-! ## Tying the knot -/

/-- The grammar one level up. -/
def next (g : Grammar) : Grammar where
  innerExpr := g.expr
  innerOperand := g.operand
  innerStmt := g.stmt
  innerMethod := g.methodDef
  innerSubinterface := g.subinterfaceDef
  innerModule := g.moduleDef

/-- The grammar with the given number of levels. -/
def upTo : Nat → Grammar
  | 0 => empty
  | n + 1 => (upTo n).next

end Grammar

namespace Parser

/-- A production with as many inner levels as there are tokens left. -/
def withGrammar (production : Grammar → Parser α) : Parser α := fun c s =>
  production (Grammar.upTo s.rest.length) c s

end Parser

end Bluespec
