import Bluespec.Grammar.Simple

/-!
# Blocks

* **`Grammar.block`** — labelled statements of one dialect between two words.
* **`Grammar.valueBlock`** — statements with a result; its last expression is the result.
* **`Grammar.interfaceExpr`** — an interface that stands for a value.
-/

namespace Bluespec.Grammar

open Bluespec.Parser

variable (g : Grammar)

/-! ## Statement blocks -/

/-- Labelled statements of a dialect between an opening and a closing word. -/
def block (dialect : Dialect) (opening closing : Keyword) : Parser Block := do
  let start ← offset
  expectKeyword opening
  let openLabel ← label
  let stmts ← items (g.innerStmt dialect)
  expectKeyword closing
  let closeLabel ← label
  return ⟨⟨openLabel, closeLabel⟩, stmts, ← spanFrom start, dialect⟩

/-! ## Blocks with a result -/

/-- Whether the next token starts a statement of a block with a result, and not the result. -/
def startsStmt : Kind → Bool
  | .keyword .let_ | .keyword .if_ | .keyword .begin | .keyword .return_ | .keyword .function
  | .keyword .module | .keyword .case | .keyword .for_ | .keyword .while_ => true
  | .punct .attrOpen | .systemIdent => true
  | _ => false

/-- Whether a statement comes next in a block with a result. -/
def atBlockStmt : Parser Bool := do
  if ((← peek).map startsStmt).getD false then return true else atTypedDecl

/-- What stands in a block with a result. -/
inductive BlockItem
  | stmt (s : Stmt)
  | result (e : Expr)

/-- A statement of a block with a result whose first expression has been read. -/
def blockStmtTail (start : Nat) (target : Expr) : Parser BlockItem := do
  let simple ← g.simpleTail target
  let form ← permitSimple .expression simple
  return .stmt ⟨form, ← spanFrom start⟩

/-- A statement of a block with a result, or the result.  An expression is the result if a closing word
follows it, behind an optional semicolon, or if operators continue it. -/
def blockItem : Parser BlockItem := do
  if ← atBlockStmt then return .stmt (← g.innerStmt .expression)
  else
    let start ← offset
    let target ← g.innerOperand
    match ← peek with
    | some (.punct .eq) | some (.punct .larrow) => g.blockStmtTail start target
    | some (.punct .semi) =>
      if (← ask fun s => s.nth 1) == some (.keyword .end_) then
        skip
        return .result target
      else g.blockStmtTail start target
    | _ =>
      let result ← g.operations 0 target
      let _ ← eat (.punct .semi)
      return .result result

/-- The next statement of a block, or its result, after the statements read so far. -/
def blockRound (read : List Stmt) : Parser (Round (List Stmt) (List Stmt × Expr)) := do
  if ← halted then fail
  else
    if ← ask State.atCloser then failExpected .expression
    else
      match ← resuming g.blockItem with
      | none => return .again read
      | some (.stmt s) => return .again (read ++ [s])
      | some (.result e) => return .done (read, e)

/-- The statements of a block and its result. -/
def blockItems : Parser (List Stmt × Expr) := repeatUntil g.blockRound []

/-- A block with a result. -/
def valueBlock : Parser ExprForm := do
  expectKeyword .begin
  let openLabel ← label
  let (stmts, result) ← g.blockItems
  expectKeyword .end_
  let closeLabel ← label
  return .valueBlock ⟨openLabel, closeLabel⟩ stmts result

/-! ## Interfaces -/

/-- One statement of an interface. -/
def interfaceStmt : Parser InterfaceStmt := do
  skipAttributes
  match ← peek with
  | some (.keyword .method) => return .method (← g.innerMethod)
  | some (.keyword .interface) => return .subinterface (← g.innerSubinterface)
  | _ => return .stmt (← g.innerStmt .expression)

/-- An interface that stands for a value. -/
def interfaceExpr : Parser ExprForm := do
  skip
  let type ← type
  expectPunct .semi
  let stmts ← items g.interfaceStmt
  expectKeyword .endinterface
  let endLabel ← label
  return .interfaceExpr type stmts endLabel

end Bluespec.Grammar
