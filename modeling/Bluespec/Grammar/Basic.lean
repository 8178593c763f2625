import Bluespec.Grammar.TypeExpr

/-!
# The parts of a grammar that refer back to it

Expressions, statements and definitions contain each other.  A **`Grammar`** holds parsers for what stands
*inside* a production; from them the productions of the next level are built, and **`Grammar.upTo`**, at the
end, ties the knot.  An inner parser is called only after its production has read a token, so the number
of tokens left bounds the number of levels.

* **`Grammar.arguments`**, **`Grammar.fieldBinds`** — bracketed lists.
* **`Grammar.suffixes`** — calls, selections and members after an operand.
* **`Grammar.operations`** — binary operators and conditionals after an operand.
-/

namespace Bluespec

/-- Parsers for what stands inside a production. -/
structure Grammar where
  /-- An expression whose operators bind at least as tightly as a power. -/
  innerExpr : Nat → Parser Expr
  /-- An operand with its suffixes. -/
  innerOperand : Parser Expr
  /-- A statement of a dialect. -/
  innerStmt : Dialect → Parser Stmt
  /-- A method. -/
  innerMethod : Parser MethodDef
  /-- A definition of an interface inside another. -/
  innerSubinterface : Parser SubinterfaceDef
  /-- A module. -/
  innerModule : Parser ModuleDef

namespace Grammar

open Bluespec.Parser

/-- The grammar that reads nothing. -/
def empty : Grammar where
  innerExpr _ := fail
  innerOperand := fail
  innerStmt _ := fail
  innerMethod := fail
  innerSubinterface := fail
  innerModule := fail

variable (g : Grammar)

/-! ## Bracketed lists -/

/-- The arguments of a call. -/
def arguments : Parser (List Expr) := do
  expectPunct .lparen
  enclosed .rparen (g.innerExpr 0)

/-- One field with its value. -/
def fieldBind : Parser FieldBind := do
  let start ← offset
  let field ← expectText .ident
  expectPunct .colon
  let value ← g.innerExpr 0
  return ⟨field, value, ← spanFrom start⟩

/-- One or more fields with their values. -/
def fieldBinds : Parser (List FieldBind) := do
  expectPunct .lbrace
  let members ← separated .comma g.fieldBind
  expectPunct .rbrace
  return members

/-- The parts of a concatenation. -/
def concatItems : Parser (List Expr) := do
  expectPunct .lbrace
  let items ← separated .comma (g.innerExpr 0)
  expectPunct .rbrace
  return items

/-! ## Suffixes -/

/-- The bits that are selected from a base. -/
def selection (base : Expr) : Parser ExprForm := do
  skip
  let hi ← g.innerExpr 0
  let lo ← if ← accept (.punct .colon) then some <$> g.innerExpr 0 else pure none
  expectPunct .rbracket
  return .select base hi lo

/-- The field or method of a receiver. -/
def memberOf (receiver : Expr) : Parser ExprForm := do
  skip
  let name ← expectText .ident
  if ← isNext (.punct .lparen) then return .methodCall receiver name (← g.arguments)
  else return .field receiver name

/-- One suffix of an operand, or its end. -/
def suffix (operand : Expr) : Parser (Round Expr Expr) := do
  match ← peek with
  | some (.punct .lparen) =>
    let form := ExprForm.call operand (← g.arguments)
    return .again ⟨form, ← spanFrom operand.span.start⟩
  | some (.punct .lbracket) =>
    let form ← g.selection operand
    return .again ⟨form, ← spanFrom operand.span.start⟩
  | some (.punct .dot) =>
    let form ← g.memberOf operand
    return .again ⟨form, ← spanFrom operand.span.start⟩
  | _ => return .done operand

/-- All suffixes of an operand. -/
def suffixes (operand : Expr) : Parser Expr := repeatUntil g.suffix operand

/-! ## Operators -/

/-- Further conditions, each behind its operator, whose own operators bind at least as tightly as `min`. -/
def furtherConjuncts (min : Nat) : Parser (List Expr) :=
  repeatUntil (fun read : List Expr => do
    if ← accept (.punct .ampAmpAmp) then return .again (read ++ [← g.innerExpr min])
    else return .done read) []

/-- The two branches of a conditional after its predicate. -/
def conditional (predicate : Predicate) : Parser Expr := do
  expectPunct .question
  let thenBranch ← g.innerExpr 0
  expectPunct .colon
  let elseBranch ← g.innerExpr conditionalPower
  return ⟨.cond predicate thenBranch elseBranch, ← spanFrom predicate.span.start⟩

/-- Further conditions of a conditional; a chain of them that no conditional follows is not read here. -/
def conjunctsOfConditional : Parser (List Expr) := do
  let others ← g.furtherConjuncts (conditionalPower + 1)
  if !others.isEmpty && (← isNext (.punct .question)) then return others
  else fail

/-- The operation between a first condition and further ones: a conditional, if one follows them.  Otherwise
there is no operation here. -/
def chained (first : Expr) : Parser (Round Expr Expr) := do
  match ← tentatively g.conjunctsOfConditional with
  | some others => return .again (← g.conditional ⟨first :: others, ← spanFrom first.span.start⟩)
  | none => return .done first

/-- One operation on a left operand, or the end of the operations that bind at least as tightly as
`min`. -/
def operation (min : Nat) (lhs : Expr) : Parser (Round Expr Expr) := do
  match ← peek with
  | some (.punct .question) =>
    if min ≤ conditionalPower then return .again (← g.conditional ⟨[lhs], lhs.span⟩)
    else return .done lhs
  | some (.punct .ampAmpAmp) =>
    if min ≤ conditionalPower then g.chained lhs else return .done lhs
  | some (.keyword .matches_) =>
    skip
    reportUnsupported (← spanFrom lhs.span.start) .patternMatch
    fail
  | next =>
    match next.bind BinaryOp.ofKind? with
    | some op =>
      if min ≤ op.power then
        skip
        let rhs ← g.innerExpr (op.power + 1)
        return .again ⟨.binary op lhs rhs, ⟨lhs.span.start, rhs.span.stop⟩⟩
      else return .done lhs
    | none => return .done lhs

/-- All operations on a left operand that bind at least as tightly as `min`. -/
def operations (min : Nat) (lhs : Expr) : Parser Expr := repeatUntil (g.operation min) lhs

end Grammar

end Bluespec
