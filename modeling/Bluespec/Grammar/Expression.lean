import Bluespec.Grammar.Block

/-!
# Expressions

* **`Grammar.primary`** — an expression with no operator around it.
* **`Grammar.operand`** — a primary with its suffixes.
* **`Grammar.expr`** — unary operators, an operand, and the operations on it.
* **`Grammar.predicate`** — conditions that must all hold.
-/

namespace Bluespec

/-- The literal that a token denotes. -/
def Literal.ofToken (t : Token) : Except LiteralError Literal :=
  match t.kind with
  | .int => .int <$> IntLiteral.ofText t.text
  | .real => .real <$> RealLiteral.ofText t.text
  | .fill => .ok (.fill (t.text == "'1"))
  | _ => .ok (.string (Literal.stringText t.text))

/-- The sign that a unary operator can become. -/
def Sign.ofOperator? : UnaryOp → Option Sign
  | .plus => some .plus
  | .neg => some .minus
  | _ => none

/-- The form of an integer literal that takes a sign; one with a width takes none. -/
def ExprForm.withSign? (sign : Sign) : ExprForm → Option ExprForm
  | .literal (.int lit) =>
    if lit.width.isNone then some (.literal (.int { lit with sign := some sign })) else none
  | _ => none

namespace Grammar

open Bluespec.Parser

variable (g : Grammar)

/-! ## Primaries -/

/-- A literal of the given kind. -/
def literal (k : Kind) : Parser Literal := do
  let t ← expect k
  match Literal.ofToken t with
  | .ok lit => return lit
  | .error e =>
    report t.span (.invalidLiteral t.text e)
    fail

/-- Steps over a system name and its arguments, and yields their span. -/
def systemCall : Parser Span := do
  let start ← offset
  skip
  skipParenthesized
  spanFrom start

/-- Whether a token can be the first of what a tag holds.  The don't-care mark cannot: after a tag it
asks for the branches of a conditional. -/
def startsPayload : Kind → Bool
  | .ident | .typeIdent | .int | .fill | .real | .string => true
  | .punct .lparen | .punct .lbrace => true
  | .keyword .tagged | .keyword .valueOf => true
  | _ => false

/-- What a tag holds. -/
def payload : Parser Payload := do
  match ← peek with
  | some (.punct .lbrace) => return .struct (← g.fieldBinds)
  | some k => if startsPayload k then return .expr (← g.innerOperand) else return .none
  | none => return .none

/-- An expression with no operator around it.  Parentheses only widen the span of what they hold. -/
def primary : Parser Expr := do
  let start ← offset
  let plain (form : ExprForm) : Parser Expr := return ⟨form, ← spanFrom start⟩
  match ← peek with
  | some .ident => plain (.var (← expectText .ident))
  | some .typeIdent =>
    let name ← expectText .typeIdent
    if ← isNext (.punct .lbrace) then plain (.struct name (← g.fieldBinds)) else plain (.typeRef name)
  | some .int => plain (.literal (← literal .int))
  | some .real => plain (.literal (← literal .real))
  | some .string => plain (.literal (← literal .string))
  | some .fill => plain (.literal (← literal .fill))
  | some (.punct .question) =>
    skip
    plain .dontCare
  | some (.punct .lparen) =>
    skip
    let inner ← g.innerExpr 0
    expectPunct .rparen
    plain inner.form
  | some (.punct .lbrace) => plain (.concat (← g.concatItems))
  | some (.keyword .begin) => plain (← g.valueBlock)
  | some (.keyword .action) => plain (.actionBlock (← g.block .action .action .endaction))
  | some (.keyword .actionvalue) =>
    plain (.actionValueBlock (← g.block .actionValue .actionvalue .endactionvalue))
  | some (.keyword .tagged) =>
    skip
    let name ← expectText .typeIdent
    plain (.tagged name (← g.payload))
  | some (.keyword .interface) => plain (← g.interfaceExpr)
  | some (.keyword .valueOf) =>
    skip
    expectPunct .lparen
    let type ← type
    expectPunct .rparen
    plain (.valueOf type)
  | some .systemIdent =>
    let span ← systemCall
    reportUnsupported span .systemCall
    fail
  | _ => failExpected .expression

/-! ## Operators -/

/-- A primary with its suffixes and no operators. -/
def operand : Parser Expr := do g.suffixes (← g.primary)

/-- The operand of a unary operator that was written at `start`.  A sign right before an integer literal
without a width becomes part of the literal. -/
def unaryOperand (start : Nat) (op : UnaryOp) : Parser Expr := do
  match Sign.ofOperator? op with
  | some sign =>
    if ← isNext .int then
      let lit ← g.primary
      match lit.form.withSign? sign with
      | some form => return ⟨form, ← spanFrom start⟩
      | none =>
        let inner ← g.operations unaryPower (← g.suffixes lit)
        return ⟨.unary op inner, ← spanFrom start⟩
    else
      let inner ← g.innerExpr unaryPower
      return ⟨.unary op inner, ← spanFrom start⟩
  | none =>
    let inner ← g.innerExpr unaryPower
    return ⟨.unary op inner, ← spanFrom start⟩

/-- A unary operator with its operand, or a primary. -/
def unary : Parser Expr := do
  match (← peek).bind UnaryOp.ofKind? with
  | none => g.primary
  | some op =>
    let start ← offset
    skip
    g.unaryOperand start op

/-- An expression whose binary operators bind at least as tightly as `min`. -/
def expr (min : Nat) : Parser Expr := do g.operations min (← g.suffixes (← g.unary))

/-! ## Predicates -/

/-- Conditions that must all hold. -/
def predicate : Parser Predicate := do
  let start ← offset
  let first ← g.innerExpr 0
  let others ← g.furtherConjuncts 0
  return ⟨first :: others, ← spanFrom start⟩

/-- Conditions in parentheses. -/
def parenPredicate : Parser Predicate := do
  expectPunct .lparen
  let predicate ← g.predicate
  expectPunct .rparen
  return predicate

end Grammar

end Bluespec
