import Bluespec.Parser.Recovery

/-!
# Types and formals

* **`Parser.type`** — a type; its parameters are types again, so the number of tokens left bounds the
  nesting.
* **`Parser.typeFormals`**, **`Parser.formals`**, **`Parser.moduleParams`**, **`Parser.moduleArgs`** — the lists in the
  headers of definitions.
* **`Parser.atTypedDecl`** — whether a declaration with a type comes next.
-/

namespace Bluespec.Parser

/-! ## Types -/

/-- The number of an integer token, if it is written in plain decimal digits and fits into sixty-four
bits. -/
def plainNumber? (text : String) : Option Nat :=
  unsigned? (Nat.pow 2 64) (Text.without '_' text.toList)

/-- A bound of a vector of bits. -/
def bitBound : Parser Nat := do
  let t ← expect .int
  match plainNumber? t.text with
  | some n => return n
  | none =>
    report t.span (.notBitIndex t.text)
    fail

/-- The form of a type, where `inner` reads a parameter. -/
def typeForm (inner : Parser TypeExpr) : Parser TypeForm := do
  match ← peek with
  | some .typeIdent =>
    let name ← expectText .typeIdent
    if ← accept (.punct .hash) then
      expectPunct .lparen
      let params ← separated .comma inner
      expectPunct .rparen
      return .named name params
    else return .named name []
  | some .ident => return .var (← expectText .ident)
  | some .int =>
    let t ← expect .int
    match plainNumber? t.text with
    | some n => return .number n
    | none =>
      report t.span (.notNumericType t.text)
      fail
  | some (.keyword .bit) =>
    skip
    if ← accept (.punct .lbracket) then
      let hi ← bitBound
      expectPunct .colon
      let lo ← bitBound
      expectPunct .rbracket
      return .bits hi lo
    else return .named Keyword.bit.spelling []
  | _ => failExpected .type

/-- A type with less than `limit` levels. -/
def typeUpTo (limit : Nat) : Parser TypeExpr :=
  match limit with
  | 0 => fail
  | limit + 1 => do
    let start ← offset
    let form ← typeForm (typeUpTo limit)
    return ⟨form, ← spanFrom start⟩

/-- A type. -/
def type : Parser TypeExpr := fun c s => typeUpTo (s.rest.length + 1) c s

/-- Whether a type with a name of a value after it comes next. -/
def atTypedDecl : Parser Bool := do
  match ← peek with
  | some .typeIdent | some (.keyword .bit) =>
    let named ← lookahead do
      let _ ← type
      isNext .ident
    return named.getD false
  | _ => return false

/-! ## Formals -/

/-- What a type formal ranges over. -/
def typeFormalKind : Parser TypeFormalKind := do
  if ← accept (.keyword .numeric) then return .numeric
  else
    let marked ← accept (.keyword .string)
    return if marked then .string else .type

/-- One type formal of an interface. -/
def typeFormal : Parser TypeFormal := do
  let start ← offset
  let kind ← typeFormalKind
  expectKeyword .type
  let name ← expectText .ident
  return ⟨kind, name, ← spanFrom start⟩

/-- The type formals of an interface. -/
def typeFormals : Parser (List TypeFormal) := do
  expectPunct .hash
  expectPunct .lparen
  let formals ← separated .comma typeFormal
  expectPunct .rparen
  return formals

/-- Whether a name without a type comes next: a comma or a parenthesis follows it. -/
def atBareName : Parser Bool :=
  ask fun s => s.isNext .ident && (s.nth 1 == some (.punct .comma) || s.nth 1 == some (.punct .rparen))

/-- One formal.  Where `untyped` holds its type may be left out. -/
def formal (untyped : Bool) : Parser Formal := do
  skipAttributes
  let start ← offset
  let bare := untyped && (← atBareName)
  let type ← if bare then pure none else some <$> type
  let name ← expectText .ident
  return ⟨type, name, ← spanFrom start⟩

/-- The formals of a method, function or prototype. -/
def formals (untyped : Bool) : Parser (List Formal) := do
  expectPunct .lparen
  enclosed .rparen (formal untyped)

/-- The formals of a header, which may have none. -/
def formalsIfAny (untyped : Bool) : Parser (List Formal) := do
  if ← isNext (.punct .lparen) then formals untyped else return []

/-- One parameter of a module. -/
def moduleParam : Parser ModuleParam := do
  skipAttributes
  let start ← offset
  let marked ← accept (.keyword .parameter)
  let type ← type
  let name ← expectText .ident
  return ⟨marked, type, name, ← spanFrom start⟩

/-- The parameters of a module, which may have none. -/
def moduleParams : Parser (List ModuleParam) := do
  if ← accept (.punct .hash) then
    expectPunct .lparen
    let params ← separated .comma moduleParam
    expectPunct .rparen
    return params
  else return []

/-- One argument of a module. -/
def moduleArg : Parser ModuleArg := do
  skipAttributes
  let start ← offset
  let type ← type
  let name ← eat .ident
  return ⟨type, name.map Token.text, ← spanFrom start⟩

/-- The arguments of a module, which may have none. -/
def moduleArgs : Parser (List ModuleArg) := do
  if ← accept (.punct .lparen) then enclosed .rparen moduleArg else return []

/-- Steps over provisos and reports them. -/
def skipProvisos : Parser Unit := do
  if ← isNext (.keyword .provisos) then
    let start ← offset
    skip
    skipParenthesized
    reportUnsupported (← spanFrom start) .provisos

end Bluespec.Parser
