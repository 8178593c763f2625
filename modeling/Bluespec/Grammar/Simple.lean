import Bluespec.Grammar.Basic

/-!
# Simple statements

Declarations, assignments, bindings and expression statements look the same everywhere, so they are
read once, and their surroundings decide afterwards whether they may stand there.

* **`SimpleStmt`** — such a statement.
* **`Grammar.simpleTail`** — the rest of one whose first expression has been read.
* **`Grammar.letStmt`**, **`Grammar.typedStmt`** — the ones that begin with a declaration.
* **`Parser.permit`**, **`SimpleStmt.toForm`** — the check against the dialect.
-/

namespace Bluespec

/-- A statement that is no block, conditional or definition. -/
inductive SimpleStmt
  | varDecl (decl : VarDecl)
  | assign (assign : Assign)
  | regWrite (write : Assign)
  | bind (binding : Binding)
  | expr (e : Expr)

namespace SimpleStmt

/-- The leaf that the statement is, if it is one. -/
def leaf? : SimpleStmt → Option Leaf
  | varDecl _ | assign _ => none
  | regWrite _ => some .registerWrite
  | bind _ => some .bind
  | expr _ => some .exprStatement

/-- Where the statement is written; of an expression statement only the expression counts. -/
def span : SimpleStmt → Span
  | varDecl d => d.span
  | assign a | regWrite a => a.span
  | bind b => b.span
  | expr e => e.span

/-- The statement as the form of a statement of any dialect. -/
def form : SimpleStmt → StmtForm
  | varDecl d => .varDecl d
  | assign a => .assign a
  | regWrite a => .regWrite a
  | bind b => .bind b
  | expr e => .expr e

end SimpleStmt

namespace Parser

/-- Lets a leaf statement pass if the dialect permits it, and reports it otherwise. -/
def permit (dialect : Dialect) (leaf : Leaf) (span : Span) : Parser Unit := do
  if !dialect.permits leaf then
    report span (.leafNotPermitted leaf dialect)
    fail

/-- The form of a simple statement in a dialect. -/
def permitSimple (dialect : Dialect) (stmt : SimpleStmt) : Parser StmtForm := do
  match stmt.leaf? with
  | none => return stmt.form
  | some leaf =>
    permit dialect leaf stmt.span
    return stmt.form

/-- Reports a simple statement that may not stand at a place. -/
def failMisplaced (stmt : SimpleStmt) (place : Place) : Parser α := do
  report stmt.span (.misplaced stmt.leaf? place)
  fail

end Parser

namespace Grammar

open Bluespec.Parser

variable (g : Grammar)

/-- An expression and the semicolon after it. -/
def valueAndSemicolon : Parser Expr := do
  let value ← g.innerExpr 0
  expectPunct .semi
  return value

/-- The rest of a simple statement after its first expression. -/
def simpleTail (target : Expr) : Parser SimpleStmt := do
  let start := target.span.start
  match ← peek with
  | some (.punct .eq) =>
    skip
    let value ← g.valueAndSemicolon
    if target.isLvalue then return .assign ⟨target, value, ← spanFrom start⟩
    else
      report target.span .invalidTarget
      fail
  | some (.punct .lte) =>
    skip
    let value ← g.valueAndSemicolon
    return .regWrite ⟨target, value, ← spanFrom start⟩
  | some (.punct .larrow) =>
    match target.form with
    | .var name =>
      skip
      let value ← g.valueAndSemicolon
      return .bind ⟨none, name, value, ← spanFrom start⟩
    | _ =>
      report target.span .notBindable
      fail
  | some (.punct .semi) =>
    skip
    return .expr target
  | _ => failExpected .statementTail

/-- A statement that lets a name stand for a value, or for the result of an action. -/
def letStmt : Parser SimpleStmt := do
  let start ← offset
  skip
  let name ← expect .ident
  if ← accept (.punct .larrow) then
    let value ← g.valueAndSemicolon
    return .bind ⟨some .inferred, name.text, value, ← spanFrom start⟩
  else
    expectPunct .eq
    let init ← g.innerExpr 0
    let declarator := ⟨name.text, [], some init, ← spanFrom name.span.start⟩
    expectPunct .semi
    return .varDecl ⟨.inferred, [declarator], ← spanFrom start⟩

/-- The array dimensions of a declared name. -/
def dimensions : Parser (List Expr) :=
  repeatUntil (fun read : List Expr => do
    if ← accept (.punct .lbracket) then
      let dim ← g.innerExpr 0
      expectPunct .rbracket
      return .again (read ++ [dim])
    else return .done read) []

/-- The rest of a declared name. -/
def declaratorTail (name : Token) : Parser Declarator := do
  let dims ← g.dimensions
  let init ← if ← accept (.punct .eq) then some <$> g.innerExpr 0 else pure none
  return ⟨name.text, dims, init, ← spanFrom name.span.start⟩

/-- A declared name. -/
def declarator : Parser Declarator := do g.declaratorTail (← expect .ident)

/-- A statement that declares names of a type, or binds one to the result of an action. -/
def typedStmt : Parser SimpleStmt := do
  let start ← offset
  let type ← type
  let name ← expect .ident
  if ← accept (.punct .larrow) then
    let value ← g.valueAndSemicolon
    return .bind ⟨some (.typed type), name.text, value, ← spanFrom start⟩
  else
    let first ← g.declaratorTail name
    let others ← if ← accept (.punct .comma) then separated .comma g.declarator else pure []
    expectPunct .semi
    return .varDecl ⟨.typed type, first :: others, ← spanFrom start⟩

end Grammar

end Bluespec
