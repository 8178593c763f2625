import Bluespec.Concrete
import Bluespec.Grammar.SourceUnit
import Bluespec.Token.Lexer

/-!
# Parsing source text

* **`Parsed`** — the outcome for a whole source: its trees and its diagnostics.
* **`parse`** — parses a source, collecting all diagnostics or only the first.
* **`parseExpression`**, **`parseStatement`** — parse a text that is one expression or one statement.
-/

namespace Bluespec

/-- The state before anything has been read of a source. -/
def Parser.State.ofText (source : String) : Parser.State :=
  .start ((Token.ofText source).filter Token.isSignificant)

/-- The setting in which a source is read. -/
def Parser.Setting.ofText (source : String) (recovery : Recovery) : Parser.Setting :=
  ⟨Text.byteSize source.toList, recovery⟩

/-! ## Whole sources -/

/-- The outcome of parsing a source. -/
structure Parsed where
  /-- The source unit. -/
  root : SourceUnit
  /-- The tree that keeps every character. -/
  concrete : Concrete
  /-- The diagnostics, in the order of their places. -/
  diagnostics : List Diagnostic

/-- Whether there are no diagnostics. -/
def Parsed.isOk (p : Parsed) : Bool := p.diagnostics.isEmpty

/-- The diagnostics that are kept. -/
def Recovery.keep (recovery : Recovery) (ds : List Diagnostic) : List Diagnostic :=
  match recovery with
  | .collectAll => ds
  | .firstError => ds.take 1

/-- Parses a source.  Where only the first diagnostic is wanted and the text of a token is at fault,
nothing else is read. -/
def parse (source : String) (recovery : Recovery) : Parsed :=
  let tokens := Token.ofText source
  let lexical := (LexicalError.ofText source).map Diagnostic.ofLexicalError
  if recovery = .firstError ∧ !lexical.isEmpty then
    ⟨.items .empty, .ofTokens tokens [], Diagnostic.sortByStart (recovery.keep lexical)⟩
  else
    let (root, state) := Parser.sourceUnit (.ofText source recovery) (.ofText source)
    ⟨root.getD (.items .empty), .ofTokens tokens state.nodes.reverse,
      Diagnostic.sortByStart (recovery.keep (lexical ++ state.diagnostics.reverse))⟩

/-! ## Single expressions and statements -/

/-- Reads a text that holds one thing and nothing else.  `problem` is reported where it is at fault for no
known reason. -/
def parseOnly (production : Parser α) (problem : SyntaxProblem) (source : String) :
    Except (List Diagnostic) α :=
  let whole : Parser α := do
    let a ← production
    if !(← Parser.ask Parser.State.atEnd) then Parser.reportExpected .endOfInput
    return a
  let (result, state) := whole (.ofText source .collectAll) (.ofText source)
  let lexical := (LexicalError.ofText source).map Diagnostic.ofLexicalError
  match result, lexical ++ state.diagnostics.reverse with
  | some a, [] => .ok a
  | none, [] => .error [⟨.grammar problem, ⟨0, Text.byteSize source.toList⟩⟩]
  | _, d :: ds => .error (Diagnostic.sortByStart (d :: ds))

/-- Parses a text that is one expression. -/
def parseExpression (source : String) : Except (List Diagnostic) Expr :=
  parseOnly (Parser.withGrammar fun g => g.expr 0) .invalidExpression source

/-- Parses a text that is one statement of a dialect. -/
def parseStatement (dialect : Dialect) (source : String) : Except (List Diagnostic) Stmt :=
  parseOnly (Parser.withGrammar fun g => g.stmt dialect) .invalidStatement source

end Bluespec
