import Bluespec.Dialect
import Bluespec.Kind
import Bluespec.Literal.Reading
import Bluespec.Text.Position
import Bluespec.Token

/-!
# Diagnostics

A **`Diagnostic`** is a cause and the text it concerns.

* **`Construct`** — forms that are recognised and deliberately not read.
* **`SyntaxProblem`** — what can be wrong with the text.
* **`Problem`** — a lexical error, a syntax problem, or an unsupported construct; `Problem.message` is what
  is said about it.
* **`Diagnostic.sortByStart`** — the order in which diagnostics are reported.
-/

namespace Bluespec

/-- A form that is recognised and deliberately not read. -/
inductive Construct
  | case | for_ | while_ | typeDef | typeclass | instance_ | provisos | attributeInstance | systemCall
  | patternMatch
deriving DecidableEq, Repr

/-- A construct in words. -/
def Construct.describe : Construct → String
  | case => "case statement"
  | for_ => "for loop"
  | while_ => "while loop"
  | typeDef => "type definition"
  | typeclass => "typeclass definition"
  | instance_ => "typeclass instance"
  | provisos => "provisos"
  | attributeInstance => "attribute instance"
  | systemCall => "system task or function call"
  | patternMatch => "pattern match"

/-- What the grammar expects at a place. -/
inductive Expectation
  /-- A token of one kind. -/
  | kind (k : Kind)
  | expression
  | statement
  | packageStatement
  | type
  | label
  /-- A member of an interface. -/
  | member
  /-- What may follow the first expression of a statement. -/
  | statementTail
  | endOfInput
deriving DecidableEq, Repr

/-- An expectation in words. -/
def Expectation.describe : Expectation → String
  | kind k => k.describe
  | expression => "expression"
  | statement => "statement"
  | packageStatement => "package statement"
  | type => "type"
  | label => "label"
  | member => "method or subinterface declaration"
  | statementTail => "`=`, `<=`, `<-` or `;`"
  | endOfInput => "end of input"

/-- A place whose statements are limited, dialects apart. -/
inductive Place
  | packageLevel | moduleBody
deriving DecidableEq, Repr

/-- A place in words. -/
def Place.describe : Place → String
  | packageLevel => "at package level"
  | moduleBody => "in a module body"

/-- What can be wrong with the text. -/
inductive SyntaxProblem
  /-- One thing was expected and another found; nothing stands for the end of input. -/
  | expected (what : Expectation) (found : Option Kind)
  /-- Any of several kinds was expected, or nothing in particular; nothing among them stands for the end
  of input. -/
  | expectedAny (kinds : List (Option Kind)) (found : Option Kind)
  /-- A closing word that closes nothing. -/
  | unexpected (k : Kind)
  /-- A delimiter that is not closed. -/
  | unclosed (k : Kind)
  /-- A leaf statement that the dialect does not permit. -/
  | leafNotPermitted (leaf : Leaf) (dialect : Dialect)
  /-- A statement that may not stand at a place. -/
  | misplaced (leaf : Option Leaf) (place : Place)
  /-- A number that denotes none. -/
  | invalidLiteral (text : String) (error : LiteralError)
  /-- A literal that is no numeric type. -/
  | notNumericType (text : String)
  /-- A literal that is no bit index. -/
  | notBitIndex (text : String)
  /-- An expression that cannot be assigned to. -/
  | invalidTarget
  /-- An expression that cannot be bound. -/
  | notBindable
  /-- Text that is no expression, for no known reason. -/
  | invalidExpression
  /-- Text that is no statement, for no known reason. -/
  | invalidStatement
  /-- Anything else. -/
  | other (message : String)
deriving DecidableEq, Repr

/-- Texts in order, each once. -/
def sortedTexts (texts : List String) : List String :=
  (texts.mergeSort fun a b => a ≤ b).eraseReps

/-- What is said about a problem. -/
def SyntaxProblem.message : SyntaxProblem → String
  | expected what found =>
    "expected " ++ what.describe ++ ", found " ++ Kind.describeFound found
  | expectedAny [] found => "unexpected " ++ Kind.describeFound found
  | expectedAny (k :: ks) found =>
    "expected " ++ " or ".intercalate (sortedTexts ((k :: ks).map Kind.describeFound)) ++ ", found " ++
      Kind.describeFound found
  | unexpected k => "unexpected " ++ k.describe
  | unclosed k => "unclosed " ++ k.describe
  | leafNotPermitted leaf dialect =>
    leaf.describe ++ " is not permitted in " ++ dialect.describe
  | misplaced leaf place =>
    (leaf.map Leaf.describe).getD "statement" ++ " is not permitted " ++ place.describe
  | invalidLiteral text error => "invalid literal `" ++ text ++ "`: " ++ error.message
  | notNumericType text => "`" ++ text ++ "` is not a numeric type"
  | notBitIndex text => "`" ++ text ++ "` is not a bit index"
  | invalidTarget => "invalid assignment target"
  | notBindable => "expected a variable name before `<-`"
  | invalidExpression => "invalid expression"
  | invalidStatement => "invalid statement"
  | other message => message

/-- What a diagnostic is about. -/
inductive Problem
  | lexical (error : LexicalError)
  | grammar (problem : SyntaxProblem)
  | unsupported (construct : Construct)
deriving DecidableEq, Repr

namespace Problem

/-- What is said about a problem. -/
def message : Problem → String
  | lexical error => error.message
  | grammar problem => problem.message
  | unsupported construct => construct.describe ++ " is not supported"

/-- The class of a problem in words. -/
def describe : Problem → String
  | lexical _ => "lexical error"
  | grammar _ => "syntax error"
  | unsupported construct => "unsupported construct (" ++ construct.describe ++ ")"

/-- Whether the problem lies in the text of a token. -/
def isLexical : Problem → Bool
  | lexical _ => true
  | _ => false

end Problem

/-- A problem with the text it concerns. -/
structure Diagnostic where
  /-- The problem. -/
  problem : Problem
  /-- The text it concerns. -/
  span : Span
deriving DecidableEq, Repr

namespace Diagnostic

/-- What is said about the problem. -/
def message (d : Diagnostic) : String := d.problem.message

/-- The class of the problem, and what is said about it. -/
def describe (d : Diagnostic) : String := d.problem.describe ++ ": " ++ d.message

/-- How grave a diagnostic is; every one is an error. -/
def severity (_ : Diagnostic) : String := "error"

/-- The place of a diagnostic: where its text starts. -/
def position (lines : LineIndex) (d : Diagnostic) : Position := lines.position d.span.start

/-- The diagnostic of a lexical error. -/
def ofLexicalError (e : LexicalError) : Diagnostic := ⟨.lexical e, e.span⟩

/-- Diagnostics in the order in which their texts start; those that start together keep their order. -/
def sortByStart (ds : List Diagnostic) : List Diagnostic :=
  ds.mergeSort fun a b => a.span.start ≤ b.span.start

theorem sortByStart_perm (ds : List Diagnostic) : (sortByStart ds).Perm ds :=
  List.mergeSort_perm ds _

theorem sortByStart_singleton (d : Diagnostic) : sortByStart [d] = [d] := List.perm_singleton.mp (sortByStart_perm [d])

end Diagnostic

end Bluespec
