import Bluespec.Grammar.Furthest
import Bluespec.Grammar.Statement
import Bluespec.Tree.SourceUnit

/-!
# Source units

* **`Parser.exportDecl`**, **`Parser.importDecl`** — lists of names.
* **`Parser.interfaceDecl`** — an interface with its members.
* **`Parser.packageBody`** — lists and statements in any order.
* **`Parser.sourceUnit`** — a package, or the same items without one.
-/

namespace Bluespec

/-! ## Lists of names -/

namespace ListReader

/-- Everything from a package. -/
def packageRef : ListReader String := do
  let package ← name [.typeIdent]
  symbol (.punct .colonColon)
  symbol (.punct .star)
  return package

/-- The mark that a name is exported with its members. -/
def membersMark : ListReader Unit := do
  symbol (.punct .lparen)
  symbol (.punct .dotDot)
  symbol (.punct .rparen)

/-- A name, with its members or without. -/
def exportedName : ListReader ExportItem := do
  let text ← name [.ident, .typeIdent]
  let mark ← optional membersMark
  return .name text mark.isSome

/-- One item of an export list. -/
def exportItem : ListReader ExportItem :=
  orElse (do return .package (← packageRef)) exportedName

/-- The items of an export list. -/
def exportItems : ListReader (List ExportItem) := do
  symbol (.keyword .export_)
  let items ← listOf exportItem
  symbol (.punct .semi)
  return items

/-- The packages of an import list. -/
def importedPackages : ListReader (List String) := do
  symbol (.keyword .import_)
  let packages ← listOf packageRef
  symbol (.punct .semi)
  return packages

end ListReader

namespace Parser

/-- Reads a list that ends with the next semicolon or before the next reserved word, and yields it with
its span.  The cursor passes the list whether it is well formed or not. -/
def nameList (reader : ListReader α) (kind : NodeKind) : Parser (α × Span) := fun c s =>
  let extent := Extent.nameList s.rest
  let s' := s.advance extent
  let span : Span := ⟨(s.peekSpan c).start, s'.lastEnd⟩
  match reader.run span.stop (s.rest.take extent) with
  | .ok value => (some (value, span), s'.record kind span)
  | .error m => (none, s'.report m.span m.diagnostic.problem)

/-- An export list. -/
def exportDecl : Parser ExportDecl := do
  let (items, span) ← nameList ListReader.exportItems .exportDecl
  return ⟨items, span⟩

/-- An import list. -/
def importDecl : Parser ImportDecl := do
  let (packages, span) ← nameList ListReader.importedPackages .importDecl
  return ⟨packages, span⟩

/-! ## Interfaces -/

/-- The prototype of a method, after the offset where its text starts. -/
def methodProto (start : Nat) : Parser MethodProto := do
  skip
  let result ← type
  let name ← expectText .ident
  let formals ← formalsIfAny false
  expectPunct .semi
  return ⟨result, name, formals, ← spanFrom start⟩

/-- An interface as a member of another, after the offset where its text starts. -/
def subinterfaceDecl (start : Nat) : Parser SubinterfaceDecl := do
  let (type, name) ← Grammar.subinterfaceHeader
  return ⟨type, name, ← spanFrom start⟩

/-- One member of an interface. -/
def interfaceMember : Parser InterfaceMember := do
  skipAttributes
  let start ← offset
  match ← peek with
  | some (.keyword .method) => return .method (← methodProto start)
  | some (.keyword .interface) => return .subinterface (← subinterfaceDecl start)
  | _ => failExpected .member

/-- The header of an interface: name and type formals. -/
def interfaceHeader : Parser (String × List TypeFormal) := do
  skip
  let name ← expectText .typeIdent
  let formals ← if ← isNext (.punct .hash) then typeFormals else pure []
  expectPunct .semi
  return (name, formals)

/-- An interface. -/
def interfaceDecl : Parser InterfaceDecl := do
  let start ← offset
  let (name, formals) ← header .endinterface interfaceHeader
  let members ← items interfaceMember
  let (endLabel, span) ← Grammar.ending .endinterface .interfaceDecl start
  return ⟨name, formals, members, endLabel, span⟩

/-! ## Statements of a package -/

/-- Steps over a definition of a type, a typeclass or an instance, and reports it. -/
def skipUnsupportedDecl : Parser Unit := do
  let start ← offset
  match ← peek with
  | some (.keyword .typeclass) =>
    skipThrough .typeclass .endtypeclass
    let _ ← label
    reportUnsupported (← spanFrom start) .typeclass
  | some (.keyword .instance_) =>
    skipThrough .instance_ .endinstance
    let _ ← label
    reportUnsupported (← spanFrom start) .instance_
  | _ =>
    skipStatement
    reportUnsupported (← spanFrom start) .typeDef

/-- A simple statement of a package: only declarations and assignments may stand there. -/
def simplePackageStmt : Parser PackageStmt := do
  match ← withGrammar Grammar.simple with
  | .varDecl d =>
    record .varDecl d.span
    return .varDecl d
  | .assign a =>
    record .varAssign a.span
    return .assign a
  | stmt => failMisplaced stmt .packageLevel

/-- One statement of a package. -/
def packageStmt : Parser PackageStmt := do
  skipAttributes
  match ← peek with
  | some (.keyword .interface) => return .interfaceDecl (← interfaceDecl)
  | some (.keyword .module) => return .module (← withGrammar Grammar.moduleDef)
  | some (.keyword .function) => return .function (← withGrammar Grammar.functionDef)
  | some (.keyword .typeDef) | some (.keyword .typeclass) | some (.keyword .instance_) =>
    skipUnsupportedDecl
    fail
  | none => failExpected .packageStatement
  | some _ => simplePackageStmt

/-! ## Whole units -/

/-- Reads one item of a package and adds it to the items read before. -/
def packageItem (body : PackageBody) (k : Kind) : Parser PackageBody := do
  match k with
  | .keyword .export_ =>
    let decl ← attempt exportDecl
    return { body with exports := body.exports ++ decl.toList }
  | .keyword .import_ =>
    let decl ← attempt importDecl
    return { body with imports := body.imports ++ decl.toList }
  | k =>
    if k.isCloser then
      report (← peekSpan) (.unexpected k)
      skip
      return body
    else
      let stmt ← resuming packageStmt
      return { body with stmts := body.stmts ++ stmt.toList }

/-- The next item of a package, after the items read so far. -/
def packageRound (inPackage : Bool) (body : PackageBody) : Parser (Round PackageBody PackageBody) := do
  if ← halted then return .done body
  else
    match ← peek with
    | none => return .done body
    | some k =>
      if inPackage && k == .keyword .endpackage then return .done body
      else return .again (← packageItem body k)

/-- Lists and statements in any order, up to the end of the package or of the source. -/
def packageBody (inPackage : Bool) : Parser PackageBody := repeatUntil (packageRound inPackage) PackageBody.empty

/-- The header of a package: its name.  A broken header is reported, and nothing else is lost. -/
def packageHeader : Parser String := do
  skip
  let name ← attempt (expectText .typeIdent)
  if (← attempt (expectPunct .semi)).isNone then
    skipExtent (Extent.recovery true 0)
  return name.getD ""

/-- The closing word of a package, with its label. -/
def packageEnd : Parser (Option Label) := do
  if (← attempt (expectKeyword .endpackage)).isSome then label else return none

/-- A package.  Its items are read even if its header is broken. -/
def package : Parser Package := do
  let start ← offset
  let name ← packageHeader
  let body ← packageBody true
  let endLabel ← packageEnd
  let span ← spanFrom start
  record .package span
  return ⟨name, body, endLabel, span⟩

/-- A source unit. -/
def sourceUnit : Parser SourceUnit := do
  if ← isNext (.keyword .package) then
    let package ← package
    if !(← ask State.atEnd) && !(← halted) then reportExpected .endOfInput
    return .package package
  else return .items (← packageBody false)

end Parser

end Bluespec
