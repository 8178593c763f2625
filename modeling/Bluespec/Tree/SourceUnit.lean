import Bluespec.Tree.Basic

/-!
# Source units

What a source unit holds at its outermost level: a package, or the same items without one.

* **`ExportDecl`**, **`ImportDecl`** — lists of names.
* **`InterfaceDecl`** — an interface with its members.
* **`SourceUnit`** — a whole unit.
-/

namespace Bluespec

/-- One item of an export list. -/
inductive ExportItem
  /-- A name, with its members or without. -/
  | name (name : String) (withMembers : Bool)
  /-- Everything from a package. -/
  | package (name : String)
deriving DecidableEq, Repr

/-- An export list. -/
structure ExportDecl where
  /-- The items. -/
  items : List ExportItem
  /-- Where the list is written. -/
  span : Span
deriving DecidableEq, Repr

/-- An import list. -/
structure ImportDecl where
  /-- The packages. -/
  packages : List String
  /-- Where the list is written. -/
  span : Span
deriving DecidableEq, Repr

/-- The prototype of a method. -/
structure MethodProto where
  /-- The type of its result. -/
  result : TypeExpr
  /-- The name. -/
  name : String
  /-- The formals. -/
  formals : List Formal
  /-- Where the prototype is written. -/
  span : Span

/-- An interface as a member of another. -/
structure SubinterfaceDecl where
  /-- The type of the interface. -/
  type : TypeExpr
  /-- The name. -/
  name : String
  /-- Where the member is written. -/
  span : Span

/-- A member of an interface. -/
inductive InterfaceMember
  | method (proto : MethodProto)
  | subinterface (decl : SubinterfaceDecl)

/-- An interface. -/
structure InterfaceDecl where
  /-- The name. -/
  name : String
  /-- The type formals. -/
  formals : List TypeFormal
  /-- The members. -/
  members : List InterfaceMember
  /-- The label after the closing word. -/
  endLabel : Option Label
  /-- Where the declaration is written. -/
  span : Span

/-- A statement of a package. -/
inductive PackageStmt
  | interfaceDecl (decl : InterfaceDecl)
  | module (definition : ModuleDef)
  | function (definition : FunctionDef)
  | varDecl (decl : VarDecl)
  | assign (assign : Assign)

/-- The items of a package, each sort in its own order. -/
structure PackageBody where
  /-- The export lists. -/
  exports : List ExportDecl
  /-- The import lists. -/
  imports : List ImportDecl
  /-- The statements. -/
  stmts : List PackageStmt

/-- The body with nothing in it. -/
def PackageBody.empty : PackageBody := ⟨[], [], []⟩

/-- A package. -/
structure Package where
  /-- The name; empty if it could not be read. -/
  name : String
  /-- The items. -/
  body : PackageBody
  /-- The label after the closing word. -/
  endLabel : Option Label
  /-- Where the package is written. -/
  span : Span

/-- A source unit. -/
inductive SourceUnit
  | package (package : Package)
  | items (body : PackageBody)

/-- The items of a unit, with or without a package around them. -/
def SourceUnit.body : SourceUnit → PackageBody
  | package p => p.body
  | items b => b

end Bluespec
