import Bluespec.Span

/-!
# Types and formals

Types are kept as written; whether they make sense is not asked here.

* **`TypeExpr`** — a type; **`TypeExpr.render`** is its compact source text.
* **`DeclType`** — how a declaration introduces its names.
* **`Formal`**, **`TypeFormal`**, **`ModuleParam`**, **`ModuleArg`** — what stands in the lists of headers.
-/

namespace Bluespec

/-! ## Types -/

mutual

/-- A type as written. -/
structure TypeExpr where
  /-- What was written. -/
  form : TypeForm
  /-- Where. -/
  span : Span

/-- The forms of a type. -/
inductive TypeForm
  /-- A name with its parameters: `Bool`, `Reg#(Bit#(8))`. -/
  | named (name : String) (params : List TypeExpr)
  /-- A type variable. -/
  | var (name : String)
  /-- A number as a type parameter. -/
  | number (value : Nat)
  /-- A vector of bits from `hi` down to `lo`. -/
  | bits (hi lo : Nat)

end

namespace TypeExpr

/-- The head name of a named type. -/
def name? (type : TypeExpr) : Option String :=
  match type.form with
  | .named name _ => some name
  | _ => none

end TypeExpr

mutual

/-- The compact source text of a type. -/
def TypeExpr.render : TypeExpr → String
  | ⟨form, _⟩ => form.render

/-- The compact source text of a form. -/
def TypeForm.render : TypeForm → String
  | .named name [] => name
  | .named name (p :: ps) => name ++ "#(" ++ p.render ++ TypeExpr.renderRest ps ++ ")"
  | .var name => name
  | .number value => value.repr
  | .bits hi lo => "bit[" ++ hi.repr ++ ":" ++ lo.repr ++ "]"

/-- The parameters after the first, each behind a comma. -/
def TypeExpr.renderRest : List TypeExpr → String
  | [] => ""
  | p :: ps => ", " ++ p.render ++ TypeExpr.renderRest ps

end

/-- How a declaration introduces its names. -/
inductive DeclType
  /-- With a type. -/
  | typed (type : TypeExpr)
  /-- With the type left open. -/
  | inferred

/-- The source text of what introduces the names. -/
def DeclType.render : DeclType → String
  | typed type => type.render
  | inferred => "let"

/-! ## Formals -/

/-- A formal of a method, function or prototype; a method definition may leave its type out. -/
structure Formal where
  /-- The type, if written. -/
  type : Option TypeExpr
  /-- The name. -/
  name : String
  /-- Where it is written. -/
  span : Span

/-- What a type formal ranges over. -/
inductive TypeFormalKind
  | type | numeric | string
deriving DecidableEq, Repr

/-- A type formal in the header of an interface. -/
structure TypeFormal where
  /-- What it ranges over. -/
  kind : TypeFormalKind
  /-- The name. -/
  name : String
  /-- Where it is written. -/
  span : Span

/-- A parameter in the header of a module. -/
structure ModuleParam where
  /-- Whether it is marked as a parameter. -/
  marked : Bool
  /-- The type. -/
  type : TypeExpr
  /-- The name. -/
  name : String
  /-- Where it is written. -/
  span : Span

/-- An argument in the header of a module; the name of an interface is usually left out. -/
structure ModuleArg where
  /-- The type. -/
  type : TypeExpr
  /-- The name, if written. -/
  name : Option String
  /-- Where it is written. -/
  span : Span

end Bluespec
