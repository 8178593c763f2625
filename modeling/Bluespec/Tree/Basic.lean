import Bluespec.Dialect
import Bluespec.Literal
import Bluespec.Operator
import Bluespec.Tree.TypeExpr

/-!
# Syntax trees

Expressions, statements and definitions contain each other, so their types are defined together.  A
block keeps the dialect its statements were read in.

* **`Expr`**, **`Predicate`** — values and conditions.
* **`Stmt`**, **`Block`** — statements.
* **`FunctionDef`**, **`MethodDef`**, **`ModuleDef`**, **`RuleDef`**, **`SubinterfaceDef`** — definitions.
* **`Expr.isLvalue`** — whether an expression can be assigned to.
-/

namespace Bluespec

/-- A name after the opening or closing word of a block. -/
structure Label where
  /-- The name. -/
  name : String
  /-- Where it is written. -/
  span : Span
deriving DecidableEq, Repr

/-- The labels of a block; they need not agree. -/
structure Labels where
  /-- The label after the opening word. -/
  opening : Option Label
  /-- The label after the closing word. -/
  closing : Option Label
deriving DecidableEq, Repr

/-- Labels disagree only when both are written and their names differ. -/
def Labels.isConsistent (labels : Labels) : Bool :=
  match labels.opening, labels.closing with
  | some o, some c => o.name == c.name
  | _, _ => true

mutual

/-- A value as written. -/
structure Expr where
  /-- What was written. -/
  form : ExprForm
  /-- Where. -/
  span : Span

/-- The forms of an expression. -/
inductive ExprForm
  | var (name : String)
  /-- A type name that stands for a value. -/
  | typeRef (name : String)
  | literal (lit : Literal)
  | unary (op : UnaryOp) (operand : Expr)
  | binary (op : BinaryOp) (lhs rhs : Expr)
  | cond (predicate : Predicate) (thenBranch elseBranch : Expr)
  | concat (items : List Expr)
  /-- One bit, or the range of bits down to `lo`. -/
  | select (base hi : Expr) (lo : Option Expr)
  /-- Statements with a result. -/
  | valueBlock (labels : Labels) (stmts : List Stmt) (result : Expr)
  | actionBlock (block : Block)
  | actionValueBlock (block : Block)
  | call (callee : Expr) (args : List Expr)
  | methodCall (receiver : Expr) (method : String) (args : List Expr)
  | field (base : Expr) (field : String)
  | struct (name : String) (members : List FieldBind)
  | tagged (name : String) (payload : Payload)
  | interfaceExpr (type : TypeExpr) (stmts : List InterfaceStmt) (endLabel : Option Label)
  /-- A value that does not matter. -/
  | dontCare
  | valueOf (type : TypeExpr)

/-- One or more conditions that must all hold. -/
structure Predicate where
  /-- The conditions. -/
  conjuncts : List Expr
  /-- Where they are written. -/
  span : Span

/-- A field with its value. -/
structure FieldBind where
  /-- The field. -/
  field : String
  /-- The value. -/
  value : Expr
  /-- Where they are written. -/
  span : Span

/-- What follows a tag. -/
inductive Payload
  | none
  | struct (members : List FieldBind)
  | expr (e : Expr)

/-- Statements between an opening and a closing word. -/
structure Block where
  /-- The labels. -/
  labels : Labels
  /-- The statements. -/
  stmts : List Stmt
  /-- Where the block is written. -/
  span : Span
  /-- The dialect of the statements. -/
  dialect : Dialect

/-- A statement as written. -/
structure Stmt where
  /-- What was written. -/
  form : StmtForm
  /-- Where. -/
  span : Span

/-- The forms of a statement. -/
inductive StmtForm
  | varDecl (decl : VarDecl)
  | assign (assign : Assign)
  | regWrite (write : Assign)
  | bind (binding : Binding)
  /-- A call or an action block, for its effect. -/
  | expr (e : Expr)
  | return_ (e : Expr)
  | function (definition : FunctionDef)
  | module (definition : ModuleDef)
  | block (block : Block)
  | cond (predicate : Predicate) (thenBranch : Stmt) (elseBranch : Option Stmt)

/-- A declaration of one or more variables. -/
structure VarDecl where
  /-- How the names are introduced. -/
  type : DeclType
  /-- The names. -/
  declarators : List Declarator
  /-- Where the declaration is written. -/
  span : Span

/-- One name of a declaration. -/
structure Declarator where
  /-- The name. -/
  name : String
  /-- Array dimensions. -/
  dims : List Expr
  /-- The first value, if written. -/
  init : Option Expr
  /-- Where the name is declared. -/
  span : Span

/-- An assignment, or a register write. -/
structure Assign where
  /-- What is assigned to. -/
  target : Expr
  /-- The value. -/
  value : Expr
  /-- Where the statement is written. -/
  span : Span

/-- A name bound to the result of an action. -/
structure Binding where
  /-- How the name is introduced; an existing name is not. -/
  decl : Option DeclType
  /-- The name. -/
  name : String
  /-- The action. -/
  value : Expr
  /-- Where the statement is written. -/
  span : Span

/-- A function. -/
structure FunctionDef where
  /-- The type of its result. -/
  result : TypeExpr
  /-- The name. -/
  name : String
  /-- The formals. -/
  formals : List Formal
  /-- The body. -/
  body : Body
  /-- The label after the closing word. -/
  endLabel : Option Label
  /-- Where the definition is written. -/
  span : Span

/-- A module. -/
structure ModuleDef where
  /-- The type of context, if written. -/
  context : Option TypeExpr
  /-- The name. -/
  name : String
  /-- The parameters. -/
  params : List ModuleParam
  /-- The arguments. -/
  args : List ModuleArg
  /-- The statements. -/
  stmts : List ModuleStmt
  /-- The label after the closing word. -/
  endLabel : Option Label
  /-- Where the definition is written. -/
  span : Span

/-- A statement of a module. -/
inductive ModuleStmt
  | method (definition : MethodDef)
  | subinterface (definition : SubinterfaceDef)
  | rule (definition : RuleDef)
  | return_ (e : Expr)
  | varDecl (decl : VarDecl)
  | bind (binding : Binding)
  | assign (assign : Assign)
  | expr (e : Expr)
  | function (definition : FunctionDef)
  | module (definition : ModuleDef)

/-- A method. -/
structure MethodDef where
  /-- The type of its result, if written. -/
  result : Option TypeExpr
  /-- The name. -/
  name : String
  /-- The formals. -/
  formals : List Formal
  /-- The guard, if written. -/
  guard : Option Predicate
  /-- The body. -/
  body : Body
  /-- The label after the closing word. -/
  endLabel : Option Label
  /-- Where the definition is written. -/
  span : Span

/-- The body of a method or function. -/
inductive Body
  /-- Statements of one dialect. -/
  | stmts (dialect : Dialect) (stmts : List Stmt)
  /-- One action block, and nothing else. -/
  | block (e : Expr)

/-- A definition of an interface inside another. -/
structure SubinterfaceDef where
  /-- The type of the interface. -/
  type : TypeExpr
  /-- The name. -/
  name : String
  /-- The statements. -/
  stmts : List InterfaceStmt
  /-- The label after the closing word. -/
  endLabel : Option Label
  /-- Where the definition is written. -/
  span : Span

/-- A statement of an interface. -/
inductive InterfaceStmt
  | method (definition : MethodDef)
  | subinterface (definition : SubinterfaceDef)
  | stmt (stmt : Stmt)

/-- A rule. -/
structure RuleDef where
  /-- The name. -/
  name : String
  /-- The guard, if written. -/
  guard : Option Predicate
  /-- The statements. -/
  body : List Stmt
  /-- The label after the closing word. -/
  endLabel : Option Label
  /-- Where the definition is written. -/
  span : Span

end

mutual

/-- Whether an expression can be assigned to: a variable, or a field or bits of such an expression. -/
def Expr.isLvalue : Expr → Bool
  | ⟨form, _⟩ => form.isLvalue

/-- Whether a form can be assigned to. -/
def ExprForm.isLvalue : ExprForm → Bool
  | .var _ => true
  | .field base _ => base.isLvalue
  | .select base _ _ => base.isLvalue
  | _ => false

end

/-- The number of statements of a body; a lone block counts as one. -/
def Body.length : Body → Nat
  | .stmts _ items => items.length
  | .block _ => 1

/-- The name of the member that a statement of an interface defines. -/
def InterfaceStmt.memberName? : InterfaceStmt → Option String
  | .method definition => some definition.name
  | .subinterface definition => some definition.name
  | .stmt _ => none

end Bluespec
