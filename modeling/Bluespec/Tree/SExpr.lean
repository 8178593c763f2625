import Bluespec.Tree.Basic

/-!
# Trees as bracketed text

**`Expr.sexpr`** and **`Stmt.sexpr`** show the structure of a tree in fully bracketed form, operators
first.  Of definitions and interfaces only the names are shown.
-/

namespace Bluespec

mutual

/-- The expression in bracketed form. -/
def Expr.sexpr : Expr → String
  | ⟨form, _⟩ => form.sexpr

/-- The form of an expression in bracketed form. -/
def ExprForm.sexpr : ExprForm → String
  | .var name => name
  | .typeRef name => name
  | .literal lit => lit.render
  | .unary op operand => "(" ++ op.symbol ++ " " ++ operand.sexpr ++ ")"
  | .binary op lhs rhs => "(" ++ op.symbol ++ " " ++ lhs.sexpr ++ " " ++ rhs.sexpr ++ ")"
  | .cond predicate thenBranch elseBranch =>
    "(? " ++ predicate.sexpr ++ " " ++ thenBranch.sexpr ++ " " ++ elseBranch.sexpr ++ ")"
  | .concat items => "(concat" ++ Expr.sexprs items ++ ")"
  | .select base hi none => "([] " ++ base.sexpr ++ " " ++ hi.sexpr ++ ")"
  | .select base hi (some lo) =>
    "([:] " ++ base.sexpr ++ " " ++ hi.sexpr ++ " " ++ lo.sexpr ++ ")"
  | .valueBlock _ stmts result => "(begin" ++ Stmt.sexprs stmts ++ " " ++ result.sexpr ++ ")"
  | .actionBlock block => "(action" ++ block.sexpr ++ ")"
  | .actionValueBlock block => "(actionvalue" ++ block.sexpr ++ ")"
  | .call callee args => "(call " ++ callee.sexpr ++ Expr.sexprs args ++ ")"
  | .methodCall receiver method args =>
    "(method " ++ receiver.sexpr ++ " " ++ method ++ Expr.sexprs args ++ ")"
  | .field base field => "(. " ++ base.sexpr ++ " " ++ field ++ ")"
  | .struct name members => "(struct " ++ name ++ FieldBind.sexprs members ++ ")"
  | .tagged name payload => "(tagged " ++ name ++ payload.sexpr ++ ")"
  | .interfaceExpr type stmts _ =>
    "(interface " ++ type.render ++
      String.join ((stmts.filterMap InterfaceStmt.memberName?).map (" " ++ ·)) ++ ")"
  | .dontCare => "?"
  | .valueOf type => "(valueOf " ++ type.render ++ ")"

/-- Expressions, each behind a blank. -/
def Expr.sexprs : List Expr → String
  | [] => ""
  | e :: es => " " ++ e.sexpr ++ Expr.sexprs es

/-- A predicate; a single condition stands for itself. -/
def Predicate.sexpr : Predicate → String
  | ⟨[e], _⟩ => e.sexpr
  | ⟨es, _⟩ => "(&&&" ++ Expr.sexprs es ++ ")"

/-- Fields with their values, each behind a blank. -/
def FieldBind.sexprs : List FieldBind → String
  | [] => ""
  | ⟨field, value, _⟩ :: ms =>
    " (" ++ field ++ " " ++ value.sexpr ++ ")" ++ FieldBind.sexprs ms

/-- What follows a tag, behind a blank. -/
def Payload.sexpr : Payload → String
  | .none => ""
  | .struct members => FieldBind.sexprs members
  | .expr e => " " ++ e.sexpr

/-- The statements of a block, each behind a blank. -/
def Block.sexpr : Block → String
  | ⟨_, stmts, _, _⟩ => Stmt.sexprs stmts

/-- The statement in bracketed form. -/
def Stmt.sexpr : Stmt → String
  | ⟨form, _⟩ => form.sexpr

/-- The form of a statement in bracketed form. -/
def StmtForm.sexpr : StmtForm → String
  | .varDecl decl => decl.sexpr
  | .assign assign => "(= " ++ assign.sexpr ++ ")"
  | .regWrite write => "(<= " ++ write.sexpr ++ ")"
  | .bind binding => binding.sexpr
  | .expr e => e.sexpr
  | .return_ e => "(return " ++ e.sexpr ++ ")"
  | .function definition => "(function " ++ definition.name ++ ")"
  | .module definition => "(module " ++ definition.name ++ ")"
  | .block block => "(block" ++ block.sexpr ++ ")"
  | .cond predicate thenBranch none =>
    "(if " ++ predicate.sexpr ++ " " ++ thenBranch.sexpr ++ ")"
  | .cond predicate thenBranch (some elseBranch) =>
    "(if " ++ predicate.sexpr ++ " " ++ thenBranch.sexpr ++ " " ++ elseBranch.sexpr ++ ")"

/-- Statements, each behind a blank. -/
def Stmt.sexprs : List Stmt → String
  | [] => ""
  | s :: ss => " " ++ s.sexpr ++ Stmt.sexprs ss

/-- A declaration. -/
def VarDecl.sexpr : VarDecl → String
  | ⟨type, declarators, _⟩ => "(decl " ++ type.render ++ Declarator.sexprs declarators ++ ")"

/-- Declared names, each behind a blank. -/
def Declarator.sexprs : List Declarator → String
  | [] => ""
  | ⟨name, dims, none, _⟩ :: ds => " " ++ name ++ Expr.sexprDims dims ++ Declarator.sexprs ds
  | ⟨name, dims, some init, _⟩ :: ds =>
    " (= " ++ name ++ Expr.sexprDims dims ++ " " ++ init.sexpr ++ ")" ++ Declarator.sexprs ds

/-- Array dimensions, each in square brackets. -/
def Expr.sexprDims : List Expr → String
  | [] => ""
  | e :: es => "[" ++ e.sexpr ++ "]" ++ Expr.sexprDims es

/-- Target and value of an assignment. -/
def Assign.sexpr : Assign → String
  | ⟨target, value, _⟩ => target.sexpr ++ " " ++ value.sexpr

/-- A bound name. -/
def Binding.sexpr : Binding → String
  | ⟨decl, name, value, _⟩ =>
    "(<- " ++ ((decl.map fun d => d.render ++ " ").getD "") ++ name ++ " " ++ value.sexpr ++ ")"

end

end Bluespec
