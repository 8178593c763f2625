import Bluespec.Parser
import Bluespec.Grammar.Simple
import Bluespec.Tree.SourceUnit

/-!
# The declarations of a tree

**`SourceUnit.declared`** lists the declarations of a source unit that have a node of their own in the concrete
tree, at any depth, each with its kind and its place; a definition comes after those inside it.
-/

namespace Bluespec

mutual

/-- The declarations inside an expression. -/
def Expr.declared : Expr → List NodeSpan
  | ⟨form, _⟩ => form.declared

/-- The declarations inside a form of an expression. -/
def ExprForm.declared : ExprForm → List NodeSpan
  | .unary _ e => e.declared
  | .binary _ lhs rhs => lhs.declared ++ rhs.declared
  | .cond p a b => p.declared ++ a.declared ++ b.declared
  | .concat es => Expr.declaredIn es
  | .select base hi none => base.declared ++ hi.declared
  | .select base hi (some lo) => base.declared ++ hi.declared ++ lo.declared
  | .valueBlock _ ss result => Stmt.declaredIn ss ++ result.declared
  | .actionBlock b => b.declared
  | .actionValueBlock b => b.declared
  | .call callee args => callee.declared ++ Expr.declaredIn args
  | .methodCall receiver _ args => receiver.declared ++ Expr.declaredIn args
  | .field base _ => base.declared
  | .struct _ ms => FieldBind.declaredIn ms
  | .tagged _ p => p.declared
  | .interfaceExpr _ ss _ => InterfaceStmt.declaredIn ss
  | _ => []

/-- The declarations inside expressions. -/
def Expr.declaredIn : List Expr → List NodeSpan
  | [] => []
  | e :: es => e.declared ++ Expr.declaredIn es

/-- The declarations inside a predicate. -/
def Predicate.declared : Predicate → List NodeSpan
  | ⟨es, _⟩ => Expr.declaredIn es

/-- The declarations inside a field's value. -/
def FieldBind.declared : FieldBind → List NodeSpan
  | ⟨_, e, _⟩ => e.declared

/-- The declarations inside the values of fields. -/
def FieldBind.declaredIn : List FieldBind → List NodeSpan
  | [] => []
  | m :: ms => m.declared ++ FieldBind.declaredIn ms

/-- The declarations inside what a tag holds. -/
def Payload.declared : Payload → List NodeSpan
  | .none => []
  | .struct ms => FieldBind.declaredIn ms
  | .expr e => e.declared

/-- The declarations inside a block. -/
def Block.declared : Block → List NodeSpan
  | ⟨_, ss, _, _⟩ => Stmt.declaredIn ss

/-- The declarations of a statement. -/
def Stmt.declared : Stmt → List NodeSpan
  | ⟨form, _⟩ => form.declared

/-- The declarations of statements. -/
def Stmt.declaredIn : List Stmt → List NodeSpan
  | [] => []
  | s :: ss => s.declared ++ Stmt.declaredIn ss

/-- The declarations of a form of a statement; a variable that is declared there has no node. -/
def StmtForm.declared : StmtForm → List NodeSpan
  | .varDecl d => d.inner
  | .assign a => a.inner
  | .regWrite a => a.inner
  | .bind b => b.inner
  | .expr e => e.declared
  | .return_ e => e.declared
  | .function d => d.declared
  | .module d => d.declared
  | .block b => b.declared
  | .cond p a none => p.declared ++ a.declared
  | .cond p a (some b) => p.declared ++ a.declared ++ b.declared

/-- The declarations inside a declaration of variables. -/
def VarDecl.inner : VarDecl → List NodeSpan
  | ⟨_, ds, _⟩ => Declarator.innerOf ds

/-- The declarations inside a declared name. -/
def Declarator.inner : Declarator → List NodeSpan
  | ⟨_, dims, none, _⟩ => Expr.declaredIn dims
  | ⟨_, dims, some e, _⟩ => Expr.declaredIn dims ++ e.declared

/-- The declarations inside declared names. -/
def Declarator.innerOf : List Declarator → List NodeSpan
  | [] => []
  | d :: ds => d.inner ++ Declarator.innerOf ds

/-- The declarations inside an assignment. -/
def Assign.inner : Assign → List NodeSpan
  | ⟨target, value, _⟩ => target.declared ++ value.declared

/-- The declarations inside a binding. -/
def Binding.inner : Binding → List NodeSpan
  | ⟨_, _, value, _⟩ => value.declared

/-- The declarations of a function. -/
def FunctionDef.declared : FunctionDef → List NodeSpan
  | ⟨_, _, _, body, _, span⟩ => body.declared ++ [⟨.functionDef, span⟩]

/-- The declarations of a module. -/
def ModuleDef.declared : ModuleDef → List NodeSpan
  | ⟨_, _, _, _, ss, _, span⟩ => ModuleStmt.declaredIn ss ++ [⟨.moduleDef, span⟩]

/-- The declarations of a statement of a module. -/
def ModuleStmt.declared : ModuleStmt → List NodeSpan
  | .method d => d.declared
  | .subinterface d => d.declared
  | .rule d => d.declared
  | .return_ e => e.declared
  | .varDecl d => d.inner ++ [⟨.varDecl, d.span⟩]
  | .bind b => b.inner
  | .assign a => a.inner ++ [⟨.varAssign, a.span⟩]
  | .expr e => e.declared
  | .function d => d.declared
  | .module d => d.declared

/-- The declarations of statements of a module. -/
def ModuleStmt.declaredIn : List ModuleStmt → List NodeSpan
  | [] => []
  | s :: ss => s.declared ++ ModuleStmt.declaredIn ss

/-- The declarations of a method. -/
def MethodDef.declared : MethodDef → List NodeSpan
  | ⟨_, _, _, none, body, _, span⟩ => body.declared ++ [⟨.methodDef, span⟩]
  | ⟨_, _, _, some guard, body, _, span⟩ => guard.declared ++ body.declared ++ [⟨.methodDef, span⟩]

/-- The declarations inside a body. -/
def Body.declared : Body → List NodeSpan
  | .stmts _ ss => Stmt.declaredIn ss
  | .block e => e.declared

/-- The declarations of a definition of an interface. -/
def SubinterfaceDef.declared : SubinterfaceDef → List NodeSpan
  | ⟨_, _, ss, _, span⟩ => InterfaceStmt.declaredIn ss ++ [⟨.subinterfaceDef, span⟩]

/-- The declarations of a statement of an interface. -/
def InterfaceStmt.declared : InterfaceStmt → List NodeSpan
  | .method d => d.declared
  | .subinterface d => d.declared
  | .stmt s => s.declared

/-- The declarations of statements of an interface. -/
def InterfaceStmt.declaredIn : List InterfaceStmt → List NodeSpan
  | [] => []
  | s :: ss => s.declared ++ InterfaceStmt.declaredIn ss

/-- The declarations of a rule. -/
def RuleDef.declared : RuleDef → List NodeSpan
  | ⟨_, none, body, _, span⟩ => Stmt.declaredIn body ++ [⟨.rule, span⟩]
  | ⟨_, some guard, body, _, span⟩ => guard.declared ++ Stmt.declaredIn body ++ [⟨.rule, span⟩]

end

/-! ## Lists and optional parts -/

theorem Expr.declared_eq (e : Expr) : e.declared = e.form.declared := by
  cases e
  rfl

theorem Expr.declaredIn_eq (es : List Expr) : Expr.declaredIn es = es.flatMap Expr.declared := by
  induction es with
  | nil => rfl
  | cons e es ih => rw [Expr.declaredIn, ih, List.flatMap_cons]

theorem FieldBind.declaredIn_eq (ms : List FieldBind) :
    FieldBind.declaredIn ms = ms.flatMap FieldBind.declared := by
  induction ms with
  | nil => rfl
  | cons m ms ih => rw [FieldBind.declaredIn, ih, List.flatMap_cons]

theorem Stmt.declaredIn_eq (ss : List Stmt) : Stmt.declaredIn ss = ss.flatMap Stmt.declared := by
  induction ss with
  | nil => rfl
  | cons s ss ih => rw [Stmt.declaredIn, ih, List.flatMap_cons]

theorem Declarator.innerOf_eq (ds : List Declarator) : Declarator.innerOf ds = ds.flatMap Declarator.inner := by
  induction ds with
  | nil => rfl
  | cons d ds ih => rw [Declarator.innerOf, ih, List.flatMap_cons]

theorem ModuleStmt.declaredIn_eq (ss : List ModuleStmt) :
    ModuleStmt.declaredIn ss = ss.flatMap ModuleStmt.declared := by
  induction ss with
  | nil => rfl
  | cons s ss ih => rw [ModuleStmt.declaredIn, ih, List.flatMap_cons]

theorem InterfaceStmt.declaredIn_eq (ss : List InterfaceStmt) :
    InterfaceStmt.declaredIn ss = ss.flatMap InterfaceStmt.declared := by
  induction ss with
  | nil => rfl
  | cons s ss ih => rw [InterfaceStmt.declaredIn, ih, List.flatMap_cons]

theorem ExprForm.declared_select (base hi : Expr) (lo : Option Expr) :
    (ExprForm.select base hi lo).declared =
      base.declared ++ hi.declared ++ lo.toList.flatMap Expr.declared := by
  cases lo with
  | none => exact (List.append_nil _).symm
  | some lo => exact congrArg _ (List.append_nil lo.declared).symm

theorem ExprForm.declared_binary (op : BinaryOp) (lhs rhs : Expr) :
    (ExprForm.binary op lhs rhs).declared = lhs.declared ++ rhs.declared := rfl

theorem ExprForm.declared_cond (p : Predicate) (a b : Expr) :
    (ExprForm.cond p a b).declared = p.declared ++ a.declared ++ b.declared := rfl

theorem ExprForm.declared_call (callee : Expr) (args : List Expr) :
    (ExprForm.call callee args).declared = callee.declared ++ args.flatMap Expr.declared :=
  congrArg _ (Expr.declaredIn_eq args)

theorem ExprForm.declared_methodCall (receiver : Expr) (method : String) (args : List Expr) :
    (ExprForm.methodCall receiver method args).declared = receiver.declared ++ args.flatMap Expr.declared :=
  congrArg _ (Expr.declaredIn_eq args)

theorem ExprForm.declared_valueBlock (labels : Labels) (ss : List Stmt) (result : Expr) :
    (ExprForm.valueBlock labels ss result).declared = ss.flatMap Stmt.declared ++ result.declared :=
  congrArg (· ++ result.declared) (Stmt.declaredIn_eq ss)

theorem ExprForm.declared_interfaceExpr (type : TypeExpr) (ss : List InterfaceStmt) (label : Option Label) :
    (ExprForm.interfaceExpr type ss label).declared = ss.flatMap InterfaceStmt.declared :=
  InterfaceStmt.declaredIn_eq ss

theorem StmtForm.declared_cond (p : Predicate) (a : Stmt) (b : Option Stmt) :
    (StmtForm.cond p a b).declared = p.declared ++ a.declared ++ b.toList.flatMap Stmt.declared := by
  cases b with
  | none => exact (List.append_nil _).symm
  | some b => exact congrArg _ (List.append_nil b.declared).symm

theorem Declarator.inner_mk (name : String) (dims : List Expr) (init : Option Expr) (span : Span) :
    (Declarator.mk name dims init span).inner =
      dims.flatMap Expr.declared ++ init.toList.flatMap Expr.declared := by
  cases init with
  | none => exact (Expr.declaredIn_eq dims).trans (List.append_nil _).symm
  | some e => exact congr (congrArg _ (Expr.declaredIn_eq dims)) (List.append_nil e.declared).symm

/-! ## Definitions

The declarations inside a definition, and then the definition itself. -/

/-- The declarations inside a function. -/
def FunctionDef.inner (d : FunctionDef) : List NodeSpan := d.body.declared

/-- The declarations inside a method. -/
def MethodDef.inner (d : MethodDef) : List NodeSpan :=
  d.guard.toList.flatMap Predicate.declared ++ d.body.declared

/-- The declarations inside a rule. -/
def RuleDef.inner (d : RuleDef) : List NodeSpan :=
  d.guard.toList.flatMap Predicate.declared ++ d.body.flatMap Stmt.declared

/-- The declarations inside a definition of an interface. -/
def SubinterfaceDef.inner (d : SubinterfaceDef) : List NodeSpan := d.stmts.flatMap InterfaceStmt.declared

/-- The declarations inside a module. -/
def ModuleDef.inner (d : ModuleDef) : List NodeSpan := d.stmts.flatMap ModuleStmt.declared

theorem FunctionDef.declared_eq (d : FunctionDef) : d.declared = d.inner ++ [⟨.functionDef, d.span⟩] := by
  cases d
  rfl

theorem MethodDef.declared_eq (d : MethodDef) : d.declared = d.inner ++ [⟨.methodDef, d.span⟩] := by
  obtain ⟨result, name, formals, guard, body, label, span⟩ := d
  cases guard with
  | none => rfl
  | some guard => exact congrArg (· ++ body.declared ++ _) (List.append_nil guard.declared).symm

theorem RuleDef.declared_eq (d : RuleDef) : d.declared = d.inner ++ [⟨.rule, d.span⟩] := by
  obtain ⟨name, guard, body, label, span⟩ := d
  rw [RuleDef.inner, ← Stmt.declaredIn_eq]
  cases guard with
  | none => rfl
  | some guard => exact congrArg (· ++ Stmt.declaredIn body ++ _) (List.append_nil guard.declared).symm

theorem SubinterfaceDef.declared_eq (d : SubinterfaceDef) :
    d.declared = d.inner ++ [⟨.subinterfaceDef, d.span⟩] := by
  rw [SubinterfaceDef.inner, ← InterfaceStmt.declaredIn_eq]
  cases d
  rfl

theorem ModuleDef.declared_eq (d : ModuleDef) : d.declared = d.inner ++ [⟨.moduleDef, d.span⟩] := by
  rw [ModuleDef.inner, ← ModuleStmt.declaredIn_eq]
  cases d
  rfl

/-! ## Simple statements -/

/-- The declarations inside a simple statement. -/
def SimpleStmt.inner : SimpleStmt → List NodeSpan
  | varDecl d => d.inner
  | assign a => a.inner
  | regWrite a => a.inner
  | bind b => b.inner
  | expr e => e.declared

theorem SimpleStmt.declared_form (s : SimpleStmt) : s.form.declared = s.inner := by
  cases s <;> rfl

/-- The declaration that a simple statement is where declarations and assignments have nodes. -/
def SimpleStmt.node? : SimpleStmt → Option NodeSpan
  | varDecl d => some ⟨.varDecl, d.span⟩
  | assign a => some ⟨.varAssign, a.span⟩
  | _ => none

/-! ## Source units -/

/-- The declarations of a statement of a package. -/
def PackageStmt.declared : PackageStmt → List NodeSpan
  | .interfaceDecl d => [⟨.interfaceDecl, d.span⟩]
  | .module d => d.declared
  | .function d => d.declared
  | .varDecl d => d.inner ++ [⟨.varDecl, d.span⟩]
  | .assign a => a.inner ++ [⟨.varAssign, a.span⟩]

/-- The declarations of the items of a package. -/
def PackageBody.declared (b : PackageBody) : List NodeSpan :=
  b.exports.map (fun d => ⟨.exportDecl, d.span⟩) ++ b.imports.map (fun d => ⟨.importDecl, d.span⟩) ++
    b.stmts.flatMap PackageStmt.declared

/-- The declarations of a source unit. -/
def SourceUnit.declared : SourceUnit → List NodeSpan
  | .package p => p.body.declared ++ [⟨.package, p.span⟩]
  | .items b => b.declared

end Bluespec
