import Bluespec.Concrete
import Bluespec.Grammar.Simple
import Bluespec.Tree.SourceUnit

/-!
# Moving trees

A tree is moved by a function on offsets: everything stays as it is but the spans.  Two trees that agree once all
offsets are moved to one place are equal up to their spans.

* **`Span.move`**, **`Token.move`**, **`Diagnostic.move`** — the parts that carry offsets.
* **`Expr.move`**, **`Stmt.move`**, **`SourceUnit.move`** — trees.
-/

namespace Bluespec

variable (f : Nat → Nat)

/-- A span with its ends moved. -/
def Span.move (s : Span) : Span := ⟨f s.start, f s.stop⟩

/-- A token at another place. -/
def Token.move (t : Token) : Token := ⟨t.kind, t.text, t.span.move f⟩

/-- A diagnostic at another place. -/
def Diagnostic.move (d : Diagnostic) : Diagnostic := ⟨d.problem, d.span.move f⟩

/-- A label at another place. -/
def Label.move (l : Label) : Label := ⟨l.name, l.span.move f⟩

/-- The labels of a block at another place. -/
def Labels.move (l : Labels) : Labels := ⟨l.opening.map (Label.move f), l.closing.map (Label.move f)⟩

/-! ## Types -/

mutual

/-- A type at another place. -/
def TypeExpr.move : TypeExpr → TypeExpr
  | ⟨form, span⟩ => ⟨form.move, span.move f⟩

/-- A form of a type at another place. -/
def TypeForm.move : TypeForm → TypeForm
  | .named name params => .named name (TypeExpr.moveAll params)
  | .var name => .var name
  | .number value => .number value
  | .bits hi lo => .bits hi lo

/-- Types at another place. -/
def TypeExpr.moveAll : List TypeExpr → List TypeExpr
  | [] => []
  | t :: ts => t.move :: TypeExpr.moveAll ts

end

/-- How names are introduced, at another place. -/
def DeclType.move : DeclType → DeclType
  | .typed type => .typed (type.move f)
  | .inferred => .inferred

/-- A formal at another place. -/
def Formal.move (d : Formal) : Formal := ⟨d.type.map (TypeExpr.move f), d.name, d.span.move f⟩

/-- A type formal at another place. -/
def TypeFormal.move (d : TypeFormal) : TypeFormal := ⟨d.kind, d.name, d.span.move f⟩

/-- A parameter of a module at another place. -/
def ModuleParam.move (d : ModuleParam) : ModuleParam := ⟨d.marked, d.type.move f, d.name, d.span.move f⟩

/-- An argument of a module at another place. -/
def ModuleArg.move (d : ModuleArg) : ModuleArg := ⟨d.type.move f, d.name, d.span.move f⟩

/-! ## Expressions, statements and definitions -/

mutual

/-- An expression at another place. -/
def Expr.move : Expr → Expr
  | ⟨form, span⟩ => ⟨form.move, span.move f⟩

/-- A form of an expression at another place. -/
def ExprForm.move : ExprForm → ExprForm
  | .var name => .var name
  | .typeRef name => .typeRef name
  | .literal lit => .literal lit
  | .unary op e => .unary op e.move
  | .binary op lhs rhs => .binary op lhs.move rhs.move
  | .cond p a b => .cond p.move a.move b.move
  | .concat es => .concat (Expr.moveAll es)
  | .select base hi none => .select base.move hi.move none
  | .select base hi (some lo) => .select base.move hi.move (some lo.move)
  | .valueBlock labels ss result => .valueBlock (labels.move f) (Stmt.moveAll ss) result.move
  | .actionBlock b => .actionBlock b.move
  | .actionValueBlock b => .actionValueBlock b.move
  | .call callee args => .call callee.move (Expr.moveAll args)
  | .methodCall receiver name args => .methodCall receiver.move name (Expr.moveAll args)
  | .field base name => .field base.move name
  | .struct name ms => .struct name (FieldBind.moveAll ms)
  | .tagged name p => .tagged name p.move
  | .interfaceExpr type ss label => .interfaceExpr (type.move f) (InterfaceStmt.moveAll ss) (label.map (Label.move f))
  | .dontCare => .dontCare
  | .valueOf type => .valueOf (type.move f)

/-- Expressions at another place. -/
def Expr.moveAll : List Expr → List Expr
  | [] => []
  | e :: es => e.move :: Expr.moveAll es

/-- A predicate at another place. -/
def Predicate.move : Predicate → Predicate
  | ⟨es, span⟩ => ⟨Expr.moveAll es, span.move f⟩

/-- A field with its value at another place. -/
def FieldBind.move : FieldBind → FieldBind
  | ⟨field, e, span⟩ => ⟨field, e.move, span.move f⟩

/-- Fields with their values at another place. -/
def FieldBind.moveAll : List FieldBind → List FieldBind
  | [] => []
  | m :: ms => m.move :: FieldBind.moveAll ms

/-- What a tag holds, at another place. -/
def Payload.move : Payload → Payload
  | .none => .none
  | .struct ms => .struct (FieldBind.moveAll ms)
  | .expr e => .expr e.move

/-- A block at another place. -/
def Block.move : Block → Block
  | ⟨labels, ss, span, dialect⟩ => ⟨labels.move f, Stmt.moveAll ss, span.move f, dialect⟩

/-- A statement at another place. -/
def Stmt.move : Stmt → Stmt
  | ⟨form, span⟩ => ⟨form.move, span.move f⟩

/-- Statements at another place. -/
def Stmt.moveAll : List Stmt → List Stmt
  | [] => []
  | s :: ss => s.move :: Stmt.moveAll ss

/-- A form of a statement at another place. -/
def StmtForm.move : StmtForm → StmtForm
  | .varDecl d => .varDecl d.move
  | .assign a => .assign a.move
  | .regWrite a => .regWrite a.move
  | .bind b => .bind b.move
  | .expr e => .expr e.move
  | .return_ e => .return_ e.move
  | .function d => .function d.move
  | .module d => .module d.move
  | .block b => .block b.move
  | .cond p a none => .cond p.move a.move none
  | .cond p a (some b) => .cond p.move a.move (some b.move)

/-- A declaration of variables at another place. -/
def VarDecl.move : VarDecl → VarDecl
  | ⟨type, ds, span⟩ => ⟨type.move f, Declarator.moveAll ds, span.move f⟩

/-- A declared name at another place. -/
def Declarator.move : Declarator → Declarator
  | ⟨name, dims, none, span⟩ => ⟨name, Expr.moveAll dims, none, span.move f⟩
  | ⟨name, dims, some e, span⟩ => ⟨name, Expr.moveAll dims, some e.move, span.move f⟩

/-- Declared names at another place. -/
def Declarator.moveAll : List Declarator → List Declarator
  | [] => []
  | d :: ds => d.move :: Declarator.moveAll ds

/-- An assignment at another place. -/
def Assign.move : Assign → Assign
  | ⟨target, value, span⟩ => ⟨target.move, value.move, span.move f⟩

/-- A binding at another place. -/
def Binding.move : Binding → Binding
  | ⟨decl, name, value, span⟩ => ⟨decl.map (DeclType.move f), name, value.move, span.move f⟩

/-- A function at another place. -/
def FunctionDef.move : FunctionDef → FunctionDef
  | ⟨result, name, formals, body, label, span⟩ =>
    ⟨result.move f, name, formals.map (Formal.move f), body.move, label.map (Label.move f), span.move f⟩

/-- A module at another place. -/
def ModuleDef.move : ModuleDef → ModuleDef
  | ⟨context, name, params, args, ss, label, span⟩ =>
    ⟨context.map (TypeExpr.move f), name, params.map (ModuleParam.move f), args.map (ModuleArg.move f),
      ModuleStmt.moveAll ss, label.map (Label.move f), span.move f⟩

/-- A statement of a module at another place. -/
def ModuleStmt.move : ModuleStmt → ModuleStmt
  | .method d => .method d.move
  | .subinterface d => .subinterface d.move
  | .rule d => .rule d.move
  | .return_ e => .return_ e.move
  | .varDecl d => .varDecl d.move
  | .bind b => .bind b.move
  | .assign a => .assign a.move
  | .expr e => .expr e.move
  | .function d => .function d.move
  | .module d => .module d.move

/-- Statements of a module at another place. -/
def ModuleStmt.moveAll : List ModuleStmt → List ModuleStmt
  | [] => []
  | s :: ss => s.move :: ModuleStmt.moveAll ss

/-- A method at another place. -/
def MethodDef.move : MethodDef → MethodDef
  | ⟨result, name, formals, none, body, label, span⟩ =>
    ⟨result.map (TypeExpr.move f), name, formals.map (Formal.move f), none, body.move, label.map (Label.move f),
      span.move f⟩
  | ⟨result, name, formals, some guard, body, label, span⟩ =>
    ⟨result.map (TypeExpr.move f), name, formals.map (Formal.move f), some guard.move, body.move,
      label.map (Label.move f), span.move f⟩

/-- A body at another place. -/
def Body.move : Body → Body
  | .stmts dialect ss => .stmts dialect (Stmt.moveAll ss)
  | .block e => .block e.move

/-- A definition of an interface at another place. -/
def SubinterfaceDef.move : SubinterfaceDef → SubinterfaceDef
  | ⟨type, name, ss, label, span⟩ =>
    ⟨type.move f, name, InterfaceStmt.moveAll ss, label.map (Label.move f), span.move f⟩

/-- A statement of an interface at another place. -/
def InterfaceStmt.move : InterfaceStmt → InterfaceStmt
  | .method d => .method d.move
  | .subinterface d => .subinterface d.move
  | .stmt s => .stmt s.move

/-- Statements of an interface at another place. -/
def InterfaceStmt.moveAll : List InterfaceStmt → List InterfaceStmt
  | [] => []
  | s :: ss => s.move :: InterfaceStmt.moveAll ss

/-- A rule at another place. -/
def RuleDef.move : RuleDef → RuleDef
  | ⟨name, none, body, label, span⟩ => ⟨name, none, Stmt.moveAll body, label.map (Label.move f), span.move f⟩
  | ⟨name, some guard, body, label, span⟩ =>
    ⟨name, some guard.move, Stmt.moveAll body, label.map (Label.move f), span.move f⟩

end

/-- A simple statement at another place. -/
def SimpleStmt.move : SimpleStmt → SimpleStmt
  | .varDecl d => .varDecl (d.move f)
  | .assign a => .assign (a.move f)
  | .regWrite a => .regWrite (a.move f)
  | .bind b => .bind (b.move f)
  | .expr e => .expr (e.move f)

/-! ## Source units -/

/-- An export list at another place. -/
def ExportDecl.move (d : ExportDecl) : ExportDecl := ⟨d.items, d.span.move f⟩

/-- An import list at another place. -/
def ImportDecl.move (d : ImportDecl) : ImportDecl := ⟨d.packages, d.span.move f⟩

/-- The prototype of a method at another place. -/
def MethodProto.move (d : MethodProto) : MethodProto :=
  ⟨d.result.move f, d.name, d.formals.map (Formal.move f), d.span.move f⟩

/-- An interface as a member at another place. -/
def SubinterfaceDecl.move (d : SubinterfaceDecl) : SubinterfaceDecl := ⟨d.type.move f, d.name, d.span.move f⟩

/-- A member of an interface at another place. -/
def InterfaceMember.move : InterfaceMember → InterfaceMember
  | .method d => .method (d.move f)
  | .subinterface d => .subinterface (d.move f)

/-- An interface at another place. -/
def InterfaceDecl.move (d : InterfaceDecl) : InterfaceDecl :=
  ⟨d.name, d.formals.map (TypeFormal.move f), d.members.map (InterfaceMember.move f), d.endLabel.map (Label.move f),
    d.span.move f⟩

/-- A statement of a package at another place. -/
def PackageStmt.move : PackageStmt → PackageStmt
  | .interfaceDecl d => .interfaceDecl (d.move f)
  | .module d => .module (d.move f)
  | .function d => .function (d.move f)
  | .varDecl d => .varDecl (d.move f)
  | .assign a => .assign (a.move f)

/-- The items of a package at another place. -/
def PackageBody.move (b : PackageBody) : PackageBody :=
  ⟨b.exports.map (ExportDecl.move f), b.imports.map (ImportDecl.move f), b.stmts.map (PackageStmt.move f)⟩

/-- A package at another place. -/
def Package.move (p : Package) : Package :=
  ⟨p.name, p.body.move f, p.endLabel.map (Label.move f), p.span.move f⟩

/-- A source unit at another place. -/
def SourceUnit.move : SourceUnit → SourceUnit
  | .package p => .package (p.move f)
  | .items b => .items (b.move f)

/-! ## Lists and optional parts -/

section Parts

theorem TypeExpr.moveAll_eq (ts : List TypeExpr) : TypeExpr.moveAll f ts = ts.map (TypeExpr.move f) := by
  induction ts with
  | nil => rfl
  | cons t ts ih => rw [TypeExpr.moveAll, ih, List.map_cons]

theorem Expr.moveAll_eq (es : List Expr) : Expr.moveAll f es = es.map (Expr.move f) := by
  induction es with
  | nil => rfl
  | cons e es ih => rw [Expr.moveAll, ih, List.map_cons]

theorem FieldBind.moveAll_eq (ms : List FieldBind) : FieldBind.moveAll f ms = ms.map (FieldBind.move f) := by
  induction ms with
  | nil => rfl
  | cons m ms ih => rw [FieldBind.moveAll, ih, List.map_cons]

theorem Stmt.moveAll_eq (ss : List Stmt) : Stmt.moveAll f ss = ss.map (Stmt.move f) := by
  induction ss with
  | nil => rfl
  | cons s ss ih => rw [Stmt.moveAll, ih, List.map_cons]

theorem Declarator.moveAll_eq (ds : List Declarator) : Declarator.moveAll f ds = ds.map (Declarator.move f) := by
  induction ds with
  | nil => rfl
  | cons d ds ih => rw [Declarator.moveAll, ih, List.map_cons]

theorem ModuleStmt.moveAll_eq (ss : List ModuleStmt) : ModuleStmt.moveAll f ss = ss.map (ModuleStmt.move f) := by
  induction ss with
  | nil => rfl
  | cons s ss ih => rw [ModuleStmt.moveAll, ih, List.map_cons]

theorem InterfaceStmt.moveAll_eq (ss : List InterfaceStmt) :
    InterfaceStmt.moveAll f ss = ss.map (InterfaceStmt.move f) := by
  induction ss with
  | nil => rfl
  | cons s ss ih => rw [InterfaceStmt.moveAll, ih, List.map_cons]

variable {f}

theorem Expr.form_move (e : Expr) : (e.move f).form = e.form.move f := by
  cases e
  rfl

theorem Expr.span_move (e : Expr) : (e.move f).span = e.span.move f := by
  cases e
  rfl

theorem ExprForm.move_select (base hi : Expr) (lo : Option Expr) :
    (ExprForm.select base hi lo).move f = .select (base.move f) (hi.move f) (lo.map (Expr.move f)) := by
  cases lo <;> rfl

theorem StmtForm.move_cond (p : Predicate) (a : Stmt) (b : Option Stmt) :
    (StmtForm.cond p a b).move f = .cond (p.move f) (a.move f) (b.map (Stmt.move f)) := by
  cases b <;> rfl

theorem Declarator.move_mk (name : String) (dims : List Expr) (init : Option Expr) (span : Span) :
    (Declarator.mk name dims init span).move f =
      ⟨name, dims.map (Expr.move f), init.map (Expr.move f), span.move f⟩ := by
  cases init with
  | none => rw [Declarator.move, Expr.moveAll_eq]; rfl
  | some e => rw [Declarator.move, Expr.moveAll_eq]; rfl

theorem SimpleStmt.move_form (s : SimpleStmt) : (s.move f).form = s.form.move f := by
  cases s <;> rfl

theorem SimpleStmt.leaf?_move (s : SimpleStmt) : (s.move f).leaf? = s.leaf? := by
  cases s <;> rfl

theorem SimpleStmt.span_move (s : SimpleStmt) : (s.move f).span = s.span.move f := by
  cases s with
  | varDecl d => cases d; rfl
  | assign a => cases a; rfl
  | regWrite a => cases a; rfl
  | bind b => cases b; rfl
  | expr e => exact e.span_move

mutual

/-- Whether an expression can be assigned to does not depend on its place. -/
theorem Expr.isLvalue_move (e : Expr) : (e.move f).isLvalue = e.isLvalue := by
  cases e with
  | mk form span => exact form.isLvalue_move

theorem ExprForm.isLvalue_move (form : ExprForm) : (form.move f).isLvalue = form.isLvalue := by
  cases form with
  | field base name => exact base.isLvalue_move
  | select base hi lo =>
    rw [ExprForm.move_select]
    exact base.isLvalue_move
  | _ => rfl

end

theorem TypeExpr.name?_move (type : TypeExpr) : (type.move f).name? = type.name? := by
  obtain ⟨form, span⟩ := type
  cases form <;> rfl

end Parts

end Bluespec
