import Bluespec.Tree.SourceUnit

/-!
# The expressions and statements of a tree

A **`Site`** is an expression or a statement somewhere in a tree, a statement with the dialect it was read in.
**`Expr.sites`**, **`Stmt.sites`** and **`SourceUnit.sites`** list those of a tree at any depth, an outer one before
those inside it.  **`Site.assigns`** and **`SourceUnit.assigns`** list the assignments, those of modules and packages
included, which are no statements of a dialect.
-/

namespace Bluespec

/-- An expression, or a statement of a dialect. -/
inductive Site
  | expr (e : Expr)
  | stmt (dialect : Dialect) (s : Stmt)

mutual

/-- The sites of an expression. -/
def Expr.sites : Expr → List Site
  | ⟨form, span⟩ => .expr ⟨form, span⟩ :: form.sites

/-- The sites inside a form of an expression. -/
def ExprForm.sites : ExprForm → List Site
  | .unary _ e => e.sites
  | .binary _ lhs rhs => lhs.sites ++ rhs.sites
  | .cond p a b => p.sites ++ a.sites ++ b.sites
  | .concat es => Expr.sitesIn es
  | .select base hi none => base.sites ++ hi.sites
  | .select base hi (some lo) => base.sites ++ hi.sites ++ lo.sites
  | .valueBlock _ ss result => Stmt.sitesIn .expression ss ++ result.sites
  | .actionBlock b => b.sites
  | .actionValueBlock b => b.sites
  | .call callee args => callee.sites ++ Expr.sitesIn args
  | .methodCall receiver _ args => receiver.sites ++ Expr.sitesIn args
  | .field base _ => base.sites
  | .struct _ ms => FieldBind.sitesIn ms
  | .tagged _ p => p.sites
  | .interfaceExpr _ ss _ => InterfaceStmt.sitesIn ss
  | _ => []

/-- The sites of expressions. -/
def Expr.sitesIn : List Expr → List Site
  | [] => []
  | e :: es => e.sites ++ Expr.sitesIn es

/-- The sites of a predicate. -/
def Predicate.sites : Predicate → List Site
  | ⟨es, _⟩ => Expr.sitesIn es

/-- The sites of a field's value. -/
def FieldBind.sites : FieldBind → List Site
  | ⟨_, e, _⟩ => e.sites

/-- The sites of the values of fields. -/
def FieldBind.sitesIn : List FieldBind → List Site
  | [] => []
  | m :: ms => m.sites ++ FieldBind.sitesIn ms

/-- The sites of what a tag holds. -/
def Payload.sites : Payload → List Site
  | .none => []
  | .struct ms => FieldBind.sitesIn ms
  | .expr e => e.sites

/-- The sites of a block. -/
def Block.sites : Block → List Site
  | ⟨_, ss, _, dialect⟩ => Stmt.sitesIn dialect ss

/-- The sites of a statement of a dialect. -/
def Stmt.sites (dialect : Dialect) : Stmt → List Site
  | ⟨form, span⟩ => .stmt dialect ⟨form, span⟩ :: form.sites dialect

/-- The sites of statements of a dialect. -/
def Stmt.sitesIn (dialect : Dialect) : List Stmt → List Site
  | [] => []
  | s :: ss => s.sites dialect ++ Stmt.sitesIn dialect ss

/-- The sites inside a form of a statement of a dialect; the branches of a conditional are of the same dialect. -/
def StmtForm.sites (dialect : Dialect) : StmtForm → List Site
  | .varDecl d => d.sites
  | .assign a => a.sites
  | .regWrite a => a.sites
  | .bind b => b.sites
  | .expr e => e.sites
  | .return_ e => e.sites
  | .function d => d.sites
  | .module d => d.sites
  | .block b => b.sites
  | .cond p a none => p.sites ++ a.sites dialect
  | .cond p a (some b) => p.sites ++ a.sites dialect ++ b.sites dialect

/-- The sites of a declaration of variables. -/
def VarDecl.sites : VarDecl → List Site
  | ⟨_, ds, _⟩ => Declarator.sitesIn ds

/-- The sites of a declared name. -/
def Declarator.sites : Declarator → List Site
  | ⟨_, dims, none, _⟩ => Expr.sitesIn dims
  | ⟨_, dims, some e, _⟩ => Expr.sitesIn dims ++ e.sites

/-- The sites of declared names. -/
def Declarator.sitesIn : List Declarator → List Site
  | [] => []
  | d :: ds => d.sites ++ Declarator.sitesIn ds

/-- The sites of an assignment. -/
def Assign.sites : Assign → List Site
  | ⟨target, value, _⟩ => target.sites ++ value.sites

/-- The sites of a binding. -/
def Binding.sites : Binding → List Site
  | ⟨_, _, value, _⟩ => value.sites

/-- The sites of a function. -/
def FunctionDef.sites : FunctionDef → List Site
  | ⟨_, _, _, body, _, _⟩ => body.sites

/-- The sites of a module. -/
def ModuleDef.sites : ModuleDef → List Site
  | ⟨_, _, _, _, ss, _, _⟩ => ModuleStmt.sitesIn ss

/-- The sites of a statement of a module. -/
def ModuleStmt.sites : ModuleStmt → List Site
  | .method d => d.sites
  | .subinterface d => d.sites
  | .rule d => d.sites
  | .return_ e => e.sites
  | .varDecl d => d.sites
  | .bind b => b.sites
  | .assign a => a.sites
  | .expr e => e.sites
  | .function d => d.sites
  | .module d => d.sites

/-- The sites of statements of a module. -/
def ModuleStmt.sitesIn : List ModuleStmt → List Site
  | [] => []
  | s :: ss => s.sites ++ ModuleStmt.sitesIn ss

/-- The sites of a method. -/
def MethodDef.sites : MethodDef → List Site
  | ⟨_, _, _, none, body, _, _⟩ => body.sites
  | ⟨_, _, _, some guard, body, _, _⟩ => guard.sites ++ body.sites

/-- The sites of a body. -/
def Body.sites : Body → List Site
  | .stmts dialect ss => Stmt.sitesIn dialect ss
  | .block e => e.sites

/-- The sites of a definition of an interface. -/
def SubinterfaceDef.sites : SubinterfaceDef → List Site
  | ⟨_, _, ss, _, _⟩ => InterfaceStmt.sitesIn ss

/-- The sites of a statement of an interface. -/
def InterfaceStmt.sites : InterfaceStmt → List Site
  | .method d => d.sites
  | .subinterface d => d.sites
  | .stmt s => s.sites .expression

/-- The sites of statements of an interface. -/
def InterfaceStmt.sitesIn : List InterfaceStmt → List Site
  | [] => []
  | s :: ss => s.sites ++ InterfaceStmt.sitesIn ss

/-- The sites of a rule. -/
def RuleDef.sites : RuleDef → List Site
  | ⟨_, none, body, _, _⟩ => Stmt.sitesIn .action body
  | ⟨_, some guard, body, _, _⟩ => guard.sites ++ Stmt.sitesIn .action body

end

/-- The sites of a statement of a package. -/
def PackageStmt.sites : PackageStmt → List Site
  | .interfaceDecl _ => []
  | .module d => d.sites
  | .function d => d.sites
  | .varDecl d => d.sites
  | .assign a => a.sites

/-- The sites of the items of a package. -/
def PackageBody.sites (b : PackageBody) : List Site := b.stmts.flatMap PackageStmt.sites

/-- The sites of a source unit. -/
def SourceUnit.sites : SourceUnit → List Site
  | .package p => p.body.sites
  | .items b => b.sites

/-! ## Assignments -/

mutual

/-- The assignments of a module that are no statements of a dialect: its own, and those of a module directly in it. -/
def ModuleDef.assigns : ModuleDef → List Assign
  | ⟨_, _, _, _, ss, _, _⟩ => ModuleStmt.assignsIn ss

/-- The assignment that a statement of a module is, or those of the module that it defines. -/
def ModuleStmt.assigns : ModuleStmt → List Assign
  | .assign a => [a]
  | .module d => d.assigns
  | _ => []

/-- The assignments of statements of a module. -/
def ModuleStmt.assignsIn : List ModuleStmt → List Assign
  | [] => []
  | s :: ss => s.assigns ++ ModuleStmt.assignsIn ss

end

/-- The assignment that a form of a statement is, or those of the module that it defines. -/
def StmtForm.assigns : StmtForm → List Assign
  | .assign a => [a]
  | .module d => d.assigns
  | _ => []

/-- The assignments of a site, without those of the sites inside it. -/
def Site.assigns : Site → List Assign
  | .expr _ => []
  | .stmt _ s => s.form.assigns

/-- The assignment that a statement of a package is, or those of the module that it defines. -/
def PackageStmt.assigns : PackageStmt → List Assign
  | .assign a => [a]
  | .module d => d.assigns
  | _ => []

/-- The assignments of a source unit, at any depth. -/
def SourceUnit.assigns (u : SourceUnit) : List Assign :=
  u.body.stmts.flatMap PackageStmt.assigns ++ u.sites.flatMap Site.assigns

/-! ## What holds at all sites -/

/-- A property holds at all sites. -/
def AllSites (P : Site → Prop) (xs : List Site) : Prop := ∀ x ∈ xs, P x

section AllSites

variable {P : Site → Prop}

@[simp] theorem allSites_nil : AllSites P [] := nofun

@[simp] theorem allSites_append {xs ys : List Site} : AllSites P (xs ++ ys) ↔ AllSites P xs ∧ AllSites P ys :=
  List.forall_mem_append

theorem Expr.allSites {e : Expr} : AllSites P e.sites ↔ P (.expr e) ∧ AllSites P e.form.sites := by
  cases e
  exact List.forall_mem_cons

theorem Stmt.allSites {dialect : Dialect} {s : Stmt} :
    AllSites P (s.sites dialect) ↔ P (.stmt dialect s) ∧ AllSites P (s.form.sites dialect) := by
  cases s
  exact List.forall_mem_cons

/-- What holds at the sites of the members of a list. -/
theorem allSites_list {α : Type} (sites : α → List Site) (sitesIn : List α → List Site) (hnil : sitesIn [] = [])
    (hcons : ∀ a as, sitesIn (a :: as) = sites a ++ sitesIn as) {as : List α} :
    AllSites P (sitesIn as) ↔ ∀ a ∈ as, AllSites P (sites a) := by
  induction as with
  | nil => rw [hnil]; exact ⟨fun _ _ => nofun, fun _ => nofun⟩
  | cons a as ih => rw [hcons, allSites_append, ih, List.forall_mem_cons]

@[simp] theorem Expr.allSitesIn {es : List Expr} : AllSites P (Expr.sitesIn es) ↔ ∀ e ∈ es, AllSites P e.sites :=
  allSites_list Expr.sites Expr.sitesIn rfl fun _ _ => rfl

@[simp] theorem FieldBind.allSitesIn {ms : List FieldBind} :
    AllSites P (FieldBind.sitesIn ms) ↔ ∀ m ∈ ms, AllSites P m.sites :=
  allSites_list FieldBind.sites FieldBind.sitesIn rfl fun _ _ => rfl

@[simp] theorem Stmt.allSitesIn {dialect : Dialect} {ss : List Stmt} :
    AllSites P (Stmt.sitesIn dialect ss) ↔ ∀ s ∈ ss, AllSites P (s.sites dialect) :=
  allSites_list (Stmt.sites dialect) (Stmt.sitesIn dialect) rfl fun _ _ => rfl

@[simp] theorem Declarator.allSitesIn {ds : List Declarator} :
    AllSites P (Declarator.sitesIn ds) ↔ ∀ d ∈ ds, AllSites P d.sites :=
  allSites_list Declarator.sites Declarator.sitesIn rfl fun _ _ => rfl

@[simp] theorem ModuleStmt.allSitesIn {ss : List ModuleStmt} :
    AllSites P (ModuleStmt.sitesIn ss) ↔ ∀ s ∈ ss, AllSites P s.sites :=
  allSites_list ModuleStmt.sites ModuleStmt.sitesIn rfl fun _ _ => rfl

@[simp] theorem InterfaceStmt.allSitesIn {ss : List InterfaceStmt} :
    AllSites P (InterfaceStmt.sitesIn ss) ↔ ∀ s ∈ ss, AllSites P s.sites :=
  allSites_list InterfaceStmt.sites InterfaceStmt.sitesIn rfl fun _ _ => rfl

/-! ### Optional parts -/

theorem ExprForm.allSites_select {base hi : Expr} {lo : Option Expr} :
    AllSites P (ExprForm.select base hi lo).sites ↔
      (AllSites P base.sites ∧ AllSites P hi.sites) ∧ ∀ e ∈ lo, AllSites P e.sites := by
  cases lo with
  | none => simp [ExprForm.sites]
  | some lo => simp [ExprForm.sites, and_assoc]

theorem StmtForm.allSites_cond {dialect : Dialect} {p : Predicate} {a : Stmt} {b : Option Stmt} :
    AllSites P ((StmtForm.cond p a b).sites dialect) ↔
      (AllSites P p.sites ∧ AllSites P (a.sites dialect)) ∧ ∀ s ∈ b, AllSites P (s.sites dialect) := by
  cases b with
  | none => simp [StmtForm.sites]
  | some b => simp [StmtForm.sites, and_assoc]

theorem Declarator.allSites {d : Declarator} :
    AllSites P d.sites ↔ (∀ e ∈ d.dims, AllSites P e.sites) ∧ ∀ e ∈ d.init, AllSites P e.sites := by
  obtain ⟨name, dims, init, span⟩ := d
  cases init with
  | none => simp [Declarator.sites]
  | some e => simp [Declarator.sites]

theorem MethodDef.allSites {d : MethodDef} :
    AllSites P d.sites ↔ (∀ p ∈ d.guard, AllSites P p.sites) ∧ AllSites P d.body.sites := by
  obtain ⟨result, name, formals, guard, body, label, span⟩ := d
  cases guard with
  | none => simp [MethodDef.sites]
  | some guard => simp [MethodDef.sites]

theorem RuleDef.allSites {d : RuleDef} :
    AllSites P d.sites ↔ (∀ p ∈ d.guard, AllSites P p.sites) ∧ ∀ s ∈ d.body, AllSites P (s.sites .action) := by
  obtain ⟨name, guard, body, label, span⟩ := d
  cases guard with
  | none => simp [RuleDef.sites]
  | some guard => simp [RuleDef.sites]

theorem PackageBody.allSites {b : PackageBody} : AllSites P b.sites ↔ ∀ s ∈ b.stmts, AllSites P s.sites :=
  List.forall_mem_flatMap

end AllSites

end Bluespec
