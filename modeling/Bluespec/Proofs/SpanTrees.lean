import Bluespec.Proofs.RecordedDeclarations

/-!
# The spans of a tree

The spans of a syntax tree form a tree of their own: a node has a span, and children in the order in which they stand
in the source.

* **`SpanTree`** — such a tree; **`Expr.spans`**, **`Stmt.spans`**, **`SourceUnit.Arranged`** and the like tell it of
  syntax trees.
* **`Span.Reaches`** — a span from the start of one token to the end of another.
* **`SpanTree.Over`**, **`SpanTree.Row`** — a tree that reaches over some tokens, and trees that stand among tokens
  one after the other.
* **`SpanTree.Nested`** — spans hold the spans of their children, and the children of a node stand one after the other.
* **`SpanTree.Over.nested`**, **`SpanTree.Row.ordered`** — the spans of trees that stand among tokens are nested.
-/

namespace Bluespec

/-- The span of a node, and the spans of its children in the order in which they stand in the source. -/
inductive SpanTree
  | node (span : Span) (children : List SpanTree)

namespace SpanTree

/-- The span of the node. -/
def span : SpanTree → Span
  | node span _ => span

/-- A node without children. -/
def leaf (span : Span) : SpanTree := node span []

end SpanTree

/-! ## Types and formals -/

mutual

/-- The spans of a type. -/
def TypeExpr.spans : TypeExpr → SpanTree
  | ⟨form, span⟩ => .node span form.spans

/-- The spans inside a form of a type. -/
def TypeForm.spans : TypeForm → List SpanTree
  | .named _ params => TypeExpr.spansIn params
  | _ => []

/-- The spans of types. -/
def TypeExpr.spansIn : List TypeExpr → List SpanTree
  | [] => []
  | t :: ts => t.spans :: TypeExpr.spansIn ts

end

/-- The spans of what introduces the names of a declaration. -/
def DeclType.spans : DeclType → List SpanTree
  | .typed type => [type.spans]
  | .inferred => []

/-- The spans of a formal. -/
def Formal.spans (d : Formal) : SpanTree := .node d.span (d.type.toList.map TypeExpr.spans)

/-- The spans of a type formal. -/
def TypeFormal.spans (d : TypeFormal) : SpanTree := .leaf d.span

/-- The spans of a parameter of a module. -/
def ModuleParam.spans (d : ModuleParam) : SpanTree := .node d.span [d.type.spans]

/-- The spans of an argument of a module. -/
def ModuleArg.spans (d : ModuleArg) : SpanTree := .node d.span [d.type.spans]

/-- The span of a label. -/
def Label.spans (d : Label) : SpanTree := .leaf d.span

/-- The span of a label that may be left out. -/
def Label.spansIf (label : Option Label) : List SpanTree := label.toList.map Label.spans

/-! ## Expressions, statements and definitions -/

mutual

/-- The spans of an expression. -/
def Expr.spans : Expr → SpanTree
  | ⟨form, span⟩ => .node span form.spans

/-- The spans inside a form of an expression. -/
def ExprForm.spans : ExprForm → List SpanTree
  | .unary _ e => [e.spans]
  | .binary _ lhs rhs => [lhs.spans, rhs.spans]
  | .cond p a b => [p.spans, a.spans, b.spans]
  | .concat es => Expr.spansIn es
  | .select base hi lo => [base.spans, hi.spans] ++ Expr.spansIf lo
  | .valueBlock labels ss result =>
    Label.spansIf labels.opening ++ Stmt.spansIn ss ++ [result.spans] ++ Label.spansIf labels.closing
  | .actionBlock b => [b.spans]
  | .actionValueBlock b => [b.spans]
  | .call callee args => callee.spans :: Expr.spansIn args
  | .methodCall receiver _ args => receiver.spans :: Expr.spansIn args
  | .field base _ => [base.spans]
  | .struct _ ms => FieldBind.spansIn ms
  | .tagged _ p => p.spans
  | .interfaceExpr type ss endLabel => [type.spans] ++ InterfaceStmt.spansIn ss ++ Label.spansIf endLabel
  | .valueOf type => [type.spans]
  | _ => []

/-- The spans of expressions. -/
def Expr.spansIn : List Expr → List SpanTree
  | [] => []
  | e :: es => e.spans :: Expr.spansIn es

/-- The spans of an expression that may be left out. -/
def Expr.spansIf : Option Expr → List SpanTree
  | none => []
  | some e => [e.spans]

/-- The spans of a predicate. -/
def Predicate.spans : Predicate → SpanTree
  | ⟨es, span⟩ => .node span (Expr.spansIn es)

/-- The spans of a predicate that may be left out. -/
def Predicate.spansIf : Option Predicate → List SpanTree
  | none => []
  | some p => [p.spans]

/-- The spans of a field with its value. -/
def FieldBind.spans : FieldBind → SpanTree
  | ⟨_, e, span⟩ => .node span [e.spans]

/-- The spans of fields with their values. -/
def FieldBind.spansIn : List FieldBind → List SpanTree
  | [] => []
  | m :: ms => m.spans :: FieldBind.spansIn ms

/-- The spans of what a tag holds. -/
def Payload.spans : Payload → List SpanTree
  | .none => []
  | .struct ms => FieldBind.spansIn ms
  | .expr e => [e.spans]

/-- The spans of a block. -/
def Block.spans : Block → SpanTree
  | ⟨labels, ss, span, _⟩ =>
    .node span (Label.spansIf labels.opening ++ Stmt.spansIn ss ++ Label.spansIf labels.closing)

/-- The spans of a statement. -/
def Stmt.spans : Stmt → SpanTree
  | ⟨form, span⟩ => .node span form.spans

/-- The spans of statements. -/
def Stmt.spansIn : List Stmt → List SpanTree
  | [] => []
  | s :: ss => s.spans :: Stmt.spansIn ss

/-- The spans of a statement that may be left out. -/
def Stmt.spansIf : Option Stmt → List SpanTree
  | none => []
  | some s => [s.spans]

/-- The spans inside a form of a statement. -/
def StmtForm.spans : StmtForm → List SpanTree
  | .varDecl d => [d.spans]
  | .assign a => [a.spans]
  | .regWrite a => [a.spans]
  | .bind b => [b.spans]
  | .expr e => [e.spans]
  | .return_ e => [e.spans]
  | .function d => [d.spans]
  | .module d => [d.spans]
  | .block b => [b.spans]
  | .cond p a b => [p.spans, a.spans] ++ Stmt.spansIf b

/-- The spans of a declaration of variables. -/
def VarDecl.spans : VarDecl → SpanTree
  | ⟨type, ds, span⟩ => .node span (type.spans ++ Declarator.spansIn ds)

/-- The spans of a declared name. -/
def Declarator.spans : Declarator → SpanTree
  | ⟨_, dims, init, span⟩ => .node span (Expr.spansIn dims ++ Expr.spansIf init)

/-- The spans of declared names. -/
def Declarator.spansIn : List Declarator → List SpanTree
  | [] => []
  | d :: ds => d.spans :: Declarator.spansIn ds

/-- The spans of an assignment. -/
def Assign.spans : Assign → SpanTree
  | ⟨target, value, span⟩ => .node span [target.spans, value.spans]

/-- The spans of a binding. -/
def Binding.spans : Binding → SpanTree
  | ⟨decl, _, value, span⟩ => .node span (decl.toList.flatMap DeclType.spans ++ [value.spans])

/-- The spans of a function. -/
def FunctionDef.spans : FunctionDef → SpanTree
  | ⟨result, _, formals, body, endLabel, span⟩ =>
    .node span ([result.spans] ++ formals.map Formal.spans ++ body.spans ++ Label.spansIf endLabel)

/-- The spans of a module. -/
def ModuleDef.spans : ModuleDef → SpanTree
  | ⟨context, _, params, args, ss, endLabel, span⟩ =>
    .node span (context.toList.map TypeExpr.spans ++ params.map ModuleParam.spans ++ args.map ModuleArg.spans ++
      ModuleStmt.spansIn ss ++ Label.spansIf endLabel)

/-- The spans of a statement of a module. -/
def ModuleStmt.spans : ModuleStmt → SpanTree
  | .method d => d.spans
  | .subinterface d => d.spans
  | .rule d => d.spans
  | .return_ e => e.spans
  | .varDecl d => d.spans
  | .bind b => b.spans
  | .assign a => a.spans
  | .expr e => e.spans
  | .function d => d.spans
  | .module d => d.spans

/-- The spans of statements of a module. -/
def ModuleStmt.spansIn : List ModuleStmt → List SpanTree
  | [] => []
  | s :: ss => s.spans :: ModuleStmt.spansIn ss

/-- The spans of a method. -/
def MethodDef.spans : MethodDef → SpanTree
  | ⟨result, _, formals, guard, body, endLabel, span⟩ =>
    .node span (result.toList.map TypeExpr.spans ++ formals.map Formal.spans ++ Predicate.spansIf guard ++
      body.spans ++ Label.spansIf endLabel)

/-- The spans of a body. -/
def Body.spans : Body → List SpanTree
  | .stmts _ ss => Stmt.spansIn ss
  | .block e => [e.spans]

/-- The spans of a definition of an interface. -/
def SubinterfaceDef.spans : SubinterfaceDef → SpanTree
  | ⟨type, _, ss, endLabel, span⟩ => .node span ([type.spans] ++ InterfaceStmt.spansIn ss ++ Label.spansIf endLabel)

/-- The spans of a statement of an interface. -/
def InterfaceStmt.spans : InterfaceStmt → SpanTree
  | .method d => d.spans
  | .subinterface d => d.spans
  | .stmt s => s.spans

/-- The spans of statements of an interface. -/
def InterfaceStmt.spansIn : List InterfaceStmt → List SpanTree
  | [] => []
  | s :: ss => s.spans :: InterfaceStmt.spansIn ss

/-- The spans of a rule. -/
def RuleDef.spans : RuleDef → SpanTree
  | ⟨_, guard, body, endLabel, span⟩ =>
    .node span (Predicate.spansIf guard ++ Stmt.spansIn body ++ Label.spansIf endLabel)

end

/-! ## Source units -/

/-- The spans of the prototype of a method. -/
def MethodProto.spans (d : MethodProto) : SpanTree := .node d.span ([d.result.spans] ++ d.formals.map Formal.spans)

/-- The spans of an interface as a member of another. -/
def SubinterfaceDecl.spans (d : SubinterfaceDecl) : SpanTree := .node d.span [d.type.spans]

/-- The spans of a member of an interface. -/
def InterfaceMember.spans : InterfaceMember → SpanTree
  | .method d => d.spans
  | .subinterface d => d.spans

/-- The spans of an interface. -/
def InterfaceDecl.spans (d : InterfaceDecl) : SpanTree :=
  .node d.span (d.formals.map TypeFormal.spans ++ d.members.map InterfaceMember.spans ++ Label.spansIf d.endLabel)

/-- The span of an export list. -/
def ExportDecl.spans (d : ExportDecl) : SpanTree := .leaf d.span

/-- The span of an import list. -/
def ImportDecl.spans (d : ImportDecl) : SpanTree := .leaf d.span

/-- The spans of a statement of a package. -/
def PackageStmt.spans : PackageStmt → SpanTree
  | .interfaceDecl d => d.spans
  | .module d => d.spans
  | .function d => d.spans
  | .varDecl d => d.spans
  | .assign a => a.spans

/-- Trees are those of the items of a package: of each sort all, each sort in its own order. -/
structure PackageBody.Arranged (b : PackageBody) (trees : List SpanTree) : Prop where
  all : trees.Perm (b.exports.map ExportDecl.spans ++ b.imports.map ImportDecl.spans ++ b.stmts.map PackageStmt.spans)
  exports : (b.exports.map ExportDecl.spans).Sublist trees
  imports : (b.imports.map ImportDecl.spans).Sublist trees
  stmts : (b.stmts.map PackageStmt.spans).Sublist trees

/-- Trees are those of a source unit: those of its items, or that of its package, with the items in it. -/
inductive SourceUnit.Arranged : SourceUnit → List SpanTree → Prop
  | items {b : PackageBody} {trees : List SpanTree} (h : b.Arranged trees) : Arranged (.items b) trees
  | package {p : Package} {trees : List SpanTree} (h : p.body.Arranged trees) :
      Arranged (.package p) [.node p.span (trees ++ Label.spansIf p.endLabel)]

/-! ## Lists -/

theorem spansIn_eq {α : Type} (spans : α → SpanTree) (spansIn : List α → List SpanTree) (hnil : spansIn [] = [])
    (hcons : ∀ a as, spansIn (a :: as) = spans a :: spansIn as) (as : List α) : spansIn as = as.map spans := by
  induction as with
  | nil => exact hnil
  | cons a as ih => rw [hcons, ih, List.map_cons]

theorem TypeExpr.spansIn_eq (ts : List TypeExpr) : TypeExpr.spansIn ts = ts.map TypeExpr.spans :=
  Bluespec.spansIn_eq _ _ rfl (fun _ _ => rfl) ts

theorem Expr.spansIn_eq (es : List Expr) : Expr.spansIn es = es.map Expr.spans :=
  Bluespec.spansIn_eq _ _ rfl (fun _ _ => rfl) es

theorem FieldBind.spansIn_eq (ms : List FieldBind) : FieldBind.spansIn ms = ms.map FieldBind.spans :=
  Bluespec.spansIn_eq _ _ rfl (fun _ _ => rfl) ms

theorem Stmt.spansIn_eq (ss : List Stmt) : Stmt.spansIn ss = ss.map Stmt.spans :=
  Bluespec.spansIn_eq _ _ rfl (fun _ _ => rfl) ss

theorem Declarator.spansIn_eq (ds : List Declarator) : Declarator.spansIn ds = ds.map Declarator.spans :=
  Bluespec.spansIn_eq _ _ rfl (fun _ _ => rfl) ds

theorem ModuleStmt.spansIn_eq (ss : List ModuleStmt) : ModuleStmt.spansIn ss = ss.map ModuleStmt.spans :=
  Bluespec.spansIn_eq _ _ rfl (fun _ _ => rfl) ss

theorem InterfaceStmt.spansIn_eq (ss : List InterfaceStmt) : InterfaceStmt.spansIn ss = ss.map InterfaceStmt.spans :=
  Bluespec.spansIn_eq _ _ rfl (fun _ _ => rfl) ss

/-! ## Tokens that spans reach over -/

/-- The span reaches from the start of token `i` to the end of the last token before token `j`. -/
def Span.Reaches (tokens : List Token) (i j : Nat) (span : Span) : Prop :=
  i < j ∧ ∃ a b, tokens[i]? = some a ∧ tokens[j - 1]? = some b ∧ span = ⟨a.span.start, b.span.stop⟩

namespace Token.Ordered

variable {tokens : List Token} {i j : Nat} {a b : Token}

/-- A token ends before the tokens behind it begin. -/
theorem stop_le_start (h : Token.Ordered tokens) (hij : i < j) (ha : tokens[i]? = some a) (hb : tokens[j]? = some b) :
    a.span.stop ≤ b.span.start := by
  obtain ⟨hi, rfl⟩ := List.getElem?_eq_some_iff.mp ha
  obtain ⟨hj, rfl⟩ := List.getElem?_eq_some_iff.mp hb
  exact List.pairwise_iff_getElem.mp h.before i j hi hj hij

theorem start_lt_stop (h : Token.Ordered tokens) (ha : tokens[i]? = some a) : a.span.start < a.span.stop :=
  h.nonempty a (List.mem_of_getElem? ha)

theorem start_le_start (h : Token.Ordered tokens) (hij : i ≤ j) (ha : tokens[i]? = some a) (hb : tokens[j]? = some b) :
    a.span.start ≤ b.span.start := by
  rcases Nat.eq_or_lt_of_le hij with rfl | hlt
  · rw [ha] at hb
    cases hb
    exact Nat.le_refl _
  · exact Nat.le_trans (Nat.le_of_lt (h.start_lt_stop ha)) (h.stop_le_start hlt ha hb)

theorem stop_le_stop (h : Token.Ordered tokens) (hij : i ≤ j) (ha : tokens[i]? = some a) (hb : tokens[j]? = some b) :
    a.span.stop ≤ b.span.stop := by
  rcases Nat.eq_or_lt_of_le hij with rfl | hlt
  · rw [ha] at hb
    cases hb
    exact Nat.le_refl _
  · exact Nat.le_trans (h.stop_le_start hlt ha hb) (Nat.le_of_lt (h.start_lt_stop hb))

end Token.Ordered

namespace Span.Reaches

variable {tokens : List Token} {i i' j j' : Nat} {span span' : Span}

theorem lt (h : span.Reaches tokens i j) : i < j := h.1

/-- From the start of one span to the end of another. -/
theorem join {k : Nat} (h : span.Reaches tokens i j) (h' : span'.Reaches tokens i' k) (hlt : i < k) :
    Span.Reaches tokens i k ⟨span.start, span'.stop⟩ := by
  obtain ⟨-, a, _, ha, -, rfl⟩ := h
  obtain ⟨-, _, b, -, hb, rfl⟩ := h'
  exact ⟨hlt, a, b, ha, hb, rfl⟩

/-- Spans over later tokens come later. -/
theorem stop_le_start (h : span.Reaches tokens i j) (h' : span'.Reaches tokens i' j') (hord : Token.Ordered tokens)
    (hle : j ≤ i') : span.stop ≤ span'.start := by
  obtain ⟨hij, _, b, -, hb, rfl⟩ := h
  obtain ⟨hij', a, _, ha, -, rfl⟩ := h'
  exact hord.stop_le_start (by omega) hb ha

/-- Spans over more tokens hold those over fewer. -/
theorem inside (h : span.Reaches tokens i j) (h' : span'.Reaches tokens i' j') (hord : Token.Ordered tokens)
    (hi : i ≤ i') (hj : j' ≤ j) : span.start ≤ span'.start ∧ span'.stop ≤ span.stop := by
  obtain ⟨hij, a, b, ha, hb, rfl⟩ := h
  obtain ⟨hij', a', b', ha', hb', rfl⟩ := h'
  exact ⟨hord.start_le_start hi ha ha', hord.stop_le_stop (by omega) hb' hb⟩

theorem nonempty (h : span.Reaches tokens i j) (hord : Token.Ordered tokens) : span.start < span.stop := by
  obtain ⟨hij, a, b, ha, hb, rfl⟩ := h
  exact Nat.lt_of_lt_of_le (hord.start_lt_stop ha) (hord.stop_le_stop (by omega) ha hb)

end Span.Reaches

namespace SpanTree

/-! ## Trees among tokens -/

mutual

/-- The tree reaches from token `i` to the last token before token `j`, and its children stand among these. -/
inductive Over (tokens : List Token) : Nat → Nat → SpanTree → Prop
  | node {i j : Nat} {span : Span} {children : List SpanTree} (hspan : span.Reaches tokens i j)
      (hrow : Row tokens i j children) : Over tokens i j (.node span children)

/-- The trees stand one after the other among the tokens from token `i` to the last one before token `j`. -/
inductive Row (tokens : List Token) : Nat → Nat → List SpanTree → Prop
  | nil {i j : Nat} (h : i ≤ j) : Row tokens i j []
  | cons {i k l j : Nat} {tree : SpanTree} {trees : List SpanTree} (h : i ≤ k) (htree : Over tokens k l tree)
      (hrest : Row tokens l j trees) : Row tokens i j (tree :: trees)

end

variable {tokens : List Token} {i i' j j' k l : Nat} {tree : SpanTree} {trees trees' : List SpanTree}

theorem Over.reaches (h : Over tokens i j tree) : tree.span.Reaches tokens i j := by
  cases h with
  | node hspan _ => exact hspan

theorem Over.inner {span : Span} (h : Over tokens i j (.node span trees)) : Row tokens i j trees := by
  cases h with
  | node _ hrow => exact hrow

theorem Over.lt (h : Over tokens i j tree) : i < j := h.reaches.lt

theorem Row.le (h : Row tokens i j trees) : i ≤ j := by
  induction trees generalizing i with
  | nil =>
    cases h with
    | nil h => exact h
  | cons tree trees ih =>
    cases h with
    | cons h htree hrest =>
      have hlt := htree.lt
      have hle := ih hrest
      omega

/-- Trees among some tokens stand among more of them. -/
theorem Row.widen (h : Row tokens i j trees) (hi : i' ≤ i) (hj : j ≤ j') : Row tokens i' j' trees := by
  induction trees generalizing i i' with
  | nil =>
    have hle := h.le
    exact .nil (by omega)
  | cons tree trees ih =>
    cases h with
    | cons h htree hrest => exact .cons (Nat.le_trans hi h) htree (ih hrest (Nat.le_refl _))

theorem Row.append (h : Row tokens i j trees) (h' : Row tokens j k trees') : Row tokens i k (trees ++ trees') := by
  induction trees generalizing i with
  | nil => exact h'.widen h.le (Nat.le_refl _)
  | cons tree trees ih =>
    cases h with
    | cons h htree hrest => exact .cons h htree (ih hrest)

/-- Trees of which the second ones begin behind the end of the first ones. -/
theorem Row.join (h : Row tokens i j trees) (h' : Row tokens k l trees') (hle : j ≤ k) :
    Row tokens i l (trees ++ trees') :=
  h.append (h'.widen hle (Nat.le_refl _))

theorem Over.row (h : Over tokens i j tree) : Row tokens i j [tree] :=
  .cons (Nat.le_refl _) h (.nil (Nat.le_refl _))

theorem Row.lt (h : Row tokens i j (tree :: trees)) : i < j := by
  cases h with
  | cons h htree hrest =>
    have hlt := htree.lt
    have hle := hrest.le
    omega

/-- Each of the trees covers some of the tokens. -/
theorem Row.covers (h : Row tokens i j trees) (htree : tree ∈ trees) :
    ∃ k l, i ≤ k ∧ l ≤ j ∧ Over tokens k l tree := by
  induction trees generalizing i with
  | nil => exact absurd htree List.not_mem_nil
  | cons first trees ih =>
    cases h with
    | cons h hfirst hrest =>
      rcases List.mem_cons.mp htree with rfl | htree
      · exact ⟨_, _, h, hrest.le, hfirst⟩
      · obtain ⟨k, l, hk, hl, hcovers⟩ := ih hrest htree
        have hlt := hfirst.lt
        exact ⟨k, l, by omega, hl, hcovers⟩

/-! ## Nested spans -/

/-- Each span reaches from the start of a token to the end of one and is not empty; it holds the spans of the children
of its node, and these stand one after the other. -/
inductive Nested (tokens : List Token) : SpanTree → Prop
  | node {span : Span} {children : List SpanTree} (hstart : ∃ t ∈ tokens, t.span.start = span.start)
      (hstop : ∃ t ∈ tokens, t.span.stop = span.stop) (hnonempty : span.start < span.stop)
      (hinside : ∀ child ∈ children, span.start ≤ child.span.start ∧ child.span.stop ≤ span.stop)
      (hordered : children.Pairwise fun a b => a.span.stop ≤ b.span.start)
      (hchildren : ∀ child ∈ children, Nested tokens child) : Nested tokens (.node span children)

/-- Trees that stand among tokens end before the next of them begin. -/
theorem Row.ordered (h : Row tokens i j trees) (hord : Token.Ordered tokens) :
    trees.Pairwise fun a b => a.span.stop ≤ b.span.start := by
  induction trees generalizing i with
  | nil => exact .nil
  | cons tree trees ih =>
    cases h with
    | cons _ htree hrest =>
      refine List.pairwise_cons.mpr ⟨fun next hnext => ?_, ih hrest⟩
      obtain ⟨k, l, hk, -, hcovers⟩ := hrest.covers hnext
      exact htree.reaches.stop_le_start hcovers.reaches hord hk

theorem Row.inside {span : Span} (h : Row tokens i j trees) (hspan : span.Reaches tokens i j)
    (hord : Token.Ordered tokens) (htree : tree ∈ trees) :
    span.start ≤ tree.span.start ∧ tree.span.stop ≤ span.stop := by
  obtain ⟨k, l, hk, hl, hcovers⟩ := h.covers htree
  exact hspan.inside hcovers.reaches hord hk hl

theorem Nested.of_reaches {span : Span} (hspan : span.Reaches tokens i j) (hrow : Row tokens i j trees)
    (hord : Token.Ordered tokens) (htrees : ∀ tree ∈ trees, Nested tokens tree) :
    Nested tokens (.node span trees) := by
  have hnonempty := hspan.nonempty hord
  have hinside := fun tree (htree : tree ∈ trees) => hrow.inside hspan hord htree
  obtain ⟨_, a, b, ha, hb, rfl⟩ := hspan
  exact .node ⟨a, List.mem_of_getElem? ha, rfl⟩ ⟨b, List.mem_of_getElem? hb, rfl⟩ hnonempty hinside
    (hrow.ordered hord) htrees

mutual

/-- The spans of a tree that covers tokens are nested. -/
theorem Over.nested {tokens : List Token} {i j : Nat} {tree : SpanTree} (h : Over tokens i j tree)
    (hord : Token.Ordered tokens) : Nested tokens tree := by
  cases h with
  | node hspan hrow => exact .of_reaches hspan hrow hord (hrow.nested hord)

/-- The spans of trees that stand among tokens are nested. -/
theorem Row.nested {tokens : List Token} {i j : Nat} {trees : List SpanTree} (h : Row tokens i j trees)
    (hord : Token.Ordered tokens) : ∀ tree ∈ trees, Nested tokens tree := by
  cases h with
  | nil _ => exact fun _ htree => absurd htree List.not_mem_nil
  | cons _ htree hrest => exact List.forall_mem_cons.mpr ⟨htree.nested hord, hrest.nested hord⟩

end

end SpanTree

end Bluespec
