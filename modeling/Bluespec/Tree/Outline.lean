import Bluespec.Outline
import Bluespec.Tree.SourceUnit

/-!
# Outlines of trees

**`SourceUnit.outline`** shows every part of a source unit; the names of its parts are the ones that a
dump of the tree shows.
-/

namespace Bluespec

open Outline (atom tuple record list option quoted bool nat)

/-! ## Labels, literals and types -/

/-- The outline of a label. -/
def Label.outline (label : Label) : Outline :=
  record "Label" [("name", quoted label.name), ("span", .span label.span)]

/-- The outline of the labels of a block. -/
def Labels.outline (labels : Labels) : Outline :=
  record "Labels"
    [("open", option Label.outline labels.opening), ("close", option Label.outline labels.closing)]

/-- The outline of a sign. -/
def Sign.outline : Sign → Outline
  | .plus => atom "Plus"
  | .minus => atom "Minus"

/-- The outline of a base. -/
def Base.outline : Base → Outline
  | .decimal => atom "Decimal"
  | .hexadecimal => atom "Hex"
  | .octal => atom "Octal"
  | .binary => atom "Binary"

/-- The outline of an integer literal. -/
def IntLiteral.outline (lit : IntLiteral) : Outline :=
  record "IntLiteral"
    [("width", option nat lit.width), ("sign", option Sign.outline lit.sign),
      ("base", lit.base.outline), ("explicit_base", bool lit.explicitBase),
      ("digits", quoted lit.digits)]

/-- The outline of an exponent. -/
def Exponent.outline (e : Exponent) : Outline :=
  record "Exponent" [("sign", option Sign.outline e.sign), ("digits", quoted e.digits)]

/-- The outline of a real literal. -/
def RealLiteral.outline (lit : RealLiteral) : Outline :=
  record "RealLiteral"
    [("integer", quoted lit.integer), ("fraction", option quoted lit.fraction),
      ("exponent", option Exponent.outline lit.exponent)]

/-- The outline of a literal. -/
def Literal.outline : Literal → Outline
  | .int lit => tuple "Int" [lit.outline]
  | .fill bit => tuple "Fill" [bool bit]
  | .real lit => tuple "Real" [lit.outline]
  | .string text => tuple "String" [quoted text]

mutual

/-- The outline of a type. -/
def TypeExpr.outline : TypeExpr → Outline
  | ⟨form, span⟩ => record "Type" [("kind", form.outline), ("span", .span span)]

/-- The outline of the form of a type. -/
def TypeForm.outline : TypeForm → Outline
  | .named name params =>
    record "Named" [("name", quoted name), ("params", list (TypeExpr.outlines params))]
  | .var name => tuple "Var" [quoted name]
  | .number value => tuple "Nat" [nat value]
  | .bits hi lo => record "Bit" [("hi", nat hi), ("lo", nat lo)]

/-- The outlines of several types. -/
def TypeExpr.outlines : List TypeExpr → List Outline
  | [] => []
  | t :: ts => t.outline :: TypeExpr.outlines ts

end

/-- The outline of how a declaration introduces its names. -/
def DeclType.outline : DeclType → Outline
  | .typed type => tuple "Typed" [type.outline]
  | .inferred => atom "Let"

/-! ## Formals -/

/-- The outline of a formal. -/
def Formal.outline (f : Formal) : Outline :=
  record "Formal"
    [("ty", option TypeExpr.outline f.type), ("name", quoted f.name), ("span", .span f.span)]

/-- The outline of what a type formal ranges over. -/
def TypeFormalKind.outline : TypeFormalKind → Outline
  | .type => atom "Type"
  | .numeric => atom "Numeric"
  | .string => atom "String"

/-- The outline of a type formal. -/
def TypeFormal.outline (f : TypeFormal) : Outline :=
  record "TypeFormal"
    [("kind", f.kind.outline), ("name", quoted f.name), ("span", .span f.span)]

/-- The outline of a parameter of a module. -/
def ModuleParam.outline (p : ModuleParam) : Outline :=
  record "ModuleParam"
    [("parameter", bool p.marked), ("ty", p.type.outline), ("name", quoted p.name),
      ("span", .span p.span)]

/-- The outline of an argument of a module. -/
def ModuleArg.outline (a : ModuleArg) : Outline :=
  record "ModuleArg"
    [("ty", a.type.outline), ("name", option quoted a.name), ("span", .span a.span)]

/-! ## Expressions, statements and definitions -/

/-- The name of a unary operator. -/
def UnaryOp.name : UnaryOp → String
  | .plus => "Plus"
  | .neg => "Neg"
  | .not => "Not"
  | .bitNot => "BitNot"
  | .reduceAnd => "ReduceAnd"
  | .reduceNand => "ReduceNand"
  | .reduceOr => "ReduceOr"
  | .reduceNor => "ReduceNor"
  | .reduceXor => "ReduceXor"
  | .reduceXnor => "ReduceXnor"

/-- The name of a binary operator. -/
def BinaryOp.name : BinaryOp → String
  | .mul => "Mul"
  | .div => "Div"
  | .mod => "Mod"
  | .add => "Add"
  | .sub => "Sub"
  | .shl => "Shl"
  | .shr => "Shr"
  | .lt => "Lt"
  | .lte => "Lte"
  | .gt => "Gt"
  | .gte => "Gte"
  | .eq => "Eq"
  | .neq => "Neq"
  | .bitAnd => "BitAnd"
  | .bitXor => "BitXor"
  | .bitXnor => "BitXnor"
  | .bitOr => "BitOr"
  | .and => "And"
  | .or => "Or"

/-- The outline of a dialect. -/
def Dialect.outline : Dialect → Outline
  | .action => atom "ActionCtx"
  | .actionValue => atom "ActionValueCtx"
  | .expression => atom "ExpressionCtx"
  | .functionBody => atom "FunctionBodyCtx"

/-- The name of a body with statements of a dialect. -/
def Dialect.bodyName : Dialect → String
  | .action => "Action"
  | .actionValue => "ActionValue"
  | .expression | .functionBody => "Value"

mutual

/-- The outline of an expression. -/
def Expr.outline : Expr → Outline
  | ⟨form, span⟩ => record "Expr" [("kind", form.outline), ("span", .span span)]

/-- The outlines of several expressions. -/
def Expr.outlines : List Expr → List Outline
  | [] => []
  | e :: es => e.outline :: Expr.outlines es

/-- The outline of an expression that may be missing. -/
def Expr.outline? : Option Expr → Outline
  | none => atom "None"
  | some e => tuple "Some" [e.outline]

/-- The outline of the form of an expression. -/
def ExprForm.outline : ExprForm → Outline
  | .var name => tuple "Var" [quoted name]
  | .typeRef name => tuple "TypeRef" [quoted name]
  | .literal lit => tuple "Literal" [lit.outline]
  | .unary op operand => record "Unary" [("op", atom op.name), ("expr", operand.outline)]
  | .binary op lhs rhs =>
    record "Binary" [("op", atom op.name), ("lhs", lhs.outline), ("rhs", rhs.outline)]
  | .cond predicate thenBranch elseBranch =>
    record "Cond"
      [("predicate", predicate.outline), ("then_branch", thenBranch.outline),
        ("else_branch", elseBranch.outline)]
  | .concat items => tuple "Concat" [list (Expr.outlines items)]
  | .select base hi lo =>
    record "BitSelect" [("expr", base.outline), ("hi", hi.outline), ("lo", Expr.outline? lo)]
  | .valueBlock labels stmts result =>
    tuple "Block"
      [record "ValueBlock"
        [("labels", labels.outline), ("stmts", list (Stmt.outlines stmts)),
          ("result", result.outline)]]
  | .actionBlock block => tuple "ActionBlock" [block.outline]
  | .actionValueBlock block => tuple "ActionValueBlock" [block.outline]
  | .call callee args =>
    record "Call" [("callee", callee.outline), ("args", list (Expr.outlines args))]
  | .methodCall receiver method args =>
    record "MethodCall"
      [("recv", receiver.outline), ("method", quoted method), ("args", list (Expr.outlines args))]
  | .field base field => record "Field" [("expr", base.outline), ("field", quoted field)]
  | .struct name members =>
    record "Struct" [("name", quoted name), ("members", list (FieldBind.outlines members))]
  | .tagged name payload =>
    record "Tagged" [("name", quoted name), ("payload", payload.outline)]
  | .interfaceExpr type stmts endLabel =>
    tuple "Interface"
      [record "InterfaceExpr"
        [("ty", type.outline), ("stmts", list (InterfaceStmt.outlines stmts)),
          ("end_label", option Label.outline endLabel)]]
  | .dontCare => atom "DontCare"
  | .valueOf type => tuple "ValueOf" [type.outline]

/-- The outline of a predicate. -/
def Predicate.outline : Predicate → Outline
  | ⟨conjuncts, span⟩ =>
    record "CondPredicate"
      [("conjuncts", list (Expr.outlines conjuncts)), ("span", .span span)]

/-- The outline of a predicate that may be missing. -/
def Predicate.outline? : Option Predicate → Outline
  | none => atom "None"
  | some p => tuple "Some" [p.outline]

/-- The outlines of fields with their values. -/
def FieldBind.outlines : List FieldBind → List Outline
  | [] => []
  | ⟨field, value, span⟩ :: ms =>
    record "MemberBind"
      [("field", quoted field), ("value", value.outline), ("span", .span span)] ::
      FieldBind.outlines ms

/-- The outline of what follows a tag. -/
def Payload.outline : Payload → Outline
  | .none => atom "None"
  | .struct members => tuple "Struct" [list (FieldBind.outlines members)]
  | .expr e => tuple "Expr" [e.outline]

/-- The outline of a block. -/
def Block.outline : Block → Outline
  | ⟨labels, stmts, span, dialect⟩ =>
    record "Block"
      [("labels", labels.outline), ("stmts", list (Stmt.outlines stmts)), ("span", .span span),
        ("dialect", dialect.outline)]

/-- The outline of a statement. -/
def Stmt.outline : Stmt → Outline
  | ⟨form, span⟩ => record "Stmt" [("kind", form.outline span), ("span", .span span)]

/-- The outlines of several statements. -/
def Stmt.outlines : List Stmt → List Outline
  | [] => []
  | s :: ss => s.outline :: Stmt.outlines ss

/-- The outline of a statement that may be missing. -/
def Stmt.outline? : Option Stmt → Outline
  | none => atom "None"
  | some s => tuple "Some" [s.outline]

/-- The outline of the form of a statement at `span`. -/
def StmtForm.outline (span : Span) : StmtForm → Outline
  | .varDecl decl => tuple "VarDecl" [decl.outline]
  | .assign assign => tuple "Assign" [assign.outline]
  | .bind binding => tuple "Bind" [binding.outline]
  | .regWrite write => tuple "RegWrite" [write.outline]
  | .expr e => tuple "Expr" [e.outline]
  | .return_ e => tuple "Return" [e.outline]
  | .function definition => tuple "Function" [definition.outline]
  | .module definition => tuple "Module" [definition.outline]
  | .block block => tuple "Block" [block.outline]
  | .cond predicate thenBranch elseBranch =>
    tuple "If"
      [record "IfStmt"
        [("predicate", predicate.outline), ("then_branch", thenBranch.outline),
          ("else_branch", Stmt.outline? elseBranch), ("span", .span span)]]

/-- The outline of a declaration of variables. -/
def VarDecl.outline : VarDecl → Outline
  | ⟨type, declarators, span⟩ =>
    record "VarDecl"
      [("ty", type.outline), ("declarators", list (Declarator.outlines declarators)),
        ("span", .span span)]

/-- The outlines of declared names. -/
def Declarator.outlines : List Declarator → List Outline
  | [] => []
  | ⟨name, dims, init, span⟩ :: ds =>
    record "Declarator"
      [("name", quoted name), ("dims", list (Expr.outlines dims)), ("init", Expr.outline? init),
        ("span", .span span)] ::
      Declarator.outlines ds

/-- The outline of an assignment. -/
def Assign.outline : Assign → Outline
  | ⟨target, value, span⟩ =>
    record "Assign"
      [("target", target.outline), ("value", value.outline), ("span", .span span)]

/-- The outline of a bound name. -/
def Binding.outline : Binding → Outline
  | ⟨decl, name, value, span⟩ =>
    record "Bind"
      [("decl", option DeclType.outline decl), ("name", quoted name), ("value", value.outline),
        ("span", .span span)]

/-- The outline of a function. -/
def FunctionDef.outline : FunctionDef → Outline
  | ⟨result, name, formals, body, endLabel, span⟩ =>
    record "FunctionDef"
      [("ret", result.outline), ("name", quoted name), ("formals", list (formals.map Formal.outline)),
        ("body", body.outline), ("end_label", option Label.outline endLabel), ("span", .span span)]

/-- The outline of a module. -/
def ModuleDef.outline : ModuleDef → Outline
  | ⟨context, name, params, args, stmts, endLabel, span⟩ =>
    record "ModuleDef"
      [("ctx_type", option TypeExpr.outline context), ("name", quoted name),
        ("params", list (params.map ModuleParam.outline)), ("args", list (args.map ModuleArg.outline)),
        ("stmts", list (ModuleStmt.outlines stmts)), ("end_label", option Label.outline endLabel),
        ("span", .span span)]

/-- The outlines of the statements of a module. -/
def ModuleStmt.outlines : List ModuleStmt → List Outline
  | [] => []
  | s :: ss => s.outline :: ModuleStmt.outlines ss

/-- The outline of a statement of a module. -/
def ModuleStmt.outline : ModuleStmt → Outline
  | .method definition => tuple "Method" [definition.outline]
  | .subinterface definition => tuple "Subinterface" [definition.outline]
  | .rule definition => tuple "Rule" [definition.outline]
  | .return_ e => tuple "Return" [e.outline]
  | .varDecl decl => tuple "VarDecl" [decl.outline]
  | .bind binding => tuple "Bind" [binding.outline]
  | .assign assign => tuple "Assign" [assign.outline]
  | .expr e => tuple "Expr" [e.outline]
  | .function definition => tuple "Function" [definition.outline]
  | .module definition => tuple "Module" [definition.outline]

/-- The outline of a method. -/
def MethodDef.outline : MethodDef → Outline
  | ⟨result, name, formals, guard, body, endLabel, span⟩ =>
    record "MethodDef"
      [("ret", option TypeExpr.outline result), ("name", quoted name),
        ("formals", list (formals.map Formal.outline)), ("guard", Predicate.outline? guard),
        ("body", body.outline), ("end_label", option Label.outline endLabel), ("span", .span span)]

/-- The outline of the body of a method or function. -/
def Body.outline : Body → Outline
  | .stmts dialect stmts => tuple dialect.bodyName [list (Stmt.outlines stmts)]
  | .block e => tuple "Block" [e.outline]

/-- The outline of a definition of an interface inside another. -/
def SubinterfaceDef.outline : SubinterfaceDef → Outline
  | ⟨type, name, stmts, endLabel, span⟩ =>
    record "SubinterfaceDef"
      [("ty", type.outline), ("name", quoted name), ("stmts", list (InterfaceStmt.outlines stmts)),
        ("end_label", option Label.outline endLabel), ("span", .span span)]

/-- The outlines of the statements of an interface. -/
def InterfaceStmt.outlines : List InterfaceStmt → List Outline
  | [] => []
  | s :: ss => s.outline :: InterfaceStmt.outlines ss

/-- The outline of a statement of an interface. -/
def InterfaceStmt.outline : InterfaceStmt → Outline
  | .method definition => tuple "Method" [definition.outline]
  | .subinterface definition => tuple "Subinterface" [definition.outline]
  | .stmt stmt => tuple "Stmt" [stmt.outline]

/-- The outline of a rule. -/
def RuleDef.outline : RuleDef → Outline
  | ⟨name, guard, body, endLabel, span⟩ =>
    record "Rule"
      [("name", quoted name), ("guard", Predicate.outline? guard), ("body", list (Stmt.outlines body)),
        ("end_label", option Label.outline endLabel), ("span", .span span)]

end

/-! ## Source units -/

/-- The outline of an item of an export list. -/
def ExportItem.outline : ExportItem → Outline
  | .name text withMembers =>
    record "Ident" [("name", quoted text), ("with_members", bool withMembers)]
  | .package text => tuple "Package" [quoted text]

/-- The outline of an export list. -/
def ExportDecl.outline (d : ExportDecl) : Outline :=
  record "ExportDecl" [("items", list (d.items.map ExportItem.outline)), ("span", .span d.span)]

/-- The outline of an import list. -/
def ImportDecl.outline (d : ImportDecl) : Outline :=
  record "ImportDecl" [("packages", list (d.packages.map quoted)), ("span", .span d.span)]

/-- The outline of a member of an interface. -/
def InterfaceMember.outline : InterfaceMember → Outline
  | .method p =>
    tuple "Method"
      [record "MethodProto"
        [("ret", p.result.outline), ("name", quoted p.name),
          ("formals", list (p.formals.map Formal.outline)), ("span", .span p.span)]]
  | .subinterface d =>
    tuple "Subinterface"
      [record "SubinterfaceDecl"
        [("ty", d.type.outline), ("name", quoted d.name), ("span", .span d.span)]]

/-- The outline of an interface. -/
def InterfaceDecl.outline (d : InterfaceDecl) : Outline :=
  record "InterfaceDecl"
    [("name", quoted d.name), ("formals", list (d.formals.map TypeFormal.outline)),
      ("members", list (d.members.map InterfaceMember.outline)),
      ("end_label", option Label.outline d.endLabel), ("span", .span d.span)]

/-- The outline of a statement of a package. -/
def PackageStmt.outline : PackageStmt → Outline
  | .interfaceDecl d => tuple "Interface" [d.outline]
  | .module d => tuple "Module" [d.outline]
  | .function d => tuple "Function" [d.outline]
  | .varDecl d => tuple "VarDecl" [d.outline]
  | .assign a => tuple "Assign" [a.outline]

/-- The outline of the items of a package. -/
def PackageBody.outline (b : PackageBody) : Outline :=
  record "PackageBody"
    [("exports", list (b.exports.map ExportDecl.outline)),
      ("imports", list (b.imports.map ImportDecl.outline)),
      ("stmts", list (b.stmts.map PackageStmt.outline))]

/-- The outline of a package. -/
def Package.outline (p : Package) : Outline :=
  record "Package"
    [("name", quoted p.name), ("body", p.body.outline),
      ("end_label", option Label.outline p.endLabel), ("span", .span p.span)]

/-- The outline of a source unit. -/
def SourceUnit.outline : SourceUnit → Outline
  | .package p => tuple "Package" [p.outline]
  | .items b => tuple "Items" [b.outline]

end Bluespec
