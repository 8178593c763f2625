import Bluespec.Proofs.InheritedTraits

/-!
# Traits of expressions and blocks

One lemma for each production of expressions, simple statements and blocks: a trait that all inner parsers
have is a trait of the production.
-/

namespace Bluespec.Parser

open Grade Mark

variable {E : Trait} {n : Nat} {past : Bool} {before : List NodeSpan} {g g' : Grammar}

namespace Inherited

/-! ## Lists and suffixes -/

theorem arguments (h : Inherited E) (hg : Level E n g g') :
    Outset E n before g.arguments g'.arguments fun es => before ++ es.flatMap Expr.declared :=
  h.read h.expectPunct fun _ => h.enclosed fun before => hg.expr 0 before

theorem fieldBind (h : Inherited E) (hg : Level E n g g') (before : List NodeSpan) :
    Inside E n before g.fieldBind g'.fieldBind fun m => before ++ m.declared := by
  refine h.look looks_offset fun start => ?_
  refine h.next h.expectText fun field => ?_
  refine h.next h.expectPunct fun _ => ?_
  refine h.next (hg.expr 0 _) fun value => ?_
  exact h.look (looks_spanFrom start) fun span => h.ret (.refl _)

theorem fieldBinds (h : Inherited E) (hg : Level E n g g') :
    Outset E n before g.fieldBinds g'.fieldBinds fun ms => before ++ ms.flatMap FieldBind.declared := by
  refine h.read h.expectPunct fun _ => ?_
  refine h.next (h.separated (h.fieldBind hg)) fun members => ?_
  exact h.next h.expectPunct fun _ => h.ret (.refl _)

theorem concatItems (h : Inherited E) (hg : Level E n g g') :
    Outset E n before g.concatItems g'.concatItems fun es => before ++ es.flatMap Expr.declared := by
  refine h.read h.expectPunct fun _ => ?_
  refine h.next (h.separated (hg.expr 0)) fun items => ?_
  exact h.next h.expectPunct fun _ => h.ret (.refl _)

theorem selection (h : Inherited E) (hg : Level E n g g') (base : Expr) :
    Holds E (headed (n + 1) true) (fun _ => reading) (before ++ base.declared) (g.selection base) (g'.selection base)
      fun form => before ++ form.declared := by
  refine h.read h.skipped fun _ => ?_
  refine h.next (hg.expr 0 _) fun hi => ?_
  refine h.next h.accepted (h.optional (fun before => h.forget (hg.expr 0 before)) fun lo => ?_)
  refine h.next h.expectPunct fun _ => h.ret ?_
  simp [ExprForm.declared_select]

theorem memberOf (h : Inherited E) (hg : Level E n g g') (receiver : Expr) :
    Holds E (headed (n + 1) true) (fun _ => reading) (before ++ receiver.declared) (g.memberOf receiver)
      (g'.memberOf receiver) fun form => before ++ form.declared := by
  refine h.read h.skipped fun _ => ?_
  refine h.next h.expectText fun name => ?_
  refine h.isNext (h.of_free ?_) (h.ret (.refl _))
  refine h.next (h.outset (h.arguments hg)) fun args => h.ret ?_
  simp [ExprForm.declared_methodCall]

theorem suffix (h : Inherited E) (hg : Level E n g g') (operand : Expr) :
    Holds E (free (n + 1) true) roundMark (before ++ operand.declared) (g.suffix operand) (g'.suffix operand)
      (roundAfter (fun e : Expr => before ++ e.declared) fun e : Expr => before ++ e.declared) := by
  refine h.peek (fun k => ?_) (h.yield rfl (.refl _))
  split
  · refine h.of_reading (h.read (h.of_free (h.arguments hg)) fun args => ?_) roundMark_dirty
    refine h.look (looks_spanFrom _) fun span => h.ret ?_
    simp [roundAfter, Expr.declared_eq, ExprForm.declared_call]
  · refine h.of_reading (h.read (h.selection hg operand) fun form => ?_) roundMark_dirty
    exact h.look (looks_spanFrom _) fun span => h.ret (.refl _)
  · refine h.of_reading (h.read (h.memberOf hg operand) fun form => ?_) roundMark_dirty
    exact h.look (looks_spanFrom _) fun span => h.ret (.refl _)
  · exact h.yield rfl (.refl _)

theorem suffixes (h : Inherited E) (hg : Level E n g g') (operand : Expr) :
    Holds E (free (n + 1) true) (fun _ => nothing) (before ++ operand.declared) (g.suffixes operand)
      (g'.suffixes operand) fun e => before ++ e.declared :=
  h.repeatUntil (fun e => before ++ e.declared) (h.suffix hg) operand

/-! ## Operators -/

theorem conditional (h : Inherited E) (hg : Level E n g g') (predicate : Predicate) :
    Outset E n (before ++ predicate.declared) (g.conditional predicate) (g'.conditional predicate)
      fun e => before ++ e.declared := by
  refine h.read h.expectPunct fun _ => ?_
  refine h.next (hg.expr 0 _) fun thenBranch => ?_
  refine h.next h.expectPunct fun _ => ?_
  refine h.next (hg.expr conditionalPower _) fun elseBranch => ?_
  refine h.look (looks_spanFrom _) fun span => h.ret ?_
  simp [Expr.declared_eq, ExprForm.declared_cond]

theorem operation (h : Inherited E) (hg : Level E n g g') (min : Nat) (lhs : Expr) :
    Holds E (free (n + 1) true) roundMark (before ++ lhs.declared) (g.operation min lhs) (g'.operation min lhs)
      (roundAfter (fun e : Expr => before ++ e.declared) fun e : Expr => before ++ e.declared) := by
  have hdone : ∀ pre, Holds E ⟨n + 1, pre, true⟩ roundMark (before ++ lhs.declared) (pure (.done lhs))
      (pure (.done lhs)) (roundAfter (fun e : Expr => before ++ e.declared) fun e : Expr => before ++ e.declared) :=
    fun pre => h.yield rfl (.refl _)
  have hconditional : ∀ es span, Holds E (free (n + 1) true) roundMark
      (before ++ lhs.declared ++ es.flatMap Expr.declared)
      (g.conditional ⟨lhs :: es, span⟩ >>= fun e => pure (.again e))
      (g'.conditional ⟨lhs :: es, span⟩ >>= fun e => pure (.again e))
      (roundAfter (fun e : Expr => before ++ e.declared) fun e : Expr => before ++ e.declared) := by
    intro es span
    have hall : (Predicate.mk (lhs :: es) span).declared = lhs.declared ++ es.flatMap Expr.declared := by
      rw [Predicate.declared, Expr.declaredIn_eq, List.flatMap_cons]
    rw [List.append_assoc, ← hall]
    exact h.of_reading (h.read (h.conditional hg _) fun e => h.ret (.refl _)) roundMark_dirty
  refine h.peek (fun k => ?_) (hdone _)
  · split
    · split
      · have hplain := hconditional [] lhs.span
        rw [List.flatMap_nil, List.append_nil] at hplain
        exact h.of_free hplain
      · exact hdone _
    · show Holds E _ roundMark _ (if min ≤ conditionalPower then _ else _) (if min ≤ conditionalPower then _ else _) _
      split
      · refine h.of_free (h.next (h.chain hg) fun r => ?_)
        cases r with
        | none =>
          refine h.yield rfl ?_
          rw [Option.getD_none, List.flatMap_nil, List.append_nil]
          exact .refl _
        | some others => exact h.look (looks_spanFrom _) fun span => hconditional others span
      · exact hdone _
    · refine h.of_reading (h.read h.skipped fun _ => ?_) roundMark_dirty
      exact h.look (looks_spanFrom _) fun span => h.reportFail (reports_unsupported _ _)
    · split
      · split
        · refine h.of_reading (h.read h.skipped fun _ => ?_) roundMark_dirty
          refine h.next (hg.expr _ _) fun rhs => h.ret ?_
          simp [roundAfter, Expr.declared_eq, ExprForm.declared_binary]
        · exact hdone _
      · exact hdone _

theorem operations (h : Inherited E) (hg : Level E n g g') (min : Nat) (lhs : Expr) :
    Holds E (free (n + 1) true) (fun _ => nothing) (before ++ lhs.declared) (g.operations min lhs)
      (g'.operations min lhs) fun e => before ++ e.declared :=
  h.repeatUntil (fun e => before ++ e.declared) (h.operation hg min) lhs

/-! ## Simple statements -/

theorem valueAndSemicolon (h : Inherited E) (hg : Level E n g g') :
    Inside E n before g.valueAndSemicolon g'.valueAndSemicolon fun e => before ++ e.declared := by
  refine h.next (hg.expr 0 _) fun value => ?_
  exact h.next h.expectPunct fun _ => h.ret (.refl _)

theorem simpleTail (h : Inherited E) (hg : Level E n g g') (target : Expr) :
    Outset E n (before ++ target.declared) (g.simpleTail target) (g'.simpleTail target)
      fun s => before ++ s.inner := by
  have hvalue : ∀ before, Inside E n before g.valueAndSemicolon g'.valueAndSemicolon
      fun e => before ++ e.declared := fun before => h.valueAndSemicolon hg
  refine h.peek (fun k => ?_) (h.failExpected _)
  split
  · refine h.read h.skipped fun _ => ?_
    refine h.next (hvalue _) fun value => ?_
    split
    · refine h.look (looks_spanFrom _) fun span => h.ret ?_
      simp [SimpleStmt.inner, Assign.inner]
    · exact h.reportFail (reports_report _ _ ⟨nofun, nofun⟩)
  · refine h.read h.skipped fun _ => ?_
    refine h.next (hvalue _) fun value => ?_
    refine h.look (looks_spanFrom _) fun span => h.ret ?_
    simp [SimpleStmt.inner, Assign.inner]
  · split
    · next name hname =>
      have hnone : target.declared = [] := by
        rw [Expr.declared_eq, hname]
        rfl
      rw [hnone, List.append_nil]
      refine h.read h.skipped fun _ => ?_
      refine h.next (hvalue _) fun value => ?_
      exact h.look (looks_spanFrom _) fun span => h.ret (.refl _)
    · exact h.reportFail (reports_report _ _ ⟨nofun, nofun⟩)
  · exact h.read h.skipped fun _ => h.ret (.refl _)
  · exact h.failExpected _

theorem letStmt (h : Inherited E) (hg : Level E n g g') :
    Holds E (headed (n + 1) true) (fun _ => reading) before g.letStmt g'.letStmt fun s => before ++ s.inner := by
  refine h.look looks_offset fun start => ?_
  refine h.read h.skipped fun _ => ?_
  refine h.next h.expect fun name => ?_
  refine h.next h.accepted fun b => ?_
  cases b with
  | true =>
    refine h.next (h.valueAndSemicolon hg) fun value => ?_
    exact h.look (looks_spanFrom _) fun span => h.ret (.refl _)
  | false =>
    refine h.next h.expectPunct fun _ => ?_
    refine h.next (hg.expr 0 _) fun init => ?_
    refine h.look (looks_spanFrom _) fun own => ?_
    refine h.next h.expectPunct fun _ => ?_
    refine h.look (looks_spanFrom _) fun span => h.ret ?_
    simp [SimpleStmt.inner, VarDecl.inner, Declarator.innerOf_eq, Declarator.inner_mk]

theorem dimensions (h : Inherited E) (hg : Level E n g g') :
    Holds E (free (n + 1) true) (fun _ => nothing) before g.dimensions g'.dimensions
      fun es => before ++ es.flatMap Expr.declared := by
  have hloop : Holds E (free (n + 1) true) (fun _ => nothing) (before ++ ([] : List Expr).flatMap Expr.declared)
      g.dimensions g'.dimensions fun es => before ++ es.flatMap Expr.declared := by
    refine h.repeatUntil (fun es => before ++ es.flatMap Expr.declared) (fun read => ?_) []
    refine h.accept roundMark_dirty ?_ (h.yield rfl (.refl _))
    refine h.next (hg.expr 0 _) fun dim => ?_
    refine h.next h.expectPunct fun _ => h.ret ?_
    show (before ++ (read ++ [dim]).flatMap Expr.declared).Perm _
    rw [List.flatMap_append, List.flatMap_singleton, List.append_assoc]
  rw [List.flatMap_nil, List.append_nil] at hloop
  exact hloop

theorem declaratorTail (h : Inherited E) (hg : Level E n g g') (name : Token) :
    Inside E n before (g.declaratorTail name) (g'.declaratorTail name) fun d => before ++ d.inner := by
  refine h.next (h.outset (h.dimensions hg)) fun dims => ?_
  refine h.next h.accepted (h.optional (fun before => h.forget (hg.expr 0 before)) fun init => ?_)
  refine h.look (looks_spanFrom _) fun span => h.ret ?_
  rw [Declarator.inner_mk, List.append_assoc]

theorem declarator (h : Inherited E) (hg : Level E n g g') (before : List NodeSpan) :
    Inside E n before g.declarator g'.declarator fun d => before ++ d.inner :=
  h.next h.expect fun name => h.declaratorTail hg name

theorem typedStmt (h : Inherited E) (hg : Level E n g g') :
    Outset E n before g.typedStmt g'.typedStmt fun s => before ++ s.inner := by
  refine h.look looks_offset fun start => ?_
  refine h.read h.type fun type => ?_
  refine h.next h.expect fun name => ?_
  refine h.next h.accepted fun b => ?_
  cases b with
  | true =>
    refine h.next (h.valueAndSemicolon hg) fun value => ?_
    exact h.look (looks_spanFrom _) fun span => h.ret (.refl _)
  | false =>
    refine h.next (h.declaratorTail hg name) fun first => ?_
    have hend : ∀ others : List Declarator, Inside E n
        (before ++ first.inner ++ others.flatMap Declarator.inner)
        (expectPunct .semi >>= fun _ => spanFrom start >>= fun span =>
          pure (SimpleStmt.varDecl ⟨.typed type, first :: others, span⟩))
        (expectPunct .semi >>= fun _ => spanFrom start >>= fun span =>
          pure (SimpleStmt.varDecl ⟨.typed type, first :: others, span⟩)) fun s => before ++ s.inner := by
      intro others
      refine h.next h.expectPunct fun _ => ?_
      refine h.look (looks_spanFrom _) fun span => h.ret ?_
      simp [SimpleStmt.inner, VarDecl.inner, Declarator.innerOf_eq]
    refine h.next h.accepted fun b => ?_
    cases b with
    | true => exact h.next (h.separated (h.declarator hg)) hend
    | false => exact h.next (h.ret (by rw [List.flatMap_nil, List.append_nil])) hend

/-! ## Dialects -/

theorem permit (h : Inherited E) (dialect : Dialect) (leaf : Leaf) (span : Span) :
    Inside E n before (permit dialect leaf span) (permit dialect leaf span) fun _ => before := by
  unfold Parser.permit
  split
  · exact h.reportFail (reports_report _ _ ⟨nofun, nofun⟩)
  · exact h.ret (.refl _)

theorem permitSimple (h : Inherited E) (dialect : Dialect) (stmt : SimpleStmt) :
    Inside E n (before ++ stmt.inner) (permitSimple dialect stmt) (permitSimple dialect stmt)
      fun form => before ++ form.declared := by
  have hform : Inside E n (before ++ stmt.inner) (pure stmt.form) (pure stmt.form)
      fun form => before ++ form.declared := h.ret (by rw [SimpleStmt.declared_form])
  unfold Parser.permitSimple
  split
  · exact hform
  · exact h.next (h.permit dialect _ _) fun _ => hform

/-! ## Blocks -/

theorem block (h : Inherited E) (hg : Level E n g g') (dialect : Dialect) (opening closing : Keyword) :
    Outset E n before (g.block dialect opening closing) (g'.block dialect opening closing)
      fun b => before ++ b.declared := by
  refine h.look looks_offset fun start => ?_
  refine h.read (h.expectKeyword opening) fun _ => ?_
  refine h.next h.label fun openLabel => ?_
  refine h.next (h.items (hg.stmt dialect)) fun stmts => ?_
  refine h.next (h.expectKeyword closing) fun _ => ?_
  refine h.next h.label fun closeLabel => ?_
  refine h.look (looks_spanFrom start) fun span => h.ret ?_
  rw [Block.declared, Stmt.declaredIn_eq]

theorem atBlockStmt (h : Inherited E) :
    Inside E n before Grammar.atBlockStmt Grammar.atBlockStmt fun _ => before := by
  refine h.look looks_peek fun k => ?_
  split
  · exact h.ret (.refl _)
  · exact h.typedDecl

/-- The declarations of an item of a block with a result. -/
def blockItemDeclared : Grammar.BlockItem → List NodeSpan
  | .stmt s => s.declared
  | .result e => e.declared

theorem blockStmtTail (h : Inherited E) (hg : Level E n g g') (start : Nat) (target : Expr) :
    Inside E n (before ++ target.declared) (g.blockStmtTail start target) (g'.blockStmtTail start target)
      fun item => before ++ blockItemDeclared item := by
  refine h.next (h.outset (h.simpleTail hg target)) fun simple => ?_
  refine h.next (h.permitSimple .expression simple) fun form => ?_
  exact h.look (looks_spanFrom start) fun span => h.ret (.refl _)

theorem looks_second : Looks (ask fun s => s.nth 1) fun _ consumed rest =>
    State.nth ⟨consumed, rest, [], []⟩ 1 := fun _ _ => rfl

theorem blockItem (h : Inherited E) (hg : Level E n g g') :
    Holds E (free n false) (fun _ => reading) before g.blockItem g'.blockItem
      fun item => before ++ blockItemDeclared item := by
  refine h.next h.atBlockStmt fun b => ?_
  cases b with
  | true => exact h.readHere (hg.stmt .expression _) fun s => h.ret (.refl _)
  | false =>
    refine h.look looks_offset fun start => ?_
    refine h.readHere (hg.operand _) fun target => ?_
    have htail : Inside E n (before ++ target.declared) (g.blockStmtTail start target)
        (g'.blockStmtTail start target) fun item => before ++ blockItemDeclared item :=
      h.blockStmtTail hg start target
    have hresult : Inside E n (before ++ target.declared)
        (g.operations 0 target >>= fun result => eat (.punct .semi) >>= fun _ => pure (.result result))
        (g'.operations 0 target >>= fun result => eat (.punct .semi) >>= fun _ => pure (.result result))
        fun item => before ++ blockItemDeclared item := by
      refine h.next (h.outset (h.operations hg 0 target)) fun result => ?_
      exact h.next h.eaten fun _ => h.ret (.refl _)
    refine h.peek (fun k => ?_) hresult
    split
    · exact h.of_free htail
    · exact h.of_free htail
    · refine h.look looks_second fun second => ?_
      split
      · exact h.next h.skipped fun _ => h.ret (.refl _)
      · exact h.of_free htail
    · exact h.of_free hresult

theorem blockRound (h : Inherited E) (hg : Level E n g g') (read : List Stmt) :
    Holds E (free n false) roundMark (before ++ read.flatMap Stmt.declared) (g.blockRound read) (g'.blockRound read)
      (roundAfter (fun read => before ++ read.flatMap Stmt.declared)
        fun r => before ++ r.1.flatMap Stmt.declared ++ r.2.declared) := by
  refine h.halted (h.failed fun s hs => hs.2) ?_
  refine h.looking looks_atCloser fun closes => ?_
  cases closes with
  | true => exact h.failExpected _
  | false =>
    refine h.of_reading (h.readHere (h.resumedOpen (h.of_free (h.blockItem hg)) ?_) fun r => ?_) roundMark_dirty
    · exact fun s hs => hs.2.2.elim fun _ hopen => hopen
    · cases r with
      | none => exact h.ret (.refl _)
      | some item =>
        cases item with
        | stmt s =>
          refine h.ret ?_
          show (before ++ (read ++ [s]).flatMap Stmt.declared).Perm _
          rw [List.flatMap_append, List.flatMap_singleton, ← List.append_assoc]
          exact .refl _
        | result e => exact h.ret (.refl _)

theorem blockItems (h : Inherited E) (hg : Level E n g g') :
    Inside E n before g.blockItems g'.blockItems
      fun r => before ++ r.1.flatMap Stmt.declared ++ r.2.declared := by
  have hloop : Inside E n (before ++ ([] : List Stmt).flatMap Stmt.declared) g.blockItems g'.blockItems
      fun r => before ++ r.1.flatMap Stmt.declared ++ r.2.declared :=
    h.repeatUntil (fun read => before ++ read.flatMap Stmt.declared) (h.blockRound hg) []
  rw [List.flatMap_nil, List.append_nil] at hloop
  exact hloop

theorem valueBlock (h : Inherited E) (hg : Level E n g g') :
    Outset E n before g.valueBlock g'.valueBlock fun form => before ++ form.declared := by
  refine h.read (h.expectKeyword _) fun _ => ?_
  refine h.next h.label fun openLabel => ?_
  refine h.next (h.blockItems hg) fun r => ?_
  refine h.next (h.expectKeyword _) fun _ => ?_
  refine h.next h.label fun closeLabel => h.ret ?_
  rw [ExprForm.declared_valueBlock, List.append_assoc]

/-! ## Interfaces -/

theorem interfaceStmt (h : Inherited E) (hg : Level E n g g') (before : List NodeSpan) :
    Holds E (free n false) (fun _ => reading) before g.interfaceStmt g'.interfaceStmt
      fun s => before ++ s.declared := by
  have hstmt : Holds E (free n false) (fun _ => reading) before
      (g.innerStmt .expression >>= fun s => pure (InterfaceStmt.stmt s))
      (g'.innerStmt .expression >>= fun s => pure (InterfaceStmt.stmt s)) fun s => before ++ s.declared :=
    h.readHere (hg.stmt .expression before) fun s => h.ret (.refl _)
  refine h.next h.skipAttributes fun _ => ?_
  refine h.peek (fun k => ?_) hstmt
  split
  · exact h.readHere (hg.method before) fun d => h.ret (.refl _)
  · exact h.readHere (hg.subinterface before) fun d => h.ret (.refl _)
  · exact h.of_free hstmt

theorem interfaceExpr (h : Inherited E) (hg : Level E n g g') :
    Holds E (headed (n + 1) true) (fun _ => reading) before g.interfaceExpr g'.interfaceExpr
      fun form => before ++ form.declared := by
  refine h.read h.skipped fun _ => ?_
  refine h.next h.type fun type => ?_
  refine h.next h.expectPunct fun _ => ?_
  refine h.next (h.items (h.interfaceStmt hg)) fun stmts => ?_
  refine h.next (h.expectKeyword _) fun _ => ?_
  refine h.next h.label fun endLabel => h.ret ?_
  rw [ExprForm.declared_interfaceExpr]

/-! ## Primaries -/

theorem literal (h : Inherited E) {k : Kind} :
    Outset E n before (Grammar.literal k) (Grammar.literal k) fun _ => before := by
  refine h.read h.expect fun t => ?_
  split
  · exact h.ret (.refl _)
  · exact h.reportFail (reports_report _ _ ⟨nofun, nofun⟩)

theorem systemCall (h : Inherited E) :
    Holds E (headed (n + 1) past) (fun _ => reading) before Grammar.systemCall Grammar.systemCall
      fun _ => before := by
  refine h.look looks_offset fun start => ?_
  refine h.read h.skipped fun _ => ?_
  refine h.next h.skipParenthesized fun _ => ?_
  exact h.forget (h.looked (looks_spanFrom start))

theorem payload (h : Inherited E) (hg : Level E n g g') :
    Inside E n before g.payload g'.payload fun p => before ++ p.declared := by
  have hnone : ∀ pre, Holds E ⟨n, pre, false⟩ (fun _ => nothing) before (pure Payload.none) (pure Payload.none)
      fun p => before ++ p.declared := by
    intro pre
    refine h.ret ?_
    rw [Payload.declared, List.append_nil]
  refine h.peek (fun k => ?_) (hnone _)
  split
  · refine h.of_free (h.next (h.outset (h.fieldBinds hg)) fun ms => h.ret ?_)
    rw [Payload.declared, FieldBind.declaredIn_eq]
  · split
    · exact h.of_free (h.next (hg.operand before) fun e => h.ret (.refl _))
    · exact hnone _
  · exact hnone _

theorem primary (h : Inherited E) (hg : Level E n g g') :
    Outset E n before g.primary g'.primary fun e => before ++ e.declared := by
  refine h.look looks_offset fun start => ?_
  have hplain : ∀ form : ExprForm, Inside E n (before ++ form.declared)
      (spanFrom start >>= fun span => pure (Expr.mk form span))
      (spanFrom start >>= fun span => pure (Expr.mk form span)) fun e => before ++ e.declared :=
    fun form => h.look (looks_spanFrom start) fun span => h.ret (.refl _)
  have hbare : ∀ form : ExprForm, form.declared = [] → Inside E n before
      (spanFrom start >>= fun span => pure (Expr.mk form span))
      (spanFrom start >>= fun span => pure (Expr.mk form span)) fun e => before ++ e.declared := by
    intro form hform
    have hown := hplain form
    rw [hform, List.append_nil] at hown
    exact hown
  have hexpected : ∀ pre, Holds E ⟨n + 1, pre, true⟩ (fun _ => reading) before
      (Parser.failExpected .expression) (Parser.failExpected .expression) fun e : Expr => before ++ e.declared :=
    fun pre => h.failExpected .expression
  refine h.peek (fun k => ?_) (hexpected _)
  split
  · exact h.read h.expectText fun name => hbare _ rfl
  · refine h.read h.expectText fun name => ?_
    refine h.isNext (h.of_free ?_) (hbare _ rfl)
    refine h.next (h.outset (h.fieldBinds hg)) fun ms => ?_
    rw [← FieldBind.declaredIn_eq]
    exact hplain (.struct name ms)
  · exact h.read (h.of_free h.literal) fun lit => hbare _ rfl
  · exact h.read (h.of_free h.literal) fun lit => hbare _ rfl
  · exact h.read (h.of_free h.literal) fun lit => hbare _ rfl
  · exact h.read (h.of_free h.literal) fun lit => hbare _ rfl
  · exact h.read h.skipped fun _ => hbare _ rfl
  · refine h.read h.skipped fun _ => ?_
    refine h.next (hg.expr 0 before) fun inner => ?_
    refine h.next h.expectPunct fun _ => ?_
    rw [Expr.declared_eq]
    exact hplain inner.form
  · refine h.read (h.of_free (h.concatItems hg)) fun es => ?_
    rw [← Expr.declaredIn_eq]
    exact hplain (.concat es)
  · exact h.read (h.of_free (h.valueBlock hg)) hplain
  · exact h.read (h.of_free (h.block hg _ _ _)) fun b => hplain (.actionBlock b)
  · exact h.read (h.of_free (h.block hg _ _ _)) fun b => hplain (.actionValueBlock b)
  · refine h.read h.skipped fun _ => ?_
    refine h.next h.expectText fun name => ?_
    exact h.next (h.payload hg) fun p => hplain (.tagged name p)
  · exact h.read (h.interfaceExpr hg) hplain
  · refine h.read h.skipped fun _ => ?_
    refine h.next h.expectPunct fun _ => ?_
    refine h.next h.type fun type => ?_
    exact h.next h.expectPunct fun _ => hbare _ rfl
  · exact h.read h.systemCall fun span => h.reportFail (reports_unsupported _ _)
  · exact hexpected _

/-! ## Expressions -/

theorem operand (h : Inherited E) (hg : Level E n g g') :
    Outset E n before g.operand g'.operand fun e => before ++ e.declared :=
  h.read (h.primary hg) fun e => h.outset (h.suffixes hg e)

theorem declared_withSign {sign : Sign} {form form' : ExprForm} (h : form.withSign? sign = some form') :
    form'.declared = form.declared := by
  unfold ExprForm.withSign? at h
  split at h
  · split at h
    · cases h
      rfl
    · cases h
  · cases h

theorem unaryOperand (h : Inherited E) (hg : Level E n g g') (start : Nat) (op : UnaryOp) :
    Inside E n before (g.unaryOperand start op) (g'.unaryOperand start op) fun e => before ++ e.declared := by
  have hunary : ∀ inner : Expr, Inside E n (before ++ inner.declared)
      (spanFrom start >>= fun span => pure (Expr.mk (.unary op inner) span))
      (spanFrom start >>= fun span => pure (Expr.mk (.unary op inner) span)) fun e => before ++ e.declared :=
    fun inner => h.look (looks_spanFrom start) fun span => h.ret (.refl _)
  have hinner : Inside E n before
      (g.innerExpr unaryPower >>= fun inner =>
        spanFrom start >>= fun span => pure (Expr.mk (.unary op inner) span))
      (g'.innerExpr unaryPower >>= fun inner =>
        spanFrom start >>= fun span => pure (Expr.mk (.unary op inner) span)) fun e => before ++ e.declared :=
    h.next (hg.expr unaryPower before) hunary
  unfold Grammar.unaryOperand
  split
  · refine h.isNext (h.of_free ?_) hinner
    refine h.next (h.outset (h.primary hg)) fun lit => ?_
    split
    · next form hform =>
      refine h.look (looks_spanFrom start) fun span => h.ret ?_
      rw [Expr.declared, declared_withSign hform, ← Expr.declared_eq]
    · refine h.next (h.outset (h.suffixes hg lit)) fun e => ?_
      exact h.next (h.outset (h.operations hg unaryPower e)) hunary
  · exact hinner

theorem unary (h : Inherited E) (hg : Level E n g g') :
    Outset E n before g.unary g'.unary fun e => before ++ e.declared := by
  refine h.peek (fun k => ?_) (h.primary hg)
  split
  · exact h.of_free (h.primary hg)
  · refine h.look looks_offset fun start => ?_
    exact h.read h.skipped fun _ => h.unaryOperand hg start _

theorem expr (h : Inherited E) (hg : Level E n g g') (min : Nat) :
    Outset E n before (g.expr min) (g'.expr min) fun e => before ++ e.declared := by
  refine h.read (h.unary hg) fun first => ?_
  refine h.next (h.outset (h.suffixes hg first)) fun lhs => ?_
  exact h.outset (h.operations hg min lhs)

/-! ## Predicates -/

theorem predicate (h : Inherited E) (hg : Level E n g g') :
    Inside E n before g.predicate g'.predicate fun p => before ++ p.declared := by
  refine h.look looks_offset fun start => ?_
  refine h.next (hg.expr 0 before) fun first => ?_
  refine h.next (h.outset (h.furtherConjuncts hg 0)) fun others => ?_
  refine h.look (looks_spanFrom start) fun span => h.ret ?_
  rw [Predicate.declared, Expr.declaredIn_eq, List.flatMap_cons, List.append_assoc]

theorem parenPredicate (h : Inherited E) (hg : Level E n g g') :
    Outset E n before g.parenPredicate g'.parenPredicate fun p => before ++ p.declared := by
  refine h.read h.expectPunct fun _ => ?_
  refine h.next (h.predicate hg) fun p => ?_
  exact h.next h.expectPunct fun _ => h.ret (.refl _)

end Inherited

end Bluespec.Parser
