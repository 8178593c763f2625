import Bluespec.Proofs.SpanGrammar

/-!
# The spans of definitions and statements

The productions that stand for definitions and statements, and the grammar as a whole.

* **`walk_header`**, **`walk_ending`** — what definitions have in common.
* **`walk_functionDef`**, **`walk_methodDef`**, **`walk_ruleDef`**, **`walk_subinterfaceDef`**, **`walk_moduleDef`** — a
  definition covers its tokens, from its first word to its last label.
* **`walk_stmt`** — a statement begins behind its attributes.
* **`Laid.next`**, **`laid_upTo`** — trees stand among the tokens that are read for them, whatever the number of levels.
-/

namespace Bluespec.Parser

open SpanTree

variable {α : Type} {c : Setting} {tokens : List Token} {i j k : Nat} {g : Grammar}

/-! ## Headers, bodies and endings -/

theorem walk_abandon (closing : Keyword) (i : Nat) : Walk c tokens i (abandon closing) fun _ _ => True := by
  refine (walk_skipExtent _).bind fun j _ _ _ => ?_
  refine (walk_accept j _).bind fun k b _ _ => ?_
  cases b with
  | true => exact (walk_label k).bind fun _ _ _ _ => .value trivial
  | false => exact .value trivial

/-- A header that fails leaves nothing behind. -/
theorem walk_header (closing : Keyword) {p : Parser α} {post : Nat → α → Prop} (h : Walk c tokens i p post) :
    Walk c tokens i (header closing p) post := by
  refine h.attempt.bind fun j r _ hr => ?_
  cases r with
  | some a => exact .value (hr a rfl)
  | none => exact (walk_abandon closing j).bind fun _ _ _ _ => .fail

/-- The end of a definition that began with token `i`. -/
theorem walk_ending (closing : Keyword) (kind : NodeKind) {start : Nat} (hstart : start = (spanAt c tokens i).start)
    (hij : i < j) :
    Walk c tokens j (Grammar.ending closing kind start) fun k r =>
      Row tokens j k (Label.spansIf r.1) ∧ r.2.Reaches tokens i k := by
  refine (walk_expectKeyword j _).next fun _ => ?_
  refine (walk_label (j + 1)).bind fun k endLabel hjk hend => ?_
  refine (walk_spanOver (show i < k by omega) hstart).here fun span hspan => ?_
  exact (walk_record kind span).next fun _ => .value ⟨hend.widen (Nat.le_succ j) (Nat.le_refl k), hspan⟩

theorem walk_returned (h : Laid c tokens g) {kind : Kind} (hnext : tokens[i]?.map Token.kind = some kind) :
    Walk c tokens i g.returned fun j e => Row tokens i j [e.spans] :=
  (walk_skip hnext).next fun _ => (walk_valueAndSemicolon h (i + 1)).weaken fun j _ _ he =>
    he.widen (Nat.le_succ i) (Nat.le_refl j)

theorem walk_skipUnsupported (h : Laid c tokens g) (dialect : Dialect) {kind : Kind}
    (hnext : tokens[i]?.map Token.kind = some kind) :
    Walk c tokens i (g.skipUnsupported dialect) fun _ _ => True := by
  refine (walk_offset i).here fun start hstart => ?_
  refine (walk_peek i).here fun next _ => ?_
  split
  · refine (walk_skipExtent _).bind fun j _ _ _ => ?_
    refine (walk_label j).bind fun k _ _ _ => ?_
    refine (walk_spanFrom k hstart).here fun span hspan => ?_
    exact (walk_reportUnsupported (fun _ => hspan) _).weaken fun _ _ _ _ => trivial
  · refine (walk_skip hnext).next fun _ => ?_
    refine (walk_skipParenthesized (i + 1)).bind fun j _ _ _ => ?_
    refine (walk_spanFrom j hstart).here fun span hspan => ?_
    refine (walk_reportUnsupported (fun _ => hspan) _).next fun _ => ?_
    exact (h.stmt dialect j).resuming.bind fun _ _ _ _ => .value trivial

theorem walk_body (h : Laid c tokens g) (dialect : Dialect) (closing : Keyword) (i : Nat) :
    Walk c tokens i (g.body dialect closing) fun j b => Row tokens i j b.spans := by
  have hstmts : ∀ j, i ≤ j → Walk c tokens j (do return Body.stmts dialect (← items (g.innerStmt dialect))) fun k b =>
      Row tokens i k b.spans := by
    intro j hij
    refine (walk_items (h.stmt dialect) j).bind fun k ss _ hss => .value ?_
    rw [← Stmt.spansIn_eq] at hss
    exact hss.widen hij (Nat.le_refl k)
  refine (walk_ask i _).next fun lone => ?_
  cases lone with
  | false => exact hstmts i (Nat.le_refl i)
  | true =>
    refine (walk_primary h i).resuming.bind fun j block hij he => ?_
    cases block with
    | none => exact hstmts j hij
    | some e => exact (walk_eat j _).bind fun k _ hjk _ => .value ((he e rfl).row.widen (Nat.le_refl i) hjk)

/-! ## Functions, methods and rules -/

theorem walk_functionHeader {kind : Kind} (hnext : tokens[i]?.map Token.kind = some kind) :
    Walk c tokens i Grammar.functionHeader fun j r =>
      i < j ∧ Row tokens i j ([r.1.spans] ++ r.2.2.map Formal.spans) := by
  refine (walk_skip hnext).next fun _ => ?_
  refine (walk_type (i + 1)).bind fun j result _ hresult => ?_
  refine (walk_expectText j _).next fun name => ?_
  refine (walk_formalsIfAny false (j + 1)).bind fun k formals hjk hformals => ?_
  refine (walk_skipProvisos k).bind fun l _ hkl _ => ?_
  refine (walk_expectPunct l _).next fun _ => .value ⟨by omega, ?_⟩
  exact (hresult.row.join hformals (Nat.le_succ j)).widen (Nat.le_succ i) (by omega)

theorem walk_functionDef (h : Laid c tokens g) {kind : Kind} (hnext : tokens[i]?.map Token.kind = some kind) :
    Walk c tokens i g.functionDef fun j d => Row tokens i j [d.spans] := by
  refine (walk_offset i).here fun start hstart => ?_
  refine (walk_header _ (walk_functionHeader hnext)).bind fun j r _ hr => ?_
  refine (walk_body h _ _ j).bind fun k body hjk hbody => ?_
  refine (walk_ending _ _ hstart (show i < k by omega)).bind fun l e _ he => .value ?_
  have hrow := (hr.2.append hbody).append he.1
  exact (Over.node he.2 hrow).row

theorem walk_methodHeader (h : Laid c tokens g) {kind : Kind} (hnext : tokens[i]?.map Token.kind = some kind) :
    Walk c tokens i g.methodHeader fun j r => i < j ∧
      Row tokens i j (r.1.toList.map TypeExpr.spans ++ r.2.2.1.map Formal.spans ++ Predicate.spansIf r.2.2.2) := by
  refine (walk_skip hnext).next fun _ => ?_
  refine (walk_ask (i + 1) _).next fun named => ?_
  have hrest : ∀ j (result : Option TypeExpr), Row tokens (i + 1) j (result.toList.map TypeExpr.spans) →
      Walk c tokens j (do
        let name ← expectText .ident
        let formals ← formalsIfAny true
        let guard ← if ← accept (.keyword .if_) then some <$> g.parenPredicate else pure none
        expectPunct .semi
        return (result, name, formals, guard)) fun k r => i < k ∧
          Row tokens i k (r.1.toList.map TypeExpr.spans ++ r.2.2.1.map Formal.spans ++ Predicate.spansIf r.2.2.2) := by
    intro j result hresult
    have hij := hresult.le
    refine (walk_expectText j _).next fun name => ?_
    refine (walk_formalsIfAny true (j + 1)).bind fun k formals hjk hformals => ?_
    refine (walk_accept k _).bind fun l b hkl _ => ?_
    have hguard : ∀ m guard, Row tokens l m (Predicate.spansIf guard) → Walk c tokens m (do
        expectPunct .semi
        return (result, name, formals, guard)) fun k r => i < k ∧
          Row tokens i k (r.1.toList.map TypeExpr.spans ++ r.2.2.1.map Formal.spans ++ Predicate.spansIf r.2.2.2) := by
      intro m guard hguard
      have hlm := hguard.le
      refine (walk_expectPunct m _).next fun _ => .value ⟨by omega, ?_⟩
      exact ((hresult.join hformals (Nat.le_succ j)).join hguard hkl).widen (Nat.le_succ i) (Nat.le_succ m)
    cases b with
    | false => exact hguard l none (.nil (Nat.le_refl l))
    | true =>
      have hsome : Walk c tokens l (some <$> g.parenPredicate) fun m p => Row tokens l m (Predicate.spansIf p) :=
        (walk_parenPredicate h l).map fun _ _ _ h => h
      exact hsome.bind fun m guard _ hm => hguard m guard hm
  cases named with
  | true => exact hrest (i + 1) none (.nil (Nat.le_refl _))
  | false =>
    have htype : Walk c tokens (i + 1) (some <$> type) fun j t =>
        Row tokens (i + 1) j (t.toList.map TypeExpr.spans) := (walk_type (i + 1)).map fun _ _ _ h => h.row
    exact htype.bind fun j result _ hresult => hrest j result hresult

theorem walk_methodDef (h : Laid c tokens g) {kind : Kind} (hnext : tokens[i]?.map Token.kind = some kind) :
    Walk c tokens i g.methodDef fun j d => Row tokens i j [d.spans] := by
  refine (walk_offset i).here fun start hstart => ?_
  refine (walk_header _ (walk_methodHeader h hnext)).bind fun j r _ hr => ?_
  refine (walk_body h _ _ j).bind fun k body hjk hbody => ?_
  refine (walk_ending _ _ hstart (show i < k by omega)).bind fun l e _ he => .value ?_
  exact (Over.node he.2 ((hr.2.append hbody).append he.1)).row

theorem walk_ruleHeader (h : Laid c tokens g) {kind : Kind} (hnext : tokens[i]?.map Token.kind = some kind) :
    Walk c tokens i g.ruleHeader fun j r => i < j ∧ Row tokens i j (Predicate.spansIf r.2) := by
  refine (walk_skip hnext).next fun _ => ?_
  refine (walk_expectText (i + 1) _).next fun name => ?_
  refine (walk_isNext (i + 1 + 1) _).here fun b _ => ?_
  have hguard : ∀ j guard, Row tokens (i + 1 + 1) j (Predicate.spansIf guard) → Walk c tokens j (do
      expectPunct .semi
      return (name, guard)) fun k r => i < k ∧ Row tokens i k (Predicate.spansIf r.2) := by
    intro j guard hguard
    have hij := hguard.le
    exact (walk_expectPunct j _).next fun _ => .value ⟨by omega, hguard.widen (by omega) (Nat.le_succ j)⟩
  cases b with
  | false => exact hguard _ none (.nil (Nat.le_refl _))
  | true =>
    have hsome : Walk c tokens (i + 1 + 1) (some <$> g.parenPredicate) fun j p =>
        Row tokens (i + 1 + 1) j (Predicate.spansIf p) := (walk_parenPredicate h _).map fun _ _ _ h => h
    exact hsome.bind fun j guard _ hj => hguard j guard hj

theorem walk_ruleDef (h : Laid c tokens g) {kind : Kind} (hnext : tokens[i]?.map Token.kind = some kind) :
    Walk c tokens i g.ruleDef fun j d => Row tokens i j [d.spans] := by
  refine (walk_offset i).here fun start hstart => ?_
  refine (walk_header _ (walk_ruleHeader h hnext)).bind fun j r _ hr => ?_
  refine (walk_items (h.stmt .action) j).bind fun k body hjk hbody => ?_
  refine (walk_ending _ _ hstart (show i < k by omega)).bind fun l e _ he => .value ?_
  rw [← Stmt.spansIn_eq] at hbody
  exact (Over.node he.2 ((hr.2.append hbody).append he.1)).row

/-! ## Interfaces and modules -/

theorem walk_subinterfaceHeader {kind : Kind} (hnext : tokens[i]?.map Token.kind = some kind) :
    Walk c tokens i Grammar.subinterfaceHeader fun j r => i < j ∧ Row tokens i j [r.1.spans] := by
  refine (walk_skip hnext).next fun _ => ?_
  refine (walk_type (i + 1)).bind fun j type _ htype => ?_
  refine (walk_expectText j _).next fun name => ?_
  refine (walk_expectPunct (j + 1) _).next fun _ => .value ⟨by omega, ?_⟩
  exact htype.row.widen (Nat.le_succ i) (by omega)

theorem walk_subinterfaceDef (h : Laid c tokens g) {kind : Kind} (hnext : tokens[i]?.map Token.kind = some kind) :
    Walk c tokens i g.subinterfaceDef fun j d => Row tokens i j [d.spans] := by
  refine (walk_offset i).here fun start hstart => ?_
  refine (walk_header _ (walk_subinterfaceHeader hnext)).bind fun j r _ hr => ?_
  refine (walk_items (walk_interfaceStmt h) j).bind fun k stmts hjk hstmts => ?_
  refine (walk_ending _ _ hstart (show i < k by omega)).bind fun l e _ he => .value ?_
  rw [← InterfaceStmt.spansIn_eq] at hstmts
  exact (Over.node he.2 ((hr.2.append hstmts).append he.1)).row

theorem walk_moduleContext (i : Nat) :
    Walk c tokens i Grammar.moduleContext fun j r => Row tokens i j (r.toList.map TypeExpr.spans) := by
  refine (walk_accept i _).bind fun j b hij _ => ?_
  cases b with
  | false => exact .value (.nil hij)
  | true =>
    refine (walk_type j).bind fun k type _ htype => ?_
    exact (walk_expectPunct k _).next fun _ => .value (htype.row.widen hij (Nat.le_succ k))

theorem walk_moduleHeader {kind : Kind} (hnext : tokens[i]?.map Token.kind = some kind) :
    Walk c tokens i Grammar.moduleHeader fun j r => i < j ∧ Row tokens i j
      (r.1.toList.map TypeExpr.spans ++ r.2.2.1.map ModuleParam.spans ++ r.2.2.2.map ModuleArg.spans) := by
  refine (walk_skip hnext).next fun _ => ?_
  refine (walk_moduleContext (i + 1)).bind fun j context _ hcontext => ?_
  refine (walk_expectText j _).next fun name => ?_
  refine (walk_moduleParams (j + 1)).bind fun k params _ hparams => ?_
  refine (walk_moduleArgs k).bind fun l args _ hargs => ?_
  refine (walk_skipProvisos l).bind fun m _ hlm _ => ?_
  refine (walk_expectPunct m _).next fun _ => .value ⟨by omega, ?_⟩
  exact ((hcontext.join hparams (Nat.le_succ j)).append hargs).widen (Nat.le_succ i) (by omega)

theorem walk_failMisplaced {simple : SimpleStmt} (place : Place) (h : Row tokens i j [simple.spans])
    {post : Nat → α → Prop} : Walk c tokens j (failMisplaced simple place) post := by
  refine (walk_report (simple_fits h) _).next fun _ => .fail

theorem walk_simpleModuleStmt (h : Laid c tokens g) (i : Nat) :
    Walk c tokens i g.simpleModuleStmt fun j s => Row tokens i j [s.spans] := by
  refine (walk_simple h i).bind fun j simple _ hsimple => ?_
  cases simple with
  | varDecl d => exact (walk_record _ _).next fun _ => .value hsimple
  | assign a => exact (walk_record _ _).next fun _ => .value hsimple
  | bind b => exact .value hsimple
  | expr e => exact .value hsimple
  | regWrite w => exact walk_failMisplaced _ hsimple

theorem walk_moduleStmt (h : Laid c tokens g) (i : Nat) :
    Walk c tokens i g.moduleStmt fun j s => Row tokens i j [s.spans] := by
  refine (walk_skipAttributes i).bind fun j _ hij _ => ?_
  refine .widen hij ((walk_peek j).here fun next hnext => ?_)
  split
  · exact (walk_methodDef h hnext.symm).bind fun _ _ _ hd => .value hd
  · exact (walk_subinterfaceDef h hnext.symm).bind fun _ _ _ hd => .value hd
  · exact (walk_ruleDef h hnext.symm).bind fun _ _ _ hd => .value hd
  · exact (walk_returned h hnext.symm).bind fun _ _ _ he => .value he
  · exact (walk_functionDef h hnext.symm).bind fun _ _ _ hd => .value hd
  · exact (h.module hnext.symm).bind fun _ _ _ hd => .value hd
  · exact (walk_skipUnsupported h _ hnext.symm).bind fun _ _ _ _ => .fail
  · exact (walk_skipUnsupported h _ hnext.symm).bind fun _ _ _ _ => .fail
  · exact (walk_skipUnsupported h _ hnext.symm).bind fun _ _ _ _ => .fail
  · refine (walk_systemCall hnext.symm).bind fun k span _ hspan => ?_
    refine (walk_eat k _).bind fun l _ _ _ => ?_
    exact (walk_reportUnsupported (fun _ => hspan) _).next fun _ => .fail
  · exact walk_simpleModuleStmt h j

theorem walk_moduleDef (h : Laid c tokens g) {kind : Kind} (hnext : tokens[i]?.map Token.kind = some kind) :
    Walk c tokens i g.moduleDef fun j d => Row tokens i j [d.spans] := by
  refine (walk_offset i).here fun start hstart => ?_
  refine (walk_header _ (walk_moduleHeader hnext)).bind fun j r _ hr => ?_
  refine (walk_items (walk_moduleStmt h) j).bind fun k stmts hjk hstmts => ?_
  refine (walk_ending _ _ hstart (show i < k by omega)).bind fun l e _ he => .value ?_
  rw [← ModuleStmt.spansIn_eq] at hstmts
  exact (Over.node he.2 ((hr.2.append hstmts).append he.1)).row

/-! ## Statements -/

theorem walk_ifStmt (h : Laid c tokens g) (dialect : Dialect) {kind : Kind}
    (hnext : tokens[i]?.map Token.kind = some kind) :
    Walk c tokens i (g.ifStmt dialect) fun j form => i < j ∧ Row tokens i j form.spans := by
  refine (walk_skip hnext).next fun _ => ?_
  refine (walk_parenPredicate h (i + 1)).bind fun j predicate _ hpredicate => ?_
  refine (h.stmt dialect j).bind fun k thenBranch _ hthen => ?_
  refine (walk_accept k _).bind fun l b hkl _ => ?_
  have hboth : Row tokens i k [predicate.spans, thenBranch.spans] :=
    (hpredicate.append hthen).widen (Nat.le_succ i) (Nat.le_refl k)
  cases b with
  | false => exact .value ⟨by omega, hboth.widen (Nat.le_refl i) hkl⟩
  | true =>
    have helse : Walk c tokens l (some <$> g.innerStmt dialect) fun m s => Row tokens l m (Stmt.spansIf s) :=
      (h.stmt dialect l).map fun _ _ _ h => h
    exact helse.bind fun m _ _ hm => .value ⟨by omega, hboth.join hm hkl⟩

theorem walk_systemTask (dialect : Dialect) {kind : Kind} (hnext : tokens[i]?.map Token.kind = some kind) :
    Walk c tokens i (Grammar.systemTask dialect) fun _ _ => True := by
  refine (walk_systemCall hnext).bind fun j span _ hspan => ?_
  refine (walk_eat j _).bind fun k _ _ _ => ?_
  refine (walk_permit dialect _ fun _ => hspan).next fun _ => ?_
  exact (walk_reportUnsupported (fun _ => hspan) _).weaken fun _ _ _ _ => trivial

theorem walk_returnStmt (h : Laid c tokens g) (dialect : Dialect) {kind : Kind}
    (hnext : tokens[i]?.map Token.kind = some kind) :
    Walk c tokens i (g.returnStmt dialect) fun j form => i < j ∧ Row tokens i j form.spans := by
  refine (walk_peekSpan i).here fun span hspan => ?_
  refine (walk_returned h hnext).bind fun j e _ he => ?_
  exact (walk_permit dialect _ fun _ => hspan).next fun _ => .value ⟨he.lt, he⟩

theorem walk_actionStmt (h : Laid c tokens g) (dialect : Dialect) (i : Nat) :
    Walk c tokens i (g.actionStmt dialect) fun j form => i < j ∧ Row tokens i j form.spans := by
  refine (walk_peekSpan i).here fun span hspan => ?_
  refine (walk_operand h i).bind fun j e _ he => ?_
  refine (walk_eat j _).bind fun k _ hjk _ => ?_
  have hlt := he.lt
  exact (walk_permit dialect _ fun _ => hspan).next fun _ =>
    .value ⟨by omega, he.row.widen (Nat.le_refl i) hjk⟩

theorem walk_stmtForm (h : Laid c tokens g) (dialect : Dialect) (i : Nat) :
    Walk c tokens i (g.stmtForm dialect) fun j form => i < j ∧ Row tokens i j form.spans := by
  refine (walk_peek i).here fun next hnext => ?_
  split
  · exact (walk_block h dialect _ _ i).bind fun _ _ _ hb => .value ⟨hb.lt, hb.row⟩
  · exact walk_ifStmt h dialect hnext.symm
  · exact walk_returnStmt h dialect hnext.symm
  · exact (walk_functionDef h hnext.symm).bind fun _ _ _ hd => .value ⟨hd.lt, hd⟩
  · exact (walk_moduleDef h hnext.symm).bind fun _ _ _ hd => .value ⟨hd.lt, hd⟩
  · exact (walk_skipUnsupported h _ hnext.symm).bind fun _ _ _ _ => .fail
  · exact (walk_skipUnsupported h _ hnext.symm).bind fun _ _ _ _ => .fail
  · exact (walk_skipUnsupported h _ hnext.symm).bind fun _ _ _ _ => .fail
  · exact (walk_systemTask dialect hnext.symm).bind fun _ _ _ _ => .fail
  · exact walk_actionStmt h dialect i
  · exact walk_actionStmt h dialect i
  · exact walk_failExpected _
  · exact (walk_simple h i).bind fun _ _ _ hs => walk_permitSimple dialect hs

/-- A statement begins behind its attributes. -/
theorem walk_stmt (h : Laid c tokens g) (dialect : Dialect) (i : Nat) :
    Walk c tokens i (g.stmt dialect) fun j s => Row tokens i j [s.spans] := by
  refine (walk_skipAttributes i).bind fun j _ hij _ => ?_
  refine (walk_offset j).here fun start hstart => ?_
  refine (walk_stmtForm h dialect j).bind fun k form _ hform => ?_
  exact walk_spannedAfter hij hstart hform.1 hform.2 fun _ => rfl

/-! ## The whole grammar -/

theorem laid_empty : Laid c tokens .empty where
  expr _ _ := .fail
  operand _ := .fail
  stmt _ _ := .fail
  method _ := .fail
  subinterface _ := .fail
  module _ := .fail

/-- Where the trees of the inner parsers stand among their tokens, so do those of the productions. -/
theorem Laid.next (h : Laid c tokens g) : Laid c tokens g.next where
  expr := walk_expr h
  operand := walk_operand h
  stmt := walk_stmt h
  method := walk_methodDef h
  subinterface := walk_subinterfaceDef h
  module := walk_moduleDef h

theorem laid_upTo (n : Nat) : Laid c tokens (.upTo n) := by
  induction n with
  | zero => exact laid_empty
  | succ n ih => exact ih.next

/-- A production with as many levels as there are tokens left. -/
theorem walk_withGrammar {production : Grammar → Parser α} {post : Nat → α → Prop}
    (h : ∀ g, Laid c tokens g → Walk c tokens i (production g) post) : Walk c tokens i (withGrammar production) post :=
  fun s => h _ (laid_upTo _) s

end Bluespec.Parser
