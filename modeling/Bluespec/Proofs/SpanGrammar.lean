import Bluespec.Proofs.SpanTypes

/-!
# The spans of expressions and statements

The productions that stand for expressions, simple statements and blocks, over a grammar whose inner parsers yield
trees that stand among the tokens that are read for them.

* **`Laid`** — such a grammar.
* **`walk_primary`**, **`walk_operand`**, **`walk_expr`** — an expression covers its tokens; its operators and suffixes
  begin where its first operand does.
* **`walk_simple`** — a simple statement begins where its first expression or its declaration does.
* **`walk_block`**, **`walk_valueBlock`**, **`walk_interfaceExpr`** — statements stand between words in order.
-/

namespace Bluespec

theorem Expr.spans_eq (e : Expr) : e.spans = .node e.span e.form.spans := by
  cases e
  rfl

theorem Expr.span_spans (e : Expr) : e.spans.span = e.span := by
  rw [e.spans_eq]
  rfl

/-- A literal that takes a sign is still a literal. -/
theorem ExprForm.spans_withSign {sign : Sign} {form form' : ExprForm} (h : form.withSign? sign = some form') :
    form'.spans = [] := by
  unfold withSign? at h
  split at h
  · split at h
    · cases h
      rfl
    · cases h
  · cases h

/-- The spans of a simple statement. -/
def SimpleStmt.spans : SimpleStmt → SpanTree
  | .varDecl d => d.spans
  | .assign a => a.spans
  | .regWrite a => a.spans
  | .bind b => b.spans
  | .expr e => e.spans

theorem SimpleStmt.spans_form (s : SimpleStmt) : s.form.spans = [s.spans] := by
  cases s <;> rfl

theorem SimpleStmt.span_spans (s : SimpleStmt) : s.spans.span = s.span := by
  cases s with
  | varDecl d => cases d; rfl
  | assign a => cases a; rfl
  | regWrite a => cases a; rfl
  | bind b => cases b; rfl
  | expr e => exact e.span_spans

namespace Parser

open SpanTree

variable {α : Type} {c : Setting} {tokens : List Token} {i j k : Nat} {g : Grammar}

/-- The trees that the inner parsers of the grammar yield stand among the tokens that are read for them. -/
structure Laid (c : Setting) (tokens : List Token) (g : Grammar) : Prop where
  expr : ∀ min i, Walk c tokens i (g.innerExpr min) fun j e => Over tokens i j e.spans
  operand : ∀ i, Walk c tokens i g.innerOperand fun j e => Over tokens i j e.spans
  stmt : ∀ dialect i, Walk c tokens i (g.innerStmt dialect) fun j s => Row tokens i j [s.spans]
  method : ∀ {i kind}, tokens[i]?.map Token.kind = some kind →
    Walk c tokens i g.innerMethod fun j d => Row tokens i j [d.spans]
  subinterface : ∀ {i kind}, tokens[i]?.map Token.kind = some kind →
    Walk c tokens i g.innerSubinterface fun j d => Row tokens i j [d.spans]
  module : ∀ {i kind}, tokens[i]?.map Token.kind = some kind →
    Walk c tokens i g.innerModule fun j d => Row tokens i j [d.spans]

/-- An expression begins where its first token does. -/
theorem start_of_covers {e : Expr} (h : Over tokens i j e.spans) : e.span.start = (spanAt c tokens i).start :=
  e.span_spans ▸ start_of_reaches h.reaches

/-! ## Bracketed lists -/

theorem walk_arguments (h : Laid c tokens g) (i : Nat) :
    Walk c tokens i g.arguments fun j es => i < j ∧ Row tokens i j (Expr.spansIn es) := by
  refine (walk_expectPunct i _).next fun _ => ?_
  refine (walk_enclosed .rparen (fun i => (h.expr 0 i).row) (i + 1)).weaken fun j es hij hes => ⟨hij, ?_⟩
  rw [Expr.spansIn_eq]
  exact hes.widen (Nat.le_succ i) (Nat.le_refl j)

theorem walk_fieldBind (h : Laid c tokens g) (i : Nat) :
    Walk c tokens i g.fieldBind fun j m => Over tokens i j m.spans := by
  refine (walk_offset i).here fun start hstart => ?_
  refine (walk_expectText i _).next fun field => ?_
  refine (walk_expectPunct (i + 1) _).next fun _ => ?_
  refine (h.expr 0 (i + 1 + 1)).bind fun j value _ hvalue => ?_
  exact walk_spanned hstart (by omega) (hvalue.row.widen (by omega) (Nat.le_refl j)) fun _ => rfl

theorem walk_fieldBinds (h : Laid c tokens g) (i : Nat) :
    Walk c tokens i g.fieldBinds fun j ms => i < j ∧ Row tokens i j (FieldBind.spansIn ms) := by
  refine (walk_expectPunct i _).next fun _ => ?_
  refine (walk_separated .comma (fun i => (walk_fieldBind h i).row) (i + 1)).bind fun j ms hij hms => ?_
  refine (walk_expectPunct j _).next fun _ => .value ⟨by omega, ?_⟩
  rw [FieldBind.spansIn_eq]
  exact hms.widen (Nat.le_succ i) (Nat.le_succ j)

theorem walk_concatItems (h : Laid c tokens g) (i : Nat) :
    Walk c tokens i g.concatItems fun j es => i < j ∧ Row tokens i j (Expr.spansIn es) := by
  refine (walk_expectPunct i _).next fun _ => ?_
  refine (walk_separated .comma (fun i => (h.expr 0 i).row) (i + 1)).bind fun j es hij hes => ?_
  refine (walk_expectPunct j _).next fun _ => .value ⟨by omega, ?_⟩
  rw [Expr.spansIn_eq]
  exact hes.widen (Nat.le_succ i) (Nat.le_succ j)

/-! ## Suffixes -/

/-- An expression that goes on from an operand, and for which further tokens were read. -/
theorem walk_again {start : Nat} {form : ExprForm} (hstart : start = (spanAt c tokens i).start) (hij : i < j)
    (hrow : Row tokens i j form.spans) :
    Walk c tokens j (spanFrom start >>= fun span => pure (Round.again (Expr.mk form span))) fun k r =>
      RoundKeeps (fun e : Expr => Over tokens i k e.spans) r := by
  refine (walk_spanOver hij hstart).here fun span hspan => .value ?_
  exact .node hspan hrow

theorem walk_selection (h : Laid c tokens g) {base : Expr} (hbase : Over tokens i j base.spans) {kind : Kind}
    (hnext : tokens[j]?.map Token.kind = some kind) :
    Walk c tokens j (g.selection base) fun k form => Row tokens i k form.spans := by
  refine (walk_skip hnext).next fun _ => ?_
  refine (h.expr 0 (j + 1)).bind fun k hi hjk hhi => ?_
  refine (walk_accept k _).bind fun l b hkl _ => ?_
  have hboth : Row tokens i k [base.spans, hi.spans] := hbase.row.join hhi.row (Nat.le_succ j)
  cases b with
  | false => exact (walk_expectPunct l _).next fun _ => .value (hboth.widen (Nat.le_refl i) (by omega))
  | true =>
    have hlo : Walk c tokens l (some <$> g.innerExpr 0) fun m lo => Row tokens l m (Expr.spansIf lo) :=
      (h.expr 0 l).map fun _ _ _ h => h.row
    refine hlo.bind fun m lo _ hlo => ?_
    exact (walk_expectPunct m _).next fun _ => .value ((hboth.join hlo hkl).widen (Nat.le_refl i) (Nat.le_succ m))

theorem walk_memberOf (h : Laid c tokens g) {receiver : Expr} (hreceiver : Over tokens i j receiver.spans)
    {kind : Kind} (hnext : tokens[j]?.map Token.kind = some kind) :
    Walk c tokens j (g.memberOf receiver) fun k form => Row tokens i k form.spans := by
  refine (walk_skip hnext).next fun _ => ?_
  refine (walk_expectText (j + 1) _).next fun name => ?_
  refine (walk_isNext (j + 1 + 1) _).here fun b _ => ?_
  cases b with
  | false => exact .value (hreceiver.row.widen (Nat.le_refl i) (by omega))
  | true =>
    exact (walk_arguments h (j + 1 + 1)).bind fun k args _ hargs => .value (hreceiver.row.join hargs.2 (by omega))

/-- A suffix goes on from the operand before it. -/
theorem walk_suffix (h : Laid c tokens g) {operand : Expr} (hoperand : Over tokens i j operand.spans) :
    Walk c tokens j (g.suffix operand) fun k r => RoundKeeps (fun e => Over tokens i k e.spans) r := by
  have hlt := hoperand.lt
  refine (walk_peek j).here fun next hnext => ?_
  split
  · refine (walk_arguments h j).bind fun k args hjk hargs => ?_
    exact walk_again (start_of_covers hoperand) (by omega) (hoperand.row.join hargs.2 (Nat.le_refl j))
  · refine (walk_selection h hoperand hnext.symm).bind fun k form hjk hform => ?_
    exact walk_again (start_of_covers hoperand) (by omega) hform
  · refine (walk_memberOf h hoperand hnext.symm).bind fun k form hjk hform => ?_
    exact walk_again (start_of_covers hoperand) (by omega) hform
  · exact .value hoperand

theorem walk_suffixes (h : Laid c tokens g) {operand : Expr} (hoperand : Over tokens i j operand.spans) :
    Walk c tokens j (g.suffixes operand) fun k e => Over tokens i k e.spans :=
  walk_repeatUntil (I := fun k e => Over tokens i k e.spans) (fun _ _ he => walk_suffix h he) hoperand

/-! ## Operators -/

theorem walk_furtherConjuncts (h : Laid c tokens g) (min i : Nat) :
    Walk c tokens i (g.furtherConjuncts min) fun j es => Row tokens i j (Expr.spansIn es) := by
  refine walk_repeatUntil (I := fun j es => Row tokens i j (Expr.spansIn es)) (fun j read hread => ?_)
    (.nil (Nat.le_refl i))
  refine (walk_accept j _).bind fun k b hjk _ => ?_
  cases b with
  | false => exact .value (hread.widen (Nat.le_refl i) hjk)
  | true =>
    refine (h.expr min k).bind fun l e _ he => .value ?_
    show Row tokens i l (Expr.spansIn (read ++ [e]))
    rw [Expr.spansIn_eq, List.map_append, ← Expr.spansIn_eq]
    exact hread.join he.row hjk

/-- The branches of a conditional go on from its predicate. -/
theorem walk_conditional (h : Laid c tokens g) {predicate : Predicate}
    (hpredicate : Over tokens i j predicate.spans) (hstart : predicate.span.start = (spanAt c tokens i).start) :
    Walk c tokens j (g.conditional predicate) fun k e => Over tokens i k e.spans := by
  have hlt := hpredicate.lt
  refine (walk_expectPunct j _).next fun _ => ?_
  refine (h.expr 0 (j + 1)).bind fun k thenBranch _ hthen => ?_
  refine (walk_expectPunct k _).next fun _ => ?_
  refine (h.expr conditionalPower (k + 1)).bind fun l elseBranch _ helse => ?_
  have hrow := (hpredicate.row.join hthen.row (Nat.le_succ j)).join helse.row (Nat.le_succ k)
  exact walk_spanned hstart (by omega) hrow fun _ => rfl

theorem walk_conjunctsOfConditional (h : Laid c tokens g) (i : Nat) :
    Walk c tokens i g.conjunctsOfConditional fun j es => Row tokens i j (Expr.spansIn es) := by
  refine (walk_furtherConjuncts h _ i).bind fun j others _ hothers => ?_
  refine (walk_isNext j _).here fun b _ => ?_
  split
  · exact .value hothers
  · exact .fail

/-- A chain of conditions that a conditional follows goes on from the first of them. -/
theorem walk_chained (h : Laid c tokens g) {first : Expr} (hfirst : Over tokens i j first.spans) :
    Walk c tokens j (g.chained first) fun k r => RoundKeeps (fun e : Expr => Over tokens i k e.spans) r := by
  have hlt := hfirst.lt
  refine (walk_conjunctsOfConditional h j).tentatively.bind fun k r hjk hr => ?_
  cases r with
  | none => exact .value (hr.1 rfl ▸ hfirst)
  | some others =>
    refine (walk_spanOver (show i < k by omega) (start_of_covers hfirst)).here fun span hspan => ?_
    have hpredicate : Over tokens i k (Predicate.mk (first :: others) span).spans :=
      .node hspan (hfirst.row.join (hr.2 others rfl) (Nat.le_refl j))
    refine (walk_conditional h hpredicate ?_).bind fun l e _ he => .value he
    exact start_of_reaches hspan

/-- An operation goes on from the operand before it. -/
theorem walk_operation (h : Laid c tokens g) (min : Nat) {lhs : Expr} (hlhs : Over tokens i j lhs.spans) :
    Walk c tokens j (g.operation min lhs) fun k r => RoundKeeps (fun e : Expr => Over tokens i k e.spans) r := by
  have hstart : lhs.span.start = (spanAt c tokens i).start := start_of_covers hlhs
  refine (walk_peek j).here fun next hnext => ?_
  split
  · split
    · have hpredicate : Over tokens i j (Predicate.mk [lhs] lhs.span).spans :=
        .node (lhs.span_spans ▸ hlhs.reaches) hlhs.row
      exact (walk_conditional h hpredicate hstart).bind fun k e _ he => .value he
    · exact .value hlhs
  · split
    · exact walk_chained h hlhs
    · exact .value hlhs
  · refine (walk_skip hnext.symm).next fun _ => ?_
    refine (walk_spanFrom (j + 1) hstart).here fun span hspan => ?_
    exact (walk_reportUnsupported (fun _ => hspan) _).next fun _ => .fail
  · split
    · split
      · rename_i hop _
        obtain ⟨kind, hkind, -⟩ := Option.bind_eq_some_iff.mp hop
        refine (walk_skip (hnext.symm.trans hkind)).next fun _ => ?_
        refine (h.expr _ (j + 1)).bind fun k rhs _ hrhs => .value ?_
        have hrow := hlhs.row.join hrhs.row (Nat.le_succ j)
        refine .node ?_ hrow
        rw [← lhs.span_spans, ← rhs.span_spans]
        exact hlhs.reaches.join hrhs.reaches hrow.lt
      · exact .value hlhs
    · exact .value hlhs

theorem walk_operations (h : Laid c tokens g) (min : Nat) {lhs : Expr} (hlhs : Over tokens i j lhs.spans) :
    Walk c tokens j (g.operations min lhs) fun k e => Over tokens i k e.spans :=
  walk_repeatUntil (I := fun k e => Over tokens i k e.spans) (fun _ _ he => walk_operation h min he) hlhs

/-! ## Simple statements -/

theorem walk_valueAndSemicolon (h : Laid c tokens g) (i : Nat) :
    Walk c tokens i g.valueAndSemicolon fun j e => Row tokens i j [e.spans] := by
  refine (h.expr 0 i).bind fun j value _ hvalue => ?_
  exact (walk_expectPunct j _).next fun _ => .value (hvalue.row.widen (Nat.le_refl i) (Nat.le_succ j))

/-- The rest of a simple statement goes on from its first expression. -/
theorem walk_simpleTail (h : Laid c tokens g) {target : Expr} (htarget : Over tokens i j target.spans) :
    Walk c tokens j (g.simpleTail target) fun k s => Row tokens i k [s.spans] := by
  have hlt := htarget.lt
  have hstart : target.span.start = (spanAt c tokens i).start := start_of_covers htarget
  have hfits : Token.Ordered tokens → target.span.Fits tokens c.sourceEnd :=
    target.span_spans ▸ htarget.reaches.fits
  refine (walk_peek j).here fun next hnext => ?_
  split
  · refine (walk_skip hnext.symm).next fun _ => ?_
    refine (walk_valueAndSemicolon h (j + 1)).bind fun k value hjk hvalue => ?_
    split
    · exact walk_spannedAfter (Nat.le_refl i) hstart (by omega) (htarget.row.join hvalue (Nat.le_succ j)) fun _ => rfl
    · exact (walk_report hfits _).next fun _ => .fail
  · refine (walk_skip hnext.symm).next fun _ => ?_
    refine (walk_valueAndSemicolon h (j + 1)).bind fun k value hjk hvalue => ?_
    exact walk_spannedAfter (Nat.le_refl i) hstart (by omega) (htarget.row.join hvalue (Nat.le_succ j)) fun _ => rfl
  · split
    · refine (walk_skip hnext.symm).next fun _ => ?_
      refine (walk_valueAndSemicolon h (j + 1)).bind fun k value hjk hvalue => ?_
      exact walk_spannedAfter (Nat.le_refl i) hstart (by omega) (hvalue.widen (by omega) (Nat.le_refl k)) fun _ => rfl
    · exact (walk_report hfits _).next fun _ => .fail
  · exact (walk_skip hnext.symm).next fun _ => .value (htarget.row.widen (Nat.le_refl i) (Nat.le_succ j))
  · exact walk_failExpected _

theorem walk_letStmt (h : Laid c tokens g) {kind : Kind} (hnext : tokens[i]?.map Token.kind = some kind) :
    Walk c tokens i g.letStmt fun j s => Row tokens i j [s.spans] := by
  refine (walk_offset i).here fun start hstart => ?_
  refine (walk_skip hnext).next fun _ => ?_
  refine (walk_expect (i + 1) _).bind fun j name _ hname => ?_
  refine (walk_accept j _).bind fun k b hjk _ => ?_
  cases b with
  | true =>
    refine (walk_valueAndSemicolon h k).bind fun l value hkl hvalue => ?_
    exact walk_spannedAfter (Nat.le_refl i) hstart (by omega) (hvalue.widen (by omega) (Nat.le_refl l)) fun _ => rfl
  | false =>
    refine (walk_expectPunct k _).next fun _ => ?_
    refine (h.expr 0 (k + 1)).bind fun l init hkl hinit => ?_
    have hnameStart : name.span.start = (spanAt c tokens (i + 1)).start := start_of_reaches (covers_leaf hname).reaches
    refine (walk_spanOver (show i + 1 < l by omega) hnameStart).here fun span hspan => ?_
    refine (walk_expectPunct l _).next fun _ => ?_
    have hdeclarator : Over tokens (i + 1) l (Declarator.mk name.text [] (some init) span).spans :=
      .node hspan (hinit.row.widen (by omega) (Nat.le_refl l))
    exact walk_spannedAfter (Nat.le_refl i) hstart (by omega)
      (hdeclarator.row.widen (Nat.le_succ i) (Nat.le_succ l)) fun _ => rfl

theorem walk_dimensions (h : Laid c tokens g) (i : Nat) :
    Walk c tokens i g.dimensions fun j es => Row tokens i j (Expr.spansIn es) := by
  refine walk_repeatUntil (I := fun j es => Row tokens i j (Expr.spansIn es)) (fun j read hread => ?_)
    (.nil (Nat.le_refl i))
  refine (walk_accept j _).bind fun k b hjk _ => ?_
  cases b with
  | false => exact .value (hread.widen (Nat.le_refl i) hjk)
  | true =>
    refine (h.expr 0 k).bind fun l dim _ hdim => ?_
    refine (walk_expectPunct l _).next fun _ => .value ?_
    show Row tokens i (l + 1) (Expr.spansIn (read ++ [dim]))
    rw [Expr.spansIn_eq, List.map_append, ← Expr.spansIn_eq]
    exact (hread.join hdim.row hjk).widen (Nat.le_refl i) (Nat.le_succ l)

/-- A declared name begins with the token of the name. -/
theorem walk_declaratorTail (h : Laid c tokens g) {name : Token} (hname : tokens[i]? = some name ∧ j = i + 1) :
    Walk c tokens j (g.declaratorTail name) fun k d => Row tokens i k [d.spans] := by
  have hstart : name.span.start = (spanAt c tokens i).start := start_of_reaches (covers_leaf hname).reaches
  refine (walk_dimensions h j).bind fun k dims hjk hdims => ?_
  refine (walk_accept k _).bind fun l b hkl _ => ?_
  have htail : ∀ m (init : Option Expr), Row tokens l m (Expr.spansIf init) → Walk c tokens m (do
      return Declarator.mk name.text dims init (← spanFrom name.span.start)) fun m d => Row tokens i m [d.spans] := by
    intro m init hinit
    have hlm := hinit.le
    exact walk_spannedAfter (Nat.le_refl i) hstart (by omega)
      ((hdims.widen (by omega) (Nat.le_refl k)).join hinit hkl) fun _ => rfl
  cases b with
  | false => exact htail l none (.nil (Nat.le_refl l))
  | true =>
    have hinit : Walk c tokens l (some <$> g.innerExpr 0) fun m init => Row tokens l m (Expr.spansIf init) :=
      (h.expr 0 l).map fun _ _ _ h => h.row
    exact hinit.bind fun m init _ hinit => htail m init hinit

theorem walk_declarator (h : Laid c tokens g) (i : Nat) :
    Walk c tokens i g.declarator fun j d => Row tokens i j [d.spans] :=
  (walk_expect i _).bind fun _ _ _ hname => walk_declaratorTail h hname

theorem walk_typedStmt (h : Laid c tokens g) (i : Nat) :
    Walk c tokens i g.typedStmt fun j s => Row tokens i j [s.spans] := by
  refine (walk_offset i).here fun start hstart => ?_
  refine (walk_type i).bind fun j type _ htype => ?_
  have hlt := htype.lt
  refine (walk_expect j _).bind fun k name hjk hname => ?_
  refine (walk_accept k _).bind fun l b hkl hl => ?_
  cases b with
  | true =>
    refine (walk_valueAndSemicolon h l).bind fun m value _ hvalue => ?_
    exact walk_spannedAfter (Nat.le_refl i) hstart (by omega) (htype.row.join hvalue (by omega)) fun _ => rfl
  | false =>
    rw [hl.2 rfl]
    refine (walk_declaratorTail h hname).bind fun l first _ hfirst => ?_
    refine (walk_accept l _).bind fun m more hlm _ => ?_
    have htail : ∀ n others, Row tokens m n (others.map Declarator.spans) → Walk c tokens n (do
        expectPunct .semi
        return SimpleStmt.varDecl ⟨.typed type, first :: others, ← spanFrom start⟩) fun n s =>
          Row tokens i n [s.spans] := by
      intro n others hothers
      have hmn := hothers.le
      refine (walk_expectPunct n _).next fun _ => ?_
      have hrow : Row tokens i n ([type.spans] ++ (first :: others).map Declarator.spans) :=
        htype.row.append (hfirst.join hothers hlm)
      refine walk_spannedAfter (Nat.le_refl i) hstart (by omega) (hrow.widen (Nat.le_refl i) (Nat.le_succ n))
        fun span => ?_
      rw [← Declarator.spansIn_eq]
      rfl
    cases more with
    | false => exact htail m [] (.nil (Nat.le_refl m))
    | true =>
      exact (walk_separated .comma (walk_declarator h) m).bind fun n others _ hothers => htail n others hothers

/-! ## Blocks -/

theorem walk_permit (dialect : Dialect) (leaf : Leaf) {span : Span}
    (h : Token.Ordered tokens → span.Fits tokens c.sourceEnd) :
    Walk c tokens i (permit dialect leaf span) fun j _ => j = i := by
  unfold permit
  split
  · exact (walk_report h _).next fun _ => .fail
  · exact .value rfl

theorem simple_fits {simple : SimpleStmt} (h : Row tokens i j [simple.spans]) (hord : Token.Ordered tokens) :
    simple.span.Fits tokens c.sourceEnd := by
  obtain ⟨_, _, -, -, hcovers⟩ := h.covers List.mem_cons_self
  exact simple.span_spans ▸ hcovers.reaches.fits hord

/-- What the dialect permits keeps its form. -/
theorem walk_permitSimple (dialect : Dialect) {simple : SimpleStmt} (h : Row tokens i j [simple.spans]) :
    Walk c tokens j (permitSimple dialect simple) fun k form => i < k ∧ Row tokens i k form.spans := by
  have hform : i < j ∧ Row tokens i j simple.form.spans := ⟨h.lt, simple.spans_form ▸ h⟩
  unfold permitSimple
  split
  · exact .value hform
  · exact (walk_permit dialect _ (simple_fits h)).next fun _ => .value hform

theorem walk_block (h : Laid c tokens g) (dialect : Dialect) (opening closing : Keyword) (i : Nat) :
    Walk c tokens i (g.block dialect opening closing) fun j b => Over tokens i j b.spans := by
  refine (walk_offset i).here fun start hstart => ?_
  refine (walk_expectKeyword i _).next fun _ => ?_
  refine (walk_label (i + 1)).bind fun j openLabel _ hopen => ?_
  refine (walk_items (h.stmt dialect) j).bind fun k stmts _ hstmts => ?_
  refine (walk_expectKeyword k _).next fun _ => ?_
  refine (walk_label (k + 1)).bind fun l closeLabel _ hclose => ?_
  rw [← Stmt.spansIn_eq] at hstmts
  have hrow := (hopen.append hstmts).join hclose (Nat.le_succ k)
  exact walk_spanned hstart (by omega) (hrow.widen (Nat.le_succ i) (Nat.le_refl l)) fun _ => rfl

/-! ## Blocks with a result -/

/-- The spans of what stands in a block with a result. -/
def itemSpans : Grammar.BlockItem → SpanTree
  | .stmt s => s.spans
  | .result e => e.spans

theorem walk_atBlockStmt (i : Nat) : Walk c tokens i Grammar.atBlockStmt fun j _ => j = i := by
  refine (walk_peek i).here fun next _ => ?_
  split
  · exact .value rfl
  · exact walk_atTypedDecl i

theorem walk_blockStmtTail (h : Laid c tokens g) {start : Nat} {target : Expr}
    (hstart : start = (spanAt c tokens i).start) (htarget : Over tokens i j target.spans) :
    Walk c tokens j (g.blockStmtTail start target) fun k item => Row tokens i k [itemSpans item] := by
  refine (walk_simpleTail h htarget).bind fun k simple _ hsimple => ?_
  refine (walk_permitSimple .expression hsimple).bind fun l form hkl hform => ?_
  exact walk_spannedAfter (Nat.le_refl i) hstart hform.1 hform.2 fun _ => rfl

theorem walk_blockItem (h : Laid c tokens g) (i : Nat) :
    Walk c tokens i g.blockItem fun j item => Row tokens i j [itemSpans item] := by
  refine (walk_atBlockStmt i).next fun b => ?_
  cases b with
  | true => exact (h.stmt .expression i).bind fun j s _ hs => .value hs
  | false =>
    refine (walk_offset i).here fun start hstart => ?_
    refine (h.operand i).bind fun j target _ htarget => ?_
    refine (walk_peek j).here fun next hnext => ?_
    split
    · exact walk_blockStmtTail h hstart htarget
    · exact walk_blockStmtTail h hstart htarget
    · refine (walk_ask j _).next fun second => ?_
      split
      · exact (walk_skip hnext.symm).next fun _ => .value (htarget.row.widen (Nat.le_refl i) (Nat.le_succ j))
      · exact walk_blockStmtTail h hstart htarget
    · refine (walk_operations h 0 htarget).bind fun k result _ hresult => ?_
      exact (walk_eat k _).bind fun l _ hkl _ => .value (hresult.row.widen (Nat.le_refl i) hkl)

theorem walk_blockItems (h : Laid c tokens g) (i : Nat) :
    Walk c tokens i g.blockItems fun j r => Row tokens i j (Stmt.spansIn r.1 ++ [r.2.spans]) := by
  refine walk_repeatUntil (I := fun j ss => Row tokens i j (Stmt.spansIn ss)) (fun j read hread => ?_)
    (.nil (Nat.le_refl i))
  refine (walk_halted j).next fun halted => ?_
  cases halted with
  | true => exact .fail
  | false =>
    refine (walk_ask j _).next fun atCloser => ?_
    cases atCloser with
    | true => exact walk_failExpected _
    | false =>
      refine (walk_blockItem h j).resuming.bind fun k item hjk hitem => ?_
      cases item with
      | none => exact .value (hread.widen (Nat.le_refl i) hjk)
      | some item =>
        have hrow := hread.append (hitem item rfl)
        cases item with
        | stmt s =>
          refine .value ?_
          show Row tokens i k (Stmt.spansIn (read ++ [s]))
          rw [Stmt.spansIn_eq, List.map_append, ← Stmt.spansIn_eq]
          exact hrow
        | result e => exact .value hrow

theorem walk_valueBlock (h : Laid c tokens g) (i : Nat) :
    Walk c tokens i g.valueBlock fun j form => i < j ∧ Row tokens i j form.spans := by
  refine (walk_expectKeyword i _).next fun _ => ?_
  refine (walk_label (i + 1)).bind fun j openLabel _ hopen => ?_
  refine (walk_blockItems h j).bind fun k items _ hitems => ?_
  refine (walk_expectKeyword k _).next fun _ => ?_
  refine (walk_label (k + 1)).bind fun l closeLabel _ hclose => .value ⟨by omega, ?_⟩
  have hrow := (hopen.append hitems).join hclose (Nat.le_succ k)
  rw [← List.append_assoc] at hrow
  exact hrow.widen (Nat.le_succ i) (Nat.le_refl l)

/-! ## Interfaces -/

theorem walk_interfaceStmt (h : Laid c tokens g) (i : Nat) :
    Walk c tokens i g.interfaceStmt fun j s => Row tokens i j [s.spans] := by
  refine (walk_skipAttributes i).bind fun j _ hij _ => ?_
  refine (walk_peek j).here fun next hnext => ?_
  split
  · exact (h.method hnext.symm).bind fun k d _ hd => .value (hd.widen hij (Nat.le_refl k))
  · exact (h.subinterface hnext.symm).bind fun k d _ hd => .value (hd.widen hij (Nat.le_refl k))
  · exact (h.stmt .expression j).bind fun k s _ hs => .value (hs.widen hij (Nat.le_refl k))

theorem walk_interfaceExpr (h : Laid c tokens g) {kind : Kind} (hnext : tokens[i]?.map Token.kind = some kind) :
    Walk c tokens i g.interfaceExpr fun j form => i < j ∧ Row tokens i j form.spans := by
  refine (walk_skip hnext).next fun _ => ?_
  refine (walk_type (i + 1)).bind fun j type _ htype => ?_
  refine (walk_expectPunct j _).next fun _ => ?_
  refine (walk_items (walk_interfaceStmt h) (j + 1)).bind fun k stmts _ hstmts => ?_
  refine (walk_expectKeyword k _).next fun _ => ?_
  refine (walk_label (k + 1)).bind fun l endLabel _ hend => .value ⟨by omega, ?_⟩
  rw [← InterfaceStmt.spansIn_eq] at hstmts
  have hrow := (htype.row.join hstmts (Nat.le_succ j)).join hend (Nat.le_succ k)
  exact hrow.widen (Nat.le_succ i) (Nat.le_refl l)

/-! ## Expressions -/

theorem walk_literal (i : Nat) (kind : Kind) : Walk c tokens i (Grammar.literal kind) fun j _ => j = i + 1 := by
  refine (walk_expect i _).bind fun j t _ ht => ?_
  split
  · exact .value ht.2
  · exact (walk_report (covers_leaf ht).reaches.fits _).next fun _ => .fail

theorem walk_systemCall {kind : Kind} (hnext : tokens[i]?.map Token.kind = some kind) :
    Walk c tokens i Grammar.systemCall fun _ span => span.Fits tokens c.sourceEnd := by
  refine (walk_offset i).here fun start hstart => ?_
  refine (walk_skip hnext).next fun _ => ?_
  refine (walk_skipParenthesized (i + 1)).bind fun j _ _ _ => ?_
  exact (walk_spanFrom j hstart).weaken fun _ _ _ h => h.2

theorem walk_payload (h : Laid c tokens g) (i : Nat) :
    Walk c tokens i g.payload fun j p => Row tokens i j p.spans := by
  refine (walk_peek i).here fun next _ => ?_
  split
  · exact (walk_fieldBinds h i).bind fun j ms _ hms => .value hms.2
  · split
    · exact (h.operand i).bind fun j e _ he => .value he.row
    · exact .value (.nil (Nat.le_refl i))
  · exact .value (.nil (Nat.le_refl i))

/-- A primary covers its tokens, parentheses included. -/
theorem walk_primary (h : Laid c tokens g) (i : Nat) :
    Walk c tokens i g.primary fun j e => Over tokens i j e.spans := by
  refine (walk_offset i).here fun start hstart => ?_
  have hplain : ∀ j form, i < j ∧ Row tokens i j form.spans →
      Walk c tokens j (spanFrom start >>= fun span => pure (Expr.mk form span)) fun k e => Over tokens i k e.spans :=
    fun j form hform => walk_spanned hstart hform.1 hform.2 fun _ => rfl
  have hleaf : ∀ j form, i < j → form.spans = [] →
      Walk c tokens j (spanFrom start >>= fun span => pure (Expr.mk form span)) fun k e => Over tokens i k e.spans :=
    fun j form hij hform => hplain j form ⟨hij, hform ▸ .nil (Nat.le_of_lt hij)⟩
  refine (walk_peek i).here fun next hnext => ?_
  split
  · exact (walk_expectText i _).next fun name => hleaf _ _ (Nat.lt_succ_self i) rfl
  · refine (walk_expectText i _).next fun name => ?_
    refine (walk_isNext (i + 1) _).here fun b _ => ?_
    cases b with
    | false => exact hleaf _ _ (Nat.lt_succ_self i) rfl
    | true =>
      refine (walk_fieldBinds h (i + 1)).bind fun j ms _ hms => hplain j _ ⟨by omega, ?_⟩
      exact hms.2.widen (Nat.le_succ i) (Nat.le_refl j)
  · exact (walk_literal i _).next fun lit => hleaf _ _ (Nat.lt_succ_self i) rfl
  · exact (walk_literal i _).next fun lit => hleaf _ _ (Nat.lt_succ_self i) rfl
  · exact (walk_literal i _).next fun lit => hleaf _ _ (Nat.lt_succ_self i) rfl
  · exact (walk_literal i _).next fun lit => hleaf _ _ (Nat.lt_succ_self i) rfl
  · exact (walk_skip hnext.symm).next fun _ => hleaf _ _ (Nat.lt_succ_self i) rfl
  · refine (walk_skip hnext.symm).next fun _ => ?_
    refine (h.expr 0 (i + 1)).bind fun j inner hij hinner => ?_
    refine (walk_expectPunct j _).next fun _ => hplain _ _ ⟨by omega, ?_⟩
    rw [inner.spans_eq] at hinner
    exact hinner.inner.widen (Nat.le_succ i) (Nat.le_succ j)
  · exact (walk_concatItems h i).bind fun j es _ hes => hplain j _ hes
  · exact (walk_valueBlock h i).bind fun j form _ hform => hplain j form hform
  · exact (walk_block h .action .action .endaction i).bind fun j b _ hb => hplain j _ ⟨hb.lt, hb.row⟩
  · exact (walk_block h .actionValue .actionvalue .endactionvalue i).bind fun j b _ hb => hplain j _ ⟨hb.lt, hb.row⟩
  · refine (walk_skip hnext.symm).next fun _ => ?_
    refine (walk_expectText (i + 1) _).next fun name => ?_
    refine (walk_payload h (i + 1 + 1)).bind fun j p hij hp => hplain j _ ⟨by omega, ?_⟩
    exact hp.widen (by omega) (Nat.le_refl j)
  · exact (walk_interfaceExpr h hnext.symm).bind fun j form _ hform => hplain j form hform
  · refine (walk_skip hnext.symm).next fun _ => ?_
    refine (walk_expectPunct (i + 1) _).next fun _ => ?_
    refine (walk_type (i + 1 + 1)).bind fun j type hij htype => ?_
    refine (walk_expectPunct j _).next fun _ => hplain _ _ ⟨by omega, ?_⟩
    exact htype.row.widen (by omega) (Nat.le_succ j)
  · refine (walk_systemCall hnext.symm).bind fun j span _ hspan => ?_
    exact (walk_reportUnsupported (fun _ => hspan) _).next fun _ => .fail
  · exact walk_failExpected _

theorem walk_operand (h : Laid c tokens g) (i : Nat) :
    Walk c tokens i g.operand fun j e => Over tokens i j e.spans :=
  (walk_primary h i).bind fun _ _ _ he => walk_suffixes h he

/-- A unary operator covers itself and its operand, and a sign that becomes part of a literal covers both. -/
theorem walk_unaryOperand (h : Laid c tokens g) (op : UnaryOp) {start : Nat}
    (hstart : start = (spanAt c tokens i).start) :
    Walk c tokens (i + 1) (g.unaryOperand start op) fun j e => Over tokens i j e.spans := by
  have hunary : ∀ j (inner : Expr), Over tokens (i + 1) j inner.spans →
      Walk c tokens j (spanFrom start >>= fun span => pure (Expr.mk (.unary op inner) span)) fun k e =>
        Over tokens i k e.spans := by
    intro j inner hinner
    have hlt := hinner.lt
    exact walk_spanned hstart (by omega) (hinner.row.widen (Nat.le_succ i) (Nat.le_refl j)) fun _ => rfl
  unfold Grammar.unaryOperand
  split
  · refine (walk_isNext (i + 1) _).here fun b _ => ?_
    cases b with
    | false => exact (h.expr unaryPower (i + 1)).bind fun j inner _ hinner => hunary j inner hinner
    | true =>
      refine (walk_primary h (i + 1)).bind fun j lit _ hlit => ?_
      have hlt := hlit.lt
      split
      · rename_i form hform
        have hleaf : form.spans = [] := ExprForm.spans_withSign hform
        exact walk_spanned hstart (by omega) (hleaf ▸ .nil (by omega)) fun _ => rfl
      · refine (walk_suffixes h hlit).bind fun k base _ hbase => ?_
        exact (walk_operations h _ hbase).bind fun l inner _ hinner => hunary l inner hinner
  · exact (h.expr unaryPower (i + 1)).bind fun j inner _ hinner => hunary j inner hinner

theorem walk_unary (h : Laid c tokens g) (i : Nat) :
    Walk c tokens i g.unary fun j e => Over tokens i j e.spans := by
  refine (walk_peek i).here fun next hnext => ?_
  split
  · exact walk_primary h i
  · rename_i hop
    obtain ⟨kind, hkind, -⟩ := Option.bind_eq_some_iff.mp hop
    refine (walk_offset i).here fun start hstart => ?_
    exact (walk_skip (hnext.symm.trans hkind)).next fun _ => walk_unaryOperand h _ hstart

/-- An expression covers the tokens that are read for it. -/
theorem walk_expr (h : Laid c tokens g) (min i : Nat) :
    Walk c tokens i (g.expr min) fun j e => Over tokens i j e.spans := by
  refine (walk_unary h i).bind fun j e _ he => ?_
  exact (walk_suffixes h he).bind fun k e _ he => walk_operations h min he

/-! ## Predicates -/

theorem walk_predicate (h : Laid c tokens g) (i : Nat) :
    Walk c tokens i g.predicate fun j p => Over tokens i j p.spans := by
  refine (walk_offset i).here fun start hstart => ?_
  refine (h.expr 0 i).bind fun j first _ hfirst => ?_
  refine (walk_furtherConjuncts h 0 j).bind fun k others hjk hothers => ?_
  have hlt := hfirst.lt
  exact walk_spanned hstart (by omega) (hfirst.row.append hothers) fun _ => rfl

theorem walk_parenPredicate (h : Laid c tokens g) (i : Nat) :
    Walk c tokens i g.parenPredicate fun j p => Row tokens i j [p.spans] := by
  refine (walk_expectPunct i _).next fun _ => ?_
  refine (walk_predicate h (i + 1)).bind fun j p _ hp => ?_
  exact (walk_expectPunct j _).next fun _ => .value (hp.row.widen (Nat.le_succ i) (Nat.le_succ j))

/-- A simple statement. -/
theorem walk_simple (h : Laid c tokens g) (i : Nat) :
    Walk c tokens i g.simple fun j s => Row tokens i j [s.spans] := by
  refine (walk_isNext i _).here fun b hb => ?_
  cases b with
  | true => exact walk_letStmt h (hb rfl)
  | false =>
    refine (walk_atTypedDecl i).next fun typed => ?_
    cases typed with
    | true => exact walk_typedStmt h i
    | false => exact (walk_operand h i).bind fun j target _ htarget => walk_simpleTail h htarget

end Parser

end Bluespec
