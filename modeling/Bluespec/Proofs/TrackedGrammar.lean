import Bluespec.Proofs.ForwardGrammar
import Bluespec.Proofs.TrackedTypes

/-!
# The grammar over moved tokens

* **`Grammar.Tracked`** — the inner parsers of a grammar read moved tokens as they read the tokens themselves.
* **`Grammar.Tracked.next`** — then so do those one level up, and with them all levels.
-/

namespace Bluespec

namespace Parser

/-- An expression at another place.  Its first token has been seen. -/
def ExprAt (ℓ : Relocation) (k : Nat) (e e' : Expr) : Prop := e' = e.move ℓ.move ∧ ℓ.Seen k e.span.start

/-- A simple statement at another place.  Its first token has been seen. -/
def SimpleAt (ℓ : Relocation) (k : Nat) (s s' : SimpleStmt) : Prop := s' = s.move ℓ.move ∧ ℓ.Seen k s.span.start

theorem lasting_exprAt {ℓ : Relocation} : Lasting (ExprAt ℓ) := fun _ _ _ _ hk h => ⟨h.1, h.2.mono hk⟩

end Parser

open Bluespec.Parser

/-- What stands in a block with a result, at another place. -/
def Grammar.BlockItem.move (f : Nat → Nat) : Grammar.BlockItem → Grammar.BlockItem
  | .stmt s => .stmt (s.move f)
  | .result e => .result (e.move f)

/-- The inner parsers of a grammar move forward, and yield moved values over moved tokens. -/
structure Grammar.Tracked (ℓ : Relocation) (g : Grammar) : Prop where
  onward : g.Onward
  innerExpr (min n : Nat) : Tracks ℓ n (By (Expr.move ℓ.move)) (g.innerExpr min) (g.innerExpr min)
  innerOperand (n : Nat) : Tracks ℓ n (ExprAt ℓ) g.innerOperand g.innerOperand
  innerStmt (dialect : Dialect) (n : Nat) :
    Tracks ℓ n (By (Stmt.move ℓ.move)) (g.innerStmt dialect) (g.innerStmt dialect)
  innerMethod (n : Nat) : Tracks ℓ n (By (MethodDef.move ℓ.move)) g.innerMethod g.innerMethod
  innerSubinterface (n : Nat) : Tracks ℓ n (By (SubinterfaceDef.move ℓ.move)) g.innerSubinterface g.innerSubinterface
  innerModule (n : Nat) : Tracks ℓ n (By (ModuleDef.move ℓ.move)) g.innerModule g.innerModule

namespace Grammar.Tracked

variable {ℓ : Relocation} {n : Nat} {g : Grammar}

/-! ## Operands and operators -/

theorem arguments (h : g.Tracked ℓ) : Tracks ℓ n (By (List.map (Expr.move ℓ.move))) g.arguments g.arguments :=
  (Tracks.expectPunct _).next fun _ => (h.innerExpr 0 n).enclosed

theorem fieldBind (h : g.Tracked ℓ) : Tracks ℓ n (By (FieldBind.move ℓ.move)) g.fieldBind g.fieldBind := by
  refine Tracks.offset.seq fun m start start' _ hstart => ?_
  obtain ⟨rfl, -⟩ := hstart
  exact (Tracks.expectText _).next fun field => (Tracks.expectPunct _).next fun _ => (h.innerExpr 0 m).next fun value =>
    Tracks.spanned fun _ _ _ => rfl

theorem fieldBinds (h : g.Tracked ℓ) :
    Tracks ℓ n (By (List.map (FieldBind.move ℓ.move))) g.fieldBinds g.fieldBinds :=
  (Tracks.expectPunct _).next fun _ => h.fieldBind.separated.next fun _ =>
    (Tracks.expectPunct _).next fun _ => .ret fun _ _ => rfl

theorem concatItems (h : g.Tracked ℓ) :
    Tracks ℓ n (By (List.map (Expr.move ℓ.move))) g.concatItems g.concatItems :=
  (Tracks.expectPunct _).next fun _ => (h.innerExpr 0 n).separated.next fun _ =>
    (Tracks.expectPunct _).next fun _ => .ret fun _ _ => rfl

theorem selection (h : g.Tracked ℓ) (base : Expr) :
    Tracks ℓ n (By (ExprForm.move ℓ.move)) (g.selection base) (g.selection (base.move ℓ.move)) := by
  refine Tracks.skip.next fun _ => (h.innerExpr 0 n).next fun hi => (Tracks.accept _).next fun b => ?_
  refine (h.innerExpr 0 n).optional fun lo => (Tracks.expectPunct _).next fun _ => .ret fun _ _ => ?_
  exact (ExprForm.move_select base hi lo).symm

theorem memberOf (h : g.Tracked ℓ) (receiver : Expr) :
    Tracks ℓ n (By (ExprForm.move ℓ.move)) (g.memberOf receiver) (g.memberOf (receiver.move ℓ.move)) := by
  refine Tracks.skip.next fun _ => (Tracks.expectText _).next fun name => (Tracks.isNext _).next fun b => ?_
  cases b with
  | true =>
    refine h.arguments.next fun args => .ret fun _ _ => ?_
    show _ = ExprForm.methodCall (receiver.move ℓ.move) name (Expr.moveAll ℓ.move args)
    rw [Expr.moveAll_eq]
    rfl
  | false => exact .ret fun _ _ => rfl

/-- An expression around a moved form, from an Tracks.offset that has been seen. -/
theorem around {start : Nat} (hstart : ℓ.Seen n start) (form : ExprForm) :
    Tracks ℓ n (ExprAt ℓ) (spanFrom start >>= fun span => pure (Expr.mk form span))
      (spanFrom (ℓ.move start) >>= fun span => pure (Expr.mk (form.move ℓ.move) span)) :=
  Tracks.spanned fun _ _ hk => ⟨rfl, hstart.mono hk⟩

theorem aroundAgain {start : Nat} (hstart : ℓ.Seen n start) (form : ExprForm) {W : Nat → Expr → Expr → Prop} :
    Tracks ℓ n (fun k => Tracks.RoundRel (ExprAt ℓ k) (W k))
      (spanFrom start >>= fun span => pure (Round.again (Expr.mk form span)))
      (spanFrom (ℓ.move start) >>= fun span => pure (Round.again (Expr.mk (form.move ℓ.move) span))) :=
  Tracks.spanned fun _ _ hk => .again ⟨rfl, hstart.mono hk⟩

theorem suffix (h : g.Tracked ℓ) (e : Expr) (hstart : ℓ.Seen n e.span.start) :
    Tracks ℓ n (fun k => Tracks.RoundRel (ExprAt ℓ k) (ExprAt ℓ k)) (g.suffix e) (g.suffix (e.move ℓ.move)) := by
  refine Tracks.peek.next fun k => ?_
  rw [Expr.span_move]
  simp only [id_eq]
  split
  · refine h.arguments.next fun args => ?_
    rw [← Expr.moveAll_eq]
    exact aroundAgain hstart (.call e args)
  · exact (h.selection e).next fun form => aroundAgain hstart form
  · exact (h.memberOf e).next fun form => aroundAgain hstart form
  · exact .ret fun _ hk => .done ⟨rfl, hstart.mono hk⟩

theorem suffixes (h : g.Tracked ℓ) (e : Expr) (hstart : ℓ.Seen n e.span.start) :
    Tracks ℓ n (ExprAt ℓ) (g.suffixes e) (g.suffixes (e.move ℓ.move)) := by
  refine Tracks.repeatUntil (V := ExprAt ℓ) lasting_exprAt (fun m e e' _ he => ?_) ⟨rfl, hstart⟩
  obtain ⟨rfl, hseen⟩ := he
  exact h.suffix e hseen

theorem furtherConjuncts (h : g.Tracked ℓ) (min : Nat) :
    Tracks ℓ n (By (List.map (Expr.move ℓ.move))) (g.furtherConjuncts min) (g.furtherConjuncts min) := by
  refine Tracks.repeatUntil (V := By (List.map (Expr.move ℓ.move))) (lasting_by _) (fun m es es' _ hes => ?_) rfl
  rw [By] at hes
  subst hes
  refine (Tracks.accept _).next fun b => ?_
  cases b with
  | true =>
    refine (h.innerExpr min m).next fun e => .ret fun _ _ => .again ?_
    rw [By, List.map_append, List.map_singleton]
  | false => exact .ret fun _ _ => .done rfl

theorem conditional (h : g.Tracked ℓ) (p : Predicate) (hstart : ℓ.Seen n p.span.start) :
    Tracks ℓ n (ExprAt ℓ) (g.conditional p) (g.conditional (p.move ℓ.move)) := by
  have hspan : (p.move ℓ.move).span.start = ℓ.move p.span.start := by
    cases p
    rfl
  unfold Grammar.conditional
  rw [hspan]
  exact (Tracks.expectPunct _).next fun _ => (h.innerExpr 0 n).next fun a => (Tracks.expectPunct _).next fun _ =>
    (h.innerExpr _ n).next fun b => around hstart (.cond p a b)

theorem conjunctsOfConditional (h : g.Tracked ℓ) :
    Tracks ℓ n (By (List.map (Expr.move ℓ.move))) g.conjunctsOfConditional g.conjunctsOfConditional := by
  refine (h.furtherConjuncts _).next fun es => (Tracks.isNext _).next fun b => ?_
  rw [List.isEmpty_map]
  simp only [id_eq]
  split
  · exact .ret fun _ _ => rfl
  · exact .failed

/-- A conditional is the next thing that an operand goes on with. -/
theorem conditionalAgain (h : g.Tracked ℓ) (p : Predicate) (hstart : ℓ.Seen n p.span.start)
    {W : Nat → Expr → Expr → Prop} : Tracks ℓ n (fun k => Tracks.RoundRel (ExprAt ℓ k) (W k))
      (g.conditional p >>= fun e => pure (Round.again e))
      (g.conditional (p.move ℓ.move) >>= fun e => pure (Round.again e)) :=
  (h.conditional p hstart).seq fun _ _ _ _ he => .ret fun _ hk => .again (lasting_exprAt _ _ _ _ hk he)

theorem chained (h : g.Tracked ℓ) (first : Expr) (hstart : ℓ.Seen n first.span.start) :
    Tracks ℓ n (fun k => Tracks.RoundRel (ExprAt ℓ k) (ExprAt ℓ k)) (g.chained first)
      (g.chained (first.move ℓ.move)) := by
  have hmoving := h.onward.conjunctsOfConditional
  unfold Grammar.chained
  rw [Expr.span_move]
  refine (h.conjunctsOfConditional.tried hmoving hmoving).next fun others => ?_
  cases others with
  | none => exact .ret fun _ hk => .done ⟨rfl, hstart.mono hk⟩
  | some others =>
    refine (Tracks.spanFrom first.span.start).seq fun m span span' hm hspan => ?_
    obtain ⟨rfl, hspan⟩ := hspan
    have hmove : Predicate.move ℓ.move ⟨first :: others, span⟩ =
        ⟨first.move ℓ.move :: others.map (Expr.move ℓ.move), span.move ℓ.move⟩ := by
      rw [Predicate.move, Expr.moveAll, Expr.moveAll_eq]
    have hseen : ℓ.Seen m span.start := hspan ▸ hstart.mono hm
    have hagain := h.conditionalAgain (W := ExprAt ℓ) ⟨first :: others, span⟩ hseen
    rw [hmove] at hagain
    exact hagain

theorem operation (h : g.Tracked ℓ) (min : Nat) (lhs : Expr) (hstart : ℓ.Seen n lhs.span.start) :
    Tracks ℓ n (fun k => Tracks.RoundRel (ExprAt ℓ k) (ExprAt ℓ k)) (g.operation min lhs)
      (g.operation min (lhs.move ℓ.move)) := by
  have hdone : Tracks ℓ n (fun k => Tracks.RoundRel (ExprAt ℓ k) (ExprAt ℓ k)) (pure (Round.done lhs))
      (pure (Round.done (lhs.move ℓ.move))) := .ret fun _ hk => .done ⟨rfl, hstart.mono hk⟩
  refine Tracks.peek.next fun k => ?_
  rw [Expr.span_move]
  simp only [id_eq]
  split
  · split
    · exact h.conditionalAgain ⟨[lhs], lhs.span⟩ hstart
    · exact hdone
  · split
    · exact h.chained lhs hstart
    · exact hdone
  · exact Tracks.skip.next fun _ => Tracks.reportFrom hstart _ fun _ _ => .failed
  · split
    · split
      · refine Tracks.skip.next fun _ => (h.innerExpr _ n).next fun rhs => .ret fun _ hk => .again ⟨?_, hstart.mono hk⟩
        rw [Expr.span_move]
        rfl
      · exact hdone
    · exact hdone

theorem operations (h : g.Tracked ℓ) (min : Nat) (lhs : Expr) (hstart : ℓ.Seen n lhs.span.start) :
    Tracks ℓ n (ExprAt ℓ) (g.operations min lhs) (g.operations min (lhs.move ℓ.move)) := by
  refine Tracks.repeatUntil (V := ExprAt ℓ) lasting_exprAt (fun m e e' _ he => ?_) ⟨rfl, hstart⟩
  obtain ⟨rfl, hseen⟩ := he
  exact h.operation min e hseen

/-! ## Simple statements -/

theorem valueAndSemicolon (h : g.Tracked ℓ) :
    Tracks ℓ n (By (Expr.move ℓ.move)) g.valueAndSemicolon g.valueAndSemicolon :=
  (h.innerExpr 0 n).next fun _ => (Tracks.expectPunct _).next fun _ => .ret fun _ _ => rfl

/-- A statement around the span of what was read, from an offset that has been seen. -/
theorem spanSimple {start : Nat} (hstart : ℓ.Seen n start) {f f' : Span → SimpleStmt}
    (hmove : ∀ span, f' (span.move ℓ.move) = (f span).move ℓ.move) (hspan : ∀ span, (f span).span = span) :
    Tracks ℓ n (SimpleAt ℓ) (spanFrom start >>= fun span => pure (f span))
      (spanFrom (ℓ.move start) >>= fun span => pure (f' span)) :=
  Tracks.spanned fun k stop hk => ⟨hmove _, by rw [hspan]; exact hstart.mono hk⟩

theorem simpleTail (h : g.Tracked ℓ) (target : Expr) (hstart : ℓ.Seen n target.span.start) :
    Tracks ℓ n (SimpleAt ℓ) (g.simpleTail target) (g.simpleTail (target.move ℓ.move)) := by
  unfold Grammar.simpleTail
  rw [Expr.span_move, Expr.isLvalue_move]
  refine Tracks.peek.next fun k => ?_
  simp only [id_eq]
  split
  · refine Tracks.skip.next fun _ => h.valueAndSemicolon.next fun value => ?_
    split
    · exact spanSimple hstart (fun _ => rfl) fun _ => rfl
    · exact (Tracks.report hstart _).next fun _ => .failed
  · exact Tracks.skip.next fun _ => h.valueAndSemicolon.next fun value =>
      spanSimple hstart (fun _ => rfl) fun _ => rfl
  · obtain ⟨form, span⟩ := target
    cases form with
    | var name =>
      exact Tracks.skip.next fun _ => h.valueAndSemicolon.next fun value =>
        spanSimple (f := fun span => .bind ⟨none, name, value, span⟩) hstart (fun _ => rfl) fun _ => rfl
    | select base hi lo =>
      rw [Expr.move, ExprForm.move_select]
      exact (Tracks.report hstart _).next fun _ => .failed
    | _ => exact (Tracks.report hstart _).next fun _ => .failed
  · exact Tracks.skip.next fun _ => .ret fun _ hk => ⟨rfl, hstart.mono hk⟩
  · exact Tracks.failExpected _

theorem letStmt (h : g.Tracked ℓ) : Tracks ℓ n (SimpleAt ℓ) g.letStmt g.letStmt := by
  refine Tracks.offset.seq fun m start start' _ hstart => ?_
  obtain ⟨rfl, hseen⟩ := hstart
  refine Tracks.skip.next fun _ => (Tracks.expect _).seq fun k t t' hk ht => ?_
  obtain ⟨rfl, -⟩ := ht
  refine (Tracks.accept _).next fun b => ?_
  cases b with
  | true =>
    exact h.valueAndSemicolon.next fun value =>
      spanSimple (f := fun span => .bind ⟨some .inferred, t.text, value, span⟩) (hseen.mono hk) (fun _ => rfl)
        fun _ => rfl
  | false =>
    refine (Tracks.expectPunct _).next fun _ => (h.innerExpr 0 k).next fun init => ?_
    refine (Tracks.spanFrom t.span.start).seq fun k' span span' hk' hspan => ?_
    obtain ⟨rfl, -⟩ := hspan
    exact (Tracks.expectPunct _).next fun _ =>
      spanSimple (f := fun whole => .varDecl ⟨.inferred, [⟨t.text, [], some init, span⟩], whole⟩)
        (hseen.mono (Nat.le_trans hk hk')) (fun _ => rfl) fun _ => rfl

theorem dimensions (h : g.Tracked ℓ) :
    Tracks ℓ n (By (List.map (Expr.move ℓ.move))) g.dimensions g.dimensions := by
  refine Tracks.repeatUntil (V := By (List.map (Expr.move ℓ.move))) (lasting_by _) (fun m es es' _ hes => ?_) rfl
  rw [By] at hes
  subst hes
  refine (Tracks.accept _).next fun b => ?_
  cases b with
  | true =>
    refine (h.innerExpr 0 m).next fun e => (Tracks.expectPunct _).next fun _ => .ret fun _ _ => .again ?_
    rw [By, List.map_append, List.map_singleton]
  | false => exact .ret fun _ _ => .done rfl

theorem declaratorTail (h : g.Tracked ℓ) (t : Token) :
    Tracks ℓ n (By (Declarator.move ℓ.move)) (g.declaratorTail t) (g.declaratorTail (t.move ℓ.move)) := by
  refine h.dimensions.next fun dims => (Tracks.accept _).next fun b => ?_
  refine (h.innerExpr 0 n).optional fun init => Tracks.spanned fun _ _ _ => ?_
  exact (Declarator.move_mk t.text dims init _).symm

theorem declarator (h : g.Tracked ℓ) : Tracks ℓ n (By (Declarator.move ℓ.move)) g.declarator g.declarator :=
  (Tracks.expect _).seq fun _ t t' _ ht => by
    obtain ⟨rfl, -⟩ := ht
    exact h.declaratorTail t

theorem typedStmt (h : g.Tracked ℓ) : Tracks ℓ n (SimpleAt ℓ) g.typedStmt g.typedStmt := by
  refine Tracks.offset.seq fun m start start' _ hstart => ?_
  obtain ⟨rfl, hseen⟩ := hstart
  refine Tracks.type.next fun type => (Tracks.expect _).seq fun k t t' hk ht => ?_
  obtain ⟨rfl, -⟩ := ht
  refine (Tracks.accept _).next fun b => ?_
  cases b with
  | true =>
    exact h.valueAndSemicolon.next fun value =>
      spanSimple (f := fun span => .bind ⟨some (.typed type), t.text, value, span⟩) (hseen.mono hk) (fun _ => rfl)
        fun _ => rfl
  | false =>
    have hlast : ∀ (first : Declarator) (others : List Declarator), Tracks ℓ k (SimpleAt ℓ)
        (do expectPunct .semi; return .varDecl ⟨.typed type, first :: others, ← spanFrom start⟩)
        (do expectPunct .semi
            return .varDecl ⟨.typed (type.move ℓ.move), first.move ℓ.move :: others.map (Declarator.move ℓ.move),
              ← spanFrom (ℓ.move start)⟩) := by
      intro first others
      refine (Tracks.expectPunct _).next fun _ =>
        spanSimple (f := fun span => .varDecl ⟨.typed type, first :: others, span⟩) (hseen.mono hk) (fun span => ?_)
          fun _ => rfl
      show _ = SimpleStmt.varDecl ⟨_, Declarator.moveAll ℓ.move (first :: others), _⟩
      rw [Declarator.moveAll_eq]
      rfl
    refine (h.declaratorTail t).next fun first => (Tracks.accept _).next fun more => ?_
    cases more with
    | true => exact h.declarator.separated.next fun others => hlast first others
    | false => exact hlast first []

theorem permit {span : Span} (hstart : ℓ.Seen n span.start) (dialect : Dialect) (leaf : Leaf) :
    Tracks ℓ n Same (permit dialect leaf span) (permit dialect leaf (span.move ℓ.move)) := by
  unfold Parser.permit
  split
  · exact (Tracks.report hstart _).next fun _ => .failed
  · exact .ret fun _ _ => rfl

theorem permitSimple (dialect : Dialect) (s : SimpleStmt) (hstart : ℓ.Seen n s.span.start) :
    Tracks ℓ n (By (StmtForm.move ℓ.move)) (permitSimple dialect s) (permitSimple dialect (s.move ℓ.move)) := by
  unfold Parser.permitSimple
  rw [SimpleStmt.leaf?_move, SimpleStmt.span_move, SimpleStmt.move_form]
  split
  · exact .ret fun _ _ => rfl
  · exact (permit hstart _ _).next fun _ => .ret fun _ _ => rfl

/-! ## Blocks -/

theorem block (h : g.Tracked ℓ) (dialect : Dialect) (opening closing : Keyword) :
    Tracks ℓ n (By (Block.move ℓ.move)) (g.block dialect opening closing) (g.block dialect opening closing) := by
  refine Tracks.offset.seq fun m start start' _ hstart => ?_
  obtain ⟨rfl, -⟩ := hstart
  refine (Tracks.expectKeyword _).next fun _ => Tracks.label.next fun openLabel => ?_
  refine (h.innerStmt dialect m).items.next fun stmts => (Tracks.expectKeyword _).next fun _ => ?_
  refine Tracks.label.next fun closeLabel => Tracks.spanned fun _ _ _ => ?_
  show _ = Block.mk _ (Stmt.moveAll ℓ.move stmts) _ _
  rw [Stmt.moveAll_eq]
  rfl

theorem atBlockStmt : Tracks ℓ n Same Grammar.atBlockStmt Grammar.atBlockStmt := by
  refine Tracks.peek.next fun k => ?_
  simp only [id_eq]
  split
  · exact .ret fun _ _ => rfl
  · exact Tracks.atTypedDecl

theorem blockStmtTail (h : g.Tracked ℓ) {start : Nat} (target : Expr) (hstart : ℓ.Seen n target.span.start) :
    Tracks ℓ n (By (Grammar.BlockItem.move ℓ.move)) (g.blockStmtTail start target)
      (g.blockStmtTail (ℓ.move start) (target.move ℓ.move)) := by
  refine (h.simpleTail target hstart).seq fun m s s' _ hs => ?_
  obtain ⟨rfl, hseen⟩ := hs
  exact (permitSimple _ s hseen).next fun form => Tracks.spanned fun _ _ _ => rfl

theorem blockItem (h : g.Tracked ℓ) :
    Tracks ℓ n (By (Grammar.BlockItem.move ℓ.move)) g.blockItem g.blockItem := by
  refine atBlockStmt.next fun b => ?_
  cases b with
  | true => exact (h.innerStmt _ n).next fun s => .ret fun _ _ => rfl
  | false =>
    refine Tracks.offset.seq fun m start start' _ hstart => ?_
    obtain ⟨rfl, -⟩ := hstart
    refine (h.innerOperand m).seq fun k e e' _ he => ?_
    obtain ⟨rfl, hseen⟩ := he
    have hresult : Tracks ℓ k (By (Grammar.BlockItem.move ℓ.move))
        (do let result ← g.operations 0 e; let _ ← eat (.punct .semi); return .result result)
        (do let result ← g.operations 0 (e.move ℓ.move); let _ ← eat (.punct .semi); return .result result) := by
      refine (h.operations 0 e hseen).seq fun k' e e' _ he => ?_
      obtain ⟨rfl, -⟩ := he
      exact (Tracks.eat _).seq fun _ _ _ _ _ => .ret fun _ _ => rfl
    refine Tracks.peek.next fun next => ?_
    simp only [id_eq]
    split
    · exact h.blockStmtTail e hseen
    · exact h.blockStmtTail e hseen
    · refine (Tracks.asked fun _ s _ s' hs => hs.nth 1).next fun second => ?_
      simp only [id_eq]
      split
      · exact Tracks.skip.next fun _ => .ret fun _ _ => rfl
      · exact h.blockStmtTail e hseen
    · exact hresult

theorem blockItems (h : g.Tracked ℓ) :
    Tracks ℓ n (By (Prod.map (List.map (Stmt.move ℓ.move)) (Expr.move ℓ.move))) g.blockItems g.blockItems := by
  refine Tracks.repeatUntil (V := By (List.map (Stmt.move ℓ.move))) (lasting_by _) (fun m ss ss' _ hss => ?_) rfl
  rw [By] at hss
  subst hss
  refine Tracks.halted.next fun stopped => ?_
  cases stopped with
  | true => exact .failed
  | false =>
    refine Tracks.atCloser.next fun closed => ?_
    cases closed with
    | true => exact Tracks.failExpected _
    | false =>
      refine h.blockItem.resumed.next fun item => ?_
      rcases item with _ | (s | e)
      · exact .ret fun _ _ => .again rfl
      · refine .ret fun _ _ => .again ?_
        rw [By, List.map_append]
        rfl
      · exact .ret fun _ _ => .done rfl

theorem valueBlock (h : g.Tracked ℓ) :
    Tracks ℓ n (By (ExprForm.move ℓ.move)) g.valueBlock g.valueBlock := by
  refine (Tracks.expectKeyword _).next fun _ => Tracks.label.next fun openLabel => h.blockItems.next fun items => ?_
  refine (Tracks.expectKeyword _).next fun _ => Tracks.label.next fun closeLabel => .ret fun _ _ => ?_
  show _ = ExprForm.valueBlock _ (Stmt.moveAll ℓ.move items.1) _
  rw [Stmt.moveAll_eq]
  rfl

theorem interfaceStmt (h : g.Tracked ℓ) :
    Tracks ℓ n (By (InterfaceStmt.move ℓ.move)) g.interfaceStmt g.interfaceStmt := by
  refine Tracks.skipAttributes.next fun _ => Tracks.peek.next fun k => ?_
  simp only [id_eq]
  split
  · exact (h.innerMethod n).next fun _ => .ret fun _ _ => rfl
  · exact (h.innerSubinterface n).next fun _ => .ret fun _ _ => rfl
  · exact (h.innerStmt _ n).next fun _ => .ret fun _ _ => rfl

theorem interfaceExpr (h : g.Tracked ℓ) :
    Tracks ℓ n (By (ExprForm.move ℓ.move)) g.interfaceExpr g.interfaceExpr := by
  refine Tracks.skip.next fun _ => Tracks.type.next fun type => (Tracks.expectPunct _).next fun _ => ?_
  refine h.interfaceStmt.items.next fun stmts => (Tracks.expectKeyword _).next fun _ => ?_
  refine Tracks.label.next fun label => .ret fun _ _ => ?_
  show _ = ExprForm.interfaceExpr _ (InterfaceStmt.moveAll ℓ.move stmts) _
  rw [InterfaceStmt.moveAll_eq]

/-! ## Expressions -/

theorem literal (k : Kind) : Tracks ℓ n Same (Grammar.literal k) (Grammar.literal k) := by
  refine (Tracks.expect k).seq fun m t t' _ ht => ?_
  obtain ⟨rfl, hseen⟩ := ht
  have hlit : Literal.ofToken (t.move ℓ.move) = Literal.ofToken t := rfl
  rw [hlit]
  split
  · exact .ret fun _ _ => rfl
  · exact (Tracks.report hseen _).next fun _ => .failed

theorem systemCall :
    Tracks ℓ n (fun k x x' => x' = x.move ℓ.move ∧ ℓ.Seen k x.start) Grammar.systemCall Grammar.systemCall := by
  refine Tracks.offset.seq fun m start start' _ hstart => ?_
  obtain ⟨rfl, hseen⟩ := hstart
  exact Tracks.skip.next fun _ => Tracks.skipParenthesized.next fun _ =>
    (Tracks.spanFrom start).weaken (Nat.le_refl m) fun k x x' hk hx => ⟨hx.1, hx.2 ▸ hseen.mono hk⟩

theorem payload (h : g.Tracked ℓ) : Tracks ℓ n (By (Payload.move ℓ.move)) g.payload g.payload := by
  refine Tracks.peek.next fun k => ?_
  simp only [id_eq]
  split
  · refine h.fieldBinds.next fun members => .ret fun _ _ => ?_
    show _ = Payload.struct (FieldBind.moveAll ℓ.move members)
    rw [FieldBind.moveAll_eq]
  · split
    · refine (h.innerOperand n).seq fun m e e' _ he => .ret fun _ _ => ?_
      rw [he.1]
      rfl
    · exact .ret fun _ _ => rfl
  · exact .ret fun _ _ => rfl

theorem primary (h : g.Tracked ℓ) : Tracks ℓ n (ExprAt ℓ) g.primary g.primary := by
  refine Tracks.offset.seq fun m start start' _ hstart => ?_
  obtain ⟨rfl, hseen⟩ := hstart
  have hplain : ∀ form : ExprForm, Tracks ℓ m (ExprAt ℓ) (do return ⟨form, ← spanFrom start⟩)
      (do return ⟨form.move ℓ.move, ← spanFrom (ℓ.move start)⟩) := around hseen
  refine Tracks.peek.next fun k => ?_
  simp only [id_eq]
  split
  · exact (Tracks.expectText _).next fun name => hplain (.var name)
  · refine (Tracks.expectText _).next fun name => (Tracks.isNext _).next fun b => ?_
    cases b with
    | true =>
      refine h.fieldBinds.next fun members => ?_
      rw [← FieldBind.moveAll_eq]
      exact hplain (.struct name members)
    | false => exact hplain (.typeRef name)
  · exact (literal _).next fun lit => hplain (.literal lit)
  · exact (literal _).next fun lit => hplain (.literal lit)
  · exact (literal _).next fun lit => hplain (.literal lit)
  · exact (literal _).next fun lit => hplain (.literal lit)
  · exact Tracks.skip.next fun _ => hplain .dontCare
  · refine Tracks.skip.next fun _ => (h.innerExpr 0 m).next fun inner => (Tracks.expectPunct _).next fun _ => ?_
    rw [Expr.form_move]
    exact hplain inner.form
  · refine h.concatItems.next fun items => ?_
    rw [← Expr.moveAll_eq]
    exact hplain (.concat items)
  · exact h.valueBlock.next fun form => hplain form
  · exact (h.block _ _ _).next fun block => hplain (.actionBlock block)
  · exact (h.block _ _ _).next fun block => hplain (.actionValueBlock block)
  · exact Tracks.skip.next fun _ => (Tracks.expectText _).next fun name => h.payload.next fun payload =>
      hplain (.tagged name payload)
  · exact h.interfaceExpr.next fun form => hplain form
  · exact Tracks.skip.next fun _ => (Tracks.expectPunct _).next fun _ => Tracks.type.next fun type =>
      (Tracks.expectPunct _).next fun _ => hplain (.valueOf type)
  · refine systemCall.seq fun k span span' _ hspan => ?_
    obtain ⟨rfl, hspan⟩ := hspan
    exact (Tracks.reportUnsupported hspan _).next fun _ => .failed
  · exact Tracks.failExpected _

theorem operand (h : g.Tracked ℓ) : Tracks ℓ n (ExprAt ℓ) g.operand g.operand :=
  h.primary.seq fun _ e e' _ he => by
    obtain ⟨rfl, hseen⟩ := he
    exact h.suffixes e hseen

theorem withSign?_move (sign : Sign) (form : ExprForm) :
    (form.move ℓ.move).withSign? sign = (form.withSign? sign).map (ExprForm.move ℓ.move) := by
  cases form with
  | literal lit =>
    cases lit with
    | int lit =>
      show (if lit.width.isNone then _ else _) = Option.map _ (if lit.width.isNone then _ else _)
      split <;> rfl
    | _ => rfl
  | select base hi lo =>
    rw [ExprForm.move_select]
    rfl
  | _ => rfl

theorem unaryOperand (h : g.Tracked ℓ) {start : Nat} (hstart : ℓ.Seen n start) (op : UnaryOp) :
    Tracks ℓ n (ExprAt ℓ) (g.unaryOperand start op) (g.unaryOperand (ℓ.move start) op) := by
  have hinner : Tracks ℓ n (ExprAt ℓ)
      (do let inner ← g.innerExpr unaryPower; return ⟨.unary op inner, ← spanFrom start⟩)
      (do let inner ← g.innerExpr unaryPower; return ⟨.unary op inner, ← spanFrom (ℓ.move start)⟩) :=
    (h.innerExpr unaryPower n).next fun inner => around hstart (.unary op inner)
  unfold Grammar.unaryOperand
  cases Sign.ofOperator? op with
  | none => exact hinner
  | some sign =>
    refine (Tracks.isNext _).next fun b => ?_
    cases b with
    | false => exact hinner
    | true =>
      refine h.primary.seq fun m lit lit' hm hlit => ?_
      obtain ⟨rfl, hseen⟩ := hlit
      rw [Expr.form_move, withSign?_move]
      cases lit.form.withSign? sign with
      | some form => exact around (hstart.mono hm) form
      | none =>
        refine (h.suffixes lit hseen).seq fun k e e' hk he => ?_
        obtain ⟨rfl, hseen⟩ := he
        refine (h.operations unaryPower e hseen).seq fun k' e e' hk' he => ?_
        obtain ⟨rfl, -⟩ := he
        exact around (hstart.mono (Nat.le_trans hm (Nat.le_trans hk hk'))) (.unary op e)

theorem unary (h : g.Tracked ℓ) : Tracks ℓ n (ExprAt ℓ) g.unary g.unary := by
  refine Tracks.peek.next fun k => ?_
  simp only [id_eq]
  split
  · exact h.primary
  · refine Tracks.offset.seq fun m start start' _ hstart => ?_
    obtain ⟨rfl, hseen⟩ := hstart
    exact Tracks.skip.next fun _ => h.unaryOperand hseen _

theorem expr (h : g.Tracked ℓ) (min : Nat) : Tracks ℓ n (ExprAt ℓ) (g.expr min) (g.expr min) := by
  refine h.unary.seq fun m e e' _ he => ?_
  obtain ⟨rfl, hseen⟩ := he
  refine (h.suffixes e hseen).seq fun k e e' _ he => ?_
  obtain ⟨rfl, hseen⟩ := he
  exact h.operations min e hseen

theorem predicate (h : g.Tracked ℓ) :
    Tracks ℓ n (By (Predicate.move ℓ.move)) g.predicate g.predicate := by
  refine Tracks.offset.seq fun m start start' _ hstart => ?_
  obtain ⟨rfl, -⟩ := hstart
  refine (h.innerExpr 0 m).next fun first => (h.furtherConjuncts 0).next fun others => Tracks.spanned fun _ _ _ => ?_
  show _ = Predicate.mk (Expr.moveAll ℓ.move (first :: others)) _
  rw [Expr.moveAll_eq]
  rfl

theorem parenPredicate (h : g.Tracked ℓ) :
    Tracks ℓ n (By (Predicate.move ℓ.move)) g.parenPredicate g.parenPredicate :=
  (Tracks.expectPunct _).next fun _ => h.predicate.next fun _ => (Tracks.expectPunct _).next fun _ => .ret fun _ _ => rfl

end Grammar.Tracked

end Bluespec
