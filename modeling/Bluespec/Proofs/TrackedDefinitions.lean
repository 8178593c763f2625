import Bluespec.Proofs.TrackedGrammar

/-!
# Definitions and statements over moved tokens

* **`Grammar.Tracked.functionDef`**, **`Grammar.Tracked.moduleDef`**, **`Grammar.Tracked.stmt`** — productions that
  read moved tokens as they read the tokens themselves.
* **`Grammar.Tracked.upTo`** — the grammar of every level does.
-/

namespace Bluespec.Grammar.Tracked

open Bluespec.Parser

variable {ℓ : Relocation} {n : Nat} {g : Grammar}

/-! ## Bodies -/

theorem simple (h : g.Tracked ℓ) : Tracks ℓ n (SimpleAt ℓ) g.simple g.simple := by
  refine (Tracks.isNext _).next fun inferred => ?_
  cases inferred with
  | true => exact h.letStmt
  | false =>
    refine Tracks.atTypedDecl.next fun typed => ?_
    cases typed with
    | true => exact h.typedStmt
    | false =>
      refine h.operand.seq fun m e e' _ he => ?_
      obtain ⟨rfl, hseen⟩ := he
      exact h.simpleTail e hseen

theorem returned (h : g.Tracked ℓ) : Tracks ℓ n (By (Expr.move ℓ.move)) g.returned g.returned :=
  Tracks.skip.next fun _ => h.valueAndSemicolon

theorem skipUnsupported (h : g.Tracked ℓ) (dialect : Dialect) :
    Tracks ℓ n Same (g.skipUnsupported dialect) (g.skipUnsupported dialect) := by
  refine Tracks.offset.seq fun m start start' _ hstart => ?_
  obtain ⟨rfl, hseen⟩ := hstart
  refine Tracks.peek.next fun next => ?_
  simp only [id_eq]
  split
  · refine (Tracks.skipExtent (.through _ _ 0)).next fun _ => Tracks.label.next fun _ => ?_
    refine (Tracks.spanFrom start).seq fun k span span' hk hspan => ?_
    obtain ⟨rfl, hspan⟩ := hspan
    exact Tracks.reportUnsupported (hspan ▸ hseen.mono hk) _
  · refine Tracks.skip.next fun _ => Tracks.skipParenthesized.next fun _ => ?_
    refine Tracks.reportFrom hseen _ fun k hk => (h.innerStmt dialect k).resumed.next fun _ => .ret fun _ _ => rfl

theorem atLoneBlock (closing : Keyword) : Tracks ℓ n Same (atLoneBlock closing) (atLoneBlock closing) := by
  refine Tracks.asked fun c s c' s' hs => ?_
  rw [State.isNext, State.isNext, State.isNext, State.isNext, hs.peek, hs.rest, CountsKinds.afterActionBlock]

theorem body (h : g.Tracked ℓ) (dialect : Dialect) (closing : Keyword) :
    Tracks ℓ n (By (Body.move ℓ.move)) (g.body dialect closing) (g.body dialect closing) := by
  have hstmts : Tracks ℓ n (By (Body.move ℓ.move)) (do return .stmts dialect (← items (g.innerStmt dialect)))
      (do return .stmts dialect (← items (g.innerStmt dialect))) := by
    refine (h.innerStmt dialect n).items.next fun stmts => .ret fun _ _ => ?_
    show _ = Body.stmts dialect (Stmt.moveAll ℓ.move stmts)
    rw [Stmt.moveAll_eq]
  refine (atLoneBlock closing).next fun lone => ?_
  cases lone with
  | false => exact hstmts
  | true =>
    refine h.primary.resuming.seq fun m e e' hm he => ?_
    cases he with
    | none => exact hstmts.later hm
    | some he =>
      obtain ⟨rfl, -⟩ := he
      exact (Tracks.eat _).seq fun _ _ _ _ _ => .ret fun _ _ => rfl

/-- The end of a definition at another place: its label and its span. -/
def endingMove (f : Nat → Nat) : Option Label × Span → Option Label × Span :=
  Prod.map (Option.map (Label.move f)) (Span.move f)

theorem ending (closing : Keyword) (kind : NodeKind) (start : Nat) :
    Tracks ℓ n (By (endingMove ℓ.move)) (ending closing kind start) (ending closing kind (ℓ.move start)) := by
  refine (Tracks.expectKeyword _).next fun _ => Tracks.label.next fun endLabel => ?_
  refine (Tracks.spanFrom start).seq fun m span span' _ hspan => ?_
  obtain ⟨rfl, -⟩ := hspan
  exact (Tracks.record _ _ _).next fun _ => .ret fun _ _ => rfl

/-! ## Functions, methods and rules -/

theorem functionHeader :
    Tracks ℓ n (By (Prod.map (TypeExpr.move ℓ.move) (Prod.map id (List.map (Formal.move ℓ.move)))))
      functionHeader functionHeader :=
  Tracks.skip.next fun _ => Tracks.type.next fun _ => (Tracks.expectText _).next fun _ =>
    (Tracks.formalsIfAny _).next fun _ => Tracks.skipProvisos.next fun _ => (Tracks.expectPunct _).next fun _ =>
      .ret fun _ _ => rfl

theorem functionDef (h : g.Tracked ℓ) :
    Tracks ℓ n (By (FunctionDef.move ℓ.move)) g.functionDef g.functionDef := by
  refine Tracks.offset.seq fun m start start' _ hstart => ?_
  obtain ⟨rfl, -⟩ := hstart
  exact (functionHeader.header _).next fun _ => (h.body _ _).next fun _ => (ending _ _ _).next fun _ =>
    .ret fun _ _ => rfl

theorem atMethodName : Tracks ℓ n Same atMethodName atMethodName :=
  Tracks.asked fun _ s _ s' hs => by rw [State.isNext, State.isNext, hs.peek, hs.nth]

theorem methodHeader (h : g.Tracked ℓ) :
    Tracks ℓ n (By (Prod.map (Option.map (TypeExpr.move ℓ.move))
      (Prod.map id (Prod.map (List.map (Formal.move ℓ.move)) (Option.map (Predicate.move ℓ.move))))))
      g.methodHeader g.methodHeader := by
  have hrest : ∀ result : Option TypeExpr, Tracks ℓ n (By (Prod.map (Option.map (TypeExpr.move ℓ.move))
      (Prod.map id (Prod.map (List.map (Formal.move ℓ.move)) (Option.map (Predicate.move ℓ.move))))))
      (do let name ← expectText .ident
          let formals ← formalsIfAny true
          let guard ← if ← accept (.keyword .if_) then some <$> g.parenPredicate else pure none
          expectPunct .semi
          return (result, name, formals, guard))
      (do let name ← expectText .ident
          let formals ← formalsIfAny true
          let guard ← if ← accept (.keyword .if_) then some <$> g.parenPredicate else pure none
          expectPunct .semi
          return (result.map (TypeExpr.move ℓ.move), name, formals, guard)) := by
    intro result
    refine (Tracks.expectText _).next fun name => (Tracks.formalsIfAny _).next fun formals => ?_
    exact (Tracks.accept _).next fun guarded => h.parenPredicate.optional fun guard =>
      (Tracks.expectPunct _).next fun _ => .ret fun _ _ => rfl
  refine Tracks.skip.next fun _ => atMethodName.next fun bare => ?_
  cases bare with
  | true => exact hrest none
  | false => exact Tracks.type.present.next hrest

theorem methodDef (h : g.Tracked ℓ) : Tracks ℓ n (By (MethodDef.move ℓ.move)) g.methodDef g.methodDef := by
  refine Tracks.offset.seq fun m start start' _ hstart => ?_
  obtain ⟨rfl, -⟩ := hstart
  refine (h.methodHeader.header _).next fun parts => ?_
  obtain ⟨result, name, formals, guard⟩ := parts
  have hdialect : methodDialect (result.map (TypeExpr.move ℓ.move)) = methodDialect result := by
    cases result with
    | none => rfl
    | some type =>
      show (if (type.move ℓ.move).name? = _ then _ else if (type.move ℓ.move).name? = _ then _ else _) = _
      rw [type.name?_move]
      rfl
  have hbody : Tracks ℓ m (By (Body.move ℓ.move)) (g.body (methodDialect result) .endmethod)
      (g.body (methodDialect (result.map (TypeExpr.move ℓ.move))) .endmethod) := by
    rw [hdialect]
    exact h.body _ _
  refine hbody.next fun body => (ending _ _ _).next fun label => .ret fun _ _ => ?_
  cases guard <;> rfl

theorem ruleHeader (h : g.Tracked ℓ) :
    Tracks ℓ n (By (Prod.map id (Option.map (Predicate.move ℓ.move)))) g.ruleHeader g.ruleHeader := by
  refine Tracks.skip.next fun _ => (Tracks.expectText _).next fun name => (Tracks.isNext _).next fun guarded => ?_
  exact h.parenPredicate.optional fun guard => (Tracks.expectPunct _).next fun _ => .ret fun _ _ => rfl

theorem ruleDef (h : g.Tracked ℓ) : Tracks ℓ n (By (RuleDef.move ℓ.move)) g.ruleDef g.ruleDef := by
  refine Tracks.offset.seq fun m start start' _ hstart => ?_
  obtain ⟨rfl, -⟩ := hstart
  refine (h.ruleHeader.header _).next fun parts => (h.innerStmt _ m).items.next fun body => ?_
  refine (ending _ _ _).next fun label => .ret fun _ _ => ?_
  obtain ⟨name, guard⟩ := parts
  show _ = RuleDef.move ℓ.move ⟨name, guard, body, label.1, label.2⟩
  cases guard with
  | none => rw [RuleDef.move, Stmt.moveAll_eq]; rfl
  | some guard => rw [RuleDef.move, Stmt.moveAll_eq]; rfl

/-! ## Interfaces and modules -/

theorem subinterfaceHeader :
    Tracks ℓ n (By (Prod.map (TypeExpr.move ℓ.move) id)) subinterfaceHeader subinterfaceHeader :=
  Tracks.skip.next fun _ => Tracks.type.next fun _ => (Tracks.expectText _).next fun _ =>
    (Tracks.expectPunct _).next fun _ => .ret fun _ _ => rfl

theorem subinterfaceDef (h : g.Tracked ℓ) :
    Tracks ℓ n (By (SubinterfaceDef.move ℓ.move)) g.subinterfaceDef g.subinterfaceDef := by
  refine Tracks.offset.seq fun m start start' _ hstart => ?_
  obtain ⟨rfl, -⟩ := hstart
  refine (subinterfaceHeader.header _).next fun parts => h.interfaceStmt.items.next fun stmts => ?_
  refine (ending _ _ _).next fun label => .ret fun _ _ => ?_
  show _ = SubinterfaceDef.mk _ _ (InterfaceStmt.moveAll ℓ.move stmts) _ _
  rw [InterfaceStmt.moveAll_eq]
  rfl

theorem moduleContext :
    Tracks ℓ n (By (Option.map (TypeExpr.move ℓ.move))) moduleContext moduleContext := by
  refine (Tracks.accept _).next fun marked => ?_
  cases marked with
  | true => exact Tracks.type.next fun _ => (Tracks.expectPunct _).next fun _ => .ret fun _ _ => rfl
  | false => exact .ret fun _ _ => rfl

theorem moduleHeader :
    Tracks ℓ n (By (Prod.map (Option.map (TypeExpr.move ℓ.move))
      (Prod.map id (Prod.map (List.map (ModuleParam.move ℓ.move)) (List.map (ModuleArg.move ℓ.move))))))
      moduleHeader moduleHeader :=
  Tracks.skip.next fun _ => moduleContext.next fun _ => (Tracks.expectText _).next fun _ =>
    Tracks.moduleParams.next fun _ => Tracks.moduleArgs.next fun _ => Tracks.skipProvisos.next fun _ =>
      (Tracks.expectPunct _).next fun _ => .ret fun _ _ => rfl

theorem simpleModuleStmt (h : g.Tracked ℓ) :
    Tracks ℓ n (By (ModuleStmt.move ℓ.move)) g.simpleModuleStmt g.simpleModuleStmt := by
  refine h.simple.seq fun m s s' _ hs => ?_
  obtain ⟨rfl, hseen⟩ := hs
  cases s with
  | varDecl d => exact (Tracks.record _ _ _).next fun _ => .ret fun _ _ => rfl
  | assign a => exact (Tracks.record _ _ _).next fun _ => .ret fun _ _ => rfl
  | bind b => exact .ret fun _ _ => rfl
  | expr e => exact .ret fun _ _ => rfl
  | regWrite w =>
    have hspan : (SimpleStmt.regWrite (w.move ℓ.move)).span = (SimpleStmt.regWrite w).span.move ℓ.move :=
      (SimpleStmt.regWrite w).span_move
    show Tracks ℓ m _ (failMisplaced (.regWrite w) .moduleBody) (failMisplaced (.regWrite (w.move ℓ.move)) .moduleBody)
    unfold failMisplaced
    rw [hspan]
    exact (Tracks.report hseen _).next fun _ => .failed

theorem moduleStmt (h : g.Tracked ℓ) :
    Tracks ℓ n (By (ModuleStmt.move ℓ.move)) g.moduleStmt g.moduleStmt := by
  refine Tracks.skipAttributes.next fun _ => Tracks.peek.next fun k => ?_
  simp only [id_eq]
  split
  · exact h.methodDef.next fun _ => .ret fun _ _ => rfl
  · exact h.subinterfaceDef.next fun _ => .ret fun _ _ => rfl
  · exact h.ruleDef.next fun _ => .ret fun _ _ => rfl
  · exact h.returned.next fun _ => .ret fun _ _ => rfl
  · exact h.functionDef.next fun _ => .ret fun _ _ => rfl
  · exact (h.innerModule n).next fun _ => .ret fun _ _ => rfl
  · exact (h.skipUnsupported _).next fun _ => .failed
  · exact (h.skipUnsupported _).next fun _ => .failed
  · exact (h.skipUnsupported _).next fun _ => .failed
  · refine systemCall.seq fun m span span' _ hspan => ?_
    obtain ⟨rfl, hspan⟩ := hspan
    refine (Tracks.eat _).seq fun m' _ _ hm' _ => ?_
    exact (Tracks.reportUnsupported (hspan.mono hm') _).next fun _ => .failed
  · exact h.simpleModuleStmt

theorem moduleDef (h : g.Tracked ℓ) : Tracks ℓ n (By (ModuleDef.move ℓ.move)) g.moduleDef g.moduleDef := by
  refine Tracks.offset.seq fun m start start' _ hstart => ?_
  obtain ⟨rfl, -⟩ := hstart
  refine (moduleHeader.header _).next fun parts => h.moduleStmt.items.next fun stmts => ?_
  refine (ending _ _ _).next fun label => .ret fun _ _ => ?_
  show _ = ModuleDef.mk _ _ _ _ (ModuleStmt.moveAll ℓ.move stmts) _ _
  rw [ModuleStmt.moveAll_eq]
  rfl

/-! ## Statements -/

theorem ifStmt (h : g.Tracked ℓ) (dialect : Dialect) :
    Tracks ℓ n (By (StmtForm.move ℓ.move)) (g.ifStmt dialect) (g.ifStmt dialect) := by
  refine Tracks.skip.next fun _ => h.parenPredicate.next fun p => (h.innerStmt dialect n).next fun a => ?_
  refine (Tracks.accept _).next fun more => (h.innerStmt dialect n).optional fun b => .ret fun _ _ => ?_
  exact (StmtForm.move_cond p a b).symm

theorem systemTask (dialect : Dialect) : Tracks ℓ n Same (Grammar.systemTask dialect) (Grammar.systemTask dialect) := by
  refine systemCall.seq fun m span span' _ hspan => ?_
  obtain ⟨rfl, hspan⟩ := hspan
  refine (Tracks.eat _).seq fun m' _ _ hm' _ => ?_
  exact (permit (hspan.mono hm') _ _).next fun _ => Tracks.reportUnsupported (hspan.mono hm') _

theorem returnStmt (h : g.Tracked ℓ) (dialect : Dialect) :
    Tracks ℓ n (By (StmtForm.move ℓ.move)) (g.returnStmt dialect) (g.returnStmt dialect) := by
  refine Tracks.peekSpan.seq fun m span span' _ hspan => ?_
  obtain ⟨rfl, hspan⟩ := hspan
  exact h.returned.next fun e => (permit hspan _ _).next fun _ => .ret fun _ _ => rfl

theorem actionStmt (h : g.Tracked ℓ) (dialect : Dialect) :
    Tracks ℓ n (By (StmtForm.move ℓ.move)) (g.actionStmt dialect) (g.actionStmt dialect) := by
  refine Tracks.peekSpan.seq fun m span span' _ hspan => ?_
  obtain ⟨rfl, hspan⟩ := hspan
  refine h.operand.seq fun k e e' hk he => ?_
  obtain ⟨rfl, -⟩ := he
  refine (Tracks.eat _).seq fun k' _ _ hk' _ => ?_
  exact (permit (hspan.mono (Nat.le_trans hk hk')) _ _).next fun _ => .ret fun _ _ => rfl

theorem stmtForm (h : g.Tracked ℓ) (dialect : Dialect) :
    Tracks ℓ n (By (StmtForm.move ℓ.move)) (g.stmtForm dialect) (g.stmtForm dialect) := by
  refine Tracks.peek.next fun k => ?_
  simp only [id_eq]
  split
  · exact (h.block _ _ _).next fun _ => .ret fun _ _ => rfl
  · exact h.ifStmt dialect
  · exact h.returnStmt dialect
  · exact h.functionDef.next fun _ => .ret fun _ _ => rfl
  · exact h.moduleDef.next fun _ => .ret fun _ _ => rfl
  · exact (h.skipUnsupported _).next fun _ => .failed
  · exact (h.skipUnsupported _).next fun _ => .failed
  · exact (h.skipUnsupported _).next fun _ => .failed
  · exact (systemTask dialect).next fun _ => .failed
  · exact h.actionStmt dialect
  · exact h.actionStmt dialect
  · exact Tracks.failExpected _
  · refine h.simple.seq fun m s s' _ hs => ?_
    obtain ⟨rfl, hseen⟩ := hs
    exact permitSimple dialect s hseen

theorem stmt (h : g.Tracked ℓ) (dialect : Dialect) :
    Tracks ℓ n (By (Stmt.move ℓ.move)) (g.stmt dialect) (g.stmt dialect) := by
  refine Tracks.skipAttributes.next fun _ => Tracks.offset.seq fun m start start' _ hstart => ?_
  obtain ⟨rfl, -⟩ := hstart
  exact (h.stmtForm dialect).next fun form => Tracks.spanned fun _ _ _ => rfl

/-! ## Levels -/

theorem empty : Grammar.empty.Tracked ℓ where
  onward := onward_empty
  innerExpr _ _ := .failed
  innerOperand _ := .failed
  innerStmt _ _ := .failed
  innerMethod _ := .failed
  innerSubinterface _ := .failed
  innerModule _ := .failed

theorem next (h : g.Tracked ℓ) : g.next.Tracked ℓ where
  onward := h.onward.next
  innerExpr min n := (h.expr min).weaken (Nat.le_refl n) fun _ _ _ _ he => he.1
  innerOperand _ := h.operand
  innerStmt dialect _ := h.stmt dialect
  innerMethod _ := h.methodDef
  innerSubinterface _ := h.subinterfaceDef
  innerModule _ := h.moduleDef

/-- The grammar of every level reads moved tokens as it reads the tokens themselves. -/
theorem upTo (ℓ : Relocation) (level : Nat) : (Grammar.upTo level).Tracked ℓ := by
  induction level with
  | zero => exact empty
  | succ level ih => exact ih.next

end Bluespec.Grammar.Tracked
