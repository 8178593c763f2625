import Bluespec.Proofs.ExpressionTraits

/-!
# Traits of definitions and statements

One lemma for each kind of definition and each kind of statement.  A definition records itself, and so does a
simple statement of a module; both cover all the tokens from the offset where they begin.
-/

namespace Bluespec.Parser

open Grade Mark

variable {E : Trait} {α β : Type} {n : Nat} {past : Bool} {before : List NodeSpan} {g g' : Grammar}

/-! ## Where values begin -/

/-- All values that a parser yields have a property. -/
def Results (P : α → Prop) (p : Parser α) : Prop := ∀ c s a s', p c s = (some a, s') → P a

/-- A round of a loop keeps a property. -/
abbrev RoundKeeps (P : α → Prop) : Round α α → Prop := Round.Ends P P

namespace Results

variable {P : α → Prop}

theorem value {a : α} (h : P a) : Results P (pure a) := by
  intro c s a' s' hrun
  cases hrun
  exact h

theorem fail : Results P fail := fun _ _ _ _ h => by cases h

theorem bind {p : Parser β} {f : β → Parser α} (h : ∀ b, Results P (f b)) : Results P (p >>= f) := by
  intro c s a s' hrun
  obtain ⟨b, s₁, -, hf⟩ := bind_eq_some.mp hrun
  exact h b c s₁ a s' hf

theorem spanning {start : Nat} {make : Span → α} (h : ∀ stop, P (make ⟨start, stop⟩)) :
    Results P (spanFrom start >>= fun span => pure (make span)) := by
  intro c s a s' hrun
  cases hrun
  exact h _

theorem repeatUntil {round : α → Parser (Round α α)} (h : ∀ a, P a → Results (RoundKeeps P) (round a)) {a : α}
    (ha : P a) : Results P (repeatUntil round a) := by
  intro c s b s' hrun
  obtain ⟨a', s₁, hkept, hdone⟩ := repeatUntil_induct (motive := fun a _ => P a)
    (fun a s a' s' hP hround => h a hP c s _ s' hround) ha hrun
  exact h a' hkept c s₁ _ s' hdone

end Results

theorem primary_start {g : Grammar} {c : Setting} {s s' : State} {e : Expr} (h : g.primary c s = (some e, s')) :
    e.span.start = (s.peekSpan c).start := by
  obtain ⟨start, s₁, hstart, h⟩ := bind_eq_some.mp h
  cases hstart
  refine Results.bind (P := fun e : Expr => e.span.start = _) (fun k => ?_) _ _ _ _ h
  split <;> repeat (first | exact .spanning fun _ => rfl | exact .fail | refine .bind fun _ => ?_ | split)

theorem suffix_start (g : Grammar) (start : Nat) (operand : Expr) (h : operand.span.start = start) :
    Results (RoundKeeps fun e => e.span.start = start) (g.suffix operand) := by
  subst h
  refine .bind fun k => ?_
  split
  · exact .bind fun _ => .spanning fun _ => rfl
  · exact .bind fun _ => .spanning fun _ => rfl
  · exact .bind fun _ => .spanning fun _ => rfl
  · exact .value rfl

/-- An operand begins where its first token does. -/
theorem operand_start {g : Grammar} {c : Setting} {s s' : State} {e : Expr} (h : g.operand c s = (some e, s')) :
    e.span.start = (s.peekSpan c).start := by
  obtain ⟨first, s₁, hfirst, h⟩ := bind_eq_some.mp h
  rw [← primary_start hfirst]
  exact Results.repeatUntil (suffix_start g first.span.start) rfl c s₁ e s' h

/-! ## What values cover -/

/-- The declaration that a value is reaches from an offset to the last token that was read. -/
def Reaches (node? : α → Option NodeSpan) (start : Nat) (p : Parser α) : Prop :=
  ∀ c s a s' m, p c s = (some a, s') → node? a = some m → m.span = s'.spanFrom start

namespace Reaches

variable {node? : α → Option NodeSpan} {start : Nat}

theorem fail : Reaches node? start fail := fun _ _ _ _ _ h => by cases h

theorem absent {a : α} (h : node? a = none) : Reaches node? start (pure a) := by
  intro c s a' s' m hrun hm
  cases hrun
  rw [h] at hm
  cases hm

theorem bind {p : Parser β} {f : β → Parser α} (h : ∀ b, Reaches node? start (f b)) :
    Reaches node? start (p >>= f) := by
  intro c s a s' m hrun hm
  obtain ⟨b, s₁, -, hf⟩ := bind_eq_some.mp hrun
  exact h b c s₁ a s' m hf hm

theorem spanning {make : Span → α} (h : ∀ span m, node? (make span) = some m → m.span = span) :
    Reaches node? start (spanFrom start >>= fun span => pure (make span)) := by
  intro c s a s' m hrun hm
  cases hrun
  exact h _ m hm

end Reaches

theorem Covering.of_offset {node? : α → Option NodeSpan} {f : Nat → Parser α}
    (h : ∀ start, Reaches node? start (f start)) : Covering node? (offset >>= f) := by
  intro c s a s' m hrun hm
  exact h (s.peekSpan c).start c s a s' m hrun hm

theorem simpleTail_reaches (g : Grammar) (target : Expr) :
    Reaches SimpleStmt.node? target.span.start (g.simpleTail target) := by
  refine .bind fun k => ?_
  split
  · refine .bind fun _ => .bind fun value => ?_
    split
    · exact .spanning fun span m hm => by cases hm; rfl
    · exact .bind fun _ => .fail
  · exact .bind fun _ => .bind fun value => .spanning fun span m hm => by cases hm
  · split
    · exact .bind fun _ => .bind fun value => .spanning fun span m hm => by cases hm
    · exact .bind fun _ => .fail
  · exact .bind fun _ => .absent rfl
  · exact .bind fun _ => .fail

theorem letStmt_covering (g : Grammar) : Covering SimpleStmt.node? g.letStmt := by
  refine .of_offset fun start => .bind fun _ => .bind fun name => .bind fun b => ?_
  cases b with
  | true => exact .bind fun value => .spanning fun span m hm => by cases hm
  | false =>
    refine .bind fun _ => .bind fun init => .bind fun own => .bind fun _ => ?_
    exact .spanning fun span m hm => by cases hm; rfl

theorem typedStmt_covering (g : Grammar) : Covering SimpleStmt.node? g.typedStmt := by
  refine .of_offset fun start => .bind fun type => .bind fun name => .bind fun b => ?_
  cases b with
  | true => exact .bind fun value => .spanning fun span m hm => by cases hm
  | false =>
    refine .bind fun first => .bind fun b => ?_
    cases b with
    | true => exact .bind fun others => .bind fun _ => .spanning fun span m hm => by cases hm; rfl
    | false => exact .bind fun others => .bind fun _ => .spanning fun span m hm => by cases hm; rfl

theorem atTypedDecl_state {c : Setting} {s s' : State} {typed : Bool} (h : atTypedDecl c s = (some typed, s')) :
    s' = s := by
  cases (atTypedDecl_eq c s).symm.trans h
  rfl

/-- A simple statement that is a declaration covers all of its tokens. -/
theorem simple_covering (g : Grammar) : Covering SimpleStmt.node? g.simple := by
  intro c s a s' m hrun hm
  obtain ⟨isLet, s₁, hlet, hrest⟩ := bind_eq_some.mp hrun
  cases hlet
  by_cases hnext : (s.isNext (.keyword .let_)) = true
  · have hbranch := (congrFun (congrFun (if_pos hnext) c) s).symm.trans hrest
    exact letStmt_covering g c s a s' m hbranch hm
  · have hother := (congrFun (congrFun (if_neg hnext) c) s).symm.trans hrest
    obtain ⟨typed, s₂, htyped, hbranch⟩ := bind_eq_some.mp hother
    have hsame : s₂ = s := atTypedDecl_state htyped
    subst hsame
    cases typed with
    | true => exact typedStmt_covering g c s₂ a s' m hbranch hm
    | false =>
      obtain ⟨target, s₃, htarget, htail⟩ := bind_eq_some.mp hbranch
      rw [← operand_start htarget]
      exact simpleTail_reaches g target c s₃ a s' m htail hm

namespace Inherited

/-! ## Statements that definitions share -/

theorem simple (h : Inherited E) (hg : Level E n g g') :
    Outset E n before g.simple g'.simple fun s => before ++ s.inner := by
  refine h.isNext (h.letStmt hg) ?_
  refine h.next h.typedDecl fun typed => ?_
  cases typed with
  | true => exact h.typedStmt hg
  | false =>
    refine h.read (h.operand hg) fun target => ?_
    exact h.outset (h.simpleTail hg target)

theorem returned (h : Inherited E) (hg : Level E n g g') :
    Holds E (headed (n + 1) past) (fun _ => reading) before g.returned g'.returned fun e => before ++ e.declared :=
  h.read h.skipped fun _ => h.valueAndSemicolon hg

theorem skipThrough (h : Inherited E) (opening closing : Keyword) :
    Holds E (headed n past) (fun _ => nothing) before (skipThrough opening closing) (skipThrough opening closing)
      fun _ => before :=
  ⟨.skipExtent (fun _ _ => nofun) (fun _ _ => nofun), h.skips⟩

/-- A construct that is stepped over has been reported, whatever stands in it. -/
theorem skipUnsupported (h : Inherited E) (hg : Level E n g g') (dialect : Dialect) :
    Holds E (headed (n + 1) false) (fun _ => failing) before (g.skipUnsupported dialect)
      (g'.skipUnsupported dialect) fun _ => before := by
  refine h.look looks_offset fun start => ?_
  refine h.look looks_peek fun k => ?_
  split
  · refine h.next (h.skipThrough _ _) fun _ => ?_
    refine h.next h.label fun _ => ?_
    exact h.look (looks_spanFrom start) fun span => h.reported (reports_unsupported _ _)
  · refine h.readThen h.skipped fun _ => ?_
    refine h.next h.skipParenthesized fun _ => ?_
    refine h.look (looks_spanFrom start) fun span => ?_
    refine h.dirtied (h.reported (reports_unsupported _ _)) fun _ => ?_
    have hbody : Holds E (Grade.dirty n false) (fun _ => nothing) before (resuming (g.innerStmt dialect))
        (resuming (g'.innerStmt dialect)) fun _ => before :=
      h.dropped (h.resumed (h.of_free (hg.stmt dialect before))) fun s hs => hs.2
    exact h.next hbody fun _ => h.ret (.refl _)

/-! ## Bodies -/

theorem looks_atLoneBlock (closing : Keyword) : Looks (Grammar.atLoneBlock closing) fun _ consumed rest =>
    (State.isNext ⟨consumed, rest, [], []⟩ (.keyword .action) ||
      State.isNext ⟨consumed, rest, [], []⟩ (.keyword .actionvalue)) &&
        afterActionBlock rest == some (.keyword closing) := fun _ _ => rfl

theorem body (h : Inherited E) (hg : Level E n g g') (dialect : Dialect) (closing : Keyword) :
    Inside E n before (g.body dialect closing) (g'.body dialect closing) fun b => before ++ b.declared := by
  have hstmts : Inside E n before
      (Parser.items (g.innerStmt dialect) >>= fun ss => pure (Body.stmts dialect ss))
      (Parser.items (g'.innerStmt dialect) >>= fun ss => pure (Body.stmts dialect ss)) fun b => before ++ b.declared := by
    refine h.next (h.items (hg.stmt dialect)) fun ss => h.ret ?_
    rw [Body.declared, Stmt.declaredIn_eq]
  refine h.look (looks_atLoneBlock closing) fun lone => ?_
  cases lone with
  | false => exact hstmts
  | true =>
    refine h.next (h.resumed (h.outset (h.primary hg))) fun block => ?_
    cases block with
    | none => exact hstmts
    | some e => exact h.next h.eaten fun _ => h.ret (.refl _)

/-! ## Headers -/

theorem functionHeader (h : Inherited E) :
    Holds E (headed (n + 1) past) (fun _ => reading) before Grammar.functionHeader Grammar.functionHeader
      fun _ => before := by
  refine h.read h.skipped fun _ => ?_
  refine h.next h.type fun result => ?_
  refine h.next h.expectText fun name => ?_
  refine h.next (h.formalsIfAny false) fun formals => ?_
  refine h.next h.skipProvisos fun _ => ?_
  exact h.next h.expectPunct fun _ => h.ret (.refl _)

theorem looks_atMethodName : Looks Grammar.atMethodName fun _ consumed rest =>
    State.isNext ⟨consumed, rest, [], []⟩ .ident &&
      (State.nth ⟨consumed, rest, [], []⟩ 1 == some (.punct .lparen) ||
        State.nth ⟨consumed, rest, [], []⟩ 1 == some (.punct .semi) ||
        State.nth ⟨consumed, rest, [], []⟩ 1 == some (.keyword .if_)) := fun _ _ => rfl

theorem methodHeader (h : Inherited E) (hg : Level E n g g') :
    Holds E (headed (n + 1) past) (fun _ => reading) before g.methodHeader g'.methodHeader
      fun x => before ++ x.2.2.2.toList.flatMap Predicate.declared := by
  have hguarded : ∀ result : Option TypeExpr, Inside E n before
      (do
        let name ← expectText .ident
        let formals ← formalsIfAny true
        let guard ← if ← accept (.keyword .if_) then some <$> g.parenPredicate else pure none
        expectPunct .semi
        return (result, name, formals, guard))
      (do
        let name ← expectText .ident
        let formals ← formalsIfAny true
        let guard ← if ← accept (.keyword .if_) then some <$> g'.parenPredicate else pure none
        expectPunct .semi
        return (result, name, formals, guard))
      fun x => before ++ x.2.2.2.toList.flatMap Predicate.declared := by
    intro result
    refine h.next h.expectText fun name => ?_
    refine h.next (h.formalsIfAny true) fun formals => ?_
    refine h.next h.accepted (h.optional (fun before => h.outset (h.parenPredicate hg)) fun guard => ?_)
    exact h.next h.expectPunct fun _ => h.ret (.refl _)
  refine h.read h.skipped fun _ => ?_
  refine h.look looks_atMethodName fun named => ?_
  cases named with
  | true => exact hguarded none
  | false => exact h.next (h.next h.type fun type => h.ret (.refl _)) hguarded

theorem ruleHeader (h : Inherited E) (hg : Level E n g g') :
    Holds E (headed (n + 1) past) (fun _ => reading) before g.ruleHeader g'.ruleHeader
      fun x => before ++ x.2.toList.flatMap Predicate.declared := by
  refine h.read h.skipped fun _ => ?_
  refine h.next h.expectText fun name => ?_
  refine h.look (looks_isNext _) (h.optional (fun before => h.outset (h.parenPredicate hg)) fun guard => ?_)
  exact h.next h.expectPunct fun _ => h.ret (.refl _)

theorem subinterfaceHeader (h : Inherited E) :
    Holds E (headed (n + 1) past) (fun _ => reading) before Grammar.subinterfaceHeader Grammar.subinterfaceHeader
      fun _ => before := by
  refine h.read h.skipped fun _ => ?_
  refine h.next h.type fun type => ?_
  refine h.next h.expectText fun name => ?_
  exact h.next h.expectPunct fun _ => h.ret (.refl _)

theorem moduleContext (h : Inherited E) :
    Inside E n before Grammar.moduleContext Grammar.moduleContext fun _ => before := by
  refine h.next h.accepted fun b => ?_
  cases b with
  | false => exact h.ret (.refl _)
  | true =>
    refine h.next h.type fun type => ?_
    exact h.next h.expectPunct fun _ => h.ret (.refl _)

theorem moduleHeader (h : Inherited E) :
    Holds E (headed (n + 1) past) (fun _ => reading) before Grammar.moduleHeader Grammar.moduleHeader
      fun _ => before := by
  refine h.read h.skipped fun _ => ?_
  refine h.next h.moduleContext fun context => ?_
  refine h.next h.expectText fun name => ?_
  refine h.next h.moduleParams fun params => ?_
  refine h.next h.moduleArgs fun args => ?_
  refine h.next h.skipProvisos fun _ => ?_
  exact h.next h.expectPunct fun _ => h.ret (.refl _)

/-! ## Definitions -/

theorem functionDef (h : Inherited E) (hg : Level E n g g') :
    Holds E (headed (n + 1) false) (fun _ => reading) before g.functionDef g'.functionDef
      fun d => before ++ d.declared := by
  simp only [FunctionDef.declared_eq, ← List.append_assoc]
  exact h.definition (fun x y label span => FunctionDef.mk x.1 x.2.1 x.2.2 y label span) FunctionDef.span
    (fun d => before ++ d.inner) (fun _ _ _ _ => rfl) (fun _ _ _ _ => .refl _) h.functionHeader
    fun x => h.body hg _ _

theorem methodDef (h : Inherited E) (hg : Level E n g g') :
    Holds E (headed (n + 1) false) (fun _ => reading) before g.methodDef g'.methodDef
      fun d => before ++ d.declared := by
  simp only [MethodDef.declared_eq, ← List.append_assoc]
  refine h.definition (fun x y label span => MethodDef.mk x.1 x.2.1 x.2.2.1 x.2.2.2 y label span) MethodDef.span
    (fun d => before ++ d.inner) (fun _ _ _ _ => rfl) (fun x y label span => ?_) (h.methodHeader hg)
    fun x => h.body hg _ _
  rw [MethodDef.inner, List.append_assoc]

theorem ruleDef (h : Inherited E) (hg : Level E n g g') :
    Holds E (headed (n + 1) false) (fun _ => reading) before g.ruleDef g'.ruleDef
      fun d => before ++ d.declared := by
  simp only [RuleDef.declared_eq, ← List.append_assoc]
  refine h.definition (fun x y label span => RuleDef.mk x.1 x.2 y label span) RuleDef.span
    (fun d => before ++ d.inner) (fun _ _ _ _ => rfl) (fun x y label span => ?_) (h.ruleHeader hg)
    fun x => h.items (hg.stmt .action)
  rw [RuleDef.inner, List.append_assoc]

theorem subinterfaceDef (h : Inherited E) (hg : Level E n g g') :
    Holds E (headed (n + 1) false) (fun _ => reading) before g.subinterfaceDef g'.subinterfaceDef
      fun d => before ++ d.declared := by
  simp only [SubinterfaceDef.declared_eq, ← List.append_assoc]
  exact h.definition (fun x y label span => SubinterfaceDef.mk x.1 x.2 y label span) SubinterfaceDef.span
    (fun d => before ++ d.inner) (fun _ _ _ _ => rfl) (fun _ _ _ _ => .refl _) h.subinterfaceHeader
    fun x => h.items (h.interfaceStmt hg)

/-! ## Modules -/

/-- A simple statement as a statement of a module. -/
def moduleStmtOf : SimpleStmt → Parser ModuleStmt
  | .varDecl d => pure (.varDecl d)
  | .assign a => pure (.assign a)
  | .bind b => pure (.bind b)
  | .expr e => pure (.expr e)
  | .regWrite w => failMisplaced (.regWrite w) .moduleBody

theorem simpleModuleStmt_eq (g : Grammar) :
    g.simpleModuleStmt = g.simple >>= noting SimpleStmt.node? >>= moduleStmtOf := by
  rw [bind_assoc]
  refine congrArg _ (funext fun s => ?_)
  cases s <;> rfl

theorem simpleModuleStmt (h : Inherited E) (hg : Level E n g g') :
    Holds E (free n false) (fun _ => reading) before g.simpleModuleStmt g'.simpleModuleStmt
      fun s => before ++ s.declared := by
  rw [simpleModuleStmt_eq, simpleModuleStmt_eq]
  refine h.readHere (h.recorded (simple_covering g) (fun _ _ _ => rfl) (h.lower (h.simple hg))) fun s => ?_
  cases s with
  | varDecl d => exact h.ret (.of_eq (List.append_assoc _ _ _).symm)
  | assign a => exact h.ret (.of_eq (List.append_assoc _ _ _).symm)
  | bind b => exact h.ret (.of_eq (List.append_nil _).symm)
  | expr e => exact h.ret (.of_eq (List.append_nil _).symm)
  | regWrite w => exact h.reportFail (reports_report _ _ ⟨nofun, nofun⟩)

theorem moduleStmt (h : Inherited E) (hg : Level E n g g') (before : List NodeSpan) :
    Holds E (free n false) (fun _ => reading) before g.moduleStmt g'.moduleStmt
      fun s => before ++ s.declared := by
  refine h.next h.skipAttributes fun _ => ?_
  have hsimple : ∀ pre, Holds E ⟨n, pre, false⟩ (fun _ => reading) before g.simpleModuleStmt g'.simpleModuleStmt
      fun s => before ++ s.declared := fun pre => h.of_free (h.simpleModuleStmt hg)
  have hunsupported : Holds E (headed n false) (fun _ => reading) before
      (g.skipUnsupported .action >>= fun _ => fail) (g'.skipUnsupported .action >>= fun _ => fail)
      fun s : ModuleStmt => before ++ s.declared :=
    h.dirtied (h.lower (h.skipUnsupported hg .action)) fun _ => h.failed fun _ hs => hs.2
  refine h.peek (fun k => ?_) (hsimple _)
  split
  · exact h.readHere (h.lower (h.methodDef hg)) fun d => h.ret (.refl _)
  · exact h.readHere (h.lower (h.subinterfaceDef hg)) fun d => h.ret (.refl _)
  · exact h.readHere (h.lower (h.ruleDef hg)) fun d => h.ret (.refl _)
  · exact h.readHere (h.lower (h.returned hg)) fun e => h.ret (.refl _)
  · exact h.readHere (h.lower (h.functionDef hg)) fun d => h.ret (.refl _)
  · exact h.readHere (hg.module before) fun d => h.ret (.refl _)
  · exact hunsupported
  · exact hunsupported
  · exact hunsupported
  · refine h.readHere (h.lower h.systemCall) fun span => ?_
    exact h.next h.eaten fun _ => h.reportFail (reports_unsupported _ _)
  · exact hsimple _

theorem moduleDef (h : Inherited E) (hg : Level E n g g') :
    Holds E (headed (n + 1) false) (fun _ => reading) before g.moduleDef g'.moduleDef
      fun d => before ++ d.declared := by
  simp only [ModuleDef.declared_eq, ← List.append_assoc]
  exact h.definition (fun x y label span => ModuleDef.mk x.1 x.2.1 x.2.2.1 x.2.2.2 y label span) ModuleDef.span
    (fun d => before ++ d.inner) (fun _ _ _ _ => rfl) (fun _ _ _ _ => .refl _) h.moduleHeader
    fun x => h.items (h.moduleStmt hg)

/-! ## Statements -/

theorem ifStmt (h : Inherited E) (hg : Level E n g g') (dialect : Dialect) :
    Holds E (headed (n + 1) past) (fun _ => reading) before (g.ifStmt dialect) (g'.ifStmt dialect)
      fun form => before ++ form.declared := by
  refine h.read h.skipped fun _ => ?_
  refine h.next (h.outset (h.parenPredicate hg)) fun p => ?_
  refine h.next (hg.stmt dialect _) fun thenBranch => ?_
  refine h.next h.accepted
    (h.optional (fun before => h.forget (hg.stmt dialect before)) fun elseBranch => h.ret ?_)
  rw [StmtForm.declared_cond, List.append_assoc, List.append_assoc, List.append_assoc]

theorem systemTask (h : Inherited E) (dialect : Dialect) :
    Holds E (headed (n + 1) past) (fun _ => failing) before (Grammar.systemTask dialect)
      (Grammar.systemTask dialect) fun _ => before := by
  refine h.readThen h.systemCall fun span => ?_
  refine h.next h.eaten fun _ => ?_
  exact h.next (h.permit dialect _ _) fun _ => h.reported (reports_unsupported _ _)

theorem returnStmt (h : Inherited E) (hg : Level E n g g') (dialect : Dialect) :
    Holds E (headed (n + 1) past) (fun _ => reading) before (g.returnStmt dialect) (g'.returnStmt dialect)
      fun form => before ++ form.declared := by
  refine h.look looks_peekSpan fun span => ?_
  refine h.read (h.returned hg) fun e => ?_
  exact h.next (h.permit dialect _ _) fun _ => h.ret (.refl _)

theorem actionStmt (h : Inherited E) (hg : Level E n g g') (dialect : Dialect) :
    Outset E n before (g.actionStmt dialect) (g'.actionStmt dialect) fun form => before ++ form.declared := by
  refine h.look looks_peekSpan fun span => ?_
  refine h.read (h.operand hg) fun e => ?_
  refine h.next h.eaten fun _ => ?_
  exact h.next (h.permit dialect _ _) fun _ => h.ret (.refl _)

theorem stmtForm (h : Inherited E) (hg : Level E n g g') (dialect : Dialect) :
    Holds E (free (n + 1) false) (fun _ => reading) before (g.stmtForm dialect) (g'.stmtForm dialect)
      fun form => before ++ form.declared := by
  have hsimple : Holds E (free (n + 1) false) (fun _ => reading) before
      (g.simple >>= fun s => Parser.permitSimple dialect s) (g'.simple >>= fun s => Parser.permitSimple dialect s)
      fun form => before ++ form.declared :=
    h.read (h.free_of_past (h.simple hg)) fun s => h.permitSimple dialect s
  have hunsupported : Holds E (headed (n + 1) false) (fun _ => reading) before
      (g.skipUnsupported dialect >>= fun _ => fail) (g'.skipUnsupported dialect >>= fun _ => fail)
      fun form : StmtForm => before ++ form.declared :=
    h.dirtied (h.skipUnsupported hg dialect) fun _ => h.failed fun _ hs => hs.2
  refine h.peek (fun k => ?_) (h.failExpected _)
  split
  · exact h.read (h.of_free (h.free_of_past (h.block hg dialect _ _))) fun b => h.ret (.refl _)
  · exact h.ifStmt hg dialect
  · exact h.returnStmt hg dialect
  · exact h.read (h.functionDef hg) fun d => h.ret (.refl _)
  · exact h.read (h.moduleDef hg) fun d => h.ret (.refl _)
  · exact hunsupported
  · exact hunsupported
  · exact hunsupported
  · exact h.dirtied (h.systemTask dialect) fun _ => h.failed fun _ hs => hs.2
  · exact h.of_free (h.free_of_past (h.actionStmt hg dialect))
  · exact h.of_free (h.free_of_past (h.actionStmt hg dialect))
  · exact h.failExpected _
  · exact h.of_free hsimple

theorem stmt (h : Inherited E) (hg : Level E n g g') (dialect : Dialect) :
    Holds E (free (n + 1) false) (fun _ => reading) before (g.stmt dialect) (g'.stmt dialect)
      fun s => before ++ s.declared := by
  refine h.next h.skipAttributes fun _ => ?_
  refine h.look looks_offset fun start => ?_
  refine h.readHere (h.stmtForm hg dialect) fun form => ?_
  exact h.look (looks_spanFrom start) fun span => h.ret (.refl _)

/-! ## All levels -/

theorem nextLevel (h : Inherited E) (hg : Level E n g g') (hdeep : g.next.Deep (n + 1)) :
    Level E (n + 1) g.next g'.next where
  deep := hdeep
  expr min _ := h.free_of_past (h.expr hg min)
  operand _ := h.free_of_past (h.operand hg)
  stmt dialect _ := h.stmt hg dialect
  method _ := h.methodDef hg
  subinterface _ := h.subinterfaceDef hg
  module _ := h.moduleDef hg

/-- Nothing is asked of a parser that is never run. -/
theorem noLevel (h : Inherited E) (hdeep : g.Deep 0) : Level E 0 g g' := by
  have hnone : ∀ {α : Type} {pre : State → Prop} {mark : α → Mark} {before : List NodeSpan} {p p' : Parser α}
      {after : α → List NodeSpan}, Holds E ⟨0, pre, false⟩ mark before p p' after :=
    ⟨fun _ _ hs => absurd hs.1 (Nat.not_lt_zero _), h.vacuous rfl⟩
  exact ⟨hdeep, fun _ _ => hnone, fun _ => hnone, fun _ _ => hnone, fun _ => hnone, fun _ => hnone, fun _ => hnone⟩

/-- A trait of all that a grammar of enough levels calls, whatever the number of levels. -/
theorem level (h : Inherited E) {m m' : Nat} (hm : n ≤ m) (hm' : n ≤ m') :
    Level E n (Grammar.upTo m) (Grammar.upTo m') := by
  induction n generalizing m m' with
  | zero => exact h.noLevel (.upTo hm)
  | succ n ih =>
    obtain ⟨k, rfl⟩ := Nat.exists_eq_add_of_le hm
    obtain ⟨k', rfl⟩ := Nat.exists_eq_add_of_le hm'
    rw [Nat.succ_add, Nat.succ_add] at *
    exact h.nextLevel (ih (Nat.le_add_right n k) (Nat.le_add_right n k')) (.upTo hm)

end Inherited

end Bluespec.Parser
