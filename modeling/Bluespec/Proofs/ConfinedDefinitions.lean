import Bluespec.Proofs.ConfinedBodies

/-!
# Definitions are confined

A definition ends at its closing word and the label behind it, so only a colon is looked for in what follows.  What is
not supported is stepped over, but never without a diagnostic.

* **`Inner.functionDef`**, **`Inner.methodDef`**, **`Inner.ruleDef`** — definitions with statements of one dialect.
* **`Inner.subinterfaceDef`**, **`Inner.moduleDef`** — definitions with statements of their own.
* **`Inner.skipUnsupported`** — what is stepped over.
-/

namespace Bluespec

open Bluespec.Parser

namespace Inner

variable {α β : Type} {tokens : List Token} {n : Nat} {H : Option Kind → Prop} {r u : Bool}
  {F : β → List Token → Prop} {Q : β → Prop}

/-! ## What is stepped over -/

theorem label_yields (c : Setting) (s : State) : ∃ a s', label c s = (some a, s') := by
  rw [label, Confined.accept_bind]
  rcases Confined.eat_cases (.punct .colon) c s with ⟨t, ts, -, -, heat⟩ | ⟨-, heat⟩
  · rw [bind_of_some heat]
    show ∃ a s', (eat .ident >>= _) c s.step = (some a, s')
    rcases Confined.eat_cases .ident c s.step with ⟨t, ts, -, -, heat⟩ | ⟨-, heat⟩
    · rw [bind_of_some heat]
      exact ⟨_, _, rfl⟩
    · rw [bind_of_some heat]
      show ∃ a s', (eat .typeIdent >>= _) c s.step = (some a, s')
      rcases Confined.eat_cases .typeIdent c s.step with ⟨t, ts, -, -, heat⟩ | ⟨-, heat⟩ <;>
        exact ⟨_, _, by rw [bind_of_some heat]; rfl⟩
  · rw [bind_of_some heat]
    exact ⟨_, _, rfl⟩

/-- A construct that is stepped over has been reported. -/
theorem complains_skipUnsupported (dialect : Dialect) : Complains (Grammar.full.skipUnsupported dialect) := by
  refine .after (fun _ _ => ⟨_, _, rfl⟩) fun start => .after (fun _ _ => ⟨_, _, rfl⟩) fun k => ?_
  split
  · refine .after (fun _ _ => ⟨_, _, rfl⟩) fun _ => .after label_yields fun _ => ?_
    exact .after (fun _ _ => ⟨_, _, rfl⟩) fun span => .reportUnsupported _ _
  · refine .after (fun _ _ => ⟨_, _, rfl⟩) fun _ => .after skipParenthesized_yields fun _ => ?_
    refine .after (fun _ _ => ⟨_, _, rfl⟩) fun span => (Complains.reportUnsupported _ _).bind fun _ => ?_
    exact (Moving.resuming (Grammar.onward_full.stmt dialect)).bind fun _ => .value ()

theorem skipUnsupported (dialect : Dialect) :
    Confined tokens n H r u F Q (Grammar.full.skipUnsupported dialect >>= fun _ => fail) :=
  .dirty ((Grammar.onward_full.skipUnsupported dialect).bind fun _ => .fail)
    ((complains_skipUnsupported dialect).bind fun _ => .fail)

theorem eat_yields (k : Kind) (c : Setting) (s : State) : ∃ a s', eat k c s = (some a, s') := by
  rcases Confined.eat_cases k c s with ⟨t, ts, -, -, heat⟩ | ⟨-, heat⟩ <;> exact ⟨_, _, heat⟩

/-- A system task where there is no effect to be had is reported as such. -/
theorem systemTask (dialect : Dialect) :
    Confined tokens n H r u F Q (Grammar.systemTask dialect >>= fun _ => fail) := by
  have hpermit : ∀ span, Moving (permit dialect .systemTask span >>= fun _ => reportUnsupported span .systemCall) :=
    fun span => (Moving.permit _ _ _).bind fun _ => .reportUnsupported _ _
  have hcomplains : ∀ span,
      Complains (permit dialect .systemTask span >>= fun _ => reportUnsupported span .systemCall) := by
    intro span
    unfold permit
    split
    · exact ((Complains.report _ _).bind fun _ => .fail).bind fun _ => .reportUnsupported _ _
    · exact .reportUnsupported _ _
  refine .dirty (.bind ?_ fun _ => .fail) (.bind ?_ fun _ => .fail)
  · exact Moving.systemCall.bind fun span => (Moving.eat _).bind fun _ => hpermit span
  · exact .after systemCall_yields fun span => .after (eat_yields _) fun _ => hcomplains span

/-! ## The parts of definitions -/

theorem returned (h : Inner tokens n) : Confined tokens (n + 1) (· = some (.keyword .return_)) true u anything
    (fun e => AllSites (Site.Alone tokens) e.sites) Grammar.full.returned :=
  .enter true .reads (.skip rfl) fun _ => h.valueAndSemicolon

theorem ending {closing : Keyword} (hk : (Kind.keyword closing).isCalm = true) (kind : NodeKind) (start : Nat) :
    Confined tokens n any true true (fun _ => Lacks (.punct .colon)) (fun _ => True)
      (Grammar.ending closing kind start) :=
  .seq false .any (.expectKeyword hk) fun _ => .pass .same .label fun _ => .spanSoFar fun _ => .record (.ret trivial)

/-- A header, what stands in the definition, and its end. -/
theorem definition {γ δ : Type} {closing : Keyword} {kind : NodeKind} {header : Parser α} {inner : α → Parser γ}
    {P : α → Prop} {P' : α → γ → Prop} {Q : δ → Prop} {F : α → List Token → Prop}
    (make : α → γ → Option Label → Span → δ) (hk : (Kind.keyword closing).isCalm = true)
    (hheader : Confined tokens (n + 1) H true u F P header)
    (hinner : ∀ a, Confined tokens n any false true never (P' a) (inner a))
    (hQ : ∀ a b l span, P a → P' a b → Q (make a b l span)) :
    Confined tokens (n + 1) H true u (fun _ => Lacks (.punct .colon)) Q (do
      let start ← offset
      let a ← Parser.header closing header
      let b ← inner a
      let e ← Grammar.ending closing kind start
      return make a b e.1 e.2) := by
  refine .offset fun start => .first true .reads (.header hheader) fun a => ?_
  refine .passKeep .reads (hinner a) fun b => ?_
  exact .seq false .same (ending hk kind start) fun e => .ret fun hb ha => hQ a b e.1 e.2 ha hb

/-! ## Functions, methods and rules -/

theorem functionHeader : Confined tokens n (· = some (.keyword .function)) true u anything (fun _ => True)
    Grammar.functionHeader := by
  refine .seq true .any (.skip rfl) fun _ => .seq true .reads .type fun result => ?_
  refine .seq true .any (.expectText rfl) fun name => ?_
  refine .pass .reads (.formalsIfAny false) fun formals => .pass .reads .skipProvisos fun _ => ?_
  exact .seq false .any (.expectPunct rfl) fun _ => .ret trivial

theorem functionDef (h : Inner tokens n) : Confined tokens (n + 1) (· = some (.keyword .function)) true u
    (fun _ => Lacks (.punct .colon)) (fun d => AllSites (Site.Alone tokens) d.sites) Grammar.full.functionDef :=
  definition (fun x b l span => FunctionDef.mk x.1 x.2.1 x.2.2 b l span) rfl functionHeader (fun _ => h.body _ _)
    fun _ _ _ _ _ hbody => hbody

theorem methodHeader (h : Inner tokens n) : Confined tokens (n + 1) (· = some (.keyword .method)) true u never
    (fun x => ∀ p ∈ x.2.2.2, AllSites (Site.Alone tokens) p.sites) Grammar.full.methodHeader := by
  refine .enter true .reads (.skip rfl) fun _ => ?_
  refine .lookTwo (fun rest => State.isNext ⟨[], rest, [], []⟩ .ident &&
    (State.nth ⟨[], rest, [], []⟩ 1 == some (.punct .lparen) || State.nth ⟨[], rest, [], []⟩ 1 == some (.punct .semi) ||
      State.nth ⟨[], rest, [], []⟩ 1 == some (.keyword .if_))) (fun _ _ => rfl) (fun _ _ _ _ => rfl) fun named => ?_
  have hend : ∀ (result : Option TypeExpr) (name : String) (formals : List Formal) (guard : Option Predicate),
      Confined tokens n any true true never
        (fun x : Option TypeExpr × String × List Formal × Option Predicate =>
          (∀ p ∈ guard, AllSites (Site.Alone tokens) p.sites) → ∀ p ∈ x.2.2.2, AllSites (Site.Alone tokens) p.sites)
        (expectPunct .semi >>= fun _ => pure (result, name, formals, guard)) := fun _ _ _ _ =>
    .seq false .any (.expectPunct rfl) fun _ => .ret id
  have hguard : ∀ (result : Option TypeExpr) (name : String) (formals : List Formal),
      Confined tokens n any true true never (fun x => ∀ p ∈ x.2.2.2, AllSites (Site.Alone tokens) p.sites) (do
        let guard ← if ← accept (.keyword .if_) then some <$> Grammar.full.parenPredicate else pure none
        expectPunct .semi
        return (result, name, formals, guard)) := by
    intro result name formals
    refine .accept rfl (.inl rfl) (.maybe (r := true) ?_) ((hend result name formals none).imp fun x hx => hx nofun)
    have hsome : Confined tokens n any true true anything (fun x => ∀ p ∈ x, AllSites (Site.Alone tokens) p.sites)
        (some <$> Grammar.full.parenPredicate) :=
      .map some .any h.parenPredicate fun p hp q hq => Option.mem_some.mp hq ▸ hp
    exact hsome.keep true .reads fun guard => hend result name formals guard
  have hrest : ∀ result : Option TypeExpr,
      Confined tokens n any true true never (fun x => ∀ p ∈ x.2.2.2, AllSites (Site.Alone tokens) p.sites) (do
        let name ← expectText .ident
        let formals ← formalsIfAny true
        let guard ← if ← accept (.keyword .if_) then some <$> Grammar.full.parenPredicate else pure none
        expectPunct .semi
        return (result, name, formals, guard)) := fun result =>
    .seq true .any (.expectText rfl) fun name => .pass .reads (.formalsIfAny true) fun formals =>
      hguard result name formals
  cases named with
  | true => exact (hrest none).anywhere
  | false =>
    have htype : Confined tokens n any true true never (fun _ => True) (some <$> type) :=
      .map some .never .type fun _ _ => trivial
    exact htype.seq true .reads hrest

theorem methodDef (h : Inner tokens n) : Confined tokens (n + 1) (· = some (.keyword .method)) true u
    (fun _ => Lacks (.punct .colon)) (fun d => AllSites (Site.Alone tokens) d.sites) Grammar.full.methodDef :=
  definition (fun x b l span => MethodDef.mk x.1 x.2.1 x.2.2.1 x.2.2.2 b l span) rfl h.methodHeader
    (fun _ => h.body _ _) fun _ _ _ _ hguard hbody => MethodDef.allSites.mpr ⟨hguard, hbody⟩

theorem ruleHeader (h : Inner tokens n) : Confined tokens (n + 1) (· = some (.keyword .rule)) true u never
    (fun x => ∀ p ∈ x.2, AllSites (Site.Alone tokens) p.sites) Grammar.full.ruleHeader := by
  refine .enter true .reads (.skip rfl) fun _ => .seq true .reads (.expectText rfl) fun name => ?_
  have hend : ∀ guard : Option Predicate, Confined tokens n any true true never
      (fun x : String × Option Predicate =>
        (∀ p ∈ guard, AllSites (Site.Alone tokens) p.sites) → ∀ p ∈ x.2, AllSites (Site.Alone tokens) p.sites)
      (expectPunct .semi >>= fun _ => pure (name, guard)) := fun guard =>
    .seq false .any (.expectPunct rfl) fun _ => .ret id
  refine .isNext (.inl rfl) ?_ ((hend none).anywhere.imp fun x hx => hx nofun)
  have hsome : Confined tokens n (· = some (.punct .lparen)) true true anything
      (fun x => ∀ p ∈ x, AllSites (Site.Alone tokens) p.sites) (some <$> Grammar.full.parenPredicate) :=
    .map some .any h.parenPredicate fun p hp q hq => Option.mem_some.mp hq ▸ hp
  exact hsome.keep true .reads hend

theorem ruleDef (h : Inner tokens n) : Confined tokens (n + 1) (· = some (.keyword .rule)) true u
    (fun _ => Lacks (.punct .colon)) (fun d => AllSites (Site.Alone tokens) d.sites) Grammar.full.ruleDef :=
  definition (fun x b l span => RuleDef.mk x.1 x.2 b l span) rfl h.ruleHeader
    (fun _ => .items (h.stmt .action).part (advances_stmt .action))
    fun _ _ _ _ hguard hbody => RuleDef.allSites.mpr ⟨hguard, hbody⟩

/-! ## Interfaces and modules -/

theorem subinterfaceHeader : Confined tokens n (· = some (.keyword .interface)) true u anything (fun _ => True)
    Grammar.subinterfaceHeader := by
  refine .seq true .any (.skip rfl) fun _ => .seq true .reads .type fun type => ?_
  exact .seq true .any (.expectText rfl) fun name => .seq false .any (.expectPunct rfl) fun _ => .ret trivial

theorem subinterfaceDef (h : Inner tokens n) : Confined tokens (n + 1) (· = some (.keyword .interface)) true u
    (fun _ => Lacks (.punct .colon)) (fun d => AllSites (Site.Alone tokens) d.sites) Grammar.full.subinterfaceDef :=
  definition (fun x b l span => SubinterfaceDef.mk x.1 x.2 b l span) rfl subinterfaceHeader
    (fun _ => .items h.interfaceStmt advances_interfaceStmt)
    fun _ _ _ _ _ hstmts => InterfaceStmt.allSitesIn.mpr hstmts

/-- The parameters of a module behind their mark. -/
def markedParams (marked : Bool) : Parser (List ModuleParam) :=
  if marked = true then do
    expectPunct .lparen
    let params ← separated .comma moduleParam
    expectPunct .rparen
    return params
  else return []

theorem moduleParams_eq : moduleParams = accept (.punct .hash) >>= markedParams := rfl

theorem moduleHeader : Confined tokens n (· = some (.keyword .module)) true u never (fun _ => True)
    Grammar.moduleHeader := by
  refine .seq true .any (.skip rfl) fun _ => ?_
  have hcontext : Confined tokens n any false true (fun _ => Lacks (.punct .lbracket)) (fun _ => True)
      Grammar.moduleContext := by
    refine .accept rfl (.inr fun _ _ h => h) (.maybe (r := true) ?_) (.ret trivial)
    exact .seq true .reads .type fun type => .seq false .any (.expectPunct rfl) fun _ => .ret trivial
  refine .pass .reads hcontext fun context => ?_
  simp only [moduleParams_eq, Parser.bind_assoc]
  refine .hashed (q := true) (fun name marked => ?_) (Nat.le_succ n) rfl fun _ _ h => h.elim
  have hparams : Confined tokens n any false true anything (fun _ => True) (markedParams marked) := by
    cases marked with
    | false => exact .ret trivial
    | true =>
      refine .maybe (r := true) (.seq true .any (.expectPunct rfl) fun _ => ?_)
      exact .seq true .reads (.separated .moduleParam rfl) fun _ => .seq false .any (.expectPunct rfl) fun _ => .ret trivial
  refine .pass .any hparams fun params => .pass .reads .moduleArgs fun args => .pass .reads .skipProvisos fun _ => ?_
  exact .seq false .any (.expectPunct rfl) fun _ => .ret trivial

theorem simpleModuleStmt (h : Inner tokens n) : Confined tokens (n + 1) H true u anything
    (fun s => AllSites (Site.Alone tokens) s.sites) Grammar.full.simpleModuleStmt := by
  refine h.simple.first false .any fun x => ?_
  cases x with
  | varDecl d => exact .record (.ret id)
  | assign a => exact .record (.ret id)
  | bind b => exact .ret id
  | expr e => exact .ret id
  | regWrite w => exact .reportFail _ _

/-- A system task in a module is reported whether a semicolon follows it or not. -/
theorem moduleTask : Confined tokens n H r u F Q (do
    let span ← Grammar.systemCall
    let _ ← eat (.punct .semi)
    reportUnsupported span .systemCall
    fail) := by
  have hfail : ∀ _ : Unit, Moving (fail : Parser β) := fun _ => .fail
  refine .dirty ?_ ?_
  · exact Moving.systemCall.bind fun span => (Moving.eat _).bind fun _ => (Moving.reportUnsupported _ _).bind hfail
  · refine .after systemCall_yields fun span => .after (eat_yields _) fun _ => ?_
    exact (Complains.reportUnsupported _ _).bind hfail

theorem moduleStmt (h : Inner tokens n) : Confined tokens n any true true never
    (fun s => AllSites (Site.Alone tokens) s.sites) Grammar.full.moduleStmt := by
  refine .skipAttributes (.peek fun k => ?_)
  split
  · exact h.methodDef.lower.keep false .never fun d => .ret id
  · exact h.subinterfaceDef.lower.keep false .never fun d => .ret id
  · exact h.ruleDef.lower.keep false .never fun d => .ret id
  · exact h.returned.lower.keep false .never fun e => .ret id
  · exact h.functionDef.lower.keep false .never fun d => .ret id
  · exact h.module.behind.keep false .never fun d => .ret id
  · exact skipUnsupported .action
  · exact skipUnsupported .action
  · exact skipUnsupported .action
  · exact moduleTask
  · exact h.simpleModuleStmt.lower.narrow fun _ _ h => h.elim

theorem advances_moduleStmt : Advances Grammar.full.moduleStmt := by
  intro c s a s' hrun
  have hstmt : Holds sameRuns (.free (s.rest.length + 1) false) (fun _ => .reading) []
      (Grammar.upTo (s.rest.length + 1)).moduleStmt Grammar.full.moduleStmt fun s => [] ++ s.declared :=
    Inherited.moduleStmt inherited_sameRuns (level_full (Nat.le_refl _)) []
  exact (hstmt.steady_full.tells ⟨Nat.lt_succ_self _, trivial⟩ hrun).read rfl

theorem moduleDef (h : Inner tokens n) : Confined tokens (n + 1) (· = some (.keyword .module)) true u
    (fun _ => Lacks (.punct .colon)) (fun d => AllSites (Site.Alone tokens) d.sites) Grammar.full.moduleDef :=
  definition (fun x b l span => ModuleDef.mk x.1 x.2.1 x.2.2.1 x.2.2.2 b l span) rfl moduleHeader
    (fun _ => .items h.moduleStmt advances_moduleStmt) fun _ _ _ _ _ hstmts => ModuleStmt.allSitesIn.mpr hstmts

end Inner

end Bluespec
