import Bluespec.Proofs.UnitTraits
import Bluespec.Proofs.WholeTexts

/-!
# Failures are reported

Where all diagnostics are collected, what a run does does not depend on the diagnostics that are there when it
starts, and it keeps them: it adds its own on top (**`Parser.reporting`**).  A run that starts without any and fails
ends with one, so a run that fails adds one wherever it starts.

* **`Parser.Loud`** — a parser that adds a diagnostic whenever it fails.
* **`Grammar.Production`** — the productions that may fail; **`production_reports`** is about all of them.
-/

namespace Bluespec

namespace Parser

open Grade Mark

/-! ## Runs above other diagnostics -/

/-- The state with other diagnostics. -/
def State.withDiagnostics (s : State) (ds : List Diagnostic) : State := { s with diagnostics := ds }

/-- The state with more diagnostics below its own. -/
def State.above (s : State) (ds : List Diagnostic) : State := s.withDiagnostics (s.diagnostics ++ ds)

namespace State

variable (s : State) (ds : List Diagnostic)

theorem step_withDiagnostics : (s.withDiagnostics ds).step = s.step.withDiagnostics ds := by
  obtain ⟨cs, rest, own, ns⟩ := s
  cases rest <;> rfl

theorem advance_withDiagnostics (n : Nat) :
    (s.withDiagnostics ds).advance n = (s.advance n).withDiagnostics ds := by
  induction n generalizing s with
  | zero => rfl
  | succ n ih => rw [advance, advance, step_withDiagnostics, ih]

theorem record_withDiagnostics (kind : NodeKind) (span : Span) :
    (s.withDiagnostics ds).record kind span = (s.record kind span).withDiagnostics ds := by
  unfold State.record
  split <;> rfl

end State

theorem diagnostics_resumeState (before s : State) : (resumeState before s).diagnostics = s.diagnostics := by
  unfold resumeState
  split
  · exact s.advance_diagnostics _
  · rfl

theorem resumeState_above (before s : State) (ds ds' : List Diagnostic) :
    resumeState (before.withDiagnostics ds) (s.above ds') = (resumeState before s).above ds' := by
  unfold resumeState
  have hsame : ((s.above ds').rest.length = (before.withDiagnostics ds).rest.length ∨
      (!endsAtBoundary (s.above ds').consumed) = true) ↔
        (s.rest.length = before.rest.length ∨ (!endsAtBoundary s.consumed) = true) := .rfl
  by_cases h : s.rest.length = before.rest.length ∨ (!endsAtBoundary s.consumed) = true
  · rw [if_pos h, if_pos (hsame.mpr h)]
    have hdiagnostics := s.advance_diagnostics (Extent.recovery true 0 s.rest)
    refine (s.advance_withDiagnostics (s.diagnostics ++ ds') _).trans ?_
    unfold State.above
    rw [hdiagnostics]
    rfl
  · rw [if_neg h, if_neg (mt hsame.mp h)]

/-- A run does the same above any diagnostics, and reports only what has a reason. -/
def RunsAbove (p : Parser α) (c : Setting) (s : State) : Prop :=
  ∃ (r : Option α) (s' : State), (∀ d ∈ s'.diagnostics, d.problem.HasReason) ∧
    ∀ ds, p c (s.withDiagnostics ds) = (r, s'.above ds)

/-- Runs where all diagnostics are collected do not look at those that are there. -/
def reporting : Trait := fun _ γ _ p _ _ =>
  ∀ c s, c.recovery = .collectAll → γ.Admits s → RunsAbove p c s

namespace RunsAbove

variable {α β : Type} {p : Parser α} {c : Setting} {s : State}

/-- A run that adds nothing. -/
theorem quiet (r : Option α) (s' : State)
    (h : ∀ ds, p c (s.withDiagnostics ds) = (r, s'.withDiagnostics ds)) : RunsAbove p c s :=
  ⟨r, s'.withDiagnostics [], fun _ hd => absurd hd List.not_mem_nil, h⟩

theorem reports {p : Parser Unit} {diagnostic : Nat → List Token → List Token → Diagnostic}
    (hp : Reports p diagnostic) : RunsAbove p c s := by
  refine ⟨some (), s.withDiagnostics [diagnostic c.sourceEnd s.consumed s.rest], ?_, fun ds => hp.run c _⟩
  intro d hd
  rw [List.mem_singleton.mp hd]
  exact hp.hasReason _ _ _

theorem skips (extent : List Token → Nat) : RunsAbove (skipExtent extent) c s :=
  .quiet (some ()) (s.advance (extent s.rest)) fun ds =>
    congrArg (Prod.mk (some ())) (s.advance_withDiagnostics ds (extent s.rest))

theorem eat (kind : Kind) : RunsAbove (eat kind) c s := by
  obtain ⟨cs, rest, own, ns⟩ := s
  cases rest with
  | nil => exact .quiet _ ⟨cs, [], own, ns⟩ fun _ => rfl
  | cons t ts =>
    by_cases hk : t.kind = kind
    · exact .quiet _ ⟨t :: cs, ts, own, ns⟩ fun ds => if_pos hk
    · exact .quiet _ ⟨cs, t :: ts, own, ns⟩ fun ds => if_neg hk

theorem bind {f : α → Parser β} (hp : RunsAbove p c s)
    (hf : ∀ a s', p c s = (some a, s') → RunsAbove (f a) c s') : RunsAbove (p >>= f) c s := by
  obtain ⟨r, s₁, hreasons, hrun⟩ := hp
  cases r with
  | none => exact ⟨none, s₁, hreasons, fun ds => bind_of_none (hrun ds)⟩
  | some a =>
    obtain ⟨r', s₂, hreasons', hrun'⟩ := hf a _ (hrun s.diagnostics)
    refine ⟨r', s₂.above s₁.diagnostics, ?_, fun ds => ?_⟩
    · exact fun d hd => (List.mem_append.mp hd).elim (hreasons' d) (hreasons d)
    · have hsecond := hrun' (s₁.diagnostics ++ ds)
      rw [bind_of_some (hrun ds)]
      refine hsecond.trans ?_
      unfold State.above State.withDiagnostics
      rw [← List.append_assoc]

theorem attempt (hp : RunsAbove p c s) : RunsAbove (attempt p) c s := by
  obtain ⟨r, s', hreasons, hrun⟩ := hp
  exact ⟨some r, s', hreasons, fun ds => by rw [Parser.attempt, hrun ds]⟩

theorem lookahead (hp : RunsAbove p c s) (hmoves : Moving p) : RunsAbove (lookahead p) c s := by
  obtain ⟨r, s', -, hrun⟩ := hp
  exact .quiet (some r) s fun ds => by rw [lookahead_eq (hmoves c _), hrun ds]

theorem tentatively (hp : RunsAbove p c s)
    (hmoves : ∀ ds, (s.withDiagnostics ds).Moves (p c (s.withDiagnostics ds)).2) : RunsAbove (tentatively p) c s := by
  obtain ⟨r, s', hreasons, hrun⟩ := hp
  cases r with
  | some a => exact ⟨some (some a), s', hreasons, fun ds => tentatively_of_some (hrun ds)⟩
  | none =>
    refine .quiet _ s fun ds => tentatively_of_none ?_ (hrun ds)
    have hmoved := hmoves ds
    rwa [hrun ds] at hmoved

theorem conjunctsOfConditional {g : Grammar} (h : RunsAbove (g.furtherConjuncts (conditionalPower + 1)) c s) :
    RunsAbove g.conjunctsOfConditional c s := by
  obtain ⟨r, s', hreasons, hrun⟩ := h
  cases r with
  | some es =>
    let kept := if !es.isEmpty && s'.isNext (.punct .question) then some es else none
    exact ⟨kept, s', hreasons, fun ds => conjuncts_of_some (hrun ds)⟩
  | none => exact ⟨none, s', hreasons, fun ds => conjuncts_of_none (hrun ds)⟩

theorem resuming (hp : RunsAbove p c s) : RunsAbove (resuming p) c s := by
  obtain ⟨r, s', hreasons, hrun⟩ := hp
  cases r with
  | some a => exact ⟨some (some a), s', hreasons, fun ds => by rw [Parser.resuming, hrun ds]⟩
  | none =>
    refine ⟨some none, resumeState s s', ?_, fun ds => ?_⟩
    · rw [diagnostics_resumeState]
      exact hreasons
    · rw [Parser.resuming, hrun ds]
      exact congrArg (Prod.mk (some none)) (resumeState_above s s' ds ds)

theorem noting (node? : α → Option NodeSpan) (a : α) : RunsAbove (noting node? a) c s := by
  unfold Parser.noting
  cases node? a with
  | none => exact .quiet _ s fun _ => rfl
  | some m =>
    refine .quiet (some a) (s.record m.kind m.span) fun ds => ?_
    exact congrArg (Prod.mk (some a)) (s.record_withDiagnostics ds m.kind m.span)

theorem nameList (reader : ListReader α) (kind : NodeKind) : RunsAbove (nameList reader kind) c s := by
  have hspan : ∀ ds, listSpan c (s.withDiagnostics ds) = listSpan c s := by
    intro ds
    unfold listSpan
    rw [show (s.withDiagnostics ds).rest = s.rest from rfl, s.advance_withDiagnostics]
    rfl
  have hrun : ∀ ds, Parser.nameList reader kind c (s.withDiagnostics ds) = listOutcome kind c (s.withDiagnostics ds)
      (reader.run (listSpan c s).stop (s.rest.take (Extent.nameList s.rest))) := by
    intro ds
    rw [nameList_eq, hspan]
    rfl
  have hpassed : ∀ ds, (s.withDiagnostics ds).advance (Extent.nameList (s.withDiagnostics ds).rest) =
      (s.advance (Extent.nameList s.rest)).withDiagnostics ds := fun ds => s.advance_withDiagnostics ds _
  cases hread : reader.run (listSpan c s).stop (s.rest.take (Extent.nameList s.rest)) with
  | ok value =>
    refine .quiet (some (value, listSpan c s)) ((s.advance (Extent.nameList s.rest)).record kind (listSpan c s))
      fun ds => ?_
    rw [hrun ds, hread, listOutcome, hspan, hpassed, ← State.record_withDiagnostics]
  | error m =>
    refine ⟨none, (s.advance (Extent.nameList s.rest)).withDiagnostics [m.diagnostic], ?_, fun ds => ?_⟩
    · intro d hd
      rw [List.mem_singleton.mp hd]
      constructor <;> (intro h; cases h)
    · rw [hrun ds, hread, listOutcome, hpassed]
      rfl

end RunsAbove

section Closure

variable {α β : Type} {γ : Grade} {n : Nat} {past : Bool} {pre : State → Prop} {before : List NodeSpan}
  {k : α → Mark} {p p' : Parser α}

theorem closed_reporting : Closed reporting where
  vacuous hbound _ _ _ hs := absurd hs.1 (by rw [hbound]; exact Nat.not_lt_zero _)
  weaken hγ hp c s hc hs := hp c s hc (hγ.admits s hs)
  value _ _ s _ _ := .quiet _ s fun _ => rfl
  failure _ _ s _ _ := .quiet _ s fun _ => rfl
  looks hq hf c s hc hs := by
    obtain ⟨r, s', hreasons, hrun⟩ := (hf _).trait c s hc ⟨hs.1, hs.2, c.sourceEnd, rfl⟩
    exact ⟨r, s', hreasons, fun ds => by rw [bind_apply, hq]; exact hrun ds⟩
  reports hr c s _ _ := .reports hr
  skips c s _ _ := .skips _
  eats c s _ _ := .eat _
  binds hp hf c s hc hs := (hp.trait c s hc hs).bind fun a s' hrun =>
    (hf a).trait c s' hc (hp.steady.after hs hrun)

theorem inherited_reporting : Inherited reporting where
  toClosed := closed_reporting
  discards _ hp := hp
  halts _ hfalse c s hc hs := by
    obtain ⟨r, s', hreasons, hrun⟩ := hfalse.trait c s hc hs
    refine ⟨r, s', hreasons, fun ds => ?_⟩
    rw [← hrun ds, bind_apply, halted, hc]
    rfl
  attempts hp c s hc hs := (hp.trait c s hc hs).attempt
  resumes hp c s hc hs := (hp.trait c s hc hs).resuming
  looksAhead _ hmoves hp c s hc hs := (hp.trait c s hc hs).lookahead hmoves
  records _ _ hp c s hc hs := (hp.trait c s hc hs).bind fun a s' _ => .noting _ a
  lists c s _ _ := .nameList _ _
  chains _ hread c s hc hs := (hread.trait c s hc hs).conjunctsOfConditional.tentatively fun ds => by
    rw [conjuncts_state]
    exact (hread.steady c (s.withDiagnostics ds) hs).1

end Closure

/-! ## Loud parsers -/

/-- A parser adds a diagnostic whenever it fails with fewer tokens left than a bound. -/
def Loud (bound : Nat) (p : Parser α) : Prop :=
  ∀ c s s', c.recovery = .collectAll → s.rest.length < bound → p c s = (none, s') →
    ∃ added, added ≠ [] ∧ s'.diagnostics = added ++ s.diagnostics

section Loudness

variable {α : Type} {n : Nat} {p p' : Parser α} {mark : α → Mark} {after : α → List NodeSpan}

/-- What a failure adds is what it reports when nothing has been reported before. -/
theorem RunsAbove.adds {c : Setting} {s s' : State} (h : RunsAbove p c s)
    (hdirty : ∀ s', p c (s.withDiagnostics []) = (none, s') → s'.diagnostics ≠ []) (hrun : p c s = (none, s')) :
    ∃ added, added ≠ [] ∧ s'.diagnostics = added ++ s.diagnostics := by
  obtain ⟨r, s₁, -, hsame⟩ := h
  have hhere := hsame s.diagnostics
  have hclean := hsame []
  cases hrun.symm.trans hhere
  refine ⟨s₁.diagnostics, ?_, rfl⟩
  have hne := hdirty _ hclean
  unfold State.above State.withDiagnostics at hne
  rwa [List.append_nil] at hne

theorem Loud.of_free (past : Bool) (before : List NodeSpan)
    (h : Holds reporting (free n past) mark before p p' after) : Loud n p := by
  intro c s s' hc hs hrun
  have hadmits : ∀ ds, (free n past).Admits (s.withDiagnostics ds) := fun _ => ⟨hs, trivial⟩
  exact RunsAbove.adds (h.trait c s hc (hadmits s.diagnostics)) (fun _ => h.steady.dirty (hadmits [])) hrun

/-- A production that reads its first word whatever it is says what is missing at the end of the input. -/
theorem Loud.of_headed (past : Bool) (before : List NodeSpan)
    (h : Holds reporting (headed n past) mark before p p' after)
    (hend : ∀ c cs ds ns, ∃ d, p c ⟨cs, [], ds, ns⟩ = (none, ⟨cs, [], d :: ds, ns⟩))
    : Loud n p := by
  intro c s s' hc hs hrun
  obtain ⟨cs, rest, ds, ns⟩ := s
  cases rest with
  | nil =>
    obtain ⟨d, hfails⟩ := hend c cs ds ns
    cases hrun.symm.trans hfails
    exact ⟨[d], List.cons_ne_nil _ _, rfl⟩
  | cons t ts =>
    have hadmits : ∀ ds, (headed n past).Admits ⟨cs, t :: ts, ds, ns⟩ := fun _ => ⟨hs, t, ts, rfl⟩
    exact RunsAbove.adds (h.trait c _ hc (hadmits ds)) (fun _ => h.steady.dirty (hadmits [])) hrun

theorem Loud.nameList (reader : ListReader α) (kind : NodeKind) : Loud n (nameList reader kind) :=
  fun _ _ _ _ _ hrun => RunsAbove.adds (.nameList reader kind) (fun _ h => (nameList_passes h).2 rfl) hrun

/-- A value that is made of another one is missing only with it. -/
theorem Loud.map {β : Type} (h : Loud n p) (f : α → β) : Loud n (p >>= fun a => pure (f a)) := by
  intro c s s' hc hs hrun
  cases hfirst : p c s with
  | mk r s₁ =>
    cases r with
    | none =>
      cases (bind_of_none hfirst).symm.trans hrun
      exact h c s s' hc hs hfirst
    | some a => cases (bind_of_some hfirst).symm.trans hrun

end Loudness

end Parser

namespace Grammar

open Bluespec.Parser

/-! ## Productions -/

/-- The productions that may fail. -/
inductive Production (g : Grammar) : {α : Type} → Parser α → Prop
  | bitBound : g.Production Parser.bitBound
  | type : g.Production Parser.type
  | typeFormal : g.Production Parser.typeFormal
  | typeFormals : g.Production Parser.typeFormals
  | formal (untyped : Bool) : g.Production (Parser.formal untyped)
  | formals (untyped : Bool) : g.Production (Parser.formals untyped)
  | moduleParam : g.Production Parser.moduleParam
  | moduleParams : g.Production Parser.moduleParams
  | moduleArg : g.Production Parser.moduleArg
  | moduleArgs : g.Production Parser.moduleArgs
  | arguments : g.Production g.arguments
  | fieldBind : g.Production g.fieldBind
  | fieldBinds : g.Production g.fieldBinds
  | concatItems : g.Production g.concatItems
  | selection (base : Expr) : g.Production (g.selection base)
  | memberOf (receiver : Expr) : g.Production (g.memberOf receiver)
  | suffixes (operand : Expr) : g.Production (g.suffixes operand)
  | furtherConjuncts (min : Nat) : g.Production (g.furtherConjuncts min)
  | conditional (predicate : Predicate) : g.Production (g.conditional predicate)
  | operations (min : Nat) (lhs : Expr) : g.Production (g.operations min lhs)
  | literal (k : Kind) : g.Production (Grammar.literal k)
  | payload : g.Production g.payload
  | primary : g.Production g.primary
  | operand : g.Production g.operand
  | unary : g.Production g.unary
  | expr (min : Nat) : g.Production (g.expr min)
  | predicate : g.Production g.predicate
  | parenPredicate : g.Production g.parenPredicate
  | valueAndSemicolon : g.Production g.valueAndSemicolon
  | simpleTail (target : Expr) : g.Production (g.simpleTail target)
  | letStmt : g.Production g.letStmt
  | dimensions : g.Production g.dimensions
  | declarator : g.Production g.declarator
  | typedStmt : g.Production g.typedStmt
  | permit (dialect : Dialect) (leaf : Leaf) (span : Span) : g.Production (Parser.permit dialect leaf span)
  | permitSimple (dialect : Dialect) (stmt : SimpleStmt) : g.Production (Parser.permitSimple dialect stmt)
  | block (dialect : Dialect) (opening closing : Keyword) : g.Production (g.block dialect opening closing)
  | blockStmtTail (start : Nat) (target : Expr) : g.Production (g.blockStmtTail start target)
  | blockItem : g.Production g.blockItem
  | valueBlock : g.Production g.valueBlock
  | interfaceStmt : g.Production g.interfaceStmt
  | interfaceExpr : g.Production g.interfaceExpr
  | simple : g.Production g.simple
  | returned : g.Production g.returned
  | body (dialect : Dialect) (closing : Keyword) : g.Production (g.body dialect closing)
  | functionHeader : g.Production Grammar.functionHeader
  | functionDef : g.Production g.functionDef
  | methodHeader : g.Production g.methodHeader
  | methodDef : g.Production g.methodDef
  | ruleHeader : g.Production g.ruleHeader
  | ruleDef : g.Production g.ruleDef
  | subinterfaceHeader : g.Production Grammar.subinterfaceHeader
  | subinterfaceDef : g.Production g.subinterfaceDef
  | moduleHeader : g.Production Grammar.moduleHeader
  | moduleStmt : g.Production g.moduleStmt
  | moduleDef : g.Production g.moduleDef
  | ifStmt (dialect : Dialect) : g.Production (g.ifStmt dialect)
  | returnStmt (dialect : Dialect) : g.Production (g.returnStmt dialect)
  | actionStmt (dialect : Dialect) : g.Production (g.actionStmt dialect)
  | stmt (dialect : Dialect) : g.Production (g.stmt dialect)
  | methodProto (start : Nat) : g.Production (Parser.methodProto start)
  | subinterfaceDecl (start : Nat) : g.Production (Parser.subinterfaceDecl start)
  | interfaceMember : g.Production Parser.interfaceMember
  | interfaceHeader : g.Production Parser.interfaceHeader
  | interfaceDecl : g.Production Parser.interfaceDecl
  | packageStmt : g.Production Parser.packageStmt
  | exportDecl : g.Production Parser.exportDecl
  | importDecl : g.Production Parser.importDecl

variable {n m : Nat} {α : Type} {p : Parser α}

theorem Production.loud (hp : (upTo (m + 1)).Production p) : Loud (m + 1) p := by
  have h : Inherited reporting := inherited_reporting
  have hg : Level reporting (m + 1) (upTo (m + 1)) (upTo (m + 1)) := h.level (Nat.le_refl _) (Nat.le_refl _)
  have hfew : Level reporting m (upTo (m + 1)) (upTo (m + 1)) := h.level (Nat.le_succ _) (Nat.le_succ _)
  cases hp with
  | bitBound => exact .of_free true [] h.bitBound
  | type => exact .of_free true [] h.type
  | typeFormal => exact .of_free _ [] h.typeFormal
  | typeFormals => exact .of_free _ [] h.typeFormals
  | formal untyped => exact .of_free _ [] (h.formal untyped)
  | formals untyped => exact .of_free false [] (h.next h.expectPunct fun _ => h.enclosedBare fun _ => h.formal untyped)
  | moduleParam => exact .of_free _ [] h.moduleParam
  | moduleParams => exact .of_free _ [] h.moduleParams
  | moduleArg => exact .of_free _ [] h.moduleArg
  | moduleArgs => exact .of_free _ [] h.moduleArgs
  | arguments => exact .of_free _ [] (h.arguments hfew)
  | fieldBind => exact .of_free _ [] (h.fieldBind hg [])
  | fieldBinds => exact .of_free _ [] (h.fieldBinds hfew)
  | concatItems => exact .of_free _ [] (h.concatItems hfew)
  | selection base => exact .of_headed _ ([] ++ base.declared) (h.selection hfew base) fun _ _ _ _ => ⟨_, rfl⟩
  | memberOf receiver =>
    exact .of_headed _ ([] ++ receiver.declared) (h.memberOf hfew receiver) fun _ _ _ _ => ⟨_, rfl⟩
  | suffixes operand => exact .of_free _ ([] ++ operand.declared) (h.suffixes hfew operand)
  | furtherConjuncts min => exact .of_free _ [] (h.furtherConjuncts hfew min)
  | conditional predicate => exact .of_free _ ([] ++ predicate.declared) (h.conditional hfew predicate)
  | operations min lhs => exact .of_free _ ([] ++ lhs.declared) (h.operations hfew min lhs)
  | literal k => exact .of_free _ [] h.literal
  | payload => exact .of_free _ [] (h.payload hg)
  | primary => exact .of_free _ [] (h.primary hfew)
  | operand => exact .of_free _ [] (h.operand hfew)
  | unary => exact .of_free _ [] (h.unary hfew)
  | expr min => exact .of_free _ [] (h.expr hfew min)
  | predicate => exact .of_free _ [] (h.predicate hg)
  | parenPredicate => exact .of_free _ [] (h.parenPredicate hfew)
  | valueAndSemicolon => exact .of_free _ [] (h.valueAndSemicolon hg)
  | simpleTail target => exact .of_free _ ([] ++ target.declared) (h.simpleTail hfew target)
  | letStmt => exact .of_headed _ [] (h.letStmt hfew) fun _ _ _ _ => ⟨_, rfl⟩
  | dimensions => exact .of_free _ [] (h.dimensions hfew)
  | declarator => exact .of_free _ [] (h.declarator hg [])
  | typedStmt => exact .of_free _ [] (h.typedStmt hfew)
  | permit dialect leaf span => exact .of_free false [] (h.permit dialect leaf span)
  | permitSimple dialect stmt => exact .of_free false ([] ++ stmt.inner) (h.permitSimple dialect stmt)
  | block dialect opening closing => exact .of_free _ [] (h.block hfew dialect opening closing)
  | blockStmtTail start target => exact .of_free _ ([] ++ target.declared) (h.blockStmtTail hg start target)
  | blockItem => exact .of_free _ [] (h.blockItem hg)
  | valueBlock => exact .of_free _ [] (h.valueBlock hfew)
  | interfaceStmt => exact .of_free _ [] (h.interfaceStmt hg [])
  | interfaceExpr => exact .of_headed _ [] (h.interfaceExpr hfew) fun _ _ _ _ => ⟨_, rfl⟩
  | simple => exact .of_free _ [] (h.simple hfew)
  | returned => exact .of_headed false [] (h.returned hfew) fun _ _ _ _ => ⟨_, rfl⟩
  | body dialect closing => exact .of_free _ [] (h.body hg dialect closing)
  | functionHeader => exact .of_headed false [] h.functionHeader fun _ _ _ _ => ⟨_, rfl⟩
  | functionDef => exact .of_headed _ [] (h.functionDef hfew) fun _ _ _ _ => ⟨_, rfl⟩
  | methodHeader => exact .of_headed false [] (h.methodHeader hfew) fun _ _ _ _ => ⟨_, rfl⟩
  | methodDef => exact .of_headed _ [] (h.methodDef hfew) fun _ _ _ _ => ⟨_, rfl⟩
  | ruleHeader => exact .of_headed false [] (h.ruleHeader hfew) fun _ _ _ _ => ⟨_, rfl⟩
  | ruleDef => exact .of_headed _ [] (h.ruleDef hfew) fun _ _ _ _ => ⟨_, rfl⟩
  | subinterfaceHeader => exact .of_headed false [] h.subinterfaceHeader fun _ _ _ _ => ⟨_, rfl⟩
  | subinterfaceDef => exact .of_headed _ [] (h.subinterfaceDef hfew) fun _ _ _ _ => ⟨_, rfl⟩
  | moduleHeader => exact .of_headed false [] h.moduleHeader fun _ _ _ _ => ⟨_, rfl⟩
  | moduleStmt => exact .of_free _ [] (h.moduleStmt hg [])
  | moduleDef => exact .of_headed _ [] (h.moduleDef hfew) fun _ _ _ _ => ⟨_, rfl⟩
  | ifStmt dialect => exact .of_headed false [] (h.ifStmt hfew dialect) fun _ _ _ _ => ⟨_, rfl⟩
  | returnStmt dialect => exact .of_headed false [] (h.returnStmt hfew dialect) fun _ _ _ _ => ⟨_, rfl⟩
  | actionStmt dialect => exact .of_free _ [] (h.actionStmt hfew dialect)
  | stmt dialect => exact .of_free _ [] (h.stmt hfew dialect)
  | methodProto start => exact .of_headed false [] (h.methodProto start) fun _ _ _ _ => ⟨_, rfl⟩
  | subinterfaceDecl start => exact .of_headed false [] (h.subinterfaceDecl start) fun _ _ _ _ => ⟨_, rfl⟩
  | interfaceMember => exact .of_free _ [] h.interfaceMember
  | interfaceHeader => exact .of_headed false [] h.interfaceHeader fun _ _ _ _ => ⟨_, rfl⟩
  | interfaceDecl => exact .of_headed _ [] h.interfaceDecl fun _ _ _ _ => ⟨_, rfl⟩
  | packageStmt => exact .of_free _ [] h.packageStmt
  | exportDecl => exact (Loud.nameList ListReader.exportItems .exportDecl).map fun r => ExportDecl.mk r.1 r.2
  | importDecl => exact (Loud.nameList ListReader.importedPackages .importDecl).map fun r => ImportDecl.mk r.1 r.2

end Grammar

/-! ## Single expressions and statements -/

namespace Parser

open Grade Mark

section Texts

variable {α : Type} {production : Grammar → Parser α} {mark : α → Mark} {after : α → List NodeSpan}
  {problem : SyntaxProblem} {source : String} {ds : List Diagnostic}

/-- A text is not rejected for no known reason. -/
theorem hasReason_of_parseOnly
    (h : ∀ m, Level reporting m (Grammar.upTo m) (Grammar.upTo m) →
      Holds reporting (free (m + 1) false) mark [] (production (Grammar.upTo m)) (production (Grammar.upTo m)) after)
    (hds : parseOnly (withGrammar production) problem source = .error ds) : ∀ d ∈ ds, d.problem.HasReason := by
  have hend : ∀ a, Holds reporting (free ((State.ofText source).rest.length + 1) false) (fun _ => nothing) (after a)
      (atEndOrReport a) (atEndOrReport a) after := by
    intro a
    have hlooks : Looks (ask State.atEnd) fun _ _ rest => rest.isEmpty := fun _ _ => rfl
    refine inherited_reporting.look hlooks fun ended => ?_
    cases ended with
    | true => exact inherited_reporting.ret (.refl _)
    | false =>
      refine inherited_reporting.next (inherited_reporting.reported (reports_expected .endOfInput)) fun _ => ?_
      exact inherited_reporting.ret (.refl _)
  have hwhole := inherited_reporting.next (inherited_reporting.withGrammar h) hend
  have hadmits : (free ((State.ofText source).rest.length + 1) false).Admits (State.ofText source) :=
    ⟨Nat.lt_succ_self _, trivial⟩
  obtain ⟨r, s', hreasons, hrun⟩ := hwhole.trait (.ofText source .collectAll) (State.ofText source) rfl hadmits
  have hhere := hrun []
  have hsame : s'.above [] = s' := by
    unfold State.above State.withDiagnostics
    rw [List.append_nil]
  rw [hsame] at hhere
  have hloud : r = none → s'.diagnostics ≠ [] := by
    rintro rfl
    exact hwhole.steady.dirty hadmits hhere
  intro d hd
  have hverdict : verdict problem source (r, s') = .error ds := by
    rw [← hds, parseOnly_eq]
    exact congrArg (verdict problem source) hhere.symm
  rcases mem_of_verdict_eq_error hverdict hloud d hd with hlexical | hown
  · obtain ⟨e, -, rfl⟩ := List.mem_map.mp hlexical
    exact ⟨nofun, nofun⟩
  · exact hreasons d hown

end Texts

end Parser

open Bluespec.Parser

/-- Wherever a production fails it has added a diagnostic, and kept those that were there.  So a text is never
rejected for no known reason. -/
theorem failures_reported :
    (∀ (m : Nat) (α : Type) (p : Parser α), (Grammar.upTo m).Production p → ∀ (c : Setting) (s s' : State),
      c.recovery = .collectAll → s.rest.length < m → p c s = (none, s') →
      ∃ added, added ≠ [] ∧ s'.diagnostics = added ++ s.diagnostics) ∧
    (∀ source ds, parseExpression source = .error ds → ∀ d ∈ ds, d.problem.HasReason) ∧
    ∀ dialect source ds, parseStatement dialect source = .error ds → ∀ d ∈ ds, d.problem.HasReason := by
  refine ⟨fun m α p hp c s s' hc hs hrun => ?_, fun source ds hds => ?_, fun dialect source ds hds => ?_⟩
  · obtain ⟨n, rfl⟩ := Nat.exists_eq_succ_of_ne_zero (Nat.ne_zero_of_lt hs)
    exact hp.loud c s s' hc hs hrun
  · exact hasReason_of_parseOnly (fun m hg => inherited_reporting.free_of_past (inherited_reporting.expr hg 0)) hds
  · exact hasReason_of_parseOnly (fun m hg => inherited_reporting.stmt hg dialect) hds

/-- A chain of conditions is taken back with what it has reported, and the parenthesis that is not closed is
reported all the same. -/
theorem failures_reported_of_conditions :
    let tokens : List Token := [⟨.punct .lparen, "(", ⟨0, 1⟩⟩, ⟨.ident, "a", ⟨1, 2⟩⟩,
      ⟨.punct .ampAmpAmp, "&&&", ⟨2, 5⟩⟩, ⟨.punct .semi, ";", ⟨5, 6⟩⟩]
    ∃ s', (Grammar.upTo 5).expr 0 ⟨6, .collectAll⟩ (.start tokens) = (none, s') ∧
      ∃ added, added ≠ [] ∧ s'.diagnostics = added ++ [] := by
  intro tokens
  refine ⟨_, rfl, failures_reported.1 5 Expr _ (.expr 0) ⟨6, .collectAll⟩ (.start tokens) _ rfl ?_ rfl⟩
  exact Nat.lt_succ_self 4

end Bluespec
