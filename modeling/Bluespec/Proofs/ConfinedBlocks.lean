import Bluespec.Proofs.ConfinedStatements

/-!
# Blocks are confined

* **`Inner.block`** — statements of a dialect between two words.
* **`Inner.blockItem`**, **`Inner.valueBlock`** — statements with a result.
* **`Inner.interfaceExpr`** — an interface that stands for a value.
-/

namespace Bluespec

open Bluespec.Parser

namespace Parser

variable {α β : Type} {tokens : List Token} {n : Nat} {H : Option Kind → Prop} {r u : Bool}
  {F : β → List Token → Prop} {Q : β → Prop}

theorem advances_stmt (dialect : Dialect) : Advances (Grammar.full.innerStmt dialect) := by
  intro c s a s' hrun
  rw [Grammar.innerStmt_eq] at hrun
  exact ((steady_stmt dialect s.rest.length).tells ⟨Nat.lt_succ_self _, trivial⟩ hrun).read rfl

theorem steady_interfaceStmt (k : Nat) :
    Steady (.free (k + 1) false) (fun _ => .reading) Grammar.full.interfaceStmt :=
  have hstmt : Holds sameRuns (.free (k + 1) false) (fun _ => .reading) [] (Grammar.upTo (k + 1)).interfaceStmt
      Grammar.full.interfaceStmt fun s => [] ++ s.declared :=
    Inherited.interfaceStmt inherited_sameRuns (level_full (Nat.le_refl _)) []
  hstmt.steady_full

theorem advances_interfaceStmt : Advances Grammar.full.interfaceStmt :=
  fun _ s _ _ hrun => ((steady_interfaceStmt s.rest.length).tells ⟨Nat.lt_succ_self _, trivial⟩ hrun).read rfl

end Parser

/-! ## What can be assigned to -/

namespace Grammar

variable {g : Grammar} {c : Setting} {s s' : State} {e : Expr}

theorem valueBlock_form : Results (fun form => form.isLvalue = false) g.valueBlock :=
  .bind fun _ => .bind fun _ => .bind fun _ => .bind fun _ => .bind fun _ => .value rfl

theorem interfaceExpr_form : Results (fun form => form.isLvalue = false) g.interfaceExpr :=
  .bind fun _ => .bind fun _ => .bind fun _ => .bind fun _ => .bind fun _ => .bind fun _ => .value rfl

/-- What can be assigned to begins with a name, or in parentheses. -/
def LvalueHead (k : Option Kind) : Prop := k = some .ident ∨ k = some (.punct .lparen)

theorem primary_head_of_lvalue (h : g.primary c s = (some e, s')) :
    e.isLvalue = true → LvalueHead s.peek := by
  obtain ⟨start, s₁, hstart, h⟩ := bind_eq_some.mp h
  cases hstart
  refine Results.peeking (P := fun k e => e.isLvalue = true → LvalueHead k) (fun k => ?_) h
  have hplain : ∀ (k : Option Kind) (form : ExprForm), form.isLvalue = false → ∀ start,
      Results (fun e : Expr => e.isLvalue = true → LvalueHead k)
        (spanFrom start >>= fun span => pure (Expr.mk form span)) :=
    fun _ form hform _ => .spanning fun _ he => absurd (hform.symm.trans he) nofun
  split
  · exact fun _ _ _ _ _ _ => .inl rfl
  · refine .bind fun _ => .bind fun b => ?_
    split
    · exact .bind fun _ => hplain _ _ rfl _
    · exact hplain _ _ rfl _
  · exact .bind fun _ => hplain _ _ rfl _
  · exact .bind fun _ => hplain _ _ rfl _
  · exact .bind fun _ => hplain _ _ rfl _
  · exact .bind fun _ => hplain _ _ rfl _
  · exact .bind fun _ => hplain _ _ rfl _
  · exact fun _ _ _ _ _ _ => .inr rfl
  · exact .bind fun _ => hplain _ _ rfl _
  · exact valueBlock_form.seq fun form hform => hplain _ form hform _
  · exact .bind fun _ => hplain _ _ rfl _
  · exact .bind fun _ => hplain _ _ rfl _
  · exact .bind fun _ => .bind fun _ => .bind fun _ => hplain _ _ rfl _
  · exact interfaceExpr_form.seq fun form hform => hplain _ form hform _
  · exact .bind fun _ => .bind fun _ => .bind fun _ => .bind fun _ => hplain _ _ rfl _
  · exact .bind fun _ => .bind fun _ => .fail
  · exact .bind fun _ => .fail

theorem selection_form (base : Expr) : Results (fun form => form.isLvalue = base.isLvalue) (g.selection base) := by
  refine .bind fun _ => .bind fun hi => .bind fun b => ?_
  split <;> exact .bind fun lo => .bind fun _ => .value rfl

theorem memberOf_form (base : Expr) :
    Results (fun form => form.isLvalue = true → base.isLvalue = true) (g.memberOf base) := by
  refine .bind fun _ => .bind fun name => .bind fun b => ?_
  split
  · exact .bind fun _ => .value nofun
  · exact .value id

/-- What can be assigned to has suffixes of something that can. -/
theorem suffix_form {P : Prop} {base : Expr} (h : base.isLvalue = true → P) :
    Results (RoundKeeps fun e => e.isLvalue = true → P) (g.suffix base) := by
  refine .bind fun k => ?_
  split
  · exact .bind fun _ => .spanning fun _ => nofun
  · exact (selection_form base).seq fun form hform => .spanning fun _ he => h (hform.symm.trans he)
  · exact (memberOf_form base).seq fun form hform => .spanning fun _ he => h (hform he)
  · exact .value h

theorem operand_head_of_lvalue (h : g.operand c s = (some e, s')) (he : e.isLvalue = true) :
    LvalueHead s.peek := by
  obtain ⟨first, s₁, hfirst, h⟩ := bind_eq_some.mp h
  exact Results.repeatUntil (P := fun e => e.isLvalue = true → LvalueHead s.peek) (fun _ => suffix_form)
    (primary_head_of_lvalue hfirst) c s₁ e s' h he

end Grammar

namespace Inner

variable {tokens : List Token} {n : Nat} {H : Option Kind → Prop} {u : Bool}

/-! ## Statement blocks -/

/-- A label and statements behind it. -/
def labelled (g : Grammar) (dialect : Dialect) : Parser (Option Label × List Stmt) := do
  let openLabel ← label
  let stmts ← items (g.innerStmt dialect)
  return (openLabel, stmts)

theorem block_eq (g : Grammar) (dialect : Dialect) (opening closing : Keyword) : g.block dialect opening closing = (do
    let start ← offset
    expectKeyword opening
    let x ← labelled g dialect
    expectKeyword closing
    let closeLabel ← label
    return ⟨⟨x.1, closeLabel⟩, x.2, ← spanFrom start, dialect⟩) := by
  simp only [Grammar.block, labelled, Parser.bind_assoc, Parser.pure_bind]

theorem labelled_confined (h : Inner tokens n) (dialect : Dialect) : Confined tokens n any false true never
    (fun x => ∀ s ∈ x.2, AllSites (Site.Alone tokens) (s.sites dialect)) (labelled Grammar.full dialect) := by
  refine .pass .never .label fun openLabel => ?_
  exact .passKeep .never (.items (h.stmt dialect).part (advances_stmt dialect)) fun stmts => .ret id

theorem block (h : Inner tokens n) (dialect : Dialect) {opening closing : Keyword} (hpair : opening.Pair closing) :
    Confined tokens (n + 1) H true u (fun _ => Lacks (.punct .colon)) (fun b => AllSites (Site.Alone tokens) b.sites)
      (Grammar.full.block dialect opening closing) := by
  rw [block_eq]
  refine .offset fun start => .between hpair (h.labelled_confined dialect) fun x => ?_
  refine .pass .same .label fun closeLabel => .spanned fun span hstmts => ?_
  exact Stmt.allSitesIn.mpr hstmts

/-! ## Blocks with a result -/

/-- What is claimed of an item of a block with a result. -/
def ItemSites (tokens : List Token) : Grammar.BlockItem → Prop
  | .stmt s => AllSites (Site.Alone tokens) (s.sites .expression)
  | .result e => AllSites (Site.Alone tokens) e.sites

/-- What follows the first expression of an assignment, or of a result with a semicolon, by the next token. -/
def assignTail (g : Grammar) (start : Nat) (target : Expr) (k : Option Kind) : Parser Grammar.BlockItem := do
  match k with
  | some (.punct .semi) =>
    if (← ask fun s => s.nth 1) == some (.keyword .end_) then
      skip
      return .result target
    else g.blockStmtTail start target
  | _ => g.blockStmtTail start target

/-- What follows the first operand of a result. -/
def resultTail (g : Grammar) (target : Expr) : Parser Grammar.BlockItem := do
  let result ← g.operations 0 target
  let _ ← eat (.punct .semi)
  return .result result

/-- Whether an assignment may follow an operand, or a semicolon. -/
def endsTarget : Option Kind → Bool
  | some (.punct .eq) | some (.punct .larrow) | some (.punct .semi) => true
  | _ => false

/-- An operand, and the offset where it starts. -/
def startedOperand (g : Grammar) : Parser (Nat × Expr) := do
  let start ← offset
  let target ← g.innerOperand
  return (start, target)

/-- An item of a block with a result that begins with an operand. -/
def operandItem (g : Grammar) : Parser Grammar.BlockItem := do
  let x ← startedOperand g
  let k ← peek
  if endsTarget k then peek >>= assignTail g x.1 x.2 else resultTail g x.2

/-- What follows the operand, by the next token. -/
theorem tail_eq (g : Grammar) (start : Nat) (target : Expr) (k : Option Kind) : (match k with
    | some (.punct .eq) | some (.punct .larrow) => g.blockStmtTail start target
    | some (.punct .semi) => do
      if (← ask fun s => s.nth 1) == some (Kind.keyword .end_) then
        skip
        return .result target
      else g.blockStmtTail start target
    | _ => resultTail g target) = if endsTarget k = true then assignTail g start target k else resultTail g target := by
  split
  · rfl
  · rfl
  · rfl
  · next heq hlarrow hsemi =>
    refine (if_neg ?_).symm
    unfold endsTarget
    split
    · exact (heq rfl).elim
    · exact (hlarrow rfl).elim
    · exact (hsemi rfl).elim
    · exact nofun

theorem blockItem_eq (g : Grammar) : g.blockItem = (do
    let k ← peek
    if (k.map Grammar.startsStmt).getD false then return .stmt (← g.innerStmt .expression)
    else if ← atTypedDecl then return .stmt (← g.innerStmt .expression)
    else operandItem g) := by
  have hpeek : ∀ c s, peek c s = (some s.peek, s) := fun _ _ => rfl
  funext c s
  rw [Grammar.blockItem, Grammar.atBlockStmt, Parser.bind_assoc, bind_of_some (hpeek c s), bind_of_some (hpeek c s)]
  split
  · rfl
  · rw [bind_apply, bind_apply, atTypedDecl_eq]
    cases s.peek.any startsTyped && typeAndName c s with
    | true => rfl
    | false =>
      have hoffset : offset c s = (some (s.peekSpan c).start, s) := rfl
      show (offset >>= _) c s = (startedOperand g >>= _) c s
      rw [bind_of_some hoffset]
      rcases hop : g.innerOperand c s with ⟨_ | target, s₁⟩
      · have hstarted : startedOperand g c s = (none, s₁) := by
          rw [startedOperand, bind_of_some hoffset, bind_of_none hop]
        rw [bind_of_none hop, bind_of_none hstarted]
      · have hstarted : startedOperand g c s = (some ((s.peekSpan c).start, target), s₁) := by
          rw [startedOperand, bind_of_some hoffset, bind_of_some hop]
          rfl
        rw [bind_of_some hop, bind_of_some hstarted, bind_of_some (hpeek c s₁), bind_of_some (hpeek c s₁)]
        refine (congrArg (fun p : Parser Grammar.BlockItem => p c s₁) (tail_eq g _ target s₁.peek)).trans ?_
        split
        · rfl
        · rfl


theorem blockStmtTail (h : Inner tokens n) (start : Nat) (target : Expr) :
    Confined tokens n any true true anything (fun _ => True) (Grammar.full.blockStmtTail start target) :=
  .seq false .any (h.simpleTail target) fun _ => .permitSimple (.spanned fun _ => trivial)

theorem assignTail_confined (h : Inner tokens n) (start : Nat) (target : Expr) :
    Confined tokens n any true true never (fun _ => True) (peek >>= assignTail Grammar.full start target) := by
  have htail : ∀ k, Confined tokens n (· = k) true true never (fun _ => True) (Grammar.full.blockStmtTail start target) :=
    fun _ => (h.blockStmtTail start target).anywhere.narrow fun _ _ h => h.elim
  refine .peek fun k => ?_
  unfold assignTail
  split
  · refine .lookTwo (fun rest => State.nth ⟨[], rest, [], []⟩ 1) (fun _ _ => rfl) (fun _ _ _ _ => rfl)
      fun second => ?_
    split
    · exact .seq false .any (.skip rfl) fun _ => .ret trivial
    · exact htail _
  · exact htail _

/-- Fewer tokens are left. -/
theorem fewer (h : Inner tokens (n + 1)) : Inner tokens n where
  expr min := (h.expr min).lower
  operand := h.operand.lower
  stmt dialect := (h.stmt dialect).lower
  method := h.method.lower
  subinterface := h.subinterface.lower
  module := h.module.lower

/-- Operations on an inner operand make an expression. -/
theorem operandOperations (h : Inner tokens n) : Confined tokens n any true false (fun _ => ExprStops 0)
    (fun e => AllSites (Site.Alone tokens) e.sites) (Grammar.full.innerOperand >>= Grammar.full.operations 0) := by
  cases n with
  | zero =>
    refine .vacuous (Grammar.onward_full.operand.bind fun e => Grammar.onward_full.operations 0 e)
  | succ n =>
    have hoperand := h.operand
    rw [Grammar.innerOperand_eq] at hoperand ⊢
    exact h.fewer.operated isUnary_primary hoperand

theorem resultTail_confined (h : Inner tokens n) : Confined tokens n any true true never (ItemSites tokens)
    (startedOperand Grammar.full >>= fun x => resultTail Grammar.full x.2) := by
  have hassoc : (startedOperand Grammar.full >>= fun x => resultTail Grammar.full x.2) =
      offset >>= fun _ => (Grammar.full.innerOperand >>= Grammar.full.operations 0) >>= fun result =>
        eat (.punct .semi) >>= fun _ => pure (.result result) := by
    simp only [startedOperand, resultTail, Parser.bind_assoc, Parser.pure_bind]
  rw [hassoc]
  refine .offset fun _ => .keep false .never h.operandOperations.part fun result => ?_
  exact .eat rfl (.inr fun _ _ h => h.elim) (fun _ => .ret fun _ he => he) (.ret id)

/-- The target of a statement that may stand in a block with a result can be assigned to. -/
theorem simpleTail_lvalue (g : Grammar) (target : Expr) :
    Results (fun x => x.leaf? = none → target.isLvalue = true) (g.simpleTail target) := by
  refine .bind fun k => ?_
  split
  · refine .bind fun _ => .bind fun value => ?_
    split
    · next hlvalue => exact .spanning fun _ _ => hlvalue
    · exact .bind fun _ => .fail
  · exact .bind fun _ => .bind fun value => .spanning fun _ => nofun
  · split
    · exact .bind fun _ => .bind fun value => .spanning fun _ => nofun
    · exact .bind fun _ => .fail
  · exact .bind fun _ => .value nofun
  · exact .bind fun _ => .fail

/-- Whether a token of the kind tells at once what comes next where a statement is to begin. -/
def startsForm : Kind → Bool
  | .keyword .begin | .keyword .if_ | .keyword .return_ | .keyword .function | .keyword .module | .keyword .case
  | .keyword .for_ | .keyword .while_ | .keyword .action | .keyword .actionvalue | .keyword .let_ => true
  | .systemIdent | .punct .attrOpen => true
  | _ => false

/-- A statement that begins with no other token is a simple one. -/
theorem stmt_of_simple {g : Grammar} {c : Setting} {s : State} {k : Kind} (hpeek : s.peek = some k)
    (hk : startsForm k = false) (dialect : Dialect) :
    g.stmt dialect c s = ((if (s.peek.any startsTyped && typeAndName c s) = true then g.typedStmt
        else g.operand >>= g.simpleTail) >>= permitSimple dialect >>= fun form =>
      spanFrom (s.peekSpan c).start >>= fun span => pure (Stmt.mk form span)) c s := by
  have hne : ∀ k', startsForm k' = true → s.peek ≠ some k' := by
    rintro k' hk' h
    obtain rfl := Option.some.inj (hpeek.symm.trans h)
    exact Bool.false_ne_true (hk.symm.trans hk')
  have hattributes : skipAttributes c s = (some (), s) := by
    refine Confined.skipAttributes_of_lacks fun t ht hkind => hne (.punct .attrOpen) rfl ?_
    rw [State.peek, show s.rest.head? = some t from ht, ← hkind]
    rfl
  have hlet : isNext (.keyword .let_) c s = (some false, s) :=
    congrArg (fun b => (some b, s)) (beq_false_of_ne (hne _ rfl))
  have hsimple : g.simple c s = (if (s.peek.any startsTyped && typeAndName c s) = true then g.typedStmt
      else g.operand >>= g.simpleTail) c s := by
    rw [Grammar.simple, bind_of_some hlet]
    exact bind_of_some (atTypedDecl_eq c s)
  have hform : g.stmtForm dialect c s = (g.simple >>= permitSimple dialect) c s := by
    rw [Grammar.stmtForm, bind_of_some peek_eq, hpeek]
    cases k with
    | keyword w => cases w <;> first | rfl | cases hk
    | systemIdent => cases hk
    | _ => rfl
  rw [Grammar.stmt, bind_of_some hattributes, bind_of_some offset_eq,
    bind_apply, hform, bind_apply, hsimple, ← bind_apply, ← bind_apply]

/-- An assignment in a block with a result is a statement. -/
theorem stmt_of_blockStmtTail {c : Setting} {s s₁ s' : State} {target : Expr} {item : Grammar.BlockItem}
    (hoperand : Grammar.full.innerOperand c s = (some target, s₁))
    (htail : Grammar.full.blockStmtTail (s.peekSpan c).start target c s₁ = (some item, s')) :
    ∃ st, item = .stmt st ∧ Grammar.full.innerStmt .expression c s = (some st, s') := by
  obtain ⟨simple, s₂, hsimple, htail⟩ := bind_eq_some.mp htail
  obtain ⟨form, s₃, hpermit, htail⟩ := bind_eq_some.mp htail
  cases htail
  have hleaf : simple.leaf? = none := by
    cases hleaf : simple.leaf? with
    | none => rfl
    | some leaf =>
      rw [permitSimple, hleaf] at hpermit
      cases leaf <;> cases hpermit
  rw [Grammar.innerOperand_eq] at hoperand
  have hhead := Grammar.operand_head_of_lvalue hoperand (simpleTail_lvalue _ _ _ _ _ _ hsimple hleaf)
  obtain ⟨k, hpeek, hk, htyped⟩ : ∃ k, s.peek = some k ∧ startsForm k = false ∧ startsTyped k = false := by
    rcases hhead with hpeek | hpeek <;> exact ⟨_, hpeek, rfl, rfl⟩
  refine ⟨_, rfl, ?_⟩
  rw [Grammar.innerStmt_eq, stmt_of_simple hpeek hk, hpeek, Option.any_some, htyped, Bool.false_and,
    if_neg Bool.false_ne_true, Parser.bind_assoc, Parser.bind_assoc, bind_of_some hoperand, bind_of_some hsimple,
    bind_of_some hpermit]
  rfl

/-- A declaration with a type begins with the type and a name. -/
theorem typedStmt_reads {c : Setting} {s s' : State} {x : SimpleStmt}
    (h : Grammar.full.typedStmt c s = (some x, s')) :
    ∃ ty s₁ name s₂, type c s = (some ty, s₁) ∧ expect .ident c s₁ = (some name, s₂) ∧ s₂.Moves s' := by
  obtain ⟨start, s₀, hstart, h⟩ := bind_eq_some.mp h
  cases hstart
  obtain ⟨ty, s₁, htype, h⟩ := bind_eq_some.mp h
  obtain ⟨name, s₂, hname, h⟩ := bind_eq_some.mp h
  have hmoves : Moving (typedRest Grammar.full (s.peekSpan c).start ty name) :=
    ((Inner.zero []).typedRest_confined _ ty name).moves
  exact ⟨ty, s₁, name, s₂, htype, hname, hmoves.of_run h⟩

theorem stmt_reads {dialect : Dialect} {c : Setting} {s s' : State} {st : Stmt}
    (hstarts : s.peek.any startsTyped = true) (hnamed : typeAndName c s = true)
    (h : Grammar.full.innerStmt dialect c s = (some st, s')) :
    ∃ ty s₁ name s₂, type c s = (some ty, s₁) ∧ expect .ident c s₁ = (some name, s₂) ∧ s₂.Moves s' := by
  obtain ⟨k, hpeek, hk⟩ : ∃ k, s.peek = some k ∧ startsTyped k = true := by
    rcases hpeek : s.peek with _ | k
    · rw [hpeek] at hstarts
      cases hstarts
    · rw [hpeek] at hstarts
      exact ⟨k, rfl, hstarts⟩
  have hsimple : startsForm k = false := by
    unfold startsTyped at hk
    split at hk
    · rfl
    · rfl
    · cases hk
  rw [Grammar.innerStmt_eq, stmt_of_simple hpeek hsimple, hstarts, hnamed, if_pos (Bool.and_self _), Parser.bind_assoc] at h
  obtain ⟨x, s₁, htyped, h⟩ := bind_eq_some.mp h
  obtain ⟨ty, s₂, name, s₃, htype, hname, hmoves⟩ := typedStmt_reads htyped
  obtain ⟨form, s₄, hpermit, h⟩ := bind_eq_some.mp h
  cases h
  exact ⟨ty, s₂, name, s₃, htype, hname, hmoves.trans ((Moving.permitSimple dialect x).of_run hpermit)⟩

theorem isCommon_cases (k : Kind) : k.isCommon = true ∨ k = .punct .ampAmpAmp ∨ k = .punct .hash := by
  unfold Kind.isCommon
  split
  · exact .inr (.inl rfl)
  · exact .inr (.inr rfl)
  · exact .inl rfl

/-- Where the mark of parameters follows an operand, it is the result. -/
theorem resultTail_of_hash {c : Setting} {s : State} {t : Token} {ts : List Token} (target : Expr)
    (hrest : s.rest = t :: ts) (hk : t.kind = .punct .hash) :
    resultTail Grammar.full target c s = (some (.result target), s) := by
  have hsettled : Grammar.Settled 0 c s := by
    intro t' ht
    rw [hrest] at ht
    cases ht
    rw [hk]
    exact ⟨nofun, nofun, nofun, nofun⟩
  have hoperations : Grammar.full.operations 0 target c s = (some target, s) := Grammar.operations_of_settled hsettled target
  have heat : eat (.punct .semi) c s = (some none, s) := by
    rcases Confined.eat_cases (.punct .semi) c s with ⟨t', ts', hrest', hk', -⟩ | ⟨-, heat⟩
    · rw [hrest] at hrest'
      cases hrest'
      rw [hk] at hk'
      cases hk'
    · exact heat
  rw [resultTail, bind_of_some hoperations, bind_of_some heat]
  rfl

theorem startedOperand_eq_some {g : Grammar} {c : Setting} {s s' : State} {x : Nat × Expr}
    (h : startedOperand g c s = (some x, s')) :
    x.1 = (s.peekSpan c).start ∧ g.innerOperand c s = (some x.2, s') := by
  obtain ⟨start, s₁, hstart, h⟩ := bind_eq_some.mp h
  cases hstart
  obtain ⟨target, s₁, hoperand, h⟩ := bind_eq_some.mp h
  cases h
  exact ⟨rfl, hoperand⟩

theorem assignTail_cases (g : Grammar) (start : Nat) (target : Expr) (k : Option Kind) :
    assignTail g start target k = g.blockStmtTail start target ∨ assignTail g start target k = (do
      if (← ask fun s => s.nth 1) == some (Kind.keyword .end_) then
        skip
        return .result target
      else g.blockStmtTail start target) := by
  unfold assignTail
  split
  · exact .inr rfl
  · exact .inl rfl

/-- Where a mark of parameters follows a name of a type, the name is the result. -/
theorem operandItem_of_hash {c : Setting} {s s' : State} {t t' : Token} {ts : List Token} {item : Grammar.BlockItem}
    (hrest : s.rest = t :: t' :: ts) (hk : t.kind = .typeIdent) (hk' : t'.kind = .punct .hash)
    (hrun : operandItem Grammar.full c s = (some item, s')) : s'.rest = t' :: ts := by
  obtain ⟨cs, rest, ds, ns⟩ := s
  cases hrest
  have hlacks : ∀ k, k ≠ .punct .hash → Lacks k (t' :: ts) := by
    rintro k hne t'' ht rfl
    cases ht
    exact hne hk'
  obtain ⟨e, hoperand⟩ : ∃ e, Grammar.full.operand c ⟨cs, t :: t' :: ts, ds, ns⟩ = (some e, ⟨t :: cs, t' :: ts, ds, ns⟩) :=
    Grammar.operand_of_typeIdent hk (hlacks _ nofun) (fun t'' ht => by cases ht; rw [hk']; rfl)
  rw [← Grammar.innerOperand_eq] at hoperand
  obtain ⟨x, s₁, hstarted, hrun⟩ := bind_eq_some.mp hrun
  obtain ⟨-, hoperand'⟩ := startedOperand_eq_some hstarted
  rw [hoperand] at hoperand'
  obtain ⟨-, rfl⟩ := Prod.mk.inj hoperand'
  replace hrun : (if endsTarget (some t'.kind) = true then peek >>= assignTail Grammar.full x.1 x.2 else
    resultTail Grammar.full x.2) c ⟨t :: cs, t' :: ts, ds, ns⟩ = (some item, s') := hrun
  rw [hk', if_neg (by decide), resultTail_of_hash x.2 rfl hk'] at hrun
  cases hrun
  rfl

theorem operandItem_confined (h : Inner tokens n) :
    Confined tokens n any true true never (ItemSites tokens) (operandItem Grammar.full) := by
  have hstarted : Confined tokens n any true true (fun _ => OperandStops)
      (fun x => AllSites (Site.Alone tokens) x.2.sites) (startedOperand Grammar.full) :=
    .offset fun start => .keep false .same h.operand.part fun target => .ret id
  refine .either hstarted (fun x => h.assignTail_confined x.1 x.2) h.resultTail_confined (fun x => ?_) ?_ ?_
  · refine (Grammar.onward_full.operations 0 x.2).bind fun result => (Moving.eat _).bind fun _ => ?_
    exact .value _
  · intro c s x s₁ item s' hs hfirst _ hrun hclean
    have hmoves := (h.assignTail_confined x.1 x.2).moves
    obtain ⟨hsites, -⟩ := hstarted.runs c s x s₁ hs hfirst ((hmoves.of_run hrun).clean hclean)
    obtain ⟨hstart, hoperand⟩ := startedOperand_eq_some hfirst
    have hassigned : Grammar.full.blockStmtTail x.1 x.2 c s₁ = (some item, s') → ItemSites tokens item := by
      intro htail
      rw [hstart] at htail
      obtain ⟨st, rfl, hstmt⟩ := stmt_of_blockStmtTail hoperand htail
      exact ((h.stmt .expression).runs c s st s' hs hstmt hclean).1
    replace hrun : assignTail Grammar.full x.1 x.2 s₁.peek c s₁ = (some item, s') := hrun
    rcases assignTail_cases Grammar.full x.1 x.2 s₁.peek with htail | htail <;> rw [htail] at hrun
    · exact hassigned hrun
    · obtain ⟨second, s₂, hsecond, hrun⟩ := bind_eq_some.mp hrun
      cases hsecond
      split at hrun
      · cases hrun
        exact hsites
      · exact hassigned hrun
  · intro x c s item s' t us hrun hrest hle
    rcases isCommon_cases t.kind with hcommon | hk | hk
    · exact .inl hcommon
    · refine .inr fun rest t' ht => ?_
      cases ht
      exact .inl (by rw [hk]; rfl)
    · rw [resultTail_of_hash x.2 hrest hk] at hrun
      cases hrun
      rw [hrest, List.length_cons] at hle
      exact absurd hle (Nat.not_succ_le_self _)

theorem blockItem (h : Inner tokens n) :
    Confined tokens n any true true never (ItemSites tokens) Grammar.full.blockItem := by
  have hstmt : ∀ H, Confined tokens n H true true never (ItemSites tokens)
      (Grammar.full.innerStmt .expression >>= fun s => pure (.stmt s)) := fun H =>
    .keep false .never (h.stmt .expression).part fun s => .ret id
  rw [blockItem_eq]
  refine .peek fun k => ?_
  split
  · exact hstmt _
  · refine .atTypedDecl (hstmt _) h.operandItem_confined.anywhere ?_ ?_ ?_ (.inr fun _ _ h => h.elim)
    · intro c s item s' hstarts hnamed hrun
      obtain ⟨st, s₁, hrun, hdone⟩ := bind_eq_some.mp hrun
      cases hdone
      exact stmt_reads hstarts hnamed hrun
    · intro c s item s' hbit hrun
      obtain ⟨x, s₁, hstarted, -⟩ := bind_eq_some.mp hrun
      obtain ⟨-, hoperand⟩ := startedOperand_eq_some hstarted
      rw [Grammar.innerOperand_eq] at hoperand
      obtain ⟨e, s₂, hprimary, -⟩ := bind_eq_some.mp hoperand
      obtain ⟨k, hpeek, hk⟩ := Grammar.primary_head hprimary
      rw [hbit] at hpeek
      cases hpeek
      cases hk
    · intro c s item s' t ts hrest hk hrun hclean
      cases ts with
      | nil => exact .inr nofun
      | cons t' ts =>
        by_cases hk' : t'.kind = .punct .hash
        · exact .inl (operandItem_of_hash hrest hk hk' hrun)
        · exact .inr fun t'' ht => by cases ht; exact hk'

/-! ### All items -/

theorem advances_blockItem : Advances Grammar.full.blockItem := by
  intro c s item s' hrun
  have hitem : Holds sameRuns (.free (s.rest.length + 1) false) (fun _ => .reading) []
      (Grammar.upTo (s.rest.length + 1)).blockItem Grammar.full.blockItem fun item => [] ++ Inherited.blockItemDeclared item :=
    Inherited.blockItem inherited_sameRuns (level_full (Nat.le_refl _))
  exact (hitem.steady_full.tells ⟨Nat.lt_succ_self _, trivial⟩ hrun).read rfl

/-- One item more, or the result. -/
def itemRound (g : Grammar) (read : List Stmt) : Parser (Round (List Stmt) (List Stmt × Expr)) := do
  if ← halted then fail
  else
    if ← ask State.atCloser then failExpected .expression
    else
      match ← resuming g.blockItem with
      | none => return .again read
      | some (.stmt s) => return .again (read ++ [s])
      | some (.result e) => return .done (read, e)

theorem itemRound_reads {read read' : List Stmt} {c : Setting} {s s' : State}
    (hrun : itemRound Grammar.full read c s = (some (.again read'), s')) : s'.rest.length < s.rest.length := by
  obtain ⟨stop, s₁, hhalt, hrun⟩ := bind_eq_some.mp hrun
  cases hhalt
  split at hrun
  · cases hrun
  obtain ⟨closes, s₁, hcloser, hrun⟩ := bind_eq_some.mp hrun
  cases hcloser
  split at hrun
  · cases hrun
  · next hopen =>
    obtain ⟨r, s₁, hitem, hrun⟩ := bind_eq_some.mp hrun
    have hmoves : Moving Grammar.full.blockItem := ((Inner.zero []).blockItem).moves
    have hlt := Confined.resuming_advances hmoves (fun b => advances_blockItem c s b s₁) (Bool.not_eq_true _ ▸ hopen)
      hitem
    rcases r with _ | s | e <;> cases hrun
    · exact hlt
    · exact hlt

theorem itemRound_confined (h : Inner tokens n) (read : List Stmt) : Confined tokens n any true true never
    (fun x => (∀ s ∈ read, AllSites (Site.Alone tokens) (s.sites .expression)) →
      Round.Ends (fun ss => ∀ s ∈ ss, AllSites (Site.Alone tokens) (s.sites .expression))
        (fun r => (∀ s ∈ r.1, AllSites (Site.Alone tokens) (s.sites .expression)) ∧
          AllSites (Site.Alone tokens) r.2.sites) x) (itemRound Grammar.full read) := by
  refine .unlessHalted (.atCloser ?_)
  have hitem : Confined tokens n any true true never (fun a => ∃ b, a = some b ∧ ItemSites tokens b)
      (resuming Grammar.full.blockItem) := h.blockItem.resuming fun _ _ h => h.elim
  refine .keep false .never hitem fun r => ?_
  rcases r with _ | s | e
  · exact .ret fun ⟨_, h, _⟩ => nomatch h
  · refine .ret fun ⟨_, heq, hs⟩ hread => List.forall_mem_append.mpr ⟨hread, List.forall_mem_singleton.mpr ?_⟩
    cases heq
    exact hs
  · refine .ret fun ⟨_, heq, he⟩ hread => ⟨hread, ?_⟩
    cases heq
    exact he

theorem blockItems (h : Inner tokens n) : Confined tokens n any true true never
    (fun r => (∀ s ∈ r.1, AllSites (Site.Alone tokens) (s.sites .expression)) ∧
      AllSites (Site.Alone tokens) r.2.sites) Grammar.full.blockItems :=
  (Confined.rounds h.itemRound_confined (fun _ _ _ _ _ => itemRound_reads) (fun _ _ h => h) (.inl rfl) []).imp
    fun _ hr => hr nofun

theorem valueBlock_eq (g : Grammar) : g.valueBlock = (do
    expectKeyword .begin
    let x ← (do
      let openLabel ← label
      let r ← g.blockItems
      return (openLabel, r) : Parser (Option Label × List Stmt × Expr))
    expectKeyword .end_
    let closeLabel ← label
    return .valueBlock ⟨x.1, closeLabel⟩ x.2.1 x.2.2) := by
  simp only [Grammar.valueBlock, Parser.bind_assoc, Parser.pure_bind]

/-- A label, statements and a result. -/
theorem valueBlockBody (h : Inner tokens n) : Confined tokens n any true true never
    (fun x => (∀ s ∈ x.2.1, AllSites (Site.Alone tokens) (s.sites .expression)) ∧
      AllSites (Site.Alone tokens) x.2.2.sites)
    (label >>= fun openLabel => Grammar.full.blockItems >>= fun r => pure (openLabel, r)) := by
  refine .pass .reads .label fun openLabel => ?_
  exact h.blockItems.keep false .never fun _ => .ret id

theorem valueBlock (h : Inner tokens n) : Confined tokens (n + 1) H true u (fun _ => Lacks (.punct .colon))
    (fun form => AllSites (Site.Alone tokens) form.sites) Grammar.full.valueBlock := by
  rw [valueBlock_eq]
  refine .between (.inl ⟨rfl, rfl⟩) h.valueBlockBody fun x => ?_
  refine .pass .same .label fun closeLabel => .ret fun ⟨hstmts, hresult⟩ => ?_
  exact allSites_append.mpr ⟨Stmt.allSitesIn.mpr hstmts, hresult⟩

/-! ## Interfaces -/

theorem interfaceStmt (h : Inner tokens n) : Confined tokens n any true true never
    (fun s => AllSites (Site.Alone tokens) s.sites) Grammar.full.interfaceStmt := by
  refine .skipAttributes (.peek fun k => ?_)
  split
  · exact .keep false .never h.method.behind fun d => .ret id
  · exact .keep false .never h.subinterface.behind fun d => .ret id
  · exact .keep false .never (h.stmt .expression).part fun s => .ret id

theorem interfaceExpr (h : Inner tokens n) : Confined tokens (n + 1) (· = some (.keyword .interface)) true u
    (fun _ => Lacks (.punct .colon)) (fun form => AllSites (Site.Alone tokens) form.sites)
    Grammar.full.interfaceExpr := by
  refine .enter true .any (.skip rfl) fun _ => .seq true .reads .type fun type => ?_
  refine .seq true .any (.expectPunct rfl) fun _ => ?_
  refine .passKeep .reads (.items h.interfaceStmt advances_interfaceStmt) fun stmts => ?_
  refine .seq false .any (.expectKeyword rfl) fun _ => .pass .same .label fun endLabel => .ret fun hstmts => ?_
  exact InterfaceStmt.allSitesIn.mpr hstmts

end Inner

end Bluespec
