import Bluespec.Proofs.FirstProblems
import Bluespec.Proofs.FullGrammar
import Bluespec.Proofs.Layout
import Bluespec.Proofs.PermittedStatements
import Bluespec.Proofs.TrackedDefinitions
import Bluespec.Proofs.WholeTexts

/-!
# A dialect only filters

Which dialect a statement is read in decides about nothing but which of its leaves may stand there.  So a text that
one dialect accepts is accepted by another one with the same tree if all leaves are permitted there, and otherwise is
rejected at the first leaf that is not.

* **`Stmt.leaves`** — the leaves of a statement, in the order of the source; **`Stmt.inDialect`** — the statement with
  another dialect.
* **`Filtered`** — what a run in one dialect says about the run in another one.
* **`parseStatement_filtered`** — what acceptance by one dialect says about another one.
-/

namespace Bluespec

/-! ## Leaves -/

/-- A leaf statement, and where it begins. -/
structure LeafAt where
  /-- What the statement is called. -/
  leaf : Leaf
  /-- Where it begins. -/
  start : Nat
deriving DecidableEq, Repr

mutual

/-- The block of actions that an operand begins with, behind whatever parentheses. -/
def Expr.leadingBlock? : Expr → Option Block
  | ⟨form, _⟩ => form.leadingBlock?

/-- The block of actions that a form of an operand begins with. -/
def ExprForm.leadingBlock? : ExprForm → Option Block
  | .actionBlock b | .actionValueBlock b => some b
  | .call callee _ => callee.leadingBlock?
  | .methodCall receiver _ _ => receiver.leadingBlock?
  | .field base _ => base.leadingBlock?
  | .select base _ _ => base.leadingBlock?
  | _ => none

end

/-- What a statement is called that begins at an offset and is an expression. -/
def Expr.leaf (e : Expr) (start : Nat) : Leaf :=
  match e.leadingBlock? with
  | some b => if b.span.start = start then .actionBlock else .exprStatement
  | none => .exprStatement

mutual

/-- The leaves of a statement in its own dialect, in the order of the source. -/
def Stmt.leaves : Stmt → List LeafAt
  | ⟨form, span⟩ => form.leaves span.start

/-- The leaves of a form of a statement that begins at an offset. -/
def StmtForm.leaves (start : Nat) : StmtForm → List LeafAt
  | .regWrite _ => [⟨.registerWrite, start⟩]
  | .bind _ => [⟨.bind, start⟩]
  | .expr e => [⟨e.leaf start, start⟩]
  | .return_ _ => [⟨.return_, start⟩]
  | .block b => b.leaves
  | .cond _ a none => a.leaves
  | .cond _ a (some b) => a.leaves ++ b.leaves
  | _ => []

/-- The leaves of a block of statements. -/
def Block.leaves : Block → List LeafAt
  | ⟨_, ss, _, _⟩ => Stmt.leavesIn ss

/-- The leaves of statements. -/
def Stmt.leavesIn : List Stmt → List LeafAt
  | [] => []
  | s :: ss => s.leaves ++ Stmt.leavesIn ss

end

mutual

/-- The statement with another dialect. -/
def Stmt.inDialect (dialect : Dialect) : Stmt → Stmt
  | ⟨form, span⟩ => ⟨form.inDialect dialect, span⟩

/-- The form of a statement with another dialect. -/
def StmtForm.inDialect (dialect : Dialect) : StmtForm → StmtForm
  | .block b => .block (b.inDialect dialect)
  | .cond p a none => .cond p (a.inDialect dialect) none
  | .cond p a (some b) => .cond p (a.inDialect dialect) (some (b.inDialect dialect))
  | form => form

/-- The block of statements with another dialect. -/
def Block.inDialect (dialect : Dialect) : Block → Block
  | ⟨labels, ss, span, _⟩ => ⟨labels, Stmt.allInDialect dialect ss, span, dialect⟩

/-- The statements with another dialect. -/
def Stmt.allInDialect (dialect : Dialect) : List Stmt → List Stmt
  | [] => []
  | s :: ss => s.inDialect dialect :: Stmt.allInDialect dialect ss

end

theorem Stmt.leavesIn_eq (ss : List Stmt) : Stmt.leavesIn ss = ss.flatMap Stmt.leaves := by
  induction ss with
  | nil => rfl
  | cons s ss ih => exact congrArg (s.leaves ++ ·) ih

theorem Stmt.allInDialect_eq (dialect : Dialect) (ss : List Stmt) :
    Stmt.allInDialect dialect ss = ss.map (Stmt.inDialect dialect) := by
  induction ss with
  | nil => rfl
  | cons s ss ih => exact congrArg (s.inDialect dialect :: ·) ih

theorem StmtForm.inDialect_cond (dialect : Dialect) (p : Predicate) (a : Stmt) (b : Option Stmt) :
    (StmtForm.cond p a b).inDialect dialect = .cond p (a.inDialect dialect) (b.map (Stmt.inDialect dialect)) := by
  cases b <;> rfl

/-- The first of some leaves that a dialect does not permit. -/
def Dialect.firstForbidden (dialect : Dialect) (xs : List LeafAt) : Option LeafAt :=
  xs.find? fun x => !dialect.permits x.leaf

theorem Dialect.firstForbidden_append (dialect : Dialect) (xs ys : List LeafAt) :
    dialect.firstForbidden (xs ++ ys) = (dialect.firstForbidden xs).or (dialect.firstForbidden ys) :=
  List.find?_append

/-- A simple statement begins at an offset, and is a leaf there by the name that it is checked by. -/
def SimpleStmt.BeginsAt (start : Nat) (x : SimpleStmt) : Prop :=
  x.span.start = start ∧ x.form.leaves start = x.leaf?.toList.map (LeafAt.mk · start)

theorem SimpleStmt.inDialect_form (dialect : Dialect) (x : SimpleStmt) : x.form.inDialect dialect = x.form := by
  cases x <;> rfl

/-- Leaves stand in turn between two offsets. -/
structure LeavesBetween (start stop : Nat) (xs : List LeafAt) : Prop where
  after : ∀ x ∈ xs, start ≤ x.start
  before : ∀ x ∈ xs, x.start ≤ stop
  inTurn : xs.Pairwise (·.start ≤ ·.start)

namespace LeavesBetween

variable {start start' stop stop' : Nat} {xs ys : List LeafAt}

theorem nil : LeavesBetween start stop [] := ⟨nofun, nofun, .nil⟩

theorem single {x : LeafAt} (hstart : start ≤ x.start) (hstop : x.start ≤ stop) : LeavesBetween start stop [x] :=
  ⟨fun _ h => List.mem_singleton.mp h ▸ hstart, fun _ h => List.mem_singleton.mp h ▸ hstop,
    List.pairwise_singleton _ _⟩

theorem append (h : LeavesBetween start start' xs) (h' : LeavesBetween start' stop ys) (hle : start ≤ start')
    (hle' : start' ≤ stop) : LeavesBetween start stop (xs ++ ys) := by
  refine ⟨fun x hx => ?_, fun x hx => ?_, List.pairwise_append.mpr ⟨h.inTurn, h'.inTurn, fun x hx y hy => ?_⟩⟩
  · rcases List.mem_append.mp hx with hx | hx
    · exact h.after x hx
    · exact Nat.le_trans hle (h'.after x hx)
  · rcases List.mem_append.mp hx with hx | hx
    · exact Nat.le_trans (h.before x hx) hle'
    · exact h'.before x hx
  · exact Nat.le_trans (h.before x hx) (h'.after y hy)

end LeavesBetween

namespace Parser

/-! ## Two runs -/

/-- A state in order at an offset or behind it, with nothing reported and fewer tokens left than a bound. -/
structure State.Ready (bound : Nat) (c : Setting) (start : Nat) (s : State) : Prop where
  reached : start ≤ s.cursor c
  length : s.rest.length < bound
  clean : s.diagnostics = []
  sound : s.Sound (fun _ => True) c

/-- How a run in another dialect ends that may find a forbidden leaf: with a given value in a given state, or with
that leaf reported first. -/
inductive Outcome (dialect : Dialect) (c : Setting) (a : α) (s : State) : Option LeafAt → Option α × State → Prop
  | accepted : Outcome dialect c a s none (some a, s)
  | rejected {x : LeafAt} {r : Option α × State} (d : Diagnostic)
      (problem : d.problem = .grammar (.leafNotPermitted x.leaf dialect)) (start : d.span.start = x.start)
      (rejected : r.2.Rejected d c) : Outcome dialect c a s (some x) r

/-- Where the first run reads a value and nothing is reported, the second one in another dialect reads a value that
belongs to it, or is rejected at the first leaf of it that is forbidden there.  All leaves stand behind an offset. -/
def Filtered (dialect : Dialect) (c : Setting) (start : Nat) (s : State) (V : α → β → List LeafAt → Prop) (p : Parser α)
    (p' : Parser β) : Prop :=
  ∀ a s₁, p c s = (some a, s₁) → s₁.diagnostics = [] →
    ∃ a' xs, V a a' xs ∧ LeavesBetween start (s₁.cursor c) xs ∧
      Outcome dialect c a' s₁ (dialect.firstForbidden xs) (p' c s)

namespace Filtered

variable {α α' β β' : Type} {dialect : Dialect} {c : Setting} {s : State} {bound start : Nat}
  {V : α → α' → List LeafAt → Prop} {W : β → β' → List LeafAt → Prop}

theorem ret {a : α} {a' : α'} (h : V a a' []) : Filtered dialect c start s V (pure a) (pure a') := by
  intro b s₁ hrun _
  cases hrun
  exact ⟨a', [], h, .nil, .accepted⟩

/-- A value that has no leaves. -/
theorem value {p : Parser α} {f : α → β} {f' : α → β'} (h : ∀ a, W (f a) (f' a) []) :
    Filtered dialect c start s W (p >>= fun a => pure (f a)) (p >>= fun a => pure (f' a)) := by
  intro b s₁ hrun _
  obtain ⟨a, s₁, hfirst, hsecond⟩ := bind_eq_some.mp hrun
  cases hsecond
  refine ⟨f' a, [], h a, .nil, ?_⟩
  rw [bind_of_some hfirst]
  exact .accepted

/-- Nothing is said where the first run fails. -/
theorem never {p : Parser α} {p' : Parser α'} (h : Results (fun _ => False) p) : Filtered dialect c start s V p p' :=
  fun a s₁ hrun _ => (h c s a s₁ hrun).elim

theorem failed {p' : Parser α'} : Filtered dialect c start s V (fail : Parser α) p' := never .fail

/-- A parser that only looks, and what follows. -/
theorem look {p : Parser α} {f : α → Parser β} {f' : α → Parser β'} {a : α} (hp : p c s = (some a, s))
    (hnext : Filtered dialect c start s W (f a) (f' a)) : Filtered dialect c start s W (p >>= f) (p >>= f') := by
  intro b s₁ hrun hclean
  rw [bind_of_some hp] at hrun ⊢
  exact hnext b s₁ hrun hclean

/-- Two parsers in a row, the first of which reads the same in all dialects. -/
theorem after {p : Parser α} {f : α → Parser β} {f' : α → Parser β'} (hstart : start ≤ s.cursor c)
    (hs : s.Sound (fun _ => True) c) (hp : Orderly p)
    (hlength : ∀ a s₁, p c s = (some a, s₁) → s₁.rest.length < bound) (hf : ∀ a, Forward bound (f a))
    (hnext : ∀ a s₁, p c s = (some a, s₁) → s₁.Ready bound c start → Filtered dialect c start s₁ W (f a) (f' a)) :
    Filtered dialect c start s W (p >>= f) (p >>= f') := by
  intro b s₂ hrun hclean
  obtain ⟨a, s₁, hfirst, hsecond⟩ := bind_eq_some.mp hrun
  have hlen := hlength a s₁ hfirst
  have hmoves := hf a c s₁ hlen
  rw [hsecond] at hmoves
  obtain ⟨hsound, hle⟩ := hp _ c s hs
  rw [hfirst] at hsound hle
  rw [bind_of_some hfirst]
  exact hnext a s₁ hfirst ⟨Nat.le_trans hstart hle, hlen, hmoves.clean hclean, hsound⟩ b s₂ hsecond hclean

theorem next {p : Parser α} {f : α → Parser β} {f' : α → Parser β'} (hs : s.Ready bound c start) (hp : Keeps bound p)
    (hf : ∀ a, Forward bound (f a))
    (hnext : ∀ a s₁, p c s = (some a, s₁) → s₁.Ready bound c start → Filtered dialect c start s₁ W (f a) (f' a)) :
    Filtered dialect c start s W (p >>= f) (p >>= f') :=
  .after hs.reached hs.sound hp.orderly (fun _ _ => hp.length hs.length) hf hnext

/-- Two parsers in a row. -/
theorem seq {p : Parser α} {p' : Parser α'} {f : α → Parser β} {f' : α' → Parser β'} (hs : s.Ready bound c start)
    (h : Filtered dialect c start s V p p') (hp : Keeps bound p) (hp' : Keeps bound p') (hf : ∀ a, Keeps bound (f a))
    (hf' : ∀ a, Keeps bound (f' a))
    (hnext : ∀ a a' xs s₁, s₁.Ready bound c (s₁.cursor c) → V a a' xs →
      Filtered dialect c (s₁.cursor c) s₁ (fun b b' ys => W b b' (xs ++ ys)) (f a) (f' a')) :
    Filtered dialect c start s W (p >>= f) (p' >>= f') := by
  intro b s₂ hrun hclean
  obtain ⟨a, s₁, hfirst, hsecond⟩ := bind_eq_some.mp hrun
  have hmoves₁ := hp.forward c s hs.length
  obtain ⟨hsound, hle₁⟩ := hp.orderly _ c s hs.sound
  rw [hfirst] at hmoves₁ hsound hle₁
  have hlen : s₁.rest.length < bound := Nat.lt_of_le_of_lt hmoves₁.length_le hs.length
  have hmoves₂ := (hf a).forward c s₁ hlen
  rw [hsecond] at hmoves₂
  have hle₂ := (hf a).orderly.cursor_le hsound hsecond
  have hclean₁ := hmoves₂.clean hclean
  obtain ⟨a', xs, hv, hxs, hout⟩ := h a s₁ hfirst hclean₁
  obtain ⟨b', ys, hw, hys, hout'⟩ := hnext a a' xs s₁ ⟨Nat.le_refl _, hlen, hclean₁, hsound⟩ hv b s₂ hsecond hclean
  refine ⟨b', xs ++ ys, hw, hxs.append hys (Nat.le_trans hs.reached hle₁) hle₂, ?_⟩
  rw [Dialect.firstForbidden_append]
  have hmoves' := hp'.forward c s hs.length
  revert hout hmoves'
  generalize dialect.firstForbidden xs = forbidden
  intro hout hmoves'
  cases hrun' : p' c s with
  | mk r s' =>
    rw [hrun'] at hout hmoves'
    cases hout with
    | accepted =>
      rw [bind_of_some hrun']
      exact hout'
    | rejected d hproblem hstart hrejected =>
      refine .rejected d hproblem hstart ?_
      rw [bind_apply, hrun']
      cases r with
      | none => exact hrejected
      | some a'' => exact (hf' a'').rejected (Nat.lt_of_le_of_lt hmoves'.length_le hs.length) hrejected

end Filtered

/-! ## What an operand begins with -/

section Operands

variable {g : Grammar} {c : Setting} {s s' : State} {starts : Nat → Prop} {e : Expr}

theorem block_start {dialect : Dialect} {opening closing : Keyword} {b : Block}
    (h : g.block dialect opening closing c s = (some b, s')) : b.span.start = s.cursor c := by
  obtain ⟨start, s₁, hstart, h⟩ := bind_eq_some.mp h
  cases hstart
  refine Results.bind (P := fun b : Block => b.span.start = s.cursor c) (fun _ => ?_) _ _ _ _ h
  exact .bind fun _ => .bind fun _ => .bind fun _ => .bind fun _ => .spanning fun _ => rfl

theorem selection_leading (g : Grammar) (base : Expr) :
    Results (fun form => form.leadingBlock? = base.leadingBlock?) (g.selection base) := by
  refine .bind fun _ => .bind fun _ => .bind fun more => ?_
  cases more <;> exact .bind fun _ => .bind fun _ => .value rfl

theorem memberOf_leading (g : Grammar) (receiver : Expr) :
    Results (fun form => form.leadingBlock? = receiver.leadingBlock?) (g.memberOf receiver) := by
  refine .bind fun _ => .bind fun _ => .bind fun called => ?_
  cases called with
  | true => exact .bind fun _ => .value rfl
  | false => exact .value rfl

theorem suffixes_leading (g : Grammar) (e : Expr) :
    Results (fun e' => e'.leadingBlock? = e.leadingBlock?) (g.suffixes e) := by
  refine Results.repeatUntil (fun operand h => .bind fun k => ?_) rfl
  split
  · exact .bind fun _ => .spanning fun _ => h
  · exact (selection_leading g operand).seq fun form hform => .spanning fun _ => hform.trans h
  · exact (memberOf_leading g operand).seq fun form hform => .spanning fun _ => hform.trans h
  · exact .value h

theorem conditional_leading (g : Grammar) (p : Predicate) :
    Results (fun e => e.leadingBlock? = none) (g.conditional p) :=
  .bind fun _ => .bind fun _ => .bind fun _ => .bind fun _ => .spanning fun _ => rfl

/-- Behind an operator there is no block at the beginning that is not behind it without. -/
theorem operations_leading (g : Grammar) (min : Nat) (e : Expr) :
    Results (fun e' => ∀ b ∈ e'.leadingBlock?, b ∈ e.leadingBlock?) (g.operations min e) := by
  refine Results.repeatUntil (fun lhs h => .bind fun k => ?_) fun _ => id
  have hnone : ∀ e' : Expr, e'.leadingBlock? = none → ∀ b ∈ e'.leadingBlock?, b ∈ e.leadingBlock? := by
    intro e' he' b hb
    rw [he'] at hb
    cases hb
  have hagain : ∀ p, Results (RoundKeeps fun e' => ∀ b ∈ e'.leadingBlock?, b ∈ e.leadingBlock?)
      (g.conditional p >>= fun e' => pure (.again e')) := fun p =>
    (conditional_leading g p).seq fun e' he' => .value (hnone e' he')
  split
  · split
    · exact hagain _
    · exact .value h
  · split
    · refine .bind fun others => ?_
      cases others with
      | some others => exact .bind fun _ => hagain _
      | none => exact .value h
    · exact .value h
  · exact .bind fun _ => .bind fun _ => .bind fun _ => .fail
  · split
    · split
      · exact .bind fun _ => .bind fun _ => .value (hnone _ rfl)
      · exact .value h
    · exact .value h

theorem unaryOperand_leading (g : Grammar) (start : Nat) (op : UnaryOp) :
    Results (fun e => e.leadingBlock? = none) (g.unaryOperand start op) := by
  have hsigned : ∀ {sign : Sign} {form form' : ExprForm}, form.withSign? sign = some form' →
      form'.leadingBlock? = none := by
    intro sign form form' h
    unfold ExprForm.withSign? at h
    split at h
    · split at h
      · cases h
        rfl
      · cases h
    · cases h
  unfold Grammar.unaryOperand
  split
  · refine .bind fun signed => ?_
    split
    · refine .bind fun lit => ?_
      split
      · exact .spanning fun _ => hsigned ‹_›
      · exact .bind fun _ => .bind fun _ => .spanning fun _ => rfl
    · exact .bind fun _ => .spanning fun _ => rfl
  · exact .bind fun _ => .spanning fun _ => rfl

/-- The words that a block of actions begins with. -/
def startsActionBlock (k : Option Kind) : Bool :=
  k == some (.keyword .action) || k == some (.keyword .actionvalue)

/-- The inner expressions of a grammar do not begin with a block before their first token. -/
def LeadsInside (g : Grammar) : Prop :=
  ∀ min c s e s', s.Sound (fun _ => True) c → g.innerExpr min c s = (some e, s') →
    ∀ b ∈ e.leadingBlock?, s.cursor c ≤ b.span.start

/-- A primary begins with the block of actions that it is, or with one inside parentheses. -/
theorem primary_leading (hg : LeadsInside g) (hs : s.Sound (fun _ => True) c) (h : g.primary c s = (some e, s')) :
    if startsActionBlock s.peek then ∃ b ∈ e.leadingBlock?, b.span.start = s.cursor c
    else ∀ b ∈ e.leadingBlock?, s.cursor c < b.span.start := by
  have hnone : ∀ {p : Parser Expr} {s₁ : State}, Results (fun e => e.leadingBlock? = none) p → p c s₁ = (some e, s') →
      ∀ b ∈ e.leadingBlock?, s.cursor c < b.span.start := by
    intro p s₁ hp hrun b hb
    rw [hp c s₁ e s' hrun] at hb
    cases hb
  have hblock : ∀ {dialect : Dialect} {opening closing : Keyword} {form : Block → ExprForm},
      (∀ b, (form b).leadingBlock? = some b) → (g.block dialect opening closing >>= fun b =>
        spanFrom (s.cursor c) >>= fun span => pure (Expr.mk (form b) span)) c s = (some e, s') →
      ∃ b ∈ e.leadingBlock?, b.span.start = s.cursor c := by
    intro dialect opening closing form hform hrun
    obtain ⟨b, s₁, hb, hrun⟩ := bind_eq_some.mp hrun
    cases hrun
    exact ⟨b, hform b, block_start hb⟩
  obtain ⟨start, s₁, hstart, h⟩ := bind_eq_some.mp h
  cases hstart
  obtain ⟨k, s₁, hk, h⟩ := bind_eq_some.mp h
  cases hk
  generalize hpeek : s.peek = k at h ⊢
  have hvalue : Results (fun form => form.leadingBlock? = none) g.valueBlock :=
    .bind fun _ => .bind fun _ => .bind fun _ => .bind fun _ => .bind fun _ => .value rfl
  have hinterface : Results (fun form => form.leadingBlock? = none) g.interfaceExpr :=
    .bind fun _ => .bind fun _ => .bind fun _ => .bind fun _ => .bind fun _ => .bind fun _ => .value rfl
  have hplain : ∀ form : ExprForm, form.leadingBlock? = none → Results (fun e : Expr => e.leadingBlock? = none)
      (spanFrom (s.cursor c) >>= fun span => pure ⟨form, span⟩) := fun form h => .spanning fun _ => h
  split at h
  · exact hnone (.bind fun _ => hplain _ rfl) h
  · refine hnone (.bind fun _ => .bind fun members => ?_) h
    split
    · exact .bind fun _ => hplain _ rfl
    · exact hplain _ rfl
  · exact hnone (.bind fun _ => hplain _ rfl) h
  · exact hnone (.bind fun _ => hplain _ rfl) h
  · exact hnone (.bind fun _ => hplain _ rfl) h
  · exact hnone (.bind fun _ => hplain _ rfl) h
  · exact hnone (.bind fun _ => hplain _ rfl) h
  · obtain ⟨_, s₁, hskip, h⟩ := bind_eq_some.mp h
    cases hskip
    obtain ⟨inner, s₂, hinner, h⟩ := bind_eq_some.mp h
    obtain ⟨_, s₃, -, h⟩ := bind_eq_some.mp h
    cases h
    obtain ⟨form, span⟩ := inner
    intro b hb
    exact Nat.lt_of_lt_of_le (hs.cursor_lt_step (State.headed_of_peek hpeek)) (hg 0 c _ _ s₂ hs.step hinner b hb)
  · exact hnone (.bind fun _ => hplain _ rfl) h
  · exact hnone (hvalue.seq fun _ hform => hplain _ hform) h
  · exact hblock (fun _ => rfl) h
  · exact hblock (fun _ => rfl) h
  · exact hnone (.bind fun _ => .bind fun _ => .bind fun _ => hplain _ rfl) h
  · exact hnone (hinterface.seq fun _ hform => hplain _ hform) h
  · exact hnone (.bind fun _ => .bind fun _ => .bind fun _ => .bind fun _ => hplain _ rfl) h
  · exact hnone (.bind fun _ => .bind fun _ => .fail) h
  · cases h

theorem cursor_le_leading (hg : LeadsInside g) (hs : s.Sound (fun _ => True) c) (h : g.primary c s = (some e, s')) :
    ∀ b ∈ e.leadingBlock?, s.cursor c ≤ b.span.start := by
  intro b hb
  have hleading := primary_leading hg hs h
  split at hleading
  · obtain ⟨b', hb', hstart⟩ := hleading
    cases Option.some.inj (hb'.symm.trans hb)
    exact Nat.le_of_eq hstart.symm
  · exact Nat.le_of_lt (hleading b hb)

theorem expr_leading (hg : LeadsInside g) {min : Nat} (hs : s.Sound (fun _ => True) c)
    (h : g.expr min c s = (some e, s')) : ∀ b ∈ e.leadingBlock?, s.cursor c ≤ b.span.start := by
  obtain ⟨first, s₁, hfirst, h⟩ := bind_eq_some.mp h
  obtain ⟨whole, s₂, hwhole, h⟩ := bind_eq_some.mp h
  intro b hb
  have hb' : b ∈ first.leadingBlock? :=
    suffixes_leading g first c s₁ whole s₂ hwhole ▸ operations_leading g min whole c s₂ e s' h b hb
  obtain ⟨k, s₀, hk, hfirst⟩ := bind_eq_some.mp hfirst
  cases hk
  generalize s.peek.bind UnaryOp.ofKind? = sign at hfirst
  cases sign with
  | none => exact cursor_le_leading hg hs hfirst b hb'
  | some op =>
    have hnone : Results (fun e : Expr => e.leadingBlock? = none)
        (offset >>= fun start => skip >>= fun _ => g.unaryOperand start op) :=
      .bind fun start => .bind fun _ => unaryOperand_leading g start op
    rw [hnone c s first s₁ hfirst] at hb'
    cases hb'

/-- At every level inner expressions do not begin with a block before their first token. -/
theorem leadsInside (n : Nat) : LeadsInside (Grammar.upTo n) := by
  induction n with
  | zero => exact fun _ _ _ _ _ _ h => nomatch h
  | succ n ih => exact fun _ _ _ _ _ hs h => expr_leading ih hs h

/-- An operand is called a block of actions as a statement exactly if it begins with the word. -/
theorem operand_leaf (hg : LeadsInside g) (hs : s.Sound (fun _ => True) c) (h : g.operand c s = (some e, s')) :
    e.leaf (s.cursor c) = if startsActionBlock s.peek then .actionBlock else .exprStatement := by
  obtain ⟨first, s₁, hfirst, h⟩ := bind_eq_some.mp h
  have hleading := primary_leading hg hs hfirst
  rw [← suffixes_leading g first c s₁ e s' h] at hleading
  unfold Expr.leaf
  by_cases haction : startsActionBlock s.peek = true
  · rw [if_pos haction] at hleading ⊢
    obtain ⟨b, hb, hstart⟩ := hleading
    rw [hb]
    exact if_pos hstart
  · rw [if_neg haction] at hleading ⊢
    cases hblock : e.leadingBlock? with
    | none => rfl
    | some b => exact if_neg (Nat.ne_of_gt (hleading b hblock))

theorem simpleTail_begins {target : Expr} (h : target.leaf target.span.start = .exprStatement) :
    Results (SimpleStmt.BeginsAt target.span.start) (g.simpleTail target) := by
  refine .bind fun k => ?_
  split
  · refine .bind fun _ => .bind fun value => ?_
    split
    · exact .spanning fun _ => ⟨rfl, rfl⟩
    · exact .bind fun _ => .fail
  · exact .bind fun _ => .bind fun value => .spanning fun _ => ⟨rfl, rfl⟩
  · split
    · exact .bind fun _ => .bind fun value => .spanning fun _ => ⟨rfl, rfl⟩
    · exact .bind fun _ => .fail
  · refine .bind fun _ => .value ⟨rfl, ?_⟩
    rw [SimpleStmt.form, StmtForm.leaves, h]
    rfl
  · exact .bind fun _ => .fail

/-- A property of the values of a parser and of the offset that it begins with. -/
theorem Results.of_offset {α : Type} {P : Nat → α → Prop} {f : Nat → Parser α} {a : α}
    (h : ∀ start, Results (P start) (f start)) (hrun : (offset >>= f) c s = (some a, s')) : P (s.cursor c) a :=
  h _ c s a s' hrun

theorem letStmt_begins {x : SimpleStmt} (h : g.letStmt c s = (some x, s')) : x.BeginsAt (s.cursor c) := by
  refine Results.of_offset (fun start => .bind fun _ => .bind fun name => .bind fun b => ?_) h
  cases b with
  | true => exact .bind fun value => .spanning fun _ => ⟨rfl, rfl⟩
  | false => exact .bind fun _ => .bind fun init => .bind fun own => .bind fun _ => .spanning fun _ => ⟨rfl, rfl⟩

theorem typedStmt_begins {x : SimpleStmt} (h : g.typedStmt c s = (some x, s')) : x.BeginsAt (s.cursor c) := by
  refine Results.of_offset (fun start => .bind fun type => .bind fun name => .bind fun b => ?_) h
  cases b with
  | true => exact .bind fun value => .spanning fun _ => ⟨rfl, rfl⟩
  | false =>
    refine .bind fun first => .bind fun more => ?_
    cases more <;> exact .bind fun others => .bind fun _ => .spanning fun _ => ⟨rfl, rfl⟩

/-- A simple statement is what it is called by the tokens that it begins with. -/
theorem simple_begins (hg : LeadsInside g) (hs : s.Sound (fun _ => True) c) (hpeek : startsActionBlock s.peek = false)
    {x : SimpleStmt} (h : g.simple c s = (some x, s')) : x.BeginsAt (s.cursor c) := by
  obtain ⟨isLet, s₁, hlet, h⟩ := bind_eq_some.mp h
  obtain rfl : s₁ = s := (isNext_eq_some hlet).1
  cases isLet with
  | true => exact letStmt_begins h
  | false =>
    obtain ⟨typed, s₂, htyped, h⟩ := bind_eq_some.mp h
    obtain rfl : s₂ = s₁ := atTypedDecl_state htyped
    cases typed with
    | true => exact typedStmt_begins h
    | false =>
      obtain ⟨target, s₃, htarget, h⟩ := bind_eq_some.mp h
      have hstart : target.span.start = s₂.cursor c := operand_start htarget
      have hleaf := operand_leaf hg hs htarget
      rw [hpeek, ← hstart] at hleaf
      rw [← hstart]
      exact simpleTail_begins hleaf c s₃ x s' h

end Operands

/-! ## Lists and leaves in two dialects -/

section Statements

variable {one other : Dialect} {n start : Nat} {c : Setting} {s : State}

theorem filtered_resuming {item item' : Parser α} {V : α → α → List LeafAt → Prop}
    (h : Filtered other c start s V item item') (hloud : ∀ s₁, item c s = (none, s₁) → s₁.diagnostics ≠ []) :
    Filtered other c start s (fun r r' xs => ∃ a a', r = some a ∧ r' = some a' ∧ V a a' xs) (resuming item)
      (resuming item') := by
  intro r s₁ hrun hclean
  unfold resuming at hrun
  cases hitem : item c s with
  | mk value s₂ =>
    rw [hitem] at hrun
    cases value with
    | none =>
      cases hrun
      exact absurd ((State.Moves.resumeState s s₂).clean hclean) (hloud s₂ hitem)
    | some a =>
      cases hrun
      obtain ⟨a', xs, hv, hstanding, hout⟩ := h a s₁ hitem hclean
      refine ⟨some a', xs, ⟨a, a', rfl, rfl, hv⟩, hstanding, ?_⟩
      unfold resuming
      revert hout
      generalize other.firstForbidden xs = forbidden
      intro hout
      cases hrun' : item' c s with
      | mk r' s' =>
        rw [hrun'] at hout
        cases hout with
        | accepted => exact .accepted
        | rejected d hproblem hstart hrejected =>
          refine .rejected d hproblem hstart ?_
          cases r' with
          | none => exact hrejected.resumeState s
          | some _ => exact hrejected

theorem filtered_itemsUpTo {item item' : Parser α} {move : α → α} {leaves : α → List LeafAt}
    (h : ∀ c start s, s.Ready n c start →
      Filtered other c start s (fun a a' xs => a' = move a ∧ xs = leaves a) item item')
    (hk : Keeps n item) (hk' : Keeps n item')
    (hloud : ∀ c s s₁, s.rest.length < n → item c s = (none, s₁) → s₁.diagnostics ≠ []) (limit : Nat)
    (hs : s.Ready n c start) : Filtered other c start s (fun as as' xs => as' = as.map move ∧ xs = as.flatMap leaves)
      (itemsUpTo item limit) (itemsUpTo item' limit) := by
  induction limit generalizing s start with
  | zero => exact .failed
  | succ limit ih =>
    refine .look rfl (.look rfl ?_)
    split
    · exact .ret ⟨rfl, rfl⟩
    · refine .seq hs (filtered_resuming (h c start s hs) fun s₁ => hloud c s s₁ hs.length) hk.resuming hk'.resuming
        (fun _ => (hk.itemsUpTo limit).bind fun _ => .ret _) (fun _ => (hk'.itemsUpTo limit).bind fun _ => .ret _) ?_
      rintro r r' xs s₁ hs₁ ⟨a, a', rfl, rfl, rfl, rfl⟩
      refine .seq hs₁ (ih hs₁) (hk.itemsUpTo limit) (hk'.itemsUpTo limit) (fun _ => .ret _) (fun _ => .ret _) ?_
      rintro as as' ys s₂ hs₂ ⟨rfl, rfl⟩
      refine .ret ⟨rfl, ?_⟩
      rw [List.append_nil]
      rfl

/-- A leaf that has been read, and the check of it. -/
theorem filtered_permit (hs : s.Ready n c start) {leaf : Leaf} {span : Span} (hstart : start ≤ span.start)
    (hspan : span.start ≤ s.cursor c)
    {W : α → α → List LeafAt → Prop} {a a' : α} (h : W a a' [⟨leaf, span.start⟩]) :
    Filtered other c start s W (permit one leaf span >>= fun _ => pure a)
      (permit other leaf span >>= fun _ => pure a') := by
  intro b s₁ hrun _
  obtain ⟨rfl, rfl⟩ : b = a ∧ s₁ = s := by
    unfold permit at hrun
    cases hpermits : one.permits leaf with
    | true =>
      rw [hpermits] at hrun
      cases hrun
      exact ⟨rfl, rfl⟩
    | false =>
      rw [hpermits] at hrun
      cases hrun
  refine ⟨a', _, h, .single hstart hspan, ?_⟩
  unfold permit Dialect.firstForbidden
  cases hpermits : other.permits leaf with
  | true =>
    rw [List.find?_cons_of_neg (by rw [hpermits]; exact Bool.false_ne_true), List.find?_nil]
    exact .accepted
  | false =>
    rw [List.find?_cons_of_pos (by rw [hpermits]; rfl)]
    exact .rejected _ rfl rfl (.of_report hs.sound hs.clean hspan)

theorem filtered_permitSimple (hs : s.Ready n c start) {x : SimpleStmt} {place : Nat} (hx : x.BeginsAt place)
    (hstart : start ≤ place) (hplace : place ≤ s.cursor c) :
    Filtered other c start s (fun form form' xs => form' = form.inDialect other ∧ xs = form.leaves place)
      (permitSimple one x) (permitSimple other x) := by
  obtain ⟨rfl, hleaves⟩ := hx
  unfold permitSimple
  cases hleaf : x.leaf? with
  | none =>
    refine .ret ⟨(x.inDialect_form other).symm, ?_⟩
    rw [hleaves, hleaf]
    rfl
  | some leaf =>
    refine filtered_permit hs hstart hplace ⟨(x.inDialect_form other).symm, ?_⟩
    rw [hleaves, hleaf]
    rfl

/-! ## Statements in two dialects -/

/-- A statement in another dialect, and its leaves. -/
def StmtIn (other : Dialect) (s s' : Stmt) (xs : List LeafAt) : Prop := s' = s.inDialect other ∧ xs = s.leaves

/-- A form of a statement in another dialect, and its leaves. -/
def FormIn (other : Dialect) (start : Nat) (form form' : StmtForm) (xs : List LeafAt) : Prop :=
  form' = form.inDialect other ∧ xs = form.leaves start

theorem level_self (n : Nat) : Level sameRuns n (Grammar.upTo n) (Grammar.upTo n) :=
  Inherited.level inherited_sameRuns (Nat.le_refl n) (Nat.le_refl n)

/-- What is steady at any place and reads the same at any place keeps to the order. -/
theorem Keeps.of_holds {α : Type} {mark : α → Mark} {p : Parser α} {after : α → List NodeSpan}
    {V : Relocation → Nat → α → α → Prop} (h : Holds sameRuns (.free n false) mark [] p p after)
    (htracks : ∀ ℓ, Tracks ℓ 0 (V ℓ) p p) : Keeps n p :=
  .of_steady h.steady htracks

theorem keeps_innerStmt (n : Nat) (dialect : Dialect) : Keeps n ((Grammar.upTo n).innerStmt dialect) :=
  .of_holds ((level_self n).stmt dialect []) fun ℓ => (Grammar.Tracked.upTo ℓ n).innerStmt dialect 0

theorem keeps_expectKeyword (k : Keyword) : Keeps n (expectKeyword k) :=
  .of_holds (closed_sameRuns.expectKeyword k) fun _ => Tracks.expectKeyword k

theorem keeps_accept (k : Kind) : Keeps n (accept k) := .of_holds closed_sameRuns.accepted fun _ => Tracks.accept k

theorem keeps_eat (k : Kind) : Keeps n (eat k) := .of_holds closed_sameRuns.eaten fun _ => Tracks.eat k

theorem orderly_eat {k : Kind} : Orderly (eat k) := .of_tracks fun _ => Tracks.eat k

theorem keeps_label (n : Nat) : Keeps n label := .of_holds closed_sameRuns.label fun _ => Tracks.label

theorem orderly_skip : Orderly skip := .of_tracks fun _ => Tracks.skip

theorem length_step (hs : s.Headed) : s.step.rest.length < s.rest.length := by
  obtain ⟨t, ts, hrest⟩ := hs
  rw [State.step, hrest]
  exact Nat.lt_succ_self _

theorem length_expectKeyword {k : Keyword} {u : Unit} {s₁ : State} (hs : s.rest.length < n + 1)
    (h : expectKeyword k c s = (some u, s₁)) : s₁.rest.length < n := by
  obtain ⟨t, s₂, ht, h⟩ := bind_eq_some.mp h
  cases h
  rw [(expect_eq_some ht).2, List.length_cons] at hs
  omega

section Level

variable (hstmt : ∀ c start (s : State), s.Ready n c start →
  Filtered other c start s (StmtIn other) ((Grammar.upTo n).innerStmt one) ((Grammar.upTo n).innerStmt other))

include hstmt

theorem filtered_items (hs : s.Ready n c start) :
    Filtered other c start s (fun ss ss' xs => ss' = ss.map (Stmt.inDialect other) ∧ xs = ss.flatMap Stmt.leaves)
      (items ((Grammar.upTo n).innerStmt one)) (items ((Grammar.upTo n).innerStmt other)) :=
  filtered_itemsUpTo hstmt (keeps_innerStmt n one) (keeps_innerStmt n other)
    (fun _ _ _ hlen hrun => ((level_self n).stmt one []).steady.dirty ⟨hlen, trivial⟩ hrun) _ hs

theorem filtered_block (opening closing : Keyword) (hs : s.Ready (n + 1) c start) :
    Filtered other c start s (fun b b' xs => b' = b.inDialect other ∧ xs = b.leaves)
      ((Grammar.upTo n).block one opening closing) ((Grammar.upTo n).block other opening closing) := by
  have htail : ∀ (openLabel : Option Label) (stmts : List Stmt) (dialect : Dialect), Keeps n (do
      expectKeyword closing
      let closeLabel ← label
      return (⟨⟨openLabel, closeLabel⟩, stmts, ← spanFrom (s.cursor c), dialect⟩ : Block)) := fun _ _ _ =>
    (keeps_expectKeyword closing).bind fun _ => (keeps_label n).bind fun _ => .spanning _ _
  have hitems := fun dialect => (keeps_innerStmt n dialect).items
  refine .look rfl (.after hs.reached hs.sound (keeps_expectKeyword opening (n := n)).orderly
    (fun _ _ => length_expectKeyword hs.length)
    (fun _ => ((keeps_label n).bind fun _ => (hitems one).bind fun _ => htail _ _ _).forward) fun _ s₁ _ hs₁ => ?_)
  refine .next hs₁ (keeps_label n) (fun _ => ((hitems one).bind fun _ => htail _ _ _).forward)
    fun openLabel s₂ _ hs₂ => ?_
  refine .seq hs₂ (filtered_items hstmt hs₂) (hitems one) (hitems other) (fun _ => htail _ _ _)
    (fun _ => htail _ _ _) ?_
  rintro stmts _ _ s₃ hs₃ ⟨rfl, rfl⟩
  refine .next hs₃ (keeps_expectKeyword closing) (fun _ => ((keeps_label n).bind fun _ => .spanning _ _).forward)
    fun _ s₄ _ hs₄ => .next hs₄ (keeps_label n) (fun _ => (Keeps.spanning _ _).forward)
      fun closeLabel s₅ _ _ => .look rfl (.ret ⟨?_, ?_⟩)
  · rw [Block.inDialect, Stmt.allInDialect_eq]
  · rw [Block.leaves, Stmt.leavesIn_eq, List.append_nil]

theorem filtered_ifStmt (hs : s.Ready (n + 1) c start) (hpeek : s.Headed) (place : Nat) :
    Filtered other c start s (FormIn other place) ((Grammar.upTo n).ifStmt one) ((Grammar.upTo n).ifStmt other) := by
  have hinner := keeps_innerStmt n
  have hpredicate : Keeps n (Grammar.upTo n).parenPredicate :=
    .of_holds (closed_sameRuns.outset (Inherited.parenPredicate inherited_sameRuns (level_self n)))
      fun ℓ => (Grammar.Tracked.upTo ℓ n).parenPredicate
  have htail : ∀ dialect p (a : Stmt), Keeps n (do
      let elseBranch ←
        if ← accept (.keyword .else_) then some <$> (Grammar.upTo n).innerStmt dialect else pure none
      return StmtForm.cond p a elseBranch) := by
    intro dialect p a
    refine (keeps_accept _).bind fun more => ?_
    cases more with
    | true => exact ((hinner dialect).bind fun _ => .ret _).bind fun _ => .ret _
    | false => exact .ret _
  refine .after hs.reached hs.sound orderly_skip (fun _ _ hskip => ?_)
    (fun _ => (hpredicate.bind fun _ => (hinner one).bind fun _ => htail _ _ _).forward) fun _ s₁ _ hs₁ => ?_
  · cases hskip
    exact Nat.lt_of_lt_of_le (length_step hpeek) (Nat.le_of_lt_succ hs.length)
  refine .next hs₁ hpredicate (fun _ => ((hinner one).bind fun _ => htail _ _ _).forward) fun p s₂ _ hs₂ => ?_
  refine .seq hs₂ (hstmt c _ s₂ hs₂) (hinner one) (hinner other) (fun _ => htail _ _ _) (fun _ => htail _ _ _) ?_
  rintro a _ _ s₃ hs₃ ⟨rfl, rfl⟩
  refine .next hs₃ (keeps_accept _) (fun more => ?_) fun more s₄ _ hs₄ => ?_
  · cases more with
    | true => exact (((hinner one).bind fun _ => .ret _).bind fun _ => .ret _).forward
    | false => exact .ret _
  cases more with
  | true =>
    refine .seq hs₄ (V := fun r r' xs => ∃ b, r = some b ∧ r' = some (b.inDialect other) ∧ xs = b.leaves) ?_
      ((hinner one).bind fun _ => .ret _) ((hinner other).bind fun _ => .ret _) (fun _ => .ret _) (fun _ => .ret _) ?_
    · refine .seq hs₄ (hstmt c _ s₄ hs₄) (hinner one) (hinner other) (fun _ => .ret _) (fun _ => .ret _) ?_
      rintro b _ _ s₅ - ⟨rfl, rfl⟩
      exact .ret ⟨b, rfl, rfl, List.append_nil _⟩
    · rintro _ _ _ s₅ - ⟨b, rfl, rfl, rfl⟩
      refine .ret ⟨(StmtForm.inDialect_cond other p a (some b)).symm, ?_⟩
      rw [List.append_nil]
      rfl
  | false => exact .ret ⟨(StmtForm.inDialect_cond other p a none).symm, List.append_nil _⟩

end Level

theorem forward_permit (n : Nat) (dialect : Dialect) (leaf : Leaf) (span : Span) (form : StmtForm) :
    Forward n (permit dialect leaf span >>= fun _ => pure form) := by
  have hsteady : Inside sameRuns n [] (permit dialect leaf span) (permit dialect leaf span) fun _ => [] :=
    Inherited.permit inherited_sameRuns dialect leaf span
  exact (Forward.of_steady hsteady.steady).bind fun _ => .ret _

theorem forward_permitSimple (n : Nat) (dialect : Dialect) (x : SimpleStmt) : Forward n (permitSimple dialect x) := by
  have hsteady : Inside sameRuns n ([] ++ x.inner) (permitSimple dialect x) (permitSimple dialect x)
      fun form => [] ++ form.declared := Inherited.permitSimple inherited_sameRuns dialect x
  exact .of_steady hsteady.steady

theorem filtered_returnStmt (hs : s.Ready (n + 1) c start) (hpeek : s.Headed) :
    Filtered other c start s (FormIn other (s.cursor c)) ((Grammar.upTo n).returnStmt one)
      ((Grammar.upTo n).returnStmt other) := by
  have horderly : Orderly (Grammar.upTo n).returned := .of_tracks fun ℓ => (Grammar.Tracked.upTo ℓ n).returned
  have hsteady : Holds sameRuns (.headed (n + 1) false) (fun _ => .reading) [] (Grammar.upTo n).returned
      (Grammar.upTo n).returned fun e => [] ++ e.declared := Inherited.returned inherited_sameRuns (level_self n)
  refine .look rfl (.after hs.reached hs.sound horderly (fun e s₁ hrun => ?_)
    (fun _ => forward_permit (n + 1) _ _ _ _) fun e s₁ hrun hs₁ => ?_)
  · exact Nat.lt_of_le_of_lt (hsteady.steady.moves ⟨hs.length, hpeek⟩ hrun).length_le hs.length
  · exact filtered_permit hs₁ hs.reached (horderly.cursor_le hs.sound hrun) ⟨rfl, rfl⟩

theorem filtered_actionStmt (hs : s.Ready (n + 1) c start) (hpeek : startsActionBlock s.peek = true) :
    Filtered other c start s (FormIn other (s.cursor c)) ((Grammar.upTo n).actionStmt one)
      ((Grammar.upTo n).actionStmt other) := by
  have hoperand : Keeps (n + 1) (Grammar.upTo n).operand :=
    .of_holds (closed_sameRuns.free_of_past (Inherited.operand inherited_sameRuns (level_self n)))
      fun ℓ => (Grammar.Tracked.upTo ℓ n).operand
  refine .look rfl (.next hs hoperand
    (fun _ => (keeps_eat _).forward.bind fun _ => forward_permit _ _ _ _ _) fun e s₁ hrun hs₁ => ?_)
  have hcursor := hoperand.orderly.cursor_le hs.sound hrun
  have hleaf : e.leaf (s.cursor c) = .actionBlock := by
    rw [operand_leaf (leadsInside n) hs.sound hrun, hpeek]
    rfl
  refine .next hs₁ (keeps_eat _) (fun _ => forward_permit _ _ _ _ _) fun semi s₂ hsemi hs₂ => ?_
  have hcursor₂ := orderly_eat.cursor_le hs₁.sound hsemi
  refine filtered_permit hs₂ hs.reached (Nat.le_trans hcursor hcursor₂) ⟨rfl, ?_⟩
  rw [StmtForm.leaves, hleaf]
  rfl

theorem filtered_simple (hs : s.Ready (n + 1) c start) (hpeek : startsActionBlock s.peek = false) :
    Filtered other c start s (FormIn other (s.cursor c)) ((Grammar.upTo n).simple >>= permitSimple one)
      ((Grammar.upTo n).simple >>= permitSimple other) := by
  have hsimple : Keeps (n + 1) (Grammar.upTo n).simple :=
    .of_holds (closed_sameRuns.free_of_past (Inherited.simple inherited_sameRuns (level_self n)))
      fun ℓ => (Grammar.Tracked.upTo ℓ n).simple
  refine .next hs hsimple (forward_permitSimple _ _) fun x s₁ hrun hs₁ => ?_
  exact filtered_permitSimple hs₁ (simple_begins (leadsInside n) hs.sound hpeek hrun) hs.reached
    (hsimple.orderly.cursor_le hs.sound hrun)

theorem filtered_stmtForm (hstmt : ∀ c start (s : State), s.Ready n c start →
      Filtered other c start s (StmtIn other) ((Grammar.upTo n).innerStmt one) ((Grammar.upTo n).innerStmt other))
    (hs : s.Ready (n + 1) c start) :
    Filtered other c start s (FormIn other (s.cursor c)) ((Grammar.upTo n).stmtForm one)
      ((Grammar.upTo n).stmtForm other) := by
  have hblock : ∀ dialect opening closing, Keeps (n + 1) ((Grammar.upTo n).block dialect opening closing) :=
    fun dialect opening closing =>
      have hblock := Inherited.block inherited_sameRuns (level_self n) dialect opening closing
      .of_holds (closed_sameRuns.free_of_past hblock) fun ℓ => (Grammar.Tracked.upTo ℓ n).block dialect opening closing
  refine .look rfl ?_
  generalize hpeek : s.peek = k
  split
  · refine .seq hs (filtered_block hstmt _ _ hs) (hblock _ _ _) (hblock _ _ _) (fun _ => .ret _) (fun _ => .ret _) ?_
    rintro b _ _ s₁ - ⟨rfl, rfl⟩
    exact .ret ⟨rfl, List.append_nil _⟩
  · exact filtered_ifStmt hstmt hs (State.headed_of_peek hpeek) _
  · exact filtered_returnStmt hs (State.headed_of_peek hpeek)
  · exact .value fun _ => ⟨rfl, rfl⟩
  · exact .value fun _ => ⟨rfl, rfl⟩
  · exact .never (.bind fun _ => .fail)
  · exact .never (.bind fun _ => .fail)
  · exact .never (.bind fun _ => .fail)
  · exact .never (.bind fun _ => .fail)
  · exact filtered_actionStmt hs (by rw [hpeek]; rfl)
  · exact filtered_actionStmt hs (by rw [hpeek]; rfl)
  · exact .never (.bind fun _ => .fail)
  · refine filtered_simple hs ?_
    rw [hpeek, startsActionBlock, Bool.or_eq_false_iff, beq_eq_false_iff_ne, beq_eq_false_iff_ne]
    rename_i haction hvalue
    exact ⟨fun h => haction (Option.some.inj h), fun h => hvalue (Option.some.inj h)⟩

theorem filtered_stmt (hstmt : ∀ c start (s : State), s.Ready n c start →
      Filtered other c start s (StmtIn other) ((Grammar.upTo n).innerStmt one) ((Grammar.upTo n).innerStmt other))
    (hs : s.Ready (n + 1) c start) :
    Filtered other c start s (StmtIn other) ((Grammar.upTo n).stmt one) ((Grammar.upTo n).stmt other) := by
  have hform : ∀ dialect, Keeps (n + 1) ((Grammar.upTo n).stmtForm dialect) := fun dialect =>
    .of_holds (Inherited.stmtForm inherited_sameRuns (level_self n) dialect)
      fun ℓ => (Grammar.Tracked.upTo ℓ n).stmtForm dialect
  have hattributes : Keeps (n + 1) skipAttributes :=
    .of_holds closed_sameRuns.skipAttributes fun _ => Tracks.skipAttributes
  refine .next hs hattributes (fun _ => ?_) fun _ s₁ _ hs₁ => .look rfl ?_
  · exact ((Keeps.still fun _ _ => rfl).bind fun start => (hform one).bind fun _ => .spanning _ _).forward
  · refine .seq hs₁ (filtered_stmtForm hstmt hs₁) (hform one) (hform other) (fun _ => .spanning _ _)
      (fun _ => .spanning _ _) ?_
    rintro form _ _ s₂ - ⟨rfl, rfl⟩
    exact .look rfl (.ret ⟨rfl, List.append_nil _⟩)

/-- Inner statements of every level. -/
theorem filtered_innerStmt (one other : Dialect) (n : Nat) (hs : s.Ready n c start) :
    Filtered other c start s (StmtIn other) ((Grammar.upTo n).innerStmt one) ((Grammar.upTo n).innerStmt other) := by
  induction n generalizing c s start with
  | zero => exact .failed
  | succ n ih => exact filtered_stmt (fun _ _ _ => ih) hs

end Statements

/-- A text is read from a state in order. -/
theorem ready_ofText (source : String) : (State.ofText source).Ready ((State.ofText source).rest.length + 1)
    (.ofText source .collectAll) 0 :=
  ⟨Nat.zero_le _, Nat.lt_succ_self _, rfl, alike_self source .collectAll⟩

/-- A whole statement in another dialect. -/
theorem filtered_whole (one other : Dialect) (source : String) :
    Filtered other (.ofText source .collectAll) 0 (State.ofText source) (StmtIn other)
      (withGrammar fun g => g.stmt one) (withGrammar fun g => g.stmt other) :=
  fun s s₁ => filtered_stmt (fun _ _ _ => filtered_innerStmt one other (State.ofText source).rest.length)
    (ready_ofText source) s s₁

theorem keeps_atEndOrReport (a : α) : Keeps n (atEndOrReport a) := by
  refine (Keeps.still fun _ _ => rfl).bind fun ended => ?_
  cases ended with
  | true => exact .ret a
  | false =>
    have hreport : Keeps n (reportExpected .endOfInput) :=
      ⟨fun _ s _ => .reported s _, .of_tracks fun _ => Tracks.reportExpected _⟩
    exact hreport.bind fun _ => .ret a

end Parser

open Bluespec.Parser

variable {one other : Dialect} {source : String} {s : Stmt}

/-- The leaves of a statement that was read are in the order of the source. -/
theorem leaves_inOrder (h : parseStatement one source = .ok s) : s.leaves.Pairwise (·.start ≤ ·.start) := by
  obtain ⟨-, s₁, hrun, -, hclean⟩ := parseOnly_eq_ok.mp h
  obtain ⟨_, _, ⟨rfl, rfl⟩, hstanding, -⟩ := filtered_whole one one source s s₁ hrun hclean
  exact hstanding.inTurn

theorem parseStatement_of_permitted (h : parseStatement one source = .ok s)
    (hleaves : other.firstForbidden s.leaves = none) : parseStatement other source = .ok (s.inDialect other) := by
  obtain ⟨hlexical, s₁, hrun, hend, hclean⟩ := parseOnly_eq_ok.mp h
  obtain ⟨_, _, ⟨rfl, rfl⟩, -, hout⟩ := filtered_whole one other source s s₁ hrun hclean
  rw [hleaves] at hout
  refine parseOnly_eq_ok.mpr ⟨hlexical, s₁, ?_, hend, hclean⟩
  generalize (withGrammar fun g => g.stmt other) (.ofText source .collectAll) (State.ofText source) = run at hout ⊢
  cases hout
  rfl

theorem parseStatement_of_forbidden (h : parseStatement one source = .ok s) {x : LeafAt}
    (hx : other.firstForbidden s.leaves = some x) : ∃ d ds, parseStatement other source = .error (d :: ds) ∧
      d.problem = .grammar (.leafNotPermitted x.leaf other) ∧ d.span.start = x.start := by
  obtain ⟨hlexical, s₁, hrun, hend, hclean⟩ := parseOnly_eq_ok.mp h
  obtain ⟨_, _, ⟨rfl, rfl⟩, -, hout⟩ := filtered_whole one other source s s₁ hrun hclean
  rw [hx] at hout
  generalize hrun' : (withGrammar fun g => g.stmt other) (.ofText source .collectAll) (State.ofText source) = run
    at hout
  cases hout with
  | rejected d hproblem hstart hrejected =>
  obtain ⟨r, s'⟩ := run
  have hwhole : (((withGrammar fun g => g.stmt other) >>= atEndOrReport) (.ofText source .collectAll)
      (.ofText source)).2.Rejected d (.ofText source .collectAll) := by
    rw [bind_apply, hrun']
    cases r with
    | none => exact hrejected
    | some a => exact (keeps_atEndOrReport a).rejected (Nat.lt_succ_self _) hrejected
  obtain ⟨ds, hds⟩ := sortByStart_of_rejected hwhole
  refine ⟨d, ds, ?_, hproblem, hstart⟩
  rw [parseStatement, parseOnly_eq, verdict_of_dirty hwhole.dirty, hlexical]
  exact congrArg _ hds

/-- The leaves of a statement that was read are permitted where it was. -/
theorem firstForbidden_self (h : parseStatement one source = .ok s) : one.firstForbidden s.leaves = none := by
  cases hx : one.firstForbidden s.leaves with
  | none => rfl
  | some x =>
    obtain ⟨d, ds, herror, -⟩ := parseStatement_of_forbidden h hx
    rw [h] at herror
    cases herror

/-- A statement that one dialect accepts is accepted by each one that permits no less. -/
theorem parseStatement_of_le (h : parseStatement one source = .ok s)
    (hle : ∀ leaf, one.permits leaf = true → other.permits leaf = true) :
    parseStatement other source = .ok (s.inDialect other) := by
  refine parseStatement_of_permitted h (List.find?_eq_none.mpr fun x hx hforbidden => ?_)
  have hown := List.find?_eq_none.mp (firstForbidden_self h) x hx
  rw [Bool.not_eq_true, Bool.not_eq_false'] at hown
  rw [hle _ hown] at hforbidden
  cases hforbidden

/-- What one dialect accepts is accepted by another one, with the same tree, if all leaves are permitted there, and
is rejected at the first one that is not. -/
theorem parseStatement_filtered (h : parseStatement one source = .ok s) :
    s.leaves.Pairwise (·.start ≤ ·.start) ∧
    (∀ other : Dialect, (∀ x ∈ s.leaves, other.permits x.leaf = true) →
      parseStatement other source = .ok (s.inDialect other)) ∧
    (∀ (other : Dialect) (before after : List LeafAt) (x : LeafAt), s.leaves = before ++ x :: after →
      (∀ y ∈ before, other.permits y.leaf = true) → other.permits x.leaf = false →
      ∃ d ds, parseStatement other source = .error (d :: ds) ∧ d.span.start = x.start ∧
        d.message = x.leaf.describe ++ " is not permitted in " ++ other.describe) ∧
    (one = .expression → ∀ other, parseStatement other source = .ok (s.inDialect other)) ∧
    (one = .action → parseStatement .actionValue source = .ok (s.inDialect .actionValue)) := by
  refine ⟨leaves_inOrder h, fun other hall => ?_, fun other before after x hleaves hbefore hx => ?_, ?_, ?_⟩
  · refine parseStatement_of_permitted h (List.find?_eq_none.mpr fun x hx => ?_)
    rw [hall x hx]
    exact Bool.false_ne_true
  · have hfirst : other.firstForbidden s.leaves = some x := by
      have hnone : other.firstForbidden before = none := by
        refine List.find?_eq_none.mpr fun y hy => ?_
        rw [hbefore y hy]
        exact Bool.false_ne_true
      have hhere : other.firstForbidden (x :: after) = some x :=
        List.find?_cons_of_pos (p := fun y : LeafAt => !other.permits y.leaf) (by rw [hx]; rfl)
      rw [hleaves, Dialect.firstForbidden_append, hnone, hhere]
      rfl
    obtain ⟨d, ds, herror, hproblem, hstart⟩ := parseStatement_of_forbidden h hfirst
    refine ⟨d, ds, herror, hstart, ?_⟩
    rw [Diagnostic.message, hproblem]
    rfl
  · rintro rfl other
    exact parseStatement_of_le h fun leaf hleaf => by cases leaf <;> cases hleaf
  · rintro rfl
    exact parseStatement_of_le h fun _ _ => rfl

set_option maxRecDepth 20000 in
/-- A value is returned where actions have one, but not from an action. -/
theorem parseStatement_filtered_of_return : ∃ d ds,
    parseStatement .action "if (a) b; else return c;" = .error (d :: ds) ∧ d.span.start = 15 ∧
      d.message = "`return` is not permitted in an action block" := by
  have hrun : parseStatement .actionValue "if (a) b; else return c;" =
      .ok ⟨.cond ⟨[⟨.var "a", ⟨4, 5⟩⟩], ⟨4, 5⟩⟩ ⟨.expr ⟨.var "b", ⟨7, 8⟩⟩, ⟨7, 9⟩⟩
        (some ⟨.return_ ⟨.var "c", ⟨22, 23⟩⟩, ⟨15, 24⟩⟩), ⟨0, 24⟩⟩ := rfl
  exact (parseStatement_filtered hrun).2.2.1 .action [⟨.exprStatement, 7⟩] [] ⟨.return_, 15⟩ rfl (by decide) rfl

end Bluespec
