import Bluespec.Proofs.BeforeColon
import Bluespec.Proofs.ConfinedGrammar

/-!
# Expressions in front of a colon

What an expression ends with decides what a colon behind it is.

* **`Inner.primary_colon`**, **`Inner.suffixed_colon`**, **`Inner.operated_colon`** — the parts of expressions.
* **`innerColon_full`** — all expressions, over any number of tokens.
-/

namespace Bluespec

open Bluespec.Parser

/-- The inner expressions of the grammar in front of a colon. -/
structure InnerColon (tokens : List Token) (n : Nat) : Prop where
  expr : ∀ min, BeforeColon tokens n any true false (Grammar.full.innerExpr min)
  operand : BeforeColon tokens n any true false Grammar.full.innerOperand

/-! ## Last tokens -/

section Last

variable {g : Grammar} {H : Option Kind → Prop}

theorem endsOpen_arguments : EndsOpen H g.arguments :=
  .last fun _ => .accept rfl (.last fun _ => (EndsOpen.expectPunct _).still fun _ => .value _)

theorem endsOpen_fieldBinds : EndsOpen H g.fieldBinds :=
  .last fun _ => .last fun _ => (EndsOpen.expectPunct _).still fun _ => .value _

theorem endsOpen_concatItems : EndsOpen H g.concatItems :=
  .last fun _ => .last fun _ => (EndsOpen.expectPunct _).still fun _ => .value _

theorem endsOpen_literal {k : Kind} (hk : k.isCloser = false) : EndsOpen H (Grammar.literal k) := by
  refine (EndsOpen.expect hk).still fun t => ?_
  split
  · exact .value _
  · exact Still.bind (fun _ _ => ⟨rfl, rfl⟩) fun _ => .fail

/-- An integer literal ends with itself. -/
theorem endsOpen_primaryInt : EndsOpen (· = some .int) Grammar.full.primary := by
  have hliteral : EndsOpen any (offset >>= fun start => Grammar.literal .int >>= fun lit =>
      spanFrom start >>= fun span => pure (Expr.mk (.literal lit) span)) :=
    .last fun start => (endsOpen_literal rfl).still fun _ => .spanned
  intro c s e s' hpeek hrun
  refine hliteral c s e s' trivial ?_
  rw [Grammar.primary, bind_of_some (show offset c s = _ from rfl), bind_of_some peek_eq, hpeek] at hrun
  exact hrun

theorem endsOpen_selection (base : Expr) : EndsOpen H (g.selection base) := by
  refine .last fun _ => .last fun hi => .last fun b => ?_
  split <;> exact .last fun lo => (EndsOpen.expectPunct _).still fun _ => .value _

theorem endsOpen_memberOf (receiver : Expr) : EndsOpen H (g.memberOf receiver) := by
  refine .last fun _ => (EndsOpen.expectText rfl).isNext (fun _ => ?_) fun _ => .value _
  exact endsOpen_arguments.still fun _ => .value _

theorem endsOpen_suffix {e e' : Expr} {c : Setting} {s s' : State} (hrun : g.suffix e c s = (some (.again e'), s')) :
    ∀ t ∈ s'.consumed.head?, t.kind.isCloser = false := by
  -- a suffix begins with a parenthesis, a bracket or a dot
  have hchoice : ∀ {k : Kind} {p q : Parser (Round Expr Expr)},
      (isNext k >>= fun b => if b = true then p else q) c s = (some (.again e'), s') →
        p c s = (some (.again e'), s') ∨ q c s = (some (.again e'), s') := by
    intro k p q hrun
    obtain ⟨b, s₁, hb, hrun⟩ := bind_eq_some.mp hrun
    obtain ⟨rfl, -, -⟩ := isNext_eq_some hb
    cases b with
    | true => exact .inl hrun
    | false => exact .inr hrun
  rw [Grammar.suffix_eq] at hrun
  rcases hchoice hrun with hcall | hrun
  · exact (endsOpen_arguments (H := any)).still (fun _ => .spanned) c s _ s' trivial hcall
  rcases hchoice hrun with hselect | hrun
  · exact (endsOpen_selection (H := any) e).still (fun _ => .spanned) c s _ s' trivial hselect
  rcases hchoice hrun with hmember | hdone
  · exact (endsOpen_memberOf (H := any) e).still (fun _ => .spanned) c s _ s' trivial hmember
  · cases hdone

end Last

/-- In front of a colon no suffix follows. -/
theorem AtColon.unsuffixed {rest : List Token} (h : AtColon rest) : Unsuffixed rest := by
  obtain ⟨colon, ts, rfl, hk, -, -⟩ := h
  rintro t ⟨⟩
  rw [hk]
  rfl

/-- In front of a colon no operation follows. -/
theorem AtColon.settled {rest : List Token} (h : AtColon rest) {min : Nat} {c : Setting} {cs : List Token}
    {ds : List Diagnostic} {ns : List NodeSpan} : Grammar.Settled min c ⟨cs, rest, ds, ns⟩ := by
  obtain ⟨colon, ts, rfl, hk, -, -⟩ := h
  rintro t ⟨⟩
  rw [hk]
  exact ⟨nofun, nofun, nofun, nofun⟩

/-- An expression that comes to an operation with a report ends with one. -/
theorem Operated.dirty {p : Parser Expr} {min : Nat} {c : Setting} {s s' : State} {e : Expr} (h : Operated p min c s e s')
    (hround : (Grammar.full.operation min e c s').2.diagnostics ≠ []) :
    (((p >>= Grammar.full.suffixes) >>= Grammar.full.operations min) c s).2.diagnostics ≠ [] := by
  obtain ⟨e₁, s₁, hsuffixed, hstops, hleads⟩ := h
  rw [bind_of_some (hsuffixed.run hstops)]
  exact repeatUntil_dirty (fun e => Grammar.onward_full.operation min e) hleads hround

/-- Rounds of operations wherever these tokens stand, and the outcome of the last round in front of a colon. -/
theorem Operated.outcome {p : Parser Expr} {min : Nat} {cs ts ts' rest : List Token} {e e' : Expr}
    (hbefore : ∀ c ns, ∃ ns', Operated p min c ⟨cs, ts ++ (ts' ++ rest), [], ns⟩ e ⟨ts.reverse ++ cs, ts' ++ rest, [], ns'⟩)
    (hlast : ColonOutcome (Grammar.full.operation min e) (ts.reverse ++ cs) ts' (.again e') rest) (hne : ts' ≠ [])
    (hrest : AtColon rest) :
    ColonOutcome ((p >>= Grammar.full.suffixes) >>= Grammar.full.operations min) cs (ts ++ ts') e' rest where
  goes hopen c ns := by
    obtain ⟨ns₁, e₀, s₀, hsuffixed, hunsuffixed, hrounds⟩ := hbefore c ns
    obtain ⟨ns₂, hgo⟩ := hlast.goes (endsClosed_append hne ▸ hopen) c ns₁
    have hfewer : rest.length < (ts' ++ rest).length := by
      rw [List.length_append]
      exact Nat.lt_add_of_pos_left (List.length_pos_iff.mpr hne)
    have hoperated : Operated p min c ⟨cs, ts ++ (ts' ++ rest), [], ns⟩ e' _ :=
      ⟨e₀, s₀, hsuffixed, hunsuffixed, hrounds.trans (.one hgo hfewer)⟩
    refine ⟨ns₂, ?_⟩
    rw [Parser.bind_assoc, List.append_assoc, hoperated.run (Grammar.operation_of_settled hrest.settled e'),
      List.reverse_append, List.append_assoc]
  trips hclosed c ns := by
    obtain ⟨ns₁, hoperated⟩ := hbefore c ns
    rw [List.append_assoc]
    exact hoperated.dirty (hlast.trips (endsClosed_append hne ▸ hclosed) c ns₁)

section Walk

variable {tokens : List Token} {n : Nat} {H : Option Kind → Prop} {u : Bool} (h : Inner tokens n)

include h

/-! ## Primaries -/

theorem Inner.payload_colon (hc : InnerColon tokens n) : BeforeColon tokens n any false true Grammar.full.payload := by
  refine .peekOrEnd rfl fun k => ?_
  split
  · refine .maybe ?_
    exact .next h.fieldBinds (.inr (.of_confined h.fieldBinds endsOpen_fieldBinds)) (fun _ => .value) (Nat.le_succ n)
  · split
    · exact .maybe (.next h.operand.part (.inr hc.operand.part) (fun _ => .value) (Nat.le_succ n))
    · exact .value
  · exact .value

theorem Inner.block_colon (dialect : Dialect) {opening closing : Keyword} (hcloser : closing.isCloser = true) :
    BeforeColon tokens (n + 1) H true u (Grammar.full.block dialect opening closing) := by
  rw [block_eq]
  refine .offset fun start => .next (Confined.expectWord opening) (.inl rfl) (fun _ => ?_) (Nat.le_refl _)
  refine .seq (q := true) (h.labelled_confined dialect) (.inl rfl) (fun x => ?_) (Nat.le_refl _)
  exact .closing (P := fun _ => True) hcloser (fun l => .spanned fun _ => trivial) fun l => .spanned

theorem Inner.valueBlock_colon : BeforeColon tokens (n + 1) H true u Grammar.full.valueBlock := by
  rw [valueBlock_eq]
  refine .next (Confined.expectWord .begin) (.inl rfl) (fun _ => ?_) (Nat.le_refl _)
  refine .seq (q := true) h.valueBlockBody (.inl rfl) (fun x => ?_) (Nat.le_succ _)
  exact .closing (P := fun _ => True) rfl (fun l => .ret trivial) fun l => .value _

theorem Inner.interfaceExpr_colon : BeforeColon tokens (n + 1) (· = some (.keyword .interface)) true u
    Grammar.full.interfaceExpr := by
  refine .next (Confined.skip rfl) (.inl rfl) (fun _ => ?_) (Nat.le_refl _)
  refine .next Confined.type (.inl rfl) (fun type => ?_) (Nat.le_succ n)
  refine .next (Confined.expectPunct rfl) (.inl rfl) (fun _ => ?_) (Nat.le_succ n)
  refine .seq (q := true) (Confined.items h.interfaceStmt advances_interfaceStmt) (.inl rfl) (fun stmts => ?_)
    (Nat.le_refl _)
  exact .closing (P := fun _ => True) rfl (fun l => .ret trivial) fun l => .value _

theorem Inner.primary_colon (hc : InnerColon tokens n) :
    BeforeColon tokens (n + 1) H true u Grammar.full.primary := by
  have hone : ∀ {α : Type} {H : Option Kind → Prop} {P : α → Prop} {p : Parser α} {start : Nat} {form : α → ExprForm},
      Confined tokens (n + 1) H true u anything P p → EndsOpen H p → BeforeColon tokens (n + 1) H true u
        (p >>= fun a => spanFrom start >>= fun span => pure (Expr.mk (form a) span)) := fun hp hopen =>
    .next hp (.inr (.of_confined hp hopen)) (fun _ => .spanned) (Nat.le_refl _)
  have hclose : ∀ {start : Nat} {form : ExprForm}, BeforeColon tokens n any true true
      (expectPunct .rparen >>= fun _ => spanFrom start >>= fun span => pure (Expr.mk form span)) := by
    intro start form
    have hparen : Confined tokens n any true true anything (fun _ => True) (expectPunct .rparen) := .expectPunct rfl
    exact .next hparen (.inr (.of_confined hparen (.expectPunct _))) (fun _ => .spanned) (Nat.le_succ n)
  refine .offset fun start => .peek fun k => ?_
  split
  · exact hone (.expectText rfl) (.expectText rfl)
  · have hname : ∀ H, Confined tokens (n + 1) H true u anything (fun _ => True) (expectText .typeIdent) := fun _ =>
      .expectText rfl
    refine .next (hname _) (.inr (.of_confined (hname _) (.expectText rfl)))
      (fun name => .isNext (by decide) ?_ .spanned) (Nat.le_refl _)
    exact .next h.fieldBinds (.inr (.of_confined h.fieldBinds endsOpen_fieldBinds)) (fun _ => .spanned) (Nat.le_succ n)
  · exact hone (Inner.literal rfl) (endsOpen_literal rfl)
  · exact hone (Inner.literal rfl) (endsOpen_literal rfl)
  · exact hone (Inner.literal rfl) (endsOpen_literal rfl)
  · exact hone (Inner.literal rfl) (endsOpen_literal rfl)
  · exact hone (.skip rfl) (.skip rfl)
  · refine .next (Confined.skip rfl) (.inl rfl) (fun _ => ?_) (Nat.le_refl _)
    exact .next (h.expr 0).part (.inl rfl) (fun inner => hclose) (Nat.le_succ n)
  · exact hone h.concatItems endsOpen_concatItems
  · exact .next h.valueBlock (.inr h.valueBlock_colon) (fun _ => .spanned) (Nat.le_refl _)
  · exact .next (h.block .action (.inr ⟨.inl rfl, .inl rfl⟩)) (.inr (h.block_colon .action rfl)) (fun _ => .spanned)
      (Nat.le_refl _)
  · exact .next (h.block .actionValue (.inr ⟨.inr rfl, .inr rfl⟩)) (.inr (h.block_colon .actionValue rfl))
      (fun _ => .spanned)
      (Nat.le_refl _)
  · refine .next (Confined.skip rfl) (.inl rfl) (fun _ => ?_) (Nat.le_refl _)
    have hname : Confined tokens n any true true anything (fun _ => True) (expectText .typeIdent) := .expectText rfl
    refine .next (q := false) hname (.inr (.of_confined hname (.expectText rfl))) (fun name => ?_) (Nat.le_succ n)
    exact .seq h.payload (.inr (h.payload_colon hc)) (fun _ => .spanned) (Nat.le_refl _)
  · exact .next h.interfaceExpr (.inr h.interfaceExpr_colon) (fun _ => .spanned) (Nat.le_refl _)
  · refine .next (Confined.skip rfl) (.inl rfl) (fun _ => ?_) (Nat.le_refl _)
    refine .next (Confined.expectPunct rfl) (.inl rfl) (fun _ => ?_) (Nat.le_succ n)
    exact .next Confined.type (.inl rfl) (fun type => hclose) (Nat.le_succ n)
  · refine .dirty (Moving.systemCall.bind fun _ => (Moving.reportUnsupported _ _).bind fun _ => .fail) ?_
    exact .after systemCall_yields fun _ => (Complains.reportUnsupported _ _).bind fun _ => .fail
  · exact .failExpected _

/-! ## Suffixes -/

/-- An operand with its suffixes in front of a colon, if what begins it is known there. -/
theorem Inner.suffixed_colon {p : Parser Expr} {G : List Token → Prop}
    (hp : Confined tokens (n + 1) H true false (fun _ => G) (fun e => AllSites (Site.Alone tokens) e.form.sites) p)
    (hunary : IsUnary p) (hG : G []) (hcolon : BeforeColon tokens (n + 1) H true false p) :
    BeforeColon tokens (n + 1) H true false (p >>= Grammar.full.suffixes) where
  moves := hp.moves.bind fun e => Grammar.onward_full.suffixes e
  runs c s e s' hs hrun hclean hend := by
    obtain ⟨⟨e₀, s₀, hfirst, hleads⟩, -⟩ := Suffixed.of_run hrun
    rcases hleads.last with ⟨rfl, rfl⟩ | ⟨e₁, s₁, hleads, hround, hless⟩
    · obtain ⟨hcommon, hreads, houtcome⟩ := hcolon.runs c s e s' hs hfirst hclean hend
      refine ⟨hcommon, hreads, fun cs rest hcs hrest => ?_⟩
      refine (houtcome cs rest hcs hrest).unread (fun e => Grammar.onward_full.suffixes e) fun c' ns => ⟨ns, ?_⟩
      exact Grammar.suffixes_of_head e hrest.unsuffixed
    -- the last suffix ends with a closing bracket or a name
    · have hmoved : s₁.Moves s' := (Grammar.onward_full.suffix e₁).of_run hround
      obtain ⟨-, ts, hreached⟩ := h.reached_suffixes hp hunary hG hs hfirst hleads (hmoved.clean hclean)
      have hlater : Starts tokens n any s₁ :=
        hs.later hreached.took (Nat.add_le_add_left (List.length_pos_iff.mpr hreached.reads) n)
      obtain ⟨-, ts', hcommon, hts'⟩ := (h.suffix e₁).runs c s₁ _ s' hlater hround hclean
      have hne : ts' ≠ [] := by
        rintro rfl
        rw [show s₁.rest = s'.rest from hts'.took.rest] at hless
        exact Nat.lt_irrefl _ hless
      have hall : Reached (Suffixed p) Unsuffixed s (ts ++ ts') e s' := by
        refine hreached.round hts' hne (fun rest _ => .inl ?_) ?_
        · obtain ⟨t, us, rfl⟩ := List.exists_cons_of_ne_nil hne
          rw [hts'.took.rest]
          exact .of_cons (hcommon t rfl)
        · rintro c s s₁ s₂ ⟨e₀, s₀, hp, hleads⟩ hround hless
          exact ⟨e₀, s₀, hp, hleads.trans (.one hround hless)⟩
      rw [BeforeColon.took_all hall.took hend]
      refine ⟨hall.head, fun _ => hall.reads, fun cs rest _ hrest => ⟨fun _ c' ns => ?_, fun hclosed => ?_⟩⟩
      · obtain ⟨ns', hsuffixed⟩ := hall.again c' cs rest ns (.inr hrest.unsuffixed)
        exact ⟨ns', hsuffixed.run hrest.unsuffixed⟩
      · rw [hall.took.endsClosed (endsOpen_suffix hround)] at hclosed
        cases hclosed

theorem Inner.operand_colon (hc : InnerColon tokens n) : BeforeColon tokens (n + 1) H true false Grammar.full.operand :=
  h.suffixed_colon h.primary isUnary_primary nofun (h.primary_colon hc)

/-! ## Operations -/

theorem Inner.conditional_colon (hc : InnerColon tokens n) (p : Predicate) :
    BeforeColon tokens n any true true (Grammar.full.conditional p) := by
  refine .next (Confined.expectPunct rfl) (.inl rfl) (fun _ => ?_) (Nat.le_succ n)
  refine .next (h.expr 0).part (.inl rfl) (fun _ => ?_) (Nat.le_succ n)
  refine .next (Confined.expectPunct rfl) (.inl rfl) (fun _ => ?_) (Nat.le_succ n)
  exact .next (h.expr _).part (.inr (hc.expr _).part) (fun _ => .spanned) (Nat.le_succ n)

/-- One operation up to the last token. -/
theorem Inner.operation_colon (hc : InnerColon tokens n) {min : Nat} {e e' : Expr} {c : Setting} {s s' : State}
    (hs : Starts tokens n any s) (hrun : Grammar.full.operation min e c s = (some (.again e'), s'))
    (hclean : s'.diagnostics = []) (hend : s'.rest = []) (cs rest : List Token) (hcs : lastStop cs = lastStop s.consumed)
    (hrest : AtColon rest) : ColonOutcome (Grammar.full.operation min e) cs s.rest (.again e') rest := by
  cases Grammar.operation_cases hrun with
  | conditional hnext hk hmin hrun =>
    obtain ⟨-, -, houtcome⟩ := (h.conditional_colon hc _).runs c s e' s' hs hrun hclean hend
    refine (houtcome cs rest (fun _ => hcs) hrest).again.congr fun c' ns => ?_
    rw [hnext, List.cons_append, Grammar.operation_of_question e hk, if_pos hmin]
  | chained hnext hk hmin hconjuncts hrun =>
    obtain ⟨hothers, hne, hpeek⟩ := Grammar.conjunctsOfConditional_eq_some.mp hconjuncts
    obtain ⟨ts, hts⟩ := h.conditionsAbove hs.bound hs.within hothers
      (((h.conditional_colon hc _).moves.of_run hrun).clean hclean)
    obtain ⟨hcommon, hreads, houtcome⟩ := (h.conditional_colon hc _).runs c _ e' s'
      (hs.later hts.took (Nat.le_add_right _ _)) hrun hclean hend
    have hconditions := hts.ne_nil hnext hk hpeek
    have hlast := lastStop_reverse_append hconditions cs s.consumed
    rw [← hts.took.consumed] at hlast
    obtain ⟨u, vs, hquestion⟩ := List.exists_cons_of_ne_nil (hreads rfl)
    rw [hts.took.rest]
    refine .behind (fun c' ns => hts.chained hconditions hne hpeek hmin ?_ e c' cs ns)
      (houtcome _ rest (fun _ => hlast) hrest).again (hreads rfl)
    rw [hquestion] at hcommon ⊢
    exact .of_cons (hcommon u rfl)
  | @binary t _ op rhs _ hnext hop hmin hrun =>
    have hstep := State.Took.step hnext
    obtain ⟨-, hreads, houtcome⟩ := (hc.expr _).runs c s.step _ s' (hs.later hstep (Nat.le_add_right _ _)) hrun hclean hend
    have hround : ColonOutcome (Grammar.full.innerExpr (op.power + 1) >>= fun rhs =>
        pure (Round.again ⟨.binary op e rhs, ⟨e.span.start, rhs.span.stop⟩⟩ : Round Expr Expr))
        ([t].reverse ++ cs) s.step.rest (.again ⟨.binary op e rhs, ⟨e.span.start, rhs.span.stop⟩⟩) rest :=
      (houtcome _ rest nofun hrest).unread (fun _ => .value _) .value
    rw [hstep.rest]
    refine .behind (fun c' ns => ⟨ns, ?_⟩) hround (hreads rfl)
    rw [List.singleton_append, Grammar.operation_of_binary e hop, if_pos hmin, bind_of_some skip_cons]
    rfl

/-- An operand with its suffixes and operations in front of a colon. -/
theorem Inner.operated_colon (hc : InnerColon tokens n) {p : Parser Expr} {min : Nat} (hunary : IsUnary p)
    (hp : Confined tokens (n + 1) H true false (fun _ => OperandStops) (fun e => AllSites (Site.Alone tokens) e.sites)
      (p >>= Grammar.full.suffixes)) (hcolon : BeforeColon tokens (n + 1) H true false (p >>= Grammar.full.suffixes)) :
    BeforeColon tokens (n + 1) H true false ((p >>= Grammar.full.suffixes) >>= Grammar.full.operations min) where
  moves := (h.operated hunary hp).moves
  runs c s e s' hs hrun hclean hend := by
    obtain ⟨e₁, s₁, hfirst, hloop⟩ := bind_eq_some.mp hrun
    obtain ⟨e₂, s₂, hleads, hdone⟩ := leads_of_repeatUntil (fun _ _ _ _ => operation_reads) hloop
    obtain ⟨rfl, rfl⟩ : e₂ = e ∧ s₂ = s' := by
      cases Grammar.operation_cases hdone with
      | done => exact ⟨rfl, rfl⟩
    have hmoves : ∀ e, Moving (Grammar.full.operation min e) := fun e => Grammar.onward_full.operation min e
    have hsettles : ∀ e cs rest, AtColon rest → Goes (Grammar.full.operations min e) cs [] e rest :=
      fun e cs rest hrest c' ns => ⟨ns, Grammar.operations_of_settled hrest.settled e⟩
    rcases hleads.last with ⟨rfl, rfl⟩ | ⟨e₃, s₃, hleads, hround, hless⟩
    · obtain ⟨hcommon, hreads, houtcome⟩ := hcolon.runs c s e₂ s₂ hs hfirst hclean hend
      refine ⟨hcommon, hreads, fun cs rest hcs hrest => ?_⟩
      exact (houtcome cs rest hcs hrest).unread (fun e => Grammar.onward_full.operations min e) (hsettles _ _ _ hrest)
    · have hclean₃ := ((hmoves e₃).of_run hround).clean hclean
      obtain ⟨-, ts, F, hreached, -, hbefore⟩ := h.reached_operations hunary hp hs hfirst hleads hclean₃
      have hlater : Starts tokens n any s₃ :=
        hs.later hreached.took (Nat.add_le_add_left (List.length_pos_iff.mpr hreached.reads) n)
      obtain ⟨ts', F', hts'⟩ := h.operates hlater hround hclean
      have hne := hts'.contained.reads rfl
      have hall := BeforeColon.took_all (hreached.took.append hts'.contained.took) hend
      have hlast : s₃.rest = ts' := BeforeColon.took_all hts'.contained.took hend
      rw [hall]
      refine ⟨?_, fun _ => List.append_ne_nil_of_left_ne_nil hreached.reads _, fun cs rest _ hrest => ?_⟩
      · obtain ⟨t, us, hcons⟩ := List.exists_cons_of_ne_nil hreached.reads
        intro t' ht
        refine hreached.head t' ?_
        rw [hcons] at ht ⊢
        exact ht
      -- the rounds before the last one go the same way, and the last one decides
      · have hstops : lastStop (ts.reverse ++ cs) = lastStop s₃.consumed := by
          rw [hreached.took.consumed]
          exact lastStop_reverse_append hreached.reads _ _
        have houtcome := h.operation_colon hc hlater hround hclean hend (ts.reverse ++ cs) rest hstops hrest
        rw [hlast] at houtcome
        have hbefore := fun c' ns => hreached.again c' cs (ts' ++ rest) ns (hts'.next hbefore rest)
        exact Operated.outcome hbefore houtcome hne hrest

/-! ## Unary operators -/

theorem Inner.unsignedTail_colon (hc : InnerColon tokens n) (start : Nat) (op : UnaryOp) :
    BeforeColon tokens (n + 1) H true true (Grammar.full.primary >>= Inner.unsignedTail Grammar.full start op) := by
  have hassoc : Grammar.full.primary >>= Inner.unsignedTail Grammar.full start op =
      (Grammar.full.operand >>= Grammar.full.operations unaryPower) >>= fun inner =>
        spanFrom start >>= fun span => pure (Expr.mk (.unary op inner) span) := by
    simp only [Grammar.operand, Parser.bind_assoc]
    rfl
  rw [hassoc]
  exact .next (h.operated isUnary_primary h.operand_confined).behind
    (.inr (h.operated_colon hc isUnary_primary h.operand_confined (h.operand_colon hc)).part) (fun _ => .spanned)
    (Nat.le_succ _)

theorem Inner.unaryOperand_colon (hc : InnerColon tokens n) (start : Nat) (op : UnaryOp) :
    BeforeColon tokens n any true true (Grammar.full.unaryOperand start op) := by
  have hinner : BeforeColon tokens n any true true (Grammar.full.innerExpr unaryPower >>= fun inner =>
      spanFrom start >>= fun span => pure (Expr.mk (.unary op inner) span)) :=
    .next (h.expr unaryPower).part (.inr (hc.expr unaryPower).part) (fun _ => .spanned) (Nat.le_succ _)
  unfold Grammar.unaryOperand
  split
  · next sign _ =>
    have hliteral : BeforeColon tokens (n + 1) (· = some .int) true true
        (Grammar.full.primary >>= Inner.signedTail Grammar.full start op sign) := by
      refine .byValue (fun e => (e.form.withSign? sign).isSome) h.primaryInt (endsOpen_primaryInt) (fun lit hlit => ?_)
        (h.unsignedTail_colon hc start op) (Inner.moving_unsignedTail start op) fun lit hlit => ?_
      · obtain ⟨form, hform⟩ := Option.isSome_iff_exists.mp hlit
        rw [Inner.signedTail, hform]
        exact .spanned
      · rw [Option.isSome_eq_false_iff, Option.isNone_iff_eq_none] at hlit
        rw [Inner.signedTail, hlit]
    refine .isNext (by decide) ?_ hinner
    exact hliteral.weaken (Nat.le_succ n) (fun _ hk => hk) id
  · exact hinner

theorem Inner.unary_colon (hc : InnerColon tokens n) : BeforeColon tokens (n + 1) H true false Grammar.full.unary := by
  refine .peek fun k => ?_
  split
  · exact h.primary_colon hc
  · next op hop =>
    obtain ⟨k', rfl, hk⟩ := Option.bind_eq_some_iff.mp hop
    exact .offset fun start => .next (Confined.skip (UnaryOp.calm hk)) (.inl rfl) (fun _ => h.unaryOperand_colon hc start op)
      (Nat.le_refl _)

/-! ## Expressions -/

theorem Inner.expr_colon (hc : InnerColon tokens n) (min : Nat) :
    BeforeColon tokens (n + 1) H true false (Grammar.full.expr min) := by
  have hassoc : Grammar.full.expr min = (Grammar.full.unary >>= Grammar.full.suffixes) >>= Grammar.full.operations min := by
    simp only [Grammar.expr, Parser.bind_assoc]
  have hunary : IsUnary Grammar.full.unary := fun _ _ _ _ hrun => hrun
  rw [hassoc]
  exact h.operated_colon hc hunary h.suffixedUnary
    (h.suffixed_colon h.unary hunary (fun t ht => by cases ht) (h.unary_colon hc))

end Walk

/-- The inner expressions in front of a colon, over any number of tokens. -/
theorem innerColon_full (tokens : List Token) (n : Nat) : InnerColon tokens n := by
  induction n with
  | zero => exact ⟨fun min => .vacuous (Grammar.onward_full.expr min), .vacuous Grammar.onward_full.operand⟩
  | succ n ih =>
    have h := inner_full tokens n
    refine ⟨fun min => ?_, ?_⟩
    · rw [Grammar.innerExpr_eq]
      exact h.expr_colon ih min
    · rw [Grammar.innerOperand_eq]
      exact h.operand_colon ih

end Bluespec
