import Bluespec.Proofs.ConfinedDefinitions

/-!
# The whole grammar is confined

Where a statement ends is told by its last part: a conditional may go on with its other branch, and an action block
without a semicolon with a suffix.

* **`Inner.actionStmt`**, **`Inner.ifStmt`** — the statements that end in such a way.
* **`Inner.stmt_confined`** — statements.
* **`inner_full`** — all inner productions, over any number of tokens.
-/

namespace Bluespec

open Bluespec.Parser

/-! ## Where an operand ends -/

namespace Parser

/-- The value of a parser is written from an offset up to where the parser ends. -/
def WrittenFrom (start : Nat) (p : Parser Expr) : Prop :=
  ∀ c s e s', p c s = (some e, s') → e.span = s'.spanFrom start

namespace WrittenFrom

variable {β : Type} {start : Nat}

theorem fail : WrittenFrom start fail := fun _ _ _ _ h => by cases h

theorem bind {p : Parser β} {f : β → Parser Expr} (h : ∀ b, WrittenFrom start (f b)) : WrittenFrom start (p >>= f) := by
  intro c s e s' hrun
  obtain ⟨b, s₁, -, hf⟩ := bind_eq_some.mp hrun
  exact h b c s₁ e s' hf

theorem spanning {form : ExprForm} : WrittenFrom start (spanFrom start >>= fun span => pure (Expr.mk form span)) := by
  intro c s e s' hrun
  cases hrun
  rfl

end WrittenFrom

end Parser

namespace Grammar

variable {g : Grammar} {c : Setting} {s s' : State} {e : Expr}

theorem primary_span (h : g.primary c s = (some e, s')) : e.span = s'.spanFrom (s.peekSpan c).start := by
  obtain ⟨start, s₁, hstart, h⟩ := bind_eq_some.mp h
  cases hstart
  refine WrittenFrom.bind (fun k => ?_) _ _ _ _ h
  split <;> repeat (first | exact .spanning | exact .fail | refine .bind fun _ => ?_ | split)

theorem suffix_span {e' : Expr} (h : g.suffix e c s = (some (.again e'), s')) : e'.span = s'.spanFrom e.span.start := by
  have hround : ∀ {α : Type} {p : Parser α} {form : α → ExprForm}, (p >>= fun a => spanFrom e.span.start >>= fun span =>
      pure (Round.again ⟨form a, span⟩ : Round Expr Expr)) c s = (some (.again e'), s') →
        e'.span = s'.spanFrom e.span.start := by
    intro α p form h
    obtain ⟨a, s₁, -, h⟩ := bind_eq_some.mp h
    cases h
    rfl
  rw [suffix_eq] at h
  obtain ⟨b, s₁, hb, h⟩ := bind_eq_some.mp h
  cases hb
  split at h
  · exact hround h
  · obtain ⟨b, s₁, hb, h⟩ := bind_eq_some.mp h
    cases hb
    split at h
    · exact hround h
    · obtain ⟨b, s₁, hb, h⟩ := bind_eq_some.mp h
      cases hb
      split at h
      · exact hround h
      · cases h

/-- An operand is written from its first token up to where its last suffix ends. -/
theorem operand_span (h : g.operand c s = (some e, s')) : e.span = s'.spanFrom (s.peekSpan c).start := by
  obtain ⟨first, s₁, hfirst, h⟩ := bind_eq_some.mp h
  obtain ⟨last, s₂, hspan, hdone⟩ := repeatUntil_induct
    (motive := fun e s' => e.span = s'.spanFrom (s.peekSpan c).start)
    (fun e s₁ e' s₂ hspan hround => by rw [suffix_span hround, hspan]; rfl) (primary_span hfirst) h
  obtain ⟨rfl, rfl, -⟩ := eq_of_suffix_done hdone
  exact hspan

end Grammar

namespace Inner

variable {tokens : List Token} {n : Nat} {H : Option Kind → Prop} {u : Bool}

/-! ## Action blocks -/

theorem primaryAction (h : Inner tokens n) : Confined tokens (n + 1) AtAction true u (fun _ => Lacks (.punct .colon))
    (fun e => AllSites (Site.Alone tokens) e.form.sites) Grammar.full.primary := by
  have hmoves : Moving Grammar.full.primary := (h.primary (H := any) (u := true)).moves
  have hblock : ∀ (H : Option Kind → Prop) (dialect : Dialect) {opening closing : Keyword} (form : Block → ExprForm),
      opening.Pair closing → (∀ b, (form b).sites = b.sites) →
      Confined tokens (n + 1) H true u (fun _ => Lacks (.punct .colon))
        (fun e => AllSites (Site.Alone tokens) e.form.sites) (offset >>= fun start =>
          Grammar.full.block dialect opening closing >>= fun b =>
            spanFrom start >>= fun span => pure (Expr.mk (form b) span)) := by
    intro H dialect opening closing form hpair hform
    exact .offset fun start => (h.block dialect hpair).first false .same fun b => .spanned fun _ hb => hform b ▸ hb
  have hpeek : ∀ c (s : State), peek c s = (some s.peek, s) := fun _ _ => rfl
  have hoffset : ∀ c (s : State), offset c s = (some (s.peekSpan c).start, s) := fun _ _ => rfl
  refine .byHead (T := (· = some (.keyword .action))) ?_ ?_
  · refine (hblock _ .action .actionBlock (.inr ⟨.inl rfl, .inl rfl⟩) fun _ => rfl).congr (fun c s hk => ?_) hmoves
    rw [Grammar.primary, bind_of_some (hoffset c s), bind_of_some (hoffset c s), bind_of_some (hpeek c s), hk.2]
  · refine (hblock _ .actionValue .actionValueBlock (.inr ⟨.inr rfl, .inr rfl⟩) fun _ => rfl).congr (fun c s hk => ?_)
      hmoves
    rw [Grammar.primary, bind_of_some (hoffset c s), bind_of_some (hoffset c s), bind_of_some (hpeek c s),
      hk.1.resolve_left hk.2]

/-- An action block with its suffixes, behind the places where it starts. -/
def startedAction (g : Grammar) : Parser (Nat × Span × Expr) := do
  let start ← offset
  let span ← peekSpan
  let e ← g.operand
  return (start, span, e)

/-- The rest of a statement that begins with an action block. -/
def actionTail (dialect : Dialect) (x : Nat × Span × Expr) : Parser Stmt := do
  let _ ← eat (.punct .semi)
  permit dialect .actionBlock x.2.1
  return ⟨.expr x.2.2, ← spanFrom x.1⟩

theorem startedAction_confined (h : Inner tokens n) : Confined tokens (n + 1) AtAction true u
    (fun _ rest => Lacks (.punct .colon) rest ∧ Unsuffixed rest) (fun x => AllSites (Site.Alone tokens) x.2.2.sites)
    (startedAction Grammar.full) := by
  have hoperand : Confined tokens (n + 1) AtAction true u (fun _ rest => Lacks (.punct .colon) rest ∧ Unsuffixed rest)
      (fun e => AllSites (Site.Alone tokens) e.sites) Grammar.full.operand :=
    (h.suffixed h.primaryAction isUnary_primary nofun steady_operand).behind
  exact .offset fun start => .peekSpan fun span => hoperand.first false .same fun e => .ret id

/-- Where no semicolon follows an action block, the statement ends with it. -/
theorem endsBare_of_actionTail {dialect : Dialect} {c : Setting} {s s₁ s' : State} {x : Nat × Span × Expr} {st : Stmt}
    (hfirst : startedAction Grammar.full c s = (some x, s₁)) (htail : actionTail dialect x c s₁ = (some st, s'))
    (hnil : s₁.Took [] s') : st.endsBare = true := by
  obtain ⟨start, s₀, hstart, hfirst⟩ := bind_eq_some.mp hfirst
  cases hstart
  obtain ⟨span, s₀, hspan, hfirst⟩ := bind_eq_some.mp hfirst
  cases hspan
  obtain ⟨e, s₁, hoperand, hfirst⟩ := bind_eq_some.mp hfirst
  cases hfirst
  obtain ⟨t, s₂, -, htail⟩ := bind_eq_some.mp htail
  obtain ⟨_, s₃, -, htail⟩ := bind_eq_some.mp htail
  cases htail
  have hlast : s'.lastEnd = s₁.lastEnd := by rw [State.lastEnd, State.lastEnd, hnil.consumed]; rfl
  show ((s'.spanFrom _).stop == e.span.stop) = true
  rw [Grammar.operand_span hoperand, State.spanFrom, State.spanFrom, hlast]
  exact beq_self_eq_true _

theorem actionStmt (h : Inner tokens n) (dialect : Dialect) : Confined tokens (n + 1) AtAction true u StmtStops
    (fun s => AllSites (Site.Alone tokens) (s.form.sites dialect))
    (startedAction Grammar.full >>= actionTail dialect) := by
  refine .keepUnread h.startedAction_confined (fun x => ?_) ?_
  · have hend : Confined tokens (n + 1) any false true StmtStops (fun s => AllSites (Site.Alone tokens) x.2.2.sites →
        AllSites (Site.Alone tokens) (s.form.sites dialect))
        (permit dialect .actionBlock x.2.1 >>= fun _ => spanFrom x.1 >>= fun span => pure (Stmt.mk (.expr x.2.2) span)) :=
      .permit (.spanned fun _ => id)
    exact .eat rfl (.inr fun _ rest hstops t ht => (hstops t ht).1.2.1) (fun _ => hend.imp fun _ hs _ => hs) hend
  · intro c s x s₁ st s' _ hfirst htail _ hnil rest hstops
    have hbare := endsBare_of_actionTail hfirst htail hnil
    exact ⟨fun t ht => (hstops t ht).1.1, fun t ht => (hstops t ht).2 hbare⟩

/-! ## Conditionals -/

/-- What follows does not continue a statement of the form, wherever it is written. -/
def FormStops (form : StmtForm) (rest : List Token) : Prop := ∃ span, StmtStops ⟨form, span⟩ rest

theorem FormStops.colon {form : StmtForm} {rest : List Token} (h : FormStops form rest) : Lacks (.punct .colon) rest :=
  fun t ht => (h.choose_spec t ht).1.1

theorem ifStmt (h : Inner tokens n) (dialect : Dialect) : Confined tokens (n + 1) (· = some (.keyword .if_)) true u
    FormStops (fun form => AllSites (Site.Alone tokens) (form.sites dialect)) (Grammar.full.ifStmt dialect) := by
  refine .enter true .reads (.skip rfl) fun _ => h.parenPredicate.keep true .reads fun predicate => ?_
  refine .keepUnread (h.stmt dialect).part (fun thenBranch => ?_) ?_
  · have hsites : ∀ elseBranch : Option Stmt, (∀ s ∈ elseBranch, AllSites (Site.Alone tokens) (s.sites dialect)) →
        AllSites (Site.Alone tokens) (thenBranch.sites dialect) → AllSites (Site.Alone tokens) predicate.sites →
        AllSites (Site.Alone tokens) ((StmtForm.cond predicate thenBranch elseBranch).sites dialect) :=
      fun _ helse hthen hpredicate => StmtForm.allSites_cond.mpr ⟨⟨hpredicate, hthen⟩, helse⟩
    refine .acceptOf rfl (fun form => form.isOpen = true)
      (.inr fun _ rest hopen hstops t ht => (hstops.choose_spec t ht).1.2.2 hopen) (.maybe (r := true) ?_)
      (.ret ⟨rfl, hsites none nofun⟩)
    have helse : Confined tokens n any true true (fun s rest => ∀ b ∈ s, StmtStops b rest)
        (fun s => ∀ b ∈ s, AllSites (Site.Alone tokens) (b.sites dialect)) (some <$> Grammar.full.innerStmt dialect) := by
      rw [map_eq_bind]
      refine (h.stmt dialect).part.keepOf false (fun b s => s = some b) (.inr ?_) fun b => .ret ⟨rfl, ?_⟩
      · rintro b s rest rfl hstops
        exact hstops b rfl
      · rintro hb b' ⟨⟩
        exact hb
    refine helse.keepOf false (fun b form => form = .cond predicate thenBranch b) (.inr ?_) fun b => .ret ⟨rfl, hsites b⟩
    rintro b form rest rfl ⟨span, hstops⟩ b' ⟨⟩
    exact hstops
  · intro c s a s₁ form s' _ _ htail _ hnil rest ⟨span, hstops⟩
    obtain ⟨b, s₂, haccept, hbranch⟩ := bind_eq_some.mp htail
    rcases accept_eq_some haccept with ⟨rfl, t, -, hrest⟩ | ⟨rfl, rfl, -⟩
    · obtain ⟨b, s₃, helse, hdone⟩ := bind_eq_some.mp hbranch
      cases hdone
      have hle := (((Grammar.onward_full.stmt dialect).bind fun b => .value (some b)).of_run helse).length_le
      have hlen := congrArg List.length (hrest.symm.trans hnil.rest)
      rw [List.length_cons, List.length_append, List.length_nil] at hlen
      omega
    · cases hbranch
      exact hstops.onlyBranch

/-! ## Statements -/

/-- A statement that does not begin with an action block, by its first token. -/
theorem stmtForm (h : Inner tokens n) (dialect : Dialect) : Confined tokens (n + 1) (fun k => ¬ AtAction k) true u
    FormStops (fun form => AllSites (Site.Alone tokens) (form.sites dialect)) (Grammar.full.stmtForm dialect) := by
  have hcolon : ∀ {γ : Type}, Tail false FormStops fun _ : γ => Lacks (.punct .colon) := .inr fun _ _ _ h => h.colon
  have hnext : ∀ {k : Option Kind} {p : Parser StmtForm},
      Confined tokens (n + 1) (· = k) true u FormStops (fun form => AllSites (Site.Alone tokens) (form.sites dialect)) p →
      Confined tokens (n + 1) (fun k' => ¬ AtAction k' ∧ k' = k) true u FormStops
        (fun form => AllSites (Site.Alone tokens) (form.sites dialect)) p := fun hp =>
    hp.weaken (Nat.le_refl _) (fun _ hk => hk.2) id id (fun _ _ h => h) fun _ h => h
  have haction : Moving (Grammar.full.actionStmt dialect) := by
    refine .bind (.look fun _ _ => rfl) fun span => (Grammar.onward_full.suffixed).bind fun e => ?_
    exact (Moving.eat _).bind fun _ => (Moving.permit _ _ _).bind fun _ => .value _
  refine .peekOf fun k => ?_
  split
  · exact (h.block dialect (.inl ⟨rfl, rfl⟩)).first false hcolon fun b => .ret id
  · exact hnext (h.ifStmt dialect)
  · exact hnext (.peekSpan fun span => h.returned.first false .any fun e => .permit (.ret id))
  · exact hnext (h.functionDef.first false hcolon fun d => .ret id)
  · exact hnext (h.moduleDef.first false hcolon fun d => .ret id)
  · exact skipUnsupported dialect
  · exact skipUnsupported dialect
  · exact skipUnsupported dialect
  · exact systemTask dialect
  · exact .nowhere haction fun k hk => hk.1 (.inl hk.2)
  · exact .nowhere haction fun k hk => hk.1 (.inr hk.2)
  · exact .failExpected _
  · refine h.simple.first false .any fun x => ?_
    have hpermit : permitSimple dialect x = permitSimple dialect x >>= pure := by
      funext c s
      rw [bind_apply]
      rcases permitSimple dialect x c s with ⟨_ | form, s'⟩ <;> rfl
    rw [hpermit]
    exact .permitSimple (.ret fun hx => by rw [SimpleStmt.sites_form]; exact hx)

/-- A statement behind its attributes. -/
def plainStmt (g : Grammar) (dialect : Dialect) : Parser Stmt := do
  let start ← offset
  let form ← g.stmtForm dialect
  return ⟨form, ← spanFrom start⟩

theorem actionStmt_eq {dialect : Dialect} {c : Setting} {s : State} (haction : AtAction s.peek) :
    plainStmt Grammar.full dialect c s = (startedAction Grammar.full >>= actionTail dialect) c s := by
  have hassoc : (startedAction Grammar.full >>= actionTail dialect) = (do
      let start ← offset
      let form ← Grammar.full.actionStmt dialect
      let span ← spanFrom start
      return ⟨form, span⟩) := by
    simp only [startedAction, actionTail, Grammar.actionStmt, Parser.bind_assoc, Parser.pure_bind]
  rw [hassoc, plainStmt, bind_of_some offset_eq, bind_of_some offset_eq, bind_apply, bind_apply,
    stmtForm_of_action dialect haction]

theorem plainStmt_confined (h : Inner tokens n) (dialect : Dialect) : Confined tokens (n + 1) H true u StmtStops
    (fun s => AllSites (Site.Alone tokens) (s.form.sites dialect)) (plainStmt Grammar.full dialect) := by
  have hform : Confined tokens (n + 1) (fun k => H k ∧ ¬ AtAction k) true u FormStops
      (fun form => AllSites (Site.Alone tokens) (form.sites dialect)) (Grammar.full.stmtForm dialect) :=
    (h.stmtForm dialect).weaken (Nat.le_refl _) (fun _ hk => hk.2) id id (fun _ _ h => h) fun _ h => h
  have haction : Confined tokens (n + 1) (fun k => H k ∧ AtAction k) true u StmtStops
      (fun s => AllSites (Site.Alone tokens) (s.form.sites dialect)) (startedAction Grammar.full >>= actionTail dialect) :=
    (h.actionStmt dialect).weaken (Nat.le_refl _) (fun _ hk => hk.2) id id (fun _ _ h => h) fun _ h => h
  refine .byHead (T := AtAction) (haction.congr (fun c s hk => actionStmt_eq hk.2) ?_) (.offset fun start => ?_)
  · exact .bind (.look fun _ _ => rfl) fun start => hform.moves.bind fun form =>
      .bind (.look fun _ _ => rfl) fun span => .value _
  · refine hform.keepOf false (fun form s => s.form = form) (.inr ?_) fun form => .spanned fun span => ⟨rfl, id⟩
    rintro form ⟨_, span⟩ rest rfl hstops
    exact ⟨span, hstops⟩

theorem stmt_confined (h : Inner tokens n) (dialect : Dialect) : Confined tokens (n + 1) H true false StmtStops
    (fun s => AllSites (Site.Alone tokens) (s.sites dialect)) (Grammar.full.stmt dialect) := by
  have hstmt : Confined tokens (n + 1) H true false StmtStops
      (fun s => AllSites (Site.Alone tokens) (s.form.sites dialect)) (Grammar.full.stmt dialect) :=
    .skipAttributes (h.plainStmt_confined dialect)
  refine ⟨hstmt.moves, hstmt.fails, fun c s st s' hs hrun hclean => ?_⟩
  obtain ⟨hsites, ts, hcommon, hts⟩ := hstmt.runs c s st s' hs hrun hclean
  obtain ⟨us, hus⟩ := hs.within
  have hinfix : ts <:+: tokens := ⟨us, s'.rest, by rw [← hus, hts.took.rest, List.append_assoc]⟩
  have halone : Site.Alone tokens (.stmt dialect st) := ⟨ts, hts.reads rfl, hinfix, hts.again [] [] nofun (.inr nofun)⟩
  exact ⟨Stmt.allSites.mpr ⟨halone, hsites⟩, ts, hcommon, hts⟩

/-! ## All levels -/

theorem next (h : Inner tokens n) : Inner tokens (n + 1) where
  expr min := by
    rw [Grammar.innerExpr_eq]
    exact h.expr_confined min
  operand := by
    rw [Grammar.innerOperand_eq]
    exact h.operand_confined
  stmt dialect := by
    rw [Grammar.innerStmt_eq]
    exact h.stmt_confined dialect
  method := (h.methodDef.narrow fun _ _ h => h.elim).congr
    (fun _ _ hk => Grammar.full_methodDef (State.headed_of_peek hk)) Grammar.onward_full.method
  subinterface := (h.subinterfaceDef.narrow fun _ _ h => h.elim).congr
    (fun _ _ hk => Grammar.full_subinterfaceDef (State.headed_of_peek hk)) Grammar.onward_full.subinterface
  module := (h.moduleDef.narrow fun _ _ h => h.elim).congr
    (fun _ _ hk => Grammar.full_moduleDef (State.headed_of_peek hk)) Grammar.onward_full.module

end Inner

/-- All inner productions are confined, over any number of tokens. -/
theorem inner_full (tokens : List Token) (n : Nat) : Inner tokens n := by
  induction n with
  | zero => exact .zero tokens
  | succ n ih => exact ih.next

end Bluespec
