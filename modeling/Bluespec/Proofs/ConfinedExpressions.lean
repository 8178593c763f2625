import Bluespec.Proofs.ConfinedBlocks

/-!
# Expressions are confined

* **`Inner.primary`**, **`Inner.operand`** — primaries, and primaries with suffixes.
* **`Inner.unary`**, **`Inner.expr`** — operands behind unary operators, and expressions.
-/

namespace Bluespec

open Bluespec.Parser

namespace Inner

variable {tokens : List Token} {n : Nat} {H : Option Kind → Prop} {u : Bool}

/-! ## Primaries -/

theorem literal {k : Kind} (hk : k.isCalm = true) :
    Confined tokens n H true u anything (fun _ => True) (Grammar.literal k) := by
  refine .seq false .any (.expect hk) fun t => ?_
  split
  · exact .ret trivial
  · exact .reportFail _ _

/-- Whether what a tag holds begins with a token. -/
def holdsPayload (k : Option Kind) : Bool := k.any fun k => k == .punct .lbrace || Grammar.startsPayload k

/-- What a tag holds begins with no token before which an operand ends. -/
theorem not_holdsPayload {k : Kind} (h : k.asks = true ∨ k.endsExpr = true) : holdsPayload (some k) = false := by
  rcases h with h | h
  · cases k with
    | punct p => cases p <;> first | rfl | cases h
    | _ => cases h
  · cases k with
    | punct p => cases p <;> first | rfl | cases h
    | keyword w => cases w <;> first | rfl | cases h
    | _ => cases h

theorem payload (h : Inner tokens n) : Confined tokens n any false u (fun _ => OperandStops)
    (fun p => AllSites (Site.Alone tokens) p.sites) Grammar.full.payload := by
  refine .peekIf holdsPayload (q := pure .none) ?_ ?_ ?_ (.ret allSites_nil)
  · intro _ rest hstops
    cases rest with
    | nil => rfl
    | cons t rest =>
      rw [List.head?_cons, Option.map_some]
      exact not_holdsPayload (hstops t rfl)
  · intro k hk
    split
    · cases hk
    · next k _ =>
      rw [holdsPayload, Option.any_some, Bool.or_eq_false_iff] at hk
      rw [if_neg (by rw [hk.2]; exact Bool.false_ne_true)]
    · rfl
  · intro k hk
    split
    · exact h.fieldBinds.keep false .any fun ms => .ret FieldBind.allSitesIn.mpr
    · next k hne =>
      rw [holdsPayload, Option.any_some, Bool.or_eq_true_iff] at hk
      rcases hk with hk | hk
      · exact absurd (eq_of_beq hk) hne
      · rw [if_pos hk]
        exact .keep false .same h.operand.part fun e => .ret id
    · cases hk

theorem systemCall_yields (c : Setting) (s : State) : ∃ span s', Grammar.systemCall c s = (some span, s') := by
  obtain ⟨_, s₁, hskip⟩ := skipParenthesized_yields c s.step
  refine ⟨s₁.spanFrom (s.peekSpan c).start, s₁, ?_⟩
  rw [Grammar.systemCall, bind_of_some offset_eq,
    bind_of_some (show skip c s = (some (), s.step) from rfl), bind_of_some hskip]
  rfl

/-- A system task is reported, whatever comes after that. -/
theorem systemCall {r : Bool} {β : Type} {F : β → List Token → Prop} {Q : β → Prop} {f : Unit → Parser β}
    (hf : ∀ x, Moving (f x)) : Confined tokens n H r u F Q
      (Grammar.systemCall >>= fun span => reportUnsupported span .systemCall >>= f) := by
  refine .dirty (Moving.systemCall.bind fun span => (Moving.reportUnsupported _ _).bind hf) ?_
  exact .after systemCall_yields fun span => (Complains.reportUnsupported _ _).bind hf

theorem primary (h : Inner tokens n) : Confined tokens (n + 1) H true u (fun _ => OperandStops)
    (fun e => AllSites (Site.Alone tokens) e.form.sites) Grammar.full.primary := by
  have hcolon : ∀ {γ : Type}, Tail false (fun _ : Expr => OperandStops) fun _ : γ => Lacks (.punct .colon) :=
    .inr fun _ _ _ hrest => hrest.lacks rfl rfl
  have hplain : ∀ {start : Nat} {form : ExprForm} {P : Prop}, (P → AllSites (Site.Alone tokens) form.sites) →
      Confined tokens n any false true (fun _ => OperandStops)
        (fun e => P → AllSites (Site.Alone tokens) e.form.sites)
        (spanFrom start >>= fun span => pure (Expr.mk form span)) := fun h => .spanned fun _ => h
  refine .offset fun start => .peek fun k => ?_
  split
  · exact .first false .any (.expectText rfl) fun name => hplain fun _ => allSites_nil
  · refine .enter false .any (.expectText rfl) fun name => .isNext (.inr fun _ _ hrest => hrest.lacks rfl rfl) ?_ ?_
    · exact .keep false .any h.fieldBinds fun ms => hplain FieldBind.allSitesIn.mpr
    · exact .spanned fun _ => allSites_nil
  · exact .first false .any (literal rfl) fun lit => hplain fun _ => allSites_nil
  · exact .first false .any (literal rfl) fun lit => hplain fun _ => allSites_nil
  · exact .first false .any (literal rfl) fun lit => hplain fun _ => allSites_nil
  · exact .first false .any (literal rfl) fun lit => hplain fun _ => allSites_nil
  · exact .first false .any (.skip rfl) fun lit => hplain fun _ => allSites_nil
  · refine .enter true .reads (.skip rfl) fun _ => .keep true .reads (h.expr 0).part fun inner => ?_
    exact .seq false .any (.expectPunct rfl) fun _ => hplain fun hinner => (Expr.allSites.mp hinner).2
  · exact .first false .any h.concatItems fun es => hplain Expr.allSitesIn.mpr
  · exact .first false hcolon h.valueBlock fun form => hplain id
  · exact .first false hcolon (h.block .action (.inr ⟨.inl rfl, .inl rfl⟩)) fun b => hplain id
  · exact .first false hcolon (h.block .actionValue (.inr ⟨.inr rfl, .inr rfl⟩)) fun b => hplain id
  · refine .enter true .any (.skip rfl) fun _ => .seq false .any (.expectText rfl) fun name => ?_
    exact .passKeep .same h.payload fun p => hplain id
  · exact .first false hcolon h.interfaceExpr fun form => hplain id
  · refine .enter true .any (.skip rfl) fun _ => .seq true .any (.expectPunct rfl) fun _ => ?_
    refine .seq true .reads .type fun type => .seq false .any (.expectPunct rfl) fun _ => .spanned fun _ => allSites_nil
  · exact systemCall fun _ => .fail
  · exact .failExpected _

/-- A primary is read alone as well. -/
theorem primary_alone (h : Inner tokens n) : Confined tokens (n + 1) H true u (fun _ => OperandStops)
    (fun e => AllSites (Site.Alone tokens) e.sites) Grammar.full.primary where
  moves := (h.primary (H := H) (u := u)).moves
  fails := (h.primary (H := H) (u := u)).fails
  runs c s e s' hs hrun hclean := by
    obtain ⟨hsites, hcontained⟩ := h.primary.runs c s e s' hs hrun hclean
    obtain ⟨-, ts, hreached⟩ := Reached.first h.primary hs hrun hclean
    have halone : Site.Alone tokens (.expr e) := hreached.alone nofun hs.within fun hR => hR.expr isUnary_primary
    exact ⟨Expr.allSites.mpr ⟨halone, hsites⟩, hcontained⟩

/-- A literal needs nothing behind it. -/
theorem primaryInt (h : Inner tokens n) : Confined tokens (n + 1) (· = some .int) true u anything
    (fun e => AllSites (Site.Alone tokens) e.form.sites) Grammar.full.primary := by
  have hliteral : Confined tokens (n + 1) (· = some .int) true u anything
      (fun e => AllSites (Site.Alone tokens) e.form.sites) (offset >>= fun start => Grammar.literal .int >>= fun lit =>
        spanFrom start >>= fun span => pure (Expr.mk (.literal lit) span)) :=
    .offset fun start => .seq false .any (literal rfl) fun lit => .spanned fun _ => allSites_nil
  refine hliteral.congr (fun c s hpeek => ?_) (h.primary (H := any) (u := u)).moves
  have hoffset : offset c s = (some (s.peekSpan c).start, s) := rfl
  rw [Grammar.primary, bind_of_some hoffset, bind_of_some hoffset,
    bind_of_some peek_eq, hpeek]

/-! ## Operands -/

theorem operand_confined (h : Inner tokens n) : Confined tokens (n + 1) H true false (fun _ => OperandStops)
    (fun e => AllSites (Site.Alone tokens) e.sites) Grammar.full.operand :=
  (h.suffixed h.primary isUnary_primary nofun steady_operand).weaken (Nat.le_refl _) (fun _ hk => hk) id id
    (fun _ _ hrest => ⟨hrest, hrest.unsuffixed⟩) fun _ he => he

/-! ## Unary operators -/

theorem UnaryOp.calm {k : Kind} {op : UnaryOp} (h : UnaryOp.ofKind? k = some op) : k.isCalm = true := by
  cases k with
  | punct p => cases p <;> first | rfl | cases h
  | _ => cases h

theorem sites_withSign {sign : Sign} {form form' : ExprForm} (h : form.withSign? sign = some form') :
    form'.sites = [] := by
  unfold ExprForm.withSign? at h
  split at h
  · split at h
    · cases h
      rfl
    · cases h
  · cases h

theorem unaryStops {γ : Type} : Tail false (fun _ : Expr => OperandStops) fun _ : γ => ExprStops unaryPower :=
  .inr fun _ _ _ hrest => hrest.exprStops (by decide)

/-- A unary operator in front of an operand that has been read. -/
theorem unaryForm {start : Nat} {op : UnaryOp} (inner : Expr) :
    Confined tokens n any false true (fun _ => OperandStops)
      (fun e => AllSites (Site.Alone tokens) inner.sites → AllSites (Site.Alone tokens) e.form.sites)
      (spanFrom start >>= fun span => pure (Expr.mk (.unary op inner) span)) := .spanned fun _ => id

/-- What comes after a literal that takes no sign. -/
def unsignedTail (g : Grammar) (start : Nat) (op : UnaryOp) (lit : Expr) : Parser Expr := do
  let inner ← g.operations unaryPower (← g.suffixes lit)
  return ⟨.unary op inner, ← spanFrom start⟩

/-- What comes after a literal behind a sign. -/
def signedTail (g : Grammar) (start : Nat) (op : UnaryOp) (sign : Sign) (lit : Expr) : Parser Expr :=
  match lit.form.withSign? sign with
  | some form => spanFrom start >>= fun span => pure (Expr.mk form span)
  | none => unsignedTail g start op lit

theorem moving_unsignedTail (start : Nat) (op : UnaryOp) (lit : Expr) :
    Moving (unsignedTail Grammar.full start op lit) := by
  have hsuffixes : Moving (Grammar.full.suffixes lit) := Grammar.onward_full.suffixes lit
  have hoperations : ∀ e, Moving (Grammar.full.operations unaryPower e) := fun e =>
    Grammar.onward_full.operations unaryPower e
  exact hsuffixes.bind fun e => (hoperations e).bind fun _ => .bind (.look fun _ _ => rfl) fun _ => .value _

theorem unsignedTail_confined (h : Inner tokens n) (start : Nat) (op : UnaryOp) :
    Confined tokens (n + 1) H true true (fun _ => OperandStops) (fun e => AllSites (Site.Alone tokens) e.form.sites)
      (Grammar.full.primary >>= unsignedTail Grammar.full start op) := by
  have hassoc : Grammar.full.primary >>= unsignedTail Grammar.full start op =
      (Grammar.full.operand >>= Grammar.full.operations unaryPower) >>= fun inner =>
        spanFrom start >>= fun span => pure (Expr.mk (.unary op inner) span) := by
    simp only [Grammar.operand, Parser.bind_assoc]
    rfl
  rw [hassoc]
  have hbinary : Confined tokens (n + 1) H true true (fun _ => ExprStops unaryPower)
      (fun e => AllSites (Site.Alone tokens) e.sites) (Grammar.full.operand >>= Grammar.full.operations unaryPower) :=
    (h.operated isUnary_primary h.operand_confined).behind
  exact hbinary.first false unaryStops unaryForm

theorem unaryOperand (h : Inner tokens n) (start : Nat) (op : UnaryOp) :
    Confined tokens n any true true (fun _ => OperandStops) (fun e => AllSites (Site.Alone tokens) e.form.sites)
      (Grammar.full.unaryOperand start op) := by
  have hinner : ∀ H, Confined tokens n H true true (fun _ => OperandStops)
      (fun e => AllSites (Site.Alone tokens) e.form.sites)
      (Grammar.full.innerExpr unaryPower >>= fun inner =>
        spanFrom start >>= fun span => pure (Expr.mk (.unary op inner) span)) := fun H =>
    .keep false unaryStops (h.expr unaryPower).part unaryForm
  unfold Grammar.unaryOperand
  split
  · next sign _ =>
    have hliteral : Confined tokens (n + 1) (· = some .int) true true (fun _ => OperandStops)
        (fun e => AllSites (Site.Alone tokens) e.form.sites)
        (Grammar.full.primary >>= signedTail Grammar.full start op sign) := by
      refine .byValue (r := false) (fun e => (e.form.withSign? sign).isSome) h.primaryInt (fun lit hlit => ?_)
        (h.unsignedTail_confined start op) (moving_unsignedTail start op) fun lit hlit => ?_
      · obtain ⟨form, hform⟩ := Option.isSome_iff_exists.mp hlit
        rw [signedTail, hform]
        refine .spanned fun _ _ => ?_
        rw [sites_withSign hform]
        exact allSites_nil
      · rw [Option.isSome_eq_false_iff, Option.isNone_iff_eq_none] at hlit
        rw [signedTail, hlit]
    refine .isNext (.inl rfl) ?_ (hinner _)
    exact hliteral.lower
  · exact hinner any

theorem unary (h : Inner tokens n) : Confined tokens (n + 1) H true false (fun _ => OperandStops)
    (fun e => AllSites (Site.Alone tokens) e.form.sites) Grammar.full.unary := by
  refine .peek fun k => ?_
  split
  · exact h.primary
  · next op hop =>
    refine .offset fun start => ?_
    obtain ⟨k', rfl, hk⟩ := Option.bind_eq_some_iff.mp hop
    exact .enter true .reads (.skip (UnaryOp.calm hk)) fun _ => h.unaryOperand start op

/-! ## Expressions -/

theorem suffixedUnary (h : Inner tokens n) : Confined tokens (n + 1) H true false (fun _ => OperandStops)
    (fun e => AllSites (Site.Alone tokens) e.sites) (Grammar.full.unary >>= Grammar.full.suffixes) :=
  (h.suffixed h.unary (fun _ _ _ _ hrun => hrun) nofun steady_suffixedUnary).weaken (Nat.le_refl _) (fun _ hk => hk) id id
    (fun _ _ hrest => ⟨hrest, hrest.unsuffixed⟩) fun _ he => he

theorem expr_confined (h : Inner tokens n) (min : Nat) : Confined tokens (n + 1) H true false (fun _ => ExprStops min)
    (fun e => AllSites (Site.Alone tokens) e.sites) (Grammar.full.expr min) := by
  have hassoc : Grammar.full.expr min = (Grammar.full.unary >>= Grammar.full.suffixes) >>= Grammar.full.operations min := by
    simp only [Grammar.expr, Parser.bind_assoc]
  rw [hassoc]
  exact h.operated (fun _ _ _ _ hrun => hrun) h.suffixedUnary

end Inner

end Bluespec
