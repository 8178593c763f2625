import Bluespec.Proofs.ColonTexts

/-!
# Conditions in a row

Conditions with marks between them are read for a predicate, and for a conditional that may follow them.  Both readings
go through the same tokens and yield the same conditions, unless one of them is a conditional itself.

* **`IsCondition`** — tokens of one condition; **`Further`** — those of further conditions, each behind its mark.
* **`Further.goes_above`**, **`Further.goes_below`** — both readings; **`Further.dropped`** — where no question mark
  follows the first one is given up.
* **`Further.goes_parenPredicate`** — conditions in parentheses; **`Further.goes_conditional`** — conditions of a
  conditional.
* **`ExprText.isCondition`** — the tokens of a text that is one expression and no conditional.
-/

namespace Bluespec

open Bluespec.Parser

/-- Where the tokens read last end, a span ends. -/
theorem Parser.exists_spanFrom {ts : List Token} (h : ts ≠ []) (start : Nat) :
    ∃ span, ∀ cs rest, Goes (spanFrom start) (ts.reverse ++ cs) [] span rest := by
  obtain ⟨t, us, hlast⟩ := List.exists_cons_of_ne_nil (List.reverse_ne_nil_iff.mpr h)
  rw [hlast]
  exact ⟨_, fun _ _ => .spanFrom⟩

/-- Tokens of one condition: they are read as an expression wherever they stand in front of a mark behind a condition,
and where an expression ends. -/
structure IsCondition (ts : List Token) (e : Expr) : Prop where
  above : ∀ cs rest, OperandStops rest → Goes (Grammar.full.innerExpr (conditionalPower + 1)) cs ts e rest
  below : ∀ cs rest, ExprStops 0 rest → Goes (Grammar.full.innerExpr 0) cs ts e rest

/-- There is a first token of a condition. -/
theorem IsCondition.exists_first {ts : List Token} {e : Expr} (h : IsCondition ts e) : ∃ t us, ts = t :: us := by
  obtain ⟨ns, hrun⟩ := h.below [] [] nofun ⟨0, .collectAll⟩ []
  rw [Grammar.innerExpr_eq, List.append_nil] at hrun
  obtain ⟨k, hpeek, -⟩ := Grammar.startsExpr_of_expr hrun
  cases ts with
  | nil => cases hpeek
  | cons t us => exact ⟨t, us, rfl⟩

/-- Tokens of further conditions, each behind its mark. -/
inductive Further : List Token → List Expr → Prop
  | nil : Further [] []
  | cons {t : Token} {ts us : List Token} {e : Expr} {es : List Expr} (mark : t.kind = .punct .ampAmpAmp)
      (first : IsCondition ts e) (others : Further us es) : Further (t :: (ts ++ us)) (e :: es)

namespace Grammar

variable {min : Nat} {t : Token} {cs ts us rest : List Token} {e : Expr} {es : List Expr}

theorem goes_furtherConjuncts_nil (h : Lacks (.punct .ampAmpAmp) rest) :
    Goes (full.furtherConjuncts min) cs [] [] rest := fun _ ns => ⟨ns, furtherConjuncts_of_head h⟩

theorem goes_furtherConjuncts_cons (hmark : t.kind = .punct .ampAmpAmp)
    (h : Goes (full.innerExpr min) (t :: cs) ts e (us ++ rest))
    (h' : Goes (full.furtherConjuncts min) (ts.reverse ++ t :: cs) us es rest) :
    Goes (full.furtherConjuncts min) cs (t :: (ts ++ us)) (e :: es) rest := by
  have hothers : Goes (full.innerExpr min >>= fun e => full.furtherConjuncts min >>= fun es => pure (e :: es))
      (t :: cs) (ts ++ us) (e :: es) rest := h.bind (h'.then_ .value)
  intro c ns
  obtain ⟨ns', hrun⟩ := hothers c ns
  refine ⟨ns', ?_⟩
  have hrest : State.rest ⟨cs, t :: (ts ++ us) ++ rest, [], ns⟩ = t :: (ts ++ us ++ rest) := rfl
  rw [furtherConjuncts_of_and hrest hmark]
  rw [List.reverse_cons, List.append_assoc (ts ++ us).reverse]
  exact hrun

/-- What has been read of an expression: an operand with its suffixes and the operations on it. -/
theorem operated_of_expr {c : Setting} {s s' : State} (h : full.innerExpr min c s = (some e, s')) :
    Operated full.unary min c s e s' := by
  have hassoc : full.expr min = (full.unary >>= full.suffixes) >>= full.operations min := by
    simp only [Grammar.expr, Parser.bind_assoc]
  rw [innerExpr_eq, hassoc] at h
  obtain ⟨e₁, s₁, hfirst, hloop⟩ := bind_eq_some.mp h
  obtain ⟨e₂, s₂, hleads, hdone⟩ := leads_of_repeatUntil (fun _ _ _ _ => operation_reads) hloop
  obtain ⟨hsuffixed, hstops⟩ := Suffixed.of_run hfirst
  cases operation_cases hdone with
  | done => exact ⟨e₁, s₁, hsuffixed, hstops, hleads⟩

/-- No operator binds less tightly than a conditional. -/
theorem innerExpr_conditionalPower : full.innerExpr conditionalPower = full.innerExpr 0 := by
  have hoperation : full.operation conditionalPower = full.operation 0 := by
    funext lhs
    simp only [operation, Nat.le_refl, Nat.zero_le, Nat.le_of_lt (conditionalPower_lt_power _), if_true]
  rw [innerExpr_eq, innerExpr_eq]
  simp only [expr, operations, hoperation]

/-- An expression above conditionals goes on with an operation that ends the text. -/
theorem goes_of_condition {e' : Expr} (h : Goes (full.innerExpr min) [] ts e us) (hne : us ≠ [])
    (h' : Goes (full.operation 0 e) ts.reverse us (.again e') []) : Goes (full.innerExpr 0) [] (ts ++ us) e' [] := by
  intro c ns
  obtain ⟨ns₁, hfirst⟩ := h c ns
  obtain ⟨ns', hround⟩ := h' c ns₁
  rw [List.append_nil] at hfirst hround
  obtain ⟨e₁, s₁, hsuffixed, hstops, hleads⟩ := operated_of_expr hfirst
  have hoperated : Operated full.unary 0 c ⟨[], ts ++ us, [], ns⟩ e' ⟨us.reverse ++ ts.reverse, [], [], ns'⟩ :=
    ⟨e₁, s₁, hsuffixed, hstops, hleads.operation_mono.trans (.one hround (List.length_pos_iff.mpr hne))⟩
  refine ⟨ns', ?_⟩
  rw [innerExpr_eq, List.append_nil, List.append_nil, List.reverse_append]
  exact hoperated.run rfl

end Grammar

/-! ## Both readings -/

theorem ExprEnds.operandStops {rest : List Token} (h : ExprEnds rest) : OperandStops rest := fun t ht => .inr (h t ht)

theorem ExprEnds.lacks {rest : List Token} (h : ExprEnds rest) {k : Kind} (hk : k.endsExpr = false) : Lacks k rest := by
  rintro t ht rfl
  exact Bool.false_ne_true (hk.symm.trans (h t ht))

namespace Further

variable {cs ts us rest : List Token} {e : Expr} {es : List Expr}

theorem operandStops (h : Further us es) (hrest : OperandStops rest) : OperandStops (us ++ rest) := by
  cases h with
  | nil => exact hrest
  | cons mark first others =>
    rintro t ⟨⟩
    exact .inl (by rw [mark]; rfl)

/-- Further conditions are read for a conditional. -/
theorem goes_above (h : Further us es) (hrest : OperandStops rest) (hmark : Lacks (.punct .ampAmpAmp) rest)
    (cs : List Token) : Goes (Grammar.full.furtherConjuncts (conditionalPower + 1)) cs us es rest := by
  induction h generalizing cs with
  | nil => exact Grammar.goes_furtherConjuncts_nil hmark
  | cons mark first others ih =>
    exact Grammar.goes_furtherConjuncts_cons mark (first.above _ _ (others.operandStops hrest)) (ih _)

/-- Where no question mark follows, further conditions lead to no conditional. -/
theorem dropped (h : Further us es) (hrest : OperandStops rest) (hmark : Lacks (.punct .ampAmpAmp) rest)
    (hquestion : Lacks (.punct .question) rest) : Dropped (us ++ rest) := by
  intro c cs ns
  obtain ⟨ns', hread⟩ := h.goes_above hrest hmark cs c ns
  cases hkept : Grammar.full.conjunctsOfConditional c ⟨cs, us ++ rest, [], ns⟩ with
  | mk r s' =>
    cases r with
    | none => rfl
    | some others =>
      obtain ⟨hothers, -, hpeek⟩ := Grammar.conjunctsOfConditional_eq_some.mp hkept
      rw [hread] at hothers
      cases hothers
      obtain ⟨t, ht, hk⟩ := Option.map_eq_some_iff.mp hpeek
      exact absurd hk (hquestion t ht)

/-- A condition ends in front of further ones that lead to no conditional. -/
theorem exprStops (h : Further us es) (hrest : ExprEnds rest) : ExprStops 0 (us ++ rest) := by
  have hdropped := h.dropped hrest.operandStops (hrest.lacks rfl) (hrest.lacks rfl)
  cases h with
  | nil => exact hrest.exprStops
  | cons mark first others =>
    rintro t ⟨⟩
    exact .inr ⟨by rw [mark]; rfl, fun _ => ⟨mark, hdropped⟩⟩

/-- Further conditions are read for a predicate. -/
theorem goes_below (h : Further us es) (hrest : ExprEnds rest) (cs : List Token) :
    Goes (Grammar.full.furtherConjuncts 0) cs us es rest := by
  induction h generalizing cs with
  | nil => exact Grammar.goes_furtherConjuncts_nil (hrest.lacks rfl)
  | cons mark first others ih =>
    exact Grammar.goes_furtherConjuncts_cons mark (first.below _ _ (others.exprStops hrest)) (ih _)

/-! ## Predicates and conditionals -/

/-- Conditions with marks between them are a predicate, where no expression goes on. -/
theorem goes_predicate (hfirst : IsCondition ts e) (h : Further us es) :
    ∃ span, ∀ cs rest, ExprEnds rest → Goes Grammar.full.predicate cs (ts ++ us) ⟨e :: es, span⟩ rest := by
  obtain ⟨t, ts, rfl⟩ := hfirst.exists_first
  obtain ⟨span, hspan⟩ := exists_spanFrom (show t :: ts ++ us ≠ [] from List.cons_ne_nil _ _) t.span.start
  refine ⟨span, fun cs rest hrest => .offset ?_⟩
  have hend := hspan cs rest
  rw [List.reverse_append, List.append_assoc] at hend
  exact (hfirst.below cs _ (h.exprStops hrest)).bind ((h.goes_below hrest _).then_ (hend.then_ .value))

/-- Conditions in parentheses. -/
theorem goes_parenPredicate {opening closing : Token} (hopening : opening.kind = .punct .lparen)
    (hclosing : closing.kind = .punct .rparen) (hfirst : IsCondition ts e) (h : Further us es) :
    ∃ span, ∀ cs rest, Goes Grammar.full.parenPredicate cs (opening :: (ts ++ us ++ [closing])) ⟨e :: es, span⟩ rest := by
  obtain ⟨span, hgoes⟩ := h.goes_predicate hfirst
  refine ⟨span, fun cs rest => .cons (.expectPunct hopening) ?_⟩
  exact (hgoes (opening :: cs) _ (.cons hclosing rfl rest)).bind (.cons (.expectPunct hclosing) .value)

/-- Further conditions of a conditional. -/
theorem goes_conjuncts (h : Further us es) (hne : es ≠ []) {question : Token}
    (hquestion : question.kind = .punct .question) (cs rest : List Token) :
    Goes (tentatively Grammar.full.conjunctsOfConditional) cs us (some es) (question :: rest) := by
  have hstops : OperandStops (question :: rest) := by
    rintro t ⟨⟩
    exact .inl (by rw [hquestion]; rfl)
  intro c ns
  obtain ⟨ns', hread⟩ := h.goes_above hstops (.cons hquestion (by decide) rest) cs c ns
  have hpeek : State.peek ⟨us.reverse ++ cs, question :: rest, [], ns'⟩ = some (.punct .question) := congrArg some hquestion
  exact ⟨ns', tentatively_of_some (Grammar.conjunctsOfConditional_eq_some.mpr ⟨hread, hne, hpeek⟩)⟩

/-- A conditional behind the first of its conditions. -/
theorem goes_conditional (e : Expr) (cs : List Token) {question colon last : Token} {vs : List Token} {a b : Expr}
    (h : Further us es)
    (hquestion : question.kind = .punct .question) (hcolon : colon.kind = .punct .colon)
    (hthen : Goes (Grammar.full.innerExpr 0) (question :: (us.reverse ++ cs)) ts a (colon :: (vs ++ [last])))
    (helse : Goes (Grammar.full.innerExpr conditionalPower) (colon :: (ts.reverse ++ question :: (us.reverse ++ cs)))
      (vs ++ [last]) b []) :
    ∃ span, Goes (Grammar.full.operation 0 e) cs (us ++ question :: (ts ++ colon :: (vs ++ [last])))
      (.again ⟨.cond ⟨e :: es, span⟩ a b, ⟨span.start, max last.span.stop span.start⟩⟩) [] := by
  cases h with
  | nil => exact ⟨_, Grammar.goes_conditional hquestion hcolon hthen helse⟩
  | @cons t ts₁ us₁ e₁ es₁ mark first others =>
    have hchain : Further (t :: (ts₁ ++ us₁)) (e₁ :: es₁) := .cons mark first others
    have hothers := hchain.goes_conjuncts (List.cons_ne_nil _ _) hquestion cs (ts ++ colon :: (vs ++ [last]))
    obtain ⟨span, hspan⟩ := exists_spanFrom (List.cons_ne_nil t (ts₁ ++ us₁)) e.span.start
    have hbranches := Grammar.goes_branches hquestion ⟨e :: e₁ :: es₁, span⟩ hcolon hthen helse
    have hchained : Goes (Grammar.full.chained e) cs (t :: (ts₁ ++ us₁) ++ question :: (ts ++ colon :: (vs ++ [last])))
        (.again ⟨.cond ⟨e :: e₁ :: es₁, span⟩ a b, ⟨span.start, max last.span.stop span.start⟩⟩) [] := by
      rw [← List.append_nil (question :: _)] at hothers
      exact hothers.bind ((hspan cs _).bind (hbranches.then_ .value))
    refine ⟨span, fun c ns => ?_⟩
    obtain ⟨ns', hrun⟩ := hchained c ns
    exact ⟨ns', (Grammar.operation_of_and e mark).trans hrun⟩

end Further

/-! ## Texts -/

/-- An expression is a conditional wherever it stands. -/
theorem Expr.isConditional_move (k : Nat) (e : Expr) : (e.move (· + k)).isConditional = e.isConditional := by
  obtain ⟨form, span⟩ := e
  cases form with
  | cond p a b =>
    obtain ⟨es, first⟩ := p
    refine Bool.eq_iff_iff.mpr ?_
    show (span.start + k == first.start + k) = true ↔ (span.start == first.start) = true
    simp only [beq_iff_eq, Nat.add_right_cancel_iff]
  | select base hi lo => cases lo <;> rfl
  | _ => rfl

/-- A text that is one expression, and no conditional without parentheses around it, is one condition. -/
theorem ExprText.isCondition (x : ExprText) (h : x.expr.isConditional = false) (offset : Nat) :
    IsCondition (x.tokensAt offset) (x.expr.move (· + offset)) where
  above cs rest hrest := by
    obtain ⟨s', hrun, hend, hclean⟩ := run_of_parseOnly (Grammar.tracks_expr offset) x.read
    rcases Grammar.expr_raise hrun with hraised | ⟨hconditional, -⟩
    · exact goes_of_run (fun tokens n => (inner_full tokens n).expr (conditionalPower + 1)) hraised hend hclean cs rest
        (hrest.exprStops (Nat.lt_succ_self _))
    · rw [Expr.isConditional_move, h] at hconditional
      cases hconditional
  below cs rest hrest := Expr.goes_of_parseExpression x.read offset cs hrest

end Bluespec
