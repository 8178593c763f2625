import Bluespec.Proofs.SpanRules

/-!
# The spans of types and formals

What is skipped, and what is read without the rest of the grammar: labels, types, and the lists in the headers of
definitions.

* **`walk_skipAttributes`**, **`walk_label`** — what precedes a statement, and what follows the words of a block.
* **`walk_type`** — a type covers its tokens.
* **`walk_formals`**, **`walk_moduleParams`**, **`walk_moduleArgs`** — the lists stand among their tokens in order.
-/

namespace Bluespec.Parser

open SpanTree

variable {α : Type} {c : Setting} {tokens : List Token} {i : Nat}

/-! ## Skipping -/

theorem walk_skipParenthesized (i : Nat) : Walk c tokens i skipParenthesized fun _ _ => True := by
  refine (walk_isNext i _).here fun b _ => ?_
  cases b with
  | true => exact walk_skipExtent _
  | false => exact .value trivial

/-- Attributes are skipped before a statement begins. -/
theorem walk_skipAttributes (i : Nat) : Walk c tokens i skipAttributes fun _ _ => True := by
  refine walk_repeatUntil (fun i _ (_ : True) => ?_) trivial
  refine (walk_isNext i _).here fun b _ => ?_
  cases b with
  | false => exact .value trivial
  | true =>
    refine (walk_offset i).here fun start hstart => ?_
    refine (walk_skipExtent _).bind fun j _ _ _ => ?_
    refine (walk_spanFrom j hstart).here fun span hspan => ?_
    exact (walk_reportUnsupported (fun _ => hspan) _).next fun _ => .value trivial

/-- The span of one token. -/
theorem covers_leaf {t : Token} {j : Nat} (h : tokens[i]? = some t ∧ j = i + 1) :
    Over tokens i j (.leaf t.span) := by
  obtain ⟨ht, rfl⟩ := h
  exact .node ⟨Nat.lt_succ_self i, t, t, ht, ht, rfl⟩ (.nil (Nat.le_succ i))

theorem walk_label (i : Nat) : Walk c tokens i label fun j l => Row tokens i j (Label.spansIf l) := by
  refine (walk_accept i _).bind fun j b hij _ => ?_
  cases b with
  | false => exact .value (.nil hij)
  | true =>
    refine (walk_eat j _).bind fun k name hjk hname => ?_
    cases name with
    | some t => exact .value ((covers_leaf (hname.1 t rfl)).row.widen hij (Nat.le_refl k))
    | none =>
      refine (walk_eat k _).bind fun l name hkl hname => ?_
      cases name with
      | some t => exact .value ((covers_leaf (hname.1 t rfl)).row.widen (Nat.le_trans hij hjk) (Nat.le_refl l))
      | none => exact (walk_reportExpected _).next fun _ => .value (.nil (by omega))

/-! ## Types -/

theorem walk_bitBound (i : Nat) : Walk c tokens i bitBound fun _ _ => True := by
  refine (walk_expect i _).bind fun j t _ ht => ?_
  split
  · exact .value trivial
  · exact (walk_report (covers_leaf ht).reaches.fits _).next fun _ => .fail

theorem walk_typeForm {inner : Parser TypeExpr}
    (hinner : ∀ i, Walk c tokens i inner fun j t => Over tokens i j t.spans) (i : Nat) :
    Walk c tokens i (typeForm inner) fun j form => i < j ∧ Row tokens i j form.spans := by
  refine (walk_peek i).here fun next hnext => ?_
  split
  · refine (walk_expectText i _).next fun name => ?_
    refine (walk_accept (i + 1) _).bind fun j b hij _ => ?_
    cases b with
    | false => exact .value ⟨hij, .nil (by omega)⟩
    | true =>
      refine (walk_expectPunct j _).next fun _ => ?_
      refine (walk_separated .comma (fun i => (hinner i).row) (j + 1)).bind fun k params _ h => ?_
      refine (walk_expectPunct k _).next fun _ => .value ⟨by omega, ?_⟩
      rw [TypeForm.spans, TypeExpr.spansIn_eq]
      exact h.widen (by omega) (by omega)
  · exact (walk_expectText i _).next fun name => .value ⟨Nat.lt_succ_self i, .nil (Nat.le_succ i)⟩
  · refine (walk_expect i _).bind fun j t _ ht => ?_
    split
    · exact .value ⟨by omega, .nil (by omega)⟩
    · exact (walk_report (covers_leaf ht).reaches.fits _).next fun _ => .fail
  · refine (walk_skip hnext.symm).next fun _ => ?_
    refine (walk_accept (i + 1) _).bind fun j b hij _ => ?_
    cases b with
    | false => exact .value ⟨hij, .nil (by omega)⟩
    | true =>
      refine (walk_bitBound j).bind fun k hi hjk _ => ?_
      refine (walk_expectPunct k _).next fun _ => ?_
      refine (walk_bitBound (k + 1)).bind fun l lo hkl _ => ?_
      exact (walk_expectPunct l _).next fun _ => .value ⟨by omega, .nil (by omega)⟩
  · exact walk_failExpected _

/-- A type covers the tokens that are read for it. -/
theorem walk_typeUpTo (limit : Nat) :
    ∀ i, Walk c tokens i (typeUpTo limit) fun j t => Over tokens i j t.spans := by
  induction limit with
  | zero => exact fun _ => .fail
  | succ limit ih =>
    intro i
    refine (walk_offset i).here fun start hstart => ?_
    refine (walk_typeForm ih i).bind fun j form _ h => ?_
    exact walk_spanned hstart h.1 h.2 fun _ => rfl

theorem walk_type (i : Nat) : Walk c tokens i type fun j t => Over tokens i j t.spans :=
  fun s => walk_typeUpTo _ i s

theorem walk_atTypedDecl (i : Nat) : Walk c tokens i atTypedDecl fun j _ => j = i := by
  have hnamed : Walk c tokens i (type >>= fun _ => isNext .ident) fun _ _ => True :=
    (walk_type i).bind fun j _ _ _ => (walk_isNext j _).weaken fun _ _ _ _ => trivial
  refine (walk_peek i).here fun next _ => ?_
  split
  · exact hnamed.lookahead.next fun _ => .value rfl
  · exact hnamed.lookahead.next fun _ => .value rfl
  · exact .value rfl

/-! ## Formals -/

theorem walk_typeFormalKind (i : Nat) : Walk c tokens i typeFormalKind fun _ _ => True := by
  refine (walk_accept i _).bind fun j b _ _ => ?_
  cases b with
  | true => exact .value trivial
  | false => exact (walk_accept j _).bind fun _ _ _ _ => .value trivial

theorem walk_typeFormal (i : Nat) : Walk c tokens i typeFormal fun j d => Over tokens i j d.spans := by
  refine (walk_offset i).here fun start hstart => ?_
  refine (walk_typeFormalKind i).bind fun j kind hij _ => ?_
  refine (walk_expectKeyword j _).next fun _ => ?_
  refine (walk_expectText (j + 1) _).next fun name => ?_
  exact walk_spanned hstart (by omega) (.nil (by omega)) fun _ => rfl

theorem walk_typeFormals (i : Nat) :
    Walk c tokens i typeFormals fun j ds => Row tokens i j (ds.map TypeFormal.spans) := by
  refine (walk_expectPunct i _).next fun _ => ?_
  refine (walk_expectPunct (i + 1) _).next fun _ => ?_
  refine (walk_separated .comma (fun i => (walk_typeFormal i).row) (i + 1 + 1)).bind
    fun j ds _ h => ?_
  exact (walk_expectPunct j _).next fun _ => .value (h.widen (by omega) (by omega))

theorem walk_formal (untyped : Bool) (i : Nat) :
    Walk c tokens i (formal untyped) fun j d => Row tokens i j [d.spans] := by
  refine (walk_skipAttributes i).bind fun j _ hij _ => ?_
  refine (walk_offset j).here fun start hstart => ?_
  refine (walk_ask j _).next fun bare => ?_
  have hname : ∀ k (t : Option TypeExpr), Row tokens j k (t.toList.map TypeExpr.spans) → Walk c tokens k (do
      let name ← expectText .ident
      return Formal.mk t name (← spanFrom start)) fun l d => Row tokens i l [d.spans] := by
    intro k t ht
    have hjk := ht.le
    refine (walk_expectText k _).next fun name => ?_
    exact walk_spannedAfter hij hstart (by omega) (ht.widen (Nat.le_refl j) (Nat.le_succ k)) fun _ => rfl
  cases untyped && bare with
  | true => exact hname j none (.nil (Nat.le_refl j))
  | false =>
    have htype : Walk c tokens j (some <$> type) fun k t => Row tokens j k (t.toList.map TypeExpr.spans) :=
      (walk_type j).map fun _ _ _ h => h.row
    exact htype.bind fun k t _ ht => hname k t ht

theorem walk_formals (untyped : Bool) (i : Nat) :
    Walk c tokens i (formals untyped) fun j ds => Row tokens i j (ds.map Formal.spans) := by
  refine (walk_expectPunct i _).next fun _ => ?_
  exact (walk_enclosed .rparen (walk_formal untyped) (i + 1)).weaken fun _ _ _ h =>
    h.widen (Nat.le_succ i) (Nat.le_refl _)

theorem walk_formalsIfAny (untyped : Bool) (i : Nat) :
    Walk c tokens i (formalsIfAny untyped) fun j ds => Row tokens i j (ds.map Formal.spans) := by
  refine (walk_isNext i _).here fun b _ => ?_
  cases b with
  | true => exact walk_formals untyped i
  | false => exact .value (.nil (Nat.le_refl i))

theorem walk_moduleParam (i : Nat) : Walk c tokens i moduleParam fun j d => Row tokens i j [d.spans] := by
  refine (walk_skipAttributes i).bind fun j _ hij _ => ?_
  refine (walk_offset j).here fun start hstart => ?_
  refine (walk_accept j _).bind fun k marked hjk _ => ?_
  refine (walk_type k).bind fun l t _ ht => ?_
  refine (walk_expectText l _).next fun name => ?_
  have hlt := ht.lt
  exact walk_spannedAfter hij hstart (by omega) (ht.row.widen hjk (Nat.le_succ l)) fun _ => rfl

theorem walk_moduleParams (i : Nat) :
    Walk c tokens i moduleParams fun j ds => Row tokens i j (ds.map ModuleParam.spans) := by
  refine (walk_accept i _).bind fun j b hij _ => ?_
  cases b with
  | false => exact .value (.nil hij)
  | true =>
    refine (walk_expectPunct j _).next fun _ => ?_
    refine (walk_separated .comma walk_moduleParam (j + 1)).bind fun k ds _ h => ?_
    exact (walk_expectPunct k _).next fun _ => .value (h.widen (by omega) (Nat.le_succ k))

theorem walk_moduleArg (i : Nat) : Walk c tokens i moduleArg fun j d => Row tokens i j [d.spans] := by
  refine (walk_skipAttributes i).bind fun j _ hij _ => ?_
  refine (walk_offset j).here fun start hstart => ?_
  refine (walk_type j).bind fun k t _ ht => ?_
  refine (walk_eat k _).bind fun l name hkl _ => ?_
  have hlt := ht.lt
  exact walk_spannedAfter hij hstart (by omega) (ht.row.widen (Nat.le_refl j) hkl) fun _ => rfl

theorem walk_moduleArgs (i : Nat) :
    Walk c tokens i moduleArgs fun j ds => Row tokens i j (ds.map ModuleArg.spans) := by
  refine (walk_accept i _).bind fun j b hij _ => ?_
  cases b with
  | false => exact .value (.nil hij)
  | true => exact (walk_enclosed .rparen walk_moduleArg j).weaken fun _ _ _ h => h.widen hij (Nat.le_refl _)

theorem walk_skipProvisos (i : Nat) : Walk c tokens i skipProvisos fun _ _ => True := by
  refine (walk_isNext i _).here fun b hb => ?_
  cases b with
  | false => exact .value trivial
  | true =>
    refine (walk_offset i).here fun start hstart => ?_
    refine (walk_skip (hb rfl)).next fun _ => ?_
    refine (walk_skipParenthesized (i + 1)).bind fun j _ _ _ => ?_
    refine (walk_spanFrom j hstart).here fun span hspan => ?_
    exact (walk_reportUnsupported (fun _ => hspan) _).weaken fun _ _ _ _ => trivial

end Bluespec.Parser
