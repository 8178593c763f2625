import Bluespec.Grammar.TypeExpr
import Bluespec.Proofs.Traits

/-!
# Traits of types and formals

Types and formals hold no declarations, and how they are read does not depend on how many diagnostics are
wanted (**`Plain`**).
-/

namespace Bluespec.Parser

open Grade Mark

variable {E : Trait} {α β : Type} {γ : Grade} {n : Nat} {past : Bool} {before : List NodeSpan}

namespace Closed

/-! ## Types -/

theorem bitBound (h : Closed E) : Holds E γ (fun _ => reading) before bitBound bitBound fun _ => before := by
  refine h.readHere h.expect fun t => ?_
  cases plainNumber? t.text with
  | some n => exact h.ret (.refl _)
  | none => exact h.reportFail (reports_report _ _ ⟨nofun, nofun⟩)

theorem typeForm (h : Closed E) {inner inner' : Parser TypeExpr}
    (hinner : ∀ before, Holds E (free n false) (fun _ => reading) before inner inner' fun _ => before) :
    Outset E n before (typeForm inner) (typeForm inner') fun _ => before := by
  refine h.peek (fun k => ?_) (h.failExpected .type)
  split
  · refine h.read h.expectText fun name => ?_
    refine h.next h.accepted fun b => ?_
    cases b with
    | true =>
      refine h.next h.expectPunct fun _ => ?_
      refine h.next (h.separatedBare hinner) fun params => ?_
      exact h.next h.expectPunct fun _ => h.ret (.refl _)
    | false => exact h.ret (.refl _)
  · exact h.read h.expectText fun name => h.ret (.refl _)
  · refine h.read h.expect fun t => ?_
    cases plainNumber? t.text with
    | some n => exact h.ret (.refl _)
    | none => exact h.reportFail (reports_report _ _ ⟨nofun, nofun⟩)
  · refine h.read h.skipped fun _ => ?_
    refine h.next h.accepted fun b => ?_
    cases b with
    | true =>
      refine h.next h.bitBound fun hi => ?_
      refine h.next h.expectPunct fun _ => ?_
      refine h.next h.bitBound fun lo => ?_
      exact h.next h.expectPunct fun _ => h.ret (.refl _)
    | false => exact h.ret (.refl _)
  · exact h.failExpected .type

theorem typeUpTo (h : Closed E) (limit : Nat) (before : List NodeSpan) :
    Holds E (free limit true) (fun _ => reading) before (typeUpTo limit) (typeUpTo limit) fun _ => before := by
  induction limit generalizing before with
  | zero => exact h.failed fun s hs => absurd hs.1 (Nat.not_lt_zero _)
  | succ limit ih =>
    refine h.look looks_offset fun start => ?_
    refine h.read (h.typeForm fun before => h.free_of_past (ih before)) fun form => ?_
    exact h.look (looks_spanFrom start) fun span => h.ret (.refl _)

/-- A type. -/
theorem type (h : Closed E) : Holds E γ (fun _ => reading) before type type fun _ => before := by
  have hlength : Looks (ask fun s => s.rest.length + 1) fun _ _ rest => rest.length + 1 := fun _ _ => rfl
  have hlooking : Holds E γ (fun _ => reading) before
      ((ask fun s => s.rest.length + 1) >>= fun limit => Parser.typeUpTo limit)
      ((ask fun s => s.rest.length + 1) >>= fun limit => Parser.typeUpTo limit) fun _ => before := by
    refine h.looking hlength fun limit => ?_
    refine h.restrict (h.typeUpTo limit before) ⟨fun s hs => ⟨?_, trivial⟩, fun _ => rfl⟩
    obtain ⟨-, e, he⟩ := hs.2
    show s.rest.length < limit
    omega
  exact hlooking

/-! ## Labels and attribute instances -/

theorem label (h : Closed E) : Holds E γ (fun _ => nothing) before label label fun _ => before := by
  refine h.anywhere (h.next h.accepted fun b => ?_)
  cases b with
  | false => exact h.ret (.refl _)
  | true =>
    refine h.next h.eaten fun r => ?_
    cases r with
    | some t => exact h.ret (.refl _)
    | none =>
      refine h.next h.eaten fun r => ?_
      cases r with
      | some t => exact h.ret (.refl _)
      | none => exact h.next (h.reported (reports_expected .label)) fun _ => h.ret (.refl _)

theorem balanced_pos (depth : Nat) (t : Token) (ts : List Token) : 0 < Extent.balanced depth (t :: ts) := by
  unfold Extent.balanced
  split
  · exact Nat.succ_pos _
  · split
    · split
      · exact Nat.one_pos
      · exact Nat.succ_pos _
    · split
      · exact Nat.one_pos
      · exact Nat.succ_pos _

theorem skipBalanced (h : Closed E) :
    Holds E (headed n past) (fun _ => reading) before skipBalanced skipBalanced fun _ => before := by
  refine ⟨.skipExtent (fun s hs _ => ?_) (fun _ _ => nofun), h.skips⟩
  obtain ⟨t, ts, hrest⟩ := hs.2
  rw [hrest]
  exact ⟨List.cons_ne_nil t ts, balanced_pos 0 t ts⟩

theorem skipParenthesized (h : Closed E) :
    Holds E (free n past) (fun _ => nothing) before skipParenthesized skipParenthesized fun _ => before :=
  h.isNext (h.forget h.skipBalanced) (h.ret (.refl _))

theorem skipAttributes (h : Closed E) :
    Holds E (free n past) (fun _ => nothing) before skipAttributes skipAttributes fun _ => before := by
  refine h.repeatUntil (fun _ => before) (fun _ => ?_) ()
  refine h.isNext (h.of_reading ?_ roundMark_dirty) (h.yield rfl (.refl _))
  refine h.look looks_offset fun start => ?_
  refine h.readHere h.skipBalanced fun _ => ?_
  refine h.look (looks_spanFrom start) fun span => ?_
  exact h.next (h.reported (reports_unsupported _ _)) fun _ => h.ret (.refl _)

/-! ## Formals -/

theorem typeFormalKind (h : Closed E) : Inside E n before typeFormalKind typeFormalKind fun _ => before := by
  refine h.next h.accepted fun b => ?_
  cases b with
  | true => exact h.ret (.refl _)
  | false => exact h.next h.accepted fun marked => h.ret (.refl _)

theorem typeFormal (h : Closed E) : Inside E n before typeFormal typeFormal fun _ => before := by
  refine h.look looks_offset fun start => ?_
  refine h.next h.typeFormalKind fun kind => ?_
  refine h.next (h.expectKeyword .type) fun _ => ?_
  refine h.next h.expectText fun name => ?_
  exact h.look (looks_spanFrom start) fun span => h.ret (.refl _)

theorem typeFormals (h : Closed E) : Inside E n before typeFormals typeFormals fun _ => before := by
  refine h.next h.expectPunct fun _ => ?_
  refine h.next h.expectPunct fun _ => ?_
  refine h.next (h.separatedBare fun before => h.typeFormal) fun formals => ?_
  exact h.next h.expectPunct fun _ => h.ret (.refl _)

theorem looks_atBareName : Looks atBareName fun _ consumed rest =>
    State.isNext ⟨consumed, rest, [], []⟩ .ident &&
      (State.nth ⟨consumed, rest, [], []⟩ 1 == some (.punct .comma) ||
        State.nth ⟨consumed, rest, [], []⟩ 1 == some (.punct .rparen)) := fun _ _ => rfl

theorem formal (h : Closed E) (untyped : Bool) :
    Inside E n before (formal untyped) (formal untyped) fun _ => before := by
  refine h.next h.skipAttributes fun _ => ?_
  refine h.look looks_offset fun start => ?_
  have hname : ∀ type : Option TypeExpr, Inside E n before
      (do
        let name ← Parser.expectText .ident
        return Formal.mk type name (← spanFrom start))
      (do
        let name ← Parser.expectText .ident
        return Formal.mk type name (← spanFrom start)) fun _ => before := by
    intro type
    refine h.next h.expectText fun name => ?_
    exact h.look (looks_spanFrom start) fun span => h.ret (.refl _)
  refine h.look looks_atBareName fun bare => ?_
  cases untyped && bare with
  | true => exact h.next (h.ret (.refl _)) hname
  | false => exact h.next (h.next h.type fun type => h.ret (.refl _)) hname

theorem formalsIfAny (h : Closed E) (untyped : Bool) :
    Inside E n before (formalsIfAny untyped) (formalsIfAny untyped) fun _ => before := by
  refine h.isNext (h.of_free ?_) (h.ret (.refl _))
  refine h.next h.expectPunct fun _ => ?_
  exact h.enclosedBare fun before => h.formal untyped

theorem moduleParam (h : Closed E) : Inside E n before moduleParam moduleParam fun _ => before := by
  refine h.next h.skipAttributes fun _ => ?_
  refine h.look looks_offset fun start => ?_
  refine h.next h.accepted fun marked => ?_
  refine h.next h.type fun type => ?_
  refine h.next h.expectText fun name => ?_
  exact h.look (looks_spanFrom start) fun span => h.ret (.refl _)

theorem moduleParams (h : Closed E) : Inside E n before moduleParams moduleParams fun _ => before := by
  refine h.next h.accepted fun b => ?_
  cases b with
  | false => exact h.ret (.refl _)
  | true =>
    refine h.next h.expectPunct fun _ => ?_
    refine h.next (h.separatedBare fun before => h.moduleParam) fun params => ?_
    exact h.next h.expectPunct fun _ => h.ret (.refl _)

theorem moduleArg (h : Closed E) : Inside E n before moduleArg moduleArg fun _ => before := by
  refine h.next h.skipAttributes fun _ => ?_
  refine h.look looks_offset fun start => ?_
  refine h.next h.type fun type => ?_
  refine h.next h.eaten fun name => ?_
  exact h.look (looks_spanFrom start) fun span => h.ret (.refl _)

theorem moduleArgs (h : Closed E) : Inside E n before moduleArgs moduleArgs fun _ => before := by
  refine h.next h.accepted fun b => ?_
  cases b with
  | false => exact h.ret (.refl _)
  | true => exact h.enclosedBare fun before => h.moduleArg

theorem skipProvisos (h : Closed E) : Inside E n before skipProvisos skipProvisos fun _ => before := by
  refine h.isNext ?_ (h.ret (.refl _))
  refine h.look looks_offset fun start => ?_
  refine h.forget (h.readHere h.skipped fun _ => ?_)
  refine h.next h.skipParenthesized fun _ => ?_
  exact h.look (looks_spanFrom start) fun span => h.forget (h.reported (reports_unsupported _ _))

end Closed

/-! ## Plain parsers -/

/-- A run does not depend on how many diagnostics are wanted. -/
def Plain (p : Parser α) : Prop := ∀ c c' s, c.sourceEnd = c'.sourceEnd → p c s = p c' s

/-- Runs from some states do not depend on how many diagnostics are wanted. -/
def plainness : Trait := fun _ γ _ p _ _ => ∀ c c' s, c.sourceEnd = c'.sourceEnd → γ.Admits s → p c s = p c' s

theorem plain_bind {k : α → Mark} {mark : β → Mark} {p p' : Parser α} {f f' : α → Parser β}
    {middle : α → List NodeSpan} {after : β → List NodeSpan} {c c' : Setting} {s : State}
    (hp : Holds plainness γ k before p p' middle)
    (hf : ∀ a, Holds plainness (γ.after (k a)) (fun b => (mark b).without (k a)) (middle a) (f a) (f' a) after)
    (hc : c.sourceEnd = c'.sourceEnd) (hs : γ.Admits s) : (p >>= f) c s = (p >>= f) c' s := by
  rw [bind_apply, bind_apply, ← hp.trait c c' s hc hs]
  cases hrun : p c s with
  | mk r s' =>
    cases r with
    | none => rfl
    | some a => exact (hf a).trait c c' s' hc (hp.steady.after hs hrun)

theorem closed_plainness : Closed plainness where
  vacuous hbound _ _ s _ hs := absurd hs.1 (by rw [hbound]; exact Nat.not_lt_zero _)
  weaken hγ hp c c' s hc hs := hp c c' s hc (hγ.admits s hs)
  value _ _ _ _ _ _ := rfl
  failure _ _ _ _ _ _ := rfl
  looks hq hf c c' s hc hs := by
    rw [bind_apply, bind_apply, hq, hq, hc]
    exact (hf _).trait c c' s hc ⟨hs.1, hs.2, c'.sourceEnd, rfl⟩
  reports hr c c' s hc _ := by rw [hr.run, hr.run, hc]
  skips _ _ _ _ _ := rfl
  eats _ _ _ _ _ := rfl
  binds hp hf c c' s hc hs := plain_bind hp hf hc hs

theorem plain_typeAndName : Plain (type >>= fun _ => isNext .ident) := by
  intro c c' s hc
  have htype : Holds plainness (free (s.rest.length + 1) false) (fun _ => reading) [] type type fun _ => [] :=
    closed_plainness.type
  rw [bind_apply, bind_apply, htype.trait c c' s hc ⟨Nat.lt_succ_self _, trivial⟩]
  rfl

end Bluespec.Parser
