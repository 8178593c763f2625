import Bluespec.Proofs.Judgement

/-!
# Traits of parsers

* **`Trait`**, **`Closed`** — a property of parsers, and that it passes from parts to wholes.
* **`Holds`** — a trait together with steadiness, and its rules: **`Closed.seq`** for parsers in a row,
  **`Closed.peek`** and **`Closed.accept`** for choices, **`Closed.repeatUntil`** and **`Closed.separated`** for loops.
-/

namespace Bluespec.Parser

/-- A property of two parsers that are built alike.  The first list holds the declarations of the values
that were read before, and the function adds those of the value that is yielded. -/
abbrev Trait : Type 1 :=
  (α : Type) → Grade → List NodeSpan → Parser α → Parser α → (α → List NodeSpan) → Prop

/-- A trait, of a parser that is steady. -/
structure Holds (E : Trait) {α : Type} (γ : Grade) (mark : α → Mark) (before : List NodeSpan) (p p' : Parser α)
    (after : α → List NodeSpan) : Prop where
  steady : Steady γ mark p
  trait : E α γ before p p' after

/-- A trait passes from parts to what is put together from them. -/
structure Closed (E : Trait) : Prop where
  vacuous {α : Type} {γ : Grade} {before : List NodeSpan} {p p' : Parser α} {after : α → List NodeSpan} :
    γ.bound = 0 → E α γ before p p' after
  weaken {α : Type} {γ γ' : Grade} {before : List NodeSpan} {p p' : Parser α} {after : α → List NodeSpan} :
    γ'.Within γ → E α γ before p p' after → E α γ' before p p' after
  value {α : Type} {γ : Grade} {before : List NodeSpan} {a : α} {after : α → List NodeSpan} :
    (after a).Perm before → E α γ before (pure a) (pure a) after
  failure {α : Type} {γ : Grade} {before : List NodeSpan} {after : α → List NodeSpan} :
    (∀ s, γ.Admits s → s.diagnostics ≠ []) → E α γ before fail fail after
  looks {α β : Type} {γ : Grade} {mark : β → Mark} {before : List NodeSpan} {p : Parser α} {f f' : α → Parser β}
    {after : β → List NodeSpan} {answer : Nat → List Token → List Token → α} : Looks p answer →
    (∀ a, Holds E { γ with pre := fun s => γ.pre s ∧ ∃ e, answer e s.consumed s.rest = a } mark before
      (f a) (f' a) after) → E β γ before (p >>= f) (p >>= f') after
  reports {γ : Grade} {before : List NodeSpan} {p : Parser Unit}
    {diagnostic : Nat → List Token → List Token → Diagnostic} :
    Reports p diagnostic → E Unit γ before p p fun _ => before
  skips {γ : Grade} {before : List NodeSpan} {extent : List Token → Nat} :
    E Unit γ before (skipExtent extent) (skipExtent extent) fun _ => before
  eats {γ : Grade} {before : List NodeSpan} {k : Kind} :
    E (Option Token) γ before (eat k) (eat k) fun _ => before
  binds {α β : Type} {γ : Grade} {k : α → Mark} {mark : β → Mark} {before : List NodeSpan} {p p' : Parser α}
    {f f' : α → Parser β} {middle : α → List NodeSpan} {after : β → List NodeSpan} :
    Holds E γ k before p p' middle →
    (∀ a, Holds E (γ.after (k a)) (fun b => (mark b).without (k a)) (middle a) (f a) (f' a) after) →
    E β γ before (p >>= f) (p' >>= f') after

open Grade Mark

variable {E : Trait} {α β : Type} {γ γ' : Grade} {n : Nat} {past : Bool} {pre : State → Prop}
  {before : List NodeSpan}

/-- A trait of a parser that an outer production calls once it has read a token. -/
abbrev Inside (E : Trait) (n : Nat) (before : List NodeSpan) (p p' : Parser α) (after : α → List NodeSpan) :
    Prop :=
  Holds E (free n false) (fun _ => nothing) before p p' after

/-- A trait of a production that reads a token before it calls another one. -/
abbrev Outset (E : Trait) (n : Nat) (before : List NodeSpan) (p p' : Parser α) (after : α → List NodeSpan) :
    Prop :=
  Holds E (free (n + 1) true) (fun _ => reading) before p p' after

namespace Closed

variable {mark k : α → Mark} {p p' : Parser α} {after : α → List NodeSpan}

/-! ## Weakening -/

theorem weakened (h : Closed E) (hp : Holds E γ k before p p' after) (hγ : γ'.Within γ)
    (hmark : ∀ a s s', γ'.Admits s → s.Moves s' → (k a).Tells s s' → (mark a).Tells s s') :
    Holds E γ' mark before p p' after :=
  ⟨hp.steady.weaken hγ hmark, h.weaken hγ hp.trait⟩

/-- A parser may be run in fewer states. -/
theorem restrict (h : Closed E) (hp : Holds E γ k before p p' after) (hγ : γ'.Within γ) :
    Holds E γ' k before p p' after :=
  h.weakened hp hγ fun _ _ _ _ _ ht => ht

theorem forget (h : Closed E) (hp : Holds E γ k before p p' after) :
    Holds E γ (fun _ => nothing) before p p' after :=
  h.weakened hp ⟨fun _ hs => hs, id⟩ fun _ s s' _ _ _ => tells_nothing s s'

theorem free_of_past (h : Closed E) (hp : Holds E (free n true) k before p p' after) :
    Holds E (free n past) k before p p' after :=
  h.restrict hp ⟨fun _ hs => hs, fun _ => rfl⟩

theorem of_free (h : Closed E) (hp : Holds E (free n past) k before p p' after) :
    Holds E ⟨n, pre, past⟩ k before p p' after :=
  h.restrict hp ⟨fun _ hs => ⟨hs.1, trivial⟩, id⟩

theorem anywhere (h : Closed E) (hp : Holds E (free γ.bound γ.past) k before p p' after) :
    Holds E γ k before p p' after :=
  h.restrict hp ⟨fun _ hs => ⟨hs.1, trivial⟩, id⟩

/-- What an outer production calls may be called by it from the start as well. -/
theorem outset (h : Closed E) (hp : Holds E (free (n + 1) true) k before p p' after) :
    Inside E n before p p' after :=
  h.weakened hp ⟨fun _ hs => ⟨Nat.lt_succ_of_lt hs.1, trivial⟩, fun _ => rfl⟩
    fun _ s s' _ _ _ => tells_nothing s s'

theorem lower (h : Closed E) (hp : Holds E ⟨n + 1, pre, past⟩ k before p p' after) :
    Holds E ⟨n, pre, past⟩ k before p p' after :=
  h.restrict hp ⟨fun _ hs => ⟨Nat.lt_succ_of_lt hs.1, hs.2⟩, id⟩

/-- A token that is read whatever the value is, is read for each value. -/
theorem of_reading (h : Closed E) (hp : Holds E γ (fun _ => reading) before p p' after)
    (hmark : ∀ a, (mark a).dirty = false) : Holds E γ mark before p p' after :=
  h.weakened hp ⟨fun _ hs => hs, id⟩ fun a _ _ _ _ ht =>
    ⟨fun _ => ht.read rfl, fun hd => absurd hd (by rw [hmark]; exact Bool.false_ne_true)⟩

/-! ## Values and failure -/

theorem ret (h : Closed E) {a : α} (ha : (after a).Perm before) :
    Holds E γ (fun _ => nothing) before (pure a) (pure a) after :=
  ⟨.pure fun s _ => tells_nothing s s, h.value ha⟩

theorem yield (h : Closed E) {a : α} (hmark : mark a = nothing) (ha : (after a).Perm before) :
    Holds E γ mark before (pure a) (pure a) after :=
  ⟨.pure fun s _ => hmark ▸ tells_nothing s s, h.value ha⟩

theorem failed (h : Closed E) (hdirty : ∀ s, γ.Admits s → s.diagnostics ≠ []) :
    Holds E γ mark before fail fail after :=
  ⟨.fail hdirty, h.failure hdirty⟩

/-! ## Parsers in a row -/

section Row

variable {f f' : α → Parser β} {middle : α → List NodeSpan} {after : β → List NodeSpan} {mark : β → Mark}

theorem seq (h : Closed E) (hp : Holds E γ k before p p' middle)
    (hf : ∀ a, Holds E (γ.after (k a)) (fun b => (mark b).without (k a)) (middle a) (f a) (f' a) after) :
    Holds E γ mark before (p >>= f) (p' >>= f') after :=
  ⟨hp.steady.bind fun a => (hf a).steady, h.binds hp hf⟩

/-- After a first token the rest of a production may call any other one. -/
theorem read (h : Closed E) (hp : Holds E ⟨n + 1, pre, past⟩ (fun _ => reading) before p p' middle)
    (hf : ∀ a, Inside E n (middle a) (f a) (f' a) after) :
    Holds E ⟨n + 1, pre, past⟩ (fun _ => reading) before (p >>= f) (p' >>= f') after := by
  refine h.seq hp fun a => h.weakened (hf a) ⟨fun s hs => ⟨hs.1, trivial⟩, fun hpast => ?_⟩ ?_
  · exact absurd (Bool.and_eq_true_iff.mp hpast).2 Bool.false_ne_true
  · exact fun _ s s' _ _ _ => tells_nothing s s'

/-- The same where the value tells something else. -/
theorem readThen (h : Closed E) (hp : Holds E ⟨n + 1, pre, past⟩ (fun _ => reading) before p p' middle)
    (hf : ∀ a, Holds E (free n false) mark (middle a) (f a) (f' a) after) :
    Holds E ⟨n + 1, pre, past⟩ mark before (p >>= f) (p' >>= f') after := by
  refine h.seq hp fun a => h.weakened (hf a) ⟨fun s hs => ⟨hs.1, trivial⟩, fun hpast => ?_⟩ ?_
  · exact absurd (Bool.and_eq_true_iff.mp hpast).2 Bool.false_ne_true
  · intro b s s' _ _ ht
    refine ⟨fun hr => ?_, fun hd => ht.dirty (Bool.and_eq_true_iff.mp hd).1⟩
    exact absurd (Bool.and_eq_true_iff.mp hr).2 Bool.false_ne_true

/-- What follows a first token may be anything that needs no fewer tokens. -/
theorem readHere (h : Closed E) (hp : Holds E γ (fun _ => reading) before p p' middle)
    (hf : ∀ a, Inside E γ.bound (middle a) (f a) (f' a) after) :
    Holds E γ (fun _ => reading) before (p >>= f) (p' >>= f') after := by
  refine h.seq hp fun a => h.weakened (hf a) ⟨fun s hs => ⟨?_, trivial⟩, fun hpast => ?_⟩ ?_
  · have hlt : s.rest.length < γ.bound - 1 := hs.1
    show s.rest.length < γ.bound
    omega
  · exact absurd (Bool.and_eq_true_iff.mp hpast).2 Bool.false_ne_true
  · exact fun _ s s' _ _ _ => tells_nothing s s'

theorem next (h : Closed E) (hp : Holds E ⟨n, pre, past⟩ k before p p' middle)
    (hf : ∀ a, Holds E (free n past) mark (middle a) (f a) (f' a) after) :
    Holds E ⟨n, pre, past⟩ mark before (p >>= f) (p' >>= f') after := by
  refine h.seq (h.forget hp) fun a => h.weakened (hf a) ⟨fun s hs => ⟨hs.1, trivial⟩, fun hpast => ?_⟩ ?_
  · exact (Bool.and_eq_true_iff.mp hpast).1
  · intro b s s' _ _ ht
    refine ⟨fun hr => ht.read ?_, fun hd => ht.dirty ?_⟩
    · exact (Bool.and_eq_true_iff.mp hr).1
    · exact (Bool.and_eq_true_iff.mp hd).1

/-- After a report the rest runs in states with a diagnostic. -/
theorem dirtied (h : Closed E) (hp : Holds E γ (fun _ => failing) before p p' middle)
    (hf : ∀ a, Holds E (Grade.dirty γ.bound γ.past) (fun b => ⟨(mark b).read, false⟩) (middle a) (f a) (f' a) after) :
    Holds E γ mark before (p >>= f) (p' >>= f') after := by
  refine h.seq hp fun a => h.weakened (hf a) ⟨fun s hs => ⟨hs.1, hs.2 rfl⟩, fun hpast => ?_⟩ ?_
  · exact (Bool.and_eq_true_iff.mp hpast).1
  · intro b s s' hs hmoves ht
    refine ⟨fun hr => ht.read (Bool.and_eq_true_iff.mp hr).1, fun _ => hmoves.dirty (hs.2 rfl)⟩

/-- A state with a diagnostic keeps it. -/
theorem dirtyNext (h : Closed E) (hp : Holds E (Grade.dirty n past) k before p p' middle)
    (hf : ∀ a, Holds E (Grade.dirty n past) (fun b => ⟨(mark b).read, false⟩) (middle a) (f a) (f' a) after) :
    Holds E (Grade.dirty n past) mark before (p >>= f) (p' >>= f') after := by
  have hfailing : Holds E (Grade.dirty n past) (fun _ => failing) before p p' middle :=
    h.weakened hp ⟨fun _ hs => hs, id⟩ fun _ s _ hs hmoves _ => ⟨nofun, fun _ => hmoves.dirty hs.2⟩
  exact h.dirtied hfailing hf

/-! ## Looking -/

variable {q : Parser α} {answer : Nat → List Token → List Token → α}

theorem looking (h : Closed E) (hq : Looks q answer)
    (hf : ∀ a, Holds E ⟨n, fun s => pre s ∧ ∃ e, answer e s.consumed s.rest = a, past⟩ mark before
      (f a) (f' a) after) :
    Holds E ⟨n, pre, past⟩ mark before (q >>= f) (q >>= f') after := by
  refine ⟨?_, h.looks hq hf⟩
  intro c s hs
  rw [bind_apply, hq]
  exact (hf _).steady c s ⟨hs.1, hs.2, c.sourceEnd, rfl⟩

/-- Where nothing follows from the answer. -/
theorem look (h : Closed E) (hq : Looks q answer)
    (hf : ∀ a, Holds E ⟨n, pre, past⟩ mark before (f a) (f' a) after) :
    Holds E ⟨n, pre, past⟩ mark before (q >>= f) (q >>= f') after :=
  h.looking hq fun a => h.restrict (hf a) ⟨fun _ hs => ⟨hs.1, hs.2.1⟩, id⟩

end Row

end Closed

/-! ## Rounds -/

/-- What a round of a loop tells: one that asks for another has read a token. -/
def roundMark : Round α β → Mark
  | .again _ => reading
  | .done _ => nothing

/-- The declarations of a round. -/
def roundAfter (during : α → List NodeSpan) (after : β → List NodeSpan) : Round α β → List NodeSpan
  | .again a => during a
  | .done b => after b

theorem roundMark_dirty (r : Round α β) : (roundMark r).dirty = false := by
  cases r <;> rfl

/-! ## Parsers that look -/

theorem looks_peek : Looks peek fun _ _ rest => rest.head?.map Token.kind := fun _ _ => rfl

theorem looks_isNext (k : Kind) :
    Looks (isNext k) fun _ _ rest => rest.head?.map Token.kind == some k := fun _ _ => rfl

theorem looks_offset :
    Looks offset fun e _ rest => ((rest.head?.map Token.span).getD (.point e)).start := fun _ _ => rfl

theorem looks_peekSpan :
    Looks peekSpan fun e _ rest => (rest.head?.map Token.span).getD (.point e) := fun _ _ => rfl

theorem looks_spanFrom (start : Nat) :
    Looks (spanFrom start) fun _ consumed rest => State.spanFrom ⟨consumed, rest, [], []⟩ start :=
  fun _ _ => rfl

theorem reports_report (span : Span) (problem : SyntaxProblem)
    (h : Problem.HasReason (.grammar problem)) :
    Reports (report span problem) fun _ _ _ => ⟨.grammar problem, span⟩ := ⟨fun _ _ => rfl, fun _ _ _ => h⟩

theorem reports_unsupported (span : Span) (construct : Construct) :
    Reports (reportUnsupported span construct) fun _ _ _ => ⟨.unsupported construct, span⟩ :=
  ⟨fun _ _ => rfl, fun _ _ _ => ⟨nofun, nofun⟩⟩

theorem reports_expected (what : Expectation) :
    Reports (reportExpected what) fun e _ rest =>
      ⟨.grammar (.expected what (rest.head?.map Token.kind)), (rest.head?.map Token.span).getD (.point e)⟩ :=
  ⟨fun _ _ => rfl, fun _ _ _ => ⟨nofun, nofun⟩⟩

namespace Closed

/-- A parser that only looks, with nothing after it. -/
theorem looked (h : Closed E) {q : Parser α} {answer : Nat → List Token → List Token → α} (hq : Looks q answer) :
    Holds E γ (fun _ => nothing) before q q fun _ => before := by
  have hpure : q = q >>= pure := by
    funext c s
    rw [bind_apply, hq]
    rfl
  rw [hpure]
  exact h.anywhere (h.look hq fun a => h.ret (.refl _))

section Choices

variable {f f' : Option Kind → Parser β} {after : β → List NodeSpan} {mark : β → Mark}

/-- A choice by the next token.  At the end nothing can be skipped. -/
theorem peek (h : Closed E)
    (hf : ∀ k, Holds E (headed n past) mark before (f (some k)) (f' (some k)) after)
    (hend : Holds E (free n past) mark before (f none) (f' none) after) :
    Holds E (free n past) mark before (Parser.peek >>= f) (Parser.peek >>= f') after := by
  refine h.looking looks_peek fun a => ?_
  cases a with
  | none => exact h.of_free hend
  | some k =>
    exact h.restrict (hf k) ⟨fun s hs => ⟨hs.1, State.headed_of_peek (hs.2.2.elim fun _ he => he)⟩, id⟩

variable {g g' : Bool → Parser β} {k : Kind}

/-- A choice by whether a token comes next. -/
theorem isNext (h : Closed E)
    (htrue : Holds E (headed n past) mark before (g true) (g' true) after)
    (hfalse : Holds E (free n past) mark before (g false) (g' false) after) :
    Holds E (free n past) mark before (Parser.isNext k >>= g) (Parser.isNext k >>= g') after := by
  refine h.looking (looks_isNext k) fun a => ?_
  cases a with
  | false => exact h.of_free hfalse
  | true =>
    refine h.restrict htrue ⟨fun s hs => ⟨hs.1, ?_⟩, id⟩
    obtain ⟨e, he⟩ := hs.2.2
    exact State.headed_of_peek (eq_of_beq he)

end Choices

/-! ## Reporting -/

section Reporting

variable {report : Parser Unit} {diagnostic : Nat → List Token → List Token → Diagnostic} {mark : α → Mark}
  {after : α → List NodeSpan}

theorem reported (h : Closed E) (hr : Reports report diagnostic) :
    Holds E γ (fun _ => failing) before report report fun _ => before :=
  ⟨.reports hr, h.reports hr⟩

theorem reportFail (h : Closed E) (hr : Reports report diagnostic) :
    Holds E γ mark before (report >>= fun _ => Parser.fail) (report >>= fun _ => Parser.fail) after :=
  h.dirtied (h.reported hr) fun _ => h.failed fun _ hs => hs.2

theorem failExpected (h : Closed E) (what : Expectation) :
    Holds E γ mark before (Parser.failExpected what) (Parser.failExpected what) after :=
  h.reportFail (reports_expected what)

end Reporting

/-! ## Single tokens -/

section Tokens

variable {k : Kind}

theorem skipped (h : Closed E) : Holds E (headed n past) (fun _ => reading) before skip skip fun _ => before := by
  have hone : skip = skipExtent fun _ => 1 := rfl
  rw [hone]
  refine ⟨.skipExtent (fun s hs _ => ⟨?_, Nat.one_pos⟩) (fun _ _ => nofun), h.skips⟩
  obtain ⟨t, ts, hrest⟩ := hs.2
  rw [hrest]
  exact List.cons_ne_nil t ts

theorem eaten (h : Closed E) :
    Holds E γ (fun r => r.elim nothing fun _ => reading) before (Parser.eat k) (Parser.eat k) fun _ => before :=
  ⟨.eat k, h.eats⟩

theorem accepted (h : Closed E) :
    Holds E γ (fun b => if b then reading else nothing) before (Parser.accept k) (Parser.accept k)
      fun _ => before := by
  refine h.seq h.eaten fun r => ?_
  cases r <;> exact ⟨.pure fun s _ => tells_nothing s s, h.value (.refl _)⟩

/-- A token that is read if it comes next. -/
theorem accept (h : Closed E) {f f' : Bool → Parser β} {mark : β → Mark}
    {after : β → List NodeSpan} (hmark : ∀ b, (mark b).dirty = false)
    (htrue : Inside E n before (f true) (f' true) after)
    (hfalse : Holds E (free (n + 1) past) mark before (f false) (f' false) after) :
    Holds E (free (n + 1) past) mark before (Parser.accept k >>= f) (Parser.accept k >>= f') after := by
  refine h.seq h.accepted fun b => ?_
  cases b with
  | true =>
    refine h.weakened htrue ⟨fun s hs => ⟨hs.1, trivial⟩, fun hpast => ?_⟩ fun b s s' _ _ _ => ⟨fun hr => ?_, fun hd => ?_⟩
    · exact absurd (Bool.and_eq_true_iff.mp hpast).2 Bool.false_ne_true
    · exact absurd (Bool.and_eq_true_iff.mp hr).2 Bool.false_ne_true
    · exact absurd (Bool.and_eq_true_iff.mp hd).1 (by rw [hmark]; exact Bool.false_ne_true)
  | false =>
    refine h.weakened hfalse ⟨fun s hs => ⟨hs.1, trivial⟩, fun hpast => (Bool.and_eq_true_iff.mp hpast).1⟩ ?_
    refine fun b s s' _ _ ht => ⟨fun hr => ht.read (Bool.and_eq_true_iff.mp hr).1, fun hd => ?_⟩
    exact absurd (Bool.and_eq_true_iff.mp hd).1 (by rw [hmark]; exact Bool.false_ne_true)

theorem expect (h : Closed E) :
    Holds E γ (fun _ => reading) before (expect k) (expect k) fun _ => before := by
  refine h.seq h.eaten fun r => ?_
  cases r with
  | some t => exact ⟨.pure fun s _ => tells_nothing s s, h.value (.refl _)⟩
  | none => exact h.failExpected (.kind k)

theorem expectText (h : Closed E) :
    Holds E γ (fun _ => reading) before (expectText k) (expectText k) fun _ => before :=
  h.seq h.expect fun _ => ⟨.pure fun s _ => tells_nothing s s, h.value (.refl _)⟩

theorem expectPunct (h : Closed E) {p : Punct} :
    Holds E γ (fun _ => reading) before (expectPunct p) (expectPunct p) fun _ => before :=
  h.seq h.expect fun _ => ⟨.pure fun s _ => tells_nothing s s, h.value (.refl _)⟩

theorem expectKeyword (h : Closed E) (k : Keyword) :
    Holds E γ (fun _ => reading) before (expectKeyword k) (expectKeyword k) fun _ => before :=
  h.seq h.expect fun _ => ⟨.pure fun s _ => tells_nothing s s, h.value (.refl _)⟩

end Tokens

section Optional

variable {own : α → List NodeSpan} {p p' : Parser α} {rest rest' : Option α → Parser β} {after : β → List NodeSpan}

/-- A part that is read if something asks for it. -/
theorem optional (h : Closed E) (hp : ∀ before, Inside E n before p p' fun a => before ++ own a)
    (hrest : ∀ r, Inside E n (before ++ r.toList.flatMap own) (rest r) (rest' r) after) (asked : Bool) :
    Inside E n before (if asked = true then (some <$> p) >>= rest else pure none >>= rest)
      (if asked = true then (some <$> p') >>= rest' else pure none >>= rest') after := by
  cases asked with
  | true =>
    have hsome : Inside E n before (some <$> p) (some <$> p') fun r => before ++ r.toList.flatMap own := by
      refine h.next (hp before) fun a => h.ret ?_
      rw [Option.toList_some, List.flatMap_singleton]
    exact h.next hsome hrest
  | false =>
    have hnone := hrest none
    rw [Option.toList_none, List.flatMap_nil, List.append_nil] at hnone
    exact hnone

end Optional

/-! ## Loops -/

section Loops

/-- A loop that is given one round more than there are tokens left. -/
theorem withRounds (h : Closed E) {rounds rounds' : Nat → Parser α} {mark : α → Mark} {after : α → List NodeSpan}
    (hrounds : ∀ limit, Holds E (free (min limit n) past) mark before (rounds limit) (rounds' limit) after) :
    Holds E (free n past) mark before (fun c s => rounds (s.rest.length + 1) c s)
      (fun c s => rounds' (s.rest.length + 1) c s) after := by
  have hlength : Looks (ask fun s => s.rest.length + 1) fun _ _ rest => rest.length + 1 := fun _ _ => rfl
  have hlooking : Holds E (free n past) mark before ((ask fun s => s.rest.length + 1) >>= rounds)
      ((ask fun s => s.rest.length + 1) >>= rounds') after := by
    refine h.looking hlength fun limit => ?_
    refine h.restrict (hrounds limit) ⟨fun s hs => ⟨?_, trivial⟩, id⟩
    obtain ⟨-, e, he⟩ := hs.2
    have hlt : s.rest.length < n := hs.1
    show s.rest.length < min limit n
    omega
  exact hlooking

variable {round round' : α → Parser (Round α β)} {after : β → List NodeSpan}

theorem roundsUpTo (h : Closed E) (during : α → List NodeSpan)
    (hround : ∀ a, Holds E (free n past) roundMark (during a) (round a) (round' a) (roundAfter during after))
    (limit : Nat) (a : α) :
    Holds E (free (min limit n) past) (fun _ => nothing) (during a) (roundsUpTo round limit a)
      (roundsUpTo round' limit a) after := by
  induction limit generalizing a with
  | zero => exact h.failed fun s hs => absurd hs.1 (by rw [free, Nat.zero_min]; exact Nat.not_lt_zero _)
  | succ limit ih =>
    have hfirst : Holds E (free (min (limit + 1) n) past) roundMark (during a) (round a) (round' a)
        (roundAfter during after) :=
      h.restrict (hround a) ⟨fun s hs => ⟨Nat.lt_of_lt_of_le hs.1 (Nat.min_le_right _ _), trivial⟩, id⟩
    refine h.seq hfirst fun r => ?_
    cases r with
    | done b => exact ⟨.pure fun s _ => tells_nothing s s, h.value (.refl _)⟩
    | again a' =>
      refine h.weakened (ih a') ⟨fun s hs => ⟨?_, trivial⟩, fun hpast => (Bool.and_eq_true_iff.mp hpast).1⟩ ?_
      · have hlt : s.rest.length < min (limit + 1) n - 1 := hs.1
        show s.rest.length < min limit n
        omega
      · exact fun _ s s' _ _ _ => tells_nothing s s'

/-- A loop whose rounds read a token whenever they ask for another round never runs out of rounds. -/
theorem repeatUntil (h : Closed E) (during : α → List NodeSpan)
    (hround : ∀ a, Holds E (free n past) roundMark (during a) (round a) (round' a) (roundAfter during after))
    (a : α) :
    Holds E (free n past) (fun _ => nothing) (during a) (repeatUntil round a) (repeatUntil round' a) after :=
  h.withRounds fun limit => h.roundsUpTo during hround limit a

variable {item item' : Parser α} {k : α → Mark} {own : α → List NodeSpan} {separator : Punct}

theorem separatedUpTo (h : Closed E)
    (hitem : ∀ before, Holds E (free n false) k before item item' fun a => before ++ own a)
    (limit : Nat) (before : List NodeSpan) :
    Holds E (free (min limit n) false) (fun _ => nothing) before (separatedUpTo separator item limit)
      (separatedUpTo separator item' limit) fun as => before ++ as.flatMap own := by
  induction limit generalizing before with
  | zero => exact h.failed fun s hs => absurd hs.1 (by rw [free, Nat.zero_min]; exact Nat.not_lt_zero _)
  | succ limit ih =>
    have hfirst : Holds E (free (min (limit + 1) n) false) k before item item' fun a => before ++ own a :=
      h.restrict (hitem before) ⟨fun s hs => ⟨Nat.lt_of_lt_of_le hs.1 (Nat.min_le_right _ _), trivial⟩, id⟩
    refine h.next hfirst fun a => ?_
    refine h.seq h.accepted fun b => ?_
    cases b with
    | false =>
      refine ⟨.pure fun s _ => tells_nothing s s, h.value ?_⟩
      rw [List.flatMap_singleton]
    | true =>
      have hrest : Holds E (free (min limit n) false) (fun _ => nothing) (before ++ own a)
          (Parser.separatedUpTo separator item limit >>= fun as => pure (a :: as))
          (Parser.separatedUpTo separator item' limit >>= fun as => pure (a :: as))
          fun as => before ++ as.flatMap own := by
        refine h.next (ih _) fun as => h.ret ?_
        rw [List.flatMap_cons, List.append_assoc]
      refine h.weakened hrest ⟨fun s hs => ⟨?_, trivial⟩, fun hpast => absurd hpast Bool.false_ne_true⟩ ?_
      · have hlt : s.rest.length < min (limit + 1) n - 1 := hs.1
        show s.rest.length < min limit n
        omega
      · exact fun _ s s' _ _ _ => tells_nothing s s'

/-- Items with a separator between them. -/
theorem separated (h : Closed E)
    (hitem : ∀ before, Holds E (free n false) k before item item' fun a => before ++ own a) :
    Inside E n before (separated separator item) (separated separator item') fun as => before ++ as.flatMap own :=
  h.withRounds fun limit => h.separatedUpTo hitem limit before

/-- Items before a closing symbol, or none. -/
theorem enclosed (h : Closed E) {close : Punct}
    (hitem : ∀ before, Holds E (free n false) k before item item' fun a => before ++ own a) :
    Inside E n before (enclosed close item) (enclosed close item') fun as => before ++ as.flatMap own := by
  refine h.next h.accepted fun b => ?_
  cases b with
  | true =>
    refine h.ret ?_
    rw [List.flatMap_nil, List.append_nil]
  | false =>
    refine h.next (h.separated hitem) fun as => ?_
    exact h.next h.expectPunct fun _ => h.ret (.refl _)

theorem flatMap_nothing (as : List α) : before ++ as.flatMap (fun _ => []) = before := by
  rw [List.flatMap_eq_nil_iff.mpr fun _ _ => rfl, List.append_nil]

/-- Items that hold no declarations. -/
theorem separatedBare (h : Closed E)
    (hitem : ∀ before, Holds E (free n false) k before item item' fun _ => before) :
    Inside E n before (Parser.separated separator item) (Parser.separated separator item') fun _ => before := by
  have hown : ∀ before, Holds E (free n false) k before item item' fun a => before ++ (fun _ => []) a := by
    intro before
    simp only [List.append_nil]
    exact hitem before
  have hitems : Inside E n before (Parser.separated separator item) (Parser.separated separator item')
      fun as => before ++ as.flatMap fun _ => [] := h.separated hown
  simp only [flatMap_nothing] at hitems
  exact hitems

theorem enclosedBare (h : Closed E) {close : Punct}
    (hitem : ∀ before, Holds E (free n false) k before item item' fun _ => before) :
    Inside E n before (Parser.enclosed close item) (Parser.enclosed close item') fun _ => before := by
  refine h.next h.accepted fun b => ?_
  cases b with
  | true => exact h.ret (.refl _)
  | false =>
    refine h.next (h.separatedBare hitem) fun as => ?_
    exact h.next h.expectPunct fun _ => h.ret (.refl _)

end Loops

end Closed

end Bluespec.Parser
