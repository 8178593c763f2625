import Bluespec.Proofs.ConfinedOperands

/-!
# The tokens of one statement

A parser that reads the tokens of one statement does not read on behind the semicolon at their end, whether it yields a
value or fails.  The brackets of these tokens match, so nothing that is skipped as a group leaves them either.

* **`Extent.depthBehind?`** — how many brackets are open behind tokens.
* **`Window`** — tokens with a semicolon behind them, and what stands on both sides; **`Window.At`** — the cursor is before
  the semicolon, with so many brackets open.
* **`Window.Keeps`** — a parser leaves the cursor before the semicolon; **`Grammar.Keeps`** — so do the inner expressions
  of a grammar, and **`Grammar.Keeps.expr`** those one level up.
-/

namespace Bluespec

open Bluespec.Parser

/-- Whether a token of the kind is neither a reserved word nor a mark of attribute instances. -/
def Kind.isPlain : Kind → Bool
  | .keyword _ | .punct .attrOpen | .punct .attrClose => false
  | _ => true

/-! ## Bracket depth -/

namespace Extent

/-- The number of open brackets behind tokens, if none is closed that was not opened. -/
def depthBehind? (depth : Nat) : List Token → Option Nat
  | [] => some depth
  | t :: ts => if t.kind.isClosing = true ∧ depth = 0 then none else depthBehind? (depthAfter depth t.kind) ts

variable {depth depth' : Nat} {t : Token} {ts us : List Token}

theorem depthBehind?_append : depthBehind? depth (ts ++ us) = (depthBehind? depth ts).bind (depthBehind? · us) := by
  induction ts generalizing depth with
  | nil => rfl
  | cons t ts ih =>
    rw [List.cons_append, depthBehind?, depthBehind?]
    split
    · rfl
    · exact ih

theorem depthBehind?_cons (h : depthBehind? depth (t :: ts) = some depth') :
    ¬ (t.kind.isClosing = true ∧ depth = 0) ∧ depthBehind? (depthAfter depth t.kind) ts = some depth' := by
  rw [depthBehind?] at h
  split at h
  · cases h
  · next hopen => exact ⟨hopen, h⟩

/-- A group that is open `nested` times more than what is around it is closed before the brackets around it are, and the
tokens counted for it are those up to its end. -/
theorem balanced_of_depthBehind? {nested : Nat} (hplain : ∀ t ∈ ts, t.kind.isPlain = true) (hnested : 0 < nested)
    (h : depthBehind? (depth + nested) ts = some 0) (rest : List Token) :
    ∃ us vs, ts = us ++ vs ∧ balanced nested (ts ++ rest) = us.length ∧ depthBehind? (depth + nested) us = some depth := by
  induction ts generalizing nested with
  | nil => exact absurd (Option.some.inj h) (by omega)
  | cons t ts ih =>
    obtain ⟨hopen, hlater⟩ := depthBehind?_cons h
    obtain ⟨ht, hts⟩ := List.forall_mem_cons.mp hplain
    have hmark : (t.kind == .punct .attrOpen) = false ∧ (t.kind == .punct .attrClose) = false := by
      constructor <;> refine beq_false_of_ne fun hk => ?_ <;> rw [hk] at ht <;> cases ht
    have hcons : ∀ {nested' us}, depthAfter (depth + nested) t.kind = depth + nested' →
        depthBehind? (depth + nested') us = some depth → depthBehind? (depth + nested) (t :: us) = some depth := by
      intro nested' us hafter hus
      rw [depthBehind?, if_neg hopen, hafter, hus]
    rw [List.cons_append, balanced, hmark.1, hmark.2, Bool.or_false, Bool.or_false]
    by_cases hopening : t.kind.isOpening = true
    · have hafter : depthAfter (depth + nested) t.kind = depth + (nested + 1) := by
        rw [depthAfter, if_pos hopening, Nat.add_assoc]
      rw [hafter] at hlater
      obtain ⟨us, vs, rfl, hcount, hus⟩ := ih hts (Nat.succ_pos _) hlater
      exact ⟨t :: us, vs, rfl, by rw [if_pos hopening, hcount]; rfl, hcons hafter hus⟩
    · rw [if_neg hopening]
      by_cases hclosing : t.kind.isClosing = true
      · have hafter : depthAfter (depth + nested) t.kind = depth + (nested - 1) := by
          rw [depthAfter, if_neg hopening, if_pos hclosing]
          omega
        rw [if_pos hclosing]
        by_cases hlast : nested - 1 = 0
        · exact ⟨[t], ts, rfl, if_pos hlast, hcons hafter (by rw [hlast]; rfl)⟩
        · rw [hafter] at hlater
          obtain ⟨us, vs, rfl, hcount, hus⟩ := ih hts (Nat.pos_of_ne_zero hlast) hlater
          exact ⟨t :: us, vs, rfl, by rw [if_neg hlast, hcount]; rfl, hcons hafter hus⟩
      · have hafter : depthAfter (depth + nested) t.kind = depth + nested := by
          rw [depthAfter, if_neg hopening, if_neg hclosing]
        rw [hafter] at hlater
        obtain ⟨us, vs, rfl, hcount, hus⟩ := ih hts hnested hlater
        refine ⟨t :: us, vs, rfl, ?_, hcons hafter hus⟩
        rw [if_neg hclosing, if_neg (Nat.ne_of_gt hnested), hcount]
        rfl

end Extent

/-! ## Windows -/

/-- Tokens with a semicolon behind them, and what stands on both sides. -/
structure Window where
  /-- What has been read before, the last token first. -/
  before : List Token
  /-- The tokens. -/
  body : List Token
  /-- The semicolon. -/
  semi : Token
  /-- What follows the semicolon. -/
  after : List Token

/-- Looking for a token always succeeds. -/
theorem Parser.eat_ne_none {k : Kind} {c : Setting} {s s' : State} : eat k c s ≠ (none, s') := by
  obtain ⟨cs, ts, ds, ns⟩ := s
  unfold eat
  cases ts with
  | nil => exact nofun
  | cons t ts =>
    dsimp only
    split <;> exact nofun

/-- A parser that does not move the cursor. -/
def Parser.Still {α : Type} (p : Parser α) : Prop := ∀ c s, (p c s).2.consumed = s.consumed ∧ (p c s).2.rest = s.rest

theorem Parser.Still.value {α : Type} (a : α) : Still (pure a) := fun _ _ => ⟨rfl, rfl⟩

theorem Parser.Still.fail {α : Type} : Still (Parser.fail : Parser α) := fun _ _ => ⟨rfl, rfl⟩

theorem Parser.Still.look {α : Type} {p : Parser α} {answer : Nat → List Token → List Token → α} (h : Looks p answer) :
    Still p := fun c s => by rw [h c s]; exact ⟨rfl, rfl⟩

theorem Parser.Still.report {p : Parser Unit} {diagnostic : Nat → List Token → List Token → Diagnostic}
    (h : Reports p diagnostic) : Still p := fun c s => by rw [h.run c s]; exact ⟨rfl, rfl⟩

theorem Parser.Still.bind {α β : Type} {p : Parser α} {f : α → Parser β} (hp : Still p) (hf : ∀ a, Still (f a)) :
    Still (p >>= f) := by
  intro c s
  have hfirst := hp c s
  rw [bind_apply]
  rcases hrun : p c s with ⟨_ | a, s₁⟩
  · rw [hrun] at hfirst
    exact hfirst
  · rw [hrun] at hfirst
    have hsecond := hf a c s₁
    exact ⟨hsecond.1.trans hfirst.1, hsecond.2.trans hfirst.2⟩

theorem Parser.Still.spanned {α : Type} {start : Nat} {f : Span → α} :
    Still (spanFrom start >>= fun span => pure (f span)) := (Still.look (looks_spanFrom _)).bind fun _ => .value _

namespace Window

/-- The brackets of the tokens match, and there are no reserved words and no marks of attribute instances. -/
structure Plain (w : Window) : Prop where
  body : ∀ t ∈ w.body, t.kind.isPlain = true
  semi : w.semi.kind = .punct .semi
  balanced : Extent.depthBehind? 0 w.body = some 0

/-- The cursor is in front of the semicolon, with so many brackets open. -/
def At (w : Window) (depth : Nat) (s : State) : Prop :=
  ∃ pre post, w.body = pre ++ post ∧ Extent.depthBehind? 0 pre = some depth ∧ s.consumed = pre.reverse ++ w.before ∧
    s.rest = post ++ w.semi :: w.after

/-- The cursor is behind a semicolon, with so many brackets open. -/
def Behind (w : Window) (depth : Nat) (s : State) : Prop :=
  ∃ pre t post, w.body ++ [w.semi] = pre ++ t :: post ∧ t.kind = .punct .semi ∧
    Extent.depthBehind? 0 pre = some depth ∧ s.consumed = t :: pre.reverse ++ w.before ∧ s.rest = post ++ w.after

/-- The cursor is in front of the semicolon of the window, or behind one outside of brackets. -/
def Stopped (w : Window) (s : State) : Prop := (∃ depth, w.At depth s) ∨ w.Behind 0 s

variable {w : Window} {depth : Nat} {s s' : State} {k : Kind}

/-- Only the cursor counts. -/
theorem At.of_eq (h : w.At depth s) (hconsumed : s'.consumed = s.consumed) (hrest : s'.rest = s.rest) : w.At depth s' := by
  obtain ⟨pre, post, hbody, hdepth, hcs, hts⟩ := h
  exact ⟨pre, post, hbody, hdepth, hconsumed.trans hcs, hrest.trans hts⟩

theorem Behind.of_eq (h : w.Behind depth s) (hconsumed : s'.consumed = s.consumed) (hrest : s'.rest = s.rest) :
    w.Behind depth s' := by
  obtain ⟨pre, t, post, hbody, ht, hdepth, hcs, hts⟩ := h
  exact ⟨pre, t, post, hbody, ht, hdepth, hconsumed.trans hcs, hrest.trans hts⟩

/-- Reading a semicolon. -/
theorem At.step_semi (h : w.At depth s) (hk : s.peek = some (.punct .semi)) : w.Behind depth s.step := by
  obtain ⟨cs, ts, ds, ns⟩ := s
  obtain ⟨pre, post, hbody, hdepth, hconsumed, hrest⟩ := h
  obtain rfl : ts = post ++ w.semi :: w.after := hrest
  obtain rfl : cs = pre.reverse ++ w.before := hconsumed
  cases post with
  | nil => exact ⟨pre, w.semi, [], by rw [hbody, List.append_nil], Option.some.inj hk, hdepth, rfl, rfl⟩
  | cons t post =>
    refine ⟨pre, t, post ++ [w.semi], by rw [hbody, List.append_assoc]; rfl, Option.some.inj hk, hdepth, rfl, ?_⟩
    rw [List.append_assoc]
    rfl

section Plain

variable (hw : w.Plain)

include hw

/-- The next token is no reserved word and no mark of attribute instances. -/
theorem At.plain (h : w.At depth s) (hk : s.peek = some k) : k.isPlain = true := by
  obtain ⟨pre, post, hbody, -, -, hrest⟩ := h
  rw [State.peek, hrest] at hk
  cases post with
  | nil =>
    obtain rfl := Option.some.inj hk
    rw [hw.semi]
    rfl
  | cons t post =>
    obtain rfl := Option.some.inj hk
    exact hw.body t (by rw [hbody]; exact List.mem_append_right _ List.mem_cons_self)

/-- One step, if it does not read the semicolon. -/
theorem At.step (h : w.At depth s) (hk : s.peek = some k) (hsemi : k ≠ .punct .semi) :
    w.At (Extent.depthAfter depth k) s.step := by
  obtain ⟨cs, ts, ds, ns⟩ := s
  obtain ⟨pre, post, hbody, hdepth, hconsumed, hrest⟩ := h
  obtain rfl : ts = post ++ w.semi :: w.after := hrest
  obtain rfl : cs = pre.reverse ++ w.before := hconsumed
  cases post with
  | nil =>
    obtain rfl := Option.some.inj hk
    exact absurd hw.semi hsemi
  | cons t post =>
    obtain rfl : t.kind = k := Option.some.inj hk
    have hall := hw.balanced
    rw [hbody, Extent.depthBehind?_append, hdepth] at hall
    obtain ⟨hopen, -⟩ := Extent.depthBehind?_cons hall
    refine ⟨pre ++ [t], post, by rw [hbody, List.append_assoc]; rfl, ?_, ?_, rfl⟩
    · rw [Extent.depthBehind?_append, hdepth]
      exact if_neg hopen
    · rw [List.reverse_append]
      rfl

/-- A group in brackets is stepped over whole. -/
theorem At.advance_group (h : w.At depth s) (hk : s.peek = some k) (hopening : k.isOpening = true) :
    w.At depth (s.advance (Extent.balanced 0 s.rest)) := by
  obtain ⟨cs, ts, ds, ns⟩ := s
  obtain ⟨pre, post, hbody, hdepth, hconsumed, hrest⟩ := h
  obtain rfl : ts = post ++ w.semi :: w.after := hrest
  obtain rfl : cs = pre.reverse ++ w.before := hconsumed
  cases post with
  | nil =>
    obtain rfl := Option.some.inj hk
    rw [hw.semi] at hopening
    cases hopening
  | cons t post =>
    obtain rfl : t.kind = k := Option.some.inj hk
    have hall := hw.balanced
    rw [hbody, Extent.depthBehind?_append, hdepth] at hall
    obtain ⟨hopen, hlater⟩ := Extent.depthBehind?_cons hall
    have hafter : Extent.depthAfter depth t.kind = depth + 1 := if_pos hopening
    have hplain : ∀ t ∈ post, t.kind.isPlain = true := fun t' ht' =>
      hw.body t' (by rw [hbody]; exact List.mem_append_right _ (List.mem_cons_of_mem _ ht'))
    rw [hafter] at hlater
    obtain ⟨us, vs, rfl, hcount, hus⟩ :=
      Extent.balanced_of_depthBehind? hplain Nat.one_pos hlater (w.semi :: w.after)
    have hgroup : Extent.depthBehind? depth (t :: us) = some depth := by
      rw [Extent.depthBehind?, if_neg hopen, hafter, hus]
    have hextent : Extent.balanced 0 (t :: (us ++ vs) ++ w.semi :: w.after) = (t :: us).length := by
      rw [List.cons_append, Extent.balanced, hopening, Bool.true_or, if_pos rfl, hcount]
      rfl
    have hadvance := State.advance_length (pre.reverse ++ w.before) (t :: us) (vs ++ w.semi :: w.after) ds ns
    rw [← hextent, ← List.append_assoc] at hadvance
    refine At.of_eq ⟨pre ++ t :: us, vs, ?_, ?_, ?_, rfl⟩ (congrArg State.consumed hadvance) (congrArg State.rest hadvance)
    · rw [hbody, List.append_assoc]
      rfl
    · rw [Extent.depthBehind?_append, hdepth]
      exact hgroup
    · show (t :: us).reverse ++ (pre.reverse ++ w.before) = _
      rw [List.reverse_append, List.append_assoc]

end Plain

/-! ## Parsers that stay in a window -/

/-- From a state with so many brackets open, the parser leaves the cursor in the window; if it yields a value, then where
it is said for the value. -/
def Keeps {α : Type} (w : Window) (H : Option Kind → Prop) (depth : Nat) (after : α → State → Prop) (p : Parser α) : Prop :=
  ∀ c s, w.At depth s → H s.peek →
    (∀ s', p c s = (none, s') → w.Stopped s') ∧ ∀ a s', p c s = (some a, s') → after a s'

/-- A parser that leaves as many brackets open as there were. -/
abbrev Levels {α : Type} (w : Window) (depth : Nat) (p : Parser α) : Prop := w.Keeps any depth (fun _ => w.At depth) p

namespace Keeps

variable {α β : Type} {H : Option Kind → Prop} {mid : α → Nat} {after : β → State → Prop} {p : Parser α}
  {f : α → Parser β}

theorem still (h : Still p) : w.Keeps H depth (fun _ => w.At depth) p := by
  intro c s hs _
  have hat := hs.of_eq (h c s).1 (h c s).2
  refine ⟨fun s' hrun => .inl ⟨depth, ?_⟩, fun a s' hrun => ?_⟩
  · rw [hrun] at hat
    exact hat
  · rw [hrun] at hat
    exact hat

theorem value {b : β} (h : w.At depth = after b) : w.Keeps H depth after (pure b) := by
  intro c s hs _
  refine ⟨nofun, fun a s' hrun => ?_⟩
  cases hrun
  exact h ▸ hs

theorem fail : w.Keeps H depth after Parser.fail := by
  refine fun c s hs _ => ⟨fun s' hrun => ?_, nofun⟩
  cases hrun
  exact .inl ⟨depth, hs⟩

/-- Two parsers in a row. -/
theorem seq {between : α → State → Prop} (hp : w.Keeps H depth between p)
    (hf : ∀ a c s, between a s →
      (∀ s', f a c s = (none, s') → w.Stopped s') ∧ ∀ b s', f a c s = (some b, s') → after b s') :
    w.Keeps H depth after (p >>= f) := by
  intro c s hs hH
  obtain ⟨hfails, hvalue⟩ := hp c s hs hH
  rw [bind_apply]
  rcases hrun : p c s with ⟨_ | a, s₁⟩
  · refine ⟨fun s' hrun' => ?_, nofun⟩
    cases hrun'
    exact hfails s₁ hrun
  · exact hf a c s₁ (hvalue a s₁ hrun)

theorem bind (hp : w.Keeps H depth (fun a => w.At (mid a)) p) (hf : ∀ a, w.Keeps any (mid a) after (f a)) :
    w.Keeps H depth after (p >>= f) :=
  hp.seq fun a c s hs => hf a c s hs trivial

/-- What is read in front of the next token may depend on it. -/
theorem weaken {after : α → State → Prop} (h : w.Keeps any depth after p) : w.Keeps H depth after p :=
  fun c s hs _ => h c s hs trivial

/-- A parser that only looks. -/
theorem look {answer : Nat → List Token → List Token → α} (hp : Looks p answer) (hf : ∀ a, w.Keeps H depth after (f a)) :
    w.Keeps H depth after (p >>= f) := by
  intro c s hs hH
  rw [bind_apply, hp]
  exact hf _ c s hs hH

/-- A report, and what comes after it. -/
theorem report {r : Parser Unit} {diagnostic : Nat → List Token → List Token → Diagnostic} {f : Unit → Parser β}
    (hr : Reports r diagnostic) (hf : w.Keeps any depth after (f ())) : w.Keeps H depth after (r >>= f) :=
  (still (.report hr)).bind fun _ => hf

theorem failExpected {what : Expectation} : w.Keeps H depth after (Parser.failExpected what) :=
  report (reports_expected what) fail

theorem spanned {start : Nat} {f : Span → β} (h : ∀ span, w.At depth = after (f span)) :
    w.Keeps H depth after (spanFrom start >>= fun span => pure (f span)) :=
  .look (looks_spanFrom start) fun span => value (h span)

section Plain

variable (hw : w.Plain)

include hw

/-- A choice by the next token. -/
theorem peek {f : Option Kind → Parser β} (hf : ∀ k, k.isPlain = true → w.Keeps (· = some k) depth after (f (some k))) :
    w.Keeps any depth after (Parser.peek >>= f) := by
  intro c s hs _
  rw [bind_of_some peek_eq]
  cases hk : s.peek with
  | none =>
    obtain ⟨pre, post, -, -, -, hrest⟩ := hs
    rw [State.peek, hrest] at hk
    cases post <;> cases hk
  | some k => exact hf k (hs.plain hw hk) c s hs hk

/-- A choice by whether a token comes next; one that cannot come next need not be looked at. -/
theorem isNext {f : Bool → Parser β} (htrue : k.isPlain = true → w.Keeps (· = some k) depth after (f true))
    (hfalse : w.Keeps H depth after (f false)) : w.Keeps H depth after (Parser.isNext k >>= f) := by
  intro c s hs hH
  rw [bind_of_some (show Parser.isNext k c s = (some (s.isNext k), s) from rfl)]
  cases hnext : s.isNext k with
  | true =>
    have hk : s.peek = some k := eq_of_beq hnext
    exact htrue (hs.plain hw hk) c s hs hk
  | false => exact hfalse c s hs hH

/-- A token that is known to come next. -/
theorem skip (hsemi : k ≠ .punct .semi) :
    w.Keeps (· = some k) depth (fun _ => w.At (Extent.depthAfter depth k)) Parser.skip := by
  intro c s hs hk
  refine ⟨nofun, fun a s' hrun => ?_⟩
  cases hrun
  exact hs.step hw hk hsemi

theorem eat (hsemi : k ≠ .punct .semi) :
    w.Keeps H depth (fun r => w.At (r.elim depth fun _ => Extent.depthAfter depth k)) (eat k) := by
  refine fun c s hs _ => ⟨fun s' hrun => absurd hrun eat_ne_none, fun r s' hrun => ?_⟩
  rcases eat_eq_some hrun with ⟨t, rfl, hk, hrest⟩ | ⟨rfl, rfl, -⟩
  · have hpeek : s.peek = some k := by rw [State.peek, hrest, ← hk]; rfl
    have hat := hs.step hw hpeek hsemi
    obtain ⟨cs, ts, ds, ns⟩ := s
    obtain ⟨cs', ts', ds', ns'⟩ := s'
    cases hrest
    rw [eat_of_kind hk] at hrun
    cases hrun
    exact hat
  · exact hs

theorem accept (hsemi : k ≠ .punct .semi) {f : Bool → Parser β}
    (htrue : w.Keeps any (Extent.depthAfter depth k) after (f true)) (hfalse : w.Keeps any depth after (f false)) :
    w.Keeps H depth after (accept k >>= f) := by
  have hbool : w.Keeps H depth (fun b => w.At (if b then Extent.depthAfter depth k else depth)) (Parser.accept k) := by
    refine (eat hw hsemi).bind fun r => ?_
    cases r <;> exact value rfl
  refine hbool.bind fun b => ?_
  cases b with
  | true => exact htrue
  | false => exact hfalse

theorem expect (hsemi : k ≠ .punct .semi) :
    w.Keeps H depth (fun _ => w.At (Extent.depthAfter depth k)) (expect k) := by
  refine (eat hw hsemi).bind fun r => ?_
  cases r with
  | some t => exact value rfl
  | none => exact failExpected

theorem expectText (hsemi : k ≠ .punct .semi) :
    w.Keeps H depth (fun _ => w.At (Extent.depthAfter depth k)) (expectText k) :=
  (expect hw hsemi).bind fun _ => value rfl

theorem expectPunct {symbol : Punct} (hsemi : symbol ≠ .semi) :
    w.Keeps H depth (fun _ => w.At (Extent.depthAfter depth (.punct symbol))) (expectPunct symbol) :=
  (expect hw fun h => hsemi (Kind.punct.inj h)).bind fun _ => value rfl

end Plain

/-! ### Semicolons -/

/-- What comes after a semicolon without reading on. -/
theorem behind (h : w.Keeps H depth (fun _ => w.Behind 0) p) (hf : ∀ a, Still (f a)) :
    w.Keeps H depth (fun _ => w.Behind 0) (p >>= f) := by
  refine h.seq fun a c s hs => ?_
  have hbehind := hs.of_eq (hf a c s).1 (hf a c s).2
  constructor
  · intro s' hrun
    rw [hrun] at hbehind
    exact .inr hbehind
  · intro b s' hrun
    rw [hrun] at hbehind
    exact hbehind

/-- The semicolon that is known to come next. -/
theorem skipSemicolon : w.Keeps (· = some (.punct .semi)) 0 (fun _ => w.Behind 0) Parser.skip := by
  refine fun c s hs hk => ⟨nofun, fun a s' hrun => ?_⟩
  cases hrun
  exact hs.step_semi hk

/-- A semicolon that may be missing. -/
theorem eatSemicolon : w.Keeps H 0 (fun r s => r.elim (w.At 0 s) fun _ => w.Behind 0 s) (Parser.eat (.punct .semi)) := by
  refine fun c s hs _ => ⟨fun s' hrun => absurd hrun eat_ne_none, fun r s' hrun => ?_⟩
  rcases eat_eq_some hrun with ⟨t, rfl, hk, hrest⟩ | ⟨rfl, rfl, -⟩
  · have hpeek : s.peek = some (.punct .semi) := by rw [State.peek, hrest, ← hk]; rfl
    have hbehind := hs.step_semi hpeek
    obtain ⟨cs, ts, ds, ns⟩ := s
    obtain ⟨cs', ts', ds', ns'⟩ := s'
    cases hrest
    rw [eat_of_kind hk] at hrun
    cases hrun
    exact hbehind
  · exact hs

theorem expectSemicolon : w.Keeps H 0 (fun _ => w.Behind 0) (Parser.expectPunct .semi) := by
  have hexpect : w.Keeps H 0 (fun _ => w.Behind 0) (Parser.expect (.punct .semi)) := by
    refine eatSemicolon.seq fun r c s hs => ?_
    cases r with
    | some t =>
      refine ⟨nofun, fun a s' hrun => ?_⟩
      cases hrun
      exact hs
    | none =>
      have hfails : w.Keeps any 0 (fun _ => w.Behind 0) (Parser.failExpected (α := Token) (.kind (.punct .semi))) :=
        failExpected
      exact hfails c s hs trivial
  exact hexpect.behind fun _ => .value _

/-! ### Loops -/

theorem repeatUntil {round : α → Parser (Round α β)} (h : ∀ a, w.Levels depth (round a)) (a : α) :
    w.Levels depth (repeatUntil round a) := by
  have hrounds : ∀ limit a, w.Levels depth (roundsUpTo round limit a) := by
    intro limit
    induction limit with
    | zero => exact fun _ => fail
    | succ limit ih =>
      refine fun a => (h a).bind fun r => ?_
      cases r with
      | again a => exact ih a
      | done b => exact value rfl
  exact fun c s hs hH => hrounds _ a c s hs hH

theorem tentatively (h : w.Levels depth p) (hp : Moving p) : w.Levels depth (tentatively p) := by
  intro c s hs hH
  rcases hrun : p c s with ⟨_ | a, s₁⟩
  · rw [tentatively_of_none (hp.of_run hrun) hrun]
    refine ⟨nofun, fun a s' hrun => ?_⟩
    cases hrun
    exact hs
  · rw [tentatively_of_some hrun]
    refine ⟨nofun, fun b s' hrun' => ?_⟩
    cases hrun'
    exact (h c s hs hH).2 a s₁ hrun

/-- A part that may be left out. -/
theorem optional {b : Bool} {f : Option α → Parser β} (h : w.Levels depth p) (hf : ∀ r, w.Keeps any depth after (f r)) :
    w.Keeps any depth after (if b then some <$> p >>= f else pure none >>= f) := by
  cases b with
  | true =>
    have hsome : w.Levels depth (some <$> p) := h.bind fun _ => value rfl
    exact hsome.bind hf
  | false => exact hf none

section Plain

variable (hw : w.Plain)

include hw

theorem separated (h : w.Levels depth p) : w.Levels depth (separated .comma p) := by
  have hlimit : ∀ limit, w.Levels depth (separatedUpTo .comma p limit) := by
    intro limit
    induction limit with
    | zero => exact fail
    | succ limit ih => exact h.bind fun _ => accept hw (by decide) (ih.bind fun _ => value rfl) (value rfl)
  exact fun c s hs hH => hlimit _ c s hs hH

/-- Items behind an opening bracket, and the bracket that closes it. -/
theorem enclosed (h : w.Levels (depth + 1) p) :
    w.Keeps any (depth + 1) (fun _ => w.At depth) (enclosed .rparen p) :=
  accept hw (by decide) (value rfl) ((separated hw h).bind fun _ => (expectPunct hw (by decide)).bind fun _ => value rfl)

end Plain

end Keeps

end Window

end Bluespec
