import Bluespec.Parser.Recovery

/-!
# Judgements about parsers

What a parser does depends on what its parts do, so a property of parsers is shown for the whole grammar by
showing how it passes from parts to what is put together from them.  A **`Trait`** is such a property: of a
parser, or of two parsers that are built alike, together with the declarations that their values hold.

* **`State.Moves`** — a state is further on than another; **`Moves.rewind`** leads back.
* **`Steady`** — a run only moves forward, only adds diagnostics and declarations, and fails with a diagnostic; a
  **`Mark`** tells what else a value says about its run, and a **`Grade`** which states a run may start in.
* **`Closed`** — a trait that passes from parts to wholes.
* **`Holds`** — a trait and steadiness together, with one rule for each way to put parsers together.
-/

namespace Bluespec

/-- The problem is not that something failed for no known reason. -/
def Problem.HasReason (p : Problem) : Prop :=
  p ≠ .grammar .invalidExpression ∧ p ≠ .grammar .invalidStatement

namespace Parser

/-! ## Runs that move forward -/

theorem State.step_of_nil {s : State} (h : s.rest = []) : s.step = s := by
  rw [State.step, h]

/-- A recorded declaration changes nothing else. -/
theorem State.record_eq (s : State) (kind : NodeKind) (span : Span) : ∃ ns, s.record kind span = { s with nodes := ns } := by
  unfold State.record
  split
  · exact ⟨_, rfl⟩
  · exact ⟨_, rfl⟩

/-- A state is what another one is rewound to exactly if both have the same tokens, and the other one still has its
diagnostics and its declarations, below those that were added. -/
theorem State.rewind_eq_iff {s s' : State} : s'.rewind s.checkpoint = s ↔
    s'.tokens = s.tokens ∧ s.diagnostics <:+ s'.diagnostics ∧ s.nodes <:+ s'.nodes := by
  obtain ⟨cs, ts, ds, ns⟩ := s
  constructor
  · intro h
    have hconsumed : (s'.tokens.take cs.length).reverse = cs := congrArg State.consumed h
    have hrest : s'.tokens.drop cs.length = ts := congrArg State.rest h
    have hdiagnostics : s'.diagnostics.drop (s'.diagnostics.length - ds.length) = ds := congrArg State.diagnostics h
    have hnodes : s'.nodes.drop (s'.nodes.length - ns.length) = ns := congrArg State.nodes h
    refine ⟨?_, List.suffix_iff_eq_drop.mpr hdiagnostics.symm, List.suffix_iff_eq_drop.mpr hnodes.symm⟩
    rw [← List.take_append_drop cs.length s'.tokens, hrest, ← List.reverse_reverse (List.take _ _), hconsumed]
    rfl
  · rintro ⟨htokens, hdiagnostics, hnodes⟩
    have hsplit : s'.tokens = cs.reverse ++ ts := htokens
    show State.mk (s'.tokens.take cs.length).reverse (s'.tokens.drop cs.length)
      (s'.diagnostics.drop (s'.diagnostics.length - ds.length)) (s'.nodes.drop (s'.nodes.length - ns.length)) = _
    rw [hsplit, List.take_left' List.length_reverse, List.drop_left' List.length_reverse, List.reverse_reverse,
      ← List.suffix_iff_eq_drop.mp hdiagnostics, ← List.suffix_iff_eq_drop.mp hnodes]

/-- The second state is further on: some tokens more are read, some diagnostics more reported, and some declarations
more recorded. -/
structure State.Moves (s s' : State) : Prop where
  tokens : s'.tokens = s.tokens
  rest : s'.rest <:+ s.rest
  diagnostics : s.diagnostics <:+ s'.diagnostics
  nodes : s.nodes <:+ s'.nodes

namespace State.Moves

variable {s s' s'' : State}

theorem refl (s : State) : s.Moves s := ⟨rfl, List.suffix_refl _, List.suffix_refl _, List.suffix_refl _⟩

theorem trans (h : s.Moves s') (h' : s'.Moves s'') : s.Moves s'' :=
  ⟨h'.tokens.trans h.tokens, h'.rest.trans h.rest, h.diagnostics.trans h'.diagnostics, h.nodes.trans h'.nodes⟩

/-- Whatever was added is cut off again. -/
theorem rewind (h : s.Moves s') : s'.rewind s.checkpoint = s :=
  State.rewind_eq_iff.mpr ⟨h.tokens, h.diagnostics, h.nodes⟩

theorem length_le (h : s.Moves s') : s'.rest.length ≤ s.rest.length := h.rest.length_le

theorem dirty (h : s.Moves s') (hs : s.diagnostics ≠ []) : s'.diagnostics ≠ [] := by
  intro hnil
  have hsuffix := h.diagnostics
  rw [hnil, List.suffix_nil] at hsuffix
  exact hs hsuffix

theorem clean (h : s.Moves s') (hs : s'.diagnostics = []) : s.diagnostics = [] := by
  have hsuffix := h.diagnostics
  rw [hs, List.suffix_nil] at hsuffix
  exact hsuffix

theorem step (s : State) : s.Moves s.step := by
  obtain ⟨cs, rest, ds, ns⟩ := s
  cases rest with
  | nil => exact refl _
  | cons t ts =>
    refine ⟨?_, List.suffix_cons t ts, List.suffix_refl _, List.suffix_refl _⟩
    show (t :: cs).reverse ++ ts = cs.reverse ++ t :: ts
    rw [List.reverse_cons, List.append_assoc]
    rfl

theorem advance (s : State) (n : Nat) : s.Moves (s.advance n) := by
  induction n generalizing s with
  | zero => exact refl s
  | succ n ih => exact (step s).trans (ih s.step)

theorem reported (s : State) (d : Diagnostic) : s.Moves { s with diagnostics := d :: s.diagnostics } :=
  ⟨rfl, List.suffix_refl _, List.suffix_cons _ _, List.suffix_refl _⟩

theorem record (s : State) (kind : NodeKind) (span : Span) : s.Moves (s.record kind span) := by
  unfold State.record
  split
  · exact refl s
  · exact ⟨rfl, List.suffix_refl _, List.suffix_refl _, List.suffix_cons _ _⟩

end State.Moves

theorem State.advance_rest (s : State) (n : Nat) : (s.advance n).rest = s.rest.drop n := by
  induction n generalizing s with
  | zero => rfl
  | succ n ih =>
    obtain ⟨cs, rest, ds, ns⟩ := s
    rw [State.advance, ih]
    cases rest with
    | nil => exact List.drop_nil
    | cons t ts => rfl

theorem State.advance_diagnostics (s : State) (n : Nat) : (s.advance n).diagnostics = s.diagnostics := by
  induction n generalizing s with
  | zero => rfl
  | succ n ih =>
    obtain ⟨cs, rest, ds, ns⟩ := s
    rw [State.advance, ih]
    cases rest <;> rfl

theorem State.advance_nodes (s : State) (n : Nat) : (s.advance n).nodes = s.nodes := by
  induction n generalizing s with
  | zero => rfl
  | succ n ih =>
    obtain ⟨cs, rest, ds, ns⟩ := s
    rw [State.advance, ih]
    cases rest <;> rfl

theorem State.advance_length (cs ts rest : List Token) (ds : List Diagnostic) (ns : List NodeSpan) :
    State.advance ⟨cs, ts ++ rest, ds, ns⟩ ts.length = ⟨ts.reverse ++ cs, rest, ds, ns⟩ := by
  induction ts generalizing cs with
  | nil => rfl
  | cons t ts ih =>
    show State.advance ⟨t :: cs, ts ++ rest, ds, ns⟩ ts.length = _
    rw [ih, List.reverse_cons, List.append_assoc]
    rfl

/-! ## Marks and grades -/

/-- What the value of a run tells about the run. -/
structure Mark where
  /-- A token has been read. -/
  read : Bool
  /-- There is a diagnostic. -/
  dirty : Bool

namespace Mark

/-- Nothing is told. -/
def nothing : Mark := ⟨false, false⟩

/-- A token has been read. -/
def reading : Mark := ⟨true, false⟩

/-- There is a diagnostic. -/
def failing : Mark := ⟨false, true⟩

/-- What is left to tell of a mark once another one is known. -/
def without (m k : Mark) : Mark := ⟨m.read && !k.read, m.dirty && !k.dirty⟩

/-- What a mark says about a run. -/
structure Tells (m : Mark) (s s' : State) : Prop where
  read : m.read = true → s'.rest.length < s.rest.length
  dirty : m.dirty = true → s'.diagnostics ≠ []

theorem tells_nothing (s s' : State) : nothing.Tells s s' := ⟨nofun, nofun⟩

theorem Tells.trans {m k : Mark} {s s' s'' : State} (h : k.Tells s s') (hs : s.Moves s') (hs' : s'.Moves s'')
    (h' : (m.without k).Tells s' s'') : m.Tells s s'' := by
  constructor
  · intro hm
    have hle := hs.length_le
    have hle' := hs'.length_le
    cases hk : k.read with
    | true =>
      have hlt := h.read hk
      omega
    | false =>
      have hlt := h'.read (by rw [without, hm, hk]; rfl)
      omega
  · intro hm
    cases hk : k.dirty with
    | true => exact hs'.dirty (h.dirty hk)
    | false => exact h'.dirty (by rw [without, hm, hk]; rfl)

end Mark

/-- Where runs start that something is said about. -/
structure Grade where
  /-- Fewer tokens than these are left. -/
  bound : Nat
  /-- What else is known of the state. -/
  pre : State → Prop
  /-- Whether declarations are recorded behind the first token only. -/
  past : Bool

namespace Grade

/-- A grade that asks for nothing but fewer tokens than a bound. -/
def free (bound : Nat) (past : Bool) : Grade := ⟨bound, fun _ => True, past⟩

/-- A grade for states with a diagnostic. -/
def dirty (bound : Nat) (past : Bool) : Grade := ⟨bound, fun s => s.diagnostics ≠ [], past⟩

/-- Whether a run may start in a state. -/
def Admits (γ : Grade) (s : State) : Prop := s.rest.length < γ.bound ∧ γ.pre s

/-- The grade of what follows a run with a mark. -/
def after (γ : Grade) (k : Mark) : Grade :=
  ⟨if k.read then γ.bound - 1 else γ.bound, fun s => k.dirty = true → s.diagnostics ≠ [], γ.past && !k.read⟩

/-- One grade admits fewer states than another and claims less. -/
structure Within (γ γ' : Grade) : Prop where
  admits : ∀ s, γ.Admits s → γ'.Admits s
  past : γ.past = true → γ'.past = true

theorem Admits.after {γ : Grade} {k : Mark} {s s' : State} (h : γ.Admits s) (hs : s.Moves s')
    (hk : k.Tells s s') : (γ.after k).Admits s' := by
  refine ⟨?_, hk.dirty⟩
  have hlt := h.1
  have hle := hs.length_le
  show _ < if k.read = true then γ.bound - 1 else γ.bound
  by_cases hread : k.read = true
  · have hfewer := hk.read hread
    rw [if_pos hread]
    omega
  · rw [if_neg hread]
    omega

end Grade

/-! ## Steady parsers -/

/-- What a run that started in a state has to end with. -/
def Yields (mark : α → Mark) (s : State) : Option α × State → Prop
  | (none, s') => s'.diagnostics ≠ []
  | (some a, s') => (mark a).Tells s s'

/-- Runs from the states of a grade move forward, and fail only with a diagnostic. -/
def Steady (γ : Grade) (mark : α → Mark) (p : Parser α) : Prop :=
  ∀ c s, γ.Admits s → s.Moves (p c s).2 ∧ Yields mark s (p c s)

namespace Steady

variable {α β : Type} {γ γ' : Grade} {mark k : α → Mark} {p : Parser α}

theorem moves (h : Steady γ mark p) {c : Setting} {s s' : State} {r : Option α} (hs : γ.Admits s)
    (hp : p c s = (r, s')) : s.Moves s' := by
  have hm := (h c s hs).1
  rw [hp] at hm
  exact hm

theorem tells (h : Steady γ mark p) {c : Setting} {s s' : State} {a : α} (hs : γ.Admits s)
    (hp : p c s = (some a, s')) : (mark a).Tells s s' := by
  have hy := (h c s hs).2
  rw [hp] at hy
  exact hy

theorem dirty (h : Steady γ mark p) {c : Setting} {s s' : State} (hs : γ.Admits s)
    (hp : p c s = (none, s')) : s'.diagnostics ≠ [] := by
  have hy := (h c s hs).2
  rw [hp] at hy
  exact hy

theorem after (h : Steady γ mark p) {c : Setting} {s s' : State} {a : α} (hs : γ.Admits s)
    (hp : p c s = (some a, s')) : (γ.after (mark a)).Admits s' :=
  hs.after (h.moves hs hp) (h.tells hs hp)

theorem weaken (h : Steady γ mark p) (hγ : γ'.Within γ) {mark' : α → Mark}
    (hmark : ∀ a s s', γ'.Admits s → s.Moves s' → (mark a).Tells s s' → (mark' a).Tells s s') :
    Steady γ' mark' p := by
  intro c s hs
  have hsteady := h c s (hγ.admits s hs)
  refine ⟨hsteady.1, ?_⟩
  cases hp : p c s with
  | mk r s' =>
    rw [hp] at hsteady
    cases r with
    | none => exact hsteady.2
    | some a => exact hmark a s s' hs hsteady.1 hsteady.2

theorem pure {a : α} (h : ∀ s, γ.Admits s → (mark a).Tells s s) : Steady γ mark (pure a) :=
  fun _ s hs => ⟨.refl s, h s hs⟩

theorem fail (h : ∀ s, γ.Admits s → s.diagnostics ≠ []) : Steady γ mark fail :=
  fun _ s hs => ⟨.refl s, h s hs⟩

theorem bind {f : α → Parser β} {mark : β → Mark} (hp : Steady γ k p)
    (hf : ∀ a, Steady (γ.after (k a)) (fun b => (mark b).without (k a)) (f a)) :
    Steady γ mark (p >>= f) := by
  intro c s hs
  rw [bind_apply]
  cases hrun : p c s with
  | mk r s' =>
    have hmoves := hp.moves hs hrun
    cases r with
    | none => exact ⟨hmoves, hp.dirty hs hrun⟩
    | some a =>
      have hrest := hf a c s' (hp.after hs hrun)
      show s.Moves (f a c s').2 ∧ Yields mark s (f a c s')
      refine ⟨hmoves.trans hrest.1, ?_⟩
      cases hrun' : f a c s' with
      | mk r' s'' =>
        rw [hrun'] at hrest
        cases r' with
        | none => exact hrest.2
        | some b => exact (hp.tells hs hrun).trans hmoves hrest.1 hrest.2

theorem attempt (h : Steady γ k p) : Steady γ (fun r => r.elim .failing k) (attempt p) := by
  intro c s hs
  have hsteady := h c s hs
  refine ⟨hsteady.1, ?_⟩
  show Yields _ s (some (p c s).1, (p c s).2)
  cases hp : p c s with
  | mk r s' =>
    rw [hp] at hsteady
    cases r with
    | none => exact ⟨nofun, fun _ => hsteady.2⟩
    | some a => exact hsteady.2

end Steady

/-! ## Looking, reporting, and moving on -/

/-- A parser that only looks at the tokens on both sides of the cursor. -/
def Looks (p : Parser α) (answer : Nat → List Token → List Token → α) : Prop :=
  ∀ c s, p c s = (some (answer c.sourceEnd s.consumed s.rest), s)

/-- A parser that only reports, and has a reason to. -/
structure Reports (p : Parser Unit) (diagnostic : Nat → List Token → List Token → Diagnostic) : Prop where
  run : ∀ c s, p c s = (some (), { s with
    diagnostics := diagnostic c.sourceEnd s.consumed s.rest :: s.diagnostics })
  hasReason : ∀ e consumed rest, (diagnostic e consumed rest).problem.HasReason

/-- There is a next token. -/
def State.Headed (s : State) : Prop := ∃ t ts, s.rest = t :: ts

theorem State.headed_of_peek {s : State} {k : Kind} (h : s.peek = some k) : s.Headed := by
  obtain ⟨cs, rest, ds, ns⟩ := s
  cases rest with
  | nil => cases h
  | cons t ts => exact ⟨t, ts, rfl⟩

/-- A grade for states with a next token. -/
def Grade.headed (bound : Nat) (past : Bool) : Grade := ⟨bound, State.Headed, past⟩

namespace Steady

variable {α β : Type} {γ : Grade} {mark : α → Mark}

theorem reports {p : Parser Unit} {diagnostic : Nat → List Token → List Token → Diagnostic}
    (hp : Reports p diagnostic) : Steady γ (fun _ => .failing) p := by
  intro c s _
  rw [hp.run]
  exact ⟨.reported s _, nofun, fun _ => List.cons_ne_nil _ _⟩

theorem skipExtent {extent : List Token → Nat} {mark : Unit → Mark}
    (hread : ∀ s, γ.Admits s → (mark ()).read = true → s.rest ≠ [] ∧ 0 < extent s.rest)
    (hdirty : ∀ s, γ.Admits s → (mark ()).dirty = true → s.diagnostics ≠ []) :
    Steady γ mark (skipExtent extent) := by
  intro c s hs
  have hmoves := State.Moves.advance s (extent s.rest)
  refine ⟨hmoves, ?_, fun hm => hmoves.dirty (hdirty s hs hm)⟩
  intro hm
  obtain ⟨hne, hpos⟩ := hread s hs hm
  have hlen := List.length_pos_iff.mpr hne
  show (s.advance (extent s.rest)).rest.length < _
  rw [State.advance_rest, List.length_drop]
  omega

theorem eat (k : Kind) : Steady γ (fun r => r.elim .nothing fun _ => .reading) (eat k) := by
  intro c s _
  obtain ⟨cs, rest, ds, ns⟩ := s
  cases rest with
  | nil => exact ⟨.refl _, Mark.tells_nothing _ _⟩
  | cons t ts =>
    by_cases hk : t.kind = k
    · have hrun : Parser.eat k c ⟨cs, t :: ts, ds, ns⟩ = (some (some t), State.step ⟨cs, t :: ts, ds, ns⟩) :=
        if_pos hk
      rw [hrun]
      exact ⟨.step _, fun _ => Nat.lt_succ_self _, nofun⟩
    · have hrun : Parser.eat k c ⟨cs, t :: ts, ds, ns⟩ = (some none, ⟨cs, t :: ts, ds, ns⟩) := if_neg hk
      rw [hrun]
      exact ⟨.refl _, Mark.tells_nothing _ _⟩

end Steady

end Parser

end Bluespec
