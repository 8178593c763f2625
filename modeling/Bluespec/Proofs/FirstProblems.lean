import Bluespec.Proofs.Tracking

/-!
# The first problem stays the first

Problems are reported in the order of their places, and a run goes on after each of them.  One that has been reported
at the cursor stands before all that are reported later.

* **`State.Sound`** — the tokens and the diagnostics of a state are in order.
* **`Keeps`** — a parser that moves forward through sound states, in their order.
* **`State.Rejected`** — what has been reported first stands first; **`Keeps.rejected`** — and it stays there.
* **`sortByStart_of_rejected`** — so it comes first when the diagnostics are sorted.
-/

namespace Bluespec.Parser

variable {α β : Type} {c : Setting} {s s' : State} {starts : Nat → Prop} {bound : Nat}

/-! ## States in order -/

/-- The tokens of a state are in order and start where tokens may start, and its diagnostics stand in turn. -/
def State.Sound (starts : Nat → Prop) (c : Setting) (s : State) : Prop := Alike ⟨id, starts, id⟩ c s c s

/-- No token is left before the cursor. -/
theorem State.Sound.cursor_le (h : s.Sound starts c) : ∀ t ∈ s.rest, s.cursor c ≤ t.span.start := by
  intro t ht
  cases hrest : s.rest with
  | nil =>
    rw [hrest] at ht
    cases ht
  | cons first ts =>
    have hcursor : s.cursor c = first.span.start := by
      rw [State.cursor, State.peekSpan, hrest]
      rfl
    rw [hrest] at ht
    rcases List.mem_cons.mp ht with rfl | ht
    · exact Nat.le_of_eq hcursor
    · have hordered := h.ordered
      rw [hrest] at hordered
      have hfirst := hordered.nonempty first List.mem_cons_self
      have hbefore := List.rel_of_pairwise_cons hordered.before ht
      omega

theorem State.Sound.cursor_le_end (h : s.Sound starts c) : s.cursor c ≤ c.sourceEnd := by
  cases hrest : s.rest with
  | nil =>
    rw [State.cursor, State.peekSpan, hrest]
    exact Nat.le_refl _
  | cons t ts =>
    have hmem : t ∈ s.rest := hrest ▸ List.mem_cons_self
    have hle := h.cursor_le t hmem
    have hpos := h.ordered.nonempty t hmem
    have hend := h.inside t hmem
    omega

/-- The cursor has moved on once a token has been read. -/
theorem State.Sound.cursor_lt_step (h : s.Sound starts c) (hs : s.Headed) : s.cursor c < s.step.cursor c := by
  obtain ⟨t, ts, hrest⟩ := hs
  have hmem : t ∈ s.rest := hrest ▸ List.mem_cons_self
  have hle := h.cursor_le t hmem
  have hpos := h.ordered.nonempty t hmem
  have hstop := Alike.stop_le_cursor h hrest
  omega

/-- Resuming only moves on. -/
theorem State.Sound.resumeState (h : s'.Sound starts c) (s : State) :
    (Parser.resumeState s s').Sound starts c ∧ s'.cursor c ≤ (Parser.resumeState s s').cursor c := by
  unfold Parser.resumeState
  split
  · exact Alike.advance h _
  · exact ⟨h, Nat.le_refl _⟩

/-! ## Parsers that move forward -/

/-- Runs only move forward, where fewer tokens than a bound are left. -/
def Forward (bound : Nat) (p : Parser α) : Prop := ∀ c (s : State), s.rest.length < bound → s.Moves (p c s).2

/-- Runs from sound states end in sound states, with the cursor not before where it was. -/
def Orderly (p : Parser α) : Prop :=
  ∀ starts c s, s.Sound starts c → (p c s).2.Sound starts c ∧ s.cursor c ≤ (p c s).2.cursor c

/-- Runs move forward in order. -/
structure Keeps (bound : Nat) (p : Parser α) : Prop where
  forward : Forward bound p
  orderly : Orderly p

section Forward

variable {p : Parser α} {f : α → Parser β}

theorem Forward.of_steady {mark : α → Mark} {past : Bool} (h : Steady (.free bound past) mark p) : Forward bound p :=
  fun c s hs => (h c s ⟨hs, trivial⟩).1

theorem Forward.ret (a : α) : Forward bound (pure a) := fun _ s _ => .refl s

theorem Forward.bind (hp : Forward bound p) (hf : ∀ a, Forward bound (f a)) : Forward bound (p >>= f) := by
  intro c s hs
  have hmoves := hp c s hs
  rw [bind_apply]
  cases hrun : p c s with
  | mk r s₁ =>
    rw [hrun] at hmoves
    cases r with
    | none => exact hmoves
    | some a => exact hmoves.trans (hf a c s₁ (Nat.lt_of_le_of_lt hmoves.length_le hs))

theorem Orderly.of_tracks {V : Relocation → Nat → α → α → Prop}
    (h : ∀ ℓ, Tracks ℓ 0 (V ℓ) p p) : Orderly p :=
  fun starts c s hs => (h ⟨id, starts, id⟩ c s c s hs (Nat.zero_le _)).2

theorem Orderly.cursor_le {r : Option α} (hp : Orderly p) (hs : s.Sound starts c) (h : p c s = (r, s')) :
    s.cursor c ≤ s'.cursor c := by
  have hcursor := (hp starts c s hs).2
  rw [h] at hcursor
  exact hcursor

end Forward

namespace Keeps

variable {p : Parser α} {f : α → Parser β}

theorem length {r : Option α} (hp : Keeps bound p) (hs : s.rest.length < bound) (h : p c s = (r, s')) :
    s'.rest.length < bound := by
  have hmoves := hp.forward c s hs
  rw [h] at hmoves
  exact Nat.lt_of_le_of_lt hmoves.length_le hs

theorem of_steady {mark : α → Mark} {past : Bool} {V : Relocation → Nat → α → α → Prop}
    (h : Steady (.free bound past) mark p) (htracks : ∀ ℓ, Tracks ℓ 0 (V ℓ) p p) : Keeps bound p :=
  ⟨.of_steady h, .of_tracks htracks⟩

theorem ret (a : α) : Keeps bound (pure a) := ⟨.ret a, fun _ _ _ hs => ⟨hs, Nat.le_refl _⟩⟩

theorem fail : Keeps bound (fail : Parser α) := ⟨fun _ s _ => .refl s, fun _ _ _ hs => ⟨hs, Nat.le_refl _⟩⟩

/-- A parser that only looks. -/
theorem still (h : ∀ c s, (p c s).2 = s) : Keeps bound p := by
  refine ⟨fun c s _ => ?_, fun _ c s hs => ?_⟩
  · rw [h]
    exact .refl s
  · rw [h]
    exact ⟨hs, Nat.le_refl _⟩

theorem bind (hp : Keeps bound p) (hf : ∀ a, Keeps bound (f a)) : Keeps bound (p >>= f) := by
  refine ⟨hp.forward.bind fun a => (hf a).forward, fun starts c s hs => ?_⟩
  have hsound := hp.orderly starts c s hs
  rw [bind_apply]
  cases hrun : p c s with
  | mk r s₁ =>
    rw [hrun] at hsound
    cases r with
    | none => exact hsound
    | some a =>
      have hrest := (hf a).orderly starts c s₁ hsound.1
      exact ⟨hrest.1, Nat.le_trans hsound.2 hrest.2⟩

/-- A value around the span of what was read. -/
theorem spanning (start : Nat) (make : Span → α) :
    Keeps bound (spanFrom start >>= fun span => pure (make span)) :=
  (still fun _ _ => rfl).bind fun _ => ret _

theorem resuming (hp : Keeps bound p) : Keeps bound (Parser.resuming p) := by
  constructor
  · intro c s hs
    have hmoves := hp.forward c s hs
    unfold Parser.resuming
    cases hrun : p c s with
    | mk r s₁ =>
      rw [hrun] at hmoves
      cases r with
      | none => exact hmoves.trans (.resumeState s s₁)
      | some a => exact hmoves
  · intro starts c s hs
    obtain ⟨hsound, hle⟩ := hp.orderly starts c s hs
    unfold Parser.resuming
    cases hrun : p c s with
    | mk r s₁ =>
      rw [hrun] at hsound hle
      cases r with
      | none =>
        have hresumed := hsound.resumeState s
        exact ⟨hresumed.1, Nat.le_trans hle hresumed.2⟩
      | some a => exact ⟨hsound, hle⟩

theorem itemsUpTo (hp : Keeps bound p) (limit : Nat) : Keeps bound (Parser.itemsUpTo p limit) := by
  induction limit with
  | zero => exact fail
  | succ limit ih =>
    refine (still fun _ _ => rfl).bind fun closes => (still fun _ _ => rfl).bind fun stopped => ?_
    split
    · exact ret _
    · exact hp.resuming.bind fun first => ih.bind fun others => ret _

theorem items (hp : Keeps bound p) : Keeps bound (Parser.items p) :=
  ⟨fun c s => (hp.itemsUpTo (s.rest.length + 1)).forward c s,
    fun starts c s => (hp.itemsUpTo (s.rest.length + 1)).orderly starts c s⟩

end Keeps

/-! ## What was reported first -/

/-- A diagnostic was reported before all others, and all that are reported from then on stand behind it. -/
structure State.Rejected (d : Diagnostic) (c : Setting) (s : State) : Prop where
  first : [d] <:+ s.diagnostics
  sound : s.Sound (d.span.start ≤ ·) c

/-- A problem that is reported not behind the cursor, where nothing has been reported before. -/
theorem State.Rejected.of_report {span : Span} {problem : Problem} (h : s.Sound starts c) (hclean : s.diagnostics = [])
    (hspan : span.start ≤ s.cursor c) : (s.report span problem).Rejected ⟨problem, span⟩ c := by
  have hdiagnostics : (s.report span problem).diagnostics = [⟨problem, span⟩] := by rw [State.report, hclean]
  refine ⟨hdiagnostics ▸ List.suffix_refl _, ?_⟩
  refine ⟨rfl, rfl, h.consumed, h.rest, ?_, h.ordered, h.inside, ?_, ?_, h.lastEnd, ?_, ?_⟩
  · rw [hdiagnostics]
    rfl
  · exact fun t ht => Nat.le_trans hspan (h.cursor_le t ht)
  · exact Nat.le_trans hspan h.cursor_le_end
  · rw [hdiagnostics]
    exact fun d hd => List.mem_singleton.mp hd ▸ hspan
  · rw [hdiagnostics]
    exact List.pairwise_singleton _ _

/-- What was reported first stays the first. -/
theorem Keeps.rejected {p : Parser α} {d : Diagnostic} (hp : Keeps bound p) (hs : s.rest.length < bound)
    (h : s.Rejected d c) : (p c s).2.Rejected d c :=
  ⟨h.first.trans (hp.forward c s hs).diagnostics, (hp.orderly _ c s h.sound).1⟩

theorem State.Rejected.resumeState {d : Diagnostic} (h : s'.Rejected d c) (s : State) :
    (Parser.resumeState s s').Rejected d c :=
  ⟨h.first.trans (State.Moves.resumeState s s').diagnostics, (h.sound.resumeState s).1⟩

theorem State.Rejected.dirty {d : Diagnostic} (h : s.Rejected d c) : s.diagnostics ≠ [] := by
  intro hnil
  have hfirst := h.first
  rw [hnil, List.suffix_nil] at hfirst
  cases hfirst

/-- What was reported first comes first in the order of places. -/
theorem sortByStart_of_rejected {d : Diagnostic} (h : s.Rejected d c) :
    ∃ ds, Diagnostic.sortByStart s.diagnostics.reverse = d :: ds := by
  obtain ⟨later, hlater⟩ := h.first
  have hturn := h.sound.inTurn
  rw [← hlater] at hturn ⊢
  have hbehind : ∀ e ∈ later.reverse, d.span.start ≤ e.span.start := by
    intro e he
    rcases (List.pairwise_append.mp hturn).2.2 e (List.mem_reverse.mp he) d (List.mem_singleton.mpr rfl) with h | h
    · exact h
    · exact Nat.le_of_lt h
  have hreverse : (later ++ [d]).reverse = d :: later.reverse := by rw [List.reverse_append]; rfl
  have htrans : ∀ a b c : Diagnostic, decide (a.span.start ≤ b.span.start) = true →
      decide (b.span.start ≤ c.span.start) = true → decide (a.span.start ≤ c.span.start) = true :=
    fun _ _ _ hab hbc => decide_eq_true (Nat.le_trans (of_decide_eq_true hab) (of_decide_eq_true hbc))
  have htotal : ∀ a b : Diagnostic,
      (decide (a.span.start ≤ b.span.start) || decide (b.span.start ≤ a.span.start)) = true := by
    intro a b
    rw [Bool.or_eq_true, decide_eq_true_eq, decide_eq_true_eq]
    exact Nat.le_total _ _
  obtain ⟨before, after, hsorted, hothers, hbefore⟩ := List.mergeSort_cons htrans htotal d later.reverse
  rw [hreverse, Diagnostic.sortByStart, hsorted]
  cases before with
  | nil => exact ⟨after, rfl⟩
  | cons e before =>
    have hmem : e ∈ later.reverse := List.mem_mergeSort.mp (hothers ▸ List.mem_append_left _ List.mem_cons_self)
    have hlt := hbefore e List.mem_cons_self
    rw [Bool.not_eq_true', decide_eq_false_iff_not] at hlt
    exact absurd (hbehind e hmem) hlt

end Bluespec.Parser
