import Bluespec.Proofs.CutText

/-!
# The language of a pattern

Matching reads a pattern character by character; its language is defined by its parts.  The two agree.

* **`Pattern.matches_star_char`**, **`Pattern.not_mem_of_avoids`** — the characters of a text in the language.
* **`Pattern.matches_step`** — what is left of a pattern after a character matches what may follow that character.
* **`Pattern.matches_iff`** — a text is in the language of a pattern when what is left of the pattern behind the text
  matches the empty text.
* **`Pattern.longest?_eq_some_iff`**, **`Pattern.longest?_eq_none_iff`** — the longest match is the longest prefix in
  the language.
-/

namespace Bluespec.Pattern

/-! ## Languages of the constructors -/

theorem not_matches_nothing (cs : List Char) : ¬ Matches nothing cs := by
  intro h
  cases h

theorem matches_blank {cs : List Char} : Matches blank cs ↔ cs = [] := by
  constructor
  · intro h
    cases h
    rfl
  · rintro rfl
    exact .blank

theorem matches_char {p : Char → Bool} {cs : List Char} : Matches (char p) cs ↔ ∃ c, cs = [c] ∧ p c = true := by
  constructor
  · intro h
    cases h with
    | char h => exact ⟨_, rfl, h⟩
  · rintro ⟨c, rfl, h⟩
    exact .char h

theorem matches_seq {a b : Pattern} {cs : List Char} :
    Matches (seq a b) cs ↔ ∃ s t, cs = s ++ t ∧ a.Matches s ∧ b.Matches t := by
  constructor
  · intro h
    cases h with
    | seq ha hb => exact ⟨_, _, rfl, ha, hb⟩
  · rintro ⟨s, t, rfl, ha, hb⟩
    exact .seq ha hb

theorem matches_alt {a b : Pattern} {cs : List Char} : Matches (alt a b) cs ↔ a.Matches cs ∨ b.Matches cs := by
  constructor
  · intro h
    cases h with
    | left h => exact .inl h
    | right h => exact .inr h
  · rintro (h | h)
    · exact .left h
    · exact .right h

/-- Repetitions of a text that begins with a character begin with a repetition that is not empty. -/
theorem matches_star_cons {a : Pattern} {c : Char} {cs : List Char} :
    Matches (star a) (c :: cs) ↔ ∃ s t, cs = s ++ t ∧ a.Matches (c :: s) ∧ (star a).Matches t := by
  constructor
  · intro h
    -- The induction is on the repetitions: empty ones are passed over until one reads the character.
    generalize hp : star a = p at h
    generalize hds : c :: cs = ds at h
    induction h with
    | stop => cases hds
    | @more a' s t ha hs _ ih =>
      cases hp
      cases s with
      | nil => exact ih rfl hds
      | cons d s =>
        obtain ⟨rfl, rfl⟩ := List.cons_eq_cons.mp hds
        exact ⟨s, t, rfl, ha, hs⟩
    | _ => cases hp
  · rintro ⟨s, t, rfl, ha, hs⟩
    exact .more ha hs

theorem matches_star_char {p : Char → Bool} {cs : List Char} :
    Matches (star (char p)) cs ↔ ∀ c ∈ cs, p c = true := by
  induction cs with
  | nil => exact ⟨fun _ => nofun, fun _ => .stop⟩
  | cons c cs ih =>
    rw [List.forall_mem_cons, ← ih, matches_star_cons]
    constructor
    · rintro ⟨s, t, rfl, hs, ht⟩
      obtain ⟨d, hd, hc⟩ := matches_char.mp hs
      obtain ⟨rfl, rfl⟩ := List.cons_eq_cons.mp hd
      exact ⟨hc, ht⟩
    · rintro ⟨hc, hcs⟩
      exact ⟨[], cs, rfl, .char hc, hcs⟩

/-- A text that a pattern matches holds no character that is in none of its classes. -/
theorem not_mem_of_avoids {a : Pattern} {d : Char} {cs : List Char} (ha : a.avoids d = true) (h : a.Matches cs) :
    d ∉ cs := by
  induction h with
  | blank => exact List.not_mem_nil
  | char hp =>
    rintro hd
    obtain rfl := List.mem_singleton.mp hd
    rw [avoids, hp] at ha
    cases ha
  | seq _ _ iha ihb =>
    rw [avoids, Bool.and_eq_true] at ha
    rw [List.mem_append, not_or]
    exact ⟨iha ha.1, ihb ha.2⟩
  | left _ ih =>
    rw [avoids, Bool.and_eq_true] at ha
    exact ih ha.1
  | right _ ih =>
    rw [avoids, Bool.and_eq_true] at ha
    exact ih ha.2
  | stop => exact List.not_mem_nil
  | more _ _ iha ihs =>
    rw [List.mem_append, not_or]
    exact ⟨iha ha, ihs ha⟩

/-! ## Simplified sequences and choices -/

theorem matches_seq_blank {b : Pattern} {cs : List Char} : Matches (seq blank b) cs ↔ b.Matches cs := by
  rw [matches_seq]
  constructor
  · rintro ⟨s, t, rfl, hs, ht⟩
    obtain rfl := matches_blank.mp hs
    exact ht
  · exact fun h => ⟨[], cs, rfl, .blank, h⟩

theorem not_matches_seq_nothing (a : Pattern) (cs : List Char) : ¬ Matches (seq a nothing) cs := by
  rw [matches_seq]
  rintro ⟨s, t, -, -, ht⟩
  exact not_matches_nothing t ht

theorem matches_andThen (a b : Pattern) (cs : List Char) : Matches (a.andThen b) cs ↔ Matches (seq a b) cs := by
  by_cases hb : b = nothing
  · subst hb
    have hleft : ¬ Matches (a.andThen nothing) cs := by cases a <;> exact not_matches_nothing cs
    exact ⟨fun h => absurd h hleft, fun h => absurd h (not_matches_seq_nothing a cs)⟩
  cases a with
  | nothing =>
    refine ⟨fun h => absurd h (not_matches_nothing cs), fun h => ?_⟩
    obtain ⟨s, t, -, hs, -⟩ := matches_seq.mp h
    exact absurd hs (not_matches_nothing s)
  | blank => exact matches_seq_blank.symm
  | _ => cases b <;> first | exact absurd rfl hb | exact Iff.rfl

theorem matches_orElse (a b : Pattern) (cs : List Char) : Matches (a.orElse b) cs ↔ a.Matches cs ∨ b.Matches cs := by
  have hnothing := not_matches_nothing cs
  by_cases ha : a = nothing
  · subst ha
    exact ⟨.inr, fun h => h.resolve_left hnothing⟩
  by_cases hb : b = nothing
  · subst hb
    have hsame : a.orElse nothing = a := by cases a <;> rfl
    rw [hsame]
    exact ⟨.inl, fun h => h.resolve_right hnothing⟩
  have hsame : a.orElse b = alt a b := by
    cases a <;> first | exact absurd rfl ha | (cases b <;> first | exact absurd rfl hb | rfl)
  rw [hsame, matches_alt]

/-! ## Reading character by character -/

theorem nullable_iff (a : Pattern) : a.nullable = true ↔ a.Matches [] := by
  induction a with
  | nothing => exact ⟨fun h => absurd h Bool.false_ne_true, fun h => absurd h (not_matches_nothing [])⟩
  | blank => exact ⟨fun _ => .blank, fun _ => rfl⟩
  | char p =>
    refine ⟨fun h => absurd h Bool.false_ne_true, fun h => ?_⟩
    obtain ⟨c, hc, -⟩ := matches_char.mp h
    cases hc
  | seq a b iha ihb =>
    rw [nullable, Bool.and_eq_true, iha, ihb, matches_seq]
    constructor
    · exact fun ⟨ha, hb⟩ => ⟨[], [], rfl, ha, hb⟩
    · rintro ⟨s, t, hst, ha, hb⟩
      obtain ⟨rfl, rfl⟩ := List.append_eq_nil_iff.mp hst.symm
      exact ⟨ha, hb⟩
  | alt a b iha ihb => rw [nullable, Bool.or_eq_true, iha, ihb, matches_alt]
  | star a _ => exact ⟨fun _ => .stop, fun _ => rfl⟩

theorem matches_step (a : Pattern) (c : Char) (cs : List Char) : (a.step c).Matches cs ↔ a.Matches (c :: cs) := by
  induction a generalizing cs with
  | nothing => exact ⟨fun h => absurd h (not_matches_nothing _), fun h => absurd h (not_matches_nothing _)⟩
  | blank =>
    refine ⟨fun h => absurd h (not_matches_nothing _), fun h => ?_⟩
    cases matches_blank.mp h
  | char p =>
    rw [step, matches_char]
    constructor
    · intro h
      by_cases hp : p c = true
      · rw [if_pos hp, matches_blank] at h
        exact ⟨c, by rw [h], hp⟩
      · rw [if_neg hp] at h
        exact absurd h (not_matches_nothing cs)
    · rintro ⟨d, hd, hp⟩
      obtain ⟨rfl, rfl⟩ := List.cons_eq_cons.mp hd
      rw [if_pos hp]
      exact .blank
  | seq a b iha ihb =>
    have hfirst : ((a.step c).andThen b).Matches cs ↔ ∃ s t, cs = s ++ t ∧ a.Matches (c :: s) ∧ b.Matches t := by
      rw [matches_andThen, matches_seq]
      simp only [iha]
    -- The character is read by the first part, or by the second one behind an empty first part.
    have hsplit : (seq a b).Matches (c :: cs) ↔
        (∃ s t, cs = s ++ t ∧ a.Matches (c :: s) ∧ b.Matches t) ∨ (a.nullable = true ∧ b.Matches (c :: cs)) := by
      rw [matches_seq, nullable_iff]
      constructor
      · rintro ⟨s, t, hst, ha, hb⟩
        cases s with
        | nil =>
          rw [List.nil_append] at hst
          exact .inr ⟨ha, hst ▸ hb⟩
        | cons d s =>
          obtain ⟨rfl, rfl⟩ := List.cons_eq_cons.mp hst
          exact .inl ⟨s, t, rfl, ha, hb⟩
      · rintro (⟨s, t, rfl, ha, hb⟩ | ⟨ha, hb⟩)
        · exact ⟨c :: s, t, rfl, ha, hb⟩
        · exact ⟨[], c :: cs, rfl, ha, hb⟩
    rw [step, hsplit]
    by_cases hnull : a.nullable = true
    · rw [if_pos hnull, matches_orElse, hfirst, ihb, and_iff_right hnull]
    · rw [if_neg hnull, hfirst, or_iff_left fun h => hnull h.1]
  | alt a b iha ihb => rw [step, matches_orElse, iha, ihb, matches_alt]
  | star a iha =>
    rw [step, matches_andThen, matches_seq, matches_star_cons]
    simp only [iha]

/-- A text is in the language of a pattern when nothing but the empty text is left to match behind it. -/
theorem matches_iff (a : Pattern) (cs : List Char) : a.Matches cs ↔ (a.steps cs).nullable = true := by
  induction cs generalizing a with
  | nil => exact (nullable_iff a).symm
  | cons c cs ih => rw [← matches_step, ih, steps]

/-! ## Longest matches -/

/-- Every match that begins where reading begins is at most as long as the longest one. -/
theorem le_longestFrom {a : Pattern} (taken : Nat) (best : Option Nat) {cs : List Char} {n : Nat} (hn : n ≤ cs.length)
    (h : a.Matches (cs.take n)) : ∃ k, n ≤ k ∧ a.longestFrom taken best cs = some (taken + k) := by
  induction cs generalizing a taken best n with
  | nil =>
    rw [List.take_nil, ← nullable_iff] at h
    exact ⟨0, hn, by rw [longestFrom, if_pos h]; rfl⟩
  | cons c cs ih =>
    rw [longestFrom]
    cases n with
    | zero =>
      rw [List.take_zero, ← nullable_iff] at h
      rw [if_pos h]
      split
      · exact ⟨0, Nat.le_refl 0, rfl⟩
      · obtain hsame | ⟨k, -, -, hlong, -⟩ := longestFrom_cases (a.step c) (taken + 1) (some taken) cs
        · rw [hsame]
          split
          · exact ⟨1, Nat.zero_le 1, rfl⟩
          · exact ⟨0, Nat.le_refl 0, rfl⟩
        · exact ⟨k + 1, Nat.zero_le _, by rw [hlong, Nat.add_assoc, Nat.add_comm 1 k]⟩
    | succ n =>
      rw [List.take_succ_cons, ← matches_step] at h
      have halive : (a.step c).isNothing = false := by
        rw [Bool.eq_false_iff]
        intro hnothing
        rw [eq_nothing_of_isNothing hnothing] at h
        exact not_matches_nothing _ h
      obtain ⟨k, hk, hlong⟩ := ih (taken + 1) (if a.nullable then some taken else best) (Nat.le_of_succ_le_succ hn) h
      refine ⟨k + 1, Nat.succ_le_succ hk, ?_⟩
      rw [halive, if_neg Bool.false_ne_true, hlong, Nat.add_assoc, Nat.add_comm 1 k]

theorem longest?_eq_some_iff {a : Pattern} {cs : List Char} {n : Nat} :
    a.longest? cs = some n ↔
      n ≤ cs.length ∧ a.Matches (cs.take n) ∧ ∀ m ≤ cs.length, a.Matches (cs.take m) → m ≤ n := by
  constructor
  · intro h
    obtain ⟨hn, hnull⟩ := longest?_matched h
    refine ⟨hn, (matches_iff a _).mpr hnull, fun m hm hmatch => ?_⟩
    obtain ⟨k, hk, hlong⟩ := le_longestFrom 0 none hm hmatch
    rw [longest?, hlong, Nat.zero_add] at h
    cases h
    exact hk
  · rintro ⟨hn, hmatch, hmax⟩
    obtain ⟨k, hk, hlong⟩ := le_longestFrom 0 none hn hmatch
    rw [Nat.zero_add] at hlong
    obtain ⟨hle, hnull⟩ := longest?_matched hlong
    have hkn := hmax k hle ((matches_iff a _).mpr hnull)
    rw [longest?, hlong, Nat.le_antisymm hk hkn]

theorem longest?_eq_none_iff {a : Pattern} {cs : List Char} :
    a.longest? cs = none ↔ ∀ m ≤ cs.length, ¬ a.Matches (cs.take m) := by
  constructor
  · intro h m hm hmatch
    obtain ⟨k, -, hlong⟩ := le_longestFrom 0 none hm hmatch
    rw [longest?, hlong] at h
    cases h
  · intro h
    cases hlong : a.longest? cs with
    | none => rfl
    | some n =>
      obtain ⟨hn, hmatch, -⟩ := longest?_eq_some_iff.mp hlong
      exact absurd hmatch (h n hn)

end Bluespec.Pattern
