import Bluespec.Proofs.Scanning

/-!
# Lexemes of a text that is cut

A lexeme is found again in a text that is cut behind it, and in one that goes on in another way, unless some rule
could match on.

* **`Pattern.steps`** — what is left of a pattern after a text.
* **`Pattern.avoids`** — patterns that match no text with a certain character.
* **`Pattern.longest?_cut`**, **`Lexeme.longest?_cut`** — the longest match in a text that goes on in another way.
-/

namespace Bluespec

namespace Pattern

/-! ## What is left of a pattern -/

/-- What is left to match after a text. -/
def steps (a : Pattern) : List Char → Pattern
  | [] => a
  | c :: cs => (a.step c).steps cs

theorem steps_nothing (cs : List Char) : nothing.steps cs = nothing := by
  induction cs with
  | nil => rfl
  | cons c cs ih => exact ih

theorem eq_nothing_of_isNothing {a : Pattern} (h : a.isNothing = true) : a = nothing := by
  cases a with
  | nothing => rfl
  | _ => cases h

/-- A longest match is the one known at the start, or a longer one, and then nothing is left to match before it. -/
theorem longestFrom_cases (a : Pattern) (taken : Nat) (best : Option Nat) (cs : List Char) :
    a.longestFrom taken best cs = (if a.nullable then some taken else best) ∨
      ∃ k, 0 < k ∧ k ≤ cs.length ∧ a.longestFrom taken best cs = some (taken + k) ∧
        (a.steps (cs.take k)).nullable = true := by
  induction cs generalizing a taken best with
  | nil => exact .inl rfl
  | cons c cs ih =>
    rw [longestFrom]
    split
    · exact .inl rfl
    · obtain hsame | ⟨k, hpos, hk, hlong, hnull⟩ := ih (a.step c) (taken + 1) (if a.nullable then some taken else best)
      · by_cases hstep : (a.step c).nullable = true
        · rw [if_pos hstep] at hsame
          exact .inr ⟨1, Nat.one_pos, Nat.succ_le_succ (Nat.zero_le _), hsame, hstep⟩
        · rw [if_neg hstep] at hsame
          exact .inl hsame
      · refine .inr ⟨k + 1, Nat.succ_pos k, Nat.succ_le_succ hk, ?_, hnull⟩
        rw [hlong, Nat.add_assoc, Nat.add_comm 1 k]

/-- A longest match ends in the text, and leaves a pattern that matches the empty text. -/
theorem longest?_matched {a : Pattern} {cs : List Char} {n : Nat} (h : a.longest? cs = some n) :
    n ≤ cs.length ∧ (a.steps (cs.take n)).nullable = true := by
  obtain hsame | ⟨k, -, hk, hlong, hnull⟩ := longestFrom_cases a 0 none cs
  · rw [longest?, hsame] at h
    by_cases hnull : a.nullable = true
    · rw [if_pos hnull] at h
      cases h
      exact ⟨Nat.zero_le _, hnull⟩
    · rw [if_neg hnull] at h
      cases h
  · rw [longest?, hlong, Nat.zero_add] at h
    cases h
    exact ⟨hk, hnull⟩

/-- Where nothing is left to match at once, only what was known or the empty match remains. -/
theorem longestFrom_stuck {a : Pattern} {cs : List Char} (h : ∀ d ∈ cs.head?, a.step d = nothing) (taken : Nat)
    (best : Option Nat) : a.longestFrom taken best cs = if a.nullable then some taken else best := by
  cases cs with
  | nil => rfl
  | cons d cs =>
    rw [longestFrom, h d rfl]
    rfl

/-- A match that ends in a text is found again where the text goes on in another way. -/
theorem longestFrom_cut {a : Pattern} {taken : Nat} {best : Option Nat} {cs rest tail : List Char}
    (hle : ∀ m, a.longestFrom taken best (cs ++ rest) = some m → m ≤ taken + cs.length)
    (htail : ∀ d ∈ tail.head?, (a.steps cs).step d = nothing) :
    a.longestFrom taken best (cs ++ tail) = a.longestFrom taken best (cs ++ rest) := by
  induction cs generalizing a taken best with
  | nil =>
    rw [List.nil_append] at hle
    have hstuck : ∀ d ∈ tail.head?, a.step d = nothing := htail
    rw [List.nil_append, List.nil_append, longestFrom_stuck hstuck]
    obtain hsame | ⟨k, hpos, -, hlong, -⟩ := longestFrom_cases a taken best rest
    · exact hsame.symm
    · have := hle _ hlong
      rw [List.length_nil] at this
      omega
  | cons c cs ih =>
    rw [List.cons_append, longestFrom] at hle
    rw [List.cons_append, List.cons_append, longestFrom, longestFrom]
    split
    · rfl
    · rename_i hstep
      refine ih (fun m hm => ?_) htail
      have := hle m (by rw [if_neg hstep]; exact hm)
      rw [List.length_cons] at this
      omega

theorem longest?_cut {a : Pattern} {cs rest tail : List Char}
    (hle : ∀ m, a.longest? (cs ++ rest) = some m → m ≤ cs.length)
    (htail : ∀ d ∈ tail.head?, (a.steps cs).step d = nothing) : a.longest? (cs ++ tail) = a.longest? (cs ++ rest) :=
  longestFrom_cut (fun m hm => by rw [Nat.zero_add]; exact hle m hm) htail

/-! ## Characters that are in no class -/

/-- Whether no class of a pattern contains a character. -/
def avoids (d : Char) : Pattern → Bool
  | nothing => true
  | blank => true
  | char p => !p d
  | seq a b => a.avoids d && b.avoids d
  | alt a b => a.avoids d && b.avoids d
  | star a => a.avoids d

section Avoids

variable {d : Char} {a b : Pattern}

theorem avoids_andThen (ha : a.avoids d = true) (hb : b.avoids d = true) : (a.andThen b).avoids d = true := by
  cases a <;> cases b <;> simp_all [andThen, avoids]

theorem avoids_orElse (ha : a.avoids d = true) (hb : b.avoids d = true) : (a.orElse b).avoids d = true := by
  cases a <;> cases b <;> simp_all [orElse, avoids]

theorem avoids_step (h : a.avoids d = true) (c : Char) : (a.step c).avoids d = true := by
  induction a with
  | nothing => rfl
  | blank => rfl
  | char p =>
    rw [step]
    split <;> rfl
  | seq a b iha ihb =>
    rw [avoids, Bool.and_eq_true] at h
    rw [step]
    split
    · exact avoids_orElse (avoids_andThen (iha h.1) h.2) (ihb h.2)
    · exact avoids_andThen (iha h.1) h.2
  | alt a b iha ihb =>
    rw [avoids, Bool.and_eq_true] at h
    exact avoids_orElse (iha h.1) (ihb h.2)
  | star a iha => exact avoids_andThen (iha h) h

theorem step_of_avoids (h : a.avoids d = true) : a.step d = nothing := by
  induction a with
  | nothing => rfl
  | blank => rfl
  | char p =>
    rw [avoids, Bool.not_eq_true'] at h
    rw [step, h]
    rfl
  | seq a b iha ihb =>
    rw [avoids, Bool.and_eq_true] at h
    rw [step, iha h.1, ihb h.2]
    split <;> rfl
  | alt a b iha ihb =>
    rw [avoids, Bool.and_eq_true] at h
    rw [step, iha h.1, ihb h.2]
    rfl
  | star a iha =>
    rw [step, iha h]
    rfl

/-- Where no class of a pattern contains a character, the pattern matches no text that goes on with it. -/
theorem stuck_of_avoids (h : a.avoids d = true) (cs : List Char) : (a.steps cs).step d = nothing := by
  induction cs generalizing a with
  | nil => exact step_of_avoids h
  | cons c cs ih => exact ih (avoids_step h c)

end Avoids

end Pattern

/-! ## Longest lexemes -/

namespace Lexeme

open Pattern

/-- The rules are those for classes whose text varies, and one for each symbol. -/
theorem forall_rules {P : Pattern × Lexeme → Prop} (hvariable : ∀ r ∈ variableRules, P r)
    (hsymbol : ∀ p : Punct, P (text p.spelling, .symbol p)) : ∀ r ∈ rules, P r := by
  intro r hr
  rw [rules, List.mem_append] at hr
  obtain hr | hr := hr
  · exact hvariable r hr
  · obtain ⟨p, -, rfl⟩ := List.mem_map.mp hr
    exact hsymbol p

/-- The better of two matches is the one before or the new one, and at least as long as both. -/
theorem better_cases (best : Option (Lexeme × Nat)) (next : Lexeme) (length : Option Nat) :
    (better best next length = best ∧ ∀ m, length = some m → m = 0 ∨ ∃ l k, best = some (l, k) ∧ m ≤ k) ∨
      ∃ m, length = some m ∧ better best next length = some (next, m) ∧ ∀ l k, best = some (l, k) → k ≤ m := by
  unfold better
  split
  · exact .inl ⟨rfl, nofun⟩
  · exact .inl ⟨rfl, fun m hm => .inl (by cases hm; rfl)⟩
  · exact .inr ⟨_, rfl, rfl, nofun⟩
  · rename_i l k
    split
    · exact .inr ⟨_, rfl, rfl, fun l k hk => by cases hk; omega⟩
    · exact .inl ⟨rfl, fun m hm => .inr ⟨l, k, rfl, by cases hm; omega⟩⟩

/-- The best of some matches is at least as long as each of them, and it is one of them. -/
theorem foldl_better (cs : List Char) (rs : List (Pattern × Lexeme)) (best : Option (Lexeme × Nat)) {lexeme : Lexeme}
    {n : Nat} (h : rs.foldl (fun best rule => better best rule.2 (rule.1.longest? cs)) best = some (lexeme, n)) :
    (∀ l m, best = some (l, m) → m ≤ n) ∧ (∀ r ∈ rs, ∀ m, r.1.longest? cs = some m → m ≤ n) ∧
      (best = some (lexeme, n) ∨ ∃ r ∈ rs, r.2 = lexeme ∧ r.1.longest? cs = some n) := by
  induction rs generalizing best with
  | nil =>
    rw [List.foldl_nil] at h
    subst h
    exact ⟨fun l m hb => by cases hb; exact Nat.le_refl _, nofun, .inl rfl⟩
  | cons r rs ih =>
    rw [List.foldl_cons] at h
    obtain ⟨hbest, hrest, hwin⟩ := ih _ h
    obtain ⟨hsame, hshort⟩ | ⟨m, hm, hnew, hlong⟩ := better_cases best r.2 (r.1.longest? cs)
    · rw [hsame] at hbest hwin
      refine ⟨hbest, List.forall_mem_cons.mpr ⟨fun m hm => ?_, hrest⟩, ?_⟩
      · obtain rfl | ⟨l, k, hk, hle⟩ := hshort m hm
        · exact Nat.zero_le n
        · exact Nat.le_trans hle (hbest l k hk)
      · exact hwin.imp_right fun ⟨r', hr', hwin⟩ => ⟨r', List.mem_cons_of_mem r hr', hwin⟩
    · rw [hnew] at hbest hwin
      refine ⟨fun l k hk => Nat.le_trans (hlong l k hk) (hbest _ _ rfl), ?_, .inr ?_⟩
      · refine List.forall_mem_cons.mpr ⟨fun m' hm' => ?_, hrest⟩
        rw [hm] at hm'
        cases hm'
        exact hbest _ _ rfl
      · obtain hwin | ⟨r', hr', hwin⟩ := hwin
        · cases hwin
          exact ⟨r, List.mem_cons_self, rfl, hm⟩
        · exact ⟨r', List.mem_cons_of_mem r hr', hwin⟩

/-- A longest lexeme is at least as long as the longest match of each rule. -/
theorem le_of_longest? {cs : List Char} {lexeme : Lexeme} {n : Nat} (h : longest? cs = some (lexeme, n)) :
    ∀ r ∈ rules, ∀ m, r.1.longest? cs = some m → m ≤ n :=
  (foldl_better cs rules none h).2.1

/-- A longest lexeme is the longest match of its rule. -/
theorem rule_of_longest? {cs : List Char} {lexeme : Lexeme} {n : Nat} (h : longest? cs = some (lexeme, n)) :
    ∃ r ∈ rules, r.2 = lexeme ∧ r.1.longest? cs = some n :=
  (foldl_better cs rules none h).2.2.resolve_left nofun

theorem foldl_better_congr {cs ds : List Char} {rs : List (Pattern × Lexeme)}
    (h : ∀ r ∈ rs, r.1.longest? cs = r.1.longest? ds) (best : Option (Lexeme × Nat)) :
    rs.foldl (fun best rule => better best rule.2 (rule.1.longest? cs)) best =
      rs.foldl (fun best rule => better best rule.2 (rule.1.longest? ds)) best := by
  induction rs generalizing best with
  | nil => rfl
  | cons r rs ih =>
    rw [List.foldl_cons, List.foldl_cons, h r List.mem_cons_self]
    exact ih (fun r' hr' => h r' (List.mem_cons_of_mem r hr')) _

/-- A lexeme that ends in a text is found again where the text goes on in a way in which no rule matches on. -/
theorem longest?_cut {cs rest tail : List Char} {lexeme : Lexeme} {n : Nat}
    (h : longest? (cs ++ rest) = some (lexeme, n)) (hn : n ≤ cs.length)
    (htail : ∀ r ∈ rules, ∀ d ∈ tail.head?, (r.1.steps cs).step d = nothing) :
    longest? (cs ++ tail) = some (lexeme, n) := by
  rw [← h]
  refine foldl_better_congr (fun r hr => ?_) none
  exact Pattern.longest?_cut (fun m hm => Nat.le_trans (le_of_longest? h r hr m hm) hn) (htail r hr)

end Lexeme

end Bluespec
