import Bluespec.Proofs.AdjacentTexts
import Bluespec.Proofs.LongestLexemes
import Bluespec.Number.Digits
import Mathlib.Data.Nat.Digits.Lemmas

/-!
# The texts of numbers

* **`DigitOf`**, **`Denotes`** — digits of a base, and the number that a row of them denotes.
* **`denotes_iff`**, **`unsigned?_iff`** — reading digits finds that number.
* **`denotes_repr`** — a number is denoted by its own decimal digits.
* **`IntText`**, **`isIntText_iff`** — the parts of the texts that the lexical grammar takes for integer literals.
* **`IntText.Lexical.longest?`**, **`IntText.Lexical.longest?_before`** — such a text is one lexeme, alone and in front of
  others.
-/

namespace Bluespec

/-! ## Digits -/

/-- A character is the digit with the value `d` in a base; the letters may be of either case. -/
def DigitOf (radix : Nat) (c : Char) (d : Nat) : Prop := d < radix ∧ (c = d.digitChar ∨ c = d.digitChar.toUpper)

/-- A row of digits denotes a number in a base, the last digit being that of the units. -/
def Denotes (radix : Nat) (cs : List Char) (n : Nat) : Prop :=
  ∃ ds, List.Forall₂ (DigitOf radix) cs ds ∧ Nat.ofDigits radix ds.reverse = n

variable {radix d n limit : Nat} {c : Char} {cs : List Char}

theorem exists_digits : (∃ ds, List.Forall₂ (DigitOf radix) cs ds) ↔ ∀ c ∈ cs, ∃ d, DigitOf radix c d := by
  induction cs with
  | nil => exact ⟨fun _ => nofun, fun _ => ⟨[], .nil⟩⟩
  | cons c cs ih =>
    rw [List.forall_mem_cons, ← ih]
    constructor
    · rintro ⟨_, hds⟩
      cases hds with
      | cons hd hds => exact ⟨⟨_, hd⟩, _, hds⟩
    · rintro ⟨⟨d, hd⟩, ds, hds⟩
      exact ⟨d :: ds, .cons hd hds⟩

/-- The characters between two others, by their codes. -/
theorem exists_code {low high : Char} (h : low ≤ c ∧ c ≤ high) :
    ∃ k, low.toNat ≤ k ∧ k ≤ high.toNat ∧ c = Char.ofNat k :=
  ⟨c.toNat, UInt32.le_iff_toNat_le.mp (Char.le_def.mp h.1), UInt32.le_iff_toNat_le.mp (Char.le_def.mp h.2),
    (Char.ofNat_toNat c).symm⟩

theorem digitValue?_iff : digitValue? c = some d ↔ DigitOf 16 c d := by
  constructor
  · intro h
    unfold digitValue? at h
    split at h
    · next hrange =>
      obtain ⟨k, hlow, hhigh, rfl⟩ := exists_code hrange
      cases h
      clear hrange
      change 48 ≤ k at hlow
      change k ≤ 57 at hhigh
      interval_cases k <;> exact ⟨by decide, .inl (by decide)⟩
    · split at h
      · next hrange =>
        obtain ⟨k, hlow, hhigh, rfl⟩ := exists_code hrange
        cases h
        change 97 ≤ k at hlow
        change k ≤ 102 at hhigh
        interval_cases k <;> exact ⟨by decide, .inl (by decide)⟩
      · split at h
        · next hrange =>
          obtain ⟨k, hlow, hhigh, rfl⟩ := exists_code hrange
          cases h
          change 65 ≤ k at hlow
          change k ≤ 70 at hhigh
          interval_cases k <;> exact ⟨by decide, .inr (by decide)⟩
        · cases h
  · rintro ⟨hd, rfl | rfl⟩
    · interval_cases d <;> decide
    · interval_cases d <;> decide

theorem isDigitOf_iff (hradix : radix ≤ 16) : isDigitOf radix c = true ↔ ∃ d, DigitOf radix c d := by
  unfold isDigitOf
  cases h : digitValue? c with
  | none =>
    refine ⟨nofun, fun ⟨d, hd, hc⟩ => ?_⟩
    rw [digitValue?_iff.mpr ⟨Nat.lt_of_lt_of_le hd hradix, hc⟩] at h
    cases h
  | some v =>
    obtain ⟨hv, hc⟩ := digitValue?_iff.mp h
    refine ⟨fun hlt => ⟨v, of_decide_eq_true hlt, hc⟩, fun ⟨d, hd, hcd⟩ => ?_⟩
    rw [digitValue?_iff.mpr ⟨Nat.lt_of_lt_of_le hd hradix, hcd⟩] at h
    cases h
    exact decide_eq_true hd

theorem positionalFrom_digits {ds : List Nat} (hradix : radix ≤ 16) (h : List.Forall₂ (DigitOf radix) cs ds)
    (value : Nat) :
    positionalFrom radix value cs = value * radix ^ cs.length + Nat.ofDigits radix ds.reverse := by
  induction h generalizing value with
  | nil => simp [positionalFrom]
  | @cons c d cs ds hc hcs ih =>
    have hvalue : digitValue? c = some d := digitValue?_iff.mpr ⟨Nat.lt_of_lt_of_le hc.1 hradix, hc.2⟩
    have hlength : ds.length = cs.length := hcs.length_eq.symm
    rw [positionalFrom, hvalue, Option.getD_some, ih, List.reverse_cons, Nat.ofDigits_append, List.length_reverse,
      Nat.ofDigits_singleton, hlength, List.length_cons]
    ring

/-- Digits denote their positional value. -/
theorem denotes_iff (hradix : radix ≤ 16) :
    Denotes radix cs n ↔ (∀ c ∈ cs, isDigitOf radix c = true) ∧ positionalValue radix cs = n := by
  have hvalue : ∀ {ds}, List.Forall₂ (DigitOf radix) cs ds →
      positionalValue radix cs = Nat.ofDigits radix ds.reverse := fun hds => by
    rw [positionalValue, positionalFrom_digits hradix hds, Nat.zero_mul, Nat.zero_add]
  have hdigits : (∀ c ∈ cs, isDigitOf radix c = true) ↔ ∃ ds, List.Forall₂ (DigitOf radix) cs ds := by
    rw [exists_digits]
    exact forall₂_congr fun c _ => isDigitOf_iff hradix
  constructor
  · rintro ⟨ds, hds, rfl⟩
    exact ⟨hdigits.mpr ⟨ds, hds⟩, hvalue hds⟩
  · rintro ⟨hall, rfl⟩
    obtain ⟨ds, hds⟩ := hdigits.mp hall
    exact ⟨ds, hds, (hvalue hds).symm⟩

/-! ### Decimal digits -/

theorem isDigit_iff : c.isDigit = true ↔ '0' ≤ c ∧ c ≤ '9' := by
  rw [Char.isDigit_iff_toNat, Char.le_def, Char.le_def, UInt32.le_iff_toNat_le, UInt32.le_iff_toNat_le]
  rfl

theorem digitValue?_of_isDigit (h : c.isDigit = true) : digitValue? c = some (c.toNat - '0'.toNat) := by
  rw [digitValue?, if_pos (isDigit_iff.mp h)]

theorem isDigitOf_ten : isDigitOf 10 c = true ↔ c.isDigit = true := by
  constructor
  · intro h
    obtain ⟨d, hd, rfl | rfl⟩ := (isDigitOf_iff (by decide)).mp h
    · interval_cases d <;> rfl
    · interval_cases d <;> rfl
  · intro h
    obtain ⟨-, hhigh⟩ := Char.isDigit_iff_toNat.mp h
    change c.toNat ≤ 57 at hhigh
    rw [isDigitOf, digitValue?_of_isDigit h]
    exact decide_eq_true (by change c.toNat - 48 < 10; omega)

theorem isAlphanum_of_isDigitOf (hradix : radix ≤ 16) (h : isDigitOf radix c = true) : c.isAlphanum = true := by
  obtain ⟨d, hd, hc⟩ := (isDigitOf_iff hradix).mp h
  have hlt : d < 16 := Nat.lt_of_lt_of_le hd hradix
  obtain rfl | rfl := hc
  · interval_cases d <;> rfl
  · interval_cases d <;> rfl

theorem lt_of_unsigned? (h : unsigned? limit cs = some n) : n < limit := by
  unfold unsigned? at h
  extract_lets digits at h
  split at h
  · next hall =>
    rw [Bool.and_eq_true, decide_eq_true_eq] at hall
    cases h
    exact hall.2
  · cases h

/-- An unsigned number without a sign. -/
theorem unsigned?_iff (hdigits : ∀ c ∈ cs, c.isDigit = true) :
    unsigned? limit cs = some n ↔ cs ≠ [] ∧ Denotes 10 cs n ∧ n < limit := by
  have hall : ∀ c ∈ cs, isDigitOf 10 c = true := fun c hc => isDigitOf_ten.mpr (hdigits c hc)
  have hsign : ∀ ds, cs = '+' :: ds → False := by
    rintro ds rfl
    cases hdigits '+' List.mem_cons_self
  rw [denotes_iff (by decide), unsigned?.eq_2 _ _ hsign, List.all_eq_true.mpr hall]
  simp only [Bool.and_true, Bool.and_eq_true, Bool.not_eq_true', List.isEmpty_eq_false_iff, decide_eq_true_eq]
  split
  · next h =>
    rw [Option.some.injEq]
    exact ⟨fun hn => hn ▸ ⟨h.1, ⟨hall, rfl⟩, h.2⟩, fun h' => h'.2.1.2⟩
  · next h => exact ⟨nofun, fun ⟨hne, ⟨_, hn⟩, hlt⟩ => absurd ⟨hne, hn ▸ hlt⟩ h⟩

theorem isDigit_repr (n : Nat) : ∀ c ∈ n.repr.toList, c.isDigit = true := by
  rw [Nat.repr_eq_ofList_toDigits, String.toList_ofList]
  exact fun c hc => Nat.isDigit_of_mem_toDigits (by decide) (by decide) hc

theorem repr_ne_nil (n : Nat) : n.repr.toList ≠ [] := by
  rw [Nat.repr_eq_ofList_toDigits, String.toList_ofList]
  exact Nat.toDigits_ne_nil

/-- A number is denoted by its own decimal digits. -/
theorem denotes_repr (n : Nat) : Denotes 10 n.repr.toList n := by
  have hfrom : ∀ cs value, (∀ c ∈ cs, c.isDigit = true) →
      positionalFrom 10 value cs = Nat.ofDigitChars 10 cs value := by
    intro cs
    induction cs with
    | nil => exact fun value _ => Nat.ofDigitChars_nil.symm
    | cons c cs ih =>
      intro value hall
      obtain ⟨hc, hcs⟩ := List.forall_mem_cons.mp hall
      rw [positionalFrom, digitValue?_of_isDigit hc, ih _ hcs, Nat.ofDigitChars_cons, Nat.mul_comm]
      rfl
  have hdigits := isDigit_repr n
  refine (denotes_iff (by decide)).mpr ⟨fun c hc => isDigitOf_ten.mpr (hdigits c hc), ?_⟩
  rw [positionalValue, hfrom _ _ hdigits, Nat.repr_eq_ofList_toDigits, String.toList_ofList,
    Nat.ofDigitChars_ten_toDigits]

/-! ## The texts of integer literals -/

/-- The parts of the text of an integer literal: what stands before the tick, the marker behind it, and the digits with
their separators.  Where there is no tick, there are digits alone. -/
structure IntText where
  /-- What stands before the tick. -/
  width : List Char
  /-- The marker behind the tick, if there is one. -/
  marker : Option Char
  /-- The digits. -/
  digits : List Char

namespace IntText

/-- The text as a whole. -/
def chars (x : IntText) : List Char :=
  match x.marker with
  | none => x.digits
  | some m => x.width ++ '\'' :: m :: x.digits

/-- What the lexical grammar demands of the parts. -/
inductive Lexical : IntText → Prop
  /-- Digits and separators, the first of them a digit. -/
  | plain {c : Char} {cs : List Char} (first : c.isDigit = true) (others : ∀ d ∈ cs, (d.isDigit || d == '_') = true) :
      Lexical ⟨[], none, c :: cs⟩
  /-- Digits or nothing, a tick, a marker, and then letters, digits and separators. -/
  | based {width cs : List Char} {marker : Char} (hwidth : ∀ d ∈ width, d.isDigit = true)
      (hmarker : marker ∈ "dDhHoObB".toList) (others : ∀ d ∈ cs, (d.isAlphanum || d == '_') = true) :
      Lexical ⟨width, some marker, cs⟩

end IntText

/-- A rule for integer literals matches the text. -/
def IsIntText (text : String) : Prop := ∃ a, (a, Lexeme.int) ∈ Lexeme.rules ∧ a.Matches text.toList

namespace Lexeme

open Pattern

/-- Digits in a written base: an optional width, a tick, a marker, and letters, digits and separators. -/
def basedDigits : Pattern :=
  sequence [star digit, text "\x27", oneOf "dDhHoObB", star (char fun c => c.isAlphanum || c == '_')]

/-- The rules of integer literals. -/
theorem int_rules {a : Pattern} : (a, .int) ∈ rules ↔ a = digits ∨ a = basedDigits := by
  rw [rules, List.mem_append]
  constructor
  · rintro (h | h)
    · simp only [variableRules, List.mem_cons, List.not_mem_nil, or_false, Prod.mk.injEq, reduceCtorEq, and_false,
        and_true, false_or] at h
      exact h
    · obtain ⟨p, -, hp⟩ := List.mem_map.mp h
      cases hp
  · rintro (rfl | rfl)
    · exact .inl (by simp [variableRules])
    · exact .inl (by simp [variableRules, basedDigits])

theorem matches_digits {cs : List Char} :
    digits.Matches cs ↔ ∃ c ds, cs = c :: ds ∧ c.isDigit = true ∧ ∀ d ∈ ds, (d.isDigit || d == '_') = true := by
  rw [digits, matches_seq]
  constructor
  · rintro ⟨s, t, rfl, hs, ht⟩
    obtain ⟨c, rfl, hc⟩ := matches_char.mp hs
    exact ⟨c, t, rfl, hc, matches_star_char.mp ht⟩
  · rintro ⟨c, ds, rfl, hc, hds⟩
    exact ⟨[c], ds, rfl, .char hc, matches_star_char.mpr hds⟩

theorem matches_based {cs : List Char} :
    basedDigits.Matches cs ↔
      ∃ width marker ds, cs = width ++ '\'' :: marker :: ds ∧ (∀ d ∈ width, d.isDigit = true) ∧
        marker ∈ "dDhHoObB".toList ∧ ∀ d ∈ ds, (d.isAlphanum || d == '_') = true := by
  constructor
  · intro h
    obtain ⟨width, t, rfl, hwidth, h⟩ := matches_seq.mp h
    obtain ⟨tick, t, rfl, htick, h⟩ := matches_seq.mp h
    obtain ⟨marker, ds, rfl, hmarker, hds⟩ := matches_seq.mp h
    obtain ⟨c, rfl, hc⟩ := matches_char.mp htick
    obtain ⟨m, rfl, hm⟩ := matches_char.mp hmarker
    obtain rfl := beq_iff_eq.mp hc
    exact ⟨width, m, ds, rfl, matches_star_char.mp hwidth, List.contains_iff_mem.mp hm, matches_star_char.mp hds⟩
  · rintro ⟨width, marker, ds, rfl, hwidth, hmarker, hds⟩
    exact matches_seq.mpr ⟨width, '\'' :: marker :: ds, rfl, matches_star_char.mpr hwidth,
      matches_seq.mpr ⟨['\''], marker :: ds, rfl, .char rfl,
        matches_seq.mpr ⟨[marker], ds, rfl, .char (List.contains_iff_mem.mpr hmarker), matches_star_char.mpr hds⟩⟩⟩

end Lexeme

/-- The texts that the lexical grammar takes for integer literals. -/
theorem isIntText_iff {text : String} : IsIntText text ↔ ∃ x : IntText, x.Lexical ∧ x.chars = text.toList := by
  constructor
  · rintro ⟨a, ha, h⟩
    obtain rfl | rfl := Lexeme.int_rules.mp ha
    · obtain ⟨c, cs, hcs, hc, hothers⟩ := Lexeme.matches_digits.mp h
      exact ⟨_, .plain hc hothers, hcs.symm⟩
    · obtain ⟨width, marker, cs, hcs, hwidth, hmarker, hothers⟩ := Lexeme.matches_based.mp h
      exact ⟨_, .based hwidth hmarker hothers, hcs.symm⟩
  · rintro ⟨x, hx, hchars⟩
    cases hx with
    | plain hc hothers =>
      exact ⟨_, Lexeme.int_rules.mpr (.inl rfl), Lexeme.matches_digits.mpr ⟨_, _, hchars.symm, hc, hothers⟩⟩
    | based hwidth hmarker hothers =>
      exact ⟨_, Lexeme.int_rules.mpr (.inr rfl),
        Lexeme.matches_based.mpr ⟨_, _, _, hchars.symm, hwidth, hmarker, hothers⟩⟩

namespace Lexeme

open Pattern

/-- Whether texts of a class begin like an integer literal. -/
def isNumeric : Lexeme → Bool
  | int | real | fill => true
  | _ => false

/-- The characters with which an integer literal can begin. -/
def numericStarts : List Char := "0123456789\x27".toList

theorem mem_numericStarts {c : Char} (h : c.isDigit = true) : c ∈ numericStarts := by
  obtain ⟨k, hlow, hhigh, rfl⟩ := exists_code (isDigit_iff.mp h)
  change 48 ≤ k at hlow
  change k ≤ 57 at hhigh
  interval_cases k <;> decide

/-- No rule of another class matches a text that begins like an integer literal. -/
theorem step_numericStarts : ∀ r ∈ rules, r.2.isNumeric = true ∨ ∀ c ∈ numericStarts, r.1.step c = nothing := by
  have hall : (rules.all fun r => r.2.isNumeric || numericStarts.all fun c => (r.1.step c).isNothing) = true := by
    decide +kernel
  intro r hr
  have hrule := List.all_eq_true.mp hall r hr
  rw [Bool.or_eq_true, List.all_eq_true] at hrule
  exact hrule.imp_right fun h c hc => eq_nothing_of_isNothing (h c hc)

/-- Characters that no numeric text holds. -/
def separators : List Char := ",):] ".toList

theorem numeric_avoids : ∀ r ∈ rules, r.2.isNumeric = true → ∀ d ∈ separators, r.1.avoids d = true := by
  have hall : (rules.all fun r => !r.2.isNumeric || separators.all fun d => r.1.avoids d) = true := by decide +kernel
  intro r hr hnumeric
  have hrule := List.all_eq_true.mp hall r hr
  rw [hnumeric, Bool.not_true, Bool.false_or, List.all_eq_true] at hrule
  exact hrule

/-- A fill literal is a tick with a zero or a one. -/
theorem fill_rules {a : Pattern} (ha : (a, .fill) ∈ rules) {cs : List Char} (h : a.Matches cs) :
    ∃ bit ∈ ['0', '1'], cs = ['\'', bit] := by
  rw [rules, List.mem_append] at ha
  obtain ha | ha := ha
  · simp only [variableRules, List.mem_cons, List.not_mem_nil, or_false, Prod.mk.injEq, reduceCtorEq, and_false,
      and_true, false_or] at ha
    obtain rfl := ha
    obtain ⟨s, t, rfl, htick, hbit⟩ := matches_seq.mp h
    obtain ⟨tick, rfl, hc⟩ := matches_char.mp htick
    obtain ⟨bit, rfl, hb⟩ := matches_char.mp hbit
    obtain rfl := beq_iff_eq.mp hc
    exact ⟨bit, List.contains_iff_mem.mp hb, rfl⟩
  · obtain ⟨p, -, hp⟩ := List.mem_map.mp ha
    cases hp

/-- A real literal holds no tick, but a point or the mark of an exponent. -/
theorem real_rules {a : Pattern} (ha : (a, .real) ∈ rules) {cs : List Char} (h : a.Matches cs) :
    '\'' ∉ cs ∧ ∃ c ∈ cs, (c.isDigit || c == '_') = false := by
  rw [rules, List.mem_append] at ha
  obtain ha | ha := ha
  · simp only [variableRules, List.mem_cons, List.not_mem_nil, or_false, Prod.mk.injEq, reduceCtorEq, and_false,
      and_true, false_or] at ha
    obtain rfl | rfl := ha
    · refine ⟨not_mem_of_avoids (by decide) h, ?_⟩
      obtain ⟨s, t, rfl, -, h⟩ := matches_seq.mp h
      obtain ⟨point, t, rfl, hpoint, -⟩ := matches_seq.mp h
      obtain ⟨c, rfl, hc⟩ := matches_char.mp hpoint
      obtain rfl := beq_iff_eq.mp hc
      exact ⟨_, List.mem_append_right _ (List.mem_append_left _ List.mem_cons_self), rfl⟩
    · refine ⟨not_mem_of_avoids (by decide) h, ?_⟩
      obtain ⟨s, t, rfl, -, h⟩ := matches_seq.mp h
      obtain ⟨mark, t, rfl, hmark, -⟩ := matches_seq.mp h
      obtain ⟨c, rfl, hc⟩ := matches_char.mp hmark
      refine ⟨c, List.mem_append_right _ (List.mem_append_left _ List.mem_cons_self), ?_⟩
      have hmem : c ∈ ['e', 'E'] := List.contains_iff_mem.mp hc
      simp only [List.mem_cons, List.not_mem_nil, or_false] at hmem
      obtain rfl | rfl := hmem <;> rfl
  · obtain ⟨p, -, hp⟩ := List.mem_map.mp ha
    cases hp

end Lexeme

namespace IntText

open Pattern Lexeme

variable {x : IntText}

theorem Lexical.head_numeric (h : x.Lexical) : ∃ c cs, x.chars = c :: cs ∧ c ∈ numericStarts := by
  cases h with
  | plain first _ => exact ⟨_, _, rfl, mem_numericStarts first⟩
  | @based width cs marker hwidth _ _ =>
    cases width with
    | nil => exact ⟨'\'', marker :: cs, rfl, by decide⟩
    | cons c width => exact ⟨c, _, rfl, mem_numericStarts (hwidth c List.mem_cons_self)⟩

theorem Lexical.ne_fill (h : x.Lexical) : ∀ bit ∈ ['0', '1'], x.chars ≠ ['\'', bit] := by
  intro bit hbit hfill
  cases h with
  | plain first _ =>
    obtain ⟨rfl, -⟩ := List.cons_eq_cons.mp hfill
    cases first
  | @based width cs marker hwidth hmarker _ =>
    cases width with
    | nil =>
      obtain ⟨rfl, -⟩ := List.cons_eq_cons.mp (List.cons_eq_cons.mp hfill).2
      simp only [List.mem_cons, List.not_mem_nil, or_false] at hbit
      obtain rfl | rfl := hbit
      · exact absurd hmarker (by decide)
      · exact absurd hmarker (by decide)
    | cons c width =>
      obtain ⟨rfl, -⟩ := List.cons_eq_cons.mp hfill
      cases hwidth _ List.mem_cons_self

/-- Only the rules of integer literals match their texts. -/
theorem Lexical.class_of_matches (h : x.Lexical) {a : Pattern} {lexeme : Lexeme} (ha : (a, lexeme) ∈ rules)
    (hmatches : a.Matches x.chars) : lexeme = .int := by
  obtain hnumeric | hstarts := step_numericStarts _ ha
  · cases lexeme with
    | int => rfl
    | fill =>
      obtain ⟨bit, hbit, hfill⟩ := fill_rules ha hmatches
      exact absurd hfill (h.ne_fill bit hbit)
    | real =>
      obtain ⟨htick, c, hc, hmark⟩ := real_rules ha hmatches
      cases h with
      | @plain d cs first others =>
        exfalso
        obtain rfl | hc := List.mem_cons.mp hc
        · rw [first] at hmark
          cases hmark
        · rw [others c hc] at hmark
          cases hmark
      | based => exact absurd (List.mem_append_right _ List.mem_cons_self) htick
    | _ => cases hnumeric
  · obtain ⟨c, cs, hchars, hc⟩ := h.head_numeric
    rw [hchars, ← matches_step, hstarts c hc] at hmatches
    exact absurd hmatches (not_matches_nothing cs)

/-- The text of an integer literal is one lexeme. -/
theorem Lexical.longest? (h : x.Lexical) : Lexeme.longest? x.chars = some (.int, x.chars.length) := by
  obtain ⟨a, ha, hmatches⟩ : IsIntText (String.ofList x.chars) :=
    isIntText_iff.mpr ⟨x, h, String.toList_ofList.symm⟩
  rw [String.toList_ofList] at hmatches
  obtain ⟨c, cs, hchars, -⟩ := h.head_numeric
  have hpos : 0 < x.chars.length := by rw [hchars]; exact Nat.succ_pos _
  obtain ⟨n, hn, hlength⟩ : ∃ n, a.longest? (x.chars ++ []) = some n ∧ x.chars.length ≤ n :=
    exists_longest?_of_matches hmatches
  rw [List.append_nil] at hn
  cases hlong : Lexeme.longest? x.chars with
  | none =>
    have hbest := best_longest? x.chars
    rw [hlong] at hbest
    cases hbest with
    | none hempty =>
      have hzero := hempty _ ha n hn
      omega
  | some best =>
    obtain ⟨lexeme, m⟩ := best
    have hnm := le_of_longest? hlong _ ha n hn
    obtain ⟨r, hr, rfl, hm⟩ := rule_of_longest? hlong
    obtain ⟨hle, htaken, -⟩ := longest?_eq_some_iff.mp hm
    obtain rfl : m = x.chars.length := by omega
    rw [List.take_length] at htaken
    rw [h.class_of_matches hr htaken]

/-- The text of an integer literal is one lexeme in front of characters that no number holds. -/
theorem Lexical.longest?_before (h : x.Lexical) {rest : List Char} (hrest : ∀ d ∈ rest.head?, d ∈ separators) :
    Lexeme.longest? (x.chars ++ rest) = some (.int, x.chars.length) := by
  refine longest?_cut (by rw [List.append_nil]; exact h.longest?) (Nat.le_refl _) fun r hr d hd => ?_
  obtain hnumeric | hstarts := step_numericStarts r hr
  · exact stuck_of_avoids (numeric_avoids r hr hnumeric d (hrest d hd)) _
  · obtain ⟨c, cs, hchars, hc⟩ := h.head_numeric
    rw [hchars, steps, hstarts c hc, steps_nothing]
    rfl

/-- The text of an integer literal is one token. -/
theorem Lexical.token (h : x.Lexical) :
    Token.ofText (String.ofList x.chars) = [⟨.int, String.ofList x.chars, ⟨0, Text.byteSize x.chars⟩⟩] := by
  have hlong := h.longest?
  have htake : x.chars.take x.chars.length = x.chars := List.take_length
  have hdrop : x.chars.drop x.chars.length = [] := List.drop_length
  obtain ⟨c, cs, hchars, -⟩ := h.head_numeric
  rw [hchars, List.length_cons] at hlong htake hdrop
  rw [Token.ofText, String.toList_ofList, hchars, Item.scan_of_lexeme 0 hlong, htake, hdrop, Item.scan_nil]
  show [Token.mk .int (String.ofList (c :: cs)) ⟨0, 0 + Text.byteSize (c :: cs)⟩] = _
  rw [Nat.zero_add]

end IntText

end Bluespec
