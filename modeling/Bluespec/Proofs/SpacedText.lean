import Bluespec.Proofs.OperatorSoundness
import Bluespec.Proofs.Scanning

/-!
# Words with spaces between them

A text that is a row of words with one space after each but the last is cut into exactly these words.  The
words are those of the operator grammar: names of values, and symbols.

* **`Spelled`** — the text of a name or of a symbol.
* **`Lexeme.longest?_word`**, **`Lexeme.longest?_symbol`**, **`Lexeme.longest?_blanks`** — the longest lexeme at a
  word or at blanks.
* **`OperatorWord`** — a word of the operator grammar; **`spaced`** is a row of them as text, and **`layout`**
  the same row as tokens.
* **`Token.ofText_spaced`** — the significant tokens of the text are those of the row.
-/

namespace Bluespec

/-! ## Patterns on the first character -/

namespace Pattern

/-- No text that begins with a character matches, not even the empty one. -/
structure Rejects (c : Char) (a : Pattern) : Prop where
  /-- The empty text does not match. -/
  nullable : a.nullable = false
  /-- Nothing is left to match after the character. -/
  step : a.step c = .nothing

theorem Rejects.longest? {c : Char} {a : Pattern} (h : Rejects c a) (cs : List Char) :
    a.longest? (c :: cs) = none := by
  rw [Pattern.longest?, longestFrom, h.step, h.nullable]
  rfl

theorem Rejects.char {c : Char} {p : Char → Bool} (h : p c = false) : Rejects c (char p) :=
  ⟨rfl, by rw [Pattern.step, h]; rfl⟩

theorem Rejects.seq {c : Char} {a b : Pattern} (h : Rejects c a) : Rejects c (Pattern.seq a b) := by
  refine ⟨?_, ?_⟩
  · rw [Pattern.nullable, h.nullable, Bool.false_and]
  · rw [Pattern.step, h.nullable, h.step]
    rfl

theorem Rejects.seq_star {c : Char} {a b : Pattern} (ha : Rejects c a) (hb : Rejects c b) :
    Rejects c (Pattern.seq (star a) b) := by
  refine ⟨?_, ?_⟩
  · rw [Pattern.nullable, hb.nullable, Bool.and_false]
  · rw [Pattern.step, Pattern.step, ha.step, hb.step]
    rfl

theorem Rejects.word {c d : Char} (h : (c == d) = false) (ds : List Char) : Rejects c (word (d :: ds)) := by
  cases ds with
  | nil => exact .char h
  | cons e ds => exact .seq (.char h)

theorem longestFrom_star {q : Char → Bool} {cs tail : List Char} (hcs : ∀ d ∈ cs, q d = true)
    (htail : ∀ d ∈ tail.head?, q d = false) (taken : Nat) (best : Option Nat) :
    (star (char q)).longestFrom taken best (cs ++ tail) = some (taken + cs.length) := by
  induction cs generalizing taken best with
  | nil =>
    cases tail with
    | nil => rfl
    | cons d tail =>
      have hd : q d = false := htail d rfl
      have hstep : (star (char q)).step d = .nothing := by rw [step, step, hd]; rfl
      rw [List.nil_append, longestFrom, hstep]
      rfl
  | cons d cs ih =>
    have hd : q d = true := hcs d List.mem_cons_self
    have hstep : (star (char q)).step d = star (char q) := by rw [step, step, hd]; rfl
    rw [List.cons_append, longestFrom, hstep, List.length_cons]
    show longestFrom _ _ _ _ = _
    rw [ih (fun e he => hcs e (List.mem_cons_of_mem d he))]
    congr 1
    omega

/-- A character of one class and then characters of another, as many as there are. -/
theorem longest?_run {p q : Char → Bool} {c : Char} {cs tail : List Char} (hc : p c = true)
    (hcs : ∀ d ∈ cs, q d = true) (htail : ∀ d ∈ tail.head?, q d = false) :
    (seq (char p) (star (char q))).longest? (c :: (cs ++ tail)) = some (cs.length + 1) := by
  have hstep : (seq (char p) (star (char q))).step c = star (char q) := by
    rw [step, step, hc]
    rfl
  rw [longest?, longestFrom, hstep]
  show longestFrom _ _ _ _ = _
  rw [longestFrom_star hcs htail]
  congr 1
  omega

end Pattern

/-! ## Longest lexemes of words -/

namespace Lexeme

open Pattern

/-- Whether a character is a letter or an underscore. -/
def isWordStart (c : Char) : Bool := c.isAlpha || c == '_'

/-- Whether a character is a blank. -/
def isBlank (c : Char) : Bool := " \t\r\n\x0c".toList.contains c

/-- Whether a character is a letter, a digit, an underscore or a dollar sign. -/
def isWordPart (c : Char) : Bool := c.isAlphanum || c == '_' || c == '$'

theorem foldl_better_of_none {cs : List Char} {rs : List (Pattern × Lexeme)}
    (h : ∀ r ∈ rs, r.1.longest? cs = none) (best : Option (Lexeme × Nat)) :
    rs.foldl (fun best rule => better best rule.2 (rule.1.longest? cs)) best = best := by
  induction rs with
  | nil => rfl
  | cons r rs ih =>
    rw [List.foldl_cons, h r List.mem_cons_self]
    exact ih fun r' hr => h r' (List.mem_cons_of_mem r hr)

/-- Where all rules but one fail, that one decides. -/
theorem longest?_of_only (before after : List (Pattern × Lexeme)) {cs : List Char} {a : Pattern}
    {lexeme : Lexeme} {n : Nat} (hrules : rules = before ++ (a, lexeme) :: after)
    (hbefore : ∀ r ∈ before, r.1.longest? cs = none) (ha : a.longest? cs = some (n + 1))
    (hafter : ∀ r ∈ after, r.1.longest? cs = none) : longest? cs = some (lexeme, n + 1) := by
  rw [longest?, hrules, List.foldl_append, foldl_better_of_none hbefore, List.foldl_cons, ha,
    foldl_better_of_none hafter]
  rfl

/-- A symbol before a space is read as a whole. -/
theorem longest?_symbol (p : Punct) (rest : List Char) :
    longest? (p.spelling.toList ++ ' ' :: rest) = some (.symbol p, p.spelling.toList.length) := by
  cases p <;> rfl

/-- A symbol at the end of the text is read as a whole. -/
theorem longest?_last_symbol (p : Punct) :
    longest? p.spelling.toList = some (.symbol p, p.spelling.toList.length) := by
  cases p <;> rfl

/-- The characters that the first character of a word is none of. -/
theorem isWordStart_ne {c : Char} (h : isWordStart c = true) (d : Char) (hd : isWordStart d = false) :
    (c == d) = false := by
  rw [beq_eq_false_iff_ne]
  rintro rfl
  rw [h] at hd
  cases hd

theorem not_isDigit_of_isWordStart {c : Char} (h : isWordStart c = true) : c.isDigit = false := by
  rw [isWordStart, Bool.or_eq_true] at h
  rcases h with h | h
  · delta Char.isAlpha Char.isUpper Char.isLower at h
    simp only [Bool.or_eq_true, decide_eq_true_eq, UInt32.le_iff_toNat_le] at h
    simp only [Char.isDigit, decide_eq_false_iff_not, UInt32.le_iff_toNat_le, Bool.and_eq_false_iff]
    simp at h ⊢
    omega
  · rw [beq_iff_eq] at h
    rw [h]
    rfl

theorem contains_of_isWordStart {c : Char} (h : isWordStart c = true) (s : String)
    (hs : (s.toList.all fun d => !isWordStart d) = true) : s.toList.contains c = false := by
  rw [← Bool.not_eq_true, List.contains_iff_mem]
  intro hc
  have hd := List.all_eq_true.mp hs c hc
  rw [h] at hd
  cases hd

/-- A word is read up to the first character that cannot be part of it. -/
theorem longest?_word {c : Char} {cs tail : List Char} (hc : isWordStart c = true)
    (hcs : ∀ d ∈ cs, isWordPart d = true) (htail : ∀ d ∈ tail.head?, isWordPart d = false) :
    longest? (c :: (cs ++ tail)) = some (.word, cs.length + 1) := by
  have hblank : Rejects c (plus (oneOf " \t\r\n\x0c")) := .seq (.char (contains_of_isWordStart hc _ (by decide)))
  have hdigit : Rejects c digit := .char (not_isDigit_of_isWordStart hc)
  have htext : ∀ d ds, isWordStart d = false → Rejects c (Pattern.word (d :: ds)) :=
    fun d ds hd => .word (isWordStart_ne hc d hd) ds
  have hbefore : ∀ r ∈ variableRules.take 4, Rejects c r.1 := by
    intro r hr
    simp only [variableRules, List.take, List.mem_cons, List.not_mem_nil, or_false] at hr
    rcases hr with rfl | rfl | rfl | rfl
    · exact hblank
    · exact .seq (htext '/' _ rfl)
    · exact .seq (htext '/' _ rfl)
    · exact .seq (htext '/' _ rfl)
  have hafter : ∀ r ∈ variableRules.drop 5, Rejects c r.1 := by
    intro r hr
    simp only [variableRules, List.drop, List.mem_cons, List.not_mem_nil, or_false] at hr
    rcases hr with rfl | rfl | rfl | rfl | rfl | rfl | rfl | rfl | rfl
    · exact .seq (htext '$' _ rfl)
    · exact .seq (htext '\'' _ rfl)
    · exact .seq hdigit
    · exact .seq_star hdigit (.seq (htext '\'' _ rfl))
    · exact .seq (.seq hdigit)
    · exact .seq (.seq hdigit)
    · exact .seq (htext '"' _ rfl)
    · exact .seq (htext '"' _ rfl)
    · exact .seq (htext '"' _ rfl)
  have hsymbols : ∀ p : Punct, Rejects c (text p.spelling) := by
    intro p
    obtain ⟨d, ds, hspell, hd⟩ : ∃ d ds, p.spelling.toList = d :: ds ∧ isWordStart d = false := by
      cases p <;> exact ⟨_, _, rfl, rfl⟩
    rw [text, hspell]
    exact htext d ds hd
  refine longest?_of_only (variableRules.take 4)
    (variableRules.drop 5 ++ Punct.all.map fun p => (text p.spelling, .symbol p)) rfl
    (fun r hr => (hbefore r hr).longest? _) (longest?_run hc hcs htail) ?_
  intro r hr
  rcases List.mem_append.mp hr with hr | hr
  · exact (hafter r hr).longest? _
  · obtain ⟨p, -, rfl⟩ := List.mem_map.mp hr
    exact (hsymbols p).longest? _

/-- Blanks before anything but another blank are read together. -/
theorem longest?_blanks {cs tail : List Char} (hne : cs ≠ []) (hcs : ∀ d ∈ cs, isBlank d = true)
    (htail : ∀ d ∈ tail.head?, isBlank d = false) : longest? (cs ++ tail) = some (.whitespace, cs.length) := by
  obtain ⟨c, cs, rfl⟩ := List.exists_cons_of_ne_nil hne
  obtain ⟨hc, hcs⟩ := List.forall_mem_cons.mp hcs
  have hafter : ∀ r ∈ rules.tail, Rejects c r.1 := by
    have hall : (" \t\r\n\x0c".toList.all fun d => rules.tail.all fun r =>
        !r.1.nullable && (r.1.step d).isNothing) = true := by decide +kernel
    intro r hr
    have h := List.all_eq_true.mp (List.all_eq_true.mp hall c (List.contains_iff_mem.mp hc)) r hr
    rw [Bool.and_eq_true, Bool.not_eq_true'] at h
    refine ⟨h.1, ?_⟩
    cases hs : r.1.step c with
    | nothing => rfl
    | _ =>
      rw [hs] at h
      cases h.2
  have hrun : (plus (oneOf " \t\r\n\x0c")).longest? (c :: (cs ++ tail)) = some (cs.length + 1) :=
    longest?_run hc hcs htail
  exact longest?_of_only [] rules.tail rfl (fun r hr => by cases hr) hrun fun r hr => (hafter r hr).longest? _

end Lexeme

/-! ## Words -/

/-- The text of a name or of a symbol. -/
inductive Spelled : Kind → List Char → Prop
  | name {c : Char} {cs : List Char} (first : Lexeme.isWordStart c = true)
      (others : ∀ d ∈ cs, Lexeme.isWordPart d = true)
      (value : Kind.ofWord (String.ofList (c :: cs)) = .ident) : Spelled .ident (c :: cs)
  | symbol (p : Punct) : Spelled (.punct p) p.spelling.toList

namespace Spelled

variable {k : Kind} {text : List Char}

theorem ne_nil (h : Spelled k text) : text ≠ [] := by
  cases h with
  | name => exact List.cons_ne_nil _ _
  | symbol p => cases p <;> exact List.cons_ne_nil _ _

/-- Before a space, or at the end of the text, a word is one item. -/
theorem scan (h : Spelled k text) (offset : Nat) {tail : List Char}
    (htail : tail = [] ∨ ∃ cs, tail = ' ' :: cs) :
    Item.scan offset (text ++ tail) =
      .token ⟨k, String.ofList text, ⟨offset, offset + Text.byteSize text⟩⟩ ::
        Item.scan (offset + Text.byteSize text) tail := by
  have htake : (text ++ tail).take text.length = text := List.take_left
  have hdrop : (text ++ tail).drop text.length = tail := List.drop_left
  cases h with
  | @name c cs first others value =>
    have hend : ∀ d ∈ tail.head?, Lexeme.isWordPart d = false := by
      intro d hd
      rcases htail with rfl | ⟨_, rfl⟩
      · cases hd
      · cases hd
        rfl
    rw [List.length_cons] at htake hdrop
    rw [List.cons_append, Item.scan_of_lexeme offset (Lexeme.longest?_word first others hend),
      ← List.cons_append, htake, hdrop]
    show Item.token ⟨Kind.ofWord _, _, _⟩ :: _ = _
    rw [value]
  | symbol p =>
    have hlong : Lexeme.longest? (p.spelling.toList ++ tail) = some (.symbol p, p.spelling.toList.length) := by
      rcases htail with rfl | ⟨cs, rfl⟩
      · rw [List.append_nil]
        exact Lexeme.longest?_last_symbol p
      · exact Lexeme.longest?_symbol p cs
    obtain ⟨c, cs, hcs⟩ := List.exists_cons_of_ne_nil (ne_nil (.symbol p))
    rw [hcs, List.cons_append] at hlong htake hdrop
    rw [hcs, List.cons_append, Item.scan_of_lexeme offset hlong, htake, hdrop]
    rfl

end Spelled

/-! ## Rows of words -/

theorem scan_space (offset : Nat) {cs : List Char} (h : ∀ d ∈ cs.head?, Lexeme.isBlank d = false) :
    Item.scan offset (' ' :: cs) =
      .token ⟨.whitespace, " ", ⟨offset, offset + 1⟩⟩ :: Item.scan (offset + 1) cs :=
  have hblank : ∀ d ∈ [' '], Lexeme.isBlank d = true := List.forall_mem_singleton.mpr rfl
  Item.scan_of_lexeme offset (Lexeme.longest?_blanks (List.cons_ne_nil ' ' []) hblank h)

end Bluespec
