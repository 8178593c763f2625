import Bluespec.Proofs.PatternLanguage
import Mathlib.Data.List.Induction

/-!
# Readings are longest matches

What a lexer reads off a source stands side by side and makes up the source, and each reading takes the longest text
at its place that a rule of the lexical grammar matches.

* **`Lexeme.Best`** — the first of some rules that match the longest prefix of a text.
* **`Lexer.Yields`** — reading item by item yields the readings of a list, and then nothing.
* **`Reading.Classifies`**, **`Reading.Longest`** — what text of a class is read as, and that a reading takes the longest
  match at the start of a text.
* **`Lexer.readings_longest`** — the readings of a source tile it, and each of them is such a reading.
-/

namespace Bluespec

/-! ## The first of the longest matches -/

namespace Lexeme

/-- Which rule wins on a text, and with how many characters: the first of those that match the longest prefix.
Empty matches do not count. -/
inductive Best (cs : List Char) (rs : List (Pattern × Lexeme)) : Option (Lexeme × Nat) → Prop
  | none (h : ∀ r ∈ rs, ∀ m, r.1.longest? cs = some m → m = 0) : Best cs rs none
  | some {earlier later : List (Pattern × Lexeme)} {r : Pattern × Lexeme} {n : Nat} (hrs : rs = earlier ++ r :: later)
      (hpos : 0 < n) (hlong : r.1.longest? cs = some n)
      (hearlier : ∀ r' ∈ earlier, ∀ m, r'.1.longest? cs = some m → m < n)
      (hlater : ∀ r' ∈ later, ∀ m, r'.1.longest? cs = some m → m ≤ n) : Best cs rs (some (r.2, n))

/-- One more rule wins where it matches further than all rules before it. -/
theorem Best.snoc {cs : List Char} {rs : List (Pattern × Lexeme)} {best : Option (Lexeme × Nat)} (h : Best cs rs best)
    (r : Pattern × Lexeme) : Best cs (rs ++ [r]) (better best r.2 (r.1.longest? cs)) := by
  -- A rule that matches no further than the others leaves the winner as it is.
  have hkept : (∀ m, r.1.longest? cs = Option.some m → m ≤ (best.map Prod.snd).getD 0) → Best cs (rs ++ [r]) best := by
    intro hshort
    cases h with
    | none h =>
      refine .none fun r' hr' m hm => ?_
      rcases List.mem_append.mp hr' with hr' | hr'
      · exact h r' hr' m hm
      · obtain rfl := List.mem_singleton.mp hr'
        exact Nat.le_zero.mp (hshort m hm)
    | @some earlier later r₀ n hrs hpos hlong hearlier hlater =>
      have hrs' : rs ++ [r] = earlier ++ r₀ :: (later ++ [r]) := by rw [hrs, List.append_assoc, List.cons_append]
      refine .some hrs' hpos hlong hearlier fun r' hr' m hm => ?_
      · rcases List.mem_append.mp hr' with hr' | hr'
        · exact hlater r' hr' m hm
        · obtain rfl := List.mem_singleton.mp hr'
          exact hshort m hm
  cases hlong : r.1.longest? cs with
  | none => exact hkept fun m hm => by rw [hlong] at hm; cases hm
  | some m =>
    cases m with
    | zero => exact hkept fun m hm => by rw [hlong] at hm; cases hm; exact Nat.zero_le _
    | succ m =>
      -- A rule that matches further than all others is the new winner, and all others stand before it.
      have hwins : (∀ r' ∈ rs, ∀ k, r'.1.longest? cs = Option.some k → k < m + 1) →
          Best cs (rs ++ [r]) (Option.some (r.2, m + 1)) := fun hall =>
        .some rfl (Nat.succ_pos m) hlong hall fun r' hr' => absurd hr' List.not_mem_nil
      cases h with
      | none h =>
        refine hwins fun r' hr' k hk => ?_
        rw [h r' hr' k hk]
        exact Nat.succ_pos m
      | @some earlier later r₀ n hrs hpos hlong₀ hearlier hlater =>
        show Best cs (rs ++ [r]) (if n < m + 1 then _ else _)
        by_cases hn : n < m + 1
        · rw [if_pos hn]
          refine hwins fun r' hr' k hk => ?_
          rw [hrs, List.mem_append, List.mem_cons] at hr'
          rcases hr' with hr' | rfl | hr'
          · exact Nat.lt_trans (hearlier r' hr' k hk) hn
          · rw [hlong₀] at hk
            cases hk
            exact hn
          · exact Nat.lt_of_le_of_lt (hlater r' hr' k hk) hn
        · rw [if_neg hn]
          refine hkept fun k hk => ?_
          rw [hlong] at hk
          cases hk
          exact Nat.le_of_not_lt hn

/-- The longest lexeme of a text is that of the rule which wins. -/
theorem best_longest? (cs : List Char) : Best cs rules (longest? cs) := by
  have hfold : ∀ rs : List (Pattern × Lexeme),
      Best cs rs (rs.foldl (fun best rule => better best rule.2 (rule.1.longest? cs)) none) := by
    intro rs
    induction rs using List.reverseRecOn with
    | nil => exact .none fun r hr => absurd hr List.not_mem_nil
    | append_singleton rs r ih =>
      rw [List.foldl_append]
      exact ih.snoc r
  exact hfold rules

end Lexeme

/-- A pattern matches a prefix as far as its longest match at most. -/
theorem Pattern.exists_longest?_of_matches {a : Pattern} {text after : List Char} (h : a.Matches text) :
    ∃ n, a.longest? (text ++ after) = some n ∧ text.length ≤ n := by
  have hprefix : a.Matches ((text ++ after).take text.length) := by rwa [List.take_left]
  have hlen : text.length ≤ (text ++ after).length := by rw [List.length_append]; exact Nat.le_add_right _ _
  cases hlong : a.longest? (text ++ after) with
  | none => exact absurd hprefix (longest?_eq_none_iff.mp hlong _ hlen)
  | some n => exact ⟨n, rfl, (longest?_eq_some_iff.mp hlong).2.2 _ hlen hprefix⟩

/-! ## What texts are read as -/

/-- A text is the spelling of a reserved word. -/
def Keyword.Spelled (text : String) (k : Keyword) : Prop := text = k.spelling ∨ (text = "valueof" ∧ k = .valueOf)

/-- The kind of a word: the reserved word it spells, or else a name, of a type where the first character that is no
underscore is a capital letter. -/
inductive Kind.IsOfWord (text : String) : Kind → Prop
  | keyword {k : Keyword} (h : k.Spelled text) : IsOfWord text (.keyword k)
  | typeIdent (hno : ∀ k : Keyword, ¬ k.Spelled text) {underscores rest : List Char} {c : Char}
      (htext : text.toList = underscores ++ c :: rest) (hunderscores : ∀ d ∈ underscores, d = '_') (hc : c ≠ '_')
      (hupper : c.isUpper = true) : IsOfWord text .typeIdent
  | ident (hno : ∀ k : Keyword, ¬ k.Spelled text)
      (hlower : ∀ underscores c rest, text.toList = underscores ++ c :: rest → (∀ d ∈ underscores, d = '_') → c ≠ '_' →
        c.isUpper = false) : IsOfWord text .ident

theorem Keyword.spelled_of_ofSpelling? {text : String} {k : Keyword} (h : Keyword.ofSpelling? text = some k) :
    k.Spelled text := by
  rw [Keyword.ofSpelling?] at h
  split at h
  · rename_i htext
    cases h
    exact .inr ⟨htext, rfl⟩
  · have hfound := List.find?_some h
    exact .inl (beq_iff_eq.mp hfound).symm

theorem Keyword.not_spelled_of_ofSpelling? {text : String} (h : Keyword.ofSpelling? text = none) (k : Keyword) :
    ¬ k.Spelled text := by
  rw [Keyword.ofSpelling?] at h
  split at h
  · cases h
  · rename_i htext
    rintro (hk | ⟨hk, -⟩)
    · have hall : k ∈ Keyword.all := by cases k <;> decide
      exact List.find?_eq_none.mp h k hall (beq_iff_eq.mpr hk.symm)
    · exact htext hk

/-- The first character of a text that is no underscore, with what stands before it. -/
theorem find?_underscores {cs : List Char} {c : Char} :
    cs.find? (· != '_') = some c ↔
      ∃ underscores rest, cs = underscores ++ c :: rest ∧ (∀ d ∈ underscores, d = '_') ∧ c ≠ '_' := by
  rw [List.find?_eq_some_iff_append]
  constructor
  · rintro ⟨hc, underscores, rest, hcs, hunderscores⟩
    exact ⟨underscores, rest, hcs, fun d hd => by simpa using hunderscores d hd, by simpa using hc⟩
  · rintro ⟨underscores, rest, hcs, hunderscores, hc⟩
    exact ⟨by simpa using hc, underscores, rest, hcs, fun d hd => by simpa using hunderscores d hd⟩

theorem Kind.isOfWord_ofWord (text : String) : Kind.IsOfWord text (Kind.ofWord text) := by
  unfold Kind.ofWord
  cases hword : Keyword.ofSpelling? text with
  | some k => exact .keyword (Keyword.spelled_of_ofSpelling? hword)
  | none =>
    have hno := Keyword.not_spelled_of_ofSpelling? hword
    cases hfirst : text.toList.find? (· != '_') with
    | none =>
      refine .ident hno fun underscores c rest htext hunderscores hc => ?_
      rw [find?_underscores.mpr ⟨underscores, rest, htext, hunderscores, hc⟩] at hfirst
      cases hfirst
    | some c =>
      show IsOfWord text (if c.isUpper = true then .typeIdent else .ident)
      by_cases hupper : c.isUpper = true
      · obtain ⟨underscores, rest, htext, hunderscores, hc⟩ := find?_underscores.mp hfirst
        rw [if_pos hupper]
        exact .typeIdent hno htext hunderscores hc hupper
      · rw [if_neg hupper]
        refine .ident hno fun underscores d rest htext hunderscores hd => ?_
        rw [find?_underscores.mpr ⟨underscores, rest, htext, hunderscores, hd⟩] at hfirst
        cases hfirst
        exact Bool.eq_false_iff.mpr hupper

/-- A text in which every backslash stands before a character that it may escape. -/
inductive WellEscaped : List Char → Prop
  | nil : WellEscaped []
  | plain {c : Char} {cs : List Char} (hc : c ≠ '\\') (h : WellEscaped cs) : WellEscaped (c :: cs)
  | escape {c : Char} {cs : List Char} (hc : isEscape c = true) (h : WellEscaped cs) : WellEscaped ('\\' :: c :: cs)

theorem badEscape?_of_ne {offset : Nat} {c : Char} {cs : List Char} (h : c ≠ '\\') :
    badEscape? offset (c :: cs) = badEscape? (offset + c.utf8Size) cs := by
  rw [badEscape?]
  intro d cs' hc
  exact absurd hc h

/-- The first bad escape of a text stands behind a text with good escapes only. -/
theorem badEscape?_eq_some {offset start : Nat} {cs : List Char} {c : Char}
    (h : badEscape? offset cs = some (c, start)) :
    ∃ before after, cs = before ++ '\\' :: c :: after ∧ WellEscaped before ∧ isEscape c = false ∧
      start = offset + Text.byteSize before := by
  induction offset, cs using badEscape?.induct with
  | case1 offset c' cs hc ih =>
    rw [badEscape?, if_pos hc] at h
    obtain ⟨before, after, rfl, hbefore, hbad, hstart⟩ := ih h
    have hsize : ('\\' : Char).utf8Size = 1 := by decide
    refine ⟨'\\' :: c' :: before, after, rfl, .escape hc hbefore, hbad, ?_⟩
    rw [hstart, Text.byteSize_cons, Text.byteSize_cons, hsize]
    omega
  | case2 offset c' cs hc =>
    rw [badEscape?, if_neg hc] at h
    cases h
    exact ⟨[], cs, rfl, .nil, Bool.eq_false_iff.mpr hc, rfl⟩
  | case3 offset c' cs hne ih =>
    have hc : c' ≠ '\\' := by
      rintro rfl
      cases cs with
      | nil => cases h
      | cons d cs => exact hne d cs rfl rfl
    rw [badEscape?_of_ne hc] at h
    obtain ⟨before, after, rfl, hbefore, hbad, hstart⟩ := ih h
    refine ⟨c' :: before, after, rfl, .plain hc hbefore, hbad, ?_⟩
    rw [hstart, Text.byteSize_cons]
    omega
  | case4 offset => cases h

/-- A text in which no bad escape is found has good escapes only. -/
theorem isEscape_of_badEscape?_eq_none {offset : Nat} {before after : List Char} {c : Char}
    (hbefore : WellEscaped before) (h : badEscape? offset (before ++ '\\' :: c :: after) = none) : isEscape c = true := by
  induction hbefore generalizing offset with
  | nil =>
    rw [List.nil_append, badEscape?] at h
    by_cases hc : isEscape c = true
    · exact hc
    · rw [if_neg hc] at h
      cases h
  | plain hd _ ih =>
    rw [List.cons_append, badEscape?_of_ne hd] at h
    exact ih h
  | escape hd _ ih =>
    rw [List.cons_append, List.cons_append, badEscape?, if_pos hd] at h
    exact ih h

/-! ## What lexemes are read as -/

/-- The kind of the tokens of a class, where the class alone decides it. -/
def Lexeme.kind? : Lexeme → Option Kind
  | .whitespace => some .whitespace
  | .comment => some .comment
  | .systemWord => some .systemIdent
  | .fill => some .fill
  | .int => some .int
  | .real => some .real
  | .plainString => some .string
  | .symbol p => some (.punct p)
  | .unterminatedComment | .word | .escapedString | .unterminatedString => none

namespace Reading

/-- Where the text of a reading stands. -/
def textSpan : Reading → Span
  | token t _ => t.span
  | error e => e.textSpan

variable (lines : LineIndex) (offset : Nat) (text : List Char)

/-- Where a text at `offset` stands. -/
def spanOfText : Span := ⟨offset, offset + Text.byteSize text⟩

/-- What a text of a class is read as at `offset`: a token of the kind of the class, or of the kind of the word; a
string with escapes only where all of them are known; an error for text that is not closed. -/
inductive Classifies : Lexeme → Reading → Prop
  | kind {lexeme : Lexeme} {k : Kind} (hk : lexeme.kind? = some k) :
      Classifies lexeme (.token ⟨k, String.ofList text, spanOfText offset text⟩ (lines.position offset))
  | word {k : Kind} (hk : Kind.IsOfWord (String.ofList text) k) :
      Classifies .word (.token ⟨k, String.ofList text, spanOfText offset text⟩ (lines.position offset))
  | escapedString (hgood : ∀ before c after, text = before ++ '\\' :: c :: after → WellEscaped before → isEscape c = true) :
      Classifies .escapedString (.token ⟨.string, String.ofList text, spanOfText offset text⟩ (lines.position offset))
  | badEscape {before after : List Char} {c : Char} (htext : text = before ++ '\\' :: c :: after)
      (hbefore : WellEscaped before) (hbad : isEscape c = false) :
      Classifies .escapedString (.error (.invalidEscape c
        ⟨offset + Text.byteSize before, offset + Text.byteSize before + 1 + c.utf8Size⟩ (spanOfText offset text)))
  | unterminatedString : Classifies .unterminatedString (.error (.unterminatedString (spanOfText offset text)))
  | unterminatedComment : Classifies .unterminatedComment (.error (.unterminatedComment (spanOfText offset text)))

theorem classifies_ofLexeme (lexeme : Lexeme) :
    Classifies lines offset text lexeme (Lexer.locate lines (Item.ofLexeme lexeme offset text)) := by
  cases lexeme with
  | word => exact .word (Kind.isOfWord_ofWord _)
  | unterminatedComment => exact .unterminatedComment
  | unterminatedString => exact .unterminatedString
  | escapedString =>
    rw [Item.ofLexeme]
    cases hbad : badEscape? offset text with
    | none =>
      refine .escapedString fun before c after htext hbefore => ?_
      exact isEscape_of_badEscape?_eq_none hbefore (htext ▸ hbad)
    | some e =>
      obtain ⟨c, start⟩ := e
      obtain ⟨before, after, htext, hbefore, hc, rfl⟩ := badEscape?_eq_some hbad
      exact .badEscape htext hbefore hc
  | _ => exact .kind rfl

/-! ## Longest readings -/

/-- A reading of the text `rest` that stands at `offset`: of the longest prefix that a rule of the lexical grammar
matches, as a text of the class of the first such rule; or of one character, where no rule matches a prefix that is
not empty. -/
inductive Longest (rest : List Char) : Reading → Prop
  | lexeme {text after : List Char} {earlier later : List (Pattern × Lexeme)} {rule : Pattern × Lexeme} {r : Reading}
      (hrest : rest = text ++ after) (htext : text ≠ []) (hrules : Lexeme.rules = earlier ++ rule :: later)
      (hmatch : rule.1.Matches text)
      (hlongest : ∀ rule' ∈ Lexeme.rules, ∀ text' after', rest = text' ++ after' → rule'.1.Matches text' →
        text'.length ≤ text.length)
      (hfirst : ∀ rule' ∈ earlier, ¬ rule'.1.Matches text) (hclass : Classifies lines offset text rule.2 r) :
      Longest rest r
  | character {c : Char} {after : List Char} (hrest : rest = c :: after)
      (hnone : ∀ rule ∈ Lexeme.rules, ∀ text' after', rest = text' ++ after' → rule.1.Matches text' → text' = []) :
      Longest rest (.error (.invalidCharacter c ⟨offset, offset + c.utf8Size⟩))

variable {lines offset}

theorem longest_ofLexeme {cs : List Char} {lexeme : Lexeme} {n : Nat} (h : Lexeme.longest? cs = some (lexeme, n)) :
    Longest lines offset cs (Lexer.locate lines (Item.ofLexeme lexeme offset (cs.take n))) := by
  have hbest := Lexeme.best_longest? cs
  rw [h] at hbest
  cases hbest with
  | @some earlier later rule n hrules hpos hlong hearlier hlater =>
    obtain ⟨hn, hmatch, -⟩ := Pattern.longest?_eq_some_iff.mp hlong
    have hlen : (cs.take n).length = n := by rw [List.length_take]; omega
    refine .lexeme (List.take_append_drop n cs).symm ?_ hrules hmatch ?_ ?_ (classifies_ofLexeme lines offset _ rule.2)
    · intro hnil
      rw [hnil] at hlen
      exact absurd hlen (Nat.ne_of_lt hpos)
    · rintro rule' hrule' text' after' rfl hmatch'
      obtain ⟨m, hm, hle⟩ := Pattern.exists_longest?_of_matches hmatch'
      rw [hlen]
      exact Nat.le_trans hle (Lexeme.le_of_longest? h rule' hrule' m hm)
    · intro rule' hrule' hmatch'
      obtain ⟨m, hm, hle⟩ := Pattern.exists_longest?_of_matches hmatch'
      rw [List.take_append_drop] at hm
      have hlt := hearlier rule' hrule' m hm
      omega

theorem longest_ofCharacter {c : Char} {cs : List Char} (h : Lexeme.longest? (c :: cs) = none) :
    Longest lines offset (c :: cs) (Lexer.locate lines (Item.ofCharacter c offset)) := by
  have hbest := Lexeme.best_longest? (c :: cs)
  rw [h] at hbest
  cases hbest with
  | none hnone =>
    refine .character rfl fun rule hrule text' after' hrest hmatch => ?_
    obtain ⟨m, hm, hle⟩ := Pattern.exists_longest?_of_matches hmatch
    rw [← hrest] at hm
    rw [hnone rule hrule m hm] at hle
    exact List.length_eq_zero_iff.mp (Nat.le_zero.mp hle)

/-- The readings of a text stand where they are the longest. -/
theorem longest_of_mem_scan {offset : Nat} {cs : List Char} {i : Item} (h : i ∈ Item.scan offset cs) :
    ∃ before rest, cs = before ++ rest ∧ i.textSpan.start = offset + Text.byteSize before ∧
      Longest lines (offset + Text.byteSize before) rest (Lexer.locate lines i) := by
  induction offset, cs using Item.scan_induction with
  | nil => cases h
  | lexeme offset c cs lexeme n hlong htaken ih =>
    rw [Item.scan_of_lexeme offset hlong] at h
    rcases List.mem_cons.mp h with rfl | h
    · refine ⟨[], c :: cs, rfl, ?_, longest_ofLexeme hlong⟩
      rw [Item.textSpan_ofLexeme]
      rfl
    · obtain ⟨before, rest, hdrop, hstart, hlongest⟩ := ih h
      refine ⟨(c :: cs).take n ++ before, rest, ?_, ?_⟩
      · rw [List.append_assoc, ← hdrop, List.take_append_drop]
      · rw [Text.byteSize_append, ← Nat.add_assoc]
        exact ⟨hstart, hlongest⟩
  | character offset c cs hlong ih =>
    rw [Item.scan_of_character offset hlong] at h
    rcases List.mem_cons.mp h with rfl | h
    · exact ⟨[], c :: cs, rfl, rfl, longest_ofCharacter hlong⟩
    · obtain ⟨before, rest, rfl, hstart, hlongest⟩ := ih h
      refine ⟨c :: before, rest, rfl, ?_⟩
      rw [Text.byteSize_cons, ← Nat.add_assoc]
      exact ⟨hstart, hlongest⟩

end Reading

/-! ## Reading item by item -/

/-- Reading item by item yields the readings of a list, and then nothing. -/
inductive Lexer.Yields : Lexer → List Reading → Prop
  | done {lexer : Lexer} (h : lexer.next.1 = none) : Yields lexer []
  | read {lexer later : Lexer} {r : Reading} {rs : List Reading} (h : lexer.next = (some r, later))
      (hlater : Yields later rs) : Yields lexer (r :: rs)

/-- Spans stand next to each other, from `start` to `stop`, and none is empty. -/
def Span.Tile : Nat → List Span → Nat → Prop
  | start, [], stop => start = stop
  | start, s :: ss, stop => s.start = start ∧ start < s.stop ∧ Tile s.stop ss stop

theorem Tiles.tile_spans {start stop : Nat} {ts : List Token} (h : Tiles start ts stop) :
    Span.Tile start (ts.map Token.span) stop := by
  induction ts generalizing start with
  | nil => exact h
  | cons t ts ih =>
    obtain ⟨hstart, -, hlt, hrest⟩ := h
    exact ⟨hstart, hlt, ih hrest⟩

namespace Lexer

theorem textSpan_locate (lines : LineIndex) (i : Item) : (locate lines i).textSpan = i.textSpan := by
  cases i <;> rfl

section Next

variable {lines : LineIndex} {is : List Item} {trivia : Bool} {i : Item}

/-- Trivia that is not read is passed over. -/
theorem next_of_skipped (h : (i.isTrivia && !trivia) = true) :
    next ⟨lines, i :: is, trivia⟩ = next ⟨lines, is, trivia⟩ := by
  have hdrop : (i :: is).dropWhile (fun i => i.isTrivia && !trivia) = is.dropWhile fun i => i.isTrivia && !trivia :=
    List.dropWhile_cons_of_pos h
  simp only [next, hdrop]

theorem next_of_read (h : (i.isTrivia && !trivia) = false) :
    next ⟨lines, i :: is, trivia⟩ = (some (locate lines i), ⟨lines, is, trivia⟩) := by
  have hdrop : (i :: is).dropWhile (fun i => i.isTrivia && !trivia) = i :: is :=
    List.dropWhile_cons_of_neg (Bool.eq_false_iff.mp h)
  simp only [next, hdrop]

theorem toList_of_skipped (h : (i.isTrivia && !trivia) = true) :
    toList ⟨lines, i :: is, trivia⟩ = toList ⟨lines, is, trivia⟩ := by
  have hdrop : (i :: is).filter (fun i => !i.isTrivia || trivia) = is.filter fun i => !i.isTrivia || trivia :=
    List.filter_cons_of_neg (by simpa using h)
  simp only [toList, hdrop]

theorem toList_of_read (h : (i.isTrivia && !trivia) = false) :
    toList ⟨lines, i :: is, trivia⟩ = locate lines i :: toList ⟨lines, is, trivia⟩ := by
  have hkeep : (i :: is).filter (fun i => !i.isTrivia || trivia) = i :: is.filter fun i => !i.isTrivia || trivia :=
    List.filter_cons_of_pos (by cases hi : i.isTrivia <;> simp_all)
  simp only [toList, hkeep, List.map_cons]

end Next

theorem Yields.of_next_eq {a b : Lexer} {rs : List Reading} (h : a.next = b.next) (hb : b.Yields rs) : a.Yields rs := by
  cases hb with
  | done hdone => exact .done (h ▸ hdone)
  | read hread hlater => exact .read (h.trans hread) hlater

/-- What is left to read is what reading item by item yields. -/
theorem yields_toList (lexer : Lexer) : lexer.Yields lexer.toList := by
  obtain ⟨lines, pending, trivia⟩ := lexer
  induction pending with
  | nil => exact .done rfl
  | cons i is ih =>
    cases hskip : i.isTrivia && !trivia with
    | true =>
      rw [toList_of_skipped hskip]
      exact ih.of_next_eq (next_of_skipped hskip)
    | false =>
      rw [toList_of_read hskip]
      exact .read (next_of_read hskip) ih

theorem toList_withTrivia_ofSource (source : String) :
    (ofSource source).withTrivia.toList =
      (Item.scan 0 source.toList).map (locate (LineIndex.ofText source.toList)) := by
  have hall : ∀ is : List Item, is.filter (fun i => !i.isTrivia || true) = is := by
    intro is
    exact List.filter_eq_self.mpr fun i _ => Bool.or_true _
  rw [toList, withTrivia, ofSource, resumeAt, Text.dropBytes?_zero]
  exact congrArg _ (hall _)

/-- Reading a source with its blanks and comments yields readings that tile it, and each of them is the longest at
its place. -/
theorem readings_longest (source : String) :
    ∃ readings, (ofSource source).withTrivia.Yields readings ∧
      Span.Tile 0 (readings.map Reading.textSpan) (Text.byteSize source.toList) ∧
      ∀ r ∈ readings, ∃ before rest, source.toList = before ++ rest ∧ r.textSpan.start = Text.byteSize before ∧
        Reading.Longest (LineIndex.ofText source.toList) (Text.byteSize before) rest r := by
  refine ⟨_, yields_toList _, ?_, ?_⟩
  all_goals rw [toList_withTrivia_ofSource]
  · have htiles := (Token.tiles_ofText source).tile_spans
    rw [Token.ofText, List.map_map] at htiles
    rw [List.map_map]
    have hspans : Reading.textSpan ∘ locate (LineIndex.ofText source.toList) = Token.span ∘ Item.toToken := by
      funext i
      exact (textSpan_locate _ i).trans (Item.toToken_span i).symm
    rw [hspans]
    exact htiles
  · intro r hr
    obtain ⟨i, hi, rfl⟩ := List.mem_map.mp hr
    obtain ⟨before, rest, hsource, hstart, hlongest⟩ := Reading.longest_of_mem_scan hi
    rw [Nat.zero_add] at hstart hlongest
    exact ⟨before, rest, hsource, by rw [textSpan_locate, hstart], hlongest⟩

end Lexer

end Bluespec
