import Bluespec.Proofs.ClosingMarks
import Bluespec.Proofs.NumberTexts

/-!
# Escapes in strings

A closed string is a token if and only if a known character stands behind each of its backslashes; otherwise it is one
error, about the first other character.  Behind a digit or an `x` nothing more is looked at, so that octal escapes of
fewer than three digits and hexadecimal ones of fewer than two are read too.

* **`StringBody.well_or_bad`** — a body of a string has good escapes only, or a first bad one.
* **`DocumentedEscapes`** — every escape is complete.
* **`DocumentedEscapes.wellEscaped`**, **`WellEscaped.documented_or_short`** — complete escapes are good ones, and the
  other good ones are octal or hexadecimal ones with too few digits.
* **`Lexer.string_escapes`** — what the closed strings of a source are read as.
-/

namespace Bluespec

/-! ## Good and bad escapes -/

namespace WellEscaped

theorem of_plain {c : Char} {cs : List Char} (hc : c ≠ '\\') (h : WellEscaped (c :: cs)) : WellEscaped cs := by
  cases h with
  | plain _ h => exact h
  | escape => exact absurd rfl hc

theorem of_escape {c : Char} {cs : List Char} (h : WellEscaped ('\\' :: c :: cs)) : isEscape c = true ∧ WellEscaped cs := by
  cases h with
  | plain hc => exact absurd rfl hc
  | escape hc h => exact ⟨hc, h⟩

/-- Behind good escapes stands a good one. -/
theorem isEscape_of_append {good more : List Char} {c : Char} (hgood : WellEscaped good)
    (h : WellEscaped (good ++ '\\' :: c :: more)) : isEscape c = true := by
  induction hgood with
  | nil => exact h.of_escape.1
  | plain hd _ ih => exact ih (h.of_plain hd)
  | escape _ _ ih => exact ih h.of_escape.2

theorem of_forall {cs : List Char} (h : ∀ c ∈ cs, c ≠ '\\') : WellEscaped cs := by
  induction cs with
  | nil => exact .nil
  | cons c cs ih =>
    obtain ⟨hc, hcs⟩ := List.forall_mem_cons.mp h
    exact .plain hc (ih hcs)

end WellEscaped

/-- A body of a string has good escapes only, or a first bad one. -/
theorem StringBody.well_or_bad {body : List Char} (h : StringBody body) :
    WellEscaped body ∨ ∃ good c more, body = good ++ '\\' :: c :: more ∧ WellEscaped good ∧ isEscape c = false := by
  induction h with
  | nil => exact .inl .nil
  | @plain c cs hc _ ih =>
    have hslash : c ≠ '\\' := by
      rintro rfl
      exact absurd hc (by decide)
    obtain hgood | ⟨good, d, more, rfl, hgood, hd⟩ := ih
    · exact .inl (.plain hslash hgood)
    · exact .inr ⟨c :: good, d, more, rfl, .plain hslash hgood, hd⟩
  | @escape c cs _ _ ih =>
    cases hescape : isEscape c with
    | false => exact .inr ⟨[], c, cs, rfl, .nil, hescape⟩
    | true =>
      obtain hgood | ⟨good, d, more, rfl, hgood, hd⟩ := ih
      · exact .inl (.escape hescape hgood)
      · exact .inr ⟨'\\' :: c :: good, d, more, rfl, .escape hescape hgood, hd⟩

/-! ## Complete escapes -/

/-- The base of the digits of an escape: a digit begins an octal escape, and an `x` a hexadecimal one. -/
def escapeRadix? (c : Char) : Option Nat :=
  if c = 'x' then some 16 else if isDigitOf 8 c then some 8 else none

/-- A text in which every backslash begins a complete escape: a backslash before one of `n t v f a`, a backslash or a
quote; three octal digits behind one; or an `x` and two hexadecimal digits. -/
inductive DocumentedEscapes : List Char → Prop
  | nil : DocumentedEscapes []
  | plain {c : Char} {cs : List Char} (hc : c ≠ '\\') (h : DocumentedEscapes cs) : DocumentedEscapes (c :: cs)
  | simple {c : Char} {cs : List Char} (hc : "ntvfa\\\"".toList.contains c = true) (h : DocumentedEscapes cs) :
      DocumentedEscapes ('\\' :: c :: cs)
  | numeric {c a b : Char} {radix : Nat} {cs : List Char} (hc : escapeRadix? c = some radix)
      (ha : isDigitOf radix a = true) (hb : isDigitOf radix b = true) (h : DocumentedEscapes cs) :
      DocumentedEscapes ('\\' :: c :: a :: b :: cs)

theorem isDigitOf_eight (c : Char) : isDigitOf 8 c = "01234567".toList.contains c := by
  rw [Bool.eq_iff_iff]
  constructor
  · intro h
    unfold isDigitOf at h
    split at h
    · next v hv =>
      obtain ⟨-, hc⟩ := digitValue?_iff.mp hv
      have hlt : v < 8 := of_decide_eq_true h
      interval_cases v <;> obtain rfl | rfl := hc <;> decide
    · cases h
  · intro h
    simp only [String.reduceToList, List.contains_cons, List.contains_nil, Bool.or_eq_true, beq_iff_eq,
      Bool.or_false] at h
    rcases h with rfl | rfl | rfl | rfl | rfl | rfl | rfl | rfl <;> rfl

theorem ne_backslash_of_isDigitOf {radix : Nat} {c : Char} (h : isDigitOf radix c = true) : c ≠ '\\' := by
  rintro rfl
  cases h

/-- Good escapes are the simple ones and the beginnings of octal and hexadecimal ones. -/
theorem isEscape_iff {c : Char} :
    isEscape c = true ↔ "ntvfa\\\"".toList.contains c = true ∨ ∃ radix, escapeRadix? c = some radix := by
  have hparts : isEscape c = ("ntvfa\\\"".toList ++ ('x' :: "01234567".toList)).contains c := rfl
  rw [hparts, List.contains_append, Bool.or_eq_true, List.contains_cons, ← isDigitOf_eight, Bool.or_eq_true, beq_iff_eq]
  refine or_congr_right ?_
  unfold escapeRadix?
  by_cases hx : c = 'x'
  · simp [hx]
  · cases isDigitOf 8 c <;> simp [hx]

theorem DocumentedEscapes.wellEscaped {cs : List Char} (h : DocumentedEscapes cs) : WellEscaped cs := by
  induction h with
  | nil => exact .nil
  | plain hc _ ih => exact .plain hc ih
  | simple hc _ ih => exact .escape (isEscape_iff.mpr (.inl hc)) ih
  | numeric hc ha hb _ ih =>
    exact .escape (isEscape_iff.mpr (.inr ⟨_, hc⟩))
      (.plain (ne_backslash_of_isDigitOf ha) (.plain (ne_backslash_of_isDigitOf hb) ih))

/-- A text whose first escape that is not complete is an octal or a hexadecimal one with too few digits. -/
def ShortEscape (cs : List Char) : Prop :=
  ∃ good c more radix, cs = good ++ '\\' :: c :: more ∧ DocumentedEscapes good ∧ escapeRadix? c = some radix ∧
    (more.takeWhile (isDigitOf radix)).length < 2

theorem ShortEscape.append (front : List Char) {cs : List Char} (h : ShortEscape cs)
    (hfront : ∀ {good : List Char}, DocumentedEscapes good → DocumentedEscapes (front ++ good)) :
    ShortEscape (front ++ cs) := by
  obtain ⟨good, c, more, radix, rfl, hgood, hshort⟩ := h
  exact ⟨front ++ good, c, more, radix, (List.append_assoc _ _ _).symm, hfront hgood, hshort⟩

theorem exists_two_digits {radix : Nat} {cs : List Char} (h : ¬ (cs.takeWhile (isDigitOf radix)).length < 2) :
    ∃ a b rest, cs = a :: b :: rest ∧ isDigitOf radix a = true ∧ isDigitOf radix b = true := by
  match cs with
  | [] => simp at h
  | [a] =>
    have hlength : ([a].takeWhile (isDigitOf radix)).length ≤ 1 := (List.takeWhile_sublist _).length_le
    omega
  | a :: b :: rest =>
    cases ha : isDigitOf radix a <;> cases hb : isDigitOf radix b <;> simp [ha, hb] at h ⊢

/-- Good escapes are complete, or the first one that is not has too few digits. -/
theorem WellEscaped.documented_or_short {cs : List Char} (h : WellEscaped cs) : DocumentedEscapes cs ∨ ShortEscape cs := by
  -- A complete octal or hexadecimal escape takes four characters, so the induction is on the length.
  induction hlength : cs.length using Nat.strongRecOn generalizing cs with
  | ind n ih =>
    subst hlength
    cases h with
    | nil => exact .inl .nil
    | @plain c cs hc h =>
      exact (ih cs.length (by simp) h rfl).imp (.plain hc) fun hshort => hshort.append [c] (.plain hc)
    | @escape c cs hc h =>
      obtain hsimple | ⟨radix, hradix⟩ := isEscape_iff.mp hc
      · exact (ih cs.length (by simp) h rfl).imp (.simple hsimple) fun hshort =>
          hshort.append ['\\', c] (.simple hsimple)
      · by_cases hdigits : (cs.takeWhile (isDigitOf radix)).length < 2
        · exact .inr ⟨[], c, cs, radix, rfl, .nil, hradix, hdigits⟩
        · obtain ⟨a, b, rest, rfl, ha, hb⟩ := exists_two_digits hdigits
          have hrest := (h.of_plain (ne_backslash_of_isDigitOf ha)).of_plain (ne_backslash_of_isDigitOf hb)
          exact (ih rest.length (by simp; omega) hrest rfl).imp (.numeric hradix ha hb) fun hshort =>
            hshort.append ['\\', c, a, b] (.numeric hradix ha hb)

/-! ## Closed strings -/

namespace Reading

variable {lines : LineIndex} {offset : Nat} {body after : List Char} {r : Reading}

/-- The error about the escape of a character behind the first part of the body of a string. -/
def badEscape (offset : Nat) (body good : List Char) (c : Char) : Reading :=
  let start := offset + 1 + Text.byteSize good
  .error (.invalidEscape c ⟨start, start + 1 + c.utf8Size⟩ (spanOfText offset (stringWith body)))

/-- How a closed string is read: as a token where its escapes are good, and else as the error about the first bad one. -/
inductive OfClosedString (lines : LineIndex) (offset : Nat) (body : List Char) : Reading → Prop
  | string (hgood : WellEscaped body) : OfClosedString lines offset body (.string lines offset body)
  | badEscape {good more : List Char} {c : Char} (hbody : body = good ++ '\\' :: c :: more) (hgood : WellEscaped good)
      (hbad : isEscape c = false) : OfClosedString lines offset body (.badEscape offset body good c)

/-- A bad escape in the text of a string is one in its body. -/
theorem bad_of_stringWith {before more : List Char} {c : Char} (htext : stringWith body = before ++ '\\' :: c :: more)
    (hbefore : WellEscaped before) (hbad : isEscape c = false) :
    ∃ good more, before = '"' :: good ∧ WellEscaped good ∧ body = good ++ '\\' :: c :: more := by
  cases before with
  | nil => cases htext
  | cons d good =>
    obtain ⟨rfl, hrest⟩ := List.cons_eq_cons.mp htext
    obtain rfl | ⟨more, d, rfl⟩ := List.eq_nil_or_concat more
    · -- The closing quote is behind the backslash, but a quote may be escaped.
      have hsplit : body ++ ['"'] = (good ++ ['\\']) ++ [c] := by simpa using hrest
      obtain rfl : '"' = c := List.singleton_inj.mp (List.append_inj' hsplit rfl).2
      cases hbad
    · have hsplit : body ++ ['"'] = (good ++ '\\' :: c :: more) ++ [d] := by simpa using hrest
      exact ⟨good, more, rfl, hbefore.of_plain (by decide), (List.append_inj' hsplit rfl).1⟩

theorem Longest.ofClosedString (h : Longest lines offset ('"' :: (body ++ '"' :: after)) r) (hbody : StringBody body) :
    OfClosedString lines offset body r := by
  obtain ⟨lexeme, hclosed, hclass⟩ := h.classifies_closed hbody
  obtain ⟨rfl, hplain⟩ | rfl := hclosed
  · have hgood : WellEscaped body := by
      refine .of_forall fun c hc => ?_
      have hchar := Pattern.matches_star_char.mp hplain c hc
      rintro rfl
      cases hchar
    cases hclass with
    | kind hk =>
      cases hk
      exact .string hgood
  · cases hclass with
    | kind hk => cases hk
    | escapedString hgood =>
      obtain hwell | ⟨good, c, more, rfl, hwell, hbad⟩ := hbody.well_or_bad
      · exact .string hwell
      · have hescape := hgood ('"' :: good) c (more ++ ['"']) (by simp [stringWith]) (.plain (by decide) hwell)
        exact absurd hescape (by rw [hbad]; exact Bool.false_ne_true)
    | @badEscape before more c htext hbefore hbad =>
      obtain ⟨good, more', rfl, hgood, hsplit⟩ := bad_of_stringWith htext hbefore hbad
      have hsize : Text.byteSize ('"' :: good) = 1 + Text.byteSize good := by
        rw [Text.byteSize_cons]
        rfl
      rw [hsize, ← Nat.add_assoc]
      exact .badEscape hsplit hgood hbad

end Reading

/-- What any lexer of a source reads where a closed string stands.  It is a string token if and only if the escapes are
good ones.  Otherwise it is the error about the first bad one: about the backslash and the character behind it, in the
text of the whole string.  All strings with complete escapes are tokens; the others are those in which an octal or a
hexadecimal escape has too few digits. -/
theorem Lexer.string_escapes {source : String} {before body after : List Char} {r : Reading} (hbody : StringBody body)
    (h : ReadsAt source before ('"' :: (body ++ '"' :: after)) r) :
    (r = .string (LineIndex.ofText source.toList) (Text.byteSize before) body ↔ WellEscaped body) ∧
      (¬ WellEscaped body → ∃ good c more, body = good ++ '\\' :: c :: more ∧ WellEscaped good ∧ isEscape c = false ∧
        r = .badEscape (Text.byteSize before) body good c) ∧
      (DocumentedEscapes body → WellEscaped body) ∧ (WellEscaped body → DocumentedEscapes body ∨ ShortEscape body) := by
  refine ⟨?_, ?_, DocumentedEscapes.wellEscaped, WellEscaped.documented_or_short⟩
  · cases h.longest.ofClosedString hbody with
    | string hgood => exact iff_of_true rfl hgood
    | badEscape hsplit hgood hbad =>
      refine iff_of_false nofun fun hwell => ?_
      rw [hsplit] at hwell
      exact Bool.false_ne_true (hbad.symm.trans (hgood.isEscape_of_append hwell))
  · intro hbad
    cases h.longest.ofClosedString hbody with
    | string hgood => exact absurd hgood hbad
    | badEscape hsplit hgood hescape => exact ⟨_, _, _, hsplit, hgood, hescape, rfl⟩

/-- No escape begins with `q`. -/
theorem Lexer.string_escapes_unknown :
    StringBody "é\\qb".toList ∧
      ReadsAt "= \"é\\qb\" x" "= ".toList ('"' :: ("é\\qb".toList ++ '"' :: " x".toList))
        (.badEscape 2 "é\\qb".toList ['é'] 'q') ∧
      ∃ good c more, "é\\qb".toList = good ++ '\\' :: c :: more ∧ WellEscaped good ∧ isEscape c = false ∧
        Reading.badEscape 2 "é\\qb".toList ['é'] 'q' = .badEscape 2 "é\\qb".toList good c := by
  have hbody : StringBody "é\\qb".toList := .plain rfl (.escape (by decide) (.plain rfl .nil))
  have hread : ReadsAt "= \"é\\qb\" x" "= ".toList ('"' :: ("é\\qb".toList ++ '"' :: " x".toList))
      (.badEscape 2 "é\\qb".toList ['é'] 'q') :=
    ⟨rfl, rfl, Lexer.resumeAt "= \"é\\qb\" x" 2, .resumeAt 2, rfl⟩
  refine ⟨hbody, hread, (string_escapes hbody hread).2.1 fun hwell => ?_⟩
  exact absurd (hwell.of_plain (by decide)).of_escape.1 (by decide)

/-- An octal escape with one digit is read as if it were complete. -/
theorem Lexer.string_of_short_octal :
    ReadsAt "\"\\1\"" [] "\"\\1\"".toList (.string (LineIndex.ofText "\"\\1\"".toList) 0 ['\\', '1']) ∧
      ¬ DocumentedEscapes ['\\', '1'] := by
  refine ⟨⟨rfl, rfl, Lexer.ofSource "\"\\1\"", .resumeAt 0, rfl⟩, fun h => ?_⟩
  cases h with
  | plain hc => exact hc rfl
  | simple hc => cases hc

end Bluespec
