import Bluespec.Proofs.LexerStates
import Bluespec.Proofs.NestedSpans
import Mathlib.Data.List.DropRight
import Mathlib.Data.Prod.Lex
import Mathlib.Order.Monotone.Defs

/-!
# Lines and columns of a source

The line of an offset counts the newlines before it, and its column the characters behind the last of them.  So offsets
further on have later places, and the place of every token is that of its first byte.

* **`LineIndex.startsFrom_append`**, **`LineIndex.takeWhile_starts`** — the lines that start up to an offset are those
  of the text before it.
* **`LineIndex.position_append`** — the place of an offset between two characters.
* **`LineIndex.strictMonoOn_place`** — places are in the order of the offsets.
* **`Lexer.Of.place_eq`** — the place of a token that a lexer reads.
* **`line_columns`** — all of it for a source.
-/

namespace Bluespec

namespace LineIndex

/-! ## Starts of lines -/

theorem startsFrom_append (offset : Nat) (a b : List Char) :
    startsFrom offset (a ++ b) = startsFrom offset a ++ startsFrom (offset + Text.byteSize a) b := by
  induction a generalizing offset with
  | nil => rfl
  | cons c a ih =>
    simp only [List.cons_append, startsFrom, Text.byteSize_cons, ih, ← Nat.add_assoc]
    split <;> rfl

/-- Lines start behind the beginning of a text, and not behind its end. -/
theorem mem_startsFrom {offset start : Nat} {cs : List Char} (h : start ∈ startsFrom offset cs) :
    offset < start ∧ start ≤ offset + Text.byteSize cs := by
  induction cs generalizing offset with
  | nil => cases h
  | cons c cs ih =>
    have hc := c.utf8Size_pos
    have hlater : start ∈ startsFrom (offset + c.utf8Size) cs →
        offset < start ∧ start ≤ offset + (c.utf8Size + Text.byteSize cs) := by
      intro h
      have hbounds := ih h
      omega
    simp only [startsFrom] at h
    split at h
    · obtain rfl | h := List.mem_cons.mp h
      · simp only [Text.byteSize_cons]
        omega
      · exact hlater h
    · exact hlater h

theorem length_startsFrom (offset : Nat) (cs : List Char) : (startsFrom offset cs).length = cs.count '\n' := by
  induction cs generalizing offset with
  | nil => rfl
  | cons c cs ih =>
    by_cases hc : c = '\n'
    · simp [startsFrom, hc, ih]
    · simp [startsFrom, hc, ih]

/-- The lines that start at an offset or before it are those of the text before it. -/
theorem takeWhile_starts (before after : List Char) :
    (0 :: startsFrom 0 (before ++ after)).takeWhile (· ≤ Text.byteSize before) = 0 :: startsFrom 0 before := by
  have hbefore : ∀ start ∈ 0 :: startsFrom 0 before, decide (start ≤ Text.byteSize before) = true := by
    intro start hstart
    obtain rfl | hstart := List.mem_cons.mp hstart
    · simp
    · have hle := (mem_startsFrom hstart).2
      simpa using hle
  have hafter : (startsFrom (0 + Text.byteSize before) after).takeWhile (· ≤ Text.byteSize before) = [] := by
    rw [List.takeWhile_eq_nil_iff]
    intro hlength hle
    have hlt := (mem_startsFrom (List.get_mem _ ⟨0, hlength⟩)).1
    have hle := of_decide_eq_true hle
    omega
  rw [startsFrom_append, ← List.cons_append, List.takeWhile_append_of_pos hbefore, hafter, List.append_nil]

/-- The last line of a text starts behind its last newline. -/
theorem getLastD_starts (cs : List Char) :
    (0 :: startsFrom 0 cs).getLastD 0 = Text.byteSize (cs.rdropWhile (· != '\n')) := by
  induction cs using List.reverseRecOn with
  | nil => rfl
  | append_singleton cs c ih =>
    by_cases hc : c = '\n'
    · subst hc
      simp only [startsFrom_append, startsFrom, if_pos]
      rw [← List.cons_append, List.getLastD_concat, List.rdropWhile_concat_neg _ _ _ (by simp)]
      simp
    · simp only [startsFrom_append, startsFrom, if_neg hc, List.append_nil]
      rw [ih, List.rdropWhile_concat_pos _ _ _ (by simpa using hc)]

/-! ## Places -/

/-- The place of an offset between two characters: behind the newlines before it, and behind the characters of its
line. -/
theorem position_append (before after : List Char) :
    (ofText (before ++ after)).position (Text.byteSize before) =
      ⟨1 + before.count '\n', 1 + (before.rtakeWhile (· != '\n')).length, Text.byteSize before⟩ := by
  have hoffset : min (Text.byteSize before) (Text.byteSize (before ++ after)) = Text.byteSize before := by
    rw [Text.byteSize_append]
    omega
  have hslice : (ofText (before ++ after)).slice? (Text.byteSize (before.rdropWhile (· != '\n'))) (Text.byteSize before) =
      some (before.rtakeWhile (· != '\n')) := by
    have hcut := slice?_append (before.rdropWhile (· != '\n')) (before.rtakeWhile (· != '\n')) after
    rwa [← Text.byteSize_append, List.rdropWhile_append_rtakeWhile] at hcut
  have hstarts : (ofText (before ++ after)).starts.takeWhile (· ≤ Text.byteSize before) = 0 :: startsFrom 0 before :=
    takeWhile_starts before after
  have htext : (ofText (before ++ after)).text = before ++ after := rfl
  simp only [position, htext, hoffset, hstarts, getLastD_starts, hslice, List.length_cons, length_startsFrom,
    Option.map_some, Option.getD_some, Nat.add_comm 1]

/-- Behind the last newline a new line begins, even if nothing stands on it. -/
example : (ofText "é\n".toList).position 3 = ⟨2, 1, 3⟩ := by decide

/-- An offset behind the end stands for the end. -/
theorem position_of_le {cs : List Char} {offset : Nat} (h : Text.byteSize cs ≤ offset) :
    (ofText cs).position offset = (ofText cs).position (Text.byteSize cs) := by
  have hend : min offset (Text.byteSize cs) = min (Text.byteSize cs) (Text.byteSize cs) := by omega
  simp only [position, show (ofText cs).text = cs from rfl, hend]

/-- Line and column of an offset, lines first. -/
def place (lines : LineIndex) (offset : Nat) : Nat ×ₗ Nat :=
  toLex ((lines.position offset).line, (lines.position offset).column)

/-- Further on in a text stands a later place. -/
theorem place_lt {before between after : List Char} (h : between ≠ []) :
    (ofText (before ++ between ++ after)).place (Text.byteSize before) <
      (ofText (before ++ between ++ after)).place (Text.byteSize (before ++ between)) := by
  have hfirst := position_append before (between ++ after)
  rw [← List.append_assoc] at hfirst
  rw [place, place, hfirst, position_append (before ++ between) after, Prod.Lex.toLex_lt_toLex, List.count_append]
  by_cases hline : '\n' ∈ between
  · have hcount := List.count_pos_iff.mpr hline
    exact .inl (by simp only; omega)
  · have hsame : (before ++ between).rtakeWhile (· != '\n') = before.rtakeWhile (· != '\n') ++ between := by
      have hchars : ∀ c ∈ between.reverse, (c != '\n') = true := by
        intro c hc
        rw [bne_iff_ne]
        rintro rfl
        exact hline (List.mem_reverse.mp hc)
      rw [List.rtakeWhile, List.rtakeWhile, List.reverse_append, List.takeWhile_append_of_pos hchars, List.reverse_append,
        List.reverse_reverse]
    have hlength := List.length_pos_of_ne_nil h
    refine .inr ⟨by simp only [List.count_eq_zero_of_not_mem hline, Nat.add_zero], ?_⟩
    simp only [hsame, List.length_append]
    omega

/-- The places of the offsets between characters are in the order of these. -/
theorem strictMonoOn_place (cs : List Char) : StrictMonoOn (ofText cs).place {offset | Text.Boundary 0 cs offset} := by
  rintro _ ⟨before, after, rfl, rfl⟩ _ ⟨before', after', htext, rfl⟩ hlt
  simp only [Nat.zero_add] at hlt ⊢
  obtain ⟨between, rfl, rfl⟩ | ⟨between, rfl, -⟩ := List.append_eq_append_iff.mp htext
  · have hne : between ≠ [] := by
      rintro rfl
      simp at hlt
    rw [← List.append_assoc]
    exact place_lt hne
  · rw [Text.byteSize_append] at hlt
    omega

end LineIndex

/-- Every token that a lexer of a source reads carries the place of its first byte in the source. -/
theorem Lexer.Of.place_eq {source : String} {lexer : Lexer} (h : lexer.Of source) {t : Token} {place : Position}
    (hnext : lexer.next.1 = some (.token t place)) :
    place = (LineIndex.ofText source.toList).position t.span.start := by
  obtain ⟨i, -, hlocate⟩ := exists_of_next hnext
  rw [h.invariant.1] at hlocate
  cases i with
  | token t' =>
    cases hlocate
    rfl
  | error e text => cases hlocate

/-- The lines and columns of a source.  The place of an offset between two characters is behind the newlines before it
and behind the characters of its line, and an offset behind the end stands for the end.  So the places of the offsets
between characters are all different, and in the order of the offsets.  Every token that any lexer of the source reads
carries the place of its first byte. -/
theorem line_columns (source : String) :
    (∀ before after, source.toList = before ++ after →
      (LineIndex.ofText source.toList).position (Text.byteSize before) =
        ⟨1 + before.count '\n', 1 + (before.rtakeWhile (· != '\n')).length, Text.byteSize before⟩) ∧
    (∀ offset, Text.byteSize source.toList ≤ offset → (LineIndex.ofText source.toList).position offset =
      (LineIndex.ofText source.toList).position (Text.byteSize source.toList)) ∧
    Set.InjOn (LineIndex.ofText source.toList).place {offset | Text.Boundary 0 source.toList offset} ∧
    StrictMonoOn (LineIndex.ofText source.toList).place {offset | Text.Boundary 0 source.toList offset} ∧
    ∀ lexer : Lexer, lexer.Of source → ∀ t place, lexer.next.1 = some (.token t place) →
      place = (LineIndex.ofText source.toList).position t.span.start := by
  have hmono := LineIndex.strictMonoOn_place source.toList
  refine ⟨?_, fun _ => LineIndex.position_of_le, hmono.injOn, hmono, fun lexer h t place => h.place_eq⟩
  intro before after htext
  rw [htext]
  exact LineIndex.position_append before after

end Bluespec
