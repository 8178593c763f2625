import Bluespec.Proofs.LongestLexemes

/-!
# What the lexers of a source read

A lexer may be started at any place of a source, read any number of items, and turn to reading blanks and comments too
at any time.  Whatever it yields next is the longest reading at its place.

* **`Lexer.Of`** — the lexers of a source.
* **`Lexer.Of.invariant`** — they know the lines of the whole source, and their items are left over from cutting what stands
  behind some place of it.
* **`Lexer.ReadsAt`** — a lexer of a source yields a reading at a place; **`Lexer.ReadsAt.longest`** — it is the longest.
-/

namespace Bluespec

/-! ## Places in a text -/

/-- A text is cut at the end of a part whose size is known. -/
theorem Text.eq_of_dropBytes?_eq_some {offset : Nat} {cs rest : List Char} (h : dropBytes? offset cs = some rest) :
    ∃ before, cs = before ++ rest ∧ offset = byteSize before := by
  induction cs generalizing offset with
  | nil =>
    cases offset with
    | zero => exact ⟨[], by simpa using h, rfl⟩
    | succ n => cases h
  | cons c cs ih =>
    cases offset with
    | zero => exact ⟨[], by simpa using h, rfl⟩
    | succ n =>
      rw [dropBytes?] at h
      split at h
      · next hc =>
        obtain ⟨before, rfl, hsize⟩ := ih h
        exact ⟨c :: before, rfl, by simp only [byteSize_cons]; omega⟩
      · cases h

/-- Two parts of a text with the same beginning and the same size are the same. -/
theorem Text.append_inj_of_byteSize {a b a' b' : List Char} (h : a ++ b = a' ++ b') (hsize : byteSize a = byteSize a') :
    a = a' ∧ b = b' := by
  have hrest : dropBytes? (byteSize a) (a ++ b) = some b := dropBytes?_append a b
  rw [h, hsize, dropBytes?_append] at hrest
  obtain rfl : b' = b := Option.some.inj hrest
  exact ⟨List.append_cancel_right h, rfl⟩

/-! ## Lexers of a source -/

namespace Lexer

/-- The lexers of a source: started at any offset, after any number of readings, with or without blanks and comments. -/
inductive Of (source : String) : Lexer → Prop
  | resumeAt (offset : Nat) : Of source (resumeAt source offset)
  | withTrivia {lexer : Lexer} (h : Of source lexer) : Of source lexer.withTrivia
  | next {lexer : Lexer} (h : Of source lexer) : Of source lexer.next.2

/-- The items left are the last ones of those that a text is cut into. -/
def Behind (source : String) (is : List Item) : Prop :=
  ∃ before rest, source.toList = before ++ rest ∧ is <:+ Item.scan (Text.byteSize before) rest

theorem behind_resumeAt (source : String) (offset : Nat) : Behind source (resumeAt source offset).pending := by
  cases hdrop : Text.dropBytes? offset source.toList with
  | none =>
    refine ⟨[], source.toList, rfl, ?_⟩
    simp [resumeAt, hdrop]
  | some rest =>
    obtain ⟨before, htext, rfl⟩ := Text.eq_of_dropBytes?_eq_some hdrop
    refine ⟨before, rest, htext, ?_⟩
    simp [resumeAt, hdrop]

/-- What is left behind a reading. -/
theorem pending_next (lexer : Lexer) : lexer.next.2.pending <:+ lexer.pending := by
  unfold next
  split
  · exact List.nil_suffix
  · next i rest hdrop =>
    have hsuffix := List.dropWhile_suffix (l := lexer.pending) fun i => i.isTrivia && !lexer.trivia
    rw [hdrop] at hsuffix
    exact (List.suffix_cons i rest).trans hsuffix

theorem lines_next (lexer : Lexer) : lexer.next.2.lines = lexer.lines := by
  unfold next
  split <;> rfl

/-- What is read next is one of the items left. -/
theorem exists_of_next {lexer : Lexer} {r : Reading} (h : lexer.next.1 = some r) :
    ∃ i ∈ lexer.pending, r = locate lexer.lines i := by
  unfold next at h
  split at h
  · cases h
  · next i rest hdrop =>
    have hsuffix := List.dropWhile_suffix (l := lexer.pending) fun i => i.isTrivia && !lexer.trivia
    rw [hdrop] at hsuffix
    exact ⟨i, hsuffix.subset List.mem_cons_self, (Option.some.inj h).symm⟩

/-- A lexer of a source knows the lines of the whole source, and reads the items behind some place of it. -/
theorem Of.invariant {source : String} {lexer : Lexer} (h : lexer.Of source) :
    lexer.lines = LineIndex.ofText source.toList ∧ Behind source lexer.pending := by
  induction h with
  | resumeAt offset => exact ⟨rfl, behind_resumeAt source offset⟩
  | withTrivia h ih => exact ih
  | @next lexer h ih =>
    obtain ⟨hlines, before, rest, htext, hpending⟩ := ih
    exact ⟨(lines_next lexer).trans hlines, before, rest, htext, (pending_next lexer).trans hpending⟩

/-! ## Readings at a place -/

/-- A lexer of the source yields a reading that starts behind `before`, where `rest` is left of the source. -/
structure ReadsAt (source : String) (before rest : List Char) (r : Reading) : Prop where
  /-- Where the source is cut. -/
  text : source.toList = before ++ rest
  /-- The reading starts there. -/
  start : r.textSpan.start = Text.byteSize before
  /-- It is what some lexer yields next. -/
  read : ∃ lexer : Lexer, lexer.Of source ∧ lexer.next.1 = some r

/-- Whatever lexer yields a reading, it is the longest at its place. -/
theorem ReadsAt.longest {source : String} {before rest : List Char} {r : Reading} (h : ReadsAt source before rest r) :
    Reading.Longest (LineIndex.ofText source.toList) (Text.byteSize before) rest r := by
  obtain ⟨lexer, hof, hnext⟩ := h.read
  obtain ⟨hlines, earlier, later, htext, hpending⟩ := hof.invariant
  obtain ⟨i, hi, rfl⟩ := exists_of_next hnext
  obtain ⟨between, behind, rfl, hstart, hlongest⟩ := @Reading.longest_of_mem_scan lexer.lines _ _ _ (hpending.subset hi)
  have hplace : Text.byteSize before = Text.byteSize (earlier ++ between) := by
    rw [Text.byteSize_append, ← hstart, ← h.start, textSpan_locate]
  have hsame : before ++ rest = (earlier ++ between) ++ behind := by
    rw [← h.text, htext, List.append_assoc]
  obtain ⟨rfl, rfl⟩ := Text.append_inj_of_byteSize hsame hplace
  rw [Text.byteSize_append, ← hlines]
  exact hlongest

end Lexer

end Bluespec
