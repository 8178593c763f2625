import Bluespec.Text.Bytes

/-!
# Lines and columns

A **`LineIndex`** keeps the offsets at which the lines of a text start.  **`LineIndex.position`** turns a
byte offset into a **`Position`**: lines and columns start at one, a column counts characters, and only
the newline character ends a line.
-/

namespace Bluespec

/-- A place in the source, for people. -/
structure Position where
  /-- Line number, from one. -/
  line : Nat
  /-- Character number within the line, from one. -/
  column : Nat
  /-- Byte offset. -/
  offset : Nat
deriving DecidableEq, Repr

/-- A text with the offsets at which its lines start. -/
structure LineIndex where
  /-- The text itself. -/
  text : List Char
  /-- Offsets of the first byte of each line, in increasing order. -/
  starts : List Nat

namespace LineIndex

/-- Offsets just after each newline of a text that begins at `offset`. -/
def startsFrom (offset : Nat) : List Char → List Nat
  | [] => []
  | c :: cs =>
    let next := offset + c.utf8Size
    if c = '\n' then next :: startsFrom next cs else startsFrom next cs

/-- The index of a text; its first line starts at offset zero. -/
def ofText (text : List Char) : LineIndex := ⟨text, 0 :: startsFrom 0 text⟩

/-- The characters between two offsets, if both stand between characters. -/
def slice? (lines : LineIndex) (start stop : Nat) : Option (List Char) :=
  (Text.dropBytes? start lines.text).bind (Text.takeBytes? (stop - start))

theorem slice?_append (pre mid post : List Char) :
    (ofText (pre ++ mid ++ post)).slice? (Text.byteSize pre) (Text.byteSize pre + Text.byteSize mid) =
      some mid := by
  rw [slice?, ofText, List.append_assoc, Text.dropBytes?_append, Nat.add_sub_cancel_left]
  exact Text.takeBytes?_append mid post

/-- The place of a byte offset.  An offset past the end stands for the end, and an offset inside a
character is given the first column. -/
def position (lines : LineIndex) (offset : Nat) : Position :=
  let offset := min offset (Text.byteSize lines.text)
  let passed := lines.starts.takeWhile (· ≤ offset)
  let column := ((lines.slice? (passed.getLastD 0) offset).map List.length).getD 0
  ⟨passed.length, column + 1, offset⟩

end LineIndex

end Bluespec
