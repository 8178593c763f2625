import Bluespec.Span

/-!
# Outlines

An **`Outline`** shows a value with the names of its parts, one part a line; **`Outline.render`** writes it
out with an indent of four blanks a level and a comma after every part.
-/

namespace Bluespec

/-- A value with named parts. -/
inductive Outline
  /-- A value on one line. -/
  | atom (text : String)
  /-- Values in square brackets. -/
  | list (items : List Outline)
  /-- A name with values. -/
  | tuple (name : String) (items : List Outline)
  /-- A name with named values. -/
  | record (name : String) (fields : List (String × Outline))

namespace Outline

/-! ## Building outlines -/

/-- A number. -/
def nat (n : Nat) : Outline := atom n.repr

/-- A truth value. -/
def bool (b : Bool) : Outline := atom (if b then "true" else "false")

/-- A range of bytes. -/
def span (s : Span) : Outline := atom (s.start.repr ++ ".." ++ s.stop.repr)

/-- A value that may be missing. -/
def option (f : α → Outline) : Option α → Outline
  | none => atom "None"
  | some a => tuple "Some" [f a]

/-- The hexadecimal digits of a character's number, with no leading zero. -/
def controlDigits (c : Char) : String :=
  String.ofList (Nat.toDigits 16 c.toNat)

/-- How a character is written between quotes: quotes, backslashes and the control characters of ASCII are
escaped, and every other character stands for itself. -/
def quoteChar (c : Char) : String :=
  if c = '"' then "\\\""
  else if c = '\\' then "\\\\"
  else if c = '\n' then "\\n"
  else if c = '\t' then "\\t"
  else if c = '\r' then "\\r"
  else if c = '\x00' then "\\0"
  else if c < ' ' ∨ c = '\x7f' then "\\u\x7b" ++ controlDigits c ++ "\x7d"
  else c.toString

/-- A text between quotes. -/
def quoted (text : String) : Outline :=
  atom ("\"" ++ String.join (text.toList.map quoteChar) ++ "\"")

/-! ## Writing outlines -/

/-- Lines one level further in, the last of them with a comma. -/
def entry : List String → List String
  | [] => []
  | [line] => ["    " ++ line ++ ","]
  | line :: lines => ("    " ++ line) :: entry lines

/-- Lines with a text before the first of them. -/
def headed (head : String) : List String → List String
  | [] => []
  | line :: lines => (head ++ line) :: lines

mutual

/-- The lines of an outline. -/
def lines : Outline → List String
  | atom text => [text]
  | list [] => ["[]"]
  | list (item :: items) => "[" :: entry item.lines ++ entries items ++ ["]"]
  | tuple name items => (name ++ "(") :: entries items ++ [")"]
  | record name fields => (name ++ " \x7b") :: fieldEntries fields ++ ["\x7d"]

/-- The lines of several values. -/
def entries : List Outline → List String
  | [] => []
  | item :: items => entry item.lines ++ entries items

/-- The lines of several named values. -/
def fieldEntries : List (String × Outline) → List String
  | [] => []
  | (label, value) :: fields => entry (headed (label ++ ": ") value.lines) ++ fieldEntries fields

end

/-- The text of an outline. -/
def render (o : Outline) : String := "\n".intercalate o.lines

end Outline

end Bluespec
