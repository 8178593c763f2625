/-!
# Text patterns

Regular expressions over characters, as data.

* **`Pattern.Matches`** — the language of a pattern.
* **`Pattern.nullable`**, **`Pattern.step`** — whether a pattern matches the empty text, and what is left
  of it after one character.
* **`Pattern.longest?`** — the length of the longest prefix of a text that a pattern matches.
-/

namespace Bluespec

/-- A regular expression over characters. -/
inductive Pattern
  /-- Matches no text. -/
  | nothing
  /-- Matches the empty text. -/
  | blank
  /-- Matches one character of a class. -/
  | char (p : Char → Bool)
  /-- One pattern after another. -/
  | seq (a b : Pattern)
  /-- Either of two patterns. -/
  | alt (a b : Pattern)
  /-- Any number of repetitions. -/
  | star (a : Pattern)

namespace Pattern

/-- The language of a pattern. -/
inductive Matches : Pattern → List Char → Prop
  | blank : Matches blank []
  | char {p : Char → Bool} {c : Char} (h : p c = true) : Matches (char p) [c]
  | seq {a b : Pattern} {s t : List Char} (ha : Matches a s) (hb : Matches b t) :
      Matches (seq a b) (s ++ t)
  | left {a b : Pattern} {s : List Char} (h : Matches a s) : Matches (alt a b) s
  | right {a b : Pattern} {s : List Char} (h : Matches b s) : Matches (alt a b) s
  | stop {a : Pattern} : Matches (star a) []
  | more {a : Pattern} {s t : List Char} (ha : Matches a s) (hs : Matches (star a) t) :
      Matches (star a) (s ++ t)

/-! ## Building patterns -/

/-- Exactly the given text. -/
def word : List Char → Pattern
  | [] => blank
  | [c] => char (· == c)
  | c :: cs => seq (char (· == c)) (word cs)

/-- Exactly the characters of a string. -/
def text (s : String) : Pattern := word s.toList

/-- One character of a string. -/
def oneOf (s : String) : Pattern := char fun c => s.toList.contains c

/-- One character that is not in a string. -/
def noneOf (s : String) : Pattern := char fun c => !s.toList.contains c

/-- One or more repetitions. -/
def plus (a : Pattern) : Pattern := seq a (star a)

/-- At most one occurrence. -/
def optional (a : Pattern) : Pattern := alt a blank

/-- Several patterns one after another. -/
def sequence : List Pattern → Pattern
  | [] => blank
  | [a] => a
  | a :: as => seq a (sequence as)

/-! ## Matching -/

/-- Whether the pattern matches the empty text. -/
def nullable : Pattern → Bool
  | nothing => false
  | blank => true
  | char _ => false
  | seq a b => a.nullable && b.nullable
  | alt a b => a.nullable || b.nullable
  | star _ => true

/-- Sequence that drops a part which matches nothing, or nothing but the empty text. -/
def andThen : Pattern → Pattern → Pattern
  | nothing, _ => nothing
  | blank, b => b
  | _, nothing => nothing
  | a, b => seq a b

/-- Choice that drops a part which matches nothing. -/
def orElse : Pattern → Pattern → Pattern
  | nothing, b => b
  | a, nothing => a
  | a, b => alt a b

/-- What is left to match after the character `c`. -/
def step (c : Char) : Pattern → Pattern
  | nothing => nothing
  | blank => nothing
  | char p => if p c then blank else nothing
  | seq a b =>
    if a.nullable then ((a.step c).andThen b).orElse (b.step c) else (a.step c).andThen b
  | alt a b => (a.step c).orElse (b.step c)
  | star a => (a.step c).andThen (star a)

/-- Whether the pattern is the one that matches nothing. -/
def isNothing : Pattern → Bool
  | nothing => true
  | _ => false

/-- Reads on for as long as a match is possible; `best` is the longest match seen so far and `taken` the
number of characters read. -/
def longestFrom (a : Pattern) (taken : Nat) (best : Option Nat) : List Char → Option Nat
  | [] => if a.nullable then some taken else best
  | c :: cs =>
    let best := if a.nullable then some taken else best
    let rest := a.step c
    if rest.isNothing then best else longestFrom rest (taken + 1) best cs

/-- The number of characters in the longest prefix that the pattern matches. -/
def longest? (a : Pattern) (cs : List Char) : Option Nat := a.longestFrom 0 none cs

end Pattern

end Bluespec
