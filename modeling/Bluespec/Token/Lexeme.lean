import Bluespec.Kind
import Bluespec.Text.Pattern

/-!
# The lexical grammar

* **`Lexeme`** — the classes of text that the lexical grammar tells apart.
* **`Lexeme.rules`** — the pattern of each class, in order of priority.
* **`Lexeme.longest?`** — the class and length of the longest lexeme at the start of a text; of two
  rules that match equally far the earlier one wins.
-/

namespace Bluespec

/-- A class of text. -/
inductive Lexeme
  | whitespace
  | comment
  | unterminatedComment
  | word
  | systemWord
  | fill
  | int
  | real
  /-- A closed string with no backslash in it. -/
  | plainString
  /-- A closed string with at least one backslash in it. -/
  | escapedString
  | unterminatedString
  | symbol (p : Punct)
deriving DecidableEq, Repr

namespace Lexeme

open Pattern

/-! ## Patterns of the classes -/

/-- A decimal digit. -/
def digit : Pattern := char Char.isDigit

/-- A decimal digit or a separator. -/
def digitOrSeparator : Pattern := char fun c => c.isDigit || c == '_'

/-- A letter or an underscore. -/
def wordStart : Pattern := char fun c => c.isAlpha || c == '_'

/-- A letter, a digit, an underscore or a dollar sign. -/
def wordPart : Pattern := char fun c => c.isAlphanum || c == '_' || c == '$'

/-- Digits with separators, the first of them a digit. -/
def digits : Pattern := seq digit (star digitOrSeparator)

/-- An exponent: a marker, an optional sign, and digits or separators. -/
def exponent : Pattern :=
  sequence [oneOf "eE", optional (oneOf "+-"), plus digitOrSeparator]

/-- What may stand between the delimiters of a block comment before the last stars. -/
def commentBody : Pattern :=
  star (alt (noneOf "*") (seq (plus (oneOf "*")) (noneOf "*/")))

/-- A backslash and the character it escapes. -/
def escapePair : Pattern := seq (oneOf "\\") (noneOf "\n")

/-- A character that stands for itself in a string. -/
def stringChar : Pattern := noneOf "\"\\\n"

/-- What may stand in a string before its closing quote. -/
def stringBody : Pattern := star (alt stringChar escapePair)

/-- The rules for classes whose text varies. -/
def variableRules : List (Pattern × Lexeme) :=
  [(plus (oneOf " \t\r\n\x0c"), .whitespace),
   (sequence [text "/*", commentBody, plus (oneOf "*"), text "/"], .comment),
   (seq (text "//") (star (noneOf "\n")), .comment),
   (sequence [text "/*", commentBody, star (oneOf "*")], .unterminatedComment),
   (seq wordStart (star wordPart), .word),
   (sequence [text "$", wordStart, star wordPart], .systemWord),
   (seq (text "\x27") (oneOf "01"), .fill),
   (digits, .int),
   (sequence [star digit, text "\x27", oneOf "dDhHoObB", star (char fun c => c.isAlphanum || c == '_')],
    .int),
   (sequence [digits, text ".", plus digitOrSeparator, optional exponent], .real),
   (seq digits exponent, .real),
   (sequence [text "\"", star stringChar, text "\""], .plainString),
   (sequence [text "\"", star stringChar, escapePair, stringBody, text "\""], .escapedString),
   (sequence [text "\"", stringBody, optional (text "\\")], .unterminatedString)]

/-- The rules of the lexical grammar. -/
def rules : List (Pattern × Lexeme) :=
  variableRules ++ Punct.all.map fun p => (text p.spelling, .symbol p)

/-! ## Longest match -/

/-- Keeps the better of two matches: the longer one, or the first if they are equally long. -/
def better (best : Option (Lexeme × Nat)) (next : Lexeme) (length : Option Nat) :
    Option (Lexeme × Nat) :=
  match length, best with
  | none, best => best
  | some 0, best => best
  | some (n + 1), none => some (next, n + 1)
  | some (n + 1), some (l, m) => if m < n + 1 then some (next, n + 1) else some (l, m)

/-- The longest lexeme at the start of a text with its number of characters; never an empty one. -/
def longest? (cs : List Char) : Option (Lexeme × Nat) :=
  rules.foldl (fun best rule => better best rule.2 (rule.1.longest? cs)) none

end Lexeme

end Bluespec
