import Bluespec.Kind
import Bluespec.Span

/-!
# Tokens and lexical errors

* **`Token`** — a kind, the text it was read from, and where that text stands.
* **`LexicalError`** — text that is no token.  `LexicalError.span` is the place it is reported at and
  `LexicalError.textSpan` all of the text that was given up; they differ for a bad escape only, where
  the whole string literal is given up.
-/

namespace Bluespec

/-- A token of the source. -/
structure Token where
  /-- What the token is. -/
  kind : Kind
  /-- The text it was read from. -/
  text : String
  /-- Where that text stands. -/
  span : Span
deriving DecidableEq, Repr

/-- Text that is no token. -/
inductive LexicalError
  /-- A character that starts no token. -/
  | invalidCharacter (c : Char) (span : Span)
  /-- A string literal with no closing quote on its line. -/
  | unterminatedString (span : Span)
  /-- A string literal with an unknown escape; `span` covers the backslash and the character after it. -/
  | invalidEscape (escape : Char) (span literal : Span)
  /-- A block comment that is not closed. -/
  | unterminatedComment (span : Span)
deriving DecidableEq, Repr

namespace LexicalError

/-- The place an error is reported at. -/
def span : LexicalError → Span
  | invalidCharacter _ s | unterminatedString s | invalidEscape _ s _ | unterminatedComment s => s

/-- All of the text that was given up. -/
def textSpan : LexicalError → Span
  | invalidEscape _ _ literal => literal
  | e => e.span

/-- What is said about an error. -/
def message : LexicalError → String
  | invalidCharacter c _ => "invalid character `" ++ c.toString ++ "`"
  | unterminatedString _ => "unterminated string literal"
  | invalidEscape c _ _ => "invalid escape `\\" ++ c.toString ++ "` in string literal"
  | unterminatedComment _ => "unterminated block comment"

end LexicalError

end Bluespec
