import Bluespec.Text.Position
import Bluespec.Token
import Bluespec.Token.Lexeme

/-!
# Lexical analysis

* **`Item`** — a token or a lexical error, with the text it covers; **`Item.scan`** cuts a text into
  items, so that their texts joined together are the whole text again.
* **`Lexer`** — reads the items of a source one by one, from any offset, with or without trivia.
* **`Token.ofText`** — all tokens of a source, where text that failed is one token of kind `error`.
-/

namespace Bluespec

/-! ## Escapes -/

/-- Whether a character may follow a backslash in a string: `n t v f a`, a backslash, a quote, or the
first character of an octal or hexadecimal escape. -/
def isEscape (c : Char) : Bool :=
  "ntvfa\\\"x01234567".toList.contains c

/-- The first unknown escape of a string literal that begins at `offset`, with the offset of its
backslash. -/
def badEscape? (offset : Nat) : List Char → Option (Char × Nat)
  | '\\' :: c :: cs =>
    if isEscape c then badEscape? (offset + 1 + c.utf8Size) cs else some (c, offset)
  | c :: cs => badEscape? (offset + c.utf8Size) cs
  | [] => none

/-! ## Items -/

/-- A token, or text that is none. -/
inductive Item
  | token (t : Token)
  | error (e : LexicalError) (text : String)
deriving DecidableEq, Repr

namespace Item

/-- The text an item covers. -/
def text : Item → String
  | token t => t.text
  | error _ text => text

/-- Where the text of an item stands. -/
def textSpan : Item → Span
  | token t => t.span
  | error e _ => e.textSpan

/-- Whether the item is a blank or a comment. -/
def isTrivia : Item → Bool
  | token t => t.kind.isTrivia
  | error _ _ => false

/-- The item as a token, where an error is a token of kind `error`. -/
def toToken : Item → Token
  | token t => t
  | error e text => ⟨.error, text, e.textSpan⟩

/-- The lexical error of an item, if it is one. -/
def error? : Item → Option LexicalError
  | token _ => none
  | error e _ => some e

/-- The item for a lexeme with the given characters at `offset`. -/
def ofLexeme (lexeme : Lexeme) (offset : Nat) (cs : List Char) : Item :=
  let text := String.ofList cs
  let span : Span := ⟨offset, offset + Text.byteSize cs⟩
  let plain (k : Kind) : Item := .token ⟨k, text, span⟩
  match lexeme with
  | .whitespace => plain .whitespace
  | .comment => plain .comment
  | .unterminatedComment => .error (.unterminatedComment span) text
  | .word => plain (Kind.ofWord text)
  | .systemWord => plain .systemIdent
  | .fill => plain .fill
  | .int => plain .int
  | .real => plain .real
  | .plainString => plain .string
  | .escapedString =>
    match badEscape? offset cs with
    | none => plain .string
    | some (c, start) => .error (.invalidEscape c ⟨start, start + 1 + c.utf8Size⟩ span) text
  | .unterminatedString => .error (.unterminatedString span) text
  | .symbol p => plain (.punct p)

/-- The item for a character that starts no lexeme. -/
def ofCharacter (c : Char) (offset : Nat) : Item :=
  .error (.invalidCharacter c ⟨offset, offset + c.utf8Size⟩) (String.ofList [c])

/-- Cuts a text that stands at `offset` into at most `limit` items. -/
def scanUpTo (limit offset : Nat) (cs : List Char) : List Item :=
  match limit, cs with
  | 0, _ => []
  | _, [] => []
  | limit + 1, c :: cs =>
    match Lexeme.longest? (c :: cs) with
    | some (lexeme, n) =>
      let taken := (c :: cs).take n
      ofLexeme lexeme offset taken ::
        scanUpTo limit (offset + Text.byteSize taken) ((c :: cs).drop n)
    | none => ofCharacter c offset :: scanUpTo limit (offset + c.utf8Size) cs

/-- Cuts a text that stands at `offset` into items. -/
def scan (offset : Nat) (cs : List Char) : List Item := scanUpTo cs.length offset cs

end Item

/-! ## Reading item by item -/

/-- A token with its place in lines, or a lexical error. -/
inductive Reading
  | token (t : Token) (place : Position)
  | error (e : LexicalError)
deriving DecidableEq, Repr

/-- Reads the items of a source in order. -/
structure Lexer where
  /-- The lines of the whole source. -/
  lines : LineIndex
  /-- The items not read yet. -/
  pending : List Item
  /-- Whether blanks and comments are read too. -/
  trivia : Bool

namespace Lexer

/-- Starts reading at a byte offset of the source.  At an offset that stands between no two characters
there is nothing to read. -/
def resumeAt (source : String) (offset : Nat) : Lexer where
  lines := LineIndex.ofText source.toList
  pending := ((Text.dropBytes? offset source.toList).map (Item.scan offset)).getD []
  trivia := false

/-- Starts reading at the beginning of the source. -/
def ofSource (source : String) : Lexer := resumeAt source 0

/-- Reads blanks and comments too from here on. -/
def withTrivia (lexer : Lexer) : Lexer := { lexer with trivia := true }

/-- An item with its place. -/
def locate (lines : LineIndex) : Item → Reading
  | .token t => .token t (lines.position t.span.start)
  | .error e _ => .error e

/-- Reads one item, or nothing at the end of the source. -/
def next (lexer : Lexer) : Option Reading × Lexer :=
  match lexer.pending.dropWhile fun i => i.isTrivia && !lexer.trivia with
  | [] => (none, { lexer with pending := [] })
  | i :: rest => (some (locate lexer.lines i), { lexer with pending := rest })

/-- Everything left to read. -/
def toList (lexer : Lexer) : List Reading :=
  (lexer.pending.filter fun i => !i.isTrivia || lexer.trivia).map (locate lexer.lines)

end Lexer

/-! ## Whole sources -/

namespace Token

/-- All tokens of a source, blanks, comments and failed text included. -/
def ofText (source : String) : List Token := (Item.scan 0 source.toList).map Item.toToken

/-- The tokens that the grammar reads: neither trivia nor failed text. -/
def isSignificant (t : Token) : Bool := !t.kind.isTrivia && t.kind != .error

/-- The tokens of a source without blanks and comments. -/
def ofTextWithoutTrivia (source : String) : List Token :=
  (ofText source).filter fun t => !t.kind.isTrivia

end Token

/-- The lexical errors of a source, in order. -/
def LexicalError.ofText (source : String) : List LexicalError :=
  (Item.scan 0 source.toList).filterMap Item.error?

end Bluespec
