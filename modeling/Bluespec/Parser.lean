import Bluespec.Diagnostic

/-!
# Parsers

A **`Parser`** reads significant tokens and either yields a value or fails.  Either way it leaves a state
behind: the tokens on both sides of the cursor, the diagnostics reported so far, and the declarations
recognised so far.  What never changes during a run is its **`Setting`**.

* **`Parser.State`** — the state, with the questions that can be asked about its cursor.
* **`State.checkpoint`**, **`State.rewind`** — what is kept of a state, and the way back to it.
* **`Parser.attempt`**, **`Parser.tentatively`**, **`Parser.lookahead`** — a parser whose failure is a value;
  one that is rewound if it fails; one that is run for its answer alone.
* **`Parser.repeatUntil`**, **`Parser.separated`** — loops, bounded by the number of tokens left.
-/

namespace Bluespec

/-- How many diagnostics are collected. -/
inductive Recovery
  /-- Resume after each problem. -/
  | collectAll
  /-- Stop at the first problem. -/
  | firstError
deriving DecidableEq, Repr

/-- A declaration recognised in the source. -/
structure NodeSpan where
  /-- What was recognised. -/
  kind : NodeKind
  /-- Where. -/
  span : Span
deriving DecidableEq, Repr

/-- What stays fixed while tokens are read. -/
structure Parser.Setting where
  /-- The byte size of the source. -/
  sourceEnd : Nat
  /-- How many diagnostics are collected. -/
  recovery : Recovery

/-- What changes while tokens are read. -/
structure Parser.State where
  /-- The tokens before the cursor, the last one first. -/
  consumed : List Token
  /-- The tokens after the cursor. -/
  rest : List Token
  /-- The diagnostics reported so far, the last one first. -/
  diagnostics : List Diagnostic
  /-- The declarations recognised so far, the last one first. -/
  nodes : List NodeSpan

/-- What is kept of a state before a parser is tried. -/
structure Parser.Checkpoint where
  /-- How many tokens are before the cursor. -/
  position : Nat
  /-- How many diagnostics have been reported. -/
  diagnostics : Nat
  /-- How many declarations have been recognised. -/
  nodes : Nat

/-- A parser of values of type `α`. -/
def Parser (α : Type) : Type := Parser.Setting → Parser.State → Option α × Parser.State

namespace Parser

/-! ## The state -/

namespace State

/-- The state before anything has been read. -/
def start (tokens : List Token) : State := ⟨[], tokens, [], []⟩

/-- The kind of the token `n` places after the cursor. -/
def nth (s : State) (n : Nat) : Option Kind := (s.rest[n]?).map Token.kind

/-- The kind of the next token. -/
def peek (s : State) : Option Kind := s.rest.head?.map Token.kind

/-- Whether the next token is of the given kind. -/
def isNext (s : State) (k : Kind) : Bool := s.peek == some k

/-- Whether all tokens have been read. -/
def atEnd (s : State) : Bool := s.rest.isEmpty

/-- Whether the next token is a closing word, or there is none. -/
def atCloser (s : State) : Bool := (s.peek.map Kind.isCloser).getD true

/-- The end of the last token read. -/
def lastEnd (s : State) : Nat := (s.consumed.head?.map fun t => t.span.stop).getD 0

/-- The span of the next token, or the end of the source. -/
def peekSpan (c : Setting) (s : State) : Span :=
  (s.rest.head?.map Token.span).getD (Span.point c.sourceEnd)

/-- The span from an offset to the end of the last token read. -/
def spanFrom (s : State) (start : Nat) : Span := ⟨start, max s.lastEnd start⟩

/-- Moves the cursor past one token. -/
def step (s : State) : State :=
  match s.rest with
  | [] => s
  | t :: ts => { s with consumed := t :: s.consumed, rest := ts }

/-- Moves the cursor past `n` tokens. -/
def advance (s : State) : Nat → State
  | 0 => s
  | n + 1 => s.step.advance n

/-- All tokens, those before the cursor and those after it. -/
def tokens (s : State) : List Token := s.consumed.reverse ++ s.rest

/-- The place of the cursor, and how much has been reported and recognised. -/
def checkpoint (s : State) : Checkpoint := ⟨s.consumed.length, s.diagnostics.length, s.nodes.length⟩

/-- Moves the cursor to the place of a checkpoint, and cuts off the diagnostics and the declarations beyond
the numbers in it.  What is left of them is not looked at. -/
def rewind (s : State) (kept : Checkpoint) : State where
  consumed := (s.tokens.take kept.position).reverse
  rest := s.tokens.drop kept.position
  diagnostics := s.diagnostics.drop (s.diagnostics.length - kept.diagnostics)
  nodes := s.nodes.drop (s.nodes.length - kept.nodes)

/-- Adds a diagnostic. -/
def report (s : State) (span : Span) (problem : Problem) : State :=
  { s with diagnostics := ⟨problem, span⟩ :: s.diagnostics }

/-- Adds a declaration, unless its span is empty. -/
def record (s : State) (kind : NodeKind) (span : Span) : State :=
  if span.isEmpty then s else { s with nodes := ⟨kind, span⟩ :: s.nodes }

end State

/-! ## Values and failure -/

/-- Yields a value without reading. -/
protected def pure (a : α) : Parser α := fun _ s => (some a, s)

/-- Runs a parser and, if it yields a value, the parser that depends on it. -/
protected def bind (p : Parser α) (f : α → Parser β) : Parser β := fun c s =>
  match p c s with
  | (some a, s') => f a c s'
  | (none, s') => (none, s')

instance : Monad Parser where
  pure := Parser.pure
  bind := Parser.bind

/-- Fails without reading. -/
def fail : Parser α := fun _ s => (none, s)

/-- Runs a parser and yields nothing instead of failing. -/
def attempt (p : Parser α) : Parser (Option α) := fun c s =>
  let (r, s') := p c s
  (some r, s')

/-- Runs a parser for its answer alone, and rewinds to where it started. -/
def lookahead (p : Parser α) : Parser (Option α) := fun c s =>
  let (r, s') := p c s
  (some r, s'.rewind s.checkpoint)

/-- Runs a parser, and rewinds to where it started if it fails. -/
def tentatively (p : Parser α) : Parser (Option α) := fun c s =>
  match p c s with
  | (some a, s') => (some (some a), s')
  | (none, s') => (some none, s'.rewind s.checkpoint)

/-- Asks a question about the state. -/
def ask (f : State → α) : Parser α := fun _ s => (some (f s), s)

/-- Changes the state. -/
def modify (f : State → State) : Parser Unit := fun _ s => (some (), f s)

theorem pure_apply (a : α) (c : Setting) (s : State) : (pure a : Parser α) c s = (some a, s) := rfl

theorem bind_apply (p : Parser α) (f : α → Parser β) (c : Setting) (s : State) :
    (p >>= f) c s = match p c s with
      | (some a, s') => f a c s'
      | (none, s') => (none, s') := rfl

/-! ## Looking -/

/-- The kind of the next token. -/
def peek : Parser (Option Kind) := ask State.peek

/-- Whether the next token is of the given kind. -/
def isNext (k : Kind) : Parser Bool := ask fun s => s.isNext k

/-- The span of the next token, or the end of the source. -/
def peekSpan : Parser Span := fun c s => (some (s.peekSpan c), s)

/-- The offset of the next token, or of the end of the source. -/
def offset : Parser Nat := fun c s => (some (s.peekSpan c).start, s)

/-- The span from an offset to the end of the last token read. -/
def spanFrom (start : Nat) : Parser Span := ask fun s => s.spanFrom start

/-- Whether reading is to stop, because one diagnostic was wanted and there is one. -/
def halted : Parser Bool := fun c s =>
  (some (c.recovery == .firstError && !s.diagnostics.isEmpty), s)

/-! ## Reporting -/

/-- Reports a problem with the text of a span. -/
def report (span : Span) (problem : SyntaxProblem) : Parser Unit :=
  modify fun s => s.report span (.grammar problem)

/-- Reports an unsupported construct. -/
def reportUnsupported (span : Span) (construct : Construct) : Parser Unit :=
  modify fun s => s.report span (.unsupported construct)

/-- Reports that something else was expected at the next token. -/
def reportExpected (what : Expectation) : Parser Unit := fun c s =>
  (some (), s.report (s.peekSpan c) (.grammar (.expected what s.peek)))

/-- Reports that something else was expected at the next token, and fails. -/
def failExpected (what : Expectation) : Parser α := do
  reportExpected what
  fail

/-- Records a recognised declaration. -/
def record (kind : NodeKind) (span : Span) : Parser Unit := modify fun s => s.record kind span

/-! ## Reading single tokens -/

/-- Reads the next token, whatever it is; there is nothing to read at the end. -/
def skip : Parser Unit := modify State.step

/-- Reads a token of the given kind if it is the next one. -/
def eat (k : Kind) : Parser (Option Token) := fun _ s =>
  match s.rest with
  | t :: _ => if t.kind = k then (some (some t), s.step) else (some none, s)
  | [] => (some none, s)

/-- Whether a token of the given kind was the next one and has been read. -/
def accept (k : Kind) : Parser Bool := do return (← eat k).isSome

/-- Reads a token of the given kind, or reports that it was expected. -/
def expect (k : Kind) : Parser Token := do
  match ← eat k with
  | some t => return t
  | none => failExpected (.kind k)

/-- Reads a token of the given kind and yields its text. -/
def expectText (k : Kind) : Parser String := do return (← expect k).text

/-- Reads a fixed symbol. -/
def expectPunct (p : Punct) : Parser Unit := do let _ ← expect (.punct p)

/-- Reads a reserved word. -/
def expectKeyword (k : Keyword) : Parser Unit := do let _ ← expect (.keyword k)

/-! ## Loops -/

/-- How a round of a loop ends. -/
inductive Round (α β : Type)
  /-- Another round is to follow. -/
  | again (a : α)
  /-- The loop is over. -/
  | done (b : β)

/-- At most `limit` rounds of a loop. -/
def roundsUpTo (round : α → Parser (Round α β)) (limit : Nat) (a : α) : Parser β :=
  match limit with
  | 0 => fail
  | limit + 1 => do
    match ← round a with
    | .again a' => roundsUpTo round limit a'
    | .done b => return b

/-- Rounds of a loop until one is the last.  A round that asks for another one reads a token, so the
number of tokens left bounds the number of rounds. -/
def repeatUntil (round : α → Parser (Round α β)) (a : α) : Parser β := fun c s =>
  roundsUpTo round (s.rest.length + 1) a c s

/-- At most `limit` items with a separator between them. -/
def separatedUpTo (separator : Punct) (item : Parser α) (limit : Nat) : Parser (List α) :=
  match limit with
  | 0 => fail
  | limit + 1 => do
    let first ← item
    if ← accept (.punct separator) then
      return first :: (← separatedUpTo separator item limit)
    else return [first]

/-- One or more items with a separator between them. -/
def separated (separator : Punct) (item : Parser α) : Parser (List α) := fun c s =>
  separatedUpTo separator item (s.rest.length + 1) c s

/-- Items behind an opening symbol and before a closing one, or none at all. -/
def enclosed (close : Punct) (item : Parser α) : Parser (List α) := do
  if ← accept (.punct close) then return []
  else
    let items ← separated .comma item
    expectPunct close
    return items

end Parser

end Bluespec
