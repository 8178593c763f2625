import Bluespec.Token

/-!
# How far to skip

Text that is not read in detail is skipped by counting tokens.  Each function looks at the tokens after
the cursor and tells how many of them belong to the part to skip.

* **`Extent.balanced`** — a bracketed group.
* **`Extent.through`** — from an opening word to the closing word that matches it.
* **`Extent.statement`** — through the next semicolon outside brackets.
* **`Extent.recovery`** — to the place where reading resumes after a problem.
* **`Extent.nameList`** — an export or import list.
* **`Extent.definition`** — the rest of a definition with a broken header.
* **`afterActionBlock`**, **`endsAtBoundary`** — what follows an action block; whether tokens end a
  statement.
-/

namespace Bluespec

/-- Whether a token opens a bracketed group. -/
def Kind.isOpening : Kind → Bool
  | .punct .lparen | .punct .lbracket | .punct .lbrace => true
  | _ => false

/-- Whether a token closes a bracketed group. -/
def Kind.isClosing : Kind → Bool
  | .punct .rparen | .punct .rbracket | .punct .rbrace => true
  | _ => false

/-- Whether a token is the first word of a definition. -/
def Kind.startsDefinition : Kind → Bool
  | .keyword .rule | .keyword .method | .keyword .function | .keyword .module
  | .keyword .interface => true
  | _ => false

namespace Extent

/-- The number of tokens of a bracketed group, `depth` levels inside it.  Attribute instances count as
brackets.  A token outside any bracket is a group of its own. -/
def balanced (depth : Nat) : List Token → Nat
  | [] => 0
  | t :: ts =>
    if t.kind.isOpening || t.kind == .punct .attrOpen then balanced (depth + 1) ts + 1
    else if t.kind.isClosing || t.kind == .punct .attrClose then
      if depth - 1 = 0 then 1 else balanced (depth - 1) ts + 1
    else if depth = 0 then 1
    else balanced depth ts + 1

/-- The number of tokens through the closing word that matches the first opening word, `depth` levels
inside it. -/
def through (opening closing : Keyword) (depth : Nat) : List Token → Nat
  | [] => 0
  | t :: ts =>
    if t.kind = .keyword opening then through opening closing (depth + 1) ts + 1
    else if t.kind = .keyword closing then
      if depth - 1 = 0 then 1 else through opening closing (depth - 1) ts + 1
    else through opening closing depth ts + 1

/-- The bracket depth after a token. -/
def depthAfter (depth : Nat) (k : Kind) : Nat :=
  if k.isOpening then depth + 1 else if k.isClosing then depth - 1 else depth

/-- The number of tokens through the next semicolon outside brackets. -/
def statement (depth : Nat) : List Token → Nat
  | [] => 0
  | t :: ts =>
    if t.kind = .punct .semi ∧ depth = 0 then 1 else statement (depthAfter depth t.kind) ts + 1

/-- The number of tokens to the place where reading resumes: after a semicolon outside brackets, or
before a closing word or a definition.  A definition that stands first is no such place. -/
def recovery (first : Bool) (depth : Nat) : List Token → Nat
  | [] => 0
  | t :: ts =>
    if depth = 0 ∧ (t.kind.isCloser ∨ (first = false ∧ t.kind.startsDefinition)) then 0
    else if t.kind = .punct .semi ∧ depth = 0 then 1
    else recovery false (depthAfter depth t.kind) ts + 1

/-- The number of tokens up to the end of a list: through a semicolon, or before a reserved word. -/
def listTail : List Token → Nat
  | [] => 0
  | t :: ts =>
    if t.kind.isKeyword then 0
    else if t.kind = .punct .semi then 1
    else listTail ts + 1

/-- The number of tokens of a list, its first word included. -/
def nameList : List Token → Nat
  | [] => 0
  | t :: ts => if t.kind = .punct .semi then 1 else listTail ts + 1

/-- Whether a word starts a definition that cannot stand in the body that another word closes. -/
def endsBody (closing : Keyword) (k : Kind) : Bool :=
  match closing with
  | .endrule | .endmethod | .endfunction => k == .keyword .rule || k == .keyword .method
  | .endinterface => k == .keyword .rule
  | _ => false

/-- Whether a token outside nested interfaces ends the rest of a broken definition. -/
def endsDefinition (closing : Keyword) (k : Kind) : Bool :=
  k == .keyword closing || k == .keyword .endmodule || k == .keyword .endinterface ||
    k == .keyword .endpackage || endsBody closing k

/-- The number of interfaces around the tokens after a token; interfaces do not nest in an interface
that is itself skipped. -/
def interfacesAfter (closing : Keyword) (nested : Nat) (k : Kind) : Nat :=
  if k = .keyword .interface ∧ closing ≠ .endinterface then nested + 1
  else if k = .keyword .endinterface then nested - 1
  else nested

/-- The number of tokens before the end of a definition with a broken header: before its closing word,
the closing word of an enclosing definition, or a definition that cannot stand in its body.  Interfaces
inside it are stepped over whole. -/
def definition (closing : Keyword) (nested : Nat) : List Token → Nat
  | [] => 0
  | t :: ts =>
    if nested = 0 ∧ endsDefinition closing t.kind then 0
    else definition closing (interfacesAfter closing nested t.kind) ts + 1

end Extent

/-! ## Looking past tokens -/

/-- The tokens after the closing word of the action block that is open `depth` times. -/
def afterActionWords (depth : Nat) : List Token → List Token
  | [] => []
  | t :: ts =>
    if t.kind = .keyword .action ∨ t.kind = .keyword .actionvalue then
      afterActionWords (depth + 1) ts
    else if t.kind = .keyword .endaction ∨ t.kind = .keyword .endactionvalue then
      if depth - 1 = 0 then ts else afterActionWords (depth - 1) ts
    else afterActionWords depth ts

/-- The tokens after an optional closing label. -/
def afterLabel : List Token → List Token
  | [] => []
  | t :: ts => if t.kind = .punct .colon then ts.drop 1 else t :: ts

/-- The tokens after an optional semicolon. -/
def afterSemicolon : List Token → List Token
  | [] => []
  | t :: ts => if t.kind = .punct .semi then ts else t :: ts

/-- The kind of the token that follows the action block at the start, with its label and an optional
semicolon. -/
def afterActionBlock (tokens : List Token) : Option Kind :=
  (afterSemicolon (afterLabel (afterActionWords 0 tokens))).head?.map Token.kind

/-- Whether tokens, the last one first, end a statement or a block.  A closing word keeps its label. -/
def endsAtBoundary : List Token → Bool
  | [] => false
  | last :: before =>
    match before with
    | colon :: closing :: _ =>
      if colon.kind = .punct .colon ∧ (last.kind = .ident ∨ last.kind = .typeIdent) then
        closing.kind.isCloser
      else last.kind == .punct .semi || last.kind.isCloser
    | _ => last.kind == .punct .semi || last.kind.isCloser

end Bluespec
