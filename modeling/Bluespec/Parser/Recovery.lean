import Bluespec.Parser
import Bluespec.Parser.Extent
import Bluespec.Tree.Basic

/-!
# Skipping and resuming

* **`Parser.skipBalanced`**, **`Parser.skipThrough`**, **`Parser.skipStatement`** — step over text that is
  not read in detail.
* **`Parser.label`**, **`Parser.skipAttributes`** — what may follow a block's words and precede a
  statement.
* **`Parser.resumeFrom`** — finds the next place to read on after a problem.
* **`Parser.items`** — reads items up to a closing word and resumes after each one that failed.
* **`Parser.abandon`** — steps over a definition with a broken header.
-/

namespace Bluespec.Parser

/-! ## Stepping over text -/

/-- Steps over the tokens that an extent counts. -/
def skipExtent (extent : List Token → Nat) : Parser Unit :=
  modify fun s => s.advance (extent s.rest)

/-- Steps over a bracketed group, or over a single token. -/
def skipBalanced : Parser Unit := skipExtent (Extent.balanced 0)

/-- Steps over a group in parentheses if one comes next. -/
def skipParenthesized : Parser Unit := do
  if ← isNext (.punct .lparen) then skipBalanced

/-- Steps over everything from an opening word to the closing word that matches it. -/
def skipThrough (opening closing : Keyword) : Parser Unit :=
  skipExtent (Extent.through opening closing 0)

/-- Steps over everything through the next semicolon outside brackets. -/
def skipStatement : Parser Unit := skipExtent (Extent.statement 0)

/-! ## Labels and attributes -/

/-- Reads an optional label.  A colon with no name after it is reported. -/
def label : Parser (Option Label) := do
  if ← accept (.punct .colon) then
    match ← eat .ident with
    | some t => return some ⟨t.text, t.span⟩
    | none =>
      match ← eat .typeIdent with
      | some t => return some ⟨t.text, t.span⟩
      | none =>
        reportExpected .label
        return none
  else return none

/-- Steps over attribute instances and reports each of them. -/
def skipAttributes : Parser Unit :=
  repeatUntil (fun _ => do
    if ← isNext (.punct .attrOpen) then
      let start ← offset
      skipBalanced
      reportUnsupported (← spanFrom start) .attributeInstance
      return .again ()
    else return .done ()) ()

/-! ## Resuming -/

/-- The state in which reading resumes after a failure that began before `before`.  Nothing is skipped
when the failure left the cursor after the end of a statement or block. -/
def resumeState (before after : State) : State :=
  if after.rest.length = before.rest.length ∨ !endsAtBoundary after.consumed then
    after.advance (Extent.recovery true 0 after.rest)
  else after

/-- Runs a parser and, if it fails, skips to the place where reading resumes. -/
def resuming (p : Parser α) : Parser (Option α) := fun c s =>
  match p c s with
  | (some a, s') => (some (some a), s')
  | (none, s') => (some none, resumeState s s')

/-- At most `limit` items up to a closing word, those that failed left out. -/
def itemsUpTo (item : Parser α) (limit : Nat) : Parser (List α) :=
  match limit with
  | 0 => fail
  | limit + 1 => do
    if (← ask State.atCloser) || (← halted) then return []
    else
      let first ← resuming item
      let others ← itemsUpTo item limit
      return first.toList ++ others

/-- Items up to a closing word or the end, those that failed left out. -/
def items (item : Parser α) : Parser (List α) := fun c s =>
  itemsUpTo item (s.rest.length + 1) c s

/-- Steps over the rest of a definition with a broken header, its closing word and label included. -/
def abandon (closing : Keyword) : Parser Unit := do
  skipExtent (Extent.definition closing 0)
  if ← accept (.keyword closing) then
    let _ ← label

/-- Runs the parser of a header, and steps over the definition if it fails. -/
def header (closing : Keyword) (p : Parser α) : Parser α := do
  match ← attempt p with
  | some a => return a
  | none =>
    abandon closing
    fail

end Bluespec.Parser
