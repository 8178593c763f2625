import Bluespec.Literal
import Bluespec.Text.Cut

/-!
# Reading literals

* **`LiteralError`** — why the text of a number denotes none.
* **`IntLiteral.ofText`**, **`RealLiteral.ofText`** — the number that a text denotes.
* **`Literal.stringText`** — the text of a string literal without its quotes.
-/

namespace Bluespec

/-- Why the text of a number denotes none. -/
inductive LiteralError
  /-- The text before the base marker is no number of bits. -/
  | invalidWidth (text : String)
  /-- The character after the tick names no base. -/
  | invalidBase (marker : Char)
  /-- A part that needs digits has none. -/
  | missingDigits
  /-- A character is no digit of the base. -/
  | invalidDigit (digit : Char) (base : Base)
deriving DecidableEq, Repr

/-- What is said about an error. -/
def LiteralError.message : LiteralError → String
  | invalidWidth text => "invalid bit width `" ++ text ++ "`"
  | invalidBase marker => "invalid base marker `" ++ marker.toString ++ "`"
  | missingDigits => "literal has no digits"
  | invalidDigit digit base =>
    "digit `" ++ digit.toString ++ "` is not valid in a " ++ base.name ++ " literal"

/-- The digits of a text, with separators left out. -/
def Base.digitsOf (base : Base) (cs : List Char) : Except LiteralError (List Char) :=
  let digits := Text.without '_' cs
  if digits.isEmpty then .error .missingDigits
  else match digits.find? fun c => !isDigitOf base.radix c with
    | some c => .error (.invalidDigit c base)
    | none => .ok digits

namespace IntLiteral

/-- The number of bits written before a tick; nothing may be written there. -/
def widthOf (cs : List Char) : Except LiteralError (Option Nat) :=
  if cs.isEmpty then .ok none
  else match unsigned? (Nat.pow 2 32) cs with
    | some w => .ok (some w)
    | none => .error (.invalidWidth (String.ofList cs))

/-- The integer literal that a text denotes: digits alone, or a tick with an optional width before it
and a base marker and digits after it. -/
def ofText (text : String) : Except LiteralError IntLiteral :=
  match Text.cutAt (· == '\'') text.toList with
  | (cs, none) => do
    let digits ← Base.decimal.digitsOf cs
    return ⟨none, none, .decimal, false, String.ofList digits⟩
  | (before, some after) => do
    let width ← widthOf before
    match after with
    | [] => .error .missingDigits
    | marker :: cs =>
      match Base.ofMarker? marker with
      | none => .error (.invalidBase marker)
      | some base =>
        let digits ← base.digitsOf cs
        return ⟨width, none, base, true, String.ofList digits⟩

end IntLiteral

/-- The exponent that a text denotes. -/
def Exponent.ofText (cs : List Char) : Except LiteralError Exponent := do
  let (sign, rest) : Option Sign × List Char := match cs with
    | '-' :: rest => (some .minus, rest)
    | '+' :: rest => (some .plus, rest)
    | rest => (none, rest)
  let digits ← Base.decimal.digitsOf rest
  return ⟨sign, String.ofList digits⟩

/-- The real literal that a text denotes.  Of several faulty parts the exponent is reported before the
integer part, and that before the fraction. -/
def RealLiteral.ofText (text : String) : Except LiteralError RealLiteral := do
  let (mantissa, exponentText) := Text.cutAt (fun c => c == 'e' || c == 'E') text.toList
  let (integerText, fractionText) := Text.cutAt (· == '.') mantissa
  let exponent ← exponentText.mapM Exponent.ofText
  let integer ← Base.decimal.digitsOf integerText
  let fraction ← fractionText.mapM Base.decimal.digitsOf
  return ⟨String.ofList integer, fraction.map String.ofList, exponent⟩

/-- The text of a string literal without the quotes around it; every quote at either end is dropped. -/
def Literal.stringText (text : String) : String :=
  let inner := text.toList.dropWhile (· == '"')
  String.ofList (inner.reverse.dropWhile (· == '"')).reverse

end Bluespec
