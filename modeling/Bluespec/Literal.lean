import Bluespec.Number.Binary64
import Bluespec.Number.Digits

/-!
# Literals

* **`Base`**, **`Sign`** — the parts of a number's text.
* **`IntLiteral`**, **`RealLiteral`** — numbers as written; `value?` is the number of an integer literal and
  `RealLiteral.bits` the double nearest to a real one.
* **`Literal`** — any literal of the language, and `Literal.render`, its text.
-/

namespace Bluespec

/-! ## Parts of numbers -/

/-- The base of an integer literal. -/
inductive Base
  | decimal | hexadecimal | octal | binary
deriving DecidableEq, Repr

namespace Base

/-- The base that a marker letter stands for. -/
def ofMarker? : Char → Option Base
  | 'd' | 'D' => some decimal
  | 'h' | 'H' => some hexadecimal
  | 'o' | 'O' => some octal
  | 'b' | 'B' => some binary
  | _ => none

/-- The number of digits of a base. -/
def radix : Base → Nat
  | decimal => 10
  | hexadecimal => 16
  | octal => 8
  | binary => 2

/-- The marker letter that stands for a base. -/
def marker : Base → Char
  | decimal => 'd'
  | hexadecimal => 'h'
  | octal => 'o'
  | binary => 'b'

/-- The name of a base. -/
def name : Base → String
  | decimal => "decimal"
  | hexadecimal => "hexadecimal"
  | octal => "octal"
  | binary => "binary"

/-- A base is named by its own marker. -/
theorem ofMarker?_marker (b : Base) : ofMarker? b.marker = some b := by cases b <;> rfl

end Base

/-- A written sign. -/
inductive Sign
  | plus | minus
deriving DecidableEq, Repr

/-- The text of a sign. -/
def Sign.text : Sign → String
  | plus => "+"
  | minus => "-"

/-! ## Integers -/

/-- An integer literal; its digits hold no separators. -/
structure IntLiteral where
  /-- Number of bits, if written. -/
  width : Option Nat
  /-- A sign that was folded into the literal. -/
  sign : Option Sign
  /-- The base of the digits. -/
  base : Base
  /-- Whether the base was written. -/
  explicitBase : Bool
  /-- The digits. -/
  digits : String
deriving DecidableEq, Repr

namespace IntLiteral

/-- The magnitude, if it fits into one hundred and twenty-eight bits. -/
def value? (lit : IntLiteral) : Option Nat :=
  let v := positionalValue lit.base.radix lit.digits.toList
  if v < Nat.pow 2 128 then some v else none

/-- The literal as source text. -/
def render (lit : IntLiteral) : String :=
  let sign := (lit.sign.map Sign.text).getD ""
  let width := (lit.width.map Nat.repr).getD ""
  if lit.explicitBase || lit.width.isSome then
    sign ++ width ++ "'" ++ lit.base.marker.toString ++ lit.digits
  else sign ++ lit.digits

end IntLiteral

/-! ## Reals -/

/-- The exponent of a real literal. -/
structure Exponent where
  /-- The sign, if written. -/
  sign : Option Sign
  /-- The digits. -/
  digits : String
deriving DecidableEq, Repr

/-- A real literal; no part holds separators. -/
structure RealLiteral where
  /-- The digits before the point. -/
  integer : String
  /-- The digits after the point, if there is one. -/
  fraction : Option String
  /-- The exponent, if there is one. -/
  exponent : Option Exponent
deriving DecidableEq, Repr

/-- The power of ten of an exponent. -/
def Exponent.power (e : Exponent) : Int :=
  let n := positionalValue 10 e.digits.toList
  if e.sign = some .minus then -(n : Int) else n

namespace RealLiteral

/-- The bits of the double nearest to the literal. -/
def bits (lit : RealLiteral) : Nat :=
  let fraction := (lit.fraction.getD "").toList
  let digits := lit.integer.toList ++ fraction
  let power := (lit.exponent.map Exponent.power).getD 0
  Binary64.ofDecimal (positionalValue 10 digits) digits.length (power - fraction.length)

/-- The literal as source text; a plus sign of the exponent is left out. -/
def render (lit : RealLiteral) : String :=
  let fraction := (lit.fraction.map ("." ++ ·)).getD ""
  let exponent := match lit.exponent with
    | none => ""
    | some e => (if e.sign = some .minus then "e-" else "e") ++ e.digits
  lit.integer ++ fraction ++ exponent

end RealLiteral

/-! ## All literals -/

/-- A literal of the language. -/
inductive Literal
  | int (lit : IntLiteral)
  /-- Every bit of the target is `bit`. -/
  | fill (bit : Bool)
  | real (lit : RealLiteral)
  /-- The text between the quotes, as written. -/
  | string (text : String)
deriving DecidableEq, Repr

/-- The literal as source text. -/
def Literal.render : Literal → String
  | int lit => lit.render
  | fill bit => if bit then "'1" else "'0"
  | real lit => lit.render
  | string text => "\"" ++ text ++ "\""

end Bluespec
