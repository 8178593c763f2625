/-!
# Digits

* **`digitValue?`** — the value of a digit, up to sixteen of them.
* **`positionalValue`** — the number that a row of digits denotes in a base.
* **`unsigned?`** — an unsigned decimal number below a limit, with an optional plus sign.
-/

namespace Bluespec

/-- The value of a digit; letters of either case stand for ten to fifteen. -/
def digitValue? (c : Char) : Option Nat :=
  if '0' ≤ c ∧ c ≤ '9' then some (c.toNat - '0'.toNat)
  else if 'a' ≤ c ∧ c ≤ 'f' then some (c.toNat - 'a'.toNat + 10)
  else if 'A' ≤ c ∧ c ≤ 'F' then some (c.toNat - 'A'.toNat + 10)
  else none

/-- Whether a character is a digit of the base. -/
def isDigitOf (radix : Nat) (c : Char) : Bool :=
  match digitValue? c with
  | some v => v < radix
  | none => false

/-- The number that digits denote when they follow the number `value`. -/
def positionalFrom (radix : Nat) : Nat → List Char → Nat
  | value, [] => value
  | value, c :: cs => positionalFrom radix (value * radix + (digitValue? c).getD 0) cs

/-- The number that a row of digits denotes. -/
def positionalValue (radix : Nat) (cs : List Char) : Nat := positionalFrom radix 0 cs

/-- An unsigned decimal number below `limit`. -/
def unsigned? (limit : Nat) (cs : List Char) : Option Nat :=
  let digits := match cs with
    | '+' :: ds => ds
    | ds => ds
  if !digits.isEmpty && digits.all (isDigitOf 10) && positionalValue 10 digits < limit then
    some (positionalValue 10 digits)
  else none

end Bluespec
