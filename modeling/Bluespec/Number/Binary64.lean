/-!
# The nearest double

Double precision numbers are handled as their sixty-four bits, read as one natural number; for numbers
that are not negative the order of the bits is the order of the numbers.

* **`roundQuotient`** — the integer nearest to a quotient; of two equally near the even one.
* **`Binary64.ofRatio`** — the bits of the double nearest to a quotient.
* **`Binary64.ofDecimal`** — the same for a decimal number.
-/

namespace Bluespec

/-- The integer nearest to `num / den`; of two equally near the even one. -/
def roundQuotient (num den : Nat) : Nat :=
  let q := num / den
  let r := num % den
  if den < 2 * r ∨ (2 * r = den ∧ q % 2 = 1) then q + 1 else q

namespace Binary64

/-- The bits of positive infinity. -/
def infinity : Nat := 2047 * Nat.pow 2 52

/-- The exponent of the largest power of two that is not above `num / den`. -/
def floorLog (num den : Nat) : Int :=
  let e : Int := (num.log2 : Int) - den.log2
  if num * Nat.pow 2 (-e).toNat < den * Nat.pow 2 e.toNat then e - 1 else e

/-- The bits of the double nearest to `num / den`.  The last place of the result is `2 ^ place`, and no
place is below the one of the smallest double. -/
def ofRatio (num den : Nat) : Nat :=
  if num = 0 then 0
  else
    let place := max (-1074) (floorLog num den - 52)
    let significand := roundQuotient (num * Nat.pow 2 (-place).toNat) (den * Nat.pow 2 place.toNat)
    min infinity ((place + 1074).toNat * Nat.pow 2 52 + significand)

/-- The bits of the double nearest to `n * 10 ^ e`, where `n` has at most `width` digits.  Beyond the
guard the number is far above the largest double, or far below the smallest. -/
def ofDecimal (n width : Nat) (e : Int) : Nat :=
  if n = 0 then 0
  else if 400 < e then infinity
  else if (width : Int) + e < -400 then 0
  else ofRatio (n * Nat.pow 10 e.toNat) (Nat.pow 10 (-e).toNat)

end Binary64

end Bluespec
