/-!
# Numbers with 53 binary digits

A finite number is `mantissa * 2 ^ exponent` with a sign. The mantissa has 53 binary digits unless the
exponent is the least one, `-1074`; so every number has one form, except that zero has two signs.

**Rounding.** `Double.ofDecimal` takes the nearest number to a decimal, of two equally near ones the one with
the even mantissa. All comparisons are between natural numbers.
-/

namespace Shroud

/-- A binary floating point number of 64 bits. -/
inductive Double where
  | nan
  | infinite (negative : Bool)
  | finite (negative : Bool) (mantissa : Nat) (exponent : Int)
  deriving DecidableEq, Repr, Inhabited

/-- The nearest integer to a quotient; a half goes to the even neighbour. -/
def roundDiv (n d : Nat) : Nat :=
  let q := n / d
  let r := n % d
  if 2 * r < d then q
  else if d < 2 * r then q + 1
  else q + q % 2

namespace Double

/-- The least exponent. -/
def leastExponent : Int := -1074

/-- The largest exponent of a finite number. -/
def largestExponent : Int := 971

/-- The quotient `n / d` in units of `2 ^ e`, rounded. -/
def scaled (n d : Nat) (e : Int) : Nat := roundDiv (n * Nat.pow 2 (-e).toNat) (d * Nat.pow 2 e.toNat)

/-- The exponent that gives the quotient `n / d` 53 binary digits, or the least one. -/
def exponentFor (n d : Nat) : Int :=
  let guess : Int := (n.log2 : Int) - d.log2 - 52
  let e := if n * Nat.pow 2 (-guess).toNat < Nat.pow 2 52 * d * Nat.pow 2 guess.toNat then guess - 1 else guess
  max e leastExponent

/-- The nearest number to a positive quotient. -/
def ofQuotient (negative : Bool) (n d : Nat) : Double :=
  let e := exponentFor n d
  let m := scaled n d e
  let (m, e) := if m = Nat.pow 2 53 then (Nat.pow 2 52, e + 1) else (m, e)
  if largestExponent < e then .infinite negative else .finite negative m e

/-- The nearest number to `digits * 10 ^ exp`. Decimals far outside of the range are not computed. -/
def ofDecimal (negative : Bool) (digits : Nat) (exp : Int) : Double :=
  let size : Int := exp + (Nat.toDigits 10 digits).length
  if digits = 0 || size < -400 then .finite negative 0 leastExponent
  else if 400 < size then .infinite negative
  else ofQuotient negative (digits * Nat.pow 10 exp.toNat) (Nat.pow 10 (-exp).toNat)

/-- Zero, of either sign. -/
def isZero : Double → Bool
  | .finite _ 0 _ => true
  | _ => false

/-- The integer that equals the number, if there is one. -/
def integer? : Double → Option Int
  | .finite negative m e =>
    let n := m * Nat.pow 2 e.toNat
    let d := Nat.pow 2 (-e).toNat
    if n % d = 0 then some (if negative then -(n / d : Nat) else (n / d : Nat)) else none
  | _ => none

/-- Equality of values: zero has one value, and an undefined number equals nothing. -/
def same : Double → Double → Bool
  | .nan, _ => false
  | a, b => a == b || (a.isZero && b.isZero)

end Double

end Shroud
