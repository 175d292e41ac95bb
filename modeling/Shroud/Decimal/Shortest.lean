import Shroud.Decimal.Double

/-!
# The shortest decimal of a number

Of all decimals that round to a number, the one with the fewest digits is written; of two equally short ones
the nearer, and the even one if they are equally near.

**Search.** The decimals that round to a number form an interval, whose ends belong to it if the mantissa is
even. On the grid of each number of digits only the two neighbours of the number have to be tried; seventeen
digits always suffice.
-/

namespace Shroud

/-- The decimal `digits * 10 ^ exp`. -/
structure Decimal where
  digits : Nat
  exp : Int
  deriving DecidableEq, Repr, Inhabited

namespace Decimal

/-- Compare `a * 10 ^ i` with `n * 2 ^ j`. -/
def compareScaled (a : Nat) (i : Int) (n : Nat) (j : Int) : Ordering :=
  compare (a * Nat.pow 10 i.toNat * Nat.pow 2 (-j).toNat) (n * Nat.pow 2 j.toNat * Nat.pow 10 (-i).toNat)

/-- The decimal rounds to `m * 2 ^ e`. Below a power of two the neighbour is half as far away. -/
def roundsTo (d : Decimal) (m : Nat) (e : Int) : Bool :=
  let low := if m = Nat.pow 2 52 && Double.leastExponent < e then 4 * m - 1 else 4 * m - 2
  let ends := m % 2 == 0
  let fromLow := compareScaled d.digits d.exp low (e - 2)
  let fromHigh := compareScaled d.digits d.exp (4 * m + 2) (e - 2)
  (fromLow == .gt || (ends && fromLow == .eq)) && (fromHigh == .lt || (ends && fromHigh == .eq))

/-- The neighbour below `m * 2 ^ e` on the grid `10 ^ i`. -/
def below (m : Nat) (e i : Int) : Nat :=
  (m * Nat.pow 2 e.toNat * Nat.pow 10 (-i).toNat) / (Nat.pow 2 (-e).toNat * Nat.pow 10 i.toNat)

/-- The better neighbour on a grid, if one rounds to the number. -/
def onGrid? (m : Nat) (e i : Int) : Option Decimal :=
  let a := below m e i
  let low : Decimal := ⟨a, i⟩
  let high : Decimal := ⟨a + 1, i⟩
  match low.roundsTo m e, high.roundsTo m e with
  | true, false => some low
  | false, true => some high
  | false, false => none
  | true, true =>
    -- Twice the number against the sum of its neighbours.
    match compareScaled (2 * a + 1) i (2 * m) e with
    | .gt => some low
    | .lt => some high
    | .eq => some (if a % 2 = 0 then low else high)

/-- The least power of ten above the number, near an estimate. -/
def scale (m : Nat) (e : Int) : Int :=
  let estimate : Int := ((m.log2 : Int) + e) * 30103 / 100000
  let candidates := (List.range 4).map fun (k : Nat) => estimate - 1 + (k : Int)
  (candidates.find? fun k => compareScaled 1 k m e == .gt).getD (estimate + 3)

/-- Move trailing zeros into the exponent. -/
def strip : Nat → Decimal → Decimal
  | 0, d => d
  | n + 1, ⟨a, i⟩ => if a ≠ 0 && a % 10 = 0 then strip n ⟨a / 10, i + 1⟩ else ⟨a, i⟩

/-- The exact value of `m * 2 ^ e`. -/
def exact (m : Nat) (e : Int) : Decimal := ⟨m * Nat.pow 2 e.toNat * Nat.pow 5 (-e).toNat, -((-e).toNat : Int)⟩

/-- The shortest decimal of `m * 2 ^ e`. -/
def shortest (m : Nat) (e : Int) : Decimal :=
  let k := scale m e
  let found := (List.range 17).findSome? fun (n : Nat) => onGrid? m e (k - 1 - (n : Int))
  strip 400 (found.getD (exact m e))

end Decimal

namespace Double

/-- Zeros between the point and the digits. -/
private def zeroes (n : Nat) : String := String.ofList (List.replicate n '0')

/-- Positional notation from `0.0001` up to sixteen digits before the point, else one digit before the point
and an exponent of at least two digits. A point stands in every positional text. -/
def layout (d : Decimal) : String :=
  let digits := Nat.toDigits 10 d.digits
  let text (cs : List Char) : String := String.ofList cs
  let lead : Int := d.exp + digits.length - 1
  if lead < -4 || 16 ≤ lead then
    let fraction := if digits.length = 1 then "" else "." ++ text (digits.drop 1)
    let power := Nat.toDigits 10 lead.natAbs
    let power := if power.length = 1 then '0' :: power else power
    text (digits.take 1) ++ fraction ++ "e" ++ (if lead < 0 then "-" else "+") ++ text power
  else if 0 ≤ d.exp then text digits ++ zeroes d.exp.toNat ++ ".0"
  else if 0 ≤ lead then text (digits.take (lead.toNat + 1)) ++ "." ++ text (digits.drop (lead.toNat + 1))
  else "0." ++ zeroes (-lead - 1).toNat ++ text digits

/-- The number in a message. -/
def shown : Double → String
  | .nan => "nan"
  | .infinite negative => if negative then "-inf" else "inf"
  | .finite negative m e =>
    (if negative then "-" else "") ++ (if m = 0 then "0.0" else layout (.shortest m e))

end Double

end Shroud
