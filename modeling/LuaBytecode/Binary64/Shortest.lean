import LuaBytecode.Binary64.Basic

namespace LuaBytecode

/-- A positive decimal number `digits * 10 ^ exponent`. -/
structure Decimal where
  digits : Nat
  exponent : Int
  deriving DecidableEq, Repr

namespace Decimal

def digitCount (n : Nat) : Nat := (Nat.toDigits 10 n).length

def strip (d : Decimal) : Decimal :=
  if d.digits % 10 = 0 ∧ d.digits ≠ 0 then strip ⟨d.digits / 10, d.exponent + 1⟩ else d
termination_by d.digits

/-- The reals that round to one positive double, on a scale that makes the ends integers: the double is `mid / den`,
    the ends are `low / den` and `high / den`, and they belong to the interval iff `closed`. -/
structure Interval where
  low : Nat
  mid : Nat
  high : Nat
  den : Nat
  closed : Bool

/-- Below a power of two the next double is only half as far away. -/
def Interval.ofDouble (significand : Nat) (exponent : Int) : Interval :=
  let unit := Nat.pow 2 (exponent - 2).toNat
  let below := if significand = Nat.pow 2 52 ∧ -1074 < exponent then 1 else 2
  { low := (4 * significand - below) * unit
    mid := 4 * significand * unit
    high := (4 * significand + 2) * unit
    den := Nat.pow 2 (2 - exponent).toNat
    closed := significand % 2 == 0 }

def Interval.magnitude (i : Interval) : Int := digitCount (i.mid * Nat.pow 10 400 / i.den) - 400

/-- The multiple of `10 ^ exponent` inside the interval that is nearest to the double, the greater one on a tie. -/
def Interval.onGrid? (i : Interval) (exponent : Int) : Option Nat :=
  let up := Nat.pow 10 (-exponent).toNat
  let den := i.den * Nat.pow 10 exponent.toNat
  let inside (c : Nat) : Bool :=
    (i.low * up < c * den && c * den < i.high * up) ||
      (i.closed && i.low * up ≤ c * den && c * den ≤ i.high * up)
  let floor := i.mid * up / den
  match inside floor, inside (floor + 1) with
  | true, true => if 2 * (i.mid * up - floor * den) < den then some floor else some (floor + 1)
  | true, false => some floor
  | false, true => some (floor + 1)
  | false, false => none

/-- The fewest digits that read back as the double: the coarsest grid with a point in its interval. Seventeen digits
    always have one. -/
def shortest (significand : Nat) (exponent : Int) : Decimal :=
  let interval := Interval.ofDouble significand exponent
  let magnitude := interval.magnitude
  let found := (List.range 17).findSome? fun (n : Nat) =>
    (interval.onGrid? (magnitude - (n + 1))).map fun c => strip ⟨c, magnitude - (n + 1)⟩
  found.getD ⟨interval.mid, 0⟩

end Decimal

end LuaBytecode
