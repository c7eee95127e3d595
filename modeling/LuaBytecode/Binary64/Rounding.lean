import LuaBytecode.Binary64.Basic

namespace LuaBytecode

/-- A non-negative double: `significand * 2 ^ exponent` with a significand below `2 ^ 53` and an exponent of at least
    -1074, or a value beyond the range. -/
inductive Magnitude where
  | finite (significand : Nat) (exponent : Int)
  | infinite
  deriving DecidableEq, Repr

namespace Magnitude

def roundShift (m shift : Nat) : Nat :=
  let quotient := m / Nat.pow 2 shift
  let twice := 2 * (m % Nat.pow 2 shift)
  if Nat.pow 2 shift < twice ∨ (twice = Nat.pow 2 shift ∧ quotient % 2 = 1) then quotient + 1 else quotient

def round (m : Nat) (e : Int) : Magnitude :=
  if m = 0 then .finite 0 (-1074)
  else
    let exponent := max (e + m.log2 - 52) (-1074)
    let significand :=
      if exponent ≤ e then m * Nat.pow 2 (e - exponent).toNat else roundShift m (exponent - e).toNat
    let (significand, exponent) :=
      if significand = Nat.pow 2 53 then (Nat.pow 2 52, exponent + 1) else (significand, exponent)
    if 971 < exponent then .infinite else .finite significand exponent

def zero : Magnitude := .finite 0 (-1074)

def isZero : Magnitude → Bool
  | .finite m _ => m == 0
  | .infinite => false

def scale (x : Magnitude) (k : Int) : Magnitude :=
  match x with
  | .finite m e => round m (e + k)
  | .infinite => .infinite

def times (n : Nat) : Magnitude → Magnitude
  | .finite m e => round (n * m) e
  | .infinite => .infinite

def add : Magnitude → Magnitude → Magnitude
  | .finite m e, .finite n f =>
    let least := min e f
    round (m * Nat.pow 2 (e - least).toNat + n * Nat.pow 2 (f - least).toNat) least
  | _, _ => .infinite

/-- The double nearest to `num / den`. The quotient is taken to at least 64 bits, and a last bit tells whether
    something is left, which is all that rounding needs. -/
def ofRatio (num den : Nat) : Magnitude :=
  let shift := den.log2 + 66 - num.log2
  let scaled := num * Nat.pow 2 shift
  round (2 * (scaled / den) + if scaled % den = 0 then 0 else 1) (-(shift + 1 : Nat))

def ofDecimal (digits : Nat) (exponent : Int) : Magnitude :=
  if digits = 0 then zero
  else if 400 < exponent then .infinite
  else if 0 ≤ exponent then round (digits * Nat.pow 10 exponent.toNat) 0
  else if digits.log2 + 1081 < 3 * (-exponent) then zero
  else ofRatio digits (Nat.pow 10 (-exponent).toNat)

/-- The bit pattern below the sign. -/
def toBits : Magnitude → Nat
  | .finite m e => (e + 1074).toNat * Nat.pow 2 52 + m
  | .infinite => 2047 * Nat.pow 2 52

end Magnitude

def Binary64.ofMagnitude (negative : Bool) (x : Magnitude) : Binary64 := .ofParts negative x.toBits

end LuaBytecode
