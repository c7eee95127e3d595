namespace LuaBytecode

/-- A double-precision number by its bit pattern: the two zeros differ and a NaN equals itself. -/
structure Binary64 where
  bits : UInt64
  deriving DecidableEq, Hashable, Repr

namespace Binary64

/-- What a bit pattern stands for; a finite one is `significand * 2 ^ exponent` up to its sign. -/
inductive View where
  | nan
  | infinite (negative : Bool)
  | finite (negative : Bool) (significand : Nat) (exponent : Int)
  deriving DecidableEq, Repr

def view (x : Binary64) : View :=
  let raw := x.bits.toNat
  let negative := decide (Nat.pow 2 63 ≤ raw)
  let exponent : Nat := raw / Nat.pow 2 52 % Nat.pow 2 11
  let fraction := raw % Nat.pow 2 52
  if exponent = 2047 then
    if fraction = 0 then .infinite negative else .nan
  else if exponent = 0 then .finite negative fraction (-1074)
  else .finite negative (fraction + Nat.pow 2 52) (exponent - 1075)

def ofParts (negative : Bool) (rest : Nat) : Binary64 :=
  ⟨UInt64.ofNat ((if negative then Nat.pow 2 63 else 0) + rest)⟩

def nan (negative : Bool) : Binary64 := ofParts negative 0x7ff8000000000000

end Binary64

end LuaBytecode
