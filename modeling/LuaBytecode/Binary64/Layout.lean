import LuaBytecode.Binary64.Shortest

namespace LuaBytecode

/-- How floats are written. Digits are the fewest that read back, unless a rule here says otherwise. -/
structure FloatLayout where
  /-- Integral values are written with every digit they have. -/
  exactIntegers : Bool
  /-- Least and greatest power of ten of the first digit for which no exponent is written; absent: it never is. -/
  positional : Option (Int × Int)

namespace FloatLayout

def zeros (n : Nat) : String := String.ofList (List.replicate n '0')

def point (d : Decimal) : String :=
  let text := Nat.repr d.digits
  if 0 ≤ d.exponent then text ++ zeros d.exponent.toNat ++ ".0"
  else
    let places := (-d.exponent).toNat
    if places < text.length then
      String.ofList (text.toList.take (text.length - places)) ++ "." ++
        String.ofList (text.toList.drop (text.length - places))
    else "0." ++ zeros (places - text.length) ++ text

def leading (d : Decimal) : Int := d.exponent + Decimal.digitCount d.digits - 1

def scientific (d : Decimal) : String :=
  match Nat.toDigits 10 d.digits with
  | [] => ""
  | first :: rest =>
    String.ofList (first :: if rest.isEmpty then [] else '.' :: rest) ++ "e" ++ toString (leading d)

def integer? (significand : Nat) (exponent : Int) : Option Nat :=
  if 0 ≤ exponent then some (significand * Nat.pow 2 exponent.toNat)
  else
    let den := Nat.pow 2 (-exponent).toNat
    if significand % den = 0 then some (significand / den) else none

def writeDecimal (layout : FloatLayout) (d : Decimal) : String :=
  match layout.positional with
  | none => point d
  | some (least, greatest) =>
    if least ≤ leading d ∧ leading d ≤ greatest then point d else scientific d

def writeFinite (layout : FloatLayout) (significand : Nat) (exponent : Int) : String :=
  if significand = 0 then "0.0"
  else
    match layout.exactIntegers, integer? significand exponent with
    | true, some n => Nat.repr n ++ ".0"
    | _, _ => layout.writeDecimal (Decimal.shortest significand exponent)

def write (layout : FloatLayout) (x : Binary64) : String :=
  match x.view with
  | .nan => "NaN"
  | .infinite negative => (if negative then "-" else "") ++ "inf"
  | .finite negative m e => (if negative then "-" else "") ++ layout.writeFinite m e

end FloatLayout

end LuaBytecode
