import LuaBytecode.Binary64.Rounding

namespace LuaBytecode

inductive Number where
  | integer (value : Int64)
  | float (value : Binary64)
  deriving DecidableEq, Repr

namespace Numeral

def digit? (c : Char) : Option Nat :=
  if '0' ≤ c ∧ c ≤ '9' then some (c.toNat - '0'.toNat) else none

def hexDigit? (c : Char) : Option Nat :=
  if '0' ≤ c ∧ c ≤ '9' then some (c.toNat - '0'.toNat)
  else if 'a' ≤ c ∧ c ≤ 'f' then some (c.toNat - 'a'.toNat + 10)
  else if 'A' ≤ c ∧ c ≤ 'F' then some (c.toNat - 'A'.toNat + 10)
  else none

def digits? (digit : Char → Option Nat) (cs : List Char) : Option (List Nat) := cs.mapM digit

/-- A number under construction: the last digits wait in a machine word, as many as `scale` has places. -/
structure Accumulator where
  high : Nat
  low : Nat
  scale : Nat

namespace Accumulator

def total (a : Accumulator) : Nat := a.high * a.scale + a.low

/-- One more digit. A full word moves up, which is the only step whose cost grows with the number. -/
def push (base : Nat) (a : Accumulator) (d : Nat) : Accumulator :=
  if a.scale < Nat.pow 2 48 then ⟨a.high, base * a.low + d, base * a.scale⟩ else ⟨a.total, d, base⟩

theorem total_push (base : Nat) (a : Accumulator) (d : Nat) :
    (a.push base d).total = base * a.total + d := by
  unfold push
  split
  · simp only [total, Nat.mul_add, Nat.mul_left_comm, Nat.add_assoc]
  · simp only [total, Nat.mul_comm]

theorem total_foldl_push (base : Nat) (digits : List Nat) (a : Accumulator) :
    (digits.foldl (push base) a).total = digits.foldl (fun n d => base * n + d) a.total := by
  induction digits generalizing a with
  | nil => rfl
  | cons d ds ih => rw [List.foldl_cons, List.foldl_cons, ih, total_push]

end Accumulator

def value (base : Nat) (digits : List Nat) : Nat := (digits.foldl (Accumulator.push base) ⟨0, 0, 1⟩).total

theorem value_eq_foldl (base : Nat) (digits : List Nat) :
    value base digits = digits.foldl (fun n d => base * n + d) 0 :=
  Accumulator.total_foldl_push base digits ⟨0, 0, 1⟩

def wrap (w : UInt64) (d : Nat) : UInt64 := w * 16 + UInt64.ofNat d

def sign : List Char → Bool × List Char
  | '-' :: cs => (true, cs)
  | '+' :: cs => (false, cs)
  | cs => (false, cs)

def signedDigits? (cs : List Char) : Option (Bool × List Nat) :=
  let (negative, cs) := sign cs
  if cs.isEmpty then none else (digits? digit? cs).map fun ds => (negative, ds)

def breakAt (marks : List Char) (cs : List Char) : List Char × List Char :=
  (cs.takeWhile fun c => !marks.contains c, cs.dropWhile fun c => !marks.contains c)

structure Parts (α : Type) where
  whole : List Nat
  fraction : List Nat
  exponent : α

def parts? {α : Type} (digit : Char → Option Nat) (marks : List Char) (exponent? : List Char → Option α) (absent : α)
    (cs : List Char) : Option (Parts α) := do
  let (mantissa, power) := breakAt marks cs
  let exponent ← if power.isEmpty then some absent else exponent? power.tail
  let (whole, rest) := breakAt ['.'] mantissa
  if whole.isEmpty && rest.tail.isEmpty then failure
  return ⟨← digits? digit whole, ← digits? digit rest.tail, exponent⟩

/-- Exponents saturate here: beyond it every result is zero or infinite. -/
def maxBinaryExponent : Int64 := 100000

def saturate (n : Int64) (d : Nat) : Int64 := min (n * 10 + Int64.ofNat d) maxBinaryExponent

def binaryExponent? (cs : List Char) : Option Int64 := do
  let (negative, ds) ← signedDigits? cs
  let n := ds.foldl saturate 0
  return if negative then -n else n

def scaleUp (x : Magnitude) (e : Nat) : Magnitude :=
  if 1000 < e ∧ x.isZero = false ∧ x ≠ .infinite then scaleUp (x.scale 1000) (e - 1000)
  else x.scale (min e 1000 : Nat)
termination_by e

def scaleDown (x : Magnitude) (e : Nat) : Magnitude :=
  if 1000 < e ∧ x.isZero = false then scaleDown (x.scale (-1000)) (e - 1000)
  else x.scale (-(min e 1000 : Nat))
termination_by e

def scaleBy (x : Magnitude) : Int → Magnitude
  | .ofNat e => scaleUp x e
  | .negSucc e => scaleDown x (e + 1)

def pushDigit (x : Magnitude) (d : Nat) : Magnitude := (x.scale 4).add (.round d 0)

def pushPlace (state : Magnitude × Magnitude) (d : Nat) : Magnitude × Magnitude :=
  (state.1.add (state.2.times d), state.2.scale (-4))

/-- Digits with an optional point and an optional binary exponent, accumulated digit by digit in double precision. -/
def hexFloat? (cs : List Char) : Option Binary64 := do
  let parts ← parts? hexDigit? ['p', 'P'] binaryExponent? 0 cs
  let x := parts.whole.foldl pushDigit .zero
  let x := (parts.fraction.foldl pushPlace (x, .round 1 (-4))).1
  return .ofMagnitude false (scaleBy x parts.exponent.toInt)

/-- What follows `0x`. Integers wrap modulo `2 ^ 64`. -/
def hexadecimal? (cs : List Char) : Option Number :=
  if cs.any fun c => ['.', 'p', 'P'].contains c then (hexFloat? cs).map .float
  else if cs.isEmpty then none
  else (digits? hexDigit? cs).map fun ds => .integer (ds.foldl wrap 0).toInt64

def fit? (i : Int) : Option Int64 :=
  if -0x8000000000000000 ≤ i ∧ i < 0x8000000000000000 then some (Int64.ofInt i) else none

def integer? (cs : List Char) : Option Int64 := do
  let (negative, ds) ← signedDigits? cs
  let n := value 10 ds
  fit? (if negative then -n else n)

def decimalExponentBound : Nat := 0x10000

def extend (n d : Nat) : Nat := if n < decimalExponentBound then 10 * n + d else n

def decimalExponent? (cs : List Char) : Option Int := do
  let (negative, ds) ← signedDigits? cs
  let n := ds.foldl extend 0
  return if negative then -n else n

def decimalMagnitude? (cs : List Char) : Option Magnitude := do
  let parts ← parts? digit? ['e', 'E'] decimalExponent? 0 cs
  return .ofDecimal (value 10 (parts.whole ++ parts.fraction)) (parts.exponent - parts.fraction.length)

def float? (cs : List Char) : Option Binary64 :=
  let (negative, cs) := sign cs
  let word := String.ofList (cs.map Char.toLower)
  if word == "inf" || word == "infinity" then some (.ofMagnitude negative .infinite)
  else if word == "nan" then some (.nan negative)
  else (decimalMagnitude? cs).map (.ofMagnitude negative)

/-- A decimal numeral is a float if it has a point or an exponent, or if it does not fit 64 bits. -/
def decimal? (cs : List Char) : Option Number :=
  if cs.any fun c => ['.', 'e', 'E'].contains c then (float? cs).map .float
  else
    match integer? cs with
    | some i => some (.integer i)
    | none => (float? cs).map .float

def read? (text : String) : Option Number :=
  match text.toList with
  | '0' :: 'x' :: cs | '0' :: 'X' :: cs => hexadecimal? cs
  | cs => decimal? cs

end Numeral

end LuaBytecode
