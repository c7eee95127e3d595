import LuaBytecode.Error

namespace LuaBytecode

namespace Byte

def isBreak (b : UInt8) : Bool := b == 10 || b == 13

def isBlank (b : UInt8) : Bool := b == 32 || (9 ≤ b && b ≤ 13)

def isDigit (b : UInt8) : Bool := 48 ≤ b && b ≤ 57

def isLetter (b : UInt8) : Bool := (65 ≤ b && b ≤ 90) || (97 ≤ b && b ≤ 122)

def hexValue? (b : UInt8) : Option Nat :=
  if 48 ≤ b ∧ b ≤ 57 then some (b.toNat - 48)
  else if 97 ≤ b ∧ b ≤ 102 then some (b.toNat - 87)
  else if 65 ≤ b ∧ b ≤ 70 then some (b.toNat - 55)
  else none

def isHexDigit (b : UInt8) : Bool := (hexValue? b).isSome

def isNameStart (b : UInt8) : Bool := isLetter b || b == 95

def isName (b : UInt8) : Bool := isNameStart b || isDigit b

end Byte

/-- A place in the source: the bytes still to read, and the line they start on. Lines are the ones of 32 bits, as long as
    the source has fewer than `2 ^ 32` of them. -/
structure Cursor where
  rest : List UInt8
  line : Nat
  deriving DecidableEq, Repr

/-- What reading from a cursor gives; a failure too tells where it left the cursor. -/
abbrev Scanned := EStateM.Result LexError Cursor

namespace Cursor

def start (source : String) : Cursor := ⟨utf8 source, 1⟩

/-- What follows the line break `b`: a pair of different break bytes is one break. -/
def afterBreak (b : UInt8) : List UInt8 → List UInt8
  | [] => []
  | c :: rest => if Byte.isBreak c && c != b then rest else c :: rest

theorem afterBreak_length (b : UInt8) (rest : List UInt8) : (afterBreak b rest).length ≤ rest.length := by
  cases rest with
  | nil => simp [afterBreak]
  | cons c rest =>
    simp only [afterBreak]
    split <;> simp

/-- The next byte and the cursor after it; a line break is taken as a whole. -/
def step (c : Cursor) : Option (UInt8 × Cursor) :=
  match c.rest with
  | [] => none
  | b :: rest => if Byte.isBreak b then some (b, ⟨afterBreak b rest, c.line + 1⟩) else some (b, ⟨rest, c.line⟩)

theorem step_length {c next : Cursor} {b : UInt8} (h : c.step = some (b, next)) :
    next.rest.length < c.rest.length := by
  unfold step at h
  split at h
  · simp at h
  · rename_i b' rest hrest
    have bound := afterBreak_length b' rest
    split at h
    all_goals
      simp only [Option.some.injEq, Prod.mk.injEq] at h
      rw [← h.2, hrest]
      simp only [List.length_cons]
      omega

def skipBlanks (c : Cursor) : Cursor :=
  match h : c.step with
  | some (b, next) =>
    have _shorter := step_length h
    if Byte.isBlank b then skipBlanks next else c
  | none => c
termination_by c.rest.length

theorem skipBlanks_length (c : Cursor) : c.skipBlanks.rest.length ≤ c.rest.length := by
  fun_induction skipBlanks c with
  | case1 c b next h _ _ ih => exact Nat.le_of_lt (Nat.lt_of_le_of_lt ih (step_length h))
  | case2 => exact Nat.le_refl _
  | case3 => exact Nat.le_refl _

def skipBreak (c : Cursor) : Cursor :=
  match c.step with
  | some (b, next) => if Byte.isBreak b then next else c
  | none => c

theorem skipBreak_length (c : Cursor) : c.skipBreak.rest.length ≤ c.rest.length := by
  unfold skipBreak
  split
  · rename_i b next h
    split
    · exact Nat.le_of_lt (step_length h)
    · exact Nat.le_refl _
  · exact Nat.le_refl _

def textSince (c : Cursor) (earlier : List UInt8) : String :=
  ofUtf8Start (earlier.take (earlier.length - c.rest.length))

end Cursor

end LuaBytecode
