import LuaBytecode.Instruction.Opcode

namespace LuaBytecode

/-- Operand fields of an instruction word. `bx` covers `b` and `c`, `sbx` is `bx` read with a bias, `ax` covers all. -/
inductive Field where
  | a
  | b
  | c
  | bx
  | sbx
  | ax
  deriving DecidableEq, Repr

namespace Field

def name : Field → String
  | a => "A"
  | b => "B"
  | c => "C"
  | bx => "Bx"
  | sbx => "sBx"
  | ax => "Ax"

def least : Field → Int
  | sbx => -131071
  | _ => 0

def greatest : Field → Int
  | a => 255
  | b | c => 511
  | bx => 262143
  | sbx => 131071
  | ax => 67108863

end Field

/-- An operand that does not fit its field. -/
structure OperandError where
  op : Opcode
  field : Field
  value : Int
  deriving DecidableEq, Repr

def OperandError.message (e : OperandError) : String :=
  s!"operand {e.field.name}={e.value} out of range for {e.op.mnemonic}"

def Field.check (field : Field) (op : Opcode) (value : Int) : Except OperandError Unit :=
  if field.least ≤ value ∧ value ≤ field.greatest then .ok () else .error ⟨op, field, value⟩

/-- A 32-bit instruction: operation code in bits 0 to 5, A in 6 to 13, C in 14 to 22, B in 23 to 31. -/
structure Instruction where
  word : UInt32
  deriving DecidableEq, Repr

namespace Instruction

def abc (op : Opcode) (a b c : Nat) : Except OperandError Instruction := do
  Field.a.check op a
  Field.b.check op b
  Field.c.check op c
  return ⟨UInt32.ofNat (op.toNat + a * 64 + c * 16384 + b * 8388608)⟩

def abx (op : Opcode) (a bx : Nat) : Except OperandError Instruction := do
  Field.a.check op a
  Field.bx.check op bx
  return ⟨UInt32.ofNat (op.toNat + a * 64 + bx * 16384)⟩

/-- The signed offset is stored with a bias, and it is checked before A. -/
def asbx (op : Opcode) (a : Nat) (sbx : Int) : Except OperandError Instruction := do
  Field.sbx.check op sbx
  abx op a (sbx + 131071).toNat

def ax (op : Opcode) (ax : Nat) : Except OperandError Instruction := do
  Field.ax.check op ax
  return ⟨UInt32.ofNat (op.toNat + ax * 64)⟩

/-- Absent on a word whose code is outside the instruction set. -/
def opcode? (i : Instruction) : Option Opcode := Opcode.ofNat? (i.word.toNat % 64)

def a (i : Instruction) : Nat := i.word.toNat / 64 % 256

def b (i : Instruction) : Nat := i.word.toNat / 8388608

def c (i : Instruction) : Nat := i.word.toNat / 16384 % 512

def bx (i : Instruction) : Nat := i.word.toNat / 16384

def sbx (i : Instruction) : Int := i.bx - 131071

def axField (i : Instruction) : Nat := i.word.toNat / 64

/-- A word outside the instruction set has no range to check: the operand is merged into it as it is. -/
def setA (i : Instruction) (a : Nat) : Except OperandError Instruction :=
  match i.opcode? with
  | some op => do
    Field.a.check op a
    return ⟨UInt32.ofNat (i.word.toNat - i.a * 64 + a * 64)⟩
  | none => .ok ⟨UInt32.ofNat (i.word.toNat - i.a * 64) ||| UInt32.ofNat (a * 64)⟩

/-- A word outside the instruction set takes the biased offset modulo the width of the field. -/
def setSbx (i : Instruction) (sbx : Int) : Except OperandError Instruction := do
  if let some op := i.opcode? then
    Field.sbx.check op sbx
  return ⟨UInt32.ofNat (i.word.toNat % 16384 + ((sbx + 131071) % 262144).toNat * 16384)⟩

def describe (i : Instruction) : String :=
  match i.opcode? with
  | none => "<invalid 0x" ++ String.ofList ((Nat.toDigits 16 i.word.toNat).leftpad 8 '0') ++ ">"
  | some op =>
    op.mnemonic ++
      match op.format with
      | .abc => s!" A={i.a} B={i.b} C={i.c}"
      | .abx => s!" A={i.a} Bx={i.bx}"
      | .asbx => s!" A={i.a} sBx={i.sbx}"
      | .ax => s!" Ax={i.axField}"

end Instruction

/-- Operands that name a register or a constant: bit 8 marks a constant. -/
def rkConstant (index : Nat) : Nat := index ||| 256

def isRkConstant (rk : Nat) : Bool := rk.testBit 8

def maxRkIndex : Nat := 255

end LuaBytecode
