import LuaBytecode.Frame.Basic
import LuaBytecode.Instruction.FloatByte

namespace LuaBytecode

namespace Frame

def emit (i : Except OperandError Instruction) : FrameM Nat := fun f =>
  match i with
  | .ok i => .ok f.pc { f with code := f.code.push i }
  | .error e => .error (.operandOverflow e f.line) f

def emitAbc (op : Opcode) (a b c : Nat) : FrameM Nat := emit (Instruction.abc op a b c)

def emitAbx (op : Opcode) (a bx : Nat) : FrameM Nat := emit (Instruction.abx op a bx)

def emitAsbx (op : Opcode) (a : Nat) (sbx : Int) : FrameM Nat := emit (Instruction.asbx op a sbx)

def emitAx (op : Opcode) (ax : Nat) : FrameM Nat := emit (Instruction.ax op ax)

def emitMove (a b : Nat) : FrameM Nat := emitAbc .move a b 0

def emitLoadNil (a n : Nat) : FrameM Nat := emitAbc .loadNil a (n - 1) 0

def emitLoadBool (a b c : Nat) : FrameM Nat := emitAbc .loadBool a b c

/-- Loads a constant. An index too large for the operand goes into an extra word. -/
def emitLoadK (a : Nat) (k : Constant) : FrameM Nat := do
  let index ← constantIndex k
  if index ≤ 262143 then emitAbx .loadK a index
  else
    let pc ← emitAbx .loadKx a 0
    let _ ← emitAx .extraArg index
    return pc

def emitJmp (a : Nat) (sbx : Int) : FrameM Nat := emitAsbx .jmp a sbx

/-- Operand for a number of values: one more than the number, in 32 bits, where -1 stands for all up to the top. -/
def countOperand (n : Int) : Nat := ((n + 1) % 4294967296).toNat

def emitCall (a : Nat) (args results : Int) : FrameM Nat :=
  emitAbc .call a (countOperand args) (countOperand results)

def emitTailCall (a : Nat) (args : Int) : FrameM Nat := emitAbc .tailCall a (countOperand args) 0

def emitReturn (a : Nat) (n : Int) : FrameM Nat := emitAbc .ret a (countOperand n) 0

def emitVararg (a : Nat) (n : Int) : FrameM Nat := emitAbc .vararg a (countOperand n) 0

def emitNewTable (a array hash : Nat) : FrameM Nat :=
  emitAbc .newTable a (FloatByte.encode array) (FloatByte.encode hash)

/-- Stores a batch of positional fields. A batch number too large for the operand goes into an extra word. -/
def emitSetList (a n batch : Nat) : FrameM Nat := do
  if batch ≤ 511 then emitAbc .setList a n batch
  else
    let pc ← emitAbc .setList a n 0
    let _ ← emitAx .extraArg batch
    return pc

/-- Operand of a jump at `pc` that lands on `target`. It is the one of 32 bits, as long as there are fewer than `2 ^ 31`
    instructions. -/
def jumpOffset (pc target : Nat) : Int := target - (pc + 1)

def amend (pc : Nat) (change : Instruction → Except OperandError Instruction) : FrameM Unit := fun f =>
  match f.code[pc]? with
  | none => .error (.noInstruction pc f.line) f
  | some i =>
    match change i with
    | .ok i => .ok () { f with code := f.code.setIfInBounds pc i }
    | .error e => .error (.operandOverflow e f.line) f

def patch (pc target : Nat) : FrameM Unit := amend pc (·.setSbx (jumpOffset pc target))

def patchHere (pc : Nat) : FrameM Unit := do patch pc (← get).pc

end Frame

end LuaBytecode
