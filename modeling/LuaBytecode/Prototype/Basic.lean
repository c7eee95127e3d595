import LuaBytecode.Instruction.Word
import LuaBytecode.Prototype.Constant

namespace LuaBytecode

/-- A variable of an enclosing function: a register of the function around, or an upvalue of it. -/
structure Upvalue where
  name : String
  inStack : Bool
  index : Nat
  deriving DecidableEq, Repr

/-- A local variable is there from one instruction to another. Positions are the ones of 32 bits, as long as there are
    fewer than `2 ^ 32` instructions. -/
structure LocalVar where
  name : String
  startPc : Nat
  endPc : Nat
  deriving DecidableEq, Repr

/-- A compiled function. Only that of a whole chunk has a source name. -/
structure Prototype where
  source : Option String
  params : Nat
  isVararg : Bool
  stackSize : Nat
  constants : Array Constant
  locals : Array LocalVar
  upvalues : Array Upvalue
  code : Array Instruction
  functions : List Prototype

namespace Prototype

mutual

def count : Prototype → Nat
  | ⟨_, _, _, _, _, _, _, _, functions⟩ => 1 + countAll functions

def countAll : List Prototype → Nat
  | [] => 0
  | p :: rest => p.count + countAll rest

end

end Prototype

end LuaBytecode
