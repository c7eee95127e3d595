import LuaBytecode.Error
import LuaBytecode.Prototype.Basic
import LuaBytecode.Prototype.Pool

namespace LuaBytecode

/-- A local variable that has a register. -/
structure Binding where
  name : String
  /-- Open scopes where it was declared. -/
  depth : Nat
  register : Nat
  captured : Bool
  record : Nat
  deriving DecidableEq, Repr

structure Frame where
  /-- Line of the statement being lowered, which errors report. -/
  line : Nat
  /-- Functions before it in the one around it, and so on outwards. No other function of the chunk has the same. -/
  path : List Nat
  params : Nat
  isVararg : Bool
  used : Nat
  peak : Nat
  /-- Open scopes, innermost first. A loop has the positions of the jumps that leave it. -/
  scopes : List (Option (Array Nat))
  live : List Binding
  locals : Array LocalVar
  /-- Registers of the locals, in the same order. -/
  slots : Array Nat
  constants : ConstantPool
  upvalues : Array Upvalue
  code : Array Instruction
  functions : Array Prototype

/-- Steps on a frame. What a failing step did before it failed stays done. -/
abbrev FrameM := EStateM CodeError Frame

namespace Frame

/-- An empty function whose body is an open scope. -/
def new (params : Nat) (isVararg : Bool) (line : Nat) (path : List Nat := []) : Frame where
  line := line
  path := path
  params := params
  isVararg := isVararg
  used := 0
  peak := 0
  scopes := [none]
  live := []
  locals := #[]
  slots := #[]
  constants := .empty
  upvalues := #[]
  code := #[]
  functions := #[]

def depth (f : Frame) : Nat := f.scopes.length

def pc (f : Frame) : Nat := f.code.size

def toPrototype (f : Frame) (source : Option String) : Prototype where
  source := source
  params := f.params
  isVararg := f.isVararg
  stackSize := f.peak
  constants := f.constants.entries
  locals := f.locals
  upvalues := f.upvalues
  code := f.code
  functions := f.functions.toList

def registerLimit : Nat := 255

def upvalueLimit : Nat := 255

def alloc : FrameM Nat := fun f =>
  if f.used + 1 < registerLimit then
    .ok f.used { f with used := f.used + 1, peak := max f.peak (f.used + 1) }
  else .error (.tooManyRegisters f.line) f

def allocAll : Nat → FrameM Unit
  | 0 => pure ()
  | n + 1 => do
    let _ ← alloc
    allocAll n

def allocN (n : Nat) : FrameM Nat := do
  let first := (← get).used
  allocAll n
  return first

def free : FrameM Unit := fun f =>
  match f.used with
  | 0 => .error (.registerUnderflow f.line) f
  | n + 1 => .ok () { f with used := n }

def freeN : Nat → FrameM Unit
  | 0 => pure ()
  | n + 1 => do
    free
    freeN n

def setUsed (n : Nat) : FrameM Unit := modify fun f => { f with used := n }

def difference (a b : Nat) : FrameM Nat := fun f =>
  if b ≤ a then .ok (a - b) f else .error (.countUnderflow f.line) f

def setLine (line : Nat) : FrameM Unit := modify fun f => { f with line := line }

def constantIndex (k : Constant) : FrameM Nat :=
  fun ⟨line, path, params, isVararg, used, peak, scopes, live, locals, slots, pool, upvalues, code, functions⟩ =>
    match pool.insert k with
    | (i, pool) =>
      .ok i ⟨line, path, params, isVararg, used, peak, scopes, live, locals, slots, pool, upvalues, code, functions⟩

def upvalueIndex? (f : Frame) (name : String) : Option Nat := f.upvalues.findIdx? (·.name == name)

/-- Describes an upvalue. Upvalues are a map by name that keeps the order of insertion: a new name gets the next index,
    and one that is there keeps its index and gets the new value. -/
def addUpvalue (name : String) (inStack : Bool) (index : Nat) : FrameM Nat := fun f =>
  if f.upvalues.size ≥ upvalueLimit then .error (.tooManyUpvalues f.line) f
  else
    match f.upvalueIndex? name with
    | some i => .ok i { f with upvalues := f.upvalues.setIfInBounds i ⟨name, inStack, index⟩ }
    | none => .ok f.upvalues.size { f with upvalues := f.upvalues.push ⟨name, inStack, index⟩ }

def addFunction (p : Prototype) : FrameM Nat :=
  modifyGet fun f => (f.functions.size, { f with functions := f.functions.push p })

end Frame

end LuaBytecode
