import LuaBytecode.Ast.Basic
import LuaBytecode.Frame.Scope

namespace LuaBytecode

structure Lowering where
  frame : Frame
  enclosing : List Frame

abbrev LowerM := EStateM CodeError Lowering

def Lowering.step {α : Type} (m : FrameM α) : LowerM α := fun ⟨frame, enclosing⟩ =>
  match m frame with
  | .ok a frame => .ok a ⟨frame, enclosing⟩
  | .error e frame => .error e ⟨frame, enclosing⟩

instance : MonadLift FrameM LowerM := ⟨Lowering.step⟩

inductive Place where
  | register (index : Nat)
  | upvalue (index : Nat)
  deriving DecidableEq, Repr

inductive Target where
  | place (place : Place)
  | field (table : Place) (key : Nat)
  deriving DecidableEq, Repr

namespace Lowering

/-- At the start of a function in the current one. -/
def nest (s : Lowering) (params : Nat) (isVararg : Bool) : Lowering :=
  ⟨Frame.new params isVararg s.frame.line (s.frame.functions.size :: s.frame.path), s.frame :: s.enclosing⟩

/-- The upvalue of a frame for a name. On first use it is taken from the nearest function around that binds the name,
    through the upvalues of those between. Absent if none binds it. -/
def findUpvalue (name : String) : List Frame → Frame → EStateM.Result CodeError Lowering (Option Nat)
  | [], frame => .ok (frame.upvalueIndex? name) ⟨frame, []⟩
  | parent :: outer, frame =>
    match frame.upvalueIndex? name with
    | some i => .ok (some i) ⟨frame, parent :: outer⟩
    | none =>
      match parent.register? name with
      | some register =>
        let parent := { parent with live := Frame.markCaptured name parent.live }
        (some <$> step (Frame.addUpvalue name true register)) ⟨frame, parent :: outer⟩
      | none =>
        match findUpvalue name outer parent with
        | .ok (some i) ⟨parent, outer⟩ =>
          (some <$> step (Frame.addUpvalue name false i)) ⟨frame, parent :: outer⟩
        | .ok none ⟨parent, outer⟩ => .ok none ⟨frame, parent :: outer⟩
        | .error e ⟨parent, outer⟩ => .error e ⟨frame, parent :: outer⟩

def upvalue? (name : String) : LowerM (Option Nat) := fun ⟨frame, enclosing⟩ => findUpvalue name enclosing frame

def environment : String := "_ENV"

def resolve (name : String) : LowerM (Option Place) := do
  match (← get).frame.register? name with
  | some register => return some (.register register)
  | none => return (← upvalue? name).map .upvalue

def resolveEnvironment : LowerM Place := do return (← resolve environment).getD (.upvalue 0)

def used : LowerM Nat := do return (← get).frame.used

def pc : LowerM Nat := do return (← get).frame.pc

def scratch {α : Type} (m : LowerM α) : LowerM α := do
  let top ← used
  let result ← m
  Frame.setUsed top
  return result

def nameKey (name : String) : LowerM Nat := do
  let index ← Frame.constantIndex (.string name)
  if index ≤ maxRkIndex then return rkConstant index
  else
    let r ← Frame.alloc
    let _ ← Frame.emitLoadK r (.string name)
    return r

def emitGetField (a : Nat) (table : Place) (key : Nat) : LowerM Unit := do
  match table with
  | .register t => let _ ← Frame.emitAbc .getTable a t key
  | .upvalue t => let _ ← Frame.emitAbc .getTabUp a t key

def emitStore (v : Nat) : Target → LowerM Unit
  | .place (.register r) => do let _ ← Frame.emitMove r v
  | .place (.upvalue i) => do let _ ← Frame.emitAbc .setUpval v i 0
  | .field (.register t) key => do let _ ← Frame.emitAbc .setTable t key v
  | .field (.upvalue t) key => do let _ ← Frame.emitAbc .setTabUp t key v

def emitName (name : String) (a : Nat) : LowerM Unit := do
  match ← resolve name with
  | some (.register r) => let _ ← Frame.emitMove a r
  | some (.upvalue i) => let _ ← Frame.emitAbc .getUpval a i 0
  | none =>
    scratch do
      let key ← nameKey name
      emitGetField a (← resolveEnvironment) key

def nameTarget (name : String) : LowerM Target := do
  match ← resolve name with
  | some place => return .place place
  | none =>
    let key ← nameKey name
    return .field (← resolveEnvironment) key

end Lowering

def Exp.literal? : Exp → Option Constant
  | nil => some .nil
  | bool value => some (.bool value)
  | integer value => some (.integer value)
  | float value => some (.float value)
  | string value => some (.string value)
  | _ => none

end LuaBytecode
