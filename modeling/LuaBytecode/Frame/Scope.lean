import LuaBytecode.Frame.Emit

namespace LuaBytecode

namespace Frame

def chain (f : Frame) (name : String) : List Binding := f.live.filter (·.name == name)

def binding? (f : Frame) (name : String) : Option Binding := f.live.find? (·.name == name)

def register? (f : Frame) (name : String) : Option Nat := (f.binding? name).map (·.register)

def names (f : Frame) : List String := (f.live.map (·.name)).eraseDups

def addLocal (name : String) (startPc : Nat) : FrameM Nat := do
  let register ← alloc
  modify fun f =>
    { f with
      live := ⟨name, f.depth, register, false, f.locals.size⟩ :: f.live
      locals := f.locals.push ⟨name, startPc, 0⟩
      slots := f.slots.push register }
  return register

def markCaptured (name : String) : List Binding → List Binding
  | [] => []
  | b :: rest => if b.name == name then { b with captured := true } :: rest else b :: markCaptured name rest

def capture (name : String) : FrameM (Option Nat) :=
  modifyGet fun f => (f.register? name, { f with live := markCaptured name f.live })

/-- Variables that the program did not name, such as the counters of a loop. -/
def isHidden (name : String) : Bool := name.front == '('

/-- The close level over the scopes from `depth` inwards, looking only at the given names. A jump with this operand
    closes the registers from one less on; zero closes nothing. -/
def closeLevelOver (f : Frame) (names : List String) (depth : Nat) : Nat :=
  let leaving := names.flatMap fun name => (f.chain name).takeWhile fun b => depth ≤ b.depth
  if leaving.any (·.captured) then
    (leaving.filter fun b => !isHidden b.name).foldl (fun least b => min least b.register) f.peak + 1
  else 0

end Frame

/-- An order to go through the names of a frame in. It is free to change from one time to the next: the frames of two
    functions differ in their paths, and those before and after a name came or went in their records. -/
class NameOrder where
  walk : Frame → List String
  perm (f : Frame) : (walk f).Perm f.names

instance NameOrder.newestFirst : NameOrder where
  walk := Frame.names
  perm _ := .refl _

namespace Frame

variable [NameOrder]

def closeLevel (f : Frame) (depth : Nat) : Nat := f.closeLevelOver (NameOrder.walk f) depth

def scopeLevel (f : Frame) : Nat := f.closeLevel f.depth

def closeCaptured : FrameM Unit := do
  let level := (← get).scopeLevel
  if level > 0 then
    let _ ← emitJmp level 0

def enterScope (isLoop : Bool) : FrameM Unit :=
  modify fun f => { f with scopes := (if isLoop then some #[] else none) :: f.scopes }

def lowerLevel : Nat → Nat → Nat
  | 0, b => b
  | a, 0 => a
  | a, b => min a b

def loopDepth (f : Frame) : Nat := (f.scopes.dropWhile (·.isNone)).length

def pushBreak (pc : Nat) : List (Option (Array Nat)) → List (Option (Array Nat))
  | [] => []
  | none :: rest => none :: pushBreak pc rest
  | some pending :: rest => some (pending.push pc) :: rest

/-- Makes the jump at `pc` leave the innermost loop. It closes what has been captured between the loop and here. -/
def addBreak (pc : Nat) : FrameM Unit := do
  let f ← get
  match f.loopDepth with
  | 0 => throw (.breakOutsideLoop f.line)
  | depth + 1 =>
    let level := f.closeLevel (depth + 1)
    amend pc (·.setA level)
    modify fun f => { f with scopes := pushBreak pc f.scopes }

/-- Lands a jump out of a loop on the next instruction. It keeps the lower of its own level and the given one. -/
def landBreak (level pc : Nat) : FrameM Unit := do
  amend pc fun i => i.setA (lowerLevel i.a level)
  patchHere pc

def innermost (f : Frame) (name : String) : List Binding :=
  match f.chain name with
  | [] => []
  | newest :: older => newest :: older.takeWhile (·.depth == newest.depth)

def endRecord (record : Nat) : FrameM Unit := fun f =>
  if record < f.locals.size then
    .ok () { f with locals := f.locals.modify record fun v => { v with endPc := f.code.size } }
  else .error (.noLocal record f.line) f

def endLocal (b : Binding) : FrameM Unit := do
  free
  endRecord b.record

/-- Ends the bindings that a name has in its innermost scope. They stay live if a register is missing. -/
def retire (name : String) : FrameM Unit := do
  let leaving := (← get).innermost name
  leaving.forM endLocal
  modify fun f => { f with live := f.live.filter fun b => leaving.all (·.record != b.record) }

def retiring (f : Frame) : List String :=
  (NameOrder.walk f).filter fun name => (f.binding? name).any (f.depth < ·.depth)

def popScope : FrameM (Array Nat) :=
  modifyGet fun f => (f.scopes.head?.join.getD #[], { f with scopes := f.scopes.tail })

def exitScope : FrameM Unit := do
  let level := (← get).scopeLevel
  let pending ← popScope
  pending.forM (landBreak level)
  let names := (← get).retiring
  names.forM retire

end Frame

end LuaBytecode
