import LuaBytecode.Lowering.Expression

namespace LuaBytecode

namespace Lowering

open ExpCode

variable [NameOrder]

def inScope (body : LowerM Unit) : LowerM Unit := do
  Frame.enterScope false
  body
  Frame.closeCaptured
  Frame.exitScope

def emitBreak : LowerM Unit := do
  let pc ← Frame.emitJmp 0 0
  Frame.addBreak pc

def emitGuard (guard : ExpCode) : LowerM Nat := do
  let a ← scratch guard.toRegister
  let _ ← Frame.emitAbc .test a 0 0
  Frame.emitJmp 0 0

def emitWhile (guard : ExpCode) (body : LowerM Unit) : LowerM Unit := do
  let start ← pc
  let leave ← emitGuard guard
  Frame.enterScope true
  body
  Frame.closeCaptured
  let back ← pc
  let _ ← Frame.emitJmp 0 (Frame.jumpOffset back start)
  Frame.exitScope
  Frame.patchHere leave

/-- The guard is part of the body's scope. -/
def emitRepeat (body : LowerM Unit) (guard : ExpCode) : LowerM Unit := do
  Frame.enterScope true
  let start ← pc
  body
  let a ← scratch guard.toRegister
  let _ ← Frame.emitAbc .test a 0 0
  let level := (← get).frame.scopeLevel
  let back ← pc
  let _ ← Frame.emitJmp level (Frame.jumpOffset back start)
  Frame.closeCaptured
  Frame.exitScope

def isTrue : Exp → Bool
  | .bool true => true
  | _ => false

/-- Emits the arms of a conditional. `skip?` is the jump over the arm before, and the jumps to the end are collected. -/
def emitArms : List ExpCode → List (LowerM Unit) → (skip? : Option Nat) → (ends : Array Nat) → LowerM (Array Nat)
  | guard :: guards, body :: bodies, skip?, ends => do
    skip?.forM (Frame.patchHere ·)
    let skip? ← if isTrue guard.exp then pure none else some <$> emitGuard guard
    inScope body
    if guards.isEmpty then return skip?.elim ends ends.push
    else
      let leave ← Frame.emitJmp 0 0
      emitArms guards bodies skip? (ends.push leave)
  | _, _, _, ends => return ends

def emitIf (guards : List ExpCode) (bodies : List (LowerM Unit)) : LowerM Unit := do
  let ends ← emitArms guards bodies none #[]
  ends.forM (Frame.patchHere ·)

def declare (names : List String) (startPc : Nat) : LowerM Unit :=
  names.forM fun name => do let _ ← Frame.addLocal name startPc

def emitLocals (names : List String) (values : List ExpCode) : LowerM Unit := do
  scratch (loadValues (trimNils values) names.length)
  declare names (← pc)

def emitNumericFor (var : String) (init limit : ExpCode) (step? : Option ExpCode) (body : LowerM Unit) :
    LowerM Unit := do
  let step := step?.getD (ofConstant (.integer 1) (.integer 1))
  Frame.enterScope true
  emitLocals ["(for index)", "(for limit)", "(for step)"] [init, limit, step]
  let _ ← Frame.addLocal var ((← pc) + 1)
  let a ← Frame.difference (← used) 4
  let prep ← Frame.emitAsbx .forPrep a 0
  body
  Frame.closeCaptured
  let loop ← Frame.emitAsbx .forLoop a 0
  Frame.patch prep loop
  Frame.patch loop (prep + 1)
  Frame.exitScope

def emitGenericFor (names : List String) (values : List ExpCode) (body : LowerM Unit) : LowerM Unit := do
  Frame.enterScope true
  emitLocals ["(for generator)", "(for state)", "(for control)"] values
  declare names ((← pc) + 1)
  let a ← Frame.difference (← used) (3 + names.length)
  let toCall ← Frame.emitJmp 0 0
  body
  Frame.closeCaptured
  Frame.patchHere toCall
  let _ ← Frame.emitAbc .tforCall a 0 names.length
  let loop ← Frame.emitAsbx .tforLoop (a + 2) 0
  Frame.patch loop (toCall + 1)
  Frame.exitScope

def emitLocalFunction (name : String) (params : List String) (isVararg : Bool) (body : LowerM Unit) :
    LowerM Unit := do
  let r ← Frame.addLocal name ((← pc) + 1)
  emitFunction params isVararg body r

def resolveTargets : List ExpCode → Array Target → LowerM (Array Target)
  | [], resolved => return resolved
  | e :: rest, resolved => do
    let target ← e.target
    resolveTargets rest (resolved.push target)

def emitStores : (v : Nat) → List Target → LowerM Unit
  | _, [] => pure ()
  | v, target :: rest => do
    emitStore v target
    emitStores (v + 1) rest

def emitAssign (targets values : List ExpCode) : LowerM Unit := scratch do
  let targets ← resolveTargets targets #[]
  let first ← used
  loadValues (trimNils values) targets.size
  emitStores first targets.toList

def emitCallStatement (callee : ExpCode) (args : List ExpCode) (isMethod : Bool) : LowerM Unit := do
  let r ← Frame.alloc
  ExpCode.emitCall callee args isMethod r 0
  Frame.free

def emitReturnValues (values : List ExpCode) : LowerM Unit := do
  loadOpen values
  Frame.freeN values.length
  let a ← used
  let _ ← Frame.emitReturn a (countOf values)

/-- A local variable is returned from its register, and a single call is a tail call. -/
def emitReturn : List ExpCode → LowerM Unit
  | [] => do let _ ← Frame.emitReturn 0 0
  | [value] => do
    match ← value.register?, value.prepare? with
    | some r, _ => let _ ← Frame.emitReturn r 1
    | none, some prepare =>
      let r ← Frame.alloc
      let count ← prepare r
      let _ ← Frame.emitTailCall r count
      Frame.free
      let _ ← Frame.emitReturn r (-1)
    | none, none => emitReturnValues [value]
  | values => emitReturnValues values

end Lowering

end LuaBytecode
