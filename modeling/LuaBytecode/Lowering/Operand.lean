import LuaBytecode.Lowering.Basic

namespace LuaBytecode

/-- How to lower an expression, for each of the ways in which its surroundings use it. -/
structure ExpCode where
  exp : Exp
  /-- Puts `n` values into the registers from `a` on, where -1 stands for all. Only calls and `...` heed `n`. -/
  emit : (a : Nat) → (n : Int) → LowerM Unit
  /-- Emitters of the operands in a chain of `..`, or the emitter itself. -/
  operands : List (Nat → Int → LowerM Unit)
  /-- For a call: loads the function and the arguments from `a` on. Gives the number of arguments, or -1 for all up to
      the top. -/
  prepare? : Option ((a : Nat) → LowerM Int)
  /-- For an index: loads the method into `a` and the object into a new register after it. -/
  method? : Option ((a : Nat) → LowerM Unit)
  /-- Evaluates what an assignment to the expression needs. -/
  target : LowerM Target
  register? : LowerM (Option Nat)
  place? : LowerM (Option Place)

namespace ExpCode

open Lowering

def isMulti (e : ExpCode) : Bool := e.exp.isMulti

def isNil (e : ExpCode) : Bool := e.exp.isNil

def toNewRegister (e : ExpCode) : LowerM Nat := do
  let r ← Frame.alloc
  e.emit r 1
  return r

def toRegister (e : ExpCode) : LowerM Nat := do
  match ← e.register? with
  | some r => return r
  | none => e.toNewRegister

/-- Operand for a literal whose constant fits. The constant is added either way. -/
def constantRk? (e : ExpCode) : LowerM (Option Nat) := do
  match e.exp.literal? with
  | none => return none
  | some k =>
    let index ← Frame.constantIndex k
    return if index ≤ maxRkIndex then some (rkConstant index) else none

def toRk (e : ExpCode) : LowerM Nat := do
  match ← e.constantRk? with
  | some rk => return rk
  | none => e.toRegister

def toTable (e : ExpCode) : LowerM Place := do
  match ← e.place? with
  | some place => return place
  | none => return .register (← e.toNewRegister)

/-- Takes trailing `nil`s off a list that is written last first. A `nil` after an expression with any number of values
    stays, as it cuts those to one. -/
def dropNils : List ExpCode → List ExpCode
  | [] => []
  | e :: before => if e.isNil && !before.head?.any isMulti then dropNils before else e :: before

def trimNils (exps : List ExpCode) : List ExpCode := (dropNils exps.reverse).reverse

def padNils : Nat → LowerM Unit
  | 0 => pure ()
  | n + 1 => do
    let a ← Frame.allocN (n + 1)
    let _ ← Frame.emitLoadNil a (n + 1)

/-- Puts the values of a list into new registers, cut or padded to `want` values. All expressions are evaluated. -/
def loadValues : List ExpCode → (want : Nat) → LowerM Unit
  | [], want => padNils want
  | [e], want => do
    let a ← Frame.alloc
    if e.isMulti then
      e.emit a want
      let _ ← Frame.allocN (want - 1)
    else
      e.emit a 1
      padNils (want - 1)
  | e :: rest, want => do
    let a ← Frame.alloc
    e.emit a 1
    loadValues rest (want - 1)

def isOpen (exps : List ExpCode) : Bool := exps.getLast?.any isMulti

def loadOpen : List ExpCode → LowerM Unit
  | [] => pure ()
  | [e] => do
    let r ← Frame.alloc
    e.emit r (if e.isMulti then -1 else 1)
  | e :: rest => do
    let r ← Frame.alloc
    e.emit r 1
    loadOpen rest

def countOf (exps : List ExpCode) : Int := if isOpen exps then -1 else exps.length

end ExpCode

end LuaBytecode
