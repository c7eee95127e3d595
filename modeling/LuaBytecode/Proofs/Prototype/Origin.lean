import LuaBytecode.Lowering.Tree
import LuaBytecode.Proofs.Ast.Shape

namespace LuaBytecode

open Lowering

/-- The state in which the body of a function is lowered. A chunk, which alone has a name, is a function with any number
    of arguments. -/
inductive Lowering.Enters (start : Lowering) : FunctionDef → Option String → Prop
  | chunk {s : Lowering} {i? : Option Nat} {name : String} {body : Block} : ofChunk = .ok s →
    upvalue? environment s = .ok i? start → Enters start ⟨[], true, body⟩ (some name)
  | function {fn : FunctionDef} {s : Lowering} : ExpCode.enterFunction fn.params fn.isVararg s = .ok () start →
    Enters start fn none

namespace Prototype

def LoweredFrom (fn : FunctionDef) (start : Lowering) (q : Prototype) : Prop :=
  ∃ source finish pc f, start.Enters fn source ∧ Block.code fn.body start = .ok () finish ∧
    (do Frame.exitScope; Frame.emitReturn 0 0) finish.frame = .ok pc f ∧ q = f.toPrototype source

/-- The prototypes come from the functions in their order, each before those inside it. -/
inductive Lists : List Prototype → List FunctionDef → Prop
  | nil : Lists [] []
  | cons {q : Prototype} {qs : List Prototype} {fn : FunctionDef} {start : Lowering} {inner fns : List FunctionDef} :
    q.LoweredFrom fn start → Lists q.functions inner → Lists qs fns → Lists (q :: qs) (fn :: (inner ++ fns))

theorem Lists.append {ps qs : List Prototype} {fns fns' : List FunctionDef} (first : Lists ps fns)
    (second : Lists qs fns') : Lists (ps ++ qs) (fns ++ fns') := by
  induction first with
  | nil => exact second
  | cons lowered inside _ _ ih =>
    rw [List.cons_append, List.cons_append, List.append_assoc]
    exact .cons lowered inside ih

end Prototype

end LuaBytecode
