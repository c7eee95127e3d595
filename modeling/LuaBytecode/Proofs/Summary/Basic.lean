import LuaBytecode.Lowering.Tree
import LuaBytecode.Proofs.Logic.Weights

namespace LuaBytecode

/-- A function as its header shows it: how many functions are around it, its parameters, and whether it takes any number
    of arguments. -/
structure Signature where
  depth : Nat
  params : Nat
  isVararg : Bool
  deriving DecidableEq, Repr

namespace Prototype

mutual

def signatures (depth : Nat) : Prototype → List Signature
  | ⟨_, params, isVararg, _, _, _, _, _, functions⟩ => ⟨depth, params, isVararg⟩ :: signaturesAll (depth + 1) functions

def signaturesAll (depth : Nat) : List Prototype → List Signature
  | [] => []
  | p :: rest => p.signatures depth ++ signaturesAll depth rest

end

theorem signaturesAll_append (depth : Nat) (ps qs : List Prototype) :
    signaturesAll depth (ps ++ qs) = signaturesAll depth ps ++ signaturesAll depth qs := by
  induction ps with
  | nil => rfl
  | cons p rest ih => rw [List.cons_append, signaturesAll, signaturesAll, ih, List.append_assoc]

mutual

theorem length_signatures (depth : Nat) : (p : Prototype) → (p.signatures depth).length = p.count
  | ⟨_, _, _, _, _, _, _, _, functions⟩ => by
    rw [signatures, List.length_cons, length_signaturesAll, count, Nat.add_comm]

theorem length_signaturesAll (depth : Nat) : (ps : List Prototype) → (signaturesAll depth ps).length = countAll ps
  | [] => rfl
  | p :: rest => by
    rw [signaturesAll, List.length_append, length_signatures, length_signaturesAll, countAll]

end

end Prototype

/-- What decides whether code may stand where it does: whether the function takes any number of arguments, and which of
    its open scopes are loops, innermost first. -/
@[ext]
structure Setting where
  isVararg : Bool
  loops : List Bool

namespace Setting

def inLoop (x : Setting) : Bool := x.loops.any id

def enter (isLoop : Bool) (x : Setting) : Setting := { x with loops := isLoop :: x.loops }

def leave (x : Setting) : Setting := { x with loops := x.loops.tail }

end Setting

def Frame.setting (f : Frame) : Setting := ⟨f.isVararg, f.scopes.map (·.isSome)⟩

/-- What lowering a part of a program comes to: the functions that are written in it, each before those inside it, with
    their signatures by how many are around it, whether it may stand in a setting, and whether only variables are
    assigned to. -/
@[ext]
structure Summary where
  written : List FunctionDef
  functions : Nat → List Signature
  legal : Setting → Prop
  assignable : Prop

namespace Summary

instance : Monoid Summary where
  mul a b := ⟨a.written ++ b.written, fun depth => a.functions depth ++ b.functions depth, fun x => a.legal x ∧ b.legal x,
    a.assignable ∧ b.assignable⟩
  one := ⟨[], fun _ => [], fun _ => True, True⟩
  mul_assoc a b c := Summary.ext (List.append_assoc ..) (funext fun _ => List.append_assoc ..)
    (funext fun _ => propext and_assoc) (propext and_assoc)
  one_mul a := Summary.ext rfl rfl (funext fun _ => true_and _) (true_and _)
  mul_one a := Summary.ext (List.append_nil _) (funext fun _ => List.append_nil _) (funext fun _ => and_true _)
    (and_true _)

def only (legal : Setting → Prop) : Summary := { (1 : Summary) with legal := legal }

def weights : Weights Summary where
  vararg := only fun x => x.isVararg = true
  goto := only fun _ => False
  leave := only fun x => x.inLoop = true
  noTarget := { (1 : Summary) with assignable := False }
  function fn body :=
    ⟨fn :: body.written, fun depth => ⟨depth, fn.params.length, fn.isVararg⟩ :: body.functions (depth + 1),
      fun _ => body.legal ⟨fn.isVararg, [false]⟩, body.assignable⟩
  scope isLoop inner := { inner with legal := fun x => inner.legal (x.enter isLoop) }

end Summary

end LuaBytecode
