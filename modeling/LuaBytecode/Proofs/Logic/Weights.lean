import LuaBytecode.Proofs.Ast.Shape
import Mathlib.Algebra.BigOperators.Group.List.Basic
import Mathlib.Algebra.Group.PUnit

namespace LuaBytecode

def Exp.isIndex : Exp → Bool
  | .index .. => true
  | _ => false

/-- What the parts of a program weigh that a proof about lowering may look at. Weights are multiplied in the order in
    which the parts are lowered. -/
structure Weights (G : Type) where
  vararg : G
  goto : G
  leave : G
  /-- For an expression that is no variable and is assigned to. -/
  noTarget : G
  /-- For a function, by the weight of its body. -/
  function : FunctionDef → G → G
  /-- For a scope, which may be a loop, by the weight of what is inside. -/
  scope : Bool → G → G

instance Weights.monoid : Monoid Unit := (PUnit.commGroup : CommGroup Unit).toGroup.toDivInvMonoid.toMonoid

def Weights.none : Weights Unit := ⟨(), (), (), (), fun _ _ => (), fun _ _ => ()⟩

section

variable {G : Type} [Monoid G] (w : Weights G)

mutual

/-- The receiver of a method call counts once, though it is part of the callee and an argument. -/
def Exp.weigh : Exp → G
  | .nil | .bool _ | .integer _ | .float _ | .string _ | .name _ => 1
  | .vararg => w.vararg
  | .index object key => object.weigh * key.weigh
  | .call callee args isMethod => callee.weigh * ((Exp.weighEach args).drop (isMethod && callee.isIndex).toNat).prod
  | .function params isVararg body => w.function ⟨params, isVararg, body⟩ (Block.weigh body)
  | .table keys values => (List.zipWith (· * ·) (Exp.weighKeys keys) (Exp.weighEach values)).prod
  | .paren inner => inner.weigh
  | .unop _ operand => operand.weigh
  | .binop _ lhs rhs => lhs.weigh * rhs.weigh

def Exp.weighEach : List Exp → List G
  | [] => []
  | e :: rest => e.weigh :: Exp.weighEach rest

def Exp.weigh? : Option Exp → G
  | none => 1
  | some e => e.weigh

def Exp.weighKeys : List (Option Exp) → List G
  | [] => []
  | key :: rest => Exp.weigh? key :: Exp.weighKeys rest

def Exp.weighTargets : List Exp → List G
  | [] => []
  | e :: rest => (e.weigh * if e.isVar then 1 else w.noTarget) :: Exp.weighTargets rest

def StatKind.weigh : StatKind → G
  | .empty | .label _ => 1
  | .goto _ => w.goto
  | .breakLoop => w.leave
  | .doBlock body => w.scope false (Block.weigh body)
  | .whileDo guard body => guard.weigh * w.scope true (Block.weigh body)
  | .repeatUntil body guard => w.scope true (Block.weigh body * guard.weigh)
  | .ifThen guards blocks =>
    (List.zipWith (fun g b => g * w.scope false b) (Exp.weighEach guards) (Block.weighEach blocks)).prod
  | .numericFor _ init limit step body =>
    w.scope true (init.weigh * (limit.weigh * Exp.weigh? step) * Block.weigh body)
  | .genericFor _ exps body => w.scope true ((Exp.weighEach exps).prod * Block.weigh body)
  | .localDecl _ exps => (Exp.weighEach exps).prod
  | .localFunction _ params isVararg body => w.function ⟨params, isVararg, body⟩ (Block.weigh body)
  | .assign targets values => (Exp.weighTargets targets).prod * (Exp.weighEach values).prod
  | .call callee args isMethod => callee.weigh * ((Exp.weighEach args).drop (isMethod && callee.isIndex).toNat).prod
  | .ret exps => (Exp.weighEach exps).prod

def Block.weigh : List Stat → G
  | [] => 1
  | .mk _ kind :: rest => kind.weigh * Block.weigh rest

def Block.weighEach : List (List Stat) → List G
  | [] => []
  | body :: rest => Block.weigh body :: Block.weighEach rest

end

theorem Exp.weighEach_eq (exps : List Exp) : Exp.weighEach w exps = exps.map (Exp.weigh w) := by
  induction exps with
  | nil => rfl
  | cons e rest ih => rw [weighEach, ih, List.map_cons]

theorem Exp.weighKeys_eq (keys : List (Option Exp)) : Exp.weighKeys w keys = keys.map (Exp.weigh? w) := by
  induction keys with
  | nil => rfl
  | cons key rest ih => rw [weighKeys, ih, List.map_cons]

theorem Exp.weighTargets_eq (exps : List Exp) :
    Exp.weighTargets w exps = exps.map fun e => e.weigh w * if e.isVar then 1 else w.noTarget := by
  induction exps with
  | nil => rfl
  | cons e rest ih => rw [weighTargets, ih, List.map_cons]

theorem Block.weighEach_eq (blocks : List (List Stat)) : Block.weighEach w blocks = blocks.map (Block.weigh w) := by
  induction blocks with
  | nil => rfl
  | cons body rest ih => rw [weighEach, ih, List.map_cons]

end

end LuaBytecode
