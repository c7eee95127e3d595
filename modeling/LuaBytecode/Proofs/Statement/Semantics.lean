import LuaBytecode.Proofs.Machine.Basic
import LuaBytecode.Proofs.Scoping.Observed

namespace LuaBytecode

abbrev Store (V : Type) := List (String × V)

namespace Store

variable {V : Type} (nil : V)

def value (σ : Store V) (x : String) : V := (σ.lookup x).getD nil

def set (x : String) (v : V) : Store V → Store V
  | [] => []
  | (y, w) :: older => if y = x then (y, v) :: older else (y, w) :: set x v older

/-- Declares variables one after another. Values that are missing are `nil`, and those left over are dropped. -/
def declare : List String → List V → Store V → Store V
  | [], _, σ => σ
  | x :: names, values, σ => declare names values.tail ((x, values.headD nil) :: σ)

def assign : List String → List V → Store V → Store V
  | [], _, σ => σ
  | x :: names, values, σ => assign names values.tail (σ.set x (values.headD nil))

def keep (count : Nat) (σ : Store V) : Store V := σ.drop (σ.length - count)

end Store

structure Ending (V : Type) where
  kind : StatKind
  broke : Bool
  store : Store V

/-- What a run comes to, and how the statements in it ended, one after another. -/
structure Outcome (V : Type) where
  endings : List (Ending V)
  broke : Bool
  store : Store V

namespace Outcome

variable {V : Type}

def after (earlier : List (Ending V)) (r : Outcome V) : Outcome V := { r with endings := earlier ++ r.endings }

def leave (count : Nat) (r : Outcome V) : Outcome V := { r with store := r.store.keep count }

def land (r : Outcome V) : Outcome V := { r with broke := false }

def note (kind : StatKind) (r : Outcome V) : Outcome V := { r with endings := r.endings ++ [⟨kind, r.broke, r.store⟩] }

end Outcome

def Exp.variable? : Exp → Option String
  | .name x => some x
  | _ => none

section

variable {V : Type} (ops : Operators V)

def Exp.valueIn (σ : Store V) (e : Exp) : V := e.value ops (σ.value (ops.constant .nil))

def Exp.holdsIn (σ : Store V) (e : Exp) : Bool := ops.truthy (e.valueIn ops σ)

variable (body : Store V → Option (Outcome V)) (guard : Store V → Bool)

/-- Goes round while the guard holds. There is no outcome if this takes more than the given number of rounds. -/
def whileLoop : (rounds : Nat) → Store V → Option (Outcome V)
  | 0, _ => none
  | rounds + 1, σ =>
    if guard σ then
      (body σ).bind fun r =>
        if r.broke then some r.land else (whileLoop rounds r.store).map (·.after r.endings)
    else some ⟨[], false, σ⟩

def repeatLoop : (rounds : Nat) → Store V → Option (Outcome V)
  | 0, _ => none
  | rounds + 1, σ =>
    (body σ).bind fun r =>
      if r.broke || guard r.store then some (r.leave σ.length).land
      else (repeatLoop rounds (r.store.keep σ.length)).map (·.after r.endings)

/-- The guard that stands for an `else`. It holds, whatever the operators make of `true`. -/
def Exp.isElse : Exp → Bool
  | .bool value => value
  | _ => false

mutual

/-- Runs a statement. Loops go round at most `rounds` times. -/
def StatKind.exec (rounds : Nat) : StatKind → Store V → Option (Outcome V)
  | .empty, σ => some ⟨[], false, σ⟩
  | .breakLoop, σ => some ⟨[], true, σ⟩
  | .localDecl names exps, σ =>
    some ⟨[], false, σ.declare (ops.constant .nil) names (exps.map (·.valueIn ops σ))⟩
  | .assign targets exps, σ =>
    (targets.mapM Exp.variable?).map fun names =>
      ⟨[], false, σ.assign (ops.constant .nil) names (exps.map (·.valueIn ops σ))⟩
  | .doBlock body, σ => (Block.exec rounds body σ).map (·.leave σ.length)
  | .whileDo guard body, σ =>
    whileLoop (fun σ => (Block.exec rounds body σ).map (·.leave σ.length)) (guard.holdsIn ops) rounds σ
  | .repeatUntil body guard, σ => repeatLoop (Block.exec rounds body) (guard.holdsIn ops) rounds σ
  | .ifThen guards blocks, σ => Block.execArms rounds guards blocks σ
  | _, _ => none

def Block.exec (rounds : Nat) : List Stat → Store V → Option (Outcome V)
  | [], σ => some ⟨[], false, σ⟩
  | .mk _ kind :: rest, σ =>
    ((kind.exec rounds σ).map (·.note kind)).bind fun r =>
      if r.broke then some r else (Block.exec rounds rest r.store).map (·.after r.endings)

def Block.execArms (rounds : Nat) : List Exp → List (List Stat) → Store V → Option (Outcome V)
  | guard :: guards, body :: bodies, σ =>
    if guard.isElse || guard.holdsIn ops σ then (Block.exec rounds body σ).map (·.leave σ.length)
    else Block.execArms rounds guards bodies σ
  | _, _, σ => some ⟨[], false, σ⟩

end

end

mutual

/-- Statements on local variables alone, in a scope with the given names. -/
def StatKind.Local (names : List String) : StatKind → Prop
  | .empty | .breakLoop => True
  | .localDecl _ exps => ∀ e ∈ exps, e.Pure (· ∈ names)
  | .assign targets exps => (∀ t ∈ targets, ∃ x ∈ names, t.variable? = some x) ∧ ∀ e ∈ exps, e.Pure (· ∈ names)
  | .doBlock body => Block.Local names body
  | .whileDo guard body => guard.Pure (· ∈ names) ∧ Block.Local names body
  | .repeatUntil body guard => Block.Local names body ∧ guard.Pure (· ∈ (Block.scopes [names] body).headD [])
  | .ifThen guards blocks => (∀ g ∈ guards, g.Pure (· ∈ names)) ∧ Block.AllLocal names blocks
  | _ => False

def Block.Local (names : List String) : List Stat → Prop
  | [] => True
  | .mk _ kind :: rest => kind.Local names ∧ Block.Local (kind.declared.reverse ++ names) rest

def Block.AllLocal (names : List String) : List (List Stat) → Prop
  | [] => True
  | body :: rest => Block.Local names body ∧ Block.AllLocal names rest

end

instance Exp.decidablePure (bound : String → Prop) [DecidablePred bound] : (e : Exp) → Decidable (e.Pure bound)
  | .nil | .bool _ | .integer _ | .float _ | .string _ => isTrue trivial
  | .name x => inferInstanceAs (Decidable (bound x))
  | .paren inner => decidablePure bound inner
  | .unop _ operand => decidablePure bound operand
  | .index object key =>
    have := decidablePure bound object
    have := decidablePure bound key
    inferInstanceAs (Decidable (_ ∧ _))
  | .binop _ lhs rhs =>
    have := decidablePure bound lhs
    have := decidablePure bound rhs
    inferInstanceAs (Decidable (_ ∧ _))
  | .vararg | .call .. | .function .. | .table .. => isFalse id

mutual

instance StatKind.decidableLocal (names : List String) : (kind : StatKind) → Decidable (kind.Local names)
  | .empty | .breakLoop => isTrue trivial
  | .localDecl _ exps => inferInstanceAs (Decidable (∀ e ∈ exps, e.Pure (· ∈ names)))
  | .assign targets exps =>
    inferInstanceAs (Decidable ((∀ t ∈ targets, ∃ x ∈ names, t.variable? = some x) ∧ ∀ e ∈ exps, e.Pure (· ∈ names)))
  | .doBlock body => Block.decidableLocal names body
  | .whileDo guard body =>
    have := Block.decidableLocal names body
    inferInstanceAs (Decidable (guard.Pure (· ∈ names) ∧ Block.Local names body))
  | .repeatUntil body guard =>
    have := Block.decidableLocal names body
    inferInstanceAs (Decidable (Block.Local names body ∧ guard.Pure (· ∈ (Block.scopes [names] body).headD [])))
  | .ifThen guards blocks =>
    have := Block.decidableAllLocal names blocks
    inferInstanceAs (Decidable ((∀ g ∈ guards, g.Pure (· ∈ names)) ∧ Block.AllLocal names blocks))
  | .label _ | .goto _ | .localFunction .. | .call .. | .ret _ | .numericFor .. | .genericFor .. => isFalse id

instance Block.decidableLocal (names : List String) : (block : List Stat) → Decidable (Block.Local names block)
  | [] => isTrue trivial
  | .mk _ kind :: rest =>
    have := kind.decidableLocal names
    have := Block.decidableLocal (kind.declared.reverse ++ names) rest
    inferInstanceAs (Decidable (kind.Local names ∧ Block.Local (kind.declared.reverse ++ names) rest))

instance Block.decidableAllLocal (names : List String) : (blocks : List (List Stat)) →
    Decidable (Block.AllLocal names blocks)
  | [] => isTrue trivial
  | body :: rest =>
    have := Block.decidableLocal names body
    have := Block.decidableAllLocal names rest
    inferInstanceAs (Decidable (Block.Local names body ∧ Block.AllLocal names rest))

end

/-- The block has an outcome if its loops may go round often enough. -/
def Block.RunsTo {V : Type} (ops : Operators V) (block : Block) (σ : Store V) (r : Outcome V) : Prop :=
  ∃ rounds, Block.exec ops rounds block σ = some r

end LuaBytecode
