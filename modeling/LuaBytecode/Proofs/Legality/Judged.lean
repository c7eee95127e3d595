import LuaBytecode.Proofs.Summary.Basic

namespace LuaBytecode

mutual

/-- Each `...` stands directly in a function with any number of arguments, and the bodies of functions are legal. -/
def Exp.isLegal (isVararg : Bool) : Exp → Bool
  | .vararg => isVararg
  | .nil | .bool _ | .integer _ | .float _ | .string _ | .name _ => true
  | .index object key => object.isLegal isVararg && key.isLegal isVararg
  | .call callee args _ => callee.isLegal isVararg && Exp.allLegal isVararg args
  | .function _ isVararg body => Block.isLegalIn isVararg false body
  | .table keys values => Exp.keysLegal isVararg keys && Exp.allLegal isVararg values
  | .paren inner => inner.isLegal isVararg
  | .unop _ operand => operand.isLegal isVararg
  | .binop _ lhs rhs => lhs.isLegal isVararg && rhs.isLegal isVararg

def Exp.allLegal (isVararg : Bool) : List Exp → Bool
  | [] => true
  | e :: rest => e.isLegal isVararg && Exp.allLegal isVararg rest

def Exp.isLegal? (isVararg : Bool) : Option Exp → Bool
  | none => true
  | some e => e.isLegal isVararg

def Exp.keysLegal (isVararg : Bool) : List (Option Exp) → Bool
  | [] => true
  | key :: rest => Exp.isLegal? isVararg key && Exp.keysLegal isVararg rest

/-- There is no `goto`, and each `break` stands in a loop of its own function. -/
def StatKind.isLegal (isVararg inLoop : Bool) : StatKind → Bool
  | .empty | .label _ => true
  | .goto _ => false
  | .breakLoop => inLoop
  | .doBlock body => Block.isLegalIn isVararg inLoop body
  | .whileDo guard body => guard.isLegal isVararg && Block.isLegalIn isVararg true body
  | .repeatUntil body guard => Block.isLegalIn isVararg true body && guard.isLegal isVararg
  | .ifThen guards blocks => Exp.allLegal isVararg guards && Block.allLegal isVararg inLoop blocks
  | .numericFor _ init limit step body =>
    init.isLegal isVararg && limit.isLegal isVararg && Exp.isLegal? isVararg step && Block.isLegalIn isVararg true body
  | .genericFor _ exps body => Exp.allLegal isVararg exps && Block.isLegalIn isVararg true body
  | .localDecl _ exps => Exp.allLegal isVararg exps
  | .localFunction _ _ isVararg body => Block.isLegalIn isVararg false body
  | .assign targets values => Exp.allLegal isVararg targets && Exp.allLegal isVararg values
  | .call callee args _ => callee.isLegal isVararg && Exp.allLegal isVararg args
  | .ret exps => Exp.allLegal isVararg exps

def Stat.isLegal (isVararg inLoop : Bool) : Stat → Bool
  | .mk _ kind => kind.isLegal isVararg inLoop

def Block.isLegalIn (isVararg inLoop : Bool) : List Stat → Bool
  | [] => true
  | s :: rest => s.isLegal isVararg inLoop && Block.isLegalIn isVararg inLoop rest

def Block.allLegal (isVararg inLoop : Bool) : List (List Stat) → Bool
  | [] => true
  | body :: rest => Block.isLegalIn isVararg inLoop body && Block.allLegal isVararg inLoop rest

end

def Block.isLegal (block : Block) : Bool := Block.isLegalIn true false block

namespace Summary

/-- Only variables are assigned to, and the test tells where the code may stand. -/
structure Judges (o : Summary) (test : Setting → Bool) : Prop where
  assignable : o.assignable
  legal : ∀ x, o.legal x ↔ test x = true

theorem prod_zipWith_iff {p : Summary → Prop} (one : p 1) (mul : ∀ a b, p (a * b) ↔ p a ∧ p b) {os os' : List Summary}
    (paired : os.length = os'.length) : p (List.zipWith (· * ·) os os').prod ↔ p os.prod ∧ p os'.prod := by
  induction os generalizing os' with
  | nil =>
    obtain rfl := List.length_eq_zero_iff.mp paired.symm
    exact iff_of_true one ⟨one, one⟩
  | cons o os ih =>
    cases os' with
    | nil => cases paired
    | cons o' os' =>
      rw [List.zipWith_cons_cons, List.prod_cons, List.prod_cons, List.prod_cons, mul, mul, mul, mul,
        ih (Nat.succ.inj paired), and_and_and_comm]

namespace Judges

variable {o o' : Summary} {test test' : Setting → Bool} {os os' : List Summary}

theorem one : Judges 1 fun _ => true := ⟨trivial, fun _ => iff_of_true trivial rfl⟩

theorem mul (first : Judges o test) (second : Judges o' test') : Judges (o * o') fun x => test x && test' x where
  assignable := ⟨first.assignable, second.assignable⟩
  legal x := (and_congr (first.legal x) (second.legal x)).trans Bool.and_eq_true_iff.symm

theorem scope (isLoop : Bool) (h : Judges o test) : Judges (weights.scope isLoop o) fun x => test (x.enter isLoop) :=
  ⟨h.assignable, fun x => h.legal (x.enter isLoop)⟩

theorem function (fn : FunctionDef) (h : Judges o test) :
    Judges (weights.function fn o) fun _ => test ⟨fn.isVararg, [false]⟩ :=
  ⟨h.assignable, fun _ => h.legal ⟨fn.isVararg, [false]⟩⟩

theorem zip (paired : os.length = os'.length) (first : Judges os.prod test) (second : Judges os'.prod test') :
    Judges (List.zipWith (· * ·) os os').prod fun x => test x && test' x where
  assignable := (prod_zipWith_iff trivial (fun _ _ => Iff.rfl) paired).mpr ⟨first.assignable, second.assignable⟩
  legal x := by
    have both := prod_zipWith_iff (p := (·.legal x)) trivial (fun _ _ => Iff.rfl) paired
    rw [both, first.legal, second.legal, Bool.and_eq_true]

end Judges

end Summary

open Summary

theorem Exp.weighTargets_of_vars {exps : List Exp} (vars : ∀ e ∈ exps, e.isVar = true) :
    Exp.weighTargets weights exps = Exp.weighEach weights exps := by
  rw [Exp.weighTargets_eq, Exp.weighEach_eq]
  refine List.map_congr_left fun e member => ?_
  rw [if_pos (vars e member), mul_one]

section Lists

theorem Exp.judged_all {exps : List Exp} (h : ∀ e ∈ exps, (e.weigh weights).Judges fun x => e.isLegal x.isVararg) :
    (Exp.weighEach weights exps).prod.Judges fun x => Exp.allLegal x.isVararg exps := by
  induction exps with
  | nil => exact .one
  | cons e rest ih => exact (h e (.head _)).mul (ih fun e member => h e (.tail _ member))

theorem Exp.judged? : {e? : Option Exp} → (∀ e ∈ e?, (e.weigh weights).Judges fun x => e.isLegal x.isVararg) →
    (Exp.weigh? weights e?).Judges fun x => Exp.isLegal? x.isVararg e?
  | none, _ => .one
  | some e, h => h e rfl

theorem Exp.judged_keys {keys : List (Option Exp)}
    (h : ∀ k, some k ∈ keys → (k.weigh weights).Judges fun x => k.isLegal x.isVararg) :
    (Exp.weighKeys weights keys).prod.Judges fun x => Exp.keysLegal x.isVararg keys := by
  induction keys with
  | nil => exact .one
  | cons key rest ih =>
    exact (Exp.judged? fun e same => h e (same ▸ List.mem_cons_self)).mul
      (ih fun k member => h k (.tail _ member))

theorem Block.judged_all {blocks : List Block}
    (h : ∀ b ∈ blocks, (Block.weigh weights b).Judges fun x => Block.isLegalIn x.isVararg x.inLoop b) :
    ((Block.weighEach weights blocks).map (weights.scope false)).prod.Judges fun x =>
      Block.allLegal x.isVararg x.inLoop blocks := by
  induction blocks with
  | nil => exact .one
  | cons b rest ih =>
    exact ((h b (.head _)).scope false).mul (ih fun b member => h b (.tail _ member))

end Lists

section

variable {D : FunctionDef → Prop}

mutual

theorem Exp.Shaped.judged {e : Exp} : e.Shaped D → (e.weigh weights).Judges fun x => e.isLegal x.isVararg
  | .nil | .bool _ | .integer _ | .float _ | .string _ | .name _ => .one
  | .vararg => ⟨trivial, fun _ => Iff.rfl⟩
  | .index _ ho hk => ho.judged.mul hk.judged
  | .call _ hc ha => hc.judged.mul (Exp.judged_all fun e member => (ha e member).judged)
  | .method _ ho _ ha => by
    -- The receiver of a method call is legal if the callee is.
    have args := Exp.judged_all fun e member => (ha e member).judged
    have both := (ho.judged.mul .one).mul (ho.judged.mul args)
    refine ⟨⟨both.assignable.1, both.assignable.2.2⟩, fun x => Iff.trans ?_ (both.legal x)⟩
    exact and_congr_right fun legal => (and_iff_right legal.1).symm
  | .function _ _ hb => hb.judged.function ⟨_, _, _⟩
  | .table paired hk hv =>
    .zip (by simpa [Exp.weighKeys_eq, Exp.weighEach_eq] using paired) (Exp.judged_keys fun k member => (hk k member).judged)
      (Exp.judged_all fun v member => (hv v member).judged)
  | .paren hi => hi.judged
  | .unop ho => ho.judged
  | .binop _ hl hr => hl.judged.mul hr.judged

theorem StatKind.Shaped.judged {kind : StatKind} : kind.Shaped D →
    (kind.weigh weights).Judges fun x => kind.isLegal x.isVararg x.inLoop
  | .empty | .label _ => .one
  | .goto _ => ⟨trivial, fun _ => iff_of_false id Bool.false_ne_true⟩
  | .breakLoop => ⟨trivial, fun _ => Iff.rfl⟩
  | .doBlock hb => hb.judged.scope false
  | .whileDo hg hb => hg.judged.mul (hb.judged.scope true)
  | .repeatUntil hb hg => (hb.judged.mul hg.judged).scope true
  | .ifThen paired _ hg hb => by
    have arms := Judges.zip (by simpa [Exp.weighEach_eq, Block.weighEach_eq] using paired)
      (Exp.judged_all fun g member => (hg g member).judged) (Block.judged_all fun b member => (hb b member).judged)
    rwa [List.zipWith_map_right] at arms
  | .numericFor _ hi hl hs hb => by
    have values := hi.judged.mul (hl.judged.mul (Exp.judged? fun e member => (hs e member).judged))
    have loop := (values.mul hb.judged).scope true
    simp only [← Bool.and_assoc] at loop
    exact loop
  | .genericFor _ _ _ he hb => ((Exp.judged_all fun e member => (he e member).judged).mul hb.judged).scope true
  | .localDecl _ _ he => Exp.judged_all fun e member => (he e member).judged
  | .localFunction _ _ _ hb => hb.judged.function ⟨_, _, _⟩
  | .assign _ vars ht _ hv => by
    have both := (Exp.judged_all fun t member => (ht t member).judged).mul
      (Exp.judged_all fun v member => (hv v member).judged)
    rwa [← Exp.weighTargets_of_vars vars] at both
  | .call shaped => shaped.judged
  | .ret he => Exp.judged_all fun e member => (he e member).judged

theorem Block.Shaped.judged {block : Block} : Block.Shaped D block →
    (Block.weigh weights block).Judges fun x => Block.isLegalIn x.isVararg x.inLoop block
  | .nil => .one
  | .cons hk _ hr => hk.judged.mul hr.judged

end

end

end LuaBytecode
