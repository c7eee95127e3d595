import LuaBytecode.Proofs.Ast.Paired
import LuaBytecode.Proofs.Logic.Statements

namespace LuaBytecode

open Lowering ExpCode

variable {G : Type} [Monoid G] {w : Weights G} {P : List String → Prop}

section Parts

theorem weighAll_codes (exps : List Exp) : weighAll w (Exp.codes exps []) = (Exp.weighEach w exps).prod := by
  rw [Exp.codes_eq, Exp.weighEach_eq]
  simp [weighAll, Function.comp_def]

theorem weighTargets_codes (exps : List Exp) : weighTargets w (Exp.codes exps []) = (Exp.weighTargets w exps).prod := by
  rw [Exp.codes_eq, Exp.weighTargets_eq]
  simp [weighTargets, Function.comp_def]

theorem weighCall_codes (callee : Exp) (args : List Exp) (isMethod : Bool) :
    weighCall w callee.code (Exp.codes args []) isMethod = (Exp.call callee args isMethod).weigh w := by
  rw [Exp.codes_eq, Exp.weigh, Exp.weighEach_eq]
  simp [weighCall, weighAll, ← List.map_drop, Function.comp_def]

theorem weighFields_codes (keys : List (Option Exp)) (values : List Exp) :
    weighFields w (Exp.keyCodes keys []) (Exp.codes values []) = (Exp.table keys values).weigh w := by
  have key : Exp.weigh? w = fun k => k.elim 1 (Exp.weigh w) := by
    funext k
    cases k with
    | none => rfl
    | some e => rfl
  rw [Exp.codes_eq, Exp.keyCodes_eq, Exp.weigh, Exp.weighEach_eq, Exp.weighKeys_eq, key]
  simp [weighFields, Function.comp_def]

theorem weighArms_codes (guards : List Exp) (blocks : List Block) :
    StatLogic.weighArms w (Exp.codes guards []) blocks = (StatKind.ifThen guards blocks).weigh w := by
  rw [Exp.codes_eq, StatKind.weigh, Exp.weighEach_eq, Block.weighEach_eq]
  simp [StatLogic.weighArms, Function.comp_def]

theorem weigh_code? (step : Option Exp) : (Exp.code? step).elim 1 (·.exp.weigh w) = Exp.weigh? w step := by
  cases step with
  | none => rfl
  | some e => exact congrArg (Exp.weigh w) e.code_exp

end Parts

variable (S : StatLogic w)

mutual

/-- A logic holds of the lowering of every tree, with the same tree on other lines in its place. If it counts registers,
    every key of a table has to have a value, or registers would be left in use. -/
theorem Exp.code_walks : (e : Exp) → (S.Counts → e.Paired P) → Walks S.toLogic e.code (e.atLine 0).code
  | .nil, _ => ofNil_walks
  | .bool value, _ => ofBool_walks value
  | .integer _, _ | .float _, _ | .string _, _ => ofConstant_walks rfl rfl
  | .vararg, _ => ofVararg_walks
  | .name name, _ => ofName_walks (S.names name)
  | .index object key, h => by
    have object := object.code_walks fun c => (h c).1
    have key := key.code_walks fun c => (h c).2
    refine ofIndex_walks ⟨rfl, rfl⟩ object key ?_ rfl
    rw [Exp.code_exp, Exp.code_exp, Exp.weigh]
  | .call callee args isMethod, h =>
    ofCall_walks ⟨rfl, rfl⟩ (callee.code_walks fun c => (h c).1)
      (Exp.codes_walk args fun c => (h c).2) (weighCall_codes callee args isMethod).symm rfl
  | .function params isVararg body, hb =>
    plain_walks ⟨rfl, rfl⟩ (fun a _ => S.function ⟨params, isVararg, body⟩ a fun _ => Block.code_does body hb) rfl
  | .table keys values, h => by
    have fields := fun a => emitTable_holds (Exp.keyCodes_walk keys fun c => (h c).2.1)
      (Exp.codes_walk values fun c => (h c).2.2)
      (fun c => by simpa [Exp.keyCodes_eq, Exp.codes_eq] using (h c).1) a
    exact plain_walks ⟨rfl, rfl⟩ (fun a _ => Logic.congr (fields a) (weighFields_codes keys values)) rfl
  | .paren inner, hi => by
    have walks := inner.code_walks hi
    exact plain_walks ⟨rfl, rfl⟩ (fun a _ => Logic.congr (walks.emit a 1) (by rw [Exp.code_exp, Exp.weigh])) rfl
  | .unop op operand, ho => by
    have walks := operand.code_walks ho
    exact plain_walks ⟨rfl, rfl⟩ (fun a _ => Logic.congr (emitUnop_holds op walks a) (by
      rw [Exp.code_exp, Exp.weigh])) rfl
  | .binop op lhs rhs, h => by
    have alike : Resembles (.binop op lhs rhs) (.binop op (lhs.atLine 0) (rhs.atLine 0)) := ⟨rfl, rfl⟩
    have left := lhs.code_walks fun c => (h c).1
    have right := rhs.code_walks fun c => (h c).2
    refine ofBinop_walks left right alike op ?_ rfl
    rw [Exp.code_exp, Exp.code_exp, Exp.weigh]

theorem Exp.codes_walk : (exps : List Exp) → (S.Counts → Exp.AllPaired P exps) →
    List.Forall₂ (Walks S.toLogic) (Exp.codes exps []) (Exp.codes (Exp.listAtLine 0 exps) [])
  | [], _ => .nil
  | e :: rest, h => by
    have first := e.code_walks fun c => (h c).1
    have others := Exp.codes_walk rest fun c => (h c).2
    rw [Exp.codes_eq, Exp.codes_eq] at others ⊢
    exact .cons first others

theorem Exp.code?_walk : (e? : Option Exp) → (S.Counts → Exp.Paired? P e?) →
    Option.Rel (Walks S.toLogic) (Exp.code? e?) (Exp.code? (Exp.atLine? 0 e?))
  | none, _ => .none
  | some e, h => .some (e.code_walks h)

theorem Exp.keyCodes_walk : (keys : List (Option Exp)) → (S.Counts → Exp.KeysPaired P keys) →
    List.Forall₂ (Option.Rel (Walks S.toLogic)) (Exp.keyCodes keys []) (Exp.keyCodes (Exp.keysAtLine 0 keys) [])
  | [], _ => .nil
  | key :: rest, h => by
    have first := Exp.code?_walk key fun c => (h c).1
    have others := Exp.keyCodes_walk rest fun c => (h c).2
    rw [Exp.keyCodes_eq, Exp.keyCodes_eq] at others ⊢
    refine .cons ?_ others
    cases key with
    | none => exact first
    | some e => exact first

theorem StatKind.code_does : (kind : StatKind) → (S.Counts → kind.Paired P) → ∀ {n},
    S.Does n false (kind.weigh w) kind.code (kind.atLine 0).code
  | .empty, _, _ | .label _, _, _ => S.done ()
  | .goto label, _, _ => S.goto label
  | .breakLoop, _, _ => S.leave
  | .doBlock body, hb, _ => StatLogic.inScope (Block.code_does body hb)
  | .whileDo guard body, h, n => by
    have inside := Block.code_does (n := n) body fun c => (h c).2
    have loop := StatLogic.emitWhile (guard.code_walks fun c => (h c).1) inside
    rwa [Exp.code_exp] at loop
  | .repeatUntil body guard, h, n => by
    have inside := Block.code_does (n := n) body fun c => (h c).1
    have loop := StatLogic.emitRepeat inside (guard.code_walks fun c => (h c).2)
    rwa [Exp.code_exp] at loop
  | .ifThen guards blocks, h, n => by
    have inside := Block.codes_do (n := n) blocks fun c => (h c).2
    have arms := StatLogic.emitIf (Exp.codes_walk guards fun c => (h c).1) inside
    rw [weighArms_codes] at arms
    rw [StatKind.code, StatKind.atLine, StatKind.code, Block.codes_eq, Block.codes_eq, Block.listAtLine_eq]
    simpa [Function.comp_def] using arms
  | .numericFor var init limit step body, h, n => by
    have inside := Block.code_does (n := n) body fun c => (h c).2.2.2
    have loop := StatLogic.emitNumericFor (init.code_walks fun c => (h c).1)
      (limit.code_walks fun c => (h c).2.1) (Exp.code?_walk step fun c => (h c).2.2.1) inside var
    rwa [Exp.code_exp, Exp.code_exp, weigh_code?] at loop
  | .genericFor names exps body, h, n => by
    have inside := Block.code_does (n := n) body fun c => (h c).2.2
    have loop := StatLogic.emitGenericFor (Exp.codes_walk exps fun c => (h c).2.1) inside names
    rwa [weighAll_codes] at loop
  | .localDecl names exps, he, n => by
    have locals := StatLogic.emitLocals (n := n) (Exp.codes_walk exps he) names
    rwa [weighAll_codes] at locals
  | .localFunction name params isVararg body, hb, _ =>
    StatLogic.emitLocalFunction ⟨params, isVararg, body⟩ (fun _ => Block.code_does body hb) name
  | .assign targets values, h, _ => by
    have stores := emitAssign_holds (Exp.codes_walk targets fun c => (h c).1)
      (Exp.codes_walk values fun c => (h c).2)
    rw [weighTargets_codes, weighAll_codes] at stores
    exact S.ofHolds stores
  | .call callee args isMethod, h, _ => by
    have call := emitCallStatement_holds (callee.code_walks fun c => (h c).1)
      (Exp.codes_walk args fun c => (h c).2) isMethod
    rw [weighCall_codes] at call
    exact S.ofHolds call
  | .ret exps, he, _ => by
    have returns := emitReturn_holds (Exp.codes_walk exps he)
    rw [weighAll_codes] at returns
    exact S.ofHolds returns

theorem Block.code_does : (block : List Stat) → (S.Counts → Block.Paired P block) → ∀ {n},
    S.Does n false (Block.weigh w block) (Block.code block) (Block.code (Block.atLine 0 block))
  | [], _, _ => S.done ()
  | .mk line kind :: rest, h, _ =>
    S.next (S.line line (StatKind.code_does kind fun c => (h c).1)) fun _ =>
      Block.code_does rest fun c => (h c).2

theorem Block.codes_do : (blocks : List (List Stat)) → (S.Counts → Block.AllPaired P blocks) → ∀ {n},
    ∀ b ∈ blocks, S.Does n false (Block.weigh w b) (Block.code b) (Block.code (Block.atLine 0 b))
  | [], _, _ => nofun
  | body :: rest, h, n => by
    have first := Block.code_does (n := n) body fun c => (h c).1
    have others := Block.codes_do (n := n) rest fun c => (h c).2
    exact List.forall_mem_cons.mpr ⟨first, others⟩

end

end LuaBytecode
