import LuaBytecode.Proofs.Monitor.Statements
import LuaBytecode.Proofs.Regular.Program

namespace LuaBytecode

open Lowering

variable {tight : Prop} {w : Monitor}

/-- The monitor lets everything pass that happens while a chunk is lowered: expressions fill the last register in use,
    between statements all variables are in registers in use, and functions are finished with records that order
    registers. -/
structure Monitor.Passes [NameOrder] (tight : Prop) (w : Monitor) : Prop extends ExpCode.Allows tight w where
  stat : ∀ ⦃kind m s⦄, s.Ordered tight → (∀ t, m s = .ok () t → kind.code s = .ok () t ∧ Proceeds tight s t) →
    SameResult (m s) (w.stat kind m s)
  finish : AllowsFinish tight w

theorem Lowering.ensure_around {holds : Lowering → Bool} {m : LowerM Unit} {s : Lowering} (before : holds s = true)
    (after : ∀ t, m s = .ok () t → holds t = true) : SameResult (m s)
      ((do ensure holds; m; ensure holds : LowerM Unit) s) := by
  have first : (do ensure holds; m; ensure holds : LowerM Unit) s = (do m; ensure holds : LowerM Unit) s :=
    bind_run (ensure_run before)
  rw [first]
  exact .andThen fun _ t run => ensure_run (after t run)

section

variable {E : NameOrder} [D : NameOrder]

mutual

theorem Exp.mirrors (passes : w.Passes tight) : (e : Exp) → (tight → e.Paired (fun _ => True)) →
    e.code.MirrorsAll tight (@Exp.monitored E w e)
  | .nil, _ => fun _ => ExpCode.mirrors_nil.monitored passes.toAllows fun _ => rfl
  | .bool value, _ => fun _ => (ExpCode.mirrors_bool value).monitored passes.toAllows fun _ => rfl
  | .integer _, _ | .float _, _ | .string _, _ =>
    fun _ => (ExpCode.mirrors_constant _ _).monitored passes.toAllows fun _ => rfl
  | .vararg, _ => fun _ => ExpCode.mirrors_vararg.monitored passes.toAllows fun _ => rfl
  | .name x, _ => fun _ => (ExpCode.mirrors_name x).monitored passes.toAllows fun _ => rfl
  | .index object key, h => fun k =>
    (ExpCode.mirrors_index _ (object.mirrors passes (fun holds => (h holds).1) k)
      (key.mirrors passes (fun holds => (h holds).2) k)).monitored passes.toAllows fun _ => rfl
  | .call callee args isMethod, h => fun k => by
    unfold Exp.code Exp.monitored
    rw [Exp.codes_eq]
    have args' := mirrors_at (Exp.mirrors_all passes args fun holds => (h holds).2) k
    exact (ExpCode.mirrors_call passes.slot _ (callee.mirrors passes (fun holds => (h holds).1) k) args'
      isMethod).monitored passes.toAllows fun _ => rfl
  | .function params isVararg body, h => fun k => by
    unfold Exp.code Exp.monitored
    exact (ExpCode.mirrors_plain fun a _ _ => .leaks
      (mirrors_emitFunction passes.finish (Block.keeps passes body h) params isVararg a)).monitored passes.toAllows
      fun _ => rfl
  | .table keys values, h => fun k => by
    unfold Exp.code Exp.monitored
    rw [Exp.codes_eq, Exp.keyCodes_eq]
    have paired : tight → (keys.map (Option.map Exp.code)).length ≤ (values.map Exp.code).length := fun holds => by
      simpa using (h holds).1
    have keys' := (Exp.mirrors_keys passes keys fun holds => (h holds).2.1).imp fun _ _ related =>
      ExpCode.rel_imp related fun _ _ mirrors => mirrors k
    have values' := mirrors_at (Exp.mirrors_all passes values fun holds => (h holds).2.2) k
    exact (ExpCode.mirrors_plain fun a _ room => ExpCode.mirrors_emitTable passes.slot keys' values' paired room).monitored
      passes.toAllows fun _ => rfl
  | .paren inner, h => fun k => by
    unfold Exp.code Exp.monitored
    exact (ExpCode.mirrors_plain fun a _ room => (inner.mirrors passes h k).emit a 1 room).monitored passes.toAllows
      fun _ => rfl
  | .unop op operand, h => fun k => by
    unfold Exp.code Exp.monitored
    exact (ExpCode.mirrors_plain fun a _ room => .leaks
      (ExpCode.mirrors_emitUnop op (operand.mirrors passes h k) room)).monitored passes.toAllows fun _ => rfl
  | .binop op lhs rhs, h => fun k => by
    unfold Exp.code Exp.monitored
    refine (ExpCode.mirrors_binop (lhs.mirrors passes (fun holds => (h holds).1) k)
      (rhs.mirrors passes (fun holds => (h holds).2) k) _ op).monitored passes.toAllows fun plain => ?_
    cases op <;> first | rfl | cases plain

theorem Exp.mirrors_all (passes : w.Passes tight) : (exps : List Exp) → (tight → Exp.AllPaired (fun _ => True) exps) →
    List.Forall₂ (ExpCode.MirrorsAll tight) (exps.map Exp.code) (@Exp.monitoredAll E w exps)
  | [], _ => .nil
  | e :: rest, h =>
    .cons (e.mirrors passes fun holds => (h holds).1) (Exp.mirrors_all passes rest fun holds => (h holds).2)

theorem Exp.mirrors? (passes : w.Passes tight) : (e? : Option Exp) → (tight → Exp.Paired? (fun _ => True) e?) →
    Option.Rel (ExpCode.MirrorsAll tight) (e?.map Exp.code) (@Exp.monitored? E w e?)
  | none, _ => .none
  | some e, h => .some (e.mirrors passes h)

theorem Exp.mirrors_keys (passes : w.Passes tight) : (keys : List (Option Exp)) →
    (tight → Exp.KeysPaired (fun _ => True) keys) →
    List.Forall₂ (Option.Rel (ExpCode.MirrorsAll tight)) (keys.map (Option.map Exp.code)) (@Exp.monitoredKeys E w keys)
  | [], _ => .nil
  | key :: rest, h =>
    .cons (Exp.mirrors? passes key fun holds => (h holds).1) (Exp.mirrors_keys passes rest fun holds => (h holds).2)

theorem StatKind.keeps (passes : w.Passes tight) : (kind : StatKind) → (tight → kind.Paired (fun _ => True)) →
    KeepsOrder tight kind.code (@StatKind.monitored E w kind)
  | .empty, _ | .label _, _ => .pure ()
  | .goto _, _ => KeepsOrder.get.bind fun _ => .throw _
  | .breakLoop, _ => emitBreak_keeps
  | .doBlock body, h => inScope_keeps (Block.keeps passes body h)
  | .whileDo guard body, h =>
    emitWhile_keeps (guard.mirrors passes fun holds => (h holds).1) (Block.keeps passes body fun holds => (h holds).2)
  | .repeatUntil body guard, h =>
    emitRepeat_keeps (Block.keeps passes body fun holds => (h holds).1) (guard.mirrors passes fun holds => (h holds).2)
  | .ifThen guards blocks, h => by
    unfold StatKind.code StatKind.monitored
    rw [Exp.codes_eq, Block.codes_eq]
    exact emitIf_keeps (Exp.mirrors_all passes guards fun holds => (h holds).1)
      (Block.keeps_all passes blocks fun holds => (h holds).2)
  | .numericFor var init limit step body, h => by
    unfold StatKind.code StatKind.monitored
    rw [show Exp.code? step = step.map Exp.code by cases step <;> rfl]
    exact emitNumericFor_keeps (init.mirrors passes fun holds => (h holds).1)
      (limit.mirrors passes fun holds => (h holds).2.1) (Exp.mirrors? passes step fun holds => (h holds).2.2.1)
      (Block.keeps passes body fun holds => (h holds).2.2.2) var
  | .genericFor names exps body, h => by
    unfold StatKind.code StatKind.monitored
    rw [Exp.codes_eq]
    exact emitGenericFor_keeps (Exp.mirrors_all passes exps fun holds => (h holds).2.1)
      (Block.keeps passes body fun holds => (h holds).2.2) names
  | .localDecl names exps, h => by
    unfold StatKind.code StatKind.monitored
    rw [Exp.codes_eq]
    exact emitLocals_keeps names (Exp.mirrors_all passes exps h)
  | .localFunction name params isVararg body, h => by
    unfold StatKind.code StatKind.monitored
    exact emitLocalFunction_keeps passes.finish (Block.keeps passes body h) name params isVararg
  | .assign targets values, h => by
    unfold StatKind.code StatKind.monitored
    rw [Exp.codes_eq, Exp.codes_eq]
    exact emitAssign_keeps (Exp.mirrors_all passes targets fun holds => (h holds).1)
      (Exp.mirrors_all passes values fun holds => (h holds).2)
  | .call callee args isMethod, h => by
    unfold StatKind.code StatKind.monitored
    rw [Exp.codes_eq]
    exact emitCallStatement_keeps passes.slot (callee.mirrors passes fun holds => (h holds).1)
      (Exp.mirrors_all passes args fun holds => (h holds).2) isMethod
  | .ret exps, h => by
    unfold StatKind.code StatKind.monitored
    rw [Exp.codes_eq]
    exact emitReturn_keeps (Exp.mirrors_all passes exps h)

theorem Block.keeps (passes : w.Passes tight) : (block : List Stat) → (tight → Block.Paired (fun _ => True) block) →
    KeepsOrder tight (Block.code block) (@Block.monitored E w block)
  | [], _ => .pure ()
  | .mk line kind :: rest, h => by
    have inner := kind.keeps passes fun holds => (h holds).1
    have first : KeepsOrder tight (Stat.code (.mk line kind)) (@Stat.monitored E w (.mk line kind)) := by
      refine (KeepsOrder.lift .setLine).bind fun _ s ordered => ?_
      have agrees := inner ordered
      refine ⟨agrees.same.trans (passes.stat ordered fun t run => ?_), agrees.post⟩
      have run := agrees.same.symm.ok run
      exact ⟨run, agrees.post () t run⟩
    exact first.bind fun _ => Block.keeps passes rest fun holds => (h holds).2

theorem Block.keeps_all (passes : w.Passes tight) : (blocks : List (List Stat)) →
    (tight → Block.AllPaired (fun _ => True) blocks) →
    List.Forall₂ (KeepsOrder tight) (blocks.map Block.code) (@Block.monitoredAll E w blocks)
  | [], _ => .nil
  | b :: rest, h =>
    .cons (Block.keeps passes b fun holds => (h holds).1) (Block.keeps_all passes rest fun holds => (h holds).2)

end

theorem Monitor.Passes.compile_eq {block : Block} (passes : w.Passes tight)
    (paired : tight → Block.Paired (fun _ => True) block) (name : String) :
    @Block.compileMonitored E w block name = block.compile name := by
  have ordered : chunkStart.Ordered tight := (chunkStart_rests 0).ordered
  have agrees : Agrees (emitChunk (Block.code block)) (@emitChunk E (@Block.monitored E w block)) chunkStart
      fun _ t => t.frame.OrdersRegisters ∧ (tight → t.frame.TellsRegisters) := by
    refine .bind ((TracksAt.upvalue? ordered.stacked rfl).weaken ?_)
    rintro _ u ⟨retains, used⟩
    have first : Proceeds tight chunkStart u := .ofRetains ordered retains (.of_eq used) retains.pc
    refine .bind ((Block.keeps passes block paired first.ordered).weaken fun _ v proceeds => ⟨?_, fun _ y run => ?_⟩)
    · exact .bind (.lift (Frame.exitScope_sameResult D E proceeds.ordered.stacked.layered)) fun _ _ _ => .refl _
    · obtain ⟨_, x, left, run⟩ := bind_ok run
      obtain ⟨_, _, returned, done⟩ := bind_ok run
      cases done
      exact (first.trans proceeds).finished rfl left returned
  have same : SameResult (emitChunk (Block.code block) chunkStart)
      (@emitMonitoredChunk E w (@Block.monitored E w block) chunkStart) :=
    agrees.same.trans (.andThen fun _ t run => passes.finish (agrees.post _ t (agrees.same.symm.ok run)))
  unfold Block.compileMonitored Block.compile
  simp only [ofChunk_eq, bind, Except.bind]
  cases run : emitChunk (Block.code block) chunkStart with
  | ok u t => rw [same.ok run]
  | error e t =>
    rw [run] at same
    obtain ⟨_, run'⟩ := same
    rw [run']

theorem Monitor.Passes.compile {block : Block} (passes : w.Passes tight)
    (paired : tight → Block.Paired (fun _ => True) block) {name : String} {p : Prototype}
    (compiled : block.compile name = .ok p) : block.compileMonitored w name = .ok p :=
  (passes.compile_eq paired name).trans compiled

end

theorem idle_passes [NameOrder] : Monitor.idle.Passes False where
  slot _ _ _ _ := rfl
  exp _ _ _ _ _ _ _ _ := .refl _
  stat _ _ _ _ _ := .refl _
  finish _ _ := rfl

end LuaBytecode
