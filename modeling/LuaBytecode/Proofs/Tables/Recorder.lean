import LuaBytecode.Proofs.Tables.Interpreter

namespace LuaBytecode

open Lowering ExpCode

namespace Recorder

def ops : Operators (Option Constant) where
  constant := some
  unary _ v := v
  arith _ v _ := v
  concat v _ := v
  eq _ _ := true
  lt _ _ := false
  le _ _ := true
  truthy _ := true
  index v _ := v

def args : List (Option Constant) := [some (.integer 7), some (.integer 8)]

def count (i : Instruction) : Nat := if i.b = 0 then args.length else i.b - 1

end Recorder

open Recorder

/-- An interpreter with one table, which is `none`, that keeps a record of what is stored in it. Other values are
    constants. -/
def recorder : TableInterpreter (Option Constant) (List (TableStore (Option Constant))) where
  nil := some .nil
  ops := ops
  create w := (none, w)
  store _ entry w := some (w ++ [entry])
  step p m := do
    let i ← p.code[m.pc]?
    match ← i.opcode? with
    | .loadNil => some ⟨m.pc + 1, fun r => if i.a ≤ r ∧ r ≤ i.a + i.b then some .nil else m.registers r, m.world⟩
    | .loadBool => some ⟨m.pc + 1, Function.update m.registers i.a (some (.bool (i.b != 0))), m.world⟩
    | .vararg =>
      some ⟨m.pc + 1, fun r => if i.a ≤ r ∧ r < i.a + count i then args[r - i.a]?.getD (some .nil) else m.registers r,
        m.world.1, i.a + count i⟩
    | .newTable => some ⟨m.pc + 1, Function.update m.registers i.a none, m.world⟩
    | .setTable =>
      let key ← Machine.operand ops p.constants m.registers i.b
      let value ← Machine.operand ops p.constants m.registers i.c
      some ⟨m.pc + 1, m.registers, m.world.1 ++ [.field key value], m.world.2⟩
    | .setList =>
      let (batch, next) ← p.batch? m.pc i
      let values := row m.registers (i.a + 1) (if i.b = 0 then m.world.2 - (i.a + 1) else i.b)
      some ⟨next, m.registers, m.world.1 ++ [.items ((batch - 1) * 50 + 1) values], m.world.2⟩
    | _ => none
  fills p m i found opcode := by simp [found, opcode]
  makes p m i found opcode := ⟨m.world.2, by simp [found, opcode]⟩
  storesField p m i key value w found opcode keyRead valueRead stored := by
    cases stored
    exact ⟨m.world.2, by simp [found, opcode, keyRead, valueRead]⟩
  storesItems p m i batch next w found opcode numbered stored := by
    cases stored
    exact ⟨m.world.2, by simp [found, opcode, numbered]⟩

def recorded (a : Nat) : Meaning recorder.nil (List (TableStore (Option Constant))) a where
  evaluate e σ :=
    match e.literal? with
    | some k => some ([some k], σ)
    | none => if e.isMulti then some (args, σ) else none
  ofNil _ := rfl

theorem recorded_literals (a : Nat) : (recorded a).ReadsLiterals recorder.ops := by
  intro e k σ literal
  simp only [recorded, literal]
  rfl

section Supplies

variable {a : Nat} {s₀ : Lowering}

theorem bool_supplies (value : Bool) : (Exp.bool value).Supplies recorder s₀ (recorded a) := by
  intro s s' r n _ above _ asked run m vs σ evaluated
  obtain rfl : n = 1 := asked.resolve_right fun multi => absurd multi.2 (by simp [Exp.isMulti])
  cases evaluated
  obtain ⟨_, emit, _⟩ := bind_pure_ok run
  obtain ⟨i, rfl, _, opcode, rfl, hb, _⟩ := emitAbc_lower emit
  refine .push fun p found start => ?_
  have step : recorder.step p m =
      some ⟨m.pc + 1, Function.update m.registers i.a (some (.bool (i.b != 0))), m.world⟩ := by
    simp [recorder, start ▸ found, opcode]
  refine ⟨_, step, by rw [start], ?_, ?_, ?_, ?_⟩
  · exact Process.view_eq (fun x below => Function.update_of_ne (by omega) _ _) rfl
  · intro x _ below
    exact Function.update_of_ne (by omega) _ _
  · intro _
    refine (Function.update_self _ _ _).trans ?_
    rw [hb]
    cases value <;> rfl
  · intro all
    cases all

theorem vararg_supplies : Exp.vararg.Supplies recorder s₀ (recorded a) := by
  intro s s' r n _ above _ asked run m vs σ evaluated
  cases evaluated
  replace run := bind_get_ok run
  split at run
  · obtain ⟨_, emit, _⟩ := bind_pure_ok run
    obtain ⟨i, rfl, _, opcode, rfl, hb, _⟩ := emitAbc_lower emit
    refine .push fun p found start => ?_
    have step : recorder.step p m = some ⟨m.pc + 1, fun x =>
        if i.a ≤ x ∧ x < i.a + count i then args[x - i.a]?.getD (some .nil) else m.registers x,
        m.world.1, i.a + count i⟩ := by
      simp [recorder, start ▸ found, opcode]
    have here : ∀ k, k < count i → (if i.a ≤ i.a + k ∧ i.a + k < i.a + count i then
        args[i.a + k - i.a]?.getD (some .nil) else m.registers (i.a + k)) = args[k]?.getD (some .nil) := by
      intro k below
      rw [if_pos (by omega), Nat.add_sub_cancel_left]
    refine ⟨_, step, by rw [start], ?_, ?_, ?_, ?_⟩
    · exact Process.view_eq (fun x below => if_neg (by omega)) rfl
    · intro x _ below
      exact if_neg (by omega)
    · rintro rfl
      exact here 0 (by rw [count, hb]; decide)
    · rintro rfl
      have two : count i = 2 := by rw [count, hb]; rfl
      refine ⟨?_, by rw [two]; rfl⟩
      exact congrArg₂ (fun x y => [x, y]) (here 0 (by omega)) (here 1 (by omega))
  · cases run

end Supplies

end LuaBytecode
