import LuaBytecode.Proofs.Expression.Operands
import LuaBytecode.Proofs.Grammar.Shape

namespace LuaBytecode

open Lowering

variable {s s' : Lowering} {a : Nat} {u : Unit} {e : Exp} {V : Type} {ops : Operators V} {vars : String → V}
  {live : List Binding}

theorem Frame.Executes.finish {t : Lowering} {kept : Nat} {i : Instruction} {v : V}
    {mid : Array Constant → (Nat → V) → Prop} (exec : s.frame.Executes ops vars t.frame kept mid) (before : s.Appends t)
    (used : t.frame.used = a + 1) (fits : a ≤ 255) (fewer : a ≤ kept)
    (step : ∀ p : Program, p.Includes t.frame s.frame.pc t.frame.pc → p.code[t.frame.pc]? = some i →
      ∀ R, mid p.constants R → p.step ops ⟨t.frame.pc, R⟩ = some (Machine.load ⟨t.frame.pc, R⟩ a v)) :
    s.Appends (t.push i) ∧ t.frame.used = a + 1 ∧ a ≤ 255 ∧
      s.frame.Executes ops vars (t.frame.push i) a fun _ R => R a = v := by
  refine ⟨before.push i, used, fits, ?_⟩
  refine exec.push before.frame fewer fun p includes found R reached => ?_
  refine ⟨Function.update R a v, step p includes found R reached, Function.update_self .., fun r below => ?_⟩
  exact Function.update_of_ne (Nat.ne_of_lt below) ..

section Literals

theorem Frame.Executes.start (f : Frame) (kept : Nat) : f.Executes ops vars f kept fun _ R => f.Holds vars R :=
  .nothing rfl fun _ _ _ held => held

theorem evaluates_nil : Evaluates ops vars live ExpCode.ofNil.emit (ops.constant .nil) := by
  intro a u s s' run hlive used below
  obtain ⟨pc, emit, rfl⟩ := bind_pure_ok run
  obtain ⟨i, rfl, _, hop, ha, hb, _, fits⟩ := emitAbc_lower emit
  refine (Frame.Executes.start s.frame a).finish (.refl s) used fits Nat.le.refl fun p _ found R _ => ?_
  have one : (fun r => if a ≤ r ∧ r ≤ a + 0 then ops.constant .nil else R r) =
      Function.update R a (ops.constant .nil) := by
    funext r
    rcases Nat.lt_trichotomy r a with less | rfl | more
    · simp [Function.update_of_ne (Nat.ne_of_lt less), show ¬ a ≤ r by omega]
    · simp
    · simp [Function.update_of_ne (Nat.ne_of_gt more), show ¬ r ≤ a by omega]
  rw [Program.step_eq found hop]
  simp [Program.execute, ha, hb, Machine.load, ← one]

theorem evaluates_bool (value : Bool) :
    Evaluates ops vars live (ExpCode.ofBool value).emit (ops.constant (.bool value)) := by
  intro a u s s' run hlive used below
  obtain ⟨pc, emit, rfl⟩ := bind_pure_ok run
  obtain ⟨i, rfl, _, hop, ha, hb, hc, fits⟩ := emitAbc_lower emit
  refine (Frame.Executes.start s.frame a).finish (.refl s) used fits Nat.le.refl fun p _ found R _ => ?_
  rw [Program.step_eq found hop]
  cases value <;> simp [Program.execute, ha, hb, hc, Machine.load, Operators.bool]

theorem evaluates_constant (e : Exp) (k : Constant) :
    Evaluates ops vars live (ExpCode.ofConstant e k).emit (ops.constant k) := by
  intro a u s s' run hlive used below
  obtain ⟨pc, emit, rfl⟩ := bind_pure_ok run
  obtain ⟨f, load, rfl⟩ := lift_ok emit
  obtain ⟨index, g, insert, rest⟩ := bind_ok load
  obtain ⟨found, before, same⟩ := Frame.constantIndex_ok insert
  have code : g.code = s.frame.code := by rw [same]
  have appends : s.frame.Appends g := ⟨by rw [same], code ▸ List.prefix_rfl, before⟩
  have used' : g.used = a + 1 := by rw [same]; exact used
  have exec : s.frame.Executes ops vars g a fun constants _ => constants[index]? = some k :=
    .nothing (by rw [Frame.pc, code, Frame.pc]) fun p includes _ _ => includes.constant found
  split at rest
  · obtain ⟨i, built, _, rfl⟩ := Frame.emitAbx_ok rest
    obtain ⟨hop, ha, hbx, fits, _⟩ := Instruction.abx_ok built
    refine exec.finish (s := s) (t := ⟨g, s.enclosing⟩) ⟨appends, rfl⟩ used' fits Nat.le.refl ?_
    intro p _ at' R constant
    rw [Program.step_eq at' hop]
    simp [Program.execute, ha, hbx, constant]
  · -- the index is in the word after the instruction, and the machine reads both in one step
    obtain ⟨_, g', first, rest⟩ := bind_ok rest
    obtain ⟨i, built, _, rfl⟩ := Frame.emitAbx_ok first
    obtain ⟨_, g', second, done⟩ := bind_ok rest
    obtain ⟨j, built', _, rfl⟩ := Frame.emitAx_ok second
    obtain ⟨rfl, rfl⟩ := pure_ok done
    obtain ⟨hop, ha, _, fits, _⟩ := Instruction.abx_ok built
    obtain ⟨hop', hax⟩ := Instruction.ax_ok built'
    refine ⟨⟨appends.trans ((Frame.Appends.ofPush i).trans (.ofPush j)), rfl⟩, used', fits, ?_⟩
    intro small p includes R held
    have start : g.pc = s.frame.pc := by rw [Frame.pc, code, Frame.pc]
    simp only [Frame.push_pc, start] at includes ⊢
    have at₁ : p.code[s.frame.pc + 1]? = some j := includes.pushed (by simp [start]) (by omega) (by omega)
    have before := (includes.narrow Nat.le.refl (Nat.le_succ _)).earlier (.ofPush j) (by simp [start])
    have at₀ : p.code[s.frame.pc]? = some i := before.pushed start.symm (by omega) (by omega)
    have constant := includes.constant found
    refine ⟨Function.update R a (ops.constant k), .one Nat.le.refl (by omega) ?_, Function.update_self .., ?_⟩
    · rw [Program.step_eq at₀ hop]
      simp [Program.execute, at₁, hop', hax, ha, constant]
    · exact fun r below => Function.update_of_ne (Nat.ne_of_lt below) ..

end Literals

section Operations

variable {c lhs rhs object key : ExpCode} {v x y : V} {name : String} {emits : List (Nat → Int → LowerM Unit)}

theorem resolve_local {r : Nat} (found : s.frame.register? name = some r) :
    resolve name s = .ok (some (.register r)) s := by
  rw [resolve, bind_run (show (get : LowerM Lowering) s = .ok s s from rfl), found]
  rfl

theorem evaluates_name (bound : ∀ s : Lowering, s.frame.live = live → s.frame.Binds name) :
    Evaluates ops vars live (ExpCode.ofName name).emit (vars name) := by
  intro a u s s' run hlive used below
  obtain ⟨r, found⟩ := Option.isSome_iff_exists.mp (bound s hlive)
  obtain ⟨place, t, resolve, rest⟩ := bind_ok run
  rw [resolve_local found] at resolve
  cases resolve
  obtain ⟨_, emit, rfl⟩ := bind_pure_ok rest
  obtain ⟨i, rfl, _, hop, ha, hb, _, fits⟩ := emitAbc_lower emit
  refine (Frame.Executes.start s.frame a).finish (.refl s) used fits Nat.le.refl fun p _ at' R held => ?_
  rw [Program.step_eq at' hop]
  simp [Program.execute, ha, hb, held name r found]

theorem above (used : s.frame.used = a + 1) (below : ∀ b ∈ live, b.register < a) :
    ∀ b ∈ live, b.register < s.frame.used := by
  intro b member
  have := below b member
  omega

theorem evaluates_unop (op : UnOp) (h : c.Computes ops vars live v) :
    Evaluates ops vars live (fun a _ => ExpCode.emitUnop op c a) (ops.unary op v) := by
  intro a u s s' run hlive used below
  obtain ⟨r, t, scratched, rest⟩ := bind_ok run
  obtain ⟨t, operand, rfl⟩ := scratch_ok scratched
  obtain ⟨before, _, _, _, exec⟩ := h.toRegister hlive (above used below) operand
  obtain ⟨_, emit, rfl⟩ := bind_pure_ok rest
  obtain ⟨i, rfl, _, hop, ha, hb, _, fits⟩ := emitAbc_lower emit
  refine (exec.withUsed s.frame.used).finish (before.withUsed _) used fits (by omega) fun p _ at' R value => ?_
  rw [Program.step_eq at' hop]
  cases op <;> simp [Program.execute, ha, hb, Opcode.arith?, Opcode.unary?, value]

theorem toRks_ok {b c : Nat} (hl : lhs.Computes ops vars live x) (hr : rhs.Computes ops vars live y)
    (hlive : s.frame.live = live) (below : ∀ b ∈ live, b.register < s.frame.used)
    (run : ExpCode.toRks lhs rhs s = .ok (b, c) s') : s.Appends s' ∧ s'.frame.used = s.frame.used ∧
      s.frame.Executes ops vars s'.frame s.frame.used fun constants R =>
        Machine.operand ops constants R b = some x ∧ Machine.operand ops constants R c = some y := by
  obtain ⟨t, inner, rfl⟩ := scratch_ok run
  obtain ⟨b', t₁, left, rest⟩ := bind_ok inner
  obtain ⟨c', right, same⟩ := bind_pure_ok rest
  cases same
  obtain ⟨before, more, inside, exec⟩ := hl.toRk hlive below left
  have hlive' : t₁.frame.live = live := before.frame.live.trans hlive
  have below' : ∀ b ∈ live, b.register < t₁.frame.used := fun b member => Nat.lt_of_lt_of_le (below b member) more
  obtain ⟨after, _, _, exec'⟩ := hr.toRk hlive' below' right
  refine ⟨(before.trans after).withUsed _, rfl, Frame.Executes.withUsed ?_ _⟩
  refine exec.andThen exec' before.frame after.frame (by rwa [hlive]) more ?_
  intro constants R R' first same second
  refine ⟨?_, second⟩
  rw [← first]
  exact operand_congr fun register => same b (inside register)

theorem evaluates_index (e : Exp) (ho : object.Computes ops vars live x) (hk : key.Computes ops vars live y) :
    Evaluates ops vars live (ExpCode.ofIndex e object key).emit (ops.index x y) := by
  intro a u s s' run hlive used below
  have below' := above used below
  obtain ⟨⟨place, rk⟩, t, operands, rest⟩ := bind_ok run
  obtain ⟨t, inner, rfl⟩ := scratch_ok operands
  obtain ⟨place', t₁, table, rest'⟩ := bind_ok inner
  obtain ⟨rk', keyed, same⟩ := bind_pure_ok rest'
  cases same
  obtain ⟨r, rfl, before, more, inside, exec⟩ := ho.toTable hlive below' table
  have hlive' : t₁.frame.live = live := before.frame.live.trans hlive
  have below'' : ∀ b ∈ live, b.register < t₁.frame.used := fun b member => Nat.lt_of_lt_of_le (below' b member) more
  obtain ⟨after, _, _, exec'⟩ := hk.toRk hlive' below'' keyed
  have both : s.frame.Executes ops vars t.frame s.frame.used fun constants R =>
      R r = x ∧ Machine.operand ops constants R rk = some y := by
    refine exec.andThen exec' before.frame after.frame (by rwa [hlive]) more ?_
    exact fun constants R R' first same second => ⟨(same r inside).trans first, second⟩
  obtain ⟨_, emit, rfl⟩ := bind_pure_ok rest
  obtain ⟨i, rfl, _, hop, ha, hb, hc, fits⟩ := emitAbc_lower emit
  refine (both.withUsed s.frame.used).finish ((before.trans after).withUsed _) used fits (by omega) ?_
  rintro p _ at' R ⟨table, value⟩
  rw [Program.step_eq at' hop]
  simp [Program.execute, ha, hb, hc, table, value]

theorem evaluates_arith (opcode : Opcode) {op : BinOp} (meaning : opcode.arith? = some op)
    (hl : lhs.Computes ops vars live x) (hr : rhs.Computes ops vars live y) :
    Evaluates ops vars live (fun a _ => do
      let (b, c) ← ExpCode.toRks lhs rhs
      let _ ← Frame.emitAbc opcode a b c) (ops.arith op x y) := by
  intro a u s s' run hlive used below
  obtain ⟨⟨b, c⟩, t, operands, rest⟩ := bind_ok run
  obtain ⟨before, used', exec⟩ := toRks_ok hl hr hlive (fun b member => by have := below b member; omega) operands
  obtain ⟨_, emit, rfl⟩ := bind_pure_ok rest
  obtain ⟨i, rfl, _, hop, ha, hb, hc, fits⟩ := emitAbc_lower emit
  refine exec.finish before (used'.trans used) fits (by omega) ?_
  rintro p _ at' R ⟨left, right⟩
  rw [Program.step_eq at' hop, Program.execute_arith _ _ meaning]
  simp [ha, hb, hc, left, right]

theorem emitComparison_ok {opcode : Opcode} {holds : V → V → Bool} {expect b c kept : Nat} {t : Lowering}
    {mid : Array Constant → (Nat → V) → Prop}
    (meaning : ∀ (p : Program) m i, p.execute ops m i opcode = Program.execute.compare ops p m i holds)
    (exec : s.frame.Executes ops vars t.frame kept mid) (before : s.Appends t) (used : t.frame.used = a + 1)
    (fewer : a ≤ kept) (left : ∀ constants R, mid constants R → Machine.operand ops constants R b = some x)
    (right : ∀ constants R, mid constants R → Machine.operand ops constants R c = some y)
    (run : ExpCode.emitComparison opcode expect b c a t = .ok u s') : s.Appends s' ∧ s'.frame.used = a + 1 ∧ a ≤ 255 ∧
      s.frame.Executes ops vars s'.frame a fun _ R => R a = ops.bool (holds x y == (expect != 0)) := by
  obtain ⟨_, t₁, compare, rest⟩ := bind_ok run
  obtain ⟨i₀, rfl, _, hop₀, ha₀, hb₀, hc₀, _⟩ := emitAbc_lower compare
  obtain ⟨_, t₂, jump, rest⟩ := bind_ok rest
  obtain ⟨i₁, rfl, _, hop₁, _, hsbx₁⟩ := emitJmp_lower jump
  obtain ⟨_, t₃, load, rest⟩ := bind_ok rest
  obtain ⟨i₂, rfl, _, hop₂, ha₂, hb₂, hc₂, fits⟩ := emitAbc_lower load
  obtain ⟨_, t₄, load', done⟩ := bind_ok rest
  obtain ⟨i₃, rfl, _, hop₃, ha₃, hb₃, hc₃, _⟩ := emitAbc_lower load'
  obtain ⟨rfl, rfl⟩ := pure_ok done
  have after := ((((Appends.refl t).push i₀).push i₁).push i₂).push i₃
  refine ⟨before.trans after, by simp [used], fits, ?_⟩
  intro small p includes R held
  have middle := before.frame.pc_le
  simp only [push_frame, Frame.push_pc] at includes ⊢
  obtain ⟨R₁, run₁, reached, same₁⟩ :=
    exec small p ((includes.narrow Nat.le.refl (by omega)).earlier after.frame Nat.le.refl) R held
  have at₃ := includes.pushed (show t.frame.pc + 3 = _ by simp) (by omega) (by omega)
  have includes₂ := (includes.narrow Nat.le.refl (Nat.le_succ _)).earlier (.ofPush i₃) (by simp)
  have at₂ := includes₂.pushed (show t.frame.pc + 2 = _ by simp) (by omega) (by omega)
  have includes₁ := (includes₂.narrow Nat.le.refl (Nat.le_succ _)).earlier (.ofPush i₂) (by simp)
  have at₁ := includes₁.pushed (show t.frame.pc + 1 = _ by simp) (by omega) (by omega)
  have includes₀ := (includes₁.narrow Nat.le.refl (Nat.le_succ _)).earlier (.ofPush i₁) (by simp)
  have at₀ := includes₀.pushed rfl (by omega) (by omega)
  have first : p.step ops ⟨t.frame.pc, R₁⟩ =
      some ⟨bif holds x y == (expect != 0) then t.frame.pc + 1 else t.frame.pc + 2, R₁⟩ := by
    rw [Program.step_eq at₀ hop₀, meaning]
    simp only [Program.execute.compare, ha₀, hb₀, hc₀, left _ _ reached, right _ _ reached, Machine.next, bne,
      Option.bind_eq_bind, Option.bind_some]
    cases holds x y == !expect == 0 <;> rfl
  generalize (holds x y == (expect != 0)) = outcome at first ⊢
  refine ⟨Function.update R₁ a (ops.bool outcome), ?_, Function.update_self .., fun r below => ?_⟩
  · refine (run₁.mono Nat.le.refl (by omega)).trans (.cons middle (by omega) first ?_)
    cases outcome with
    | false =>
      apply Program.Runs.one (show s.frame.pc ≤ t.frame.pc + 2 by omega) (by omega)
      rw [Program.step_eq at₂ hop₂]
      simp [Program.execute, ha₂, hb₂, hc₂]
    | true =>
      have across : p.step ops ⟨t.frame.pc + 1, R₁⟩ = some ⟨t.frame.pc + 3, R₁⟩ := by
        rw [Program.step_eq at₁ hop₁]
        simp only [Program.execute, Machine.jump, hsbx₁]
        rw [if_pos (by omega)]
        congr 2
      apply Program.Runs.cons (show s.frame.pc ≤ t.frame.pc + 1 by omega) (by omega) across
      apply Program.Runs.one (by omega) (by omega)
      rw [Program.step_eq at₃ hop₃]
      simp [Program.execute, ha₃, hb₃, hc₃]
  · rw [Function.update_of_ne (Nat.ne_of_lt below)]
    exact same₁ r (Nat.lt_of_lt_of_le below fewer)

theorem evaluates_logical (stopIf : Bool) (hl : lhs.Computes ops vars live x) (hr : rhs.Computes ops vars live y) :
    Evaluates ops vars live (fun a _ => ExpCode.emitLogical stopIf lhs rhs a)
      (bif ops.truthy x == stopIf then x else y) := by
  intro a u s s' run hlive used below
  have below' := above used below
  obtain ⟨b, t, scratched, rest⟩ := bind_ok run
  obtain ⟨t, left, rfl⟩ := scratch_ok scratched
  obtain ⟨before, _, _, _, exec⟩ := hl.toRegister hlive below' left
  obtain ⟨_, _, test, rest⟩ := bind_ok rest
  obtain ⟨i₀, rfl, _, hop₀, ha₀, hb₀, hc₀, fits⟩ := emitAbc_lower test
  obtain ⟨done, _, jump, rest⟩ := bind_ok rest
  obtain ⟨i₁, rfl, at_done, hop₁, _⟩ := emitJmp_lower jump
  obtain ⟨c, _, scratched', rest⟩ := bind_ok rest
  simp only [push_frame, withUsed_frame] at at_done
  -- the state in which the right operand is lowered
  generalize hg : ((t.withUsed s.frame.used).push i₀).push i₁ = g at scratched'
  obtain ⟨t', right, rfl⟩ := scratch_ok scratched'
  have gpc : g.frame.pc = t.frame.pc + 2 := by simp [← hg]
  have glive : g.frame.live = live := by simpa [← hg, before.frame.live] using hlive
  have gused : g.frame.used = s.frame.used := by simp [← hg]
  have tg : t.frame.Appends g.frame := by
    rw [← hg]
    exact ((((Appends.refl t).withUsed _).push i₀).push i₁).frame
  have hdone : done = t.frame.pc + 1 := by simpa using at_done
  have jumped : g.frame.code[done]? = some i₁ := by
    rw [at_done, ← hg]
    exact Array.getElem?_push_size
  obtain ⟨after, _, _, _, exec'⟩ := hr.toRegister glive (by rwa [gused]) right
  obtain ⟨_, _, move, patch⟩ := bind_ok rest
  obtain ⟨i₂, rfl, _, hop₂, ha₂, hb₂, _, _⟩ := emitAbc_lower move
  have gt : g.frame.Appends ((t'.frame.withUsed g.frame.used).push i₂) := (after.frame.withUsed _).trans (.ofPush i₂)
  have jumped' : ((t'.frame.withUsed g.frame.used).push i₂).code[done]? = some i₁ := by
    rw [← jumped]
    exact getElem?_of_prefixed gt.code (by rw [← Frame.pc]; omega)
  obtain ⟨j, rfl, hopj, _, hsbx⟩ := patchHere_lower jumped' hop₁ patch
  have middle := before.frame.pc_le
  have late := after.frame.pc_le
  have whole : s.frame.Appends (((t'.frame.withUsed g.frame.used).push i₂).replace done j) :=
    ((before.frame.trans tg).trans gt).patch (by omega) j
  have enclosing : t'.enclosing = s.enclosing := by
    rw [after.enclosing, ← hg]
    exact before.enclosing
  refine ⟨⟨whole, enclosing⟩, gused.trans used, fits, ?_⟩
  intro small p includes R held
  simp only [replace_frame, push_frame, withUsed_frame, Frame.replace_pc, Frame.push_pc, Frame.withUsed_pc]
    at includes hsbx ⊢
  -- the pieces of the code as they were emitted
  have atj := includes.patched (by omega) (by omega) (by simp; omega)
  have lower : p.Includes t.frame s.frame.pc t.frame.pc :=
    ((includes.narrow Nat.le.refl (by omega)).unpatched (by omega)).earlier (tg.trans gt) Nat.le.refl
  have upper : p.Includes ((t'.frame.withUsed g.frame.used).push i₂) g.frame.pc (t'.frame.pc + 1) :=
    (includes.narrow (by omega) Nat.le.refl).unpatched (by omega)
  have at₂ := upper.pushed (show t'.frame.pc = _ by simp) late (Nat.lt_succ_self _)
  have at₀ : p.code[t.frame.pc]? = some i₀ := by
    have early : p.Includes g.frame s.frame.pc (t.frame.pc + 1) :=
      ((includes.narrow Nat.le.refl (by omega)).unpatched (by omega)).earlier gt (by omega)
    rw [← hg] at early
    exact (early.earlier (.ofPush i₁) (by simp)).pushed (by simp) middle (Nat.lt_succ_self _)
  obtain ⟨R₁, run₁, value₁, same₁⟩ := exec small p lower R held
  cases decides : ops.truthy x == stopIf with
  | true =>
    refine ⟨Function.update R₁ a x, ?_, Function.update_self .., fun r below => ?_⟩
    · refine (run₁.mono Nat.le.refl (by omega)).trans ?_
      have first : p.step ops ⟨t.frame.pc, R₁⟩ = some ⟨t.frame.pc + 1, Function.update R₁ a x⟩ := by
        rw [Program.step_eq at₀ hop₀]
        simp only [Program.execute, ha₀, hb₀, hc₀, value₁]
        rw [if_pos (by cases stopIf <;> simpa using decides)]
        rfl
      refine .cons middle (by omega) first (.one (by omega) (by omega) ?_)
      rw [← hdone, Program.step_eq atj hopj]
      simp only [Program.execute, Machine.jump, hsbx, Frame.jumpOffset]
      rw [if_pos (by omega)]
      congr 2
      omega
    · rw [Function.update_of_ne (Nat.ne_of_lt below), same₁ r (by omega)]
  | false =>
    have held' : g.frame.Holds vars R₁ :=
      Frame.Executes.holds_of_kept (before.frame.trans tg) held (by rwa [hlive]) same₁
    obtain ⟨R₂, run₂, value₂, same₂⟩ := exec' (by rw [glive, ← hlive]; exact small) p
      ((upper.narrow Nat.le.refl (by omega)).earlier (((Frame.Appends.refl _).withUsed _).trans (.ofPush i₂))
        Nat.le.refl) R₁ held'
    refine ⟨Function.update R₂ a y, ?_, Function.update_self .., fun r below => ?_⟩
    · refine (run₁.mono Nat.le.refl (by omega)).trans ?_
      have first : p.step ops ⟨t.frame.pc, R₁⟩ = some ⟨g.frame.pc, R₁⟩ := by
        rw [Program.step_eq at₀ hop₀]
        simp only [Program.execute, ha₀, hb₀, hc₀, value₁, Machine.next]
        rw [if_neg (by cases stopIf <;> simpa using decides), gpc]
        rfl
      refine .cons middle (by omega) first ((run₂.mono (by omega) (by omega)).trans (.one (by omega) (by omega) ?_))
      rw [Program.step_eq at₂ hop₂]
      simp [Program.execute, ha₂, hb₂, value₂, Machine.load]
    · rw [Function.update_of_ne (Nat.ne_of_lt below), same₂ r (by omega), same₁ r (by omega)]

theorem loadOperands_ok {values : List V} (h : List.Forall₂ (Evaluates ops vars live) emits values)
    (hlive : s.frame.live = live) (below : ∀ b ∈ live, b.register < s.frame.used)
    (run : ExpCode.loadOperands emits s = .ok u s') : s.Appends s' ∧ s'.frame.used = s.frame.used + emits.length ∧
      s.frame.Executes ops vars s'.frame s.frame.used fun _ R =>
        ∀ k v, values[k]? = some v → R (s.frame.used + k) = v := by
  induction h generalizing s with
  | nil =>
    obtain ⟨rfl, rfl⟩ := pure_ok run
    exact ⟨.refl _, rfl, .nothing rfl fun p _ R _ k v absent => by simp at absent⟩
  | @cons emit v emits values first _ ih =>
    obtain ⟨r, f, alloc, rest⟩ := bind_lift_ok run
    obtain ⟨_, t, emitted, others⟩ := bind_ok rest
    obtain ⟨before, rfl, used, _, exec⟩ := first.inNewRegister hlive below alloc emitted
    have hlive' : t.frame.live = live := before.frame.live.trans hlive
    obtain ⟨after, used', exec'⟩ := ih hlive' (fun b member => by have := below b member; omega) others
    refine ⟨before.trans after, by simp only [List.length_cons]; omega, ?_⟩
    refine exec.andThen exec' before.frame after.frame (by rwa [hlive]) (by omega) ?_
    intro constants R R' value same values k w found
    cases k with
    | zero =>
      cases found
      exact (same _ (by omega)).trans value
    | succ k =>
      rw [← values k w found, used]
      congr 1
      omega

theorem concatRow_eq_concatAll {R : Nat → V} {first : Nat} {more : List V}
    (h : ∀ k w, (v :: more)[k]? = some w → R (first + k) = w) :
    ops.concatRow R first more.length = ops.concatAll v more := by
  induction more generalizing first v with
  | nil => exact h 0 v rfl
  | cons w more ih =>
    have head : R first = v := h 0 v rfl
    have shifted : ∀ k w', (w :: more)[k]? = some w' → R (first + 1 + k) = w' := fun k w' found => by
      rw [← h (k + 1) w' found]
      congr 1
      omega
    simp only [List.length_cons, Operators.concatRow, Operators.concatAll, head, ih shifted]

theorem evaluates_concat {w : V} {ws : List V} (h : List.Forall₂ (Evaluates ops vars live) emits (w :: ws)) :
    Evaluates ops vars live (fun a _ => ExpCode.emitConcat emits a) (ops.concatAll w ws) := by
  intro a u s s' run hlive used below
  have rest := bind_used_ok run
  obtain ⟨_, t, load, rest⟩ := bind_ok rest
  obtain ⟨before, used', exec⟩ := loadOperands_ok h hlive (above used below) load
  obtain ⟨_, _, subtract, rest⟩ := bind_ok rest
  obtain ⟨_, rfl, rfl⟩ := difference_lower subtract
  obtain ⟨_, _, freed, rest⟩ := bind_ok rest
  obtain ⟨top, less, rfl⟩ := freeN_lower freed
  obtain ⟨_, emit, rfl⟩ := bind_pure_ok rest
  obtain ⟨i, rfl, _, hop, ha, hb, hc, fits⟩ := emitAbc_lower emit
  have count : emits.length = ws.length + 1 := by simpa using h.length_eq
  refine (exec.withUsed top).finish (before.withUsed top) (by simp; omega) fits (by omega) fun p _ at' R values => ?_
  have row : i.c - i.b = ws.length := by omega
  rw [Program.step_eq at' hop, Program.execute, row, ha, hb, concatRow_eq_concatAll values]
  rfl

theorem evaluates_comparison (opcode : Opcode) (holds : V → V → Bool) (expect : Nat) (swap : Bool)
    (meaning : ∀ (p : Program) m i, p.execute ops m i opcode = Program.execute.compare ops p m i holds)
    (hl : lhs.Computes ops vars live x) (hr : rhs.Computes ops vars live y)
    (value : v = ops.bool ((if swap then holds y x else holds x y) == (expect != 0))) :
    Evaluates ops vars live (fun a _ => do
      let (b, c) ← ExpCode.toRks lhs rhs
      if swap then ExpCode.emitComparison opcode expect c b a else ExpCode.emitComparison opcode expect b c a) v := by
  intro a u s s' run hlive used below
  subst value
  obtain ⟨⟨b, c⟩, t, operands, rest⟩ := bind_ok run
  obtain ⟨before, used', exec⟩ := toRks_ok hl hr hlive (fun b member => by have := below b member; omega) operands
  cases swap with
  | true =>
    exact emitComparison_ok meaning exec before (used'.trans used) (by omega) (fun _ _ both => both.2)
      (fun _ _ both => both.1) rest
  | false =>
    exact emitComparison_ok meaning exec before (used'.trans used) (by omega) (fun _ _ both => both.1)
      (fun _ _ both => both.2) rest

theorem evaluates_binop (op : BinOp) (other : op ≠ .concat) (hl : lhs.Computes ops vars live x)
    (hr : rhs.Computes ops vars live y) :
    Evaluates ops vars live (fun a _ => ExpCode.emitBinop op lhs rhs a) (ops.binary op x y) := by
  have compare := fun (opcode : Opcode) (holds : V → V → Bool) (expect : Nat) (swap : Bool) (v : V) meaning value =>
    evaluates_comparison (v := v) opcode holds expect swap meaning hl hr value
  cases op with
  | and =>
    have value : ops.binary .and x y = bif ops.truthy x == false then x else y := by
      cases truthy : ops.truthy x <;> simp [Operators.binary, truthy]
    rw [value]
    exact evaluates_logical false hl hr
  | or =>
    have value : ops.binary .or x y = bif ops.truthy x == true then x else y := by
      cases truthy : ops.truthy x <;> simp [Operators.binary, truthy]
    rw [value]
    exact evaluates_logical true hl hr
  | concat => exact absurd rfl other
  | eq => exact compare .eq ops.eq 1 false _ (fun _ _ _ => rfl) (by simp [Operators.binary])
  | notEq => exact compare .eq ops.eq 0 false _ (fun _ _ _ => rfl) (by simp [Operators.binary])
  | lt => exact compare .lt ops.lt 1 false _ (fun _ _ _ => rfl) (by simp [Operators.binary])
  | ltEq => exact compare .le ops.le 1 false _ (fun _ _ _ => rfl) (by simp [Operators.binary])
  | gt => exact compare .lt ops.lt 1 true _ (fun _ _ _ => rfl) (by simp [Operators.binary])
  | gtEq => exact compare .le ops.le 1 true _ (fun _ _ _ => rfl) (by simp [Operators.binary])
  | add => exact evaluates_arith .add rfl hl hr
  | sub => exact evaluates_arith .sub rfl hl hr
  | mul => exact evaluates_arith .mul rfl hl hr
  | div => exact evaluates_arith .div rfl hl hr
  | idiv => exact evaluates_arith .idiv rfl hl hr
  | mod => exact evaluates_arith .mod rfl hl hr
  | pow => exact evaluates_arith .pow rfl hl hr
  | shl => exact evaluates_arith .shl rfl hl hr
  | shr => exact evaluates_arith .shr rfl hl hr
  | band => exact evaluates_arith .band rfl hl hr
  | bor => exact evaluates_arith .bor rfl hl hr
  | bxor => exact evaluates_arith .bxor rfl hl hr

end Operations

namespace ExpCode

theorem computes_plain {emit : Nat → Int → LowerM Unit} {v : V} (h : Evaluates ops vars live emit v)
    (literal : ∀ k, e.literal? = some k → ops.constant k = v) : (plain e emit).Computes ops vars live v where
  emit := h
  literal := literal
  register? := fun _ _ => ⟨none, rfl, nofun⟩
  place? := fun _ _ => ⟨none, rfl, nofun⟩
  operands := ⟨v, [], .cons h .nil, rfl, fun _ => rfl⟩

theorem computes_name {x : String} (bound : ∀ s : Lowering, s.frame.live = live → s.frame.Binds x) :
    (ofName x).Computes ops vars live (vars x) where
  emit := evaluates_name bound
  literal := fun k absent => by cases absent
  register? := fun s _ => ⟨s.frame.register? x, rfl, fun r found => ⟨x, found, rfl⟩⟩
  place? := fun s hlive => by
    obtain ⟨r, found⟩ := Option.isSome_iff_exists.mp (bound s hlive)
    refine ⟨some r, ?_, fun r' same => ⟨x, by rw [found, same], rfl⟩⟩
    exact resolve_local found
  operands := ⟨vars x, [], .cons (evaluates_name bound) .nil, rfl, fun _ => rfl⟩

theorem computes_index (e : Exp) (noLiteral : e.literal? = none) {object key : ExpCode} {x y : V}
    (ho : object.Computes ops vars live x) (hk : key.Computes ops vars live y) :
    (ofIndex e object key).Computes ops vars live (ops.index x y) :=
  have emit := evaluates_index e ho hk
  have plain := computes_plain (e := e) emit fun k literal => by simp [noLiteral] at literal
  ⟨emit, plain.literal, plain.register?, plain.place?, plain.operands⟩

/-- The left operand of `..` is no `..` itself, so the operands of the right one follow it. -/
theorem computes_binop {op : BinOp} {l r : Exp} {lhs rhs : ExpCode} {x y : V} (hl : lhs.Computes ops vars live x)
    (hr : rhs.Computes ops vars live y) (leans : op = .concat → lhs.exp.isConcat = false) :
    (ofBinop (.binop op l r) op lhs rhs).Computes ops vars live (ops.binary op x y) := by
  have literal : ∀ k, (Exp.binop op l r).literal? = some k → ops.constant k = ops.binary op x y :=
    fun k absent => by cases absent
  by_cases concat : op = .concat
  · subst concat
    obtain ⟨w, ws, left, rfl, single⟩ := hl.operands
    cases single (leans rfl)
    obtain ⟨w', ws', right, rfl, _⟩ := hr.operands
    have chain : List.Forall₂ (Evaluates ops vars live) (lhs.operands ++ rhs.operands) (w :: w' :: ws') :=
      List.rel_append left right
    have plain := computes_plain (e := .binop .concat l r) (evaluates_concat chain) literal
    refine ⟨plain.emit, literal, plain.register?, plain.place?, w, w' :: ws', chain, rfl, fun other => ?_⟩
    cases other
  · have plain := computes_plain (e := .binop op l r) (evaluates_binop op concat hl hr) literal
    refine ⟨plain.emit, literal, plain.register?, plain.place?, ?_⟩
    have operands : (ofBinop (.binop op l r) op lhs rhs).operands = [fun a _ => emitBinop op lhs rhs a] := if_neg concat
    rw [operands]
    exact plain.operands

end ExpCode

theorem Exp.code_computes (f : Frame) :
    ∀ e : Exp, e.Pure f.Binds → e.Grammatical → e.code.Computes ops vars f.live (e.value ops vars)
  | .nil, _, _ => ExpCode.computes_plain evaluates_nil fun k same => by cases same; rfl
  | .bool value, _, _ => ExpCode.computes_plain (evaluates_bool value) fun k same => by cases same; rfl
  | .integer value, _, _ => ExpCode.computes_plain (evaluates_constant (.integer value) _) fun k same => by cases same; rfl
  | .float value, _, _ => ExpCode.computes_plain (evaluates_constant (.float value) _) fun k same => by cases same; rfl
  | .string value, _, _ => ExpCode.computes_plain (evaluates_constant (.string value) _) fun k same => by cases same; rfl
  | .name x, bound, _ => ExpCode.computes_name fun s same => by
    have bound : (f.register? x).isSome := bound
    simpa only [Frame.Binds, Frame.register?, Frame.binding?, same] using bound
  | .index object key, pure, shape => by
    cases shape with
    | index _ ho hk =>
      exact ExpCode.computes_index _ rfl (code_computes f object pure.1 ho) (code_computes f key pure.2 hk)
  | .paren inner, pure, shape => by
    cases shape with
    | paren hi => exact ExpCode.computes_plain (code_computes f inner pure hi).emit fun k absent => by cases absent
  | .unop op operand, pure, shape => by
    cases shape with
    | unop ho =>
      exact ExpCode.computes_plain (evaluates_unop op (code_computes f operand pure ho)) fun k absent => by cases absent
  | .binop op lhs rhs, pure, shape => by
    cases shape with
    | binop leans hl hr =>
      exact ExpCode.computes_binop (code_computes f lhs pure.1 hl) (code_computes f rhs pure.2 hr) (by simpa using leans)

def TokenStream.after (s : TokenStream) (read : Nat) : TokenStream := { s with tokens := s.tokens.drop read }

theorem Parser.exp_grammatical {source : String} {read fuel limit : Nat} {rest : TokenStream}
    (h : Parser.exp fuel limit ((TokenStream.ofSource source).after read) = .ok (e, rest)) : e.Grammatical := by
  obtain ⟨ts, whole, derived⟩ := (Parser.spells fuel).exp.ok e rest h
  have named : Named ((TokenStream.ofSource source).after read).tokens :=
    fun t member => TokenStream.ofSource_named source t (List.mem_of_mem_drop member)
  rw [whole] at named
  exact (derived.shaped named.left).1

/-- The instructions of an expression that was read somewhere in a source compute its value into the last register in
    use, and leave the registers below alone. They may stand in any program. -/
theorem Exp.emit_computes_value (ops : Operators V) (vars : String → V) {source : String} {read fuel limit : Nat}
    {rest : TokenStream} (parsed : Parser.exp fuel limit ((TokenStream.ofSource source).after read) = .ok (e, rest))
    (pure : e.Pure s.frame.Binds) (used : s.frame.used = a + 1) (below : ∀ b ∈ s.frame.live, b.register < a)
    (run : e.code.emit a 1 s = .ok u s') : s.frame.code.toList <+: s'.frame.code.toList ∧
      ∀ p : Program, p.Includes s'.frame s.frame.pc s'.frame.pc → ∀ registers, s.frame.Holds vars registers →
        ∃ registers', p.Runs ops s.frame.pc s'.frame.pc ⟨s.frame.pc, registers⟩ ⟨s'.frame.pc, registers'⟩ ∧
          registers' a = e.value ops vars ∧ ∀ r < a, registers' r = registers r := by
  have computes : e.code.Computes ops vars s.frame.live (e.value ops vars) :=
    Exp.code_computes s.frame e pure (Parser.exp_grammatical parsed)
  obtain ⟨appends, _, fits, exec⟩ := computes.emit run rfl used below
  refine ⟨appends.frame.code, exec fun b member => ?_⟩
  have := below b member
  omega

def Operators.onNat : Operators Nat where
  constant
    | .bool b => b.toNat
    | _ => 0
  unary := fun _ x => x + 1
  arith := fun _ x y => x * y
  concat := fun x y => x + y
  eq := fun x y => x == y
  lt := fun x y => decide (x < y)
  le := fun x y => decide (x ≤ y)
  truthy := fun x => x != 0
  index := fun x y => x - y

theorem Exp.emit_computes_value_of_three_four :
    let e : Exp := .binop .and (.binop .lt (.name "x") (.name "y")) (.binop .concat (.name "y") (.unop .neg (.name "x")))
    let f : Frame :=
      { Frame.new 0 false 1 with used := 3, live := [⟨"y", 1, 1, false, 1⟩, ⟨"x", 1, 0, false, 0⟩] }
    ∃ s', e.code.emit 2 1 ⟨f, []⟩ = .ok () s' ∧ ∀ p : Program, p.Includes s'.frame 0 s'.frame.pc →
      ∃ registers', p.Runs .onNat 0 s'.frame.pc ⟨0, fun r => r + 3⟩ ⟨s'.frame.pc, registers'⟩ ∧ registers' 2 = 8 := by
  intro e f
  obtain ⟨u, s', run⟩ := exists_of_succeeds (show succeeds (e.code.emit 2 1 ⟨f, []⟩) = true by decide +kernel)
  refine ⟨s', run, fun p includes => ?_⟩
  have parsed : Parser.exp 40 0 ((TokenStream.ofSource "return x < y and y .. -x").after 1) = .ok (e, ⟨[], .ok 1⟩) := by
    with_unfolding_all rfl
  have pure : e.Pure f.Binds := ⟨⟨rfl, rfl⟩, ⟨rfl, rfl⟩⟩
  have below : ∀ b ∈ f.live, b.register < 2 := by decide
  have held : f.Holds (fun x => if x = "x" then 3 else 4) fun r => r + 3 := by
    intro x r found
    obtain ⟨b, first, rfl⟩ := Option.map_eq_some_iff.mp found
    have member := List.mem_of_find?_eq_some first
    have name : b.name = x := beq_iff_eq.mp (List.find?_some first :)
    rcases List.mem_cons.mp member with rfl | member
    · subst name
      rfl
    · cases List.mem_singleton.mp member
      subst name
      rfl
  obtain ⟨registers', runs, value, _⟩ :=
    (Exp.emit_computes_value .onNat _ parsed pure rfl below run).2 p includes (fun r => r + 3) held
  exact ⟨registers', runs, value⟩

end LuaBytecode
