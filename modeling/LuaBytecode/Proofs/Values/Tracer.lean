import LuaBytecode.Proofs.Values.Interpreter

namespace LuaBytecode

open Lowering ExpCode

/-- An interpreter that puts into a register the operation that used it last, and keeps a record of operations. The
    function that runs has two arguments for `...`. -/
def tracer : Interpreter (Option Opcode) (List Opcode) where
  nil := none
  step p m := do
    let i ← p.code[m.pc]?
    let op ← i.opcode?
    if op = .loadNil then
      some ⟨m.pc + 1, fun r => if i.a ≤ r ∧ r ≤ i.a + i.b then none else m.registers r, m.world⟩
    else if op = .vararg then
      some ⟨m.pc + 1, fun r =>
        if i.a ≤ r ∧ r + 1 < i.a + i.b then [some op, some op][r - i.a]?.getD none else m.registers r, op :: m.world⟩
    else some ⟨m.pc + 1, Function.update m.registers i.a (some op), op :: m.world⟩
  fills p m i found opcode := by simp [found, opcode]

/-- A table of which two positional fields are announced and only one comes. -/
def Exp.leaking : Exp := .table [some (.table [] []), none, none] [.table [] [], .table [] []]

def traced (top : Nat) : Meaning tracer.nil (List Opcode) top where
  evaluate
    | .nil, σ => some ([none], σ)
    | .bool _, σ => some ([some .loadBool], ⟨σ.vars, .loadBool :: σ.world⟩)
    | .vararg, σ => some ([some .vararg, some .vararg], ⟨σ.vars, .vararg :: σ.world⟩)
    | .table [] [], σ => some ([some .newTable], ⟨σ.vars, .newTable :: σ.world⟩)
    | .table _ _, σ =>
      some ([some .setTable], ⟨σ.vars, .newTable :: .setTable :: .newTable :: .newTable :: .newTable :: σ.world⟩)
    | _, _ => none
  ofNil _ := rfl

section Steps

variable {p : Prototype} {m m' : Process (Option Opcode) (List Opcode)} {i : Instruction} {op : Opcode}

theorem tracer_step (found : p.code[m.pc]? = some i) (opcode : i.opcode? = some op) (notNil : op ≠ .loadNil)
    (notVararg : op ≠ .vararg) :
    tracer.step p m = some ⟨m.pc + 1, Function.update m.registers i.a (some op), op :: m.world⟩ := by
  simp [tracer, found, opcode, notNil, notVararg]

theorem tracer_vararg (found : p.code[m.pc]? = some i) (opcode : i.opcode? = some .vararg) :
    tracer.step p m = some ⟨m.pc + 1, fun r =>
      if i.a ≤ r ∧ r + 1 < i.a + i.b then [some Opcode.vararg, some .vararg][r - i.a]?.getD none else m.registers r,
      .vararg :: m.world⟩ := by
  simp [tracer, found, opcode]

theorem tracer_avoids {r : Nat} (none : ∀ i ∈ p.code, i.opcode? = some op → i.a ≠ r) (notVararg : op ≠ .vararg)
    (run : tracer.Runs p m m') (before : m.registers r ≠ some op) : m'.registers r ≠ some op := by
  induction run with
  | refl => exact before
  | @tail m m' _ step ih =>
    simp only [tracer, Option.bind_eq_bind, Option.bind_eq_some_iff] at step
    obtain ⟨i, found, op', opcode, step⟩ := step
    split at step
    · cases step
      dsimp only
      split
      · exact nofun
      · exact ih
    split at step
    · rename_i isVararg
      subst isVararg
      cases step
      dsimp only
      split
      · generalize r - i.a = k
        rcases k with _ | _ | k <;> simp [notVararg.symm]
      · exact ih
    · cases step
      by_cases here : r = i.a
      · subst here
        dsimp only
        rw [Function.update_self]
        rintro ⟨⟩
        exact none i (Array.mem_of_getElem? found) opcode rfl
      · dsimp only
        rwa [Function.update_of_ne here]

end Steps

def avoids (op : Opcode) (r : Nat) : EStateM.Result CodeError Lowering Unit → Bool
  | .ok _ s => decide (∀ i ∈ s.frame.code, i.opcode? = some op → i.a ≠ r)
  | .error .. => false

theorem exists_of_avoids {op : Opcode} {r : Nat} {result : EStateM.Result CodeError Lowering Unit}
    (h : avoids op r result = true) :
    ∃ s, result = .ok () s ∧ ∀ i ∈ s.frame.code, i.opcode? = some op → i.a ≠ r := by
  cases result with
  | ok _ s => exact ⟨s, rfl, of_decide_eq_true h⟩
  | error e s => cases h

section Expressions

variable {s₀ s s' : Lowering} {a : Nat}

theorem delivers_of_emit {e : Exp} {op : Opcode} (notNil : op ≠ .loadNil) (notVararg : op ≠ .vararg)
    (single : e.isMulti = false)
    (value : ∀ σ, (traced s₀.frame.used).evaluate e σ = some ([some op], ⟨σ.vars, op :: σ.world⟩))
    (emits : ∀ s s' a, e.code.emit a 1 s = .ok () s' → ∃ i, s' = s.push i ∧ i.opcode? = some op ∧ i.a = a) :
    e.Delivers tracer s₀ (traced _) := by
  intro s s' a n _ above _ _ one run m vs σ evaluated
  obtain rfl : n = 1 := one.resolve_right (by rw [single]; decide)
  rw [value] at evaluated
  cases evaluated
  obtain ⟨i, rfl, opcode, rfl⟩ := emits _ _ _ run
  refine .push fun p found start =>
    ⟨_, tracer_step (start ▸ found) opcode notNil notVararg, by rw [start], ?_, ?_, ?_⟩
  · exact Process.scene_eq (fun r below => Function.update_of_ne (by omega) _ _) rfl
  · intro r _ below
    exact Function.update_of_ne (by omega) _ _
  · intro k below
    obtain rfl : k = 0 := Nat.lt_one_iff.mp below
    exact Function.update_self _ _ _

theorem bool_emits {value : Bool} {n : Int} (run : (Exp.bool value).code.emit a n s = .ok () s') :
    ∃ i, s' = s.push i ∧ i.opcode? = some .loadBool ∧ i.a = a := by
  obtain ⟨_, emit, _⟩ := bind_pure_ok run
  obtain ⟨i, rfl, _, opcode, ha, _⟩ := emitAbc_lower emit
  exact ⟨i, rfl, opcode, ha⟩

theorem emptyTable_emits {n : Int} (run : (Exp.table [] []).code.emit a n s = .ok () s') :
    ∃ i, s' = s.push i ∧ i.opcode? = some .newTable ∧ i.a = a := by
  obtain ⟨_, f, difference, run⟩ := bind_lift_ok run
  obtain ⟨_, _, rfl⟩ := Frame.difference_ok difference
  obtain ⟨_, emit, _⟩ := bind_pure_ok run
  obtain ⟨i, rfl, _, opcode, ha, _⟩ := emitAbc_lower emit
  exact ⟨i, rfl, opcode, ha⟩

theorem bool_delivers (value : Bool) : (Exp.bool value).Delivers tracer s₀ (traced _) :=
  delivers_of_emit (by decide) (by decide) rfl (fun _ => rfl) fun _ _ _ => bool_emits

theorem emptyTable_delivers : (Exp.table [] []).Delivers tracer s₀ (traced _) :=
  delivers_of_emit (by decide) (by decide) rfl (fun _ => rfl) fun _ _ _ => emptyTable_emits

theorem vararg_delivers : Exp.vararg.Delivers tracer s₀ (traced _) := by
  intro s s' a n _ above _ fits _ run m vs σ evaluated
  cases evaluated
  replace run := bind_get_ok run
  split at run
  · obtain ⟨_, emit, _⟩ := bind_pure_ok run
    obtain ⟨i, rfl, _, opcode, ha, hb, _⟩ := emitAbc_lower emit
    unfold Frame.registerLimit at fits
    rw [Frame.countOperand] at hb
    refine .push fun p found start => ⟨_, tracer_vararg (start ▸ found) opcode, by rw [start], ?_, ?_, ?_⟩
    · exact Process.scene_eq (fun r below => if_neg (by omega)) rfl
    · intro r _ below
      exact if_neg (by omega)
    · intro k below
      dsimp only
      rw [if_pos (by omega), ha, Nat.add_sub_cancel_left]
      rfl
  · cases run

/-- The code added from `f` to `g` does the operations, the last of them first, and leaves registers below `floor`. -/
def Traces (f g : Frame) (floor : Nat) (ops : List Opcode) : Prop :=
  ∀ m, tracer.Executes f g m fun m' => (∀ r < floor, m'.registers r = m.registers r) ∧ m'.world = ops ++ m.world

namespace Traces

variable {f g h : Frame} {floor : Nat} {ops ops' : List Opcode}

theorem nothing (same : g.pc = f.pc) : Traces f g floor [] := fun _ => .nothing same ⟨fun _ _ => rfl, rfl⟩

theorem push {i : Instruction} {op : Opcode} (opcode : i.opcode? = some op) (notNil : op ≠ .loadNil)
    (notVararg : op ≠ .vararg) (above : floor ≤ i.a) : Traces f (f.push i) floor [op] := by
  refine fun m => .push fun p found start => ⟨_, tracer_step (start ▸ found) opcode notNil notVararg, ?_⟩
  exact ⟨by rw [start], fun r below => Function.update_of_ne (by omega) _ _, rfl⟩

theorem trans (first : Traces f g floor ops) (second : Traces g h floor ops') (before : f.Gains g) (after : g.Gains h) :
    Traces f h floor (ops' ++ ops) := by
  refine fun m => (first m).trans before after fun m' ⟨same, world⟩ => (second m').weaken fun m'' ⟨same', world'⟩ => ?_
  refine ⟨fun r below => (same' r below).trans (same r below), ?_⟩
  rw [world', world, List.append_assoc]

theorem lower {floor' : Nat} (h : Traces f g floor ops) (below : floor' ≤ floor) : Traces f g floor' ops :=
  fun m => (h m).weaken fun _ ⟨same, world⟩ => ⟨fun r inside => same r (Nat.lt_of_lt_of_le inside below), world⟩

end Traces

theorem emptyTable_traces {n : Int} (run : (Exp.table [] []).code.emit a n s = .ok () s') :
    Traces s.frame s'.frame a [.newTable] := by
  obtain ⟨i, rfl, opcode, rfl⟩ := emptyTable_emits run
  exact .push opcode (by decide) (by decide) Nat.le.refl

theorem emptyTable_tidy : (Exp.table [] []).code.Tidy :=
  Exp.code_tidy (P := fun _ => True) _ ⟨Nat.le.refl, trivial, trivial⟩

theorem emptyTable_toRk {r : Nat} (run : (Exp.table [] []).code.toRk s = .ok r s') :
    Traces s.frame s'.frame s.frame.used [.newTable] := by
  have run : (Exp.table [] []).code.toNewRegister s = .ok r s' := run
  obtain ⟨a, f, alloc, run⟩ := bind_lift_ok run
  obtain ⟨rfl, _, rfl⟩ := Frame.alloc_ok alloc
  obtain ⟨_, emit, _⟩ := bind_pure_ok run
  exact fun m => (emptyTable_traces emit m).after rfl

theorem emptyTables_traces {operands : Nat × Nat} (run : scratch (do
      let key ← (Exp.table [] []).code.toRk
      return (key, ← (Exp.table [] []).code.toRk)) s = .ok operands s') :
    s.frame.Gains s'.frame ∧ s'.frame.used = s.frame.used ∧
      Traces s.frame s'.frame s.frame.used [.newTable, .newTable] := by
  replace run := bind_used_ok run
  obtain ⟨_, t, both, run⟩ := bind_ok run
  obtain ⟨_, t₁, key, both⟩ := bind_ok both
  obtain ⟨_, value, _⟩ := bind_pure_ok both
  obtain ⟨_, f, reset, done⟩ := bind_lift_ok run
  obtain rfl := Frame.setUsed_ok reset
  obtain ⟨_, rfl⟩ := pure_ok done
  obtain ⟨first, more⟩ := emptyTable_tidy.toRk _ _ _ key
  obtain ⟨second, _⟩ := emptyTable_tidy.toRk _ _ _ value
  have traces := (emptyTable_toRk key).trans ((emptyTable_toRk value).lower more) first.frame second.frame
  have adds := first.frame.trans second.frame
  have back : t.frame.Gains (t.frame.withUsed s.frame.used) := .ofUsed
  have idle : Traces t.frame (t.frame.withUsed s.frame.used) s.frame.used [] := .nothing rfl
  exact ⟨adds.trans back, rfl, traces.trans idle adds back⟩

theorem leaking_emits {n : Int} (run : Exp.leaking.code.emit a n s = .ok () s') : ∃ i operands t j peak,
    i.opcode? = some .newTable ∧ i.a = a ∧
    scratch (do
      let key ← (Exp.table [] []).code.toRk
      return (key, ← (Exp.table [] []).code.toRk)) (s.push i) = .ok operands t ∧
    j.opcode? = some .setTable ∧ j.a = a ∧
    (Exp.table [] []).code.emit t.frame.used 1
      ⟨{ t.frame.push j with used := t.frame.used + 1, peak := peak }, t.enclosing⟩ = .ok () s' := by
  obtain ⟨_, f, difference, run⟩ := bind_lift_ok run
  obtain ⟨_, _, rfl⟩ := Frame.difference_ok difference
  obtain ⟨_, t, made, run⟩ := bind_ok run
  obtain ⟨i, rfl, _, opcode, here, _⟩ := emitAbc_lower made
  unfold emitFields at run
  obtain ⟨operands, t, loaded, run⟩ := bind_ok run
  obtain ⟨_, t', stored, run⟩ := bind_ok run
  obtain ⟨j, rfl, _, opcode', here', _⟩ := emitAbc_lower stored
  unfold emitFields at run
  obtain ⟨_, f, alloc, run⟩ := bind_lift_ok run
  obtain ⟨rfl, _, rfl⟩ := Frame.alloc_ok alloc
  obtain ⟨_, t', field, run⟩ := bind_ok run
  rw [if_neg (by decide)] at run
  obtain ⟨_, rfl⟩ := pure_ok run
  exact ⟨i, operands, t, j, _, opcode, here, loaded, opcode', here', field⟩

theorem leaking_delivers : Exp.leaking.Delivers tracer s₀ (traced _) := by
  intro s s' a n _ above taken _ one run m vs σ evaluated
  obtain rfl : n = 1 := one.resolve_right (by decide)
  cases evaluated
  obtain ⟨i, _, t, j, peak, opcode, here, loaded, opcode', here', field⟩ := leaking_emits run
  obtain ⟨adds, used, traces⟩ := emptyTables_traces loaded
  have used : t.frame.used = a + 1 := used.trans taken
  have made : Traces s.frame t.frame a [.newTable, .newTable, .newTable] :=
    (Traces.push opcode (by decide) (by decide) (Nat.le_of_eq here.symm)).trans (traces.lower (by omega)) (.ofPush i) adds
  have waits := emptyTable_traces field
  have stored : t.frame.Gains (t.frame.push j) := .ofPush j
  have rest : (t.frame.push j).Gains s'.frame := .trans .ofUsed (emptyTable_tidy.emit _ _ _ _ _ field).1.frame
  refine (made m).trans ((Frame.Gains.ofPush i).trans adds) (stored.trans rest) fun m₁ ⟨same, world⟩ => ?_
  have stores : tracer.Executes t.frame (t.frame.push j) m₁ fun m₂ =>
      m₂.registers = Function.update m₁.registers a (some .setTable) ∧ m₂.world = .setTable :: m₁.world :=
    .push fun p found start =>
      ⟨_, tracer_step (start ▸ found) opcode' (by decide) (by decide), by rw [start], by rw [here'], rfl⟩
  refine stores.trans stored rest fun m₂ ⟨registers, world₂⟩ => ((waits m₂).after rfl).weaken ?_
  intro m₃ ⟨same₃, world₃⟩
  have below : ∀ r < a, m₃.registers r = m.registers r := fun r below => by
    rw [same₃ r (by omega), registers, Function.update_of_ne (by omega), same r below]
  refine ⟨Process.scene_eq (fun r inside => below r (by omega)) ?_, fun r _ => below r, fun k first => ?_⟩
  · rw [world₃, world₂, world]
    rfl
  · obtain rfl : k = 0 := Nat.lt_one_iff.mp first
    rw [Nat.add_zero, same₃ a (by omega), registers, Function.update_self]
    rfl

end Expressions

end LuaBytecode
