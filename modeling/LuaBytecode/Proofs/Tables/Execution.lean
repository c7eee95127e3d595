import LuaBytecode.Proofs.Monitor.Discipline
import LuaBytecode.Proofs.Tables.Recorder

namespace LuaBytecode

open Lowering ExpCode FieldStep

variable {V W : Type} {a : Nat} {f g : Frame} {r : Nat} {t : Lowering} {w : W}

theorem Interpreter.Executes.single {I : Interpreter V W} {m : Process V W} {post : Process V W → Prop}
    (does : ∀ p : Prototype, p.Holds g f.pc g.pc → m.pc = f.pc → ∃ m', I.step p m = some m' ∧ m'.pc = g.pc ∧ post m') :
    I.Executes f g m post := by
  intro p holds start
  obtain ⟨m', step, finish, done⟩ := does p holds start
  exact ⟨m', .single step, finish, done⟩

section Operand

variable {I : TableInterpreter V W} {s₀ s s' : Lowering} {M : Meaning I.nil W a} {e : Exp} {m : Process V (W × Nat)}
  {read : Scene V W a → V} {o : Nat} {σ : Scene V W a}

/-- Where the value of an operand comes from: from a constant, from a variable below the table, or from a register in
    use behind it. -/
inductive Reads (I : TableInterpreter V W) (a : Nat) (f : Frame) (registers : Nat → V) : (Scene V W a → V) → Nat → Prop
  | constant {i : Nat} {k : Constant} : f.constants.entries[i]? = some k → i ≤ maxRkIndex →
    Reads I a f registers (fun _ => I.ops.constant k) (rkConstant i)
  | named {r : Nat} : r < a → Reads I a f registers (fun σ => σ.read I.nil r) r
  | temporary {r : Nat} : a ≤ r → r < f.used → r < 256 → Reads I a f registers (fun _ => registers r) r

theorem Reads.operand {registers : Nat → V} (reads : Reads I a f registers read o) (small : a ≤ 255) (adds : f.Gains g)
    {p : Prototype} {lo hi : Nat} (holds : p.Holds g lo hi)
    (kept : ∀ r, a ≤ r → r < f.used → m.registers r = registers r) :
    Machine.operand I.ops p.constants m.registers o = some (read (m.view a)) := by
  cases reads with
  | constant found fits =>
    refine operand_constant fits ?_
    rw [getElem?_of_prefixed (adds.constants.trans holds.constants) (lt_of_getElem? found)]
    exact found
  | named below =>
    rw [operand_register (by omega)]
    exact congrArg some (Process.view_read below).symm
  | temporary above inside fits => rw [operand_register fits, kept _ above inside]

theorem Frame.Gains.local? (adds : f.Gains g) (e : Exp) : g.local? e = f.local? e := by
  cases e <;> first | rfl | exact Frame.register?_marked adds.live _

theorem Frame.local?_lt {limit : Nat} (found : f.local? e = some r) (below : ∀ b ∈ f.live, b.register < limit) :
    r < limit := by
  cases e <;> first | cases found | exact Frame.register?_lt found below

theorem Exp.code_register? (e : Exp) (s : Lowering) : e.code.register? s = .ok (s.frame.local? e) s := by
  cases e <;> rfl

theorem constantRk?_ok {c : ExpCode} {o? : Option Nat} (run : c.constantRk? s = .ok o? s') :
    s'.frame.pc = s.frame.pc ∧ ∀ o, o? = some o → ∃ k i, c.exp.literal? = some k ∧
      s'.frame.constants.entries[i]? = some k ∧ i ≤ maxRkIndex ∧ o = rkConstant i := by
  unfold constantRk? at run
  cases literal : c.exp.literal? with
  | none =>
    simp only [literal] at run
    obtain ⟨rfl, rfl⟩ := pure_ok run
    exact ⟨rfl, fun o chosen => absurd chosen (by simp)⟩
  | some k =>
    simp only [literal] at run
    obtain ⟨i, f, insert, run⟩ := bind_lift_ok run
    obtain ⟨found, -, same⟩ := Frame.constantIndex_ok insert
    obtain ⟨rfl, rfl⟩ := pure_ok run
    refine ⟨by rw [same]; rfl, fun o chosen => ?_⟩
    split at chosen
    · rename_i fits
      cases chosen
      exact ⟨k, i, rfl, found, fits, rfl⟩
    · cases chosen

theorem Meaning.operand_literal (literals : M.ReadsLiterals I.ops) {k : Constant} (literal : e.literal? = some k)
    (σ : Scene V W a) : M.operand f e σ = some (fun _ => I.ops.constant k, σ) := by
  have notLocal : f.local? e = none := by cases e <;> first | rfl | cases literal
  simp [Meaning.operand, notLocal, literals e k σ literal]

theorem Exp.Supplies.inNewRegister (supplies : e.Supplies I s₀ M) (tidy : e.code.Tidy) (adds : s₀.Gains s)
    (above : a < s.frame.used) {n : Int} (asked : n = 1 ∨ n = -1 ∧ e.isMulti = true) {vs : List V}
    (evaluated : M.evaluate e (m.view a) = some (vs, σ)) {u : Unit}
    (taken : (Frame.alloc : LowerM Nat) s = .ok r t) (emitted : e.code.emit r n t = .ok u s') :
    r = s.frame.used ∧ r < 256 ∧ s.Gains s' ∧ s'.frame.used = s.frame.used + 1 ∧
      I.Executes s.frame s'.frame m fun m' => m'.view a = σ ∧
        (∀ x, a ≤ x → x < r → m'.registers x = m.registers x) ∧ (n = 1 → m'.registers r = vs.headD I.nil) ∧
        (n = -1 → row m'.registers r vs.length = vs ∧ m'.world.2 = r + vs.length) := by
  obtain ⟨allocated, _⟩ := Adding.alloc _ _ _ taken
  obtain ⟨f, alloc, rfl⟩ := lift_ok taken
  obtain ⟨rfl, room, rfl⟩ := Frame.alloc_ok alloc
  obtain ⟨added, used⟩ := tidy.emit _ _ _ _ _ emitted
  unfold Frame.registerLimit at room
  refine ⟨rfl, by omega, allocated.trans added, used, ?_⟩
  exact supplies _ _ _ n (adds.trans allocated) above rfl asked emitted m vs σ evaluated

theorem toRk_executes (tidy : e.code.Tidy) (supplies : e.Supplies I s₀ M) (literals : M.ReadsLiterals I.ops)
    (adds : s₀.Gains s) (locals : ∀ b ∈ s₀.frame.live, b.register < a) (above : a < s.frame.used)
    (run : e.code.toRk s = .ok o s') (operand : M.operand s₀.frame e (m.view a) = some (read, σ)) :
    I.Executes s.frame s'.frame m fun m' => m'.view a = σ ∧
      (∀ r, a ≤ r → r < s.frame.used → m'.registers r = m.registers r) ∧ Reads I a s'.frame m'.registers read o := by
  obtain ⟨o?, t, constant, run⟩ := bind_ok run
  obtain ⟨pc, isConstant⟩ := constantRk?_ok constant
  obtain ⟨added, used⟩ := constantRk?_adds _ _ _ _ constant
  cases o? with
  | some o =>
    obtain ⟨rfl, rfl⟩ := pure_ok run
    obtain ⟨k, i, literal, found, fits, rfl⟩ := isConstant _ rfl
    rw [Exp.code_exp] at literal
    rw [Meaning.operand_literal literals literal] at operand
    cases operand
    exact .nothing pc ⟨rfl, fun _ _ _ => rfl, .constant found fits⟩
  | none =>
    obtain ⟨r?, t', got, run⟩ := bind_ok run
    rw [Exp.code_register?] at got
    cases got
    rw [(adds.trans added).frame.local?] at run
    refine .after pc.symm ?_
    unfold Meaning.operand at operand
    cases here : s₀.frame.local? e with
    | some r =>
      rw [here] at run operand
      obtain ⟨rfl, rfl⟩ := pure_ok run
      cases operand
      exact .nothing rfl ⟨rfl, fun _ _ _ => rfl, .named (Frame.local?_lt here locals)⟩
    | none =>
      rw [here] at run operand
      obtain ⟨⟨vs, τ⟩, evaluated, same⟩ := Option.map_eq_some_iff.mp operand
      cases same
      obtain ⟨r, u, taken, run⟩ := bind_ok run
      obtain ⟨_, emitted, rfl⟩ := bind_pure_ok run
      obtain ⟨rfl, small, -, grown, loads⟩ :=
        supplies.inNewRegister tidy (adds.trans added) (by omega) (.inl rfl) evaluated taken emitted
      refine loads.weaken ?_
      rintro m' ⟨view, kept, value, -⟩
      refine ⟨view, fun r above below => kept r above (by omega), ?_⟩
      rw [← value rfl]
      exact .temporary (by omega) (by omega) small

theorem field_executes {key value : Exp} (tidyKey : key.code.Tidy) (tidyValue : value.code.Tidy)
    (suppliesKey : key.Supplies I s₀ M) (suppliesValue : value.Supplies I s₀ M) (literals : M.ReadsLiterals I.ops)
    (small : a ≤ 255) (adds : s₀.Gains s) (locals : ∀ b ∈ s₀.frame.live, b.register < a) (above : a < s.frame.used)
    {b c : Nat} {i : Instruction} (run : toRks key.code value.code s = .ok (b, c) t)
    (opcode : i.opcode? = some .setTable) (ha : i.a = a) (hb : i.b = b) (hc : i.c = c) {k v : Scene V W a → V}
    {σ₁ σ₂ : Scene V W a} (key₁ : M.operand s₀.frame key (m.view a) = some (k, σ₁))
    (value₂ : M.operand s₀.frame value σ₁ = some (v, σ₂))
    (stored : I.store (m.registers a) (.field (k σ₂) (v σ₂)) σ₂.world = some w) :
    I.Executes s.frame (t.push i).frame m fun m' => m'.view a = ⟨σ₂.vars, w⟩ ∧
      ∀ r, a ≤ r → r < s.frame.used → m'.registers r = m.registers r := by
  obtain ⟨t₂, both, rfl⟩ := scratch_ok run
  obtain ⟨_, t₁, first, both⟩ := bind_ok both
  obtain ⟨_, _, second, both⟩ := bind_ok both
  cases both
  obtain ⟨added₁, more₁⟩ := tidyKey.toRk _ _ _ first
  obtain ⟨added₂, -⟩ := tidyValue.toRk _ _ _ second
  have last : t₂.frame.Gains ((t₂.withUsed s.frame.used).push i).frame := .trans .ofUsed (.ofPush i)
  refine (toRk_executes tidyKey suppliesKey literals adds locals above first key₁).trans added₁.frame
    (added₂.frame.trans last) ?_
  rintro m₁ ⟨rfl, kept₁, readsKey⟩
  refine (toRk_executes tidyValue suppliesValue literals (adds.trans added₁) locals (by omega) second value₂).trans
    added₂.frame last ?_
  rintro m₂ ⟨rfl, kept₂, readsValue⟩
  have kept : ∀ r, a ≤ r → r < s.frame.used → m₂.registers r = m.registers r := fun r above below =>
    (kept₂ r above (by omega)).trans (kept₁ r above below)
  refine .single fun p holds start => ?_
  have found : p.code[m₂.pc]? = some i := by
    rw [start]
    exact holds.pushed Nat.le.refl (by simp)
  have keyRead := readsKey.operand small (added₂.frame.trans last) holds kept₂
  have valueRead := readsValue.operand small last holds fun _ _ _ => rfl
  have table : m₂.registers i.a = m.registers a := ha ▸ kept a Nat.le.refl above
  obtain ⟨top, step⟩ := I.storesField p m₂ i _ _ w found opcode (hb ▸ keyRead) (hc ▸ valueRead) (table ▸ stored)
  exact ⟨_, step, by simp [start], rfl, kept⟩

end Operand

theorem Frame.StoresItems.executes {I : TableInterpreter V W} {count stored : Nat}
    (stores : f.StoresItems a count stored g) {m : Process V (W × Nat)} {values : List V}
    (held : row m.registers (a + 1) (if count = 0 then m.world.2 - (a + 1) else count) = values)
    (effect : I.store (m.registers a) (.items (stored + 1) values) m.world.1 = some w) :
    I.Executes f g m fun m' => m'.registers = m.registers ∧ m'.world.1 = w := by
  subst held
  cases stores with
  | @narrow i opcode ha hb hc first =>
    subst ha hb first
    refine .single fun p holds start => ?_
    have found : p.code[m.pc]? = some i := start ▸ holds.pushed Nat.le.refl (by simp)
    have batch : p.batch? m.pc i = some (i.c, m.pc + 1) := if_pos hc
    obtain ⟨top, step⟩ := I.storesItems p m i _ _ w found opcode batch effect
    exact ⟨_, step, by simp [start], rfl, rfl⟩
  | @wide i extra opcode ha hb hc opcode' first =>
    subst ha hb first
    refine .single fun p holds start => ?_
    have inner : p.Holds (f.push i) f.pc (f.push i).pc :=
      (holds.narrow Nat.le.refl (by simp)).earlier (.ofPush extra) Nat.le.refl
    have found : p.code[m.pc]? = some i := start ▸ inner.pushed Nat.le.refl (by simp)
    have next : p.code[m.pc + 1]? = some extra := by
      rw [start, ← Frame.push_pc]
      exact holds.pushed (by simp) (by simp)
    have batch : p.batch? m.pc i = some (extra.axField, m.pc + 2) := by
      simp [Prototype.batch?, hc, next, opcode']
    obtain ⟨top, step⟩ := I.storesItems p m i _ _ w found opcode batch effect
    exact ⟨_, step, by simp [start], rfl, rfl⟩

section Fill

variable {I : TableInterpreter V W} {s₀ s s' : Lowering} {M : Meaning I.nil W a} {table : V} {steps : List FieldStep}
  {stored count : Nat} {waiting items more : List V} {log : List (TableStore V)} {σ σ' : Scene V W a}
  {m : Process V (W × Nat)}

theorem tail_executes {value : Exp} (tidy : value.code.Tidy) (supplies : value.Supplies I s₀ M) (adds : s₀.Gains s)
    (used : s.frame.used = a + 1 + waiting.length) (held : row m.registers a (waiting.length + 1) = table :: waiting)
    (multi : value.isMulti = true) (evaluated : M.evaluate value (m.view a) = some (more, σ)) {u : Lowering}
    (taken : (Frame.alloc : LowerM Nat) s = .ok r t) (emitted : value.code.emit r (-1) t = .ok () u)
    (stores : (u.frame.withUsed (a + 1)).StoresItems a 0 stored f)
    (effect : I.store table (.items (stored + 1) (waiting ++ more)) σ.world = some w) :
    I.Executes s.frame f m fun m' => m'.view a = ⟨σ.vars, w⟩ ∧ m'.registers a = table := by
  obtain ⟨rfl, -, added, -, loads⟩ :=
    supplies.inNewRegister tidy adds (by omega) (.inr ⟨rfl, multi⟩) evaluated taken emitted
  refine loads.trans added.frame (Frame.Gains.ofUsed.trans stores.gains) ?_
  rintro m' ⟨rfl, kept, -, values⟩
  obtain ⟨values, top⟩ := values rfl
  have same : row m'.registers a (waiting.length + 1) = table :: waiting := by
    rw [row_congr fun r above below => kept r above (by omega), held]
  obtain ⟨here, behind⟩ := List.cons.inj same
  have all : row m'.registers (a + 1) (m'.world.2 - (a + 1)) = waiting ++ more := by
    rw [used] at values
    rw [show m'.world.2 - (a + 1) = waiting.length + more.length by omega, row_add, values]
    exact congrArg (· ++ more) behind
  rw [← here] at effect
  refine .after rfl ((stores.executes all effect).weaken ?_)
  rintro m'' ⟨same, world⟩
  exact ⟨Process.view_eq (fun r _ => congrFun same r) world, (congrFun same a).trans here⟩

/-- Code for the fields does what the steps say. Between two steps the table and the values that wait are in registers
    in a row. -/
theorem Lays.executes (lays : Lays a steps stored count s s') (tidy : Covered (fun e => e.code.Tidy) steps)
    (supplies : Covered (Exp.Supplies I s₀ M) steps) (literals : M.ReadsLiterals I.ops) (small : a ≤ 255)
    (locals : ∀ b ∈ s₀.frame.live, b.register < a) (adds : s₀.Gains s) (used : s.frame.used = a + 1 + count)
    (counted : waiting.length = count) (held : row m.registers a (count + 1) = table :: waiting)
    (performs : I.Performs M s₀.frame table steps stored waiting (m.view a) items more log σ') :
    I.Executes s.frame s'.frame m fun m' => m'.view a = σ' ∧ m'.registers a = table := by
  induction lays generalizing waiting items log m with
  | done =>
    cases performs
    exact .nothing rfl ⟨rfl, (List.cons.inj held).1⟩
  | item taken emitted rest ih =>
    cases performs with
    | item evaluated performs =>
    obtain ⟨tidyValue, tidyRest⟩ := covered_item.mp tidy
    obtain ⟨suppliesValue, suppliesRest⟩ := covered_item.mp supplies
    obtain ⟨-, -, added, grown, loads⟩ :=
      suppliesValue.inNewRegister tidyValue adds (by omega) (.inl rfl) evaluated taken emitted
    refine loads.trans added.frame (rest.gains tidyRest).frame ?_
    rintro m' ⟨rfl, kept, value, -⟩
    refine ih tidyRest suppliesRest (adds.trans added) (by omega) (by simp [counted]) ?_ performs
    rw [row_concat, row_congr fun r above below => kept r above (by omega), held, ← value rfl, Nat.add_right_comm]
    rfl
  | store some_wait stores rest ih =>
    cases performs with
    | store effect performs =>
    obtain ⟨here, behind⟩ := List.cons.inj held
    have added := Frame.Gains.ofUsed.trans stores.gains
    rw [← here] at effect
    have stored := stores.executes (by rwa [if_neg (Nat.ne_of_gt some_wait)]) effect
    refine .trans (.after rfl stored) added (rest.gains tidy).frame ?_
    rintro m' ⟨same, world⟩
    rw [counted, ← Process.view_eq (fun r _ => congrFun same r) world] at performs
    refine ih tidy supplies (adds.trans (.ofFrame added)) stores.used List.length_nil ?_ performs
    rw [same, row_succ, here]
    rfl
  | tail multi taken emitted stores =>
    cases performs with
    | tail evaluated effect =>
    subst counted
    obtain ⟨tidyValue, -⟩ := covered_tail.mp tidy
    obtain ⟨suppliesValue, -⟩ := covered_tail.mp supplies
    exact tail_executes tidyValue suppliesValue adds used held multi evaluated taken emitted stores effect
  | field operands opcode ha hb hc rest ih =>
    cases performs with
    | field key value effect performs =>
    obtain ⟨⟨tidyKey, tidyValue⟩, tidyRest⟩ := covered_field.mp tidy
    obtain ⟨⟨suppliesKey, suppliesValue⟩, suppliesRest⟩ := covered_field.mp supplies
    have here : m.registers a = table := (List.cons.inj held).1
    obtain ⟨added, balanced⟩ := toRks_adds tidyKey tidyValue _ _ _ operands
    have stored := field_executes tidyKey tidyValue suppliesKey suppliesValue literals small adds locals (by omega)
      operands opcode ha hb hc key value (here ▸ effect)
    refine stored.trans (added.frame.trans (.ofPush _)) (rest.gains tidyRest).frame ?_
    rintro m' ⟨view, kept⟩
    rw [← view] at performs
    refine ih tidyRest suppliesRest ((adds.trans added).trans (.ofFrame (.ofPush _))) (balanced.trans used) counted ?_
      performs
    rw [row_congr fun r above below => kept r above (by omega), held]

end Fill

/-- If every key of a table has a value, its fields are lowered one after another: a field with a key to one store, and
    positional fields to values that wait, never more than 50 of them, until they are stored. Wherever the code of the
    expressions supplies their values, the code of the table stores each positional value at its own key, counted from
    1, and each other value under its key. The tables inside its fields need a value for every key as well: one with more
    keys than values leaves a register in use, and what comes next is put behind it. -/
theorem Exp.table_filled {keys : List (Option Exp)} {values : List Exp} {n : Int} {s s' : Lowering}
    (parallel : keys.length = values.length) (paired : (Exp.table keys values).Paired fun _ => True)
    (top : s.frame.isTop a = true) (run : (Exp.table keys values).code.emit a n s = .ok () s') :
    fields (plan 0 keys values) = keys.zip values ∧ Orderly 0 (plan 0 keys values) ∧
    (∃ i, i.opcode? = some .newTable ∧ i.a = a ∧ Lays a (plan 0 keys values) 0 0 (s.push i) s') ∧
    ∀ {V W : Type} (I : TableInterpreter V W) (M : Meaning I.nil W a), M.ReadsLiterals I.ops →
      (∀ e, some e ∈ keys ∨ e ∈ values → e.Supplies I s M) →
      ∀ (m : Process V (W × Nat)) (items more : List V) (log : List (TableStore V)) (σ : Scene V W a),
        I.Performs M s.frame (I.create m.world.1).1 (plan 0 keys values) 0 []
          ⟨(m.view a).vars, (I.create m.world.1).2⟩ items more log σ →
        Numbered (keys.zip values) items more log ∧
          I.Executes s.frame s'.frame m fun m' => m'.view a = σ ∧ m'.registers a = (I.create m.world.1).1 := by
  have tidy := fun e => Exp.fields_tidy (e := e) paired
  have orderly : Orderly 0 (plan 0 keys values) :=
    plan_orderly parallel (by decide) fun none => absurd none (by decide)
  rw [Frame.isTop, Bool.and_eq_true, decide_eq_true_eq, List.all_eq_true] at top
  obtain ⟨used, below⟩ := top
  have locals : ∀ b ∈ s.frame.live, b.register < a := fun b member => of_decide_eq_true (below b member)
  obtain ⟨i, opcode, here, small, lays⟩ := Exp.table_lays parallel tidy used run
  refine ⟨plan_fields parallel, orderly, ⟨i, opcode, here, lays⟩, ?_⟩
  intro V W I M literals supplies m items more log σ performs
  refine ⟨plan_fields parallel ▸ performs.numbered orderly, ?_⟩
  have covered : Covered (fun e => e.code.Tidy) (plan 0 keys values) := plan_covered parallel tidy
  have makes : I.Executes s.frame (s.push i).frame m fun m' =>
      m'.registers = Function.update m.registers a (I.create m.world.1).1 ∧ m'.world.1 = (I.create m.world.1).2 := by
    refine .push fun p found start => ?_
    obtain ⟨top, step⟩ := I.makes p m i (start ▸ found) opcode
    exact ⟨_, step, by rw [start], by rw [here], rfl⟩
  refine makes.trans (.ofPush i) (lays.gains covered).frame ?_
  rintro m' ⟨registers, world⟩
  have below : ∀ r < a, m'.registers r = m.registers r := by
    intro r below
    rw [registers, Function.update_of_ne (Nat.ne_of_lt below)]
  rw [← Process.view_eq below world] at performs
  refine lays.executes covered (plan_covered parallel supplies) literals small locals (.ofFrame (.ofPush i)) used
    List.length_nil ?_ performs
  rw [row_succ, registers, Function.update_self]
  rfl

def Exp.mixed : Exp := .table [none, some .vararg, none] [.bool false, .vararg, .vararg]

theorem Exp.mixed_filled : Exp.mixed.Paired (fun _ => True) ∧ ((Frame.new 0 true 0).withUsed 1).isTop 0 = true ∧
    ∃ s' m', Exp.mixed.code.emit 0 1 ⟨(Frame.new 0 true 0).withUsed 1, []⟩ = .ok () s' ∧
      recorder.Runs (s'.frame.toPrototype none) ⟨0, fun _ => some .nil, [], 0⟩ m' ∧ m'.registers 0 = none ∧
      m'.world.1 = [.field (some (.integer 7)) (some (.integer 7)),
        .items 1 [some (.bool false), some (.integer 7), some (.integer 8)]] := by
  have paired : Exp.mixed.Paired fun _ => True := by
    simp [Exp.mixed, Exp.Paired, Exp.AllPaired, Exp.KeysPaired, Exp.Paired?]
  have top : ((Frame.new 0 true 0).withUsed 1).isTop 0 = true := by decide
  obtain ⟨_, s', run⟩ := exists_of_succeeds
    (show succeeds (Exp.mixed.code.emit 0 1 ⟨(Frame.new 0 true 0).withUsed 1, []⟩) = true by decide +kernel)
  have supplies : ∀ e, some e ∈ [none, some Exp.vararg, none] ∨ e ∈ [Exp.bool false, .vararg, .vararg] →
      e.Supplies recorder ⟨(Frame.new 0 true 0).withUsed 1, []⟩ (recorded 0) := by
    intro e field
    have either : e = .bool false ∨ e = .vararg := by simpa [or_comm] using field
    rcases either with rfl | rfl
    · exact bool_supplies false
    · exact vararg_supplies
  obtain ⟨-, -, -, filled⟩ := Exp.table_filled rfl paired top run
  obtain ⟨-, executes⟩ := filled recorder (recorded 0) (recorded_literals 0) supplies ⟨0, fun _ => some .nil, [], 0⟩
    _ _ _ _ (.item rfl (.field rfl rfl rfl (.tail rfl rfl)))
  obtain ⟨m', runs, -, view, here⟩ := executes _ (.ofFrame s'.frame none) rfl
  exact ⟨paired, top, s', m', run, runs, here, congrArg Scene.world view⟩

end LuaBytecode
