import LuaBytecode.Proofs.Appending.Tree
import LuaBytecode.Proofs.Expression.Operands

namespace LuaBytecode

open Lowering ExpCode

variable {stored count : Nat} {f g : Frame}

inductive FieldStep where
  | item (value : Exp)
  | store
  /-- Stores the values that wait, and behind them all values of the last field. -/
  | tail (value : Exp)
  | field (key value : Exp)

namespace FieldStep

def field? : FieldStep → Option (Option Exp × Exp)
  | item value | tail value => some (none, value)
  | store => none
  | field key value => some (some key, value)

def fields (steps : List FieldStep) : List (Option Exp × Exp) := steps.filterMap field?

section Fields

variable {steps : List FieldStep} {key value : Exp}

@[simp] theorem fields_item : fields (item value :: steps) = (none, value) :: fields steps := rfl

@[simp] theorem fields_store : fields (store :: steps) = fields steps := rfl

@[simp] theorem fields_tail : fields (tail value :: steps) = (none, value) :: fields steps := rfl

@[simp] theorem fields_field : fields (field key value :: steps) = (some key, value) :: fields steps := rfl

def Covered (P : Exp → Prop) (steps : List FieldStep) : Prop :=
  ∀ field ∈ fields steps, (∀ key ∈ field.1, P key) ∧ P field.2

variable {P : Exp → Prop}

theorem covered_item : Covered P (item value :: steps) ↔ P value ∧ Covered P steps := by simp [Covered]

theorem covered_tail : Covered P (tail value :: steps) ↔ P value ∧ Covered P steps := by simp [Covered]

theorem covered_field : Covered P (field key value :: steps) ↔ (P key ∧ P value) ∧ Covered P steps := by simp [Covered]

end Fields

/-- The steps for the fields of a table. Values are stored when 50 of them wait, and when the last positional field has
    come. -/
def plan (waiting : Nat) : List (Option Exp) → List Exp → List FieldStep
  | none :: keys, value :: values =>
    if values.isEmpty && value.isMulti then [tail value]
    else if waiting + 1 = 50 ∨ keys.all (·.isSome) then item value :: store :: plan 0 keys values
    else item value :: plan (waiting + 1) keys values
  | some key :: keys, value :: values => field key value :: plan waiting keys values
  | _, _ => []

/-- Never more than 50 values wait, and none in the end. All values of a field are taken if it is the last one and may
    have any number of them, and only then. -/
def Orderly (waiting : Nat) : List FieldStep → Prop
  | [] => waiting = 0
  | item value :: steps =>
    waiting < 50 ∧ (value.isMulti = true → fields steps ≠ []) ∧ Orderly (waiting + 1) steps
  | store :: steps => 0 < waiting ∧ Orderly 0 steps
  | tail value :: steps => waiting < 50 ∧ value.isMulti = true ∧ steps = []
  | field _ _ :: steps => Orderly waiting steps

section Plan

variable {keys : List (Option Exp)} {values : List Exp} {waiting : Nat}

variable (parallel : keys.length = values.length)

include parallel

theorem plan_fields : fields (plan waiting keys values) = keys.zip values := by
  induction keys generalizing waiting values with
  | nil => rfl
  | cons key keys ih =>
    cases values with
    | nil => cases parallel
    | cons value values =>
      have others : ∀ waiting, fields (plan waiting keys values) = keys.zip values :=
        fun _ => ih (Nat.succ.inj parallel)
      cases key with
      | some key => rw [plan, fields_field, others, List.zip_cons_cons]
      | none =>
        rw [plan]
        split
        · rename_i last
          have empty : values = [] := by simpa using (Bool.and_eq_true_iff.mp last).1
          rw [empty, List.zip_cons_cons, List.zip_nil_right]
          rfl
        split <;> simp [others]

theorem plan_covered {P : Exp → Prop} (every : ∀ e, some e ∈ keys ∨ e ∈ values → P e) :
    Covered P (plan waiting keys values) := by
  intro field member
  rw [plan_fields parallel] at member
  obtain ⟨key, value⟩ := List.of_mem_zip member
  exact ⟨fun e same => every e (.inl (Option.mem_def.mp same ▸ key)), every _ (.inr value)⟩

theorem plan_orderly (room : waiting < 50) (more : 0 < waiting → keys.all (·.isSome) = false) :
    Orderly waiting (plan waiting keys values) := by
  induction keys generalizing waiting values with
  | nil => exact Nat.eq_zero_of_not_pos fun some_wait => absurd (more some_wait) (by simp)
  | cons key keys ih =>
    cases values with
    | nil => cases parallel
    | cons value values =>
      have rest : keys.length = values.length := Nat.succ.inj parallel
      cases key with
      | some key => exact ih rest room more
      | none =>
        rw [plan]
        split
        · rename_i last
          exact ⟨room, (Bool.and_eq_true_iff.mp last).2, rfl⟩
        rename_i other
        -- A field that may have any number of values is not the last one here.
        have followed : ∀ waiting, value.isMulti = true → fields (plan waiting keys values) ≠ [] := by
          intro waiting multi none
          rw [plan_fields rest, List.zip_eq_nil_iff] at none
          have empty : values = [] := none.elim (fun none => List.eq_nil_of_length_eq_zero (by simp [← rest, none])) id
          exact other (by simp [empty, multi])
        split
        · exact ⟨room, followed 0, Nat.succ_pos _, ih rest (by decide) fun none => absurd none (by decide)⟩
        · rename_i goes
          obtain ⟨notFull, notLast⟩ := not_or.mp goes
          exact ⟨room, followed _, ih rest (by omega) fun _ => Bool.eq_false_iff.mpr notLast⟩

end Plan

end FieldStep

/-- One instruction, with an extra word behind it if need be, that stores `count` values, or all up to the top if
    `count` is 0, from the register behind `a` on at the keys after `stored`. -/
inductive Frame.StoresItems (a count stored : Nat) (f : Frame) : Frame → Prop
  | narrow {i : Instruction} : i.opcode? = some .setList → i.a = a → i.b = count → i.c ≠ 0 →
    stored = (i.c - 1) * 50 → StoresItems a count stored f (f.push i)
  | wide {i extra : Instruction} : i.opcode? = some .setList → i.a = a → i.b = count → i.c = 0 →
    extra.opcode? = some .extraArg → stored = (extra.axField - 1) * 50 →
    StoresItems a count stored f ((f.push i).push extra)

theorem Frame.StoresItems.used {a : Nat} (stores : f.StoresItems a count stored g) : g.used = f.used := by
  cases stores <;> rfl

open FieldStep

/-- The code of the steps is added if a table is in register `a`, the keys up to `stored` are filled, and `waiting`
    values wait in the registers behind the table. -/
inductive Lays (a : Nat) : List FieldStep → (stored waiting : Nat) → Lowering → Lowering → Prop
  | done {stored waiting : Nat} {s : Lowering} : Lays a [] stored waiting s s
  | item {value : Exp} {steps : List FieldStep} {stored waiting : Nat} {s t u s' : Lowering} :
    (Frame.alloc : LowerM Nat) s = .ok (a + 1 + waiting) t →
    value.code.emit (a + 1 + waiting) 1 t = .ok () u → Lays a steps stored (waiting + 1) u s' →
    Lays a (item value :: steps) stored waiting s s'
  | store {steps : List FieldStep} {stored waiting : Nat} {s s' : Lowering} {f : Frame} : 0 < waiting →
    (s.frame.withUsed (a + 1)).StoresItems a waiting stored f → Lays a steps (stored + waiting) 0 ⟨f, s.enclosing⟩ s' →
    Lays a (store :: steps) stored waiting s s'
  | tail {value : Exp} {stored waiting : Nat} {s t u : Lowering} {f : Frame} : value.isMulti = true →
    (Frame.alloc : LowerM Nat) s = .ok (a + 1 + waiting) t →
    value.code.emit (a + 1 + waiting) (-1) t = .ok () u → (u.frame.withUsed (a + 1)).StoresItems a 0 stored f →
    Lays a [tail value] stored waiting s ⟨f, u.enclosing⟩
  | field {key value : Exp} {steps : List FieldStep} {stored waiting b c : Nat} {s t s' : Lowering} {i : Instruction} :
    toRks key.code value.code s = .ok (b, c) t → i.opcode? = some .setTable → i.a = a → i.b = b → i.c = c →
    Lays a steps stored waiting (t.push i) s' → Lays a (field key value :: steps) stored waiting s s'

theorem Frame.StoresItems.gains {a : Nat} (stores : f.StoresItems a count stored g) : f.Gains g := by
  cases stores with
  | narrow => exact .ofPush _
  | wide => exact (Frame.Gains.ofPush _).trans (.ofPush _)

theorem Lays.gains {a waiting : Nat} {steps : List FieldStep} {s s' : Lowering}
    (lays : Lays a steps stored waiting s s') (tidy : Covered (fun e => e.code.Tidy) steps) : s.Gains s' := by
  induction lays with
  | done => exact .refl _
  | item taken emitted _ ih =>
    obtain ⟨value, rest⟩ := covered_item.mp tidy
    exact ((Adding.alloc _ _ _ taken).1.trans (value.emit _ _ _ _ _ emitted).1).trans (ih rest)
  | store _ stores _ ih => exact .trans (.ofFrame (.trans .ofUsed stores.gains)) (ih tidy)
  | tail _ taken emitted stores =>
    obtain ⟨value, -⟩ := covered_tail.mp tidy
    have loaded := (Adding.alloc _ _ _ taken).1.trans (value.emit _ _ _ _ _ emitted).1
    exact loaded.trans (.ofFrame (.trans .ofUsed stores.gains))
  | field operands _ _ _ _ _ ih =>
    obtain ⟨⟨key, value⟩, rest⟩ := covered_field.mp tidy
    exact (toRks_adds key value _ _ _ operands).1.trans (.trans (.ofFrame (.ofPush _)) (ih rest))

section Layout

variable {a : Nat} {s s' : Lowering} {keys : List (Option Exp)} {values : List Exp} {waiting positional : Nat}
  {u : Unit} {openTail : Bool}

theorem emitSetList_stores {batch pc : Nat} (positive : batch ≠ 0) (first : stored = (batch - 1) * 50)
    (run : Frame.emitSetList a count batch f = .ok pc g) : f.StoresItems a count stored g := by
  unfold Frame.emitSetList at run
  split at run
  · obtain ⟨i, built, -, rfl⟩ := Frame.emitAbc_ok run
    obtain ⟨opcode, ha, hb, hc, -⟩ := Instruction.abc_ok built
    exact .narrow opcode ha hb (hc ▸ positive) (hc ▸ first)
  · obtain ⟨_, g, setList, run⟩ := bind_ok run
    obtain ⟨i, built, -, rfl⟩ := Frame.emitAbc_ok setList
    obtain ⟨opcode, ha, hb, hc, -⟩ := Instruction.abc_ok built
    obtain ⟨_, g, extra, run⟩ := bind_ok run
    obtain ⟨x, built', -, rfl⟩ := Frame.emitAx_ok extra
    obtain ⟨opcode', number⟩ := Instruction.ax_ok built'
    obtain ⟨-, rfl⟩ := pure_ok run
    exact .wide opcode ha hb hc opcode' (number ▸ first)

theorem flushFields_lays {toTop : Bool} (counted : count = stored + waiting) (batches : stored % 50 = 0)
    (room : waiting < 50) (used : s.frame.used = a + 1 + (waiting + 1))
    (run : flushFields a (count + 1) toTop s = .ok u s') :
    ∃ f, (s.frame.withUsed (a + 1)).StoresItems a (if toTop then 0 else waiting + 1) stored f ∧
      s' = ⟨f, s.enclosing⟩ := by
  have pending : (if (count + 1) % batchSize = 0 then batchSize else (count + 1) % batchSize) = waiting + 1 := by
    unfold batchSize
    split <;> omega
  simp only [flushFields, pending] at run
  obtain ⟨_, g, free, run⟩ := bind_lift_ok run
  obtain ⟨amount, same⟩ := Frame.freeN_ok free
  obtain ⟨_, emitted, _⟩ := bind_pure_ok run
  obtain ⟨h, emit, rfl⟩ := lift_ok emitted
  have left : g.used = a + 1 := by omega
  rw [left] at same
  subst same
  refine ⟨h, emitSetList_stores (Nat.succ_ne_zero _) ?_ emit, rfl⟩
  simp only [batchSize]
  omega

theorem openTail_last {value : Exp} (rest : keys.length = values.length)
    (ends : openTail = ((none :: keys).getLast?.any (·.isNone) && (value :: values).getLast?.any Exp.isMulti)) :
    (openTail && values.isEmpty) = (values.isEmpty && value.isMulti) := by
  cases values with
  | nil =>
    have empty : keys = [] := List.eq_nil_of_length_eq_zero rest
    simp [ends, empty]
  | cons => simp

theorem flush_iff (total : count + (keys.countP (·.isNone) + 1) = positional) (counted : count = stored + waiting)
    (batches : stored % 50 = 0) (room : waiting < 50) :
    ((count + 1) % batchSize = 0 ∨ count + 1 = positional) ↔ (waiting + 1 = 50 ∨ keys.all (·.isSome) = true) := by
  have none : keys.all (·.isSome) = true ↔ keys.countP (·.isNone) = 0 := by
    simp [List.countP_eq_zero, Option.isSome_iff_ne_none]
  rw [none, batchSize]
  omega

theorem emitFields_lays (parallel : keys.length = values.length) (total : count + keys.countP (·.isNone) = positional)
    (counted : count = stored + waiting) (room : waiting < 50) (batches : keys.all (·.isSome) = false → stored % 50 = 0)
    (used : s.frame.used = a + 1 + waiting)
    (ends : keys ≠ [] → openTail = (keys.getLast?.any (·.isNone) && values.getLast?.any Exp.isMulti))
    (hk : ∀ key, some key ∈ keys → key.code.Tidy) (hv : ∀ value ∈ values, value.code.Tidy)
    (run : emitFields a positional openTail count (keys.map (Option.map Exp.code)) (values.map Exp.code) s = .ok u s') :
    Lays a (plan waiting keys values) stored waiting s s' := by
  induction keys generalizing values count stored waiting s with
  | nil =>
    cases values with
    | nil =>
      obtain ⟨-, rfl⟩ := pure_ok run
      exact .done
    | cons value values => cases parallel
  | cons key keys ih =>
    cases values with
    | nil => cases parallel
    | cons value values =>
      have rest : keys.length = values.length := Nat.succ.inj parallel
      have hk' : ∀ key, some key ∈ keys → key.code.Tidy := fun key member => hk key (.tail _ member)
      obtain ⟨tidy, hv'⟩ := List.forall_mem_cons.mp hv
      have ends' : keys ≠ [] → openTail = (keys.getLast?.any (·.isNone) && values.getLast?.any Exp.isMulti) := by
        intro more
        have more' : values ≠ [] := fun none => more (List.eq_nil_of_length_eq_zero (by rw [rest, none]; rfl))
        rw [ends (List.cons_ne_nil _ _), List.getLast?_cons_of_ne_nil more, List.getLast?_cons_of_ne_nil more']
      cases key with
      | some key =>
        obtain ⟨⟨b, c⟩, t, operands, run⟩ := bind_ok run
        obtain ⟨_, t', stored, run⟩ := bind_ok run
        obtain ⟨i, rfl, _, opcode, ha, hb, hc, -⟩ := emitAbc_lower stored
        have same := (toRks_adds (hk key (.head _)) tidy _ _ _ operands).2
        refine .field operands opcode ha hb hc (ih rest ?_ counted room batches (same.trans used) ends' hk' hv' run)
        simpa using total
      | none =>
        rw [List.countP_cons_of_pos (by rfl)] at total
        have multiple : stored % 50 = 0 := batches rfl
        obtain ⟨r, t, taken, run⟩ := bind_ok run
        obtain ⟨rfl, grown⟩ := (Adding.alloc _ _ _ taken).2
        rw [used] at taken run grown
        obtain ⟨_, v, emitted, run⟩ := bind_ok run
        have emits := (tidy.emit _ _ _ _ _ emitted).2
        have balanced : v.frame.used = a + 1 + (waiting + 1) := (emits.trans grown).trans (by omega)
        have toTop := openTail_last rest (ends (List.cons_ne_nil _ _))
        simp only [List.isEmpty_map, toTop, flush_iff total counted multiple room] at emitted run
        rw [plan]
        split
        · rename_i last
          obtain ⟨empty, multi⟩ := Bool.and_eq_true_iff.mp last
          obtain rfl : values = [] := List.isEmpty_iff.mp empty
          obtain rfl : keys = [] := List.eq_nil_of_length_eq_zero rest
          rw [last] at emitted run
          rw [if_pos (.inr rfl)] at run
          obtain ⟨_, flushed, _⟩ := bind_pure_ok run
          obtain ⟨f, stores, rfl⟩ := flushFields_lays counted multiple room balanced flushed
          exact .tail multi taken emitted stores
        rename_i other
        rw [Bool.not_eq_true] at other
        rw [other] at emitted run
        split
        · rename_i flush
          rw [if_pos flush] at run
          obtain ⟨_, w, flushed, run⟩ := bind_ok run
          obtain ⟨f, stores, rfl⟩ := flushFields_lays counted multiple room balanced flushed
          refine .item taken emitted
            (.store (Nat.succ_pos _) stores (ih rest ?_ ?_ (by decide) ?_ stores.used ends' hk' hv' run))
          · omega
          · omega
          · intro more
            have notLast : keys.all (·.isSome) ≠ true := Bool.eq_false_iff.mp more
            have batch : waiting + 1 = 50 := flush.resolve_right notLast
            omega
        · rename_i waits
          rw [if_neg waits] at run
          obtain ⟨notFull, -⟩ := not_or.mp waits
          refine .item taken emitted (ih rest ?_ ?_ (by omega) (fun _ => multiple) balanced ends' hk' hv' run)
          · omega
          · omega

theorem Exp.fields_tidy {P : List String → Prop} {e : Exp} (paired : (Exp.table keys values).Paired P)
    (field : some e ∈ keys ∨ e ∈ values) : e.code.Tidy := by
  obtain ⟨-, hk, hv⟩ := paired
  rcases field with key | value
  · have member : some e.code ∈ Exp.keyCodes keys [] := by
      rw [Exp.keyCodes_eq]
      exact List.mem_map_of_mem key
    obtain ⟨_, _, walks⟩ := exists_of_forall₂_left (Exp.keyCodes_walk (appending True) keys fun _ => hk) member
    cases walks with
    | some walks => exact ⟨_, walks⟩
  · refine Exp.codes_tidy values hv _ ?_
    rw [Exp.codes_eq]
    exact List.mem_map_of_mem value

/-- The fields of a table are lowered as planned, behind the instruction that makes the table. -/
theorem Exp.table_lays {n : Int} (parallel : keys.length = values.length)
    (tidy : ∀ e, some e ∈ keys ∨ e ∈ values → e.code.Tidy) (used : s.frame.used = a + 1)
    (run : (Exp.table keys values).code.emit a n s = .ok () s') :
    ∃ i, i.opcode? = some .newTable ∧ i.a = a ∧ a ≤ 255 ∧ Lays a (plan 0 keys values) 0 0 (s.push i) s' := by
  obtain ⟨_, f, difference, run⟩ := bind_lift_ok run
  obtain ⟨-, -, rfl⟩ := Frame.difference_ok difference
  obtain ⟨_, t, made, run⟩ := bind_ok run
  obtain ⟨i, rfl, -, opcode, ha, -, -, small⟩ := emitAbc_lower made
  rw [Exp.keyCodes_eq, Exp.codes_eq] at run
  refine ⟨i, opcode, ha, small, emitFields_lays parallel ?_ rfl (by decide) (fun _ => rfl) used (fun _ => ?_)
    (fun key member => tidy key (.inl member)) (fun value member => tidy value (.inr member)) run⟩
  · simp [List.countP_map, Function.comp_def]
  · simp [isOpen, List.getLast?_map, Option.any_map, ExpCode.isMulti]

end Layout

end LuaBytecode
