import LuaBytecode.Proofs.Instruction.Fields
import LuaBytecode.Proofs.Lowering.Steps

namespace LuaBytecode

variable {s s' : Lowering} {pc a n b r : Nat} {α : Type} {xs ys : Array α} {i : Instruction} {f' : Frame} {u : Unit}
  {op : Opcode} {sbx : Int}

namespace ConstantPool

theorem insert_spec (pool : ConstantPool) (k : Constant) :
    (pool.insert k).2.entries[(pool.insert k).1]? = some k ∧
      pool.entries.toList <+: (pool.insert k).2.entries.toList := by
  unfold insert
  split
  · rename_i i found
    exact ⟨(pool.index_iff k i).mp found, List.prefix_rfl⟩
  · simp

end ConstantPool

theorem lt_of_getElem? {i : Nat} {a : α} (there : xs[i]? = some a) : i < xs.size :=
  (Array.getElem?_eq_some_iff.mp there).1

theorem getElem?_of_prefixed (h : xs.toList <+: ys.toList) {i : Nat} (inside : i < xs.size) : ys[i]? = xs[i]? := by
  obtain ⟨more, same⟩ := h
  rw [← Array.getElem?_toList, ← Array.getElem?_toList, ← same, List.getElem?_append_left (by simpa using inside)]

theorem prefixed_set (h : xs.toList <+: ys.toList) {i : Nat} (later : xs.size ≤ i) (a : α) :
    xs.toList <+: (ys.setIfInBounds i a).toList := by
  obtain ⟨more, whole⟩ := h
  rw [Array.toList_setIfInBounds, ← whole, List.set_append_right _ _ (by simpa using later)]
  exact List.prefix_append _ _

namespace Frame

variable {f : Frame} {name : String}

structure Collects (f g : Frame) : Prop where
  constants : f.constants.entries.toList <+: g.constants.entries.toList
  upvalues : f.upvalues.toList <+: g.upvalues.toList
  functions : f.functions.toList <+: g.functions.toList

theorem Collects.refl (f : Frame) : Collects f f := ⟨List.prefix_rfl, List.prefix_rfl, List.prefix_rfl⟩

theorem Collects.trans {g h : Frame} (first : Collects f g) (second : Collects g h) : Collects f h :=
  ⟨first.constants.trans second.constants, first.upvalues.trans second.upvalues, first.functions.trans second.functions⟩

def push (f : Frame) (i : Instruction) : Frame := { f with code := f.code.push i }

def replace (f : Frame) (pc : Nat) (i : Instruction) : Frame := { f with code := f.code.setIfInBounds pc i }

def enter (f : Frame) (isLoop : Bool) : Frame := { f with scopes := (if isLoop then some #[] else none) :: f.scopes }

def withLocal (f : Frame) (name : String) (startPc : Nat) : Frame :=
  { f with
    used := f.used + 1
    peak := max f.peak (f.used + 1)
    live := ⟨name, f.depth, f.used, false, f.locals.size⟩ :: f.live
    locals := f.locals.push ⟨name, startPc, 0⟩
    slots := f.slots.push f.used }

def withUsed (f : Frame) (used : Nat) : Frame := { f with used := used }

section

variable (f : Frame) (i : Instruction) (pc used : Nat)

@[simp] theorem push_pc : (f.push i).pc = f.pc + 1 := Array.size_push ..

@[simp] theorem push_code : (f.push i).code = f.code.push i := rfl

@[simp] theorem push_used : (f.push i).used = f.used := rfl

@[simp] theorem push_live : (f.push i).live = f.live := rfl

@[simp] theorem push_constants : (f.push i).constants = f.constants := rfl

@[simp] theorem withUsed_pc : (f.withUsed used).pc = f.pc := rfl

@[simp] theorem withUsed_code : (f.withUsed used).code = f.code := rfl

@[simp] theorem withUsed_used : (f.withUsed used).used = used := rfl

@[simp] theorem withUsed_live : (f.withUsed used).live = f.live := rfl

@[simp] theorem withUsed_constants : (f.withUsed used).constants = f.constants := rfl

@[simp] theorem enter_pc (isLoop : Bool) : (f.enter isLoop).pc = f.pc := rfl

@[simp] theorem enter_code (isLoop : Bool) : (f.enter isLoop).code = f.code := rfl

@[simp] theorem enter_used (isLoop : Bool) : (f.enter isLoop).used = f.used := rfl

@[simp] theorem enter_live (isLoop : Bool) : (f.enter isLoop).live = f.live := rfl

@[simp] theorem enter_depth (isLoop : Bool) : (f.enter isLoop).depth = f.depth + 1 := rfl

@[simp] theorem withLocal_pc (name : String) (startPc : Nat) : (f.withLocal name startPc).pc = f.pc := rfl

@[simp] theorem withLocal_code (name : String) (startPc : Nat) : (f.withLocal name startPc).code = f.code := rfl

@[simp] theorem withLocal_used (name : String) (startPc : Nat) : (f.withLocal name startPc).used = f.used + 1 := rfl

@[simp] theorem withLocal_depth (name : String) (startPc : Nat) : (f.withLocal name startPc).depth = f.depth := rfl

@[simp] theorem replace_pc : (f.replace pc i).pc = f.pc := Array.size_setIfInBounds ..

@[simp] theorem replace_code : (f.replace pc i).code = f.code.setIfInBounds pc i := rfl

@[simp] theorem replace_used : (f.replace pc i).used = f.used := rfl

@[simp] theorem replace_live : (f.replace pc i).live = f.live := rfl

@[simp] theorem replace_constants : (f.replace pc i).constants = f.constants := rfl

end

section

variable {f : Frame} {i : Instruction} {pc at' : Nat}

theorem push_last : (f.push i).code[f.pc]? = some i := Array.getElem?_push_size

theorem push_earlier (inside : pc < f.pc) : (f.push i).code[pc]? = f.code[pc]? := by
  rw [push_code, Array.getElem?_push_lt inside, Array.getElem?_eq_getElem inside]

theorem replace_self (inside : pc < f.pc) : (f.replace pc i).code[pc]? = some i :=
  Array.getElem?_setIfInBounds_self_of_lt inside

theorem replace_other (other : pc ≠ at') : (f.replace pc i).code[at']? = f.code[at']? :=
  Array.getElem?_setIfInBounds_ne other

theorem push_replace {j : Instruction} : (f.push i).replace f.pc j = f.push j := by
  simp only [replace, push, Frame.pc]
  congr 1
  apply Array.ext_getElem?
  intro k
  rw [Array.getElem?_setIfInBounds, Array.getElem?_push, Array.getElem?_push]
  by_cases last : f.code.size = k
  · subst last
    simp
  · rw [if_neg last, if_neg (Ne.symm last), if_neg (Ne.symm last)]

theorem push_replace_earlier {j : Instruction} (inside : pc < f.pc) :
    (f.push i).replace pc j = (f.replace pc j).push i := by
  simp only [replace, push]
  congr 1
  apply Array.ext_getElem?
  intro k
  rw [Array.getElem?_setIfInBounds, Array.getElem?_push, Array.getElem?_push, Array.getElem?_setIfInBounds,
    Array.size_setIfInBounds]
  by_cases here : pc = k
  · subst here
    have inside : pc < f.code.size := inside
    simp [inside, Nat.lt_succ_of_lt inside, Nat.ne_of_lt inside]
  · rw [if_neg here, if_neg here]

end

theorem alloc_ok (h : alloc f = .ok r f') :
    r = f.used ∧ f.used + 1 < registerLimit ∧ f' = { f with used := f.used + 1, peak := max f.peak (f.used + 1) } := by
  unfold alloc at h
  split at h
  · rename_i room
    cases h
    exact ⟨rfl, room, rfl⟩
  · cases h

theorem allocAll_ok (h : allocAll n f = .ok u f') :
    f'.used = f.used + n ∧ f.peak ≤ f'.peak ∧ f' = { f with used := f'.used, peak := f'.peak } := by
  induction n generalizing f with
  | zero =>
    cases h
    exact ⟨rfl, Nat.le.refl, rfl⟩
  | succ n ih =>
    obtain ⟨r, g, first, rest⟩ := bind_ok h
    obtain ⟨rfl, _, rfl⟩ := alloc_ok first
    obtain ⟨used, peak, same⟩ := ih rest
    simp only at used peak
    refine ⟨by omega, by omega, ?_⟩
    rw [same]

theorem allocN_ok (h : allocN n f = .ok r f') :
    r = f.used ∧ f'.used = f.used + n ∧ f.peak ≤ f'.peak ∧ f' = { f with used := f'.used, peak := f'.peak } := by
  have rest := bind_get_ok h
  obtain ⟨u, all, rfl⟩ := bind_pure_ok rest
  exact ⟨rfl, allocAll_ok all⟩

theorem free_ok (h : free f = .ok u f') : f.used = f'.used + 1 ∧ f' = f.withUsed f'.used := by
  unfold free at h
  split at h
  · cases h
  · rename_i n used
    cases h
    exact ⟨used, rfl⟩

theorem freeN_ok (h : freeN n f = .ok u f') : f.used = f'.used + n ∧ f' = f.withUsed f'.used := by
  induction n generalizing f with
  | zero =>
    cases h
    exact ⟨rfl, rfl⟩
  | succ n ih =>
    obtain ⟨u, g, first, rest⟩ := bind_ok h
    obtain ⟨one, same⟩ := free_ok first
    obtain ⟨others, same'⟩ := ih rest
    refine ⟨by omega, ?_⟩
    rw [same', same]
    rfl

theorem setUsed_ok (h : setUsed n f = .ok u f') : f' = f.withUsed n := by
  cases h
  rfl

theorem difference_ok (h : difference a b f = .ok n f') : b ≤ a ∧ n = a - b ∧ f' = f := by
  unfold difference at h
  split at h
  · rename_i fits
    cases h
    exact ⟨fits, rfl, rfl⟩
  · cases h

theorem constantIndex_ok {k : Constant} {i : Nat} (h : constantIndex k f = .ok i f') :
    f'.constants.entries[i]? = some k ∧ f.constants.entries.toList <+: f'.constants.entries.toList ∧
      f' = { f with constants := f'.constants } := by
  obtain ⟨line, path, params, isVararg, used, peak, scopes, live, locals, slots, pool, upvalues, code, functions⟩ := f
  have spec := pool.insert_spec k
  cases h
  exact ⟨spec.1, spec.2, rfl⟩

theorem addUpvalue_ok {inStack : Bool} {index i : Nat} (fresh : f.upvalueIndex? name = none)
    (h : addUpvalue name inStack index f = .ok i f') :
    i = f.upvalues.size ∧ f' = { f with upvalues := f.upvalues.push ⟨name, inStack, index⟩ } := by
  unfold addUpvalue at h
  rw [fresh] at h
  split at h
  · cases h
  · cases h
    exact ⟨rfl, rfl⟩

theorem addFunction_ok {p : Prototype} {i : Nat} (h : addFunction p f = .ok i f') :
    i = f.functions.size ∧ f' = { f with functions := f.functions.push p } := by
  cases h
  exact ⟨rfl, rfl⟩

theorem emit_ok {e : Except OperandError Instruction} (h : emit e f = .ok pc f') :
    ∃ i, e = .ok i ∧ pc = f.pc ∧ f' = f.push i := by
  unfold emit at h
  split at h
  · rename_i i
    cases h
    exact ⟨i, rfl, rfl, rfl⟩
  · cases h

theorem emitAbc_ok {c : Nat} (h : emitAbc op a b c f = .ok pc f') :
    ∃ i, Instruction.abc op a b c = .ok i ∧ pc = f.pc ∧ f' = f.push i := emit_ok h

theorem emitAbx_ok {bx : Nat} (h : emitAbx op a bx f = .ok pc f') :
    ∃ i, Instruction.abx op a bx = .ok i ∧ pc = f.pc ∧ f' = f.push i := emit_ok h

theorem emitAsbx_ok (h : emitAsbx op a sbx f = .ok pc f') :
    ∃ i, Instruction.asbx op a sbx = .ok i ∧ pc = f.pc ∧ f' = f.push i := emit_ok h

theorem emitAx_ok {ax : Nat} (h : emitAx op ax f = .ok pc f') :
    ∃ i, Instruction.ax op ax = .ok i ∧ pc = f.pc ∧ f' = f.push i := emit_ok h

theorem amend_ok {change : Instruction → Except OperandError Instruction} (h : amend pc change f = .ok u f') :
    ∃ i j, f.code[pc]? = some i ∧ change i = .ok j ∧ f' = f.replace pc j := by
  unfold amend at h
  split at h
  · cases h
  · rename_i i found
    split at h
    · rename_i j changed
      cases h
      exact ⟨i, j, found, changed, rfl⟩
    · cases h

theorem patchHere_ok (h : patchHere pc f = .ok u f') :
    ∃ i j, f.code[pc]? = some i ∧ i.setSbx (jumpOffset pc f.pc) = .ok j ∧
      f' = f.replace pc j := by
  have rest := bind_get_ok h
  exact amend_ok rest

theorem addLocal_ok {startPc : Nat} (h : addLocal name startPc f = .ok r f') :
    r = f.used ∧ f.used + 1 < registerLimit ∧ f' = f.withLocal name startPc := by
  obtain ⟨register, g, first, rest⟩ := bind_ok h
  obtain ⟨rfl, room, rfl⟩ := alloc_ok first
  cases rest
  exact ⟨rfl, room, rfl⟩

theorem enterScope_ok {isLoop : Bool} (h : enterScope isLoop f = .ok u f') : f' = f.enter isLoop := by
  cases h
  rfl

end Frame

namespace Lowering

def push (s : Lowering) (i : Instruction) : Lowering := ⟨s.frame.push i, s.enclosing⟩

def replace (s : Lowering) (pc : Nat) (i : Instruction) : Lowering := ⟨s.frame.replace pc i, s.enclosing⟩

def withUsed (s : Lowering) (used : Nat) : Lowering := ⟨s.frame.withUsed used, s.enclosing⟩

def enter (s : Lowering) (isLoop : Bool) : Lowering := ⟨s.frame.enter isLoop, s.enclosing⟩

section

variable (s : Lowering) (i : Instruction) (pc used : Nat)

@[simp] theorem push_frame : (s.push i).frame = s.frame.push i := rfl

@[simp] theorem push_enclosing : (s.push i).enclosing = s.enclosing := rfl

@[simp] theorem replace_frame : (s.replace pc i).frame = s.frame.replace pc i := rfl

@[simp] theorem replace_enclosing : (s.replace pc i).enclosing = s.enclosing := rfl

@[simp] theorem withUsed_frame : (s.withUsed used).frame = s.frame.withUsed used := rfl

@[simp] theorem withUsed_enclosing : (s.withUsed used).enclosing = s.enclosing := rfl

@[simp] theorem enter_frame (isLoop : Bool) : (s.enter isLoop).frame = s.frame.enter isLoop := rfl

@[simp] theorem enter_enclosing (isLoop : Bool) : (s.enter isLoop).enclosing = s.enclosing := rfl

end

end Lowering

theorem emitAbc_lower {c : Nat} (h : (Frame.emitAbc op a b c : LowerM Nat) s = .ok pc s') :
    ∃ i, s' = s.push i ∧ pc = s.frame.pc ∧ i.opcode? = some op ∧
      i.a = a ∧ i.b = b ∧ i.c = c ∧ a ≤ 255 := by
  obtain ⟨f, emit, rfl⟩ := lift_ok h
  obtain ⟨i, built, rfl, rfl⟩ := Frame.emitAbc_ok emit
  obtain ⟨hop, ha, hb, hc, fits, _, _⟩ := Instruction.abc_ok built
  exact ⟨i, rfl, rfl, hop, ha, hb, hc, fits⟩

theorem emitAsbx_lower (h : (Frame.emitAsbx op a sbx : LowerM Nat) s = .ok pc s') :
    ∃ i, s' = s.push i ∧ pc = s.frame.pc ∧ i.opcode? = some op ∧ i.a = a ∧ i.sbx = sbx := by
  obtain ⟨f, emit, rfl⟩ := lift_ok h
  obtain ⟨i, built, rfl, rfl⟩ := Frame.emitAsbx_ok emit
  obtain ⟨hop, ha, hsbx, _⟩ := Instruction.asbx_ok built
  exact ⟨i, rfl, rfl, hop, ha, hsbx⟩

theorem difference_lower (h : (Frame.difference a b : LowerM Nat) s = .ok n s') :
    b ≤ a ∧ n = a - b ∧ s = s' := by
  obtain ⟨f, run, rfl⟩ := lift_ok h
  obtain ⟨fits, rfl, rfl⟩ := Frame.difference_ok run
  exact ⟨fits, rfl, rfl⟩

theorem emitJmp_lower (h : (Frame.emitJmp a sbx : LowerM Nat) s = .ok pc s') :
    ∃ i, s' = s.push i ∧ pc = s.frame.pc ∧ i.opcode? = some .jmp ∧ i.a = a ∧ i.sbx = sbx := emitAsbx_lower h

theorem patch_lower {target : Nat} (found : s.frame.code[pc]? = some i) (opcode : i.opcode? = some op)
    (h : (Frame.patch pc target : LowerM Unit) s = .ok u s') :
    ∃ j, s' = s.replace pc j ∧ j.opcode? = some op ∧ j.a = i.a ∧ j.sbx = Frame.jumpOffset pc target := by
  obtain ⟨f, patch, rfl⟩ := lift_ok h
  obtain ⟨i', j, found', changed, rfl⟩ := Frame.amend_ok patch
  cases found.symm.trans found'
  obtain ⟨hop, ha, hsbx⟩ := Instruction.setSbx_ok opcode changed
  exact ⟨j, rfl, hop, ha, hsbx⟩

theorem patchHere_lower (found : s.frame.code[pc]? = some i) (opcode : i.opcode? = some op)
    (h : (Frame.patchHere pc : LowerM Unit) s = .ok u s') :
    ∃ j, s' = s.replace pc j ∧ j.opcode? = some op ∧ j.a = i.a ∧
      j.sbx = Frame.jumpOffset pc s.frame.pc := by
  have patched : (Frame.patch pc s.frame.pc : LowerM Unit) s = .ok u s' := h
  exact patch_lower found opcode patched

theorem ExpCode.loadValues_cons {e : ExpCode} {rest : List ExpCode} {want : Nat}
    (one : (rest.isEmpty && e.isMulti) = false) : loadValues (e :: rest) want = (do
      let a ← (Frame.alloc : FrameM Nat)
      e.emit a 1
      loadValues rest (want - 1)) := by
  cases rest with
  | nil =>
    have single : e.isMulti = false := one
    simp only [loadValues, single, Bool.false_eq_true, if_false]
  | cons _ _ => rfl

end LuaBytecode
