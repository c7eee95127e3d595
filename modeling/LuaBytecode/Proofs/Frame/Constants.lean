import LuaBytecode.Proofs.Frame.Operations
import LuaBytecode.Proofs.Machine.Emission

namespace LuaBytecode

namespace ConstantPool

variable {pool : ConstantPool} {ks : List Constant}

def insertAll (pool : ConstantPool) (ks : List Constant) : ConstantPool := ks.foldl (fun pool k => (pool.insert k).2) pool

theorem nodup_entries (pool : ConstantPool) : pool.entries.toList.Nodup := by
  refine List.nodup_iff_getElem?_ne_getElem?.mpr fun i j less inside same => ?_
  have found : pool.entries[j]? = some pool.entries[j] := Array.getElem?_eq_getElem inside
  rw [Array.getElem?_toList, Array.getElem?_toList, found] at same
  have other := (pool.index_iff _ j).mpr found
  rw [(pool.index_iff _ i).mpr same] at other
  exact absurd (Option.some.inj other) (Nat.ne_of_lt less)

theorem entries_insert (h : pool.entries.toList = ks.eraseDups) (k : Constant) :
    (pool.insert k).2.entries.toList = (ks ++ [k]).eraseDups := by
  rw [List.eraseDups_append, ← h]
  unfold insert
  split
  · rename_i i found
    have member : k ∈ ks := by
      rw [← List.mem_eraseDups, ← h, Array.mem_toList_iff]
      exact Array.mem_of_getElem? ((pool.index_iff k i).mp found)
    simp [List.cons_removeAll, member]
  · rename_i none
    have fresh : k ∉ ks := by
      rw [← List.mem_eraseDups, ← h, Array.mem_toList_iff, Array.mem_iff_getElem?]
      rintro ⟨i, found⟩
      rw [(pool.index_iff k i).mpr found] at none
      cases none
    simp [List.cons_removeAll, fresh, List.eraseDups_cons]

theorem entries_insertAll (h : pool.entries.toList = ks.eraseDups) (more : List Constant) :
    (pool.insertAll more).entries.toList = (ks ++ more).eraseDups := by
  induction more generalizing pool ks with
  | nil => simpa [insertAll] using h
  | cons k more ih => simpa [insertAll] using ih (entries_insert h k)

theorem insertAll_prefixed (pool : ConstantPool) (ks : List Constant) :
    pool.entries.toList <+: (pool.insertAll ks).entries.toList := by
  induction ks generalizing pool with
  | nil => exact List.prefix_rfl
  | cons k ks ih => exact (pool.insert_spec k).2.trans (ih _)

end ConstantPool

namespace Frame

variable {α β : Type}

def behind : EStateM.Result CodeError Frame α → Frame
  | .ok _ g | .error _ g => g

/-- The step inserts the constants and does nothing else to the pool. -/
def Pools (ks : List Constant) (m : FrameM α) : Prop := ∀ f, (behind (m f)).constants = f.constants.insertAll ks

namespace Pools

variable {ks : List Constant} {m : FrameM α} {k : α → FrameM β}

theorem bind (h : Pools ks m) (rest : ∀ a, Pools [] (k a)) : Pools ks (m >>= k) := by
  intro f
  have first := h f
  simp only [Bind.bind, EStateM.bind]
  cases run : m f with
  | error e g =>
    rw [run] at first
    exact first
  | ok a g =>
    rw [run] at first
    exact (rest a g).trans first

theorem pure (a : α) : Pools [] (pure a) := fun _ => rfl

theorem get : Pools [] get := fun _ => rfl

theorem forM {bs : List β} {k : β → FrameM Unit} (h : ∀ b, Pools [] (k b)) : Pools [] (bs.forM k) := by
  induction bs with
  | nil => exact pure ()
  | cons b bs ih => exact (h b).bind fun _ => ih

end Pools

theorem alloc_pools : Pools [] alloc := by
  intro f
  unfold alloc
  split <;> rfl

theorem allocAll_pools (n : Nat) : Pools [] (allocAll n) := by
  induction n with
  | zero => exact .pure ()
  | succ n ih => exact alloc_pools.bind fun _ => ih

theorem free_pools : Pools [] free := by
  intro f
  unfold free
  split <;> rfl

theorem freeN_pools (n : Nat) : Pools [] (freeN n) := by
  induction n with
  | zero => exact .pure ()
  | succ n ih => exact free_pools.bind fun _ => ih

theorem constantIndex_pools (k : Constant) : Pools [k] (constantIndex k) := fun _ => rfl

theorem addUpvalue_pools (name : String) (inStack : Bool) (index : Nat) : Pools [] (addUpvalue name inStack index) := by
  intro f
  unfold addUpvalue
  split
  · rfl
  · split <;> rfl

theorem emit_pools (i : Except OperandError Instruction) : Pools [] (emit i) := by
  intro f
  cases i <;> rfl

theorem emitLoadK_pools (a : Nat) (k : Constant) : Pools [k] (emitLoadK a k) := by
  refine (constantIndex_pools k).bind fun index => ?_
  split
  · exact emit_pools _
  · exact (emit_pools _).bind fun _ => (emit_pools _).bind fun _ => .pure _

theorem emitSetList_pools (a n batch : Nat) : Pools [] (emitSetList a n batch) := by
  unfold emitSetList
  split
  · exact emit_pools _
  · exact (emit_pools _).bind fun _ => (emit_pools _).bind fun _ => .pure _

theorem amend_pools (pc : Nat) (change : Instruction → Except OperandError Instruction) : Pools [] (amend pc change) := by
  intro f
  unfold amend
  split
  · rfl
  · split <;> rfl

theorem patchHere_pools (pc : Nat) : Pools [] (patchHere pc) := Pools.get.bind fun _ => amend_pools _ _

theorem addLocal_pools (name : String) (startPc : Nat) : Pools [] (addLocal name startPc) :=
  alloc_pools.bind fun _ => Pools.bind (fun _ => rfl) fun _ => .pure _

theorem retire_pools (name : String) : Pools [] (retire name) := by
  refine Pools.get.bind fun _ => (Pools.forM fun b => free_pools.bind fun _ f => ?_).bind fun _ _ => rfl
  unfold endRecord
  split <;> rfl

variable [NameOrder]

theorem closeCaptured_pools : Pools [] closeCaptured := by
  refine Pools.get.bind fun f => ?_
  simp only
  split
  · exact (emit_pools _).bind fun _ => .pure _
  · exact .pure _

theorem addBreak_pools (pc : Nat) : Pools [] (addBreak pc) := by
  refine Pools.get.bind fun f => ?_
  split
  · exact fun _ => rfl
  · exact (amend_pools _ _).bind fun _ _ => rfl

theorem exitScope_pools : Pools [] exitScope := by
  intro f
  rw [exitScope_eq]
  exact ((Pools.forM fun _ => (amend_pools _ _).bind fun _ => patchHere_pools _).bind fun _ =>
    Pools.get.bind fun _ => Pools.forM retire_pools) { f with scopes := f.scopes.tail }

def Op.inserted : Op → List Constant
  | constantIndex k | emitLoadK _ k => [k]
  | _ => []

theorem Op.run_pools (op : Op) : Pools op.inserted op.run := by
  have drop {α : Type} {ks : List Constant} {m : FrameM α} (h : Pools ks m) : Pools ks (do let _ ← m) :=
    h.bind fun _ => .pure ()
  cases op with
  | alloc => exact drop alloc_pools
  | allocN n => exact drop (Pools.get.bind fun _ => (allocAll_pools n).bind fun _ => .pure _)
  | free => exact free_pools
  | freeN n => exact freeN_pools n
  | setUsed | setLine | enterScope => exact fun _ => rfl
  | constantIndex k => exact drop (constantIndex_pools k)
  | addUpvalue => exact drop (addUpvalue_pools _ _ _)
  | addFunction => exact drop fun _ => rfl
  | emit i => exact drop (emit_pools i)
  | emitLoadK a k => exact drop (emitLoadK_pools a k)
  | emitSetList => exact drop (emitSetList_pools _ _ _)
  | patch => exact amend_pools _ _
  | patchHere pc => exact patchHere_pools pc
  | closeCaptured => exact closeCaptured_pools
  | addBreak pc => exact addBreak_pools pc
  | capture => exact drop fun _ => rfl
  | addLocal => exact drop (addLocal_pools _ _)
  | exitScope => exact exitScope_pools

/-- The frame behind the steps. Steps go on where one has failed. -/
def after (f : Frame) (ops : List Op) : Frame := ops.foldl (fun f op => behind (op.run f)) f

theorem after_append (f : Frame) (ops more : List Op) : f.after (ops ++ more) = (f.after ops).after more := List.foldl_append

theorem after_constants (f : Frame) (ops : List Op) :
    (f.after ops).constants = f.constants.insertAll (ops.flatMap Op.inserted) := by
  induction ops generalizing f with
  | nil => rfl
  | cons op ops ih =>
    rw [List.flatMap_cons, ConstantPool.insertAll, List.foldl_append]
    exact (ih _).trans (congrArg (ConstantPool.insertAll · _) (op.run_pools f))

theorem constantIndex_stays {f g : Frame} {k : Constant} {i : Nat} (rest : List Op) (run : constantIndex k f = .ok i g) :
    (f.after (.constantIndex k :: rest)).constants.entries[i]? = some k := by
  obtain ⟨found, -, -⟩ := constantIndex_ok run
  have pool : g.constants = (f.constants.insert k).2 := by
    have inserted := constantIndex_pools k f
    rwa [run] at inserted
  rw [after_constants, List.flatMap_cons]
  have longer := g.constants.insertAll_prefixed (rest.flatMap Op.inserted)
  rw [pool] at found longer
  exact (getElem?_of_prefixed longer (lt_of_getElem? found)).trans found

/-- Constants are numbered in the order of their first insertion, whatever is done in between: the pool has each of them
    once, two insertions give one index just if they are of one constant, and the prototype has the constant there. -/
theorem constants_numbered (params : Nat) (isVararg : Bool) (line : Nat) (path : List Nat) (source : Option String)
    (ops : List Op) :
    let start := Frame.new params isVararg line path
    let pool := ((start.after ops).toPrototype source).constants
    pool.toList = (ops.flatMap Op.inserted).eraseDups ∧ pool.toList.Nodup ∧
    (∀ before k rest, ops = before ++ .constantIndex k :: rest →
      ∃ i g, constantIndex k (start.after before) = .ok i g ∧ pool[i]? = some k) ∧
    (∀ before before' k k' rest rest' i j g g', ops = before ++ .constantIndex k :: rest →
      ops = before' ++ .constantIndex k' :: rest' → constantIndex k (start.after before) = .ok i g →
      constantIndex k' (start.after before') = .ok j g' → (i = j ↔ k = k')) ∧
    (∀ x y : Binary64, Constant.float x = .float y ↔ x.bits = y.bits) ∧ ∀ n x, Constant.integer n ≠ .float x := by
  intro start pool
  have stays {before rest : List Op} {k : Constant} {i : Nat} {g : Frame} (split : ops = before ++ .constantIndex k :: rest)
      (run : constantIndex k (start.after before) = .ok i g) : pool[i]? = some k := by
    have found := constantIndex_stays rest run
    rwa [← after_append, ← split] at found
  refine ⟨?_, (start.after ops).constants.nodup_entries, fun before k rest split => ⟨_, _, rfl, stays split rfl⟩, ?_,
    fun x y => ?_, fun n x same => by cases same⟩
  · have all := @ConstantPool.entries_insertAll start.constants [] rfl (ops.flatMap Op.inserted)
    rwa [← after_constants] at all
  · intro before before' k k' rest rest' i j g g' split split' run run'
    have found := stays split run
    have found' := stays split' run'
    constructor
    · rintro rfl
      exact Option.some.inj (found.symm.trans found')
    · rintro rfl
      have index := ((start.after ops).constants.index_iff k i).mpr found
      exact Option.some.inj (index.symm.trans (((start.after ops).constants.index_iff k j).mpr found'))
  · cases x
    cases y
    simp

end Frame

end LuaBytecode
