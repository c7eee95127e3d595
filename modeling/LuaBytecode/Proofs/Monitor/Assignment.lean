import LuaBytecode.Proofs.Expression.Operands
import LuaBytecode.Proofs.Monitor.Tree

namespace LuaBytecode

open Lowering Instruction

namespace Instruction

def assigned? (i : Instruction) : Option Place :=
  match i.opcode? with
  | some .move => some (.register i.a)
  | some .setUpval => some (.upvalue i.b)
  | _ => none

def rkRegister? (x : Nat) : Option Place := if isRkConstant x then none else some (.register x)

def storeReads (i : Instruction) : List Place :=
  match i.opcode? with
  | some .move => [.register i.b]
  | some .setUpval => [.register i.a]
  | some .setTable => .register i.a :: ((rkRegister? i.b).toList ++ (rkRegister? i.c).toList)
  | some .setTabUp => .upvalue i.a :: ((rkRegister? i.b).toList ++ (rkRegister? i.c).toList)
  | _ => []

def isFieldStore (i : Instruction) : Bool := i.opcode? = some .setTable || i.opcode? = some .setTabUp

def isStore (i : Instruction) : Bool := i.isFieldStore || i.opcode? = some .move || i.opcode? = some .setUpval

def clobbers (i j : Instruction) : Bool := i.assigned?.any (· ∈ j.storeReads)

end Instruction

def Exp.name? : Exp → Option String
  | .name x => some x
  | _ => none

/-- The code since `start` ends with one store for each target. A store changes what another one reads just if it is the
    one to the environment and the other one is to a global variable. -/
def Frame.storesInOrder (targets : List Exp) (start : Nat) (f : Frame) : Bool :=
  let stores := f.code.toList.drop (f.pc - targets.length)
  start + targets.length ≤ f.pc && stores.all (·.isStore) &&
    (targets.zip stores).Pairwise fun first second => first.2.clobbers second.2 =
      (first.1.name? = some environment && second.1.name?.isSome && second.2.isFieldStore)

def Lowering.storeOrder : Monitor where
  exp _ emit := emit
  stat kind m := do
    let start ← pc
    m
    match kind with
    | .assign targets _ => ensure (·.frame.storesInOrder targets start)
    | _ => pure ()
  slot _ _ := pure ()

section Stores

variable {s t : Lowering} {v : Nat}

def Target.StoredBy (v : Nat) (i : Instruction) : Target → Prop
  | .place (.register r) => i.opcode? = some .move ∧ i.a = r ∧ i.b = v
  | .place (.upvalue u) => i.opcode? = some .setUpval ∧ i.a = v ∧ i.b = u
  | .field (.register r) key => i.opcode? = some .setTable ∧ i.a = r ∧ i.b = key ∧ i.c = v
  | .field (.upvalue u) key => i.opcode? = some .setTabUp ∧ i.a = u ∧ i.b = key ∧ i.c = v

theorem Target.StoredBy.isStore {target : Target} {i : Instruction} (h : target.StoredBy v i) : i.isStore = true := by
  rcases target with (_ | _) | ⟨_ | _, _⟩ <;> simp [Instruction.isStore, Instruction.isFieldStore, h.1]

theorem emitStore_code {target : Target} (run : emitStore v target s = .ok () t) :
    ∃ i, t = s.push i ∧ target.StoredBy v i := by
  rcases target with (_ | _) | ⟨_ | _, _⟩
  all_goals
    obtain ⟨_, emitted, _⟩ := bind_pure_ok run
    obtain ⟨i, same, _, hop, ha, hb, hc, _⟩ := emitAbc_lower emitted
    exact ⟨i, same, by simp [Target.StoredBy, hop, ha, hb, hc]⟩

theorem emitStores_code {targets : List Target} (run : emitStores v targets s = .ok () t) :
    ∃ stores, t.frame.code.toList = s.frame.code.toList ++ stores ∧
      List.Forall₂ (fun target i => ∃ w, v ≤ w ∧ target.StoredBy w i) targets stores := by
  induction targets generalizing s v with
  | nil =>
    obtain ⟨_, rfl⟩ := pure_ok run
    exact ⟨[], (List.append_nil _).symm, .nil⟩
  | cons target rest ih =>
    obtain ⟨_, _, first, others⟩ := bind_ok run
    obtain ⟨i, rfl, stored⟩ := emitStore_code first
    obtain ⟨stores, code, all⟩ := ih others
    refine ⟨i :: stores, ?_, .cons ⟨v, Nat.le_refl v, stored⟩ (all.imp fun _ _ ⟨w, later, stored⟩ => ⟨w, by omega, stored⟩)⟩
    rw [code, push_frame, Frame.push_code, Array.toList_push, List.append_assoc]
    rfl

end Stores

section Names

variable {s t : Lowering} {k : Nat} {x y : String} {p q : Place}

def Lowering.Named (s : Lowering) (x : String) : Place → Prop
  | .register r => s.frame.register? x = some r
  | .upvalue i => s.frame.register? x = none ∧ ∃ u, s.frame.upvalues[i]? = some u ∧ u.name = x

namespace Lowering.Named

theorem retain (h : s.Named x p) (retains : Retains s t) : t.Named x p := by
  have same := Frame.register?_marked retains.live x
  cases p with
  | register r => exact same.trans h
  | upvalue i =>
    obtain ⟨none, u, there, name⟩ := h
    refine ⟨same.trans none, u, ?_, name⟩
    rwa [getElem?_of_prefixed retains.upvalues (lt_of_getElem? there)]

theorem unique (stacked : s.Stacked k) (first : s.Named x p) (second : s.Named x q) : p = q := by
  cases p with
  | register r =>
    cases q with
    | register r' => exact congrArg Place.register (Option.some.inj (Eq.trans (Eq.symm first) second))
    | upvalue i => cases Eq.trans (Eq.symm first) second.1
  | upvalue i =>
    cases q with
    | register r => cases Eq.trans (Eq.symm second) first.1
    | upvalue j =>
      obtain ⟨_, u, there, name⟩ := first
      obtain ⟨_, v, there', name'⟩ := second
      obtain ⟨f, enclosing⟩ := s
      cases enclosing with
      | nil => exact absurd rfl stacked.nested
      | cons parent outer =>
        have distinct := stacked.chain.1.distinct
        rw [← Array.getElem?_toList] at there there'
        have inside : i < (f.upvalues.toList.map (·.name)).length := by
          rw [List.length_map]
          exact (List.getElem?_eq_some_iff.mp there).1
        refine congrArg Place.upvalue ((List.getElem?_inj inside distinct).mp ?_)
        rw [List.getElem?_map, List.getElem?_map, there, there', Option.map_some, Option.map_some, name, name']

theorem injective (stacked : s.Stacked k) (first : s.Named x p) (second : s.Named y p) : x = y := by
  cases p with
  | register r =>
    obtain ⟨b, member, rfl, register⟩ := Frame.exists_of_register? first
    obtain ⟨c, member', rfl, register'⟩ := Frame.exists_of_register? second
    rw [stacked.layered.eq_of_register member member' (register.trans register'.symm)]
  | upvalue i =>
    obtain ⟨_, u, there, rfl⟩ := first
    obtain ⟨_, v, there', rfl⟩ := second
    cases there.symm.trans there'
    rfl

theorem register_lt (stacked : s.Stacked k) {r : Nat} (h : s.Named x (.register r)) : r < k := by
  obtain ⟨b, member, _, rfl⟩ := Frame.exists_of_register? h
  exact (stacked.layered.inside b member).2.2

end Lowering.Named

theorem resolve_named (stacked : s.Stacked k) {place? : Option Place} (run : resolve x s = .ok place? t) :
    (∀ p, place? = some p → t.Named x p) ∧ (x = environment → place? ≠ none) := by
  replace run := bind_get_ok run
  cases bound : s.frame.register? x with
  | some r =>
    rw [bound] at run
    obtain ⟨rfl, rfl⟩ := pure_ok run
    refine ⟨?_, fun _ => Option.some_ne_none _⟩
    rintro _ ⟨⟩
    exact bound
  | none =>
    rw [bound] at run
    obtain ⟨i?, found, rfl⟩ := bind_pure_ok run
    obtain ⟨_, same, _, _, named, absent⟩ := (findUpvalue_gives x s.enclosing s.frame stacked.chain).ok found
    constructor
    · intro p known
      obtain ⟨i, rfl, rfl⟩ := Option.map_eq_some_iff.mp known
      refine ⟨?_, named i rfl⟩
      rw [same]
      exact bound
    · rintro rfl none
      obtain ⟨g, member, r, bound'⟩ := stacked.chain.environment stacked.nested
      cases (absent (Option.map_eq_none_iff.mp none) g member).symm.trans bound'

end Names

section Targets

variable {s t : Lowering} {k key : Nat} {e e' : Exp} {target target' : Target}

def IsTemporary (k key : Nat) : Prop := isRkConstant key = true ∨ k ≤ key

/-- How the targets of an assignment are resolved: an indexed table is copied, and the environment is not. -/
inductive Exp.Targets (s : Lowering) (k : Nat) : Exp → Target → Prop
  | place {x : String} {p : Place} : s.Named x p → Targets s k (.name x) (.place p)
  | global {x : String} {p : Place} {key : Nat} : x ≠ environment → s.Named environment p → IsTemporary k key →
    Targets s k (.name x) (.field p key)
  | index {object index : Exp} {r key : Nat} : k ≤ r → IsTemporary k key →
    Targets s k (.index object index) (.field (.register r) key)

theorem Exp.Targets.retain (h : e.Targets s k target) (retains : Retains s t) : e.Targets t k target := by
  cases h with
  | place named => exact .place (named.retain retains)
  | global other named above => exact .global other (named.retain retains) above
  | index above above' => exact .index above above'

theorem nameKey_temporary {x : String} (run : nameKey x s = .ok key t) : IsTemporary s.frame.used key := by
  obtain ⟨index, _, found, run⟩ := bind_ok run
  split at run
  · obtain ⟨rfl, _⟩ := pure_ok run
    exact .inl (isRkConstant_rkConstant index)
  · obtain ⟨f, interned, rfl⟩ := lift_ok found
    obtain ⟨_, _, same⟩ := Frame.constantIndex_ok interned
    obtain ⟨r, f', allocated, run⟩ := bind_lift_ok run
    obtain ⟨rfl, _, _⟩ := Frame.alloc_ok allocated
    obtain ⟨_, _, _, done⟩ := bind_ok run
    obtain ⟨rfl, _⟩ := pure_ok done
    refine .inr (Nat.le_of_eq ?_)
    show s.frame.used = f.used
    rw [same]

theorem constantRk?_constant {code : ExpCode} {rk : Nat} (run : code.constantRk? s = .ok (some rk) t) :
    isRkConstant rk = true := by
  rw [ExpCode.constantRk?] at run
  cases known : code.exp.literal? with
  | none =>
    rw [known] at run
    cases (pure_ok run).1
  | some constant =>
    rw [known] at run
    obtain ⟨index, _, _, done⟩ := bind_ok run
    obtain ⟨same, _⟩ := pure_ok done
    split at same
    · cases same
      exact isRkConstant_rkConstant index
    · cases same

theorem toNewRegister_first {code : ExpCode} {r : Nat} (run : code.toNewRegister s = .ok r t) : r = s.frame.used := by
  obtain ⟨_, _, allocated, run⟩ := bind_lift_ok run
  obtain ⟨rfl, _⟩ := Frame.alloc_ok allocated
  obtain ⟨_, _, _, done⟩ := bind_ok run
  exact (pure_ok done).1

theorem nameTarget_targets {x : String} (stacked : s.Stacked k) (room : k ≤ s.frame.used)
    (run : nameTarget x s = .ok target t) : (Exp.name x).Targets t k target := by
  obtain ⟨place?, u, resolved, run⟩ := bind_ok run
  obtain ⟨named, found⟩ := resolve_named stacked resolved
  obtain ⟨retains, used⟩ := (TracksAt.resolve stacked rfl).post _ _ resolved
  cases place? with
  | some p =>
    obtain ⟨rfl, rfl⟩ := pure_ok run
    exact .place (named p rfl)
  | none =>
    have other : x ≠ environment := fun same => found same rfl
    obtain ⟨key, v, keyed, run⟩ := bind_ok run
    obtain ⟨retains', _⟩ := (TracksAt.nameKey (retains.stacked stacked) rfl).post _ _ keyed
    obtain ⟨p, located, rfl⟩ := bind_pure_ok run
    obtain ⟨p?, resolved', rfl⟩ := bind_pure_ok located
    obtain ⟨named', found'⟩ := resolve_named (retains'.stacked (retains.stacked stacked)) resolved'
    obtain ⟨p, rfl⟩ := Option.ne_none_iff_exists'.mp (found' rfl)
    refine .global other (named' p rfl) ((nameKey_temporary keyed).imp_right fun above => ?_)
    omega

theorem Exp.mirrors_self (e : Exp) : e.code.MirrorsAll False e.code := by
  have mirrors : e.code.MirrorsAll False (e.monitored .idle) := Exp.mirrors idle_passes e False.elim
  rwa [Exp.monitored_idle] at mirrors

theorem Exp.mirror_self (exps : List Exp) :
    List.Forall₂ (ExpCode.MirrorsAll False) (exps.map Exp.code) (exps.map Exp.code) :=
  List.forall₂_map_left_iff.mpr (List.forall₂_map_right_iff.mpr (List.forall₂_same.mpr fun e _ => e.mirrors_self))

theorem Exp.code_targets (stacked : s.Stacked k) (room : k ≤ s.frame.used) (run : e.code.target s = .ok target t) :
    e.Targets t k target := by
  cases e with
  | name x => exact nameTarget_targets stacked room run
  | index object index =>
    obtain ⟨r, u, based, run⟩ := bind_ok run
    obtain rfl := toNewRegister_first based
    obtain ⟨retains, leaks⟩ := ((object.mirrors_self k).toNewRegister room stacked rfl).post _ _ based
    obtain ⟨rk?, v, keyed, run⟩ := bind_ok run
    obtain ⟨_, used'⟩ := ((index.mirrors_self k).constantRk? (retains.stacked stacked) rfl).post _ _ keyed
    cases rk? with
    | some rk =>
      obtain ⟨rfl, rfl⟩ := pure_ok run
      exact .index room (.inl (constantRk?_constant keyed))
    | none =>
      obtain ⟨r, taken, rfl⟩ := bind_pure_ok run
      obtain rfl := toNewRegister_first taken
      have above := leaks.le
      exact .index room (.inr (by omega))
  | _ => obtain ⟨_, _, _, done⟩ := bind_ok run; cases done

theorem resolveTargets_targets {exps : List Exp} {resolved targets : Array Target} (stacked : s.Stacked k)
    (room : k ≤ s.frame.used) (run : resolveTargets (exps.map Exp.code) resolved s = .ok targets t) :
    ∃ new, targets.toList = resolved.toList ++ new ∧ List.Forall₂ (Exp.Targets t k) exps new := by
  induction exps generalizing s resolved with
  | nil =>
    obtain ⟨rfl, rfl⟩ := pure_ok run
    exact ⟨[], (List.append_nil _).symm, .nil⟩
  | cons e rest ih =>
    obtain ⟨target, u, first, others⟩ := bind_ok run
    obtain ⟨retains, above⟩ := ((e.mirrors_self k).target _ room stacked rfl).post _ _ first
    have room' : k ≤ u.frame.used := Nat.le_trans room above
    obtain ⟨retains', _⟩ := (resolveTargets_mirror (mirrors_at (Exp.mirror_self rest) k) _ room'
      (retains.stacked stacked) rfl).post _ _ others
    obtain ⟨new, same, all⟩ := ih (retains.stacked stacked) room' others
    refine ⟨target :: new, ?_, .cons ?_ all⟩
    · rw [same, Array.toList_push, List.append_assoc]
      rfl
    · exact (Exp.code_targets stacked room first).retain retains'

end Targets

section Order

variable {s t : Lowering} {k v w : Nat} {e e' : Exp} {target target' : Target} {i j : Instruction} {p : Place}
  {x : String} {exps : List Exp} {stores : List Instruction}

theorem Target.StoredBy.place (h : (Target.place p).StoredBy v i) :
    i.assigned? = some p ∧ i.storeReads = [.register v] ∧ i.isFieldStore = false := by
  cases p with
  | register r =>
    obtain ⟨op, rfl, rfl⟩ := h
    simp [assigned?, Instruction.storeReads, Instruction.isFieldStore, op]
  | upvalue u =>
    obtain ⟨op, rfl, rfl⟩ := h
    simp [assigned?, Instruction.storeReads, Instruction.isFieldStore, op]

theorem Target.StoredBy.field {key : Nat} (h : (Target.field p key).StoredBy v i) :
    i.assigned? = none ∧ i.isFieldStore = true ∧ i.storeReads =
      p :: ((rkRegister? key).toList ++ (rkRegister? v).toList) := by
  cases p with
  | register r =>
    obtain ⟨op, rfl, rfl, rfl⟩ := h
    simp [assigned?, Instruction.storeReads, Instruction.isFieldStore, op]
  | upvalue u =>
    obtain ⟨op, rfl, rfl, rfl⟩ := h
    simp [assigned?, Instruction.storeReads, Instruction.isFieldStore, op]

theorem Lowering.Named.ne_register (stacked : s.Stacked k) (named : s.Named x p) {r : Nat} (above : k ≤ r) :
    p ≠ .register r := by
  rintro rfl
  have := named.register_lt stacked
  omega

theorem Lowering.Named.not_mem_rkRegister? (stacked : s.Stacked k) (named : s.Named x p) {key : Nat}
    (h : IsTemporary k key) : p ∉ (rkRegister? key).toList := by
  rw [rkRegister?]
  split
  · exact List.not_mem_nil
  case isFalse register =>
    rw [Option.toList_some, List.mem_singleton]
    exact named.ne_register stacked (h.resolve_left register)

theorem Exp.Targets.mem_storeReads (stacked : s.Stacked k) (h : e.Targets s k target) (stored : target.StoredBy v i)
    (above : k ≤ v) (named : s.Named x p) :
    p ∈ i.storeReads ↔ x = environment ∧ e.name?.isSome = true ∧ i.isFieldStore = true := by
  have value := named.not_mem_rkRegister? stacked (.inr above)
  cases h with
  | place =>
    obtain ⟨_, reads, field⟩ := stored.place
    simp [reads, field, named.ne_register stacked above]
  | global _ based temporary =>
    obtain ⟨_, field, reads⟩ := stored.field
    have key := named.not_mem_rkRegister? stacked temporary
    rw [reads, List.mem_cons, List.mem_append, or_iff_left (not_or.mpr ⟨key, value⟩), field]
    refine ⟨?_, ?_⟩
    · rintro rfl
      exact ⟨named.injective stacked based, rfl, rfl⟩
    · rintro ⟨rfl, _, _⟩
      exact named.unique stacked based
  | index copied temporary =>
    obtain ⟨_, _, reads⟩ := stored.field
    have key := named.not_mem_rkRegister? stacked temporary
    simp [reads, key, value, named.ne_register stacked copied, Exp.name?]

theorem Exp.Targets.clobbers_eq (stacked : s.Stacked k) (h : e.Targets s k target) (stored : target.StoredBy v i)
    (h' : e'.Targets s k target') (stored' : target'.StoredBy w j) (above : k ≤ w) :
    i.clobbers j = (e.name? = some environment && e'.name?.isSome && j.isFieldStore) := by
  rw [Instruction.clobbers]
  cases h with
  | place named =>
    rw [stored.place.1, Option.any_some, Bool.eq_iff_iff, decide_eq_true_iff, h'.mem_storeReads stacked stored' above named]
    simp [Exp.name?, and_assoc]
  | global other =>
    simp [stored.field.1, Exp.name?, other]
  | index =>
    simp [stored.field.1, Exp.name?]

def Exp.StoredBy (s : Lowering) (k : Nat) (e : Exp) (i : Instruction) : Prop :=
  ∃ target v, e.Targets s k target ∧ k ≤ v ∧ target.StoredBy v i

theorem storedBy_all {targets : List Target} (located : List.Forall₂ (Exp.Targets s k) exps targets) (above : k ≤ v)
    (stored : List.Forall₂ (fun target i => ∃ w, v ≤ w ∧ target.StoredBy w i) targets stores) :
    List.Forall₂ (Exp.StoredBy s k) exps stores := by
  induction located generalizing stores with
  | nil =>
    cases stored
    exact .nil
  | cons head _ ih =>
    cases stored with
    | cons first others =>
      obtain ⟨w, later, stored⟩ := first
      exact .cons ⟨_, w, head, Nat.le_trans above later, stored⟩ (ih others)

theorem Frame.storesInOrder_of {f : Frame} {start : Nat} {before : List Instruction} (stacked : s.Stacked k)
    (code : f.code.toList = before ++ stores) (earlier : start ≤ before.length)
    (stored : List.Forall₂ (Exp.StoredBy s k) exps stores) : f.storesInOrder exps start = true := by
  have size : f.pc = before.length + exps.length := by
    rw [stored.length_eq, ← List.length_append, ← code, Array.length_toList]
    rfl
  have last : f.code.toList.drop (f.pc - exps.length) = stores := by
    rw [code, size, Nat.add_sub_cancel, List.drop_left]
  have pairs : ∀ pair ∈ exps.zip stores, pair.1.StoredBy s k pair.2 := fun _ member => List.forall₂_zip stored member
  rw [storesInOrder, last, Bool.and_eq_true, Bool.and_eq_true]
  refine ⟨⟨decide_eq_true (by omega), List.all_eq_true.mpr fun i member => ?_⟩, decide_eq_true ?_⟩
  · obtain ⟨e, _, _, _, _, _, store⟩ := exists_of_forall₂_right stored member
    exact store.isStore
  · refine List.pairwise_of_forall_mem_list fun first member second member' => ?_
    obtain ⟨_, _, located, _, store⟩ := pairs first member
    obtain ⟨_, _, located', above, store'⟩ := pairs second member'
    exact located.clobbers_eq stacked store located' store' above

theorem emitAssign_storesInOrder {targets values : List Exp} (stacked : s.Stacked s.frame.used)
    (run : emitAssign (Exp.codes targets []) (Exp.codes values []) s = .ok () t) :
    t.frame.storesInOrder targets s.frame.pc = true := by
  obtain ⟨_, inner, rfl⟩ := scratch_ok run
  obtain ⟨resolved, c, located, inner⟩ := bind_ok inner
  replace inner := bind_used_ok inner
  obtain ⟨_, d, loaded, stored⟩ := bind_ok inner
  rw [Exp.codes_eq] at located loaded
  obtain ⟨retains, above⟩ := (resolveTargets_mirror (mirrors_at (Exp.mirror_self targets) _) _ Nat.le.refl stacked
    rfl).post _ _ located
  have stacked' := retains.stacked stacked
  obtain ⟨retains', _⟩ := (ExpCode.mirrors_loadValues (trimNils_mirror (Exp.mirror_self values) _) above _ stacked'
    rfl).post _ _ loaded
  obtain ⟨new, same, all⟩ := resolveTargets_targets stacked Nat.le.refl located
  obtain ⟨stores, code, all'⟩ := emitStores_code stored
  rw [same, Array.toList_empty, List.nil_append] at all'
  refine Frame.storesInOrder_of stacked' code ?_ (storedBy_all all above all')
  exact Nat.le_trans retains.pc retains'.pc

theorem storeOrder_passes : storeOrder.Passes False where
  slot _ _ _ _ := rfl
  exp _ _ _ _ _ _ _ _ := .refl _
  stat kind m s ordered proceeds := by
    refine .andThen fun _ t run => ?_
    cases kind with
    | assign targets values => exact ensure_run (emitAssign_storesInOrder ordered.stacked (proceeds t run).1)
    | _ => rfl
  finish _ _ := rfl

/-- An assignment evaluates what its targets need, then its values, and then stores each value. No store changes what a
    later one reads, unless it is the one to the environment and the later one is to a global variable. -/
theorem Block.compile_stores_in_order {block : Block} {name : String} {p : Prototype}
    (compiled : block.compile name = .ok p) : block.compileMonitored storeOrder name = .ok p :=
  storeOrder_passes.compile False.elim compiled

theorem Block.compile_stores_in_order_of_swap :
    ∃ block p, block = [.mk 1 (.localDecl ["a", "b"] [.vararg]), .mk 2 (.localFunction "f" [] true
        [.mk 3 (.assign [.index (.name "a") (.name "b"), .name "b", .name "a"] [.name "b", .name "a", .vararg])])] ∧
      Block.compile block "swap" = .ok p ∧ Block.compileMonitored storeOrder block "swap" = .ok p := by
  refine Block.exists_compiled "swap" (by decide +kernel) fun p compiled => ?_
  exact ⟨compiled, Block.compile_stores_in_order compiled⟩

end Order

end LuaBytecode
