import LuaBytecode.Proofs.Monitor.Basic
import LuaBytecode.Proofs.Monitor.Steps
import LuaBytecode.Proofs.Regular.Tables

namespace LuaBytecode

open Lowering

variable {β : Type} {tight : Prop} {k u a r : Nat} {callee callee' : ExpCode} {args args' values values' : List ExpCode}
  {keys keys' : List (Option ExpCode)} {emits emits' : List (Nat → Int → LowerM Unit)}

def Fills (tight : Prop) (k : Nat) (emit emit' : Nat → Int → LowerM Unit) : Prop :=
  ∀ a n, k ≤ a → TracksAt k (a + 1) (emit a n) (emit' a n) fun _ => Leaks tight (a + 1)

structure ExpCode.Mirrors (tight : Prop) (k : Nat) (e e' : ExpCode) : Prop where
  exp : e'.exp = e.exp
  emit : Fills tight k e.emit e'.emit
  operands : List.Forall₂ (Fills tight k) e.operands e'.operands
  prepare? : Option.Rel (fun prepare prepare' => ∀ a, k ≤ a →
    TracksAt k (a + 1) (prepare a) (prepare' a) fun _ => Leaks tight (a + 1)) e.prepare? e'.prepare?
  method? : Option.Rel (fun load load' => ∀ a, k ≤ a →
    TracksAt k (a + 1) (load a) (load' a) fun _ v => Leaks tight (a + 2) v) e.method? e'.method?
  target : ∀ u, k ≤ u → TracksAt k u e.target e'.target fun _ v => u ≤ v
  register? : ∀ u, TracksAt k u e.register? e'.register? fun _ v => v = u
  place? : ∀ u, TracksAt k u e.place? e'.place? fun _ v => v = u

namespace ExpCode

variable {e e' : ExpCode} {es es' : List ExpCode} {w : Monitor}

namespace Mirrors

theorem isMulti (h : Mirrors tight k e e') : e'.isMulti = e.isMulti := by rw [ExpCode.isMulti, ExpCode.isMulti, h.exp]

theorem isNil (h : Mirrors tight k e e') : e'.isNil = e.isNil := by rw [ExpCode.isNil, ExpCode.isNil, h.exp]

theorem inNewRegister {emit emit' : Nat → Int → LowerM Unit} (h : Fills tight k emit emit') (room : k ≤ u) {n : Int}
    {f f' : Nat → LowerM β} {Q : β → Nat → Prop} (next : ∀ v, Leaks tight (u + 1) v → TracksAt k v (f u) (f' u) Q) :
    TracksAt k u (do let r ← Frame.alloc; emit r n; f r) (do let r ← Frame.alloc; emit' r n; f' r) Q := by
  refine TracksAt.alloc.bind ?_
  rintro r _ ⟨rfl, rfl⟩
  exact (h r n room).bind fun _ v leaks => next v leaks

variable (h : Mirrors tight k e e')

include h

theorem toNewRegister (room : k ≤ u) : TracksAt k u e.toNewRegister e'.toNewRegister fun _ v => Leaks tight (u + 1) v :=
  inNewRegister h.emit room fun _ leaks => .pure leaks

theorem toRegister (room : k ≤ u) : TracksAt k u e.toRegister e'.toRegister fun _ v => u ≤ v := by
  refine (h.register? u).bind ?_
  rintro r? _ rfl
  cases r? with
  | some r => exact .pure Nat.le.refl
  | none => exact (h.toNewRegister room).weaken fun _ _ leaks => Nat.le_of_succ_le leaks.le

theorem constantRk? : TracksAt k u e.constantRk? e'.constantRk? fun _ v => v = u := by
  unfold ExpCode.constantRk?
  rw [h.exp]
  split
  · exact .pure rfl
  · exact (TracksAt.lift .constantIndex).bind fun _ _ same => .pure same.symm

theorem toRk (room : k ≤ u) : TracksAt k u e.toRk e'.toRk fun _ v => u ≤ v := by
  refine h.constantRk?.bind ?_
  rintro rk? _ rfl
  cases rk? with
  | some rk => exact .pure Nat.le.refl
  | none => exact h.toRegister room

theorem toTable (room : k ≤ u) : TracksAt k u e.toTable e'.toTable fun _ v => u ≤ v := by
  refine (h.place? u).bind ?_
  rintro place? _ rfl
  cases place? with
  | some place => exact .pure Nat.le.refl
  | none => exact (h.toNewRegister room).bind fun _ v leaks => .pure (Nat.le_of_succ_le leaks.le)

end Mirrors

theorem mirrors_padNils (n : Nat) : TracksAt k u (padNils n) (padNils n) fun _ v => u ≤ v := by
  cases n with
  | zero => exact .pure (Nat.le_refl u)
  | succ n =>
    refine (TracksAt.lift .allocN).bind fun a v (same : v = _) => ?_
    exact TracksAt.emit.weaken fun _ _ same' => by omega

theorem mirrors_loadValues (h : List.Forall₂ (Mirrors tight k) es es') (room : k ≤ u) (want : Nat) :
    TracksAt k u (loadValues es want) (loadValues es' want) fun _ v => u ≤ v := by
  induction h generalizing u want with
  | nil => exact mirrors_padNils want
  | @cons e e' rest rest' head tail ih =>
    cases tail with
    | nil =>
      refine TracksAt.alloc.bind ?_
      rintro a _ ⟨rfl, rfl⟩
      rw [head.isMulti]
      split
      · refine (head.emit a want room).bind fun _ v leaks => ?_
        have above := leaks.le
        refine (TracksAt.lift .allocN).bind fun _ v' (same : v' = _) => ?_
        exact .pure (by omega)
      · refine (head.emit a 1 room).bind fun _ v leaks => ?_
        have above := leaks.le
        exact (mirrors_padNils (want - 1)).weaken fun _ _ => by omega
    | cons =>
      refine Mirrors.inNewRegister head.emit room fun v leaks => ?_
      have above := leaks.le
      exact (ih (by omega) (want - 1)).weaken fun _ _ => by omega

/-- The monitor lets a value pass that comes to its place, as it does if registers are a stack. -/
abbrev AllowsSlots (tight : Prop) (w : Monitor) : Prop := ∀ ⦃r a⦄ s, (tight → r = a) → w.slot r a s = .ok () s

theorem Mirrors.fillsSlot (allows : AllowsSlots tight w) (h : Mirrors tight k e e') (place : tight → r = a)
    (room : k ≤ a) (n : Int) :
    TracksAt k (a + 1) (e.emit a n) ((e'.inSlot w r).emit a n) fun _ => Leaks tight (a + 1) := by
  intro s stacked used
  obtain ⟨same, final⟩ := h.emit a n room stacked used
  refine ⟨?_, final⟩
  rw [show (e'.inSlot w r).emit a n s = e'.emit a n s from bind_run (allows s place)]
  exact same

theorem inSlots_exp (h : List.Forall₂ (Mirrors tight k) es es') (r : Nat) :
    List.Forall₂ (fun e e' => e'.exp = e.exp) es (inSlots w r es') := by
  induction h generalizing r with
  | nil => exact .nil
  | cons head _ ih => exact .cons head.exp (ih (r + 1))

theorem inSlots_drop (r : Nat) : (inSlots w r es).drop 1 = inSlots w (r + 1) (es.drop 1) := by
  cases es <;> rfl

theorem isMulti_of_exp (e e' : ExpCode) (same : e'.exp = e.exp) : e'.isMulti = e.isMulti := by
  rw [ExpCode.isMulti, ExpCode.isMulti, same]

theorem mirrors_loadOpen (allows : AllowsSlots tight w) (h : List.Forall₂ (Mirrors tight k) es es')
    (place : tight → r = u) (room : k ≤ u) :
    TracksAt k u (loadOpen es) (loadOpen (inSlots w r es')) fun _ v => Leaks tight (u + es.length) v := by
  induction h generalizing r u with
  | nil => exact .pure (.refl u)
  | @cons e e' rest rest' head tail ih =>
    cases tail with
    | nil =>
      refine TracksAt.alloc.bind ?_
      rintro a _ ⟨rfl, rfl⟩
      have same : (e'.inSlot w r).isMulti = e.isMulti := head.isMulti
      rw [same]
      exact head.fillsSlot allows place room _
    | cons =>
      refine TracksAt.alloc.bind ?_
      rintro a _ ⟨rfl, rfl⟩
      refine (head.fillsSlot allows place room 1).bind fun _ v leaks => ?_
      have above := leaks.le
      have place' : tight → r + 1 = v := fun holds => by rw [leaks.eq holds, place holds]
      refine (ih place' (by omega)).weaken fun _ _ leaks' => ?_
      rw [List.length_cons, Nat.add_comm _ 1, ← Nat.add_assoc]
      exact (leaks.add _).trans leaks'

theorem mirrors_prepareCall (allows : AllowsSlots tight w) (hc : Mirrors tight k callee callee')
    (ha : List.Forall₂ (Mirrors tight k) args args') (isMethod : Bool) (room : k ≤ a) :
    TracksAt k (a + 1) (prepareCall callee args isMethod a) (prepareCall callee' (inSlots w (a + 1) args') isMethod a)
      fun _ => Leaks tight (a + 1) := by
  have plainCall : TracksAt k (a + 1)
      (do callee.emit a 1; loadOpen args; Frame.freeN args.length; return countOf args)
      (do
        callee'.emit a 1
        loadOpen (inSlots w (a + 1) args')
        Frame.freeN (inSlots w (a + 1) args').length
        return countOf (inSlots w (a + 1) args')) fun _ => Leaks tight (a + 1) := by
    rw [countOf_of isMulti_of_exp (inSlots_exp ha _), ← (inSlots_exp ha _).length_eq]
    refine (hc.emit a 1 room).bind fun _ v leaks => ?_
    have above := leaks.le
    refine (mirrors_loadOpen allows ha (fun holds => (leaks.eq holds).symm) (by omega)).bind fun _ v' leaks' => ?_
    refine (TracksAt.lift .freeN).bind fun _ u (freed : v' = u + _) => .pure ?_
    subst freed
    exact leaks.trans leaks'.of_add
  cases isMethod with
  | false => exact plainCall
  | true =>
    have shapes := hc.method?
    unfold prepareCall
    revert shapes
    generalize callee.method? = load?, callee'.method? = load?'
    intro shapes
    cases shapes with
    | none => exact plainCall
    | some load =>
      have rest := List.forall₂_drop 1 ha
      simp only
      rw [inSlots_drop, isOpen_of isMulti_of_exp (inSlots_exp rest _), ← (inSlots_exp rest _).length_eq]
      refine (load a room).bind fun _ v leaks => ?_
      have above := leaks.le
      refine (mirrors_loadOpen allows rest (fun holds => (leaks.eq holds).symm) (by omega)).bind fun _ v' leaks' => ?_
      refine (TracksAt.lift .freeN).bind fun _ u (freed : v' = u + _) => ?_
      subst freed
      refine (TracksAt.lift .free).bind fun _ x (last : u = x + 1) => .pure ?_
      subst last
      exact (leaks.trans leaks'.of_add).of_add

theorem mirrors_emitCall (allows : AllowsSlots tight w) (hc : Mirrors tight k callee callee')
    (ha : List.Forall₂ (Mirrors tight k) args args') (isMethod : Bool) (room : k ≤ a) (n : Int) :
    TracksAt k (a + 1) (emitCall callee args isMethod a n) (emitCall callee' (inSlots w (a + 1) args') isMethod a n)
      fun _ => Leaks tight (a + 1) := by
  refine (mirrors_prepareCall allows hc ha isMethod room).bind fun _ v leaks => ?_
  exact TracksAt.emit.weaken fun _ _ same => same ▸ leaks

theorem mirrors_plain {exp : Exp} {emit emit' : Nat → Int → LowerM Unit} (h : Fills tight k emit emit') :
    Mirrors tight k (plain exp emit) (plain exp emit') where
  exp := rfl
  emit := h
  operands := .cons h .nil
  prepare? := .none
  method? := .none
  target _ _ := .get fun _ => .throw
  register? _ := .pure rfl
  place? _ := .pure rfl

theorem mirrors_nil : Mirrors tight k ofNil ofNil := mirrors_plain fun _ _ _ => .leaks .emit

theorem mirrors_bool (value : Bool) : Mirrors tight k (ofBool value) (ofBool value) :=
  mirrors_plain fun _ _ _ => .leaks .emit

theorem mirrors_constant (exp : Exp) (c : Constant) : Mirrors tight k (ofConstant exp c) (ofConstant exp c) :=
  mirrors_plain fun _ _ _ => .leaks ((TracksAt.lift .emitLoadK).bind fun _ _ same => .pure same.symm)

theorem mirrors_vararg : Mirrors tight k ofVararg ofVararg := by
  refine mirrors_plain fun a n _ => .get fun s => ?_
  simp only
  split
  · exact .leaks .emit
  · exact .throw

theorem mirrors_name (x : String) : Mirrors tight k (ofName x) (ofName x) :=
  { mirrors_plain fun _ _ _ => .leaks .emitName with
    target := fun _ _ => .nameTarget
    register? := fun _ => .get fun _ => .pure rfl
    place? := fun _ => .resolve }

theorem mirrors_call (allows : AllowsSlots tight w) (exp : Exp) (hc : Mirrors tight k callee callee')
    (ha : List.Forall₂ (Mirrors tight k) args args') (isMethod : Bool) :
    Mirrors tight k (ofCall exp callee args isMethod) (ofMonitoredCall w exp callee' args' isMethod) :=
  { mirrors_plain fun _ n room => mirrors_emitCall allows hc ha isMethod room n with
    prepare? := .some fun _ room => mirrors_prepareCall allows hc ha isMethod room }

theorem mirrors_index (exp : Exp) {object object' key key' : ExpCode} (ho : Mirrors tight k object object')
    (hk : Mirrors tight k key key') : Mirrors tight k (ofIndex exp object key) (ofIndex exp object' key') := by
  have read : Fills tight k (ofIndex exp object key).emit (ofIndex exp object' key').emit := by
    intro a n room
    refine .leaks ((TracksAt.scratch (P := fun _ v => a + 1 ≤ v) ?_).bind ?_)
    · refine (ho.toTable (Nat.le_succ_of_le room)).bind fun table v above => ?_
      exact (hk.toRk (by omega)).bind fun _ _ above' => .pure (by omega)
    · rintro r _ rfl
      exact .emitGetField
  refine { mirrors_plain read with method? := .some fun a room => ?_, target := fun u room => ?_ }
  · refine (ho.emit a 1 room).bind fun _ v leaks => ?_
    have above := leaks.le
    refine TracksAt.alloc.bind ?_
    rintro _ _ ⟨_, rfl⟩
    refine (TracksAt.scratch (hk.toRk (by omega))).bind ?_
    rintro _ _ rfl
    exact TracksAt.emit.weaken fun _ _ same => same ▸ leaks.add 1
  · refine (ho.toNewRegister room).bind fun table v leaks => ?_
    have above := leaks.le
    refine hk.constantRk?.bind ?_
    rintro rk? _ rfl
    cases rk? with
    | some rk => exact .pure (by omega)
    | none =>
      refine (hk.toNewRegister (by omega)).bind fun _ v' leaks' => .pure ?_
      have above' := leaks'.le
      omega

theorem fieldSlots_exp (h : List.Forall₂ (Mirrors tight k) es es') (a stored : Nat) :
    List.Forall₂ (fun e e' => e'.exp = e.exp) es (fieldSlots w a stored keys es') := by
  induction h generalizing keys stored with
  | nil =>
    cases keys with
    | nil => exact .nil
    | cons key keys => cases key <;> exact .nil
  | cons head tail ih =>
    cases keys with
    | nil => exact .cons head.exp (tail.imp fun _ _ mirrors => mirrors.exp)
    | cons key keys => cases key <;> exact .cons head.exp (ih _)

theorem mirrors_flushFields (a index : Nat) (toTop : Bool) :
    TracksAt k u (flushFields a index toTop) (flushFields a index toTop) fun _ v =>
      u = v + if index % batchSize = 0 then batchSize else index % batchSize := by
  refine (TracksAt.lift .freeN).bind fun _ v (same : u = v + _) => ?_
  refine (TracksAt.lift .emitSetList).bind ?_
  rintro _ _ rfl
  exact .pure same

theorem mirrors_emitFields (allows : AllowsSlots tight w) (room : k ≤ a) (positional : Nat) (openTail : Bool)
    (hk : List.Forall₂ (Option.Rel (Mirrors tight k)) keys keys') (hv : List.Forall₂ (Mirrors tight k) values values')
    (paired : tight → keys.length ≤ values.length) {stored : Nat} (rest : stored + keys.countP (·.isNone) = positional)
    (leaks : Leaks tight (a + 1 + waiting positional stored) u) :
    TracksAt k u (emitFields a positional openTail stored keys values)
      (emitFields a positional openTail stored keys' (fieldSlots w a stored keys' values'))
      fun _ => Leaks tight (a + 1) := by
  have above := leaks.le
  induction hk generalizing values values' stored u with
  | nil =>
    rw [List.countP_nil] at rest
    unfold emitFields
    rw [waiting, if_pos (by omega)] at leaks
    exact .pure leaks
  | @cons _ _ keys keys' key others ih =>
    cases hv with
    | nil =>
      obtain ⟨n, rfl, _⟩ := leaks
      have left : Leaks tight (a + 1) (a + 1 + waiting positional stored + n) :=
        ⟨waiting positional stored + n, Nat.add_assoc .., fun holds => absurd (paired holds) (Nat.not_succ_le_zero _)⟩
      cases key <;> exact .pure left
    | @cons v v' values values' value more =>
      have paired' := fun holds => Nat.le_of_succ_le_succ (paired holds)
      cases key with
      | some key =>
        have stays := ih more paired' (by simpa using rest) leaks above
        refine (TracksAt.scratch (P := fun _ v => u ≤ v) ?_).bind ?_
        · refine (key.toRk (by omega)).bind fun _ v above => ?_
          exact (value.toRk (by omega)).bind fun _ _ above' => .pure (by omega)
        · rintro r _ rfl
          refine (TracksAt.lift .emit).bind ?_
          rintro _ _ rfl
          exact stays
      | none =>
        rw [List.countP_cons_of_pos rfl] at rest
        have left : (stored + 1) + keys.countP (·.isNone) = positional := by omega
        have slot : waiting positional stored = stored % batchSize := if_neg (by omega)
        have last : (fieldSlots w a (stored + 1) keys' values').isEmpty = values.isEmpty :=
          isEmpty_of (fieldSlots_exp more a (stored + 1))
        rw [fieldSlots]
        unfold emitFields
        simp only [last]
        refine TracksAt.alloc.bind ?_
        rintro r _ ⟨rfl, rfl⟩
        have place : tight → a + 1 + stored % batchSize = r := fun holds => by rw [leaks.eq holds, slot]
        refine (value.fillsSlot allows place (by omega) _).bind fun _ v leaks' => ?_
        have taken : Leaks tight (a + 1 + waiting positional stored + 1) v := (leaks.add 1).trans leaks'
        split
        · rename_i ends
          refine (mirrors_flushFields a (stored + 1) _).bind fun _ x flushed => ?_
          have fewer : waiting positional stored + 1 = _ + waiting positional (stored + 1) :=
            waiting_flush (by omega) ends
          rw [flushed, Nat.add_assoc, fewer, Nat.add_comm _ (waiting _ _), ← Nat.add_assoc] at taken
          exact ih more paired' left taken.of_add taken.of_add.le
        · rename_i goes
          rw [Nat.add_assoc, ← waiting_succ (by omega) goes] at taken
          exact ih more paired' left taken taken.le

theorem mirrors_emitTable (allows : AllowsSlots tight w) (hk : List.Forall₂ (Option.Rel (Mirrors tight k)) keys keys')
    (hv : List.Forall₂ (Mirrors tight k) values values') (paired : tight → keys.length ≤ values.length) (room : k ≤ a) :
    TracksAt k (a + 1) (emitTable keys values a) (emitTable keys' (fieldSlots w a 0 keys' values') a)
      fun _ => Leaks tight (a + 1) := by
  have slots : List.Forall₂ (fun e e' => e'.exp = e.exp) values (fieldSlots w a 0 keys' values') := fieldSlots_exp hv a 0
  unfold emitTable
  simp only [countP_isNone_of hk, getLast_isNone_of hk, isOpen_of isMulti_of_exp slots, ← slots.length_eq]
  refine (TracksAt.lift .difference).bind ?_
  rintro _ _ rfl
  refine (TracksAt.lift .emit).bind ?_
  rintro _ _ rfl
  have none : waiting (keys.countP (·.isNone)) 0 = 0 := by simp [waiting]
  refine mirrors_emitFields allows room _ _ hk hv paired (Nat.zero_add _) ?_
  rw [none]
  exact .refl _

theorem mirrors_emitUnop (op : UnOp) {operand operand' : ExpCode} (h : Mirrors tight k operand operand')
    (room : k ≤ a) : TracksAt k (a + 1) (emitUnop op operand a) (emitUnop op operand' a) fun _ v => v = a + 1 := by
  refine (TracksAt.scratch (h.toRegister (Nat.le_succ_of_le room))).bind ?_
  rintro _ _ rfl
  cases op <;> exact .emit

theorem mirrors_loadOperands (h : List.Forall₂ (Fills tight k) emits emits') (room : k ≤ u) :
    TracksAt k u (loadOperands emits) (loadOperands emits') fun _ v => Leaks tight (u + emits.length) v := by
  induction h generalizing u with
  | nil => exact .pure (.refl u)
  | cons head _ ih =>
    refine Mirrors.inNewRegister head room fun v leaks => ?_
    have above := leaks.le
    refine (ih (by omega)).weaken fun _ _ leaks' => ?_
    rw [List.length_cons, Nat.add_comm _ 1, ← Nat.add_assoc]
    exact (leaks.add _).trans leaks'

theorem mirrors_emitConcat (h : List.Forall₂ (Fills tight k) emits emits') (room : k ≤ a) :
    TracksAt k (a + 1) (emitConcat emits a) (emitConcat emits' a) fun _ => Leaks tight (a + 1) := by
  unfold emitConcat
  rw [← h.length_eq]
  refine TracksAt.used.bind ?_
  rintro _ _ ⟨_, rfl⟩
  refine (mirrors_loadOperands h (Nat.le_succ_of_le room)).bind fun _ v leaks => ?_
  refine (TracksAt.lift .difference).bind ?_
  rintro _ _ rfl
  refine (TracksAt.lift .freeN).bind fun _ x (freed : v = x + _) => ?_
  subst freed
  exact TracksAt.emit.weaken fun _ _ same => same ▸ leaks.of_add

theorem mirrors_toRks {lhs lhs' rhs rhs' : ExpCode} (hl : Mirrors tight k lhs lhs') (hr : Mirrors tight k rhs rhs')
    (room : k ≤ u) : TracksAt k u (toRks lhs rhs) (toRks lhs' rhs') fun _ v => v = u := by
  refine TracksAt.scratch (P := fun _ v => u ≤ v) ((hl.toRk room).bind fun b v above => ?_)
  exact (hr.toRk (by omega)).bind fun _ _ above' => .pure (by omega)

variable {lhs lhs' rhs rhs' : ExpCode} (hl : Mirrors tight k lhs lhs') (hr : Mirrors tight k rhs rhs')

include hl hr

theorem mirrors_emitLogical (stopIf : Bool) (room : k ≤ a) :
    TracksAt k (a + 1) (emitLogical stopIf lhs rhs a) (emitLogical stopIf lhs' rhs' a) fun _ v => v = a + 1 := by
  refine (TracksAt.scratch (hl.toRegister (Nat.le_succ_of_le room))).bind ?_
  rintro _ _ rfl
  refine (TracksAt.lift .emit).bind ?_
  rintro _ _ rfl
  refine (TracksAt.lift .emitJmp).bind ?_
  rintro _ _ rfl
  refine (TracksAt.scratch (hr.toRegister (Nat.le_succ_of_le room))).bind ?_
  rintro _ _ rfl
  refine (TracksAt.lift .emit).bind ?_
  rintro _ _ rfl
  exact (TracksAt.lift .patchHere).weaken fun _ _ => Eq.symm

omit hl hr in
theorem mirrors_emitComparison (opcode : Opcode) (expect x y a : Nat) :
    TracksAt k u (emitComparison opcode expect x y a) (emitComparison opcode expect x y a) fun _ v => v = u := by
  refine (TracksAt.lift .emit).bind ?_
  rintro _ _ rfl
  refine (TracksAt.lift .emitJmp).bind ?_
  rintro _ _ rfl
  refine (TracksAt.lift .emit).bind ?_
  rintro _ _ rfl
  exact .emit

theorem mirrors_emitBinop (op : BinOp) (room : k ≤ a) :
    TracksAt k (a + 1) (emitBinop op lhs rhs a) (emitBinop op lhs' rhs' a) fun _ => Leaks tight (a + 1) := by
  have rks := mirrors_toRks hl hr (Nat.le_succ_of_le room)
  have loaded : ∀ {f : Nat × Nat → LowerM Unit},
      (∀ b c, TracksAt k (a + 1) (f (b, c)) (f (b, c)) fun _ v => v = a + 1) →
      TracksAt k (a + 1) (toRks lhs rhs >>= f) (toRks lhs' rhs' >>= f) fun _ => Leaks tight (a + 1) := by
    intro f next
    refine .leaks (rks.bind ?_)
    rintro ⟨b, c⟩ _ rfl
    exact next b c
  cases op with
  | and => exact .leaks (mirrors_emitLogical hl hr false room)
  | or => exact .leaks (mirrors_emitLogical hl hr true room)
  | concat => exact mirrors_emitConcat (List.rel_append hl.operands hr.operands) room
  | eq => exact loaded fun b c => mirrors_emitComparison .eq 1 b c a
  | notEq => exact loaded fun b c => mirrors_emitComparison .eq 0 b c a
  | lt => exact loaded fun b c => mirrors_emitComparison .lt 1 b c a
  | gt => exact loaded fun b c => mirrors_emitComparison .lt 1 c b a
  | ltEq => exact loaded fun b c => mirrors_emitComparison .le 1 b c a
  | gtEq => exact loaded fun b c => mirrors_emitComparison .le 1 c b a
  | _ => exact loaded fun b c => .emit

theorem mirrors_binop (exp : Exp) (op : BinOp) : Mirrors tight k (ofBinop exp op lhs rhs) (ofBinop exp op lhs' rhs') := by
  have emit : Fills tight k (fun a _ => emitBinop op lhs rhs a) (fun a _ => emitBinop op lhs' rhs' a) :=
    fun _ _ room => mirrors_emitBinop hl hr op room
  refine { mirrors_plain emit with operands := ?_ }
  simp only [ofBinop]
  split
  · exact List.rel_append hl.operands hr.operands
  · exact .cons emit .nil

omit hl hr

/-- The monitor lets an expression pass that fills the last register in use, above the variables. -/
structure Allows (tight : Prop) (w : Monitor) : Prop where
  slot : AllowsSlots tight w
  exp : ∀ ⦃e emit a n s⦄, s.Stacked a → s.frame.used = a + 1 →
    (∀ t, emit a n s = .ok () t → Retains s t ∧ Leaks tight (a + 1) t.frame.used) →
    SameResult (emit a n s) (w.exp e emit a n s)

theorem Mirrors.monitored (allows : Allows tight w) (h : Mirrors tight k e e')
    (single : e'.exp.isConcat = false → e.operands = [e.emit]) : Mirrors tight k e (e'.monitored w) := by
  have emit : Fills tight k e.emit (w.exp e'.exp e'.emit) := by
    intro a n room s stacked used
    have agrees := h.emit a n room stacked used
    refine ⟨agrees.same.trans (allows.exp (stacked.mono room) used fun t run => ?_), agrees.post⟩
    exact agrees.post () t (agrees.same.symm.ok run)
  refine { h with emit := emit, operands := ?_ }
  simp only [ExpCode.monitored]
  split
  · exact h.operands
  · rename_i plain
    rw [single (by simpa using plain)]
    exact .cons emit .nil

end ExpCode

end LuaBytecode
