import LuaBytecode.Proofs.Frame.Locals

namespace LuaBytecode

namespace Frame

variable {α β : Type}

structure Spares (f f' : Frame) : Prop where
  live : f'.live = f.live
  upvalues : f'.upvalues = f.upvalues
  depth : f'.depth = f.depth
  locals : f'.locals = f.locals
  slots : f'.slots = f.slots
  peak : f.peak ≤ f'.peak
  room : f.used ≤ f.peak → f'.used ≤ f'.peak
  pc : f.pc ≤ f'.pc

theorem Spares.refl (f : Frame) : f.Spares f := ⟨rfl, rfl, rfl, rfl, rfl, Nat.le.refl, id, Nat.le.refl⟩

theorem Spares.trans {f g h : Frame} (first : f.Spares g) (second : g.Spares h) : f.Spares h where
  live := second.live.trans first.live
  upvalues := second.upvalues.trans first.upvalues
  depth := second.depth.trans first.depth
  locals := second.locals.trans first.locals
  slots := second.slots.trans first.slots
  peak := Nat.le_trans first.peak second.peak
  room fits := second.room (first.room fits)
  pc := Nat.le_trans first.pc second.pc

theorem Spares.push (f : Frame) (i : Instruction) : f.Spares (f.push i) :=
  ⟨rfl, rfl, rfl, rfl, rfl, Nat.le.refl, id, by rw [push_pc]; exact Nat.le_succ _⟩

theorem Spares.replace (f : Frame) (pc : Nat) (i : Instruction) : f.Spares (f.replace pc i) :=
  ⟨rfl, rfl, rfl, rfl, rfl, Nat.le.refl, id, Nat.le_of_eq (replace_pc ..).symm⟩

theorem Spares.ofUsed {f : Frame} {used : Nat} (fewer : used ≤ f.used) : f.Spares (f.withUsed used) :=
  ⟨rfl, rfl, rfl, rfl, rfl, Nat.le.refl, Nat.le_trans fewer, Nat.le.refl⟩

def Plain (m : FrameM α) (change : Nat → Nat → Prop) : Prop :=
  ∀ ⦃f a f'⦄, m f = .ok a f' → f.Spares f' ∧ change f.used f'.used

namespace Plain

variable {P Q R : Nat → Nat → Prop} {a n pc : Nat} {m : FrameM α} {k : Constant}

theorem bind {k : α → FrameM β} (first : Plain m P) (next : ∀ a, Plain (k a) Q)
    (both : ∀ u v w, P u v → Q v w → R u w) : Plain (m >>= k) R := by
  intro f b f' run
  obtain ⟨a, g, left, right⟩ := bind_ok run
  obtain ⟨spares, change⟩ := first left
  obtain ⟨spares', change'⟩ := next a right
  exact ⟨spares.trans spares', both _ _ _ change change'⟩

theorem weaken (h : Plain m P) (weaker : ∀ u v, P u v → Q u v) : Plain m Q :=
  fun _ _ _ run => ⟨(h run).1, weaker _ _ (h run).2⟩

theorem pure {a : α} : Plain (pure a) Eq := by
  intro f b f' run
  obtain ⟨rfl, rfl⟩ := pure_ok run
  exact ⟨.refl _, rfl⟩

theorem get {k : Frame → FrameM β} (next : ∀ f, Plain (k f) P) : Plain (MonadState.get >>= k) P :=
  fun f _ _ run => next f run

theorem emit {e : Except OperandError Instruction} : Plain (Frame.emit e) Eq := by
  intro f pc f' run
  obtain ⟨i, _, _, rfl⟩ := emit_ok run
  exact ⟨.push f i, rfl⟩

theorem emitJmp {sbx : Int} : Plain (Frame.emitJmp a sbx) Eq := emit

theorem patchHere : Plain (Frame.patchHere pc) Eq := by
  intro f _ f' run
  obtain ⟨_, _, _, _, rfl⟩ := patchHere_ok run
  exact ⟨.replace .., rfl⟩

theorem patch {target : Nat} : Plain (Frame.patch pc target) Eq := by
  intro f _ f' run
  obtain ⟨_, _, _, _, rfl⟩ := amend_ok run
  exact ⟨.replace .., rfl⟩

theorem closeCaptured [NameOrder] : Plain Frame.closeCaptured Eq := by
  refine get fun f => ?_
  dsimp only
  split
  · exact emitJmp.bind (fun _ => pure) fun _ _ _ => Eq.trans
  · exact pure

theorem setLine {line : Nat} : Plain (Frame.setLine line) Eq := by
  intro f _ f' run
  cases run
  exact ⟨⟨rfl, rfl, rfl, rfl, rfl, Nat.le.refl, id, Nat.le.refl⟩, rfl⟩

theorem addBreak [NameOrder] : Plain (Frame.addBreak pc) Eq := by
  intro f _ f' run
  obtain ⟨_, _, _, _, _, rfl⟩ := addBreak_ok run
  have breaks : ∀ g : Frame, g.Spares (g.withBreak pc) := fun _ =>
    ⟨rfl, rfl, withBreak_depth _ _, rfl, rfl, Nat.le.refl, id, Nat.le.refl⟩
  exact ⟨(Spares.replace ..).trans (breaks _), rfl⟩

theorem difference {b : Nat} : Plain (Frame.difference a b) Eq := by
  intro f n f' run
  obtain ⟨_, _, rfl⟩ := difference_ok run
  exact ⟨.refl _, rfl⟩

theorem alloc : Plain Frame.alloc fun u v => v = u + 1 := by
  intro f r f' run
  obtain ⟨_, _, rfl⟩ := alloc_ok run
  exact ⟨⟨rfl, rfl, rfl, rfl, rfl, Nat.le_max_left .., fun _ => Nat.le_max_right .., Nat.le.refl⟩, rfl⟩

theorem allocAll : Plain (Frame.allocAll n) fun u v => v = u + n := by
  induction n with
  | zero => exact pure.weaken fun _ _ => Eq.symm
  | succ n ih => exact alloc.bind (fun _ => ih) fun _ _ _ => by omega

theorem allocN : Plain (Frame.allocN n) fun u v => v = u + n :=
  get fun _ => allocAll.bind (fun _ => pure) fun _ _ _ => by omega

theorem free : Plain Frame.free fun u v => u = v + 1 := by
  intro f _ f' run
  obtain ⟨used, same⟩ := free_ok run
  rw [same]
  exact ⟨.ofUsed (by omega), used⟩

theorem freeN : Plain (Frame.freeN n) fun u v => u = v + n := by
  intro f _ f' run
  obtain ⟨used, same⟩ := freeN_ok run
  rw [same]
  exact ⟨.ofUsed (by omega), used⟩

theorem constantIndex : Plain (Frame.constantIndex k) Eq := by
  intro f i f' run
  obtain ⟨_, _, same⟩ := constantIndex_ok run
  rw [same]
  exact ⟨⟨rfl, rfl, rfl, rfl, rfl, Nat.le.refl, id, Nat.le.refl⟩, rfl⟩

theorem emitLoadK : Plain (Frame.emitLoadK a k) Eq := by
  refine constantIndex.bind (Q := Eq) (fun index => ?_) fun _ _ _ => Eq.trans
  split
  · exact emit
  · exact emit.bind (Q := Eq) (fun _ => emit.bind (fun _ => pure) fun _ _ _ => Eq.trans) fun _ _ _ => Eq.trans

theorem emitSetList {batch : Nat} : Plain (Frame.emitSetList a n batch) Eq := by
  unfold Frame.emitSetList
  split
  · exact emit
  · exact emit.bind (Q := Eq) (fun _ => emit.bind (fun _ => pure) fun _ _ _ => Eq.trans) fun _ _ _ => Eq.trans

end Plain

end Frame

end LuaBytecode
