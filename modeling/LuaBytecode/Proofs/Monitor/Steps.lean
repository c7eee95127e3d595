import LuaBytecode.Proofs.Frame.Spares
import LuaBytecode.Proofs.Regular.Functions

namespace LuaBytecode

open Lowering

variable {α β : Type} {k u : Nat}

namespace Lowering

/-- Variables are in registers below `k`, and names can be looked up in the functions around. -/
structure Stacked (k : Nat) (s : Lowering) : Prop where
  layered : Layered s.frame.depth s.frame.locals.size k s.frame.live
  chain : Chain s.frame s.enclosing
  nested : s.enclosing ≠ []

/-- What lowering an expression does to names: variables stay where they are, and upvalues may come. -/
structure Retains (s t : Lowering) : Prop where
  live : RemainAll s.frame.live t.frame.live
  upvalues : s.frame.upvalues.toList <+: t.frame.upvalues.toList
  depth : t.frame.depth = s.frame.depth
  locals : t.frame.locals = s.frame.locals
  slots : t.frame.slots = s.frame.slots
  peak : s.frame.peak ≤ t.frame.peak
  room : s.frame.used ≤ s.frame.peak → t.frame.used ≤ t.frame.peak
  pc : s.frame.pc ≤ t.frame.pc
  chain : Chain t.frame t.enclosing
  around : List.Forall₂ Frame.Touched s.enclosing t.enclosing

end Lowering

theorem Lowering.Stacked.mono {s : Lowering} {k' : Nat} (h : s.Stacked k) (above : k ≤ k') : s.Stacked k' :=
  { h with layered := h.layered.mono Nat.le.refl Nat.le.refl above }

theorem Lowering.Stacked.records {s : Lowering} (h : s.Stacked k) :
    s.frame.HasRecords ∧ ∀ f ∈ s.enclosing, f.HasRecords :=
  ⟨fun b member => (h.layered.inside b member).2.1, h.chain.records⟩

namespace Lowering.Retains

variable {s t v : Lowering}

theorem refl (chain : Chain s.frame s.enclosing) : Retains s s :=
  ⟨.refl _, List.prefix_rfl, rfl, rfl, rfl, Nat.le.refl, id, Nat.le.refl, chain, touched_refl _⟩

theorem trans (first : Retains s t) (second : Retains t v) : Retains s v where
  live := first.live.trans second.live
  upvalues := first.upvalues.trans second.upvalues
  depth := second.depth.trans first.depth
  locals := second.locals.trans first.locals
  slots := second.slots.trans first.slots
  peak := Nat.le_trans first.peak second.peak
  room fits := second.room (first.room fits)
  pc := Nat.le_trans first.pc second.pc
  chain := second.chain
  around := touched_trans first.around second.around

theorem ofFrame (chain : Chain s.frame s.enclosing) {f : Frame} (h : s.frame.Spares f) : Retains s ⟨f, s.enclosing⟩ where
  live := by
    rw [h.live]
    exact .refl _
  upvalues := ⟨[], by rw [List.append_nil, h.upvalues]⟩
  depth := h.depth
  locals := h.locals
  slots := h.slots
  peak := h.peak
  room := h.room
  pc := h.pc
  chain := chain.marked (by rw [h.live]; exact .refl _) h.upvalues
  around := touched_refl _

theorem stacked (h : Retains s t) (stacked : s.Stacked k) : t.Stacked k where
  layered := by
    rw [h.depth, h.locals]
    exact stacked.layered.marked h.live
  chain := h.chain
  nested none := by
    have around := h.around
    rw [none] at around
    exact stacked.nested (List.forall₂_nil_right_iff.mp around)

end Lowering.Retains

/-- Registers may stay in use that were taken. If registers are a stack, none does. -/
def Leaks (tight : Prop) (u v : Nat) : Prop := ∃ n, v = u + n ∧ (tight → n = 0)

namespace Leaks

variable {tight : Prop} {v w : Nat}

theorem refl (u : Nat) : Leaks tight u u := ⟨0, rfl, fun _ => rfl⟩

theorem of_eq (same : v = u) : Leaks tight u v := ⟨0, same, fun _ => rfl⟩

theorem le (h : Leaks tight u v) : u ≤ v := by
  obtain ⟨n, rfl, _⟩ := h
  exact Nat.le_add_right u n

theorem eq (h : Leaks tight u v) (holds : tight) : v = u := by
  obtain ⟨n, rfl, none⟩ := h
  rw [none holds, Nat.add_zero]

theorem trans (first : Leaks tight u v) (second : Leaks tight v w) : Leaks tight u w := by
  obtain ⟨n, rfl, none⟩ := first
  obtain ⟨m, rfl, none'⟩ := second
  exact ⟨n + m, Nat.add_assoc .., fun holds => by rw [none holds, none' holds]⟩

theorem add (h : Leaks tight u v) (n : Nat) : Leaks tight (u + n) (v + n) := by
  obtain ⟨m, rfl, none⟩ := h
  exact ⟨m, Nat.add_right_comm .., none⟩

theorem of_add {n : Nat} (h : Leaks tight (u + n) (v + n)) : Leaks tight u v := by
  obtain ⟨m, same, none⟩ := h
  exact ⟨m, by omega, none⟩

end Leaks

/-- `m'` comes to the same as `m` from any state with the variables below `k` and `u` registers in use, and names are
    retained. -/
def TracksAt (k u : Nat) (m m' : LowerM α) (post : α → Nat → Prop) : Prop :=
  ∀ ⦃s⦄, s.Stacked k → s.frame.used = u → Agrees m m' s fun a t => Retains s t ∧ post a t.frame.used

namespace TracksAt

variable {m m' : LowerM α} {P Q : α → Nat → Prop}

theorem bind {f f' : α → LowerM β} {R : β → Nat → Prop} (first : TracksAt k u m m' P)
    (next : ∀ a v, P a v → TracksAt k v (f a) (f' a) R) : TracksAt k u (m >>= f) (m' >>= f') R := by
  intro s stacked used
  refine .bind ((first stacked used).weaken ?_)
  rintro a t ⟨retains, holds⟩
  refine (next a _ holds (retains.stacked stacked) rfl).weaken ?_
  rintro b v ⟨retains', final⟩
  exact ⟨retains.trans retains', final⟩

theorem pure {a : α} (h : P a u) : TracksAt k u (Pure.pure a) (Pure.pure a) P :=
  fun _ stacked used => .pure ⟨.refl stacked.chain, used.symm ▸ h⟩

theorem weaken (h : TracksAt k u m m' P) (weaker : ∀ a v, P a v → Q a v) : TracksAt k u m m' Q :=
  fun _ stacked used => (h stacked used).weaken fun a _ ⟨retains, holds⟩ => ⟨retains, weaker a _ holds⟩

theorem leaks {tight : Prop} (h : TracksAt k u m m' fun _ v => v = u) : TracksAt k u m m' fun _ v => Leaks tight u v :=
  h.weaken fun _ _ same => .of_eq same

theorem throw {e : CodeError} : TracksAt k u (MonadExcept.throw e : LowerM α) (MonadExcept.throw e) P := by
  refine fun s _ _ => .self fun a t run => ?_
  cases run

theorem get {f f' : Lowering → LowerM β} {R : β → Nat → Prop} (h : ∀ s, TracksAt k u (f s) (f' s) R) :
    TracksAt k u (MonadState.get >>= f) (MonadState.get >>= f') R :=
  fun s stacked used => .bind (.get (h s stacked used))

theorem lift {m : FrameM α} {change : Nat → Nat → Prop} (h : Frame.Plain m change) :
    TracksAt k u (liftM m) (liftM m) fun _ v => change u v := by
  rintro s stacked rfl
  refine .lift fun a f run => ?_
  obtain ⟨spares, holds⟩ := h run
  exact ⟨.ofFrame stacked.chain spares, holds⟩

theorem emit {e : Except OperandError Instruction} :
    TracksAt k u (do let _ ← Frame.emit e) (do let _ ← Frame.emit e) fun _ v => v = u :=
  (lift .emit).bind fun _ _ same => pure same.symm

theorem alloc : TracksAt k u (liftM Frame.alloc) (liftM Frame.alloc) fun r v => r = u ∧ v = u + 1 := by
  rintro s stacked rfl
  refine .lift fun r f run => ?_
  obtain ⟨spares, used⟩ := Frame.Plain.alloc run
  exact ⟨.ofFrame stacked.chain spares, (Frame.alloc_ok run).1, used⟩

theorem used : TracksAt k u Lowering.used Lowering.used fun n v => n = u ∧ v = u := by
  rintro s stacked rfl
  refine .self fun n t run => ?_
  obtain ⟨rfl, rfl⟩ := used_ok run
  exact ⟨.refl stacked.chain, rfl, rfl⟩

theorem scratch (h : TracksAt k u m m' P) :
    TracksAt k u (Lowering.scratch m) (Lowering.scratch m') fun _ v => v = u := by
  rintro s stacked rfl
  refine .bind (.self fun top t read => ?_)
  obtain ⟨rfl, rfl⟩ := used_ok read
  refine .bind ((h stacked rfl).weaken ?_)
  rintro a t ⟨retains, _⟩
  refine .bind (.lift fun _ f run => ?_)
  cases run
  exact .pure ⟨{ retains with
    room := fun fits => Nat.le_trans fits retains.peak
    chain := retains.chain.marked (.refl _) rfl },
    rfl⟩

section Names

variable {x : String}

theorem upvalue? : TracksAt k u (Lowering.upvalue? x) (Lowering.upvalue? x) fun _ v => v = u := by
  rintro s stacked rfl
  refine .self fun i? t run => ?_
  obtain ⟨chain, same, more, around, _⟩ := (findUpvalue_gives x s.enclosing s.frame stacked.chain).ok run
  have live : RemainAll s.frame.live t.frame.live := by
    rw [same]
    exact .refl _
  have kept : t.frame.used = s.frame.used ∧ t.frame.peak = s.frame.peak ∧ t.frame.pc = s.frame.pc := by
    rw [same]
    exact ⟨rfl, rfl, rfl⟩
  obtain ⟨used, peak, pc⟩ := kept
  refine ⟨⟨live, more, by rw [same]; rfl, by rw [same], by rw [same], Nat.le_of_eq peak.symm, fun fits => ?_,
    Nat.le_of_eq pc.symm, chain, around⟩, used⟩
  rwa [used, peak]

theorem resolve : TracksAt k u (Lowering.resolve x) (Lowering.resolve x) fun _ v => v = u := by
  refine .get fun s => ?_
  split
  · exact .pure rfl
  · exact upvalue?.bind fun _ _ same => .pure same

theorem resolveEnvironment :
    TracksAt k u Lowering.resolveEnvironment Lowering.resolveEnvironment fun _ v => v = u :=
  resolve.bind fun _ _ same => .pure same

theorem nameKey : TracksAt k u (Lowering.nameKey x) (Lowering.nameKey x) fun _ v => u ≤ v := by
  refine (lift .constantIndex).bind ?_
  rintro index _ rfl
  split
  · exact .pure (Nat.le_refl u)
  · refine alloc.bind ?_
    rintro r _ ⟨rfl, rfl⟩
    refine (lift .emitLoadK).bind ?_
    rintro _ _ rfl
    exact .pure (Nat.le_succ r)

theorem emitGetField {a key : Nat} {table : Place} :
    TracksAt k u (Lowering.emitGetField a table key) (Lowering.emitGetField a table key) fun _ v => v = u := by
  cases table <;> exact emit

theorem emitStore {v : Nat} {target : Target} :
    TracksAt k u (Lowering.emitStore v target) (Lowering.emitStore v target) fun _ w => w = u := by
  rcases target with (_ | _) | ⟨_ | _, _⟩ <;> exact emit

theorem emitName {a : Nat} : TracksAt k u (Lowering.emitName x a) (Lowering.emitName x a) fun _ v => v = u := by
  refine resolve.bind ?_
  rintro place? _ rfl
  split
  · exact emit
  · exact emit
  · refine scratch (P := fun _ _ => True) (nameKey.bind fun key _ _ => resolveEnvironment.bind fun _ _ _ => ?_)
    exact emitGetField.weaken fun _ _ _ => trivial

theorem nameTarget : TracksAt k u (Lowering.nameTarget x) (Lowering.nameTarget x) fun _ v => u ≤ v := by
  refine resolve.bind ?_
  rintro place? _ rfl
  cases place? with
  | some place => exact .pure Nat.le.refl
  | none =>
    refine nameKey.bind fun key v above => resolveEnvironment.bind ?_
    rintro _ _ rfl
    exact .pure above

end Names

end TracksAt

end LuaBytecode
