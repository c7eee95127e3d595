import LuaBytecode.Proofs.Logic.Steps
import LuaBytecode.Proofs.Lowering.Evaluation

namespace LuaBytecode

open Lowering

theorem Frame.Gains.ofTouched {f g : Frame} (h : f.Touched g) : f.Gains g := by
  have constants : g.constants = f.constants := by rw [h.same]
  have code : g.code = f.code := by rw [h.same]
  have functions : g.functions = f.functions := by rw [h.same]
  exact ⟨⟨constants ▸ List.prefix_rfl, h.upvalues, functions ▸ List.prefix_rfl⟩, by rw [h.same], h.live,
    code ▸ List.prefix_rfl⟩

structure Lowering.Gains (s t : Lowering) : Prop where
  frame : s.frame.Gains t.frame
  around : List.Forall₂ Frame.Touched s.enclosing t.enclosing

namespace Lowering.Gains

variable {s t u : Lowering}

theorem refl (s : Lowering) : Gains s s := ⟨.refl _, touched_refl _⟩

theorem trans (first : Gains s t) (second : Gains t u) : Gains s u :=
  ⟨first.frame.trans second.frame, touched_trans first.around second.around⟩

theorem ofFrame {f : Frame} (h : s.frame.Gains f) : Gains s ⟨f, s.enclosing⟩ := ⟨h, touched_refl _⟩

end Lowering.Gains

/-- If the steps succeed, they add to the frame as an expression does. The condition sees the registers in use before
    and after them. -/
def Adding {α : Type} (m : LowerM α) (change : Nat → α → Nat → Prop) : Prop :=
  ∀ s a t, m s = .ok a t → s.Gains t ∧ change s.frame.used a t.frame.used

abbrev Balanced {α : Type} : Nat → α → Nat → Prop := fun u _ v => v = u

namespace Adding

variable {α β : Type} {m : LowerM α} {change change' : Nat → α → Nat → Prop} {k : α → LowerM β}
  {final : Nat → β → Nat → Prop}

theorem pure {a : α} (h : ∀ u, change u a u) : Adding (pure a) change := by
  intro s b t run
  obtain ⟨rfl, rfl⟩ := pure_ok run
  exact ⟨.refl _, h _⟩

theorem weaken (h : Adding m change) (weaker : ∀ u a v, change u a v → change' u a v) : Adding m change' := by
  intro s a t run
  obtain ⟨adds, change⟩ := h s a t run
  exact ⟨adds, weaker _ _ _ change⟩

theorem always {counted : Prop} (h : Adding m change) : Adding m fun u a v => counted → change u a v :=
  h.weaken fun _ _ _ given _ => given

theorem now (h : Adding m fun u a v => True → change u a v) : Adding m change := h.weaken fun _ _ _ given => given trivial

theorem bind (h : Adding m change) (rest : ∀ a, Adding (k a) fun v b w => ∀ u, change u a v → final u b w) :
    Adding (m >>= k) final := by
  intro s b u run
  obtain ⟨a, t, first, run⟩ := bind_ok run
  obtain ⟨adds, change⟩ := h s a t first
  obtain ⟨more, final⟩ := rest a t b u run
  exact ⟨adds.trans more, final _ change⟩

theorem andThen (h : Adding m Balanced) (rest : ∀ a, Adding (k a) final) : Adding (m >>= k) final :=
  h.bind fun a => (rest a).weaken fun _ _ _ final _ same => same ▸ final

theorem throw {e : β → CodeError} {k : LowerM β} : Adding (k >>= fun b => throw (e b)) change := by
  intro s a t run
  obtain ⟨_, _, _, run⟩ := bind_ok run
  cases run

theorem get : Adding (MonadState.get : LowerM Lowering) Balanced := by
  intro s a t run
  cases run
  exact ⟨.refl _, rfl⟩

theorem used : Adding Lowering.used fun u a v => a = u ∧ v = u := by
  intro s a t run
  obtain ⟨rfl, rfl⟩ := used_ok run
  exact ⟨.refl _, rfl, rfl⟩

theorem lift {m : FrameM α} (h : ∀ f a g, m f = .ok a g → f.Gains g ∧ change f.used a g.used) :
    Adding (liftM m : LowerM α) change := by
  intro s a t run
  obtain ⟨g, inner, rfl⟩ := lift_ok run
  obtain ⟨adds, change⟩ := h _ _ _ inner
  exact ⟨.ofFrame adds, change⟩

theorem modest {m : FrameM α} {P : Nat → Nat → Prop} (h : Frame.Modest m P) :
    Adding (liftM m : LowerM α) fun u _ v => P u v :=
  lift fun f _ _ run => by
    obtain ⟨_, continued, change⟩ := (h f).of_ok run
    exact ⟨.ofContinued continued, change⟩

theorem alloc : Adding (Frame.alloc : LowerM Nat) fun u a v => a = u ∧ v = u + 1 :=
  lift fun f a g run => by
    obtain ⟨rfl, _, rfl⟩ := Frame.alloc_ok run
    exact ⟨.ofUsed, rfl, rfl⟩

theorem setUsed (n : Nat) : Adding (Frame.setUsed n : LowerM Unit) fun _ _ v => v = n :=
  lift fun f a g run => by
    obtain rfl := Frame.setUsed_ok run
    exact ⟨.ofUsed, rfl⟩

theorem addFunction (p : Prototype) : Adding (Frame.addFunction p : LowerM Nat) Balanced :=
  lift fun f _ g run => by
    obtain ⟨_, rfl⟩ := Frame.addFunction_ok run
    exact ⟨.ofFunction p, rfl⟩

theorem emit (i : Except OperandError Instruction) : Adding (Frame.emit i : LowerM Nat) Balanced :=
  lift fun f _ g run => by
    obtain ⟨i, _, _, rfl⟩ := Frame.emit_ok run
    exact ⟨.ofPush i, rfl⟩

theorem emitted (i : Except OperandError Instruction) :
    Adding (liftM (Frame.emit i) >>= fun _ : Nat => (Pure.pure () : LowerM Unit)) Balanced :=
  (emit i).andThen fun _ => pure fun _ => rfl

theorem scratch (h : Adding m fun _ _ _ => True) : Adding (scratch m) Balanced := by
  refine used.bind fun top => h.bind fun a => (setUsed top).bind fun _ => pure fun u => ?_
  rintro _ rfl _ _ _ ⟨rfl, rfl⟩
  rfl

end Adding

theorem findUpvalue_touches {name : String} {outer : List Frame} {f : Frame} {i? : Option Nat} {t : Lowering}
    (run : findUpvalue name outer f = .ok i? t) :
    f.Touched t.frame ∧ t.frame.live = f.live ∧ List.Forall₂ Frame.Touched outer t.enclosing := by
  induction outer generalizing f i? t with
  | nil =>
    rw [findUpvalue] at run
    cases run
    exact ⟨.refl f, rfl, .nil⟩
  | cons parent outer ih =>
    rw [findUpvalue] at run
    split at run
    · cases run
      exact ⟨.refl f, rfl, touched_refl _⟩
    · rename_i fresh
      split at run
      · obtain ⟨i, added, _⟩ := map_ok run
        obtain ⟨g, add, rfl⟩ := lift_ok added
        obtain ⟨_, rfl⟩ := Frame.addUpvalue_ok fresh add
        exact ⟨⟨rfl, .refl _, by simp⟩, rfl, .cons ⟨rfl, .ofMarkCaptured name parent.live, List.prefix_rfl⟩ (touched_refl _)⟩
      · split at run
        · rename_i found
          obtain ⟨touched, _, around⟩ := ih found
          obtain ⟨_, added, _⟩ := map_ok run
          obtain ⟨g, add, rfl⟩ := lift_ok added
          obtain ⟨_, rfl⟩ := Frame.addUpvalue_ok fresh add
          exact ⟨⟨rfl, .refl _, by simp⟩, rfl, .cons touched around⟩
        · rename_i absent
          cases run
          obtain ⟨touched, _, around⟩ := ih absent
          exact ⟨.refl f, rfl, .cons touched around⟩
        · cases run

namespace Adding

theorem upvalue? (name : String) : Adding (Lowering.upvalue? name) Balanced := by
  intro s i? t run
  obtain ⟨touched, _, around⟩ := findUpvalue_touches run
  refine ⟨⟨.ofTouched touched, around⟩, ?_⟩
  rw [touched.same]

theorem resolve (name : String) : Adding (Lowering.resolve name) Balanced := by
  refine get.andThen fun s => ?_
  split
  · exact pure fun _ => rfl
  · exact (upvalue? name).andThen fun _ => pure fun _ => rfl

end Adding

end LuaBytecode
