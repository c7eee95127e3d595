import LuaBytecode.Proofs.Machine.Emission

namespace LuaBytecode

structure Lowering.Appends (s s' : Lowering) : Prop where
  frame : s.frame.Appends s'.frame
  enclosing : s'.enclosing = s.enclosing

namespace Lowering.Appends

variable {s t u : Lowering}

theorem refl (s : Lowering) : Appends s s := ⟨.refl _, rfl⟩

theorem trans (first : Appends s t) (second : Appends t u) : Appends s u :=
  ⟨first.frame.trans second.frame, second.enclosing.trans first.enclosing⟩

theorem push (h : Appends s t) (i : Instruction) : Appends s (t.push i) :=
  ⟨h.frame.trans (.ofPush i), h.enclosing⟩

theorem withUsed (h : Appends s t) (used : Nat) : Appends s (t.withUsed used) :=
  ⟨h.frame.withUsed used, h.enclosing⟩

end Lowering.Appends

variable {V : Type} (ops : Operators V) (vars : String → V)

/-- What was emitted between two frames runs to its end, in any program that has it. It starts with the local variables
    in their registers and keeps the registers below `kept`. -/
def Frame.Executes (f f' : Frame) (kept : Nat) (post : Array Constant → (Nat → V) → Prop) : Prop :=
  (∀ b ∈ f.live, b.register < 256) → ∀ p : Program, p.Includes f' f.pc f'.pc → ∀ registers, f.Holds vars registers →
    ∃ registers', p.Runs ops f.pc f'.pc ⟨f.pc, registers⟩ ⟨f'.pc, registers'⟩ ∧ post p.constants registers' ∧
      ∀ r < kept, registers' r = registers r

namespace Frame.Executes

variable {ops vars} {f g h : Frame} {kept kept' : Nat} {mid post post' : Array Constant → (Nat → V) → Prop}

theorem nothing (same : g.pc = f.pc)
    (holds : ∀ p : Program, p.Includes g f.pc f.pc → ∀ registers, f.Holds vars registers → post p.constants registers) :
    f.Executes ops vars g kept post := by
  intro _ p includes registers held
  rw [same] at includes ⊢
  exact ⟨registers, .refl _, holds p includes registers held, fun r _ => rfl⟩

theorem ofSmall (run : (∀ b ∈ f.live, b.register < 256) → f.Executes ops vars g kept post) :
    f.Executes ops vars g kept post :=
  fun small => run small small

theorem withUsed (run : f.Executes ops vars g kept post) (used : Nat) :
    f.Executes ops vars (g.withUsed used) kept post :=
  fun small p includes => run small p ⟨includes.code, includes.constants⟩

theorem holds_of_kept {registers registers' : Nat → V} (appends : f.Appends g) (held : f.Holds vars registers)
    (locals : ∀ b ∈ f.live, b.register < kept) (same : ∀ r < kept, registers' r = registers r) :
    g.Holds vars registers' := by
  intro x r found
  rw [appends.register? x] at found
  rw [← held x r found]
  obtain ⟨b, first, rfl⟩ := Option.map_eq_some_iff.mp found
  exact same _ (locals b (List.mem_of_find?_eq_some first))

theorem andThen (first : f.Executes ops vars g kept mid) (second : g.Executes ops vars h kept' post)
    (before : f.Appends g) (after : g.Appends h) (locals : ∀ b ∈ f.live, b.register < kept) (more : kept ≤ kept')
    (both : ∀ constants registers registers', mid constants registers → (∀ r < kept', registers' r = registers r) →
      post constants registers' → post' constants registers') : f.Executes ops vars h kept post' := by
  intro small p includes registers held
  have middle := before.pc_le
  have last := after.pc_le
  obtain ⟨registers₁, run₁, mid₁, same₁⟩ :=
    first small p ((includes.narrow Nat.le.refl last).earlier after Nat.le.refl) registers held
  obtain ⟨registers₂, run₂, post₂, same₂⟩ :=
    second (by rwa [before.live]) p (includes.narrow middle Nat.le.refl) registers₁
      (holds_of_kept before held locals same₁)
  refine ⟨registers₂, ?_, both _ _ _ mid₁ same₂ post₂, fun r below => ?_⟩
  · exact (run₁.mono Nat.le.refl last).trans (run₂.mono middle Nat.le.refl)
  · rw [same₂ r (Nat.lt_of_lt_of_le below more), same₁ r below]

theorem push {i : Instruction} (first : f.Executes ops vars g kept mid) (before : f.Appends g) (fewer : kept' ≤ kept)
    (step : ∀ p : Program, p.Includes g f.pc g.pc → p.code[g.pc]? = some i → ∀ registers, mid p.constants registers →
      ∃ registers', p.step ops ⟨g.pc, registers⟩ = some ⟨g.pc + 1, registers'⟩ ∧ post p.constants registers' ∧
        ∀ r < kept', registers' r = registers r) :
    f.Executes ops vars (g.push i) kept' post := by
  intro small p includes registers held
  have middle := before.pc_le
  rw [Frame.push_pc] at includes ⊢
  have inner : p.Includes g f.pc g.pc :=
    (includes.narrow Nat.le.refl (Nat.le_succ _)).earlier (.ofPush i) Nat.le.refl
  obtain ⟨registers₁, run₁, mid₁, same₁⟩ := first small p inner registers held
  obtain ⟨registers₂, one, post₂, same₂⟩ :=
    step p inner (includes.pushed rfl middle (Nat.lt_succ_self _)) registers₁ mid₁
  refine ⟨registers₂, ?_, post₂, fun r below => ?_⟩
  · exact (run₁.mono Nat.le.refl (Nat.le_succ _)).trans (.one middle (Nat.lt_succ_self _) one)
  · rw [same₂ r below, same₁ r (Nat.lt_of_lt_of_le below fewer)]

end Frame.Executes

end LuaBytecode
