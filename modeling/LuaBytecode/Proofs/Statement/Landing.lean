import LuaBytecode.Proofs.Statement.Values

namespace LuaBytecode

open Lowering

variable {p : Program} {exit lo hi : Nat} {hanging : Nat → Nat → Prop} {f g : Frame}

namespace Program.Serves

theorem settled (h : p.Serves exit hanging lo f) (elsewhere : ∀ pc target, hanging pc target → pc < lo ∨ f.pc ≤ pc) :
    p.Serves exit Program.settled lo f where
  code pc least most calm _ := by
    refine h.code pc least most calm fun target hangs => ?_
    have := elsewhere pc target hangs
    omega
  breaks := h.breaks
  lands _ _ hangs := hangs.elim
  constants := h.constants

theorem first (h : p.Serves exit hanging lo g) (code : f.code.toList <+: g.code.toList)
    (constants : f.constants.entries.toList <+: g.constants.entries.toList) (inside : hi ≤ f.pc)
    (calm : ∀ pc ∈ loopBreaks g.scopes, lo ≤ pc → hi ≤ pc) (still : ∀ pc target, hanging pc target → lo ≤ pc → hi ≤ pc) :
    p.Includes f lo hi where
  code pc least most := by
    have longer : f.pc ≤ g.pc := by simpa [Frame.pc] using code.length_le
    rw [h.code pc least (by omega) (fun member => ?_) fun target hangs => ?_]
    · exact getElem?_of_prefixed code (Nat.lt_of_lt_of_le most inside)
    · have := calm pc member least
      omega
    · have := still pc target hangs least
      omega
  constants := constants.trans h.constants

theorem rehung {hanging' : Nat → Nat → Prop} (h : p.Serves exit hanging lo f)
    (same : ∀ pc target, hanging pc target ↔ hanging' pc target) : p.Serves exit hanging' lo f :=
  h.earlier List.prefix_rfl List.prefix_rfl (.refl _) (fun pc target hangs _ => (same pc target).mp hangs)
    fun pc target hangs => (same pc target).mpr hangs

theorem before {i : Instruction} (h : p.Serves exit hanging lo (f.push i)) : p.Serves exit hanging lo f :=
  h.earlier (by simp) List.prefix_rfl (.refl _) (fun _ _ hangs _ => hangs) fun _ _ hangs => hangs

theorem unpatched {pc target : Nat} {j : Instruction} (h : p.Serves exit hanging lo (f.replace pc j))
    (jump : j.opcode? = some .jmp) (offset : j.sbx = Frame.jumpOffset pc target) (inside : pc < f.pc)
    (calm : pc ∉ loopBreaks f.scopes) (once : ∀ target', hanging pc target' → target' = target) :
    p.Serves exit (fun q target' => hanging q target' ∨ q = pc ∧ target' = target) lo f where
  code q least most quiet still := by
    have other : pc ≠ q := fun same => still target (.inr ⟨same.symm, rfl⟩)
    rw [h.code q least (by rwa [Frame.replace_pc]) quiet fun target' hangs => still target' (.inl hangs)]
    exact Frame.replace_other other
  breaks := h.breaks
  lands q target' := by
    rintro (hangs | ⟨rfl, rfl⟩) least
    · exact h.lands q target' hangs least
    · by_cases hangs : ∃ target'', hanging q target''
      · obtain ⟨target'', hangs⟩ := hangs
        exact once target'' hangs ▸ h.lands q target'' hangs least
      · refine ⟨j, ?_, jump, offset⟩
        rw [h.code q least (by rwa [Frame.replace_pc]) calm fun target'' hangs' => hangs ⟨target'', hangs'⟩]
        exact Frame.replace_self inside
  constants := h.constants

section Exit

variable {size : Nat} {rest : List (Option (Array Nat))} {v : Unit} (stack : Stack f.depth size f.live) (sound : f.Sound)
  (run : Frame.exitScope f = .ok v g)

include stack sound run

theorem ofBlock (h : p.Serves exit hanging lo g) (opened : f.scopes = none :: rest) : p.Serves exit hanging lo f := by
  have none : f.breaks = [] := by rw [Frame.breaks, opened]; rfl
  obtain ⟨same, _, pc, untouched, _⟩ :=
    Frame.exitScope_ok (by rw [opened]; exact List.cons_ne_nil _ _) stack sound.jumps_of_breaks run
  have code : ∀ q : Nat, g.code[q]? = f.code[q]? := fun q => untouched q (by rw [none]; exact List.not_mem_nil)
  have breaks : loopBreaks g.scopes = loopBreaks f.scopes := by rw [same, Frame.outside, opened]; rfl
  refine ⟨fun q least most calm still => ?_, fun q member => ?_, h.lands, ?_⟩
  · rw [h.code q least (by rwa [pc]) (by rwa [breaks]) still, code]
  · exact h.breaks q (by rwa [breaks])
  · have constants : g.constants = f.constants := by rw [same]
    exact constants ▸ h.constants

theorem ofLoop {pcs : Array Nat} (h : p.Serves exit hanging lo g) (opened : f.scopes = some pcs :: rest)
    (early : ∀ pc ∈ loopBreaks rest, pc < lo) (apart : ∀ pc target, hanging pc target → pc ∉ pcs) :
    p.Serves g.pc hanging lo f := by
  have some : f.breaks = pcs.toList := by rw [Frame.breaks, opened]; rfl
  obtain ⟨same, _, pc, untouched, moved⟩ :=
    Frame.exitScope_ok (by rw [opened]; exact List.cons_ne_nil _ _) stack sound.jumps_of_breaks run
  have outer : g.scopes = rest := by rw [same, Frame.outside, opened]; rfl
  have inner : loopBreaks f.scopes = pcs.toList := by rw [opened]; rfl
  have calm : ∀ q, lo ≤ q → q ∉ loopBreaks g.scopes := fun q least member => by
    have := early q (outer ▸ member)
    omega
  refine ⟨fun q least most quiet still => ?_, fun q member least => ?_, h.lands, ?_⟩
  · rw [h.code q least (by rwa [pc]) (calm q least) still, untouched q (by rwa [some, ← inner])]
  · rw [inner] at member
    obtain ⟨i, there, _⟩ := sound.jumps_of_breaks q (by rwa [some])
    obtain ⟨j, landed, jump, _, offset⟩ := moved q (by rwa [some]) i there
    refine ⟨j, ?_, jump, by rw [pc]; exact offset⟩
    have inside : q < g.pc := lt_of_getElem? landed
    have still : ∀ target, ¬hanging q target := fun target hangs => apart q target hangs (Array.mem_toList_iff.mp member)
    rw [h.code q least inside (calm q least) still, landed]
  · have constants : g.constants = f.constants := by rw [same]
    exact constants ▸ h.constants

end Exit

end Program.Serves

section Jumps

variable {V : Type} (ops : Operators V) (P : Ending V → Machine V → Prop) {s t : Lowering} {v : Unit}

theorem closeCaptured_scopes (run : (Frame.closeCaptured : LowerM Unit) s = .ok v t) :
    t.frame.scopes = s.frame.scopes := by
  rcases closeCaptured_lower run with ⟨_, rfl⟩ | ⟨i, _, rfl, _⟩ <;> rfl

theorem exitScope_scopes {Γ : Scopes} (sound : Sound Γ s) (run : (Frame.exitScope : LowerM Unit) s = .ok v t) :
    t.frame.scopes = s.frame.scopes.tail ∧ t.frame.pc = s.frame.pc := by
  obtain ⟨f, exits, rfl⟩ := lift_ok run
  obtain ⟨same, _, pc, _⟩ :=
    Frame.exitScope_ok sound.ready.opened sound.ready.stack sound.frame.jumps_of_breaks exits
  exact ⟨by rw [same], pc⟩

theorem closeCaptured_passes (sound : s.frame.Sound) (run : (Frame.closeCaptured : LowerM Unit) s = .ok v t)
    (serves : p.Serves exit hanging lo t.frame) (least : lo ≤ s.frame.pc) (calm : ∀ target, ¬hanging s.frame.pc target) :
    p.Serves exit hanging lo s.frame ∧ ∀ R, p.Passes ops P ⟨s.frame.pc, R⟩ [] ⟨t.frame.pc, R⟩ := by
  rcases closeCaptured_lower run with ⟨_, rfl⟩ | ⟨i, _, rfl, jump, _, offset⟩
  · exact ⟨serves, fun R => .refl _⟩
  · refine ⟨serves.before, fun R => ?_⟩
    rw [push_frame, Frame.push_pc]
    refine .ofJump ⟨i, serves.pushed least sound calm, jump, ?_⟩
    rw [offset, Frame.jumpOffset]
    omega

theorem scopeFoot_passes {Γ : Scopes} {rest : List (Option (Array Nat))} (sound : Sound Γ s)
    (opened : s.frame.scopes = none :: rest) (run : scopeFoot s = .ok v t) : t.frame.scopes = rest ∧
      ∀ {p : Program} {exit lo : Nat} {hanging : Nat → Nat → Prop}, p.Serves exit hanging lo t.frame → lo ≤ s.frame.pc →
        (∀ target, ¬hanging s.frame.pc target) →
        p.Serves exit hanging lo s.frame ∧ ∀ R, p.Passes ops P ⟨s.frame.pc, R⟩ [] ⟨t.frame.pc, R⟩ := by
  obtain ⟨s₁, close, exits⟩ := scopeFoot_lower run
  have closed := ((Advances.refl (D := fun _ => True) sound).closed close).1
  have scopes : s₁.frame.scopes = none :: rest := (closeCaptured_scopes close).trans opened
  obtain ⟨left, pc⟩ := exitScope_scopes closed.sound exits
  obtain ⟨f, leaves, rfl⟩ := lift_ok exits
  refine ⟨by rw [left, scopes, List.tail_cons], fun serves least calm => ?_⟩
  have inside := serves.ofBlock closed.sound.ready.stack closed.sound.frame leaves scopes
  obtain ⟨before, passes⟩ := closeCaptured_passes ops P sound.frame close inside least calm
  exact ⟨before, fun R => pc ▸ passes R⟩

end Jumps

end LuaBytecode
