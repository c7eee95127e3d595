import LuaBytecode.Proofs.Closing.Accounted

namespace LuaBytecode

open Lowering

namespace Frame

variable {i : Instruction}

theorem exitScope_jump {g h : Frame} (sound : g.Sound) (stack : Stack g.depth g.locals.size g.live)
    (opened : g.scopes ≠ []) {u : Unit} (exit : exitScope g = .ok u h) {pc : Nat} (there : g.code[pc]? = some i)
    (jump : i.opcode? = some .jmp) : ∃ k, h.code[pc]? = some k ∧ k.opcode? = some .jmp := by
  obtain ⟨_, _, _, untouched, landed⟩ := exitScope_ok opened stack sound.jumps_of_breaks exit
  by_cases lands : pc ∈ g.breaks
  · obtain ⟨k, there', jump', _⟩ := landed pc lands i there
    exact ⟨k, there', jump'⟩
  · exact ⟨i, (untouched pc lands).trans there, jump⟩

namespace Accounted

variable {D : FunctionDef → Prop} {Γ Γ' : Scopes} {X : Exit → Prop} {lo : Nat} {s t u : Lowering} {v : Unit}

theorem steadily (a : Accounted X lo s.frame) (sound : Lowering.Sound Γ s) (h : Steady D Γ' s t) :
    Accounted X lo t.frame :=
  (a.reached sound.frame h.frame (steady sound h)).congr fun _ => iff_of_eq (or_false _)

theorem pushed (a : Accounted X lo s.frame) (sound : Lowering.Sound Γ s) (plain : i.opcode? ≠ some .closure)
    (zero : i.opcode? = some .jmp → i.a = 0) : Accounted X lo (s.push i).frame :=
  a.steadily sound ((Steady.refl (D := fun _ => True) sound).pushed plain zero)

variable (a : Accounted X lo t.frame)

include a

theorem closed (sound : Lowering.Sound Γ t) (run : (closeCaptured : LowerM Unit) t = .ok v u) :
    Accounted (fun e => X e ∨ e = .ofScope t.frame) lo u.frame := by
  have here : t.frame.Reaches (fun _ => True) t.frame := .refl _
  rcases closeCaptured_lower run with ⟨nothing, rfl⟩ | ⟨i, _, rfl, jump, level, _⟩
  · exact a.reached sound.frame here (passes sound.frame sound.ready.stack nothing)
  · exact a.reached sound.frame (here.pushed i) (leaves sound.frame sound.ready.stack jump level)

theorem exited (sound : Lowering.Sound Γ t) (run : (exitScope : LowerM Unit) t = .ok v u) :
    Accounted X lo u.frame := by
  obtain ⟨f, exit, rfl⟩ := lift_ok run
  exact a.left sound.frame sound.ready.stack sound.ready.opened exit

theorem patchedHere {pc : Nat} (there : t.frame.code[pc]? = some i) (jump : i.opcode? = some .jmp)
    (run : (patchHere pc : LowerM Unit) t = .ok v u) : Accounted X lo u.frame := by
  obtain ⟨j, rfl, kind, same, _⟩ := patchHere_lower there jump run
  exact a.replaced there (by simp [jump]) (kind.trans jump.symm) same

theorem patchedHeres {pcs : List Nat} (advances : Advances D Γ s t) (jumps : ∀ pc ∈ pcs, JumpAt s t pc)
    (run : pcs.forM (fun pc => (patchHere pc : LowerM Unit)) t = .ok v u) : Accounted X lo u.frame := by
  induction pcs generalizing t with
  | nil =>
    obtain ⟨_, rfl⟩ := pure_ok run
    exact a
  | cons pc rest ih =>
    obtain ⟨_, t', first, run⟩ := bind_ok run
    obtain ⟨_, i, there, jump⟩ := jumps pc (.head _)
    obtain ⟨advances', kept⟩ := patchHere_advances advances (jumps pc (.head _)) first
    exact ih (a.patchedHere there jump first) advances' (fun q member => kept q (jumps q (.tail _ member))) run

theorem scopeFoot (sound : Lowering.Sound Γ t) (run : scopeFoot t = .ok v u) :
    Accounted (fun e => X e ∨ e = .ofScope t.frame) lo u.frame := by
  obtain ⟨t₁, close, exit⟩ := scopeFoot_lower run
  obtain ⟨closes, _⟩ := (Advances.refl (D := fun _ => True) sound).closed close
  exact (a.closed sound close).exited closes.sound exit

theorem whileFoot (sound : Lowering.Sound Γ t) {start leave : Nat} (there : t.frame.code[leave]? = some i)
    (jump : i.opcode? = some .jmp) (run : whileFoot start leave t = .ok v u) :
    Accounted (fun e => X e ∨ e = .ofScope t.frame) lo u.frame := by
  obtain ⟨t₁, t₂, j, close, hop, zero, _, exit, patch⟩ := whileFoot_lower run
  obtain ⟨closes, _⟩ := (Advances.refl (D := fun _ => True) sound).closed close
  have pushes := closes.pushed (i := j) (by simp [hop])
  have exited := ((a.closed sound close).pushed closes.sound (i := j) (by simp [hop]) fun _ => zero).exited pushes.sound exit
  obtain ⟨f, exits, rfl⟩ := lift_ok exit
  obtain ⟨k, there', jump'⟩ := exitScope_jump pushes.sound.frame pushes.sound.ready.stack pushes.sound.ready.opened exits
    (pushes.code_at there) jump
  exact exited.patchedHere there' jump' patch

theorem repeatFoot (sound : Lowering.Sound Γ t) {start : Nat} (run : repeatFoot start t = .ok v u) :
    Accounted (fun e => X e ∨ e = .ofScope t.frame ∨ ∃ pc w,
      emitJmp t.frame.scopeLevel (jumpOffset t.frame.pc start) t.frame = .ok pc w ∧ e = .ofScope w) lo u.frame := by
  obtain ⟨j, hop, level, _, emit, run⟩ := repeatFoot_lower run
  have here : t.frame.Reaches (fun _ => True) t.frame := .refl _
  have back := a.reached sound.frame (here.pushed j) (leaves sound.frame sound.ready.stack hop level)
  have pushes := (Advances.refl (D := fun _ => True) sound).pushed (i := j) (by simp [hop])
  refine (Accounted.scopeFoot (t := t.push j) back pushes.sound run).congr fun e => ?_
  constructor
  · rintro ((old | again) | onwards)
    · exact .inl old
    · exact .inr (.inl again)
    · exact .inr (.inr ⟨_, _, emit, onwards⟩)
  · rintro (old | again | ⟨pc, w, emit', onwards⟩)
    · exact .inl (.inl old)
    · exact .inl (.inr again)
    · cases emit.symm.trans emit'
      exact .inr onwards

theorem numericFoot (body : Advances D Γ s t) {base prep : Nat} (above : s.frame.pc ≤ prep)
    (there : t.frame.code[prep]? = some i) (hop : i.opcode? = some .forPrep) (run : numericFoot base prep t = .ok v u) :
    Accounted (fun e => X e ∨ e = .ofScope t.frame) lo u.frame := by
  obtain ⟨t₁, j, k, close, hopj, same, hopk, exit⟩ := numericFoot_lower there hop run
  obtain ⟨closes, _⟩ := body.closed close
  have there₁ := closeCaptured_code there close
  have patches := closes.replaced above there₁ (j := j) (by simp [hop]) (hopj.trans hop.symm)
  have patched : Accounted _ lo (t₁.replace prep j).frame :=
    (a.closed body.sound close).replaced there₁ (by simp [hop]) (hopj.trans hop.symm) same
  exact (patched.pushed patches.sound (i := k) (by simp [hopk]) (by simp [hopk])).exited
    (patches.pushed (by simp [hopk])).sound exit

theorem genericFoot (body : Advances D Γ s t) {names : List String} {base toCall : Nat} (jump : JumpAt s t toCall)
    (run : genericFoot names base toCall t = .ok v u) : Accounted (fun e => X e ∨ e = .ofScope t.frame) lo u.frame := by
  obtain ⟨above, i, there, hop⟩ := jump
  obtain ⟨t₁, j, k, l, close, hopj, same, hopk, _, _, hopl, exit⟩ := genericFoot_lower there hop run
  obtain ⟨closes, _⟩ := body.closed close
  have there₁ := closeCaptured_code there close
  have patches := closes.replaced above there₁ (j := j) (by simp [hop]) (hopj.trans hop.symm)
  have calls := patches.pushed (i := k) (by simp [hopk])
  have patched : Accounted _ lo (t₁.replace toCall j).frame :=
    (a.closed body.sound close).replaced there₁ (by simp [hop]) (hopj.trans hop.symm) same
  have called := patched.pushed patches.sound (i := k) (by simp [hopk]) (by simp [hopk])
  exact (called.pushed calls.sound (i := l) (by simp [hopl]) (by simp [hopl])).exited
    (calls.pushed (by simp [hopl])).sound exit

theorem armHead (before : Advances D Γ s t) {skip? skip?' : Option Nat} {guard : ExpCode}
    (follows : guard.Follows D Γ guard) (skips : ∀ pc ∈ skip?, JumpAt s t pc)
    (run : armHead skip? guard t = .ok skip?' u) : Accounted X lo u.frame := by
  obtain ⟨t₀, t₁, patch, test, rfl⟩ := armHead_lower run
  have patched : Accounted X lo t₀.frame ∧ Advances D Γ s t₀ := by
    cases skip? with
    | none =>
      obtain ⟨_, rfl⟩ := pure_ok patch
      exact ⟨a, before⟩
    | some pc =>
      obtain ⟨_, i, there, jump⟩ := skips pc rfl
      exact ⟨a.patchedHere there jump patch, (patchHere_advances before (skips pc rfl) patch).1⟩
  apply Accounted.entered
  rcases test with ⟨_, _, rfl⟩ | ⟨_, leave, guarded, _⟩
  · exact patched.1
  · exact patched.1.steadily patched.2.sound (emitGuard_tracks follows patched.2.sound _ _ guarded).2.1

end Accounted

end Frame

end LuaBytecode
