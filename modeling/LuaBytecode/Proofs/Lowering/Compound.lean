import LuaBytecode.Proofs.Frame.Scope

namespace LuaBytecode

open Lowering ExpCode

/-! Each statement that opens a scope is a head, the body and a foot. -/

namespace Lowering

def scopeFoot : LowerM Unit := do
  Frame.closeCaptured
  Frame.exitScope

def whileHead (guard : ExpCode) : LowerM (Nat × Nat) := do
  let start ← pc
  let leave ← emitGuard guard
  Frame.enterScope true
  return (start, leave)

def whileFoot (start leave : Nat) : LowerM Unit := do
  Frame.closeCaptured
  let back ← pc
  let _ ← Frame.emitJmp 0 (Frame.jumpOffset back start)
  Frame.exitScope
  Frame.patchHere leave

def repeatHead : LowerM Nat := do
  Frame.enterScope true
  pc

def repeatTest (guard : ExpCode) : LowerM Unit := do
  let a ← scratch guard.toRegister
  let _ ← Frame.emitAbc .test a 0 0

def repeatFoot (start : Nat) : LowerM Unit := do
  let level := (← get).frame.scopeLevel
  let back ← pc
  let _ ← Frame.emitJmp level (Frame.jumpOffset back start)
  Frame.closeCaptured
  Frame.exitScope

def armHead (skip? : Option Nat) (guard : ExpCode) : LowerM (Option Nat) := do
  skip?.forM (Frame.patchHere ·)
  let skip? ← if isTrue guard.exp then pure none else some <$> emitGuard guard
  Frame.enterScope false
  return skip?

def numericHead (var : String) (init limit : ExpCode) (step? : Option ExpCode) : LowerM (Nat × Nat) := do
  let step := step?.getD (ofConstant (.integer 1) (.integer 1))
  Frame.enterScope true
  emitLocals ["(for index)", "(for limit)", "(for step)"] [init, limit, step]
  let _ ← Frame.addLocal var ((← pc) + 1)
  let a ← Frame.difference (← used) 4
  let prep ← Frame.emitAsbx .forPrep a 0
  return (a, prep)

def numericFoot (a prep : Nat) : LowerM Unit := do
  Frame.closeCaptured
  let loop ← Frame.emitAsbx .forLoop a 0
  Frame.patch prep loop
  Frame.patch loop (prep + 1)
  Frame.exitScope

def genericHead (names : List String) (values : List ExpCode) : LowerM (Nat × Nat) := do
  Frame.enterScope true
  emitLocals ["(for generator)", "(for state)", "(for control)"] values
  declare names ((← pc) + 1)
  let a ← Frame.difference (← used) (3 + names.length)
  let toCall ← Frame.emitJmp 0 0
  return (a, toCall)

def genericFoot (names : List String) (a toCall : Nat) : LowerM Unit := do
  Frame.closeCaptured
  Frame.patchHere toCall
  let _ ← Frame.emitAbc .tforCall a 0 names.length
  let loop ← Frame.emitAsbx .tforLoop (a + 2) 0
  Frame.patch loop (toCall + 1)
  Frame.exitScope

variable (body : LowerM Unit) (guard : ExpCode)

theorem inScope_eq : inScope body = (do Frame.enterScope false; body; scopeFoot) := rfl

theorem emitWhile_eq : emitWhile guard body = (do
    let (start, leave) ← whileHead guard
    body
    whileFoot start leave) := by
  simp only [emitWhile, whileHead, whileFoot, bind_assoc, pure_bind]

theorem emitRepeat_eq : emitRepeat body guard = (do
    let start ← repeatHead
    body
    repeatTest guard
    repeatFoot start) := by
  simp only [emitRepeat, repeatHead, repeatTest, repeatFoot, bind_assoc, pure_bind]

theorem emitNumericFor_eq (var : String) (init limit : ExpCode) (step? : Option ExpCode) :
    emitNumericFor var init limit step? body = (do
      let (a, prep) ← numericHead var init limit step?
      body
      numericFoot a prep) := by
  simp only [emitNumericFor, numericHead, numericFoot, bind_assoc, pure_bind]

theorem emitGenericFor_eq (names : List String) (values : List ExpCode) :
    emitGenericFor names values body = (do
      let (a, toCall) ← genericHead names values
      body
      genericFoot names a toCall) := by
  simp only [emitGenericFor, genericHead, genericFoot, bind_assoc, pure_bind]

theorem emitArms_eq (guards : List ExpCode) (bodies : List (LowerM Unit)) (skip? : Option Nat) (ends : Array Nat) :
    emitArms (guard :: guards) (body :: bodies) skip? ends = (do
      let skip? ← armHead skip? guard
      body
      scopeFoot
      if guards.isEmpty then return skip?.elim ends ends.push
      else
        let leave ← Frame.emitJmp 0 0
        emitArms guards bodies skip? (ends.push leave)) := by
  simp only [emitArms, armHead, scopeFoot, inScope, bind_assoc]
  cases isTrue guard.exp <;> simp only [if_true, if_false, Bool.false_eq_true, bind_assoc, pure_bind]

variable {s s' : Lowering} {i : Instruction} {leave start a : Nat}

theorem enterScope_lower {isLoop : Bool} {u : Unit} (run : (Frame.enterScope isLoop : LowerM Unit) s = .ok u s') :
    s' = s.enter isLoop := by
  obtain ⟨f, enter, rfl⟩ := lift_ok run
  rw [Frame.enterScope_ok enter]
  rfl

theorem closeCaptured_lower {u : Unit} (run : (Frame.closeCaptured : LowerM Unit) s = .ok u s') :
    s.frame.scopeLevel = 0 ∧ s' = s ∨
      ∃ i, 0 < s.frame.scopeLevel ∧ s' = s.push i ∧ i.opcode? = some .jmp ∧ i.a = s.frame.scopeLevel ∧ i.sbx = 0 := by
  obtain ⟨f, close, rfl⟩ := lift_ok run
  replace close := bind_get_ok close
  split at close
  · rename_i some
    obtain ⟨pc, emit, rfl⟩ := bind_pure_ok close
    obtain ⟨i, built, rfl, rfl⟩ := Frame.emitAsbx_ok emit
    obtain ⟨hop, ha, hsbx, _⟩ := Instruction.asbx_ok built
    exact .inr ⟨i, some, rfl, hop, ha, hsbx⟩
  · rename_i none
    obtain ⟨_, rfl⟩ := pure_ok close
    exact .inl ⟨by omega, rfl⟩

theorem emitGuard_lower {guard : ExpCode} (run : emitGuard guard s = .ok leave s') :
    ∃ a t i j, scratch guard.toRegister s = .ok a t ∧ i.opcode? = some .test ∧ i.a = a ∧ i.c = 0 ∧
      j.opcode? = some .jmp ∧ j.a = 0 ∧ leave = t.frame.pc + 1 ∧ s' = (t.push i).push j := by
  obtain ⟨a, t, load, run⟩ := bind_ok run
  obtain ⟨_, _, test, jump⟩ := bind_ok run
  obtain ⟨i, rfl, _, hop, ha, _, hc, _⟩ := emitAbc_lower test
  obtain ⟨j, rfl, rfl, hop', ha', _⟩ := emitJmp_lower jump
  exact ⟨a, t, i, j, load, hop, ha, hc, hop', ha', by simp, rfl⟩

theorem emitBreak_lower {u : Unit} (run : emitBreak s = .ok u s') :
    0 < s.frame.loopDepth ∧ ∃ i, i.opcode? = some .jmp ∧ i.a = s.frame.closeLevel s.frame.loopDepth ∧
      s' = ⟨(s.frame.push i).withBreak s.frame.pc, s.enclosing⟩ := by
  obtain ⟨_, _, emit, run⟩ := bind_ok run
  obtain ⟨i, rfl, rfl, hop, _⟩ := emitJmp_lower emit
  obtain ⟨f, add, rfl⟩ := lift_ok run
  obtain ⟨inLoop, i', j, there, changed, rfl⟩ := Frame.addBreak_ok add
  cases Frame.push_last.symm.trans there
  obtain ⟨hop', ha, _⟩ := Instruction.setA_ok hop changed
  refine ⟨inLoop, j, hop', ha, ?_⟩
  rw [push_frame, Frame.push_replace]
  rfl

theorem armHead_lower {guard : ExpCode} {skip? skip?' : Option Nat} (run : armHead skip? guard s = .ok skip?' s') :
    ∃ s₀ s₁, skip?.forM (fun pc => (Frame.patchHere pc : LowerM Unit)) s = .ok () s₀ ∧
      (isTrue guard.exp = true ∧ skip?' = none ∧ s₁ = s₀ ∨
        isTrue guard.exp = false ∧ ∃ leave, emitGuard guard s₀ = .ok leave s₁ ∧ skip?' = some leave) ∧
      s' = s₁.enter false := by
  obtain ⟨_, s₀, patch, run⟩ := bind_ok run
  simp only at run
  split at run
  · rename_i always
    rw [pure_bind] at run
    obtain ⟨_, enter, rfl⟩ := bind_pure_ok run
    exact ⟨s₀, s₀, patch, .inl ⟨always, rfl, rfl⟩, enterScope_lower enter⟩
  · rename_i sometimes
    obtain ⟨_, s₁, test, run⟩ := bind_ok run
    obtain ⟨leave, emit, rfl⟩ := map_ok test
    obtain ⟨_, enter, rfl⟩ := bind_pure_ok run
    exact ⟨s₀, s₁, patch, .inr ⟨by simpa using sometimes, leave, emit, rfl⟩, enterScope_lower enter⟩

variable {u : Lowering} {v : Unit}

theorem scopeFoot_lower (run : scopeFoot s = .ok v u) :
    ∃ s₁, (Frame.closeCaptured : LowerM Unit) s = .ok () s₁ ∧ (Frame.exitScope : LowerM Unit) s₁ = .ok () u := by
  obtain ⟨_, s₁, close, exit⟩ := bind_ok run
  exact ⟨s₁, close, exit⟩

theorem whileFoot_lower (run : whileFoot start leave s = .ok v u) :
    ∃ s₁ s₂ j, (Frame.closeCaptured : LowerM Unit) s = .ok () s₁ ∧ j.opcode? = some .jmp ∧ j.a = 0 ∧
      j.sbx = Frame.jumpOffset s₁.frame.pc start ∧ (Frame.exitScope : LowerM Unit) (s₁.push j) = .ok () s₂ ∧
      (Frame.patchHere leave : LowerM Unit) s₂ = .ok () u := by
  obtain ⟨_, s₁, close, run⟩ := bind_ok run
  replace run := bind_pc_ok run
  obtain ⟨_, _, back, run⟩ := bind_ok run
  obtain ⟨j, rfl, _, hop, ha, hsbx⟩ := emitJmp_lower back
  obtain ⟨_, s₂, exit, patch⟩ := bind_ok run
  exact ⟨s₁, s₂, j, close, hop, ha, hsbx, exit, patch⟩

theorem repeatFoot_lower (run : repeatFoot start s = .ok v u) :
    ∃ j, j.opcode? = some .jmp ∧ j.a = s.frame.scopeLevel ∧ j.sbx = Frame.jumpOffset s.frame.pc start ∧
      Frame.emitJmp s.frame.scopeLevel (Frame.jumpOffset s.frame.pc start) s.frame = .ok s.frame.pc (s.frame.push j) ∧
      scopeFoot (s.push j) = .ok () u := by
  replace run := bind_get_ok run
  replace run := bind_pc_ok run
  obtain ⟨_, f, emit, run⟩ := bind_lift_ok run
  obtain ⟨j, built, rfl, rfl⟩ := Frame.emitAsbx_ok emit
  obtain ⟨hop, ha, hsbx, _⟩ := Instruction.asbx_ok built
  exact ⟨j, hop, ha, hsbx, emit, run⟩

theorem closeCaptured_code {pc : Nat} (there : s.frame.code[pc]? = some i)
    (run : (Frame.closeCaptured : LowerM Unit) s = .ok v u) : u.frame.code[pc]? = some i := by
  rcases closeCaptured_lower run with ⟨_, rfl⟩ | ⟨j, _, rfl, _⟩
  · exact there
  · exact (Frame.push_earlier (lt_of_getElem? there)).trans there

theorem numericFoot_lower {prep : Nat} (there : s.frame.code[prep]? = some i) (hop : i.opcode? = some .forPrep)
    (run : numericFoot a prep s = .ok v u) :
    ∃ s₁ j k, (Frame.closeCaptured : LowerM Unit) s = .ok () s₁ ∧ j.opcode? = some .forPrep ∧ j.a = i.a ∧
      k.opcode? = some .forLoop ∧ (Frame.exitScope : LowerM Unit) ((s₁.replace prep j).push k) = .ok () u := by
  obtain ⟨_, s₁, close, run⟩ := bind_ok run
  obtain ⟨_, _, emit, run⟩ := bind_ok run
  obtain ⟨l, rfl, rfl, hopl, _⟩ := emitAsbx_lower emit
  have there₁ := closeCaptured_code there close
  have inside : prep < s₁.frame.pc := lt_of_getElem? there₁
  obtain ⟨_, _, patch, run⟩ := bind_ok run
  obtain ⟨j, rfl, hopj, same, _⟩ := patch_lower ((Frame.push_earlier inside).trans there₁) hop patch
  obtain ⟨_, _, patch', exit⟩ := bind_ok run
  obtain ⟨k, rfl, hopk, _⟩ :=
    patch_lower ((Frame.replace_other (Nat.ne_of_lt inside)).trans Frame.push_last) hopl patch'
  refine ⟨s₁, j, k, close, hopj, same, hopk, ?_⟩
  have swapped : ((s₁.push l).replace prep j).replace s₁.frame.pc k = (s₁.replace prep j).push k := by
    have last := Frame.push_replace (f := s₁.frame.replace prep j) (i := l) (j := k)
    rw [Frame.replace_pc] at last
    simp only [push, replace, Frame.push_replace_earlier inside, last]
  rwa [swapped] at exit

theorem genericFoot_lower {names : List String} {toCall : Nat} (there : s.frame.code[toCall]? = some i)
    (hop : i.opcode? = some .jmp) (run : genericFoot names a toCall s = .ok v u) :
    ∃ s₁ j k l, (Frame.closeCaptured : LowerM Unit) s = .ok () s₁ ∧ j.opcode? = some .jmp ∧ j.a = i.a ∧
      k.opcode? = some .tforCall ∧ k.a = a ∧ k.c = names.length ∧ l.opcode? = some .tforLoop ∧
      (Frame.exitScope : LowerM Unit) (((s₁.replace toCall j).push k).push l) = .ok () u := by
  obtain ⟨_, s₁, close, run⟩ := bind_ok run
  obtain ⟨_, _, patch, run⟩ := bind_ok run
  obtain ⟨j, rfl, hopj, same, _⟩ := patchHere_lower (closeCaptured_code there close) hop patch
  obtain ⟨_, _, call, run⟩ := bind_ok run
  obtain ⟨k, rfl, _, hopk, hak, _, hck, _⟩ := emitAbc_lower call
  obtain ⟨_, _, emit, run⟩ := bind_ok run
  obtain ⟨m, rfl, rfl, hopm, _⟩ := emitAsbx_lower emit
  obtain ⟨_, _, patch', exit⟩ := bind_ok run
  obtain ⟨l, rfl, hopl, _⟩ := patch_lower Frame.push_last hopm patch'
  refine ⟨s₁, j, k, l, close, hopj, same, hopk, hak, hck, hopl, ?_⟩
  have last : (((s₁.replace toCall j).push k).push m).replace ((s₁.replace toCall j).push k).frame.pc l =
      ((s₁.replace toCall j).push k).push l := by
    simp only [push, replace, Frame.push_replace]
  rwa [last] at exit

end Lowering

end LuaBytecode
