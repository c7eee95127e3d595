import LuaBytecode.Proofs.Logic.Statements
import LuaBytecode.Proofs.Lowering.Compound
import LuaBytecode.Proofs.Lowering.Reaches

namespace LuaBytecode

variable {v : Unit} {i : Instruction} {skip? : Option Nat}

namespace Lowering

namespace Ready

variable {Γ : Scopes} {s : Lowering}

variable (h : Ready Γ s)

include h

theorem stack : Stack s.frame.depth s.frame.locals.size s.frame.live := by
  obtain ⟨names, outer, rfl⟩ := h.exists_cons
  exact h.2.1

theorem opened : s.frame.scopes ≠ [] := by
  obtain ⟨names, outer, rfl⟩ := h.exists_cons
  exact h.2.2.1

theorem upvalues : ∀ u ∈ s.frame.upvalues, u.Agrees Γ.tail s.enclosing := by
  obtain ⟨names, outer, rfl⟩ := h.exists_cons
  exact h.2.2.2.1

theorem outer : Scopes.Agrees Γ.tail s.enclosing := by
  obtain ⟨names, outer, rfl⟩ := h.exists_cons
  exact h.2.2.2.2

theorem entered (isLoop : Bool) : Ready Γ (s.enter isLoop) := by
  obtain ⟨names, outer, rfl⟩ := h.exists_cons
  obtain ⟨same, stack, _, upvalues, rest⟩ := h
  exact ⟨same, stack.mono (Nat.le_succ _) Nat.le.refl, List.cons_ne_nil _ _, upvalues, rest⟩

theorem withLocal (balanced : s.frame.used = s.frame.live.length) (x : String) (startPc : Nat) :
    Ready (Γ.declare [x]) ⟨s.frame.withLocal x startPc, s.enclosing⟩ := by
  obtain ⟨names, outer, rfl⟩ := h.exists_cons
  obtain ⟨same, stack, opened, upvalues, rest⟩ := h
  refine ⟨?_, ⟨Nat.le.refl, ?_, balanced, stack⟩, opened, upvalues, rest⟩
  · simp [Frame.withLocal, same]
  · simp [Frame.withLocal]

end Ready

structure Sound (Γ : Scopes) (s : Lowering) : Prop where
  ready : Ready Γ s
  frame : s.frame.Sound

theorem Sound.entered {Γ : Scopes} {s : Lowering} (sound : Sound Γ s) (isLoop : Bool) : Sound Γ (s.enter isLoop) :=
  ⟨sound.ready.entered isLoop, sound.frame.entered isLoop⟩

structure Inside (D : FunctionDef → Prop) (Γ : Scopes) (s t : Lowering) : Prop where
  sound : Sound Γ t
  frame : s.frame.Reaches D t.frame
  enclosing : List.Forall₂ Frame.Refers s.enclosing t.enclosing

/-- What lowering a statement does. The scopes that were open are open still. -/
structure Advances (D : FunctionDef → Prop) (Γ : Scopes) (s t : Lowering) : Prop extends Inside D Γ s t where
  depth : t.frame.depth = s.frame.depth

variable {D : FunctionDef → Prop} {Γ Γ' : Scopes} {s t u : Lowering} {names : List String} {startPc : Nat}

namespace Inside

theorem trans {Γ''} (first : Inside D Γ' s t) (second : Inside D Γ'' t u) : Inside D Γ'' s u :=
  ⟨second.sound, first.frame.trans second.frame, Frame.Refers.all_trans first.enclosing second.enclosing⟩

theorem ofFrame (h : Inside D Γ s t) {f : Frame} (sound : f.Sound) (reaches : s.frame.Reaches D f)
    (live : f.live = t.frame.live) (depth : f.depth = t.frame.depth) (locals : f.locals = t.frame.locals)
    (upvalues : f.upvalues = t.frame.upvalues) : Inside D Γ s ⟨f, t.enclosing⟩ :=
  ⟨⟨h.sound.ready.marked (live ▸ .refl _) depth locals upvalues, sound⟩, reaches, h.enclosing⟩

theorem pushed (h : Inside D Γ s t) (plain : i.opcode? ≠ some .closure) : Inside D Γ s ⟨t.frame.push i, t.enclosing⟩ :=
  h.ofFrame (h.sound.frame.pushed plain) (h.frame.pushed i) rfl rfl rfl rfl

theorem replaced (h : Inside D Γ s t) {pc : Nat} {j : Instruction} (later : s.frame.pc ≤ pc)
    (there : t.frame.code[pc]? = some i) (plain : i.opcode? ≠ some .closure) (kind : j.opcode? = i.opcode?) :
    Inside D Γ s ⟨t.frame.replace pc j, t.enclosing⟩ :=
  h.ofFrame (h.sound.frame.replaced there plain kind) (h.frame.replaced later j) rfl rfl rfl rfl

end Inside

namespace Advances

theorem refl (sound : Sound Γ s) : Advances D Γ s s := ⟨⟨sound, .refl _, Frame.Refers.all_refl _⟩, rfl⟩

theorem trans {Γ''} (first : Advances D Γ' s t) (second : Advances D Γ'' t u) : Advances D Γ'' s u :=
  ⟨first.toInside.trans second.toInside, second.depth.trans first.depth⟩

theorem ofGrows (sound : Sound Γ s) (grows : Grows D Γ s t) (used : t.frame.used = s.frame.used) :
    Advances D Γ s t where
  sound := ⟨grows.ready, sound.frame.extended sound.ready.stack grows.frame used⟩
  frame := .ofExtends grows.frame
  enclosing := grows.enclosing
  depth := by rw [Frame.depth, grows.frame.same, Frame.depth]

theorem ofExit (sound : Sound Γ s) {isLoop : Bool} (inside : Inside D Γ' (s.enter isLoop) t)
    (level : t.frame.depth = s.frame.depth + 1) (tail : Γ'.tail = Γ.tail) (closed : t.frame.Closed)
    (run : (Frame.exitScope : LowerM Unit) t = .ok v u) : Advances D Γ s u := by
  obtain ⟨f, exit, rfl⟩ := lift_ok run
  have stack := sound.ready.stack
  have stack' := inside.sound.ready.stack
  have opened := inside.sound.ready.opened
  obtain ⟨reaches, depth, live⟩ := inside.frame.left level stack inside.sound.frame stack' exit
  obtain ⟨same, _⟩ := Frame.exitScope_ok opened stack' inside.sound.frame.jumps_of_breaks exit
  refine ⟨⟨⟨?_, inside.sound.frame.left opened stack' closed exit⟩, reaches, inside.enclosing⟩, depth⟩
  have outer := inside.sound.ready.outer
  have upvalues := inside.sound.ready.upvalues
  rw [tail] at outer upvalues
  obtain ⟨names, around, rfl⟩ := sound.ready.exists_cons
  refine ⟨live.names.trans sound.ready.1, ?_, ?_, ?_, outer⟩
  · rw [depth]
    exact (live.stack stack).mono Nat.le.refl reaches.locals_size_le
  · intro none
    have : f.depth = 0 := by rw [Frame.depth, none, List.length_nil]
    exact sound.ready.opened (List.eq_nil_of_length_eq_zero (depth.symm.trans this))
  · rw [same]
    exact upvalues

variable (h : Advances D Γ s t)

include h

theorem pushed (plain : i.opcode? ≠ some .closure) : Advances D Γ s (t.push i) := ⟨h.toInside.pushed plain, h.depth⟩

theorem replaced {pc : Nat} {j : Instruction} (later : s.frame.pc ≤ pc) (there : t.frame.code[pc]? = some i)
    (plain : i.opcode? ≠ some .closure) (kind : j.opcode? = i.opcode?) :
    Advances D Γ s (t.replace pc j) := ⟨h.toInside.replaced later there plain kind, h.depth⟩

theorem code_at {pc : Nat} (there : s.frame.code[pc]? = some i) : t.frame.code[pc]? = some i := by
  rw [getElem?_of_prefixed h.frame.code (lt_of_getElem? there), there]

theorem closed (run : (Frame.closeCaptured : LowerM Unit) t = .ok v u) : Advances D Γ s u ∧ u.frame.Closed := by
  rcases closeCaptured_lower run with ⟨nothing, rfl⟩ | ⟨i, _, rfl, jump, _⟩
  · refine ⟨h, fun r captures => ?_⟩
    obtain ⟨b, member, register, captured⟩ := h.sound.frame.last r captures
    refine ⟨b, member, ?_, register, captured⟩
    by_contra deep
    have open' := (Frame.closeLevel_eq_zero_iff h.sound.ready.stack).mp nothing b member (Nat.not_lt.mp deep)
    rw [captured] at open'
    cases open'
  · have plain : i.opcode? ≠ some .closure := by
      rw [jump]
      intro same
      cases same
    exact ⟨h.pushed plain, .pushed plain⟩

end Advances

structure Steady (D : FunctionDef → Prop) (Γ : Scopes) (s t : Lowering) : Prop extends Advances D Γ s t where
  scopes : t.frame.scopes = s.frame.scopes
  jumps : ∀ (pc : Nat) (i : Instruction), s.frame.pc ≤ pc → t.frame.code[pc]? = some i → i.opcode? = some .jmp → i.a = 0

namespace Steady

theorem ofCode (advances : Advances D Γ s t) (scopes : t.frame.scopes = s.frame.scopes)
    (code : t.frame.code = s.frame.code) : Steady D Γ s t :=
  ⟨advances, scopes, fun _ _ above there => by
    rw [code] at there
    cases (Array.getElem?_eq_none above).symm.trans there⟩

theorem refl (sound : Sound Γ s) : Steady D Γ s s := ofCode (.refl sound) rfl rfl

theorem trans {Γ''} (first : Steady D Γ' s t) (second : Steady D Γ'' t u) : Steady D Γ'' s u where
  toAdvances := first.toAdvances.trans second.toAdvances
  scopes := second.scopes.trans first.scopes
  jumps pc i above there jump := by
    by_cases inside : pc < t.frame.pc
    · rw [getElem?_of_prefixed second.frame.code inside] at there
      exact first.jumps pc i above there jump
    · exact second.jumps pc i (Nat.not_lt.mp inside) there jump

theorem ofGrows (sound : Sound Γ s) (grows : Grows D Γ s t) (used : t.frame.used = s.frame.used) :
    Steady D Γ s t where
  toAdvances := .ofGrows sound grows used
  scopes := by rw [grows.frame.same]
  jumps := grows.frame.jumps

theorem pushed (h : Steady D Γ s t) (plain : i.opcode? ≠ some .closure) (zero : i.opcode? = some .jmp → i.a = 0) :
    Steady D Γ s (t.push i) where
  toAdvances := h.toAdvances.pushed plain
  scopes := h.scopes
  jumps pc j above there jump := by
    by_cases inside : pc < t.frame.pc
    · exact h.jumps pc j above ((Frame.push_earlier inside).symm.trans there) jump
    · obtain ⟨_, rfl⟩ := Frame.push_above (Nat.not_lt.mp inside) there
      exact zero jump

end Steady

theorem declare_cons (Γ : Scopes) (x : String) (rest : List String) :
    Γ.declare (x :: rest) = (Γ.declare [x]).declare rest := by
  cases Γ <;> simp [Scopes.declare]

theorem declare_tail (Γ : Scopes) (names : List String) : (Γ.declare names).tail = Γ.tail := by
  cases Γ <;> rfl

def Orderly (f : Frame) (names : List String) : Prop :=
  (∀ x ∈ names, Frame.isHidden x = false) ∨
    (∀ x ∈ names, Frame.isHidden x = true) ∧ ∀ c ∈ f.live, c.depth = f.depth → Frame.isHidden c.name = true

theorem addLocal_steady {x : String} {r : Nat} (sound : Sound Γ s) (here : s.frame.pc ≤ startPc)
    (orderly : Orderly s.frame [x]) (run : (Frame.addLocal x startPc : LowerM Nat) s = .ok r t) :
    Steady D (Γ.declare [x]) s t ∧ t = ⟨s.frame.withLocal x startPc, s.enclosing⟩ := by
  obtain ⟨f, add, rfl⟩ := lift_ok run
  obtain ⟨_, free, rfl⟩ := Frame.addLocal_ok add
  have first : Frame.isHidden x = true → ∀ c ∈ s.frame.live, c.depth = s.frame.depth → Frame.isHidden c.name = true := by
    intro hidden
    rcases orderly with visible | ⟨_, all⟩
    · rw [visible x (.head _)] at hidden
      cases hidden
    · exact all
  have ready := sound.ready.withLocal sound.frame.balanced x startPc
  have declared := sound.frame.declared sound.ready.stack free here first
  exact ⟨.ofCode ⟨⟨⟨ready, declared⟩, .ofLocal, Frame.Refers.all_refl _⟩, rfl⟩ rfl rfl, rfl⟩

theorem declare_steady (sound : Sound Γ s) (here : s.frame.pc ≤ startPc) (orderly : Orderly s.frame names)
    (run : declare names startPc s = .ok v t) : Steady D (Γ.declare names) s t ∧ t.frame.pc = s.frame.pc := by
  induction names generalizing Γ s with
  | nil =>
    obtain ⟨_, rfl⟩ := pure_ok run
    refine ⟨?_, rfl⟩
    rw [show Γ.declare [] = Γ by cases Γ <;> rfl]
    exact .refl sound
  | cons x rest ih =>
    obtain ⟨_, s', first, run⟩ := bind_ok run
    obtain ⟨r, add, _⟩ := bind_pure_ok first
    have orderly₁ : Orderly s.frame [x] := by
      rcases orderly with visible | ⟨hidden, all⟩
      · exact .inl fun y member => visible y (List.mem_singleton.mp member ▸ List.mem_cons_self)
      · exact .inr ⟨fun y member => hidden y (List.mem_singleton.mp member ▸ List.mem_cons_self), all⟩
    obtain ⟨one, rfl⟩ := addLocal_steady (D := D) sound here orderly₁ add
    have orderly₂ : Orderly (s.frame.withLocal x startPc) rest := by
      rcases orderly with visible | ⟨hidden, all⟩
      · exact .inl fun y member => visible y (.tail _ member)
      · refine .inr ⟨fun y member => hidden y (.tail _ member), fun c member depth => ?_⟩
        rcases List.mem_cons.mp member with rfl | old
        · exact hidden x (.head _)
        · exact all c old depth
    obtain ⟨more, pc⟩ := ih one.sound here orderly₂ run
    rw [declare_cons]
    exact ⟨one.trans more, pc⟩

theorem Orderly.extended {f f' : Frame} (h : Orderly f names) (e : f.Extends D f') : Orderly f' names := by
  rcases h with visible | ⟨hidden, all⟩
  · exact .inl visible
  · refine .inr ⟨hidden, fun c' member' depth => ?_⟩
    obtain ⟨c, member, marked⟩ := e.marked.backward member'
    have same : f'.depth = f.depth := by rw [Frame.depth, e.same, Frame.depth]
    rw [marked.name]
    exact all c member (by rw [← marked.depth, depth, same])

theorem Orderly.entered (ready : Ready Γ s) (isLoop : Bool) (hidden : ∀ x ∈ names, Frame.isHidden x = true) :
    Orderly (s.frame.enter isLoop) names := by
  refine .inr ⟨hidden, fun c member depth => ?_⟩
  have := ready.stack.depth_le member
  rw [Frame.enter_depth] at depth
  omega

end Lowering

open Lowering

variable {D : FunctionDef → Prop} {Γ Γ' Γ'' : Scopes}

def StatTracks (D : FunctionDef → Prop) (Γ Γ' : Scopes) (m m' : LowerM Unit) : Prop :=
  ∀ ⦃s⦄, Sound Γ s → Lockstep m m' s fun _ t => Advances D Γ' s t

def SteadyTracks (D : FunctionDef → Prop) (Γ Γ' : Scopes) (m m' : LowerM Unit) : Prop :=
  ∀ ⦃s⦄, Sound Γ s → Lockstep m m' s fun _ t => Steady D Γ' s t

section

variable {m m' k k' : LowerM Unit}

theorem SteadyTracks.ofTracks (h : Tracks D Γ m m' Kept) : SteadyTracks D Γ Γ m m' := by
  intro s sound
  refine (h sound.ready).weaken ?_
  rintro _ t ⟨grows, used⟩
  exact .ofGrows sound grows used

theorem SteadyTracks.toStatTracks (h : SteadyTracks D Γ Γ' m m') : StatTracks D Γ Γ' m m' :=
  fun _ sound => (h sound).weaken fun _ _ steady => steady.toAdvances

theorem StatTracks.bind (first : StatTracks D Γ Γ' m m') (next : StatTracks D Γ' Γ'' k k') :
    StatTracks D Γ Γ'' (do m; k) (do m'; k') := by
  intro s sound
  refine .bind ((first sound).weaken fun _ t advances => ?_)
  exact (next advances.sound).weaken fun _ _ more => advances.trans more

end

namespace Lowering

variable {s t : Lowering} {names : List String} {values values' : List ExpCode} {guard guard' : ExpCode}

theorem emitLocals_tracks (hv : List.Forall₂ (ExpCode.Follows D Γ) values values') (sound : Sound Γ s)
    (orderly : Orderly s.frame names) :
    Lockstep (emitLocals names values) (emitLocals names values') s fun _ t => Steady D (Γ.declare names) s t := by
  refine .bind ((Tracks.scratch (ExpCode.loadTrimmed_holds hv names.length) sound.ready).weaken ?_)
  rintro _ t ⟨grows, used⟩
  have loaded := Steady.ofGrows sound grows used
  refine .bind (.self fun startPc t' read => ?_)
  obtain ⟨rfl, rfl⟩ := pc_ok read
  refine .self fun _ u run => ?_
  obtain ⟨declared, _⟩ := declare_steady (D := D) loaded.sound Nat.le.refl (orderly.extended grows.frame) run
  exact loaded.trans declared

theorem emitGuard_tracks (hg : guard.Follows D Γ guard') (sound : Sound Γ s) :
    Lockstep (emitGuard guard) (emitGuard guard') s fun leave t => Steady D Γ s t ∧ s.frame.pc ≤ leave ∧
      ∃ i, t.frame.code[leave]? = some i ∧ i.opcode? = some .jmp := by
  refine .bind ((Tracks.scratch hg.toRegister sound.ready).weaken ?_)
  rintro a t ⟨grows, used⟩
  have loaded := Steady.ofGrows sound grows used
  refine .bind (.self fun _ _ test => ?_)
  obtain ⟨i, rfl, _, hop, _⟩ := emitAbc_lower test
  refine .self fun leave _ jump => ?_
  obtain ⟨j, rfl, rfl, hop', zero, _⟩ := emitJmp_lower jump
  refine ⟨(loaded.pushed (by simp [hop]) (by simp [hop])).pushed (by simp [hop']) (fun _ => zero), ?_, j, ?_, hop'⟩
  · have := grows.frame.pc_le
    simp only [push_frame, Frame.push_pc]
    omega
  · exact Frame.push_last

variable {s₁ u : Lowering} {isLoop : Bool}

theorem enterScope_tracks : Lockstep (liftM (Frame.enterScope isLoop)) (liftM (Frame.enterScope isLoop)) s
    fun _ t => t = s.enter isLoop :=
  .self fun _ _ run => enterScope_lower run

theorem scopeFoot_advances (sound : Sound Γ s) (body : Advances D Γ' (s.enter isLoop) t) (tail : Γ'.tail = Γ.tail)
    (run : scopeFoot t = .ok v u) : Advances D Γ s u := by
  obtain ⟨t', close, exit⟩ := scopeFoot_lower run
  obtain ⟨closes, closed⟩ := body.closed close
  exact .ofExit sound closes.toInside closes.depth tail closed exit

theorem whileHead_tracks (hg : guard.Follows D Γ guard') (sound : Sound Γ s) :
    Lockstep (whileHead guard) (whileHead guard') s fun (start, leave) t => ∃ s₁, Steady D Γ s s₁ ∧
      t = s₁.enter true ∧ start = s.frame.pc ∧ s.frame.pc ≤ leave ∧
      ∃ i, s₁.frame.code[leave]? = some i ∧ i.opcode? = some .jmp := by
  refine .bind (.self fun start _ read => ?_)
  obtain ⟨rfl, rfl⟩ := pc_ok read
  refine .bind ((emitGuard_tracks hg sound).weaken ?_)
  rintro leave t ⟨advances, above, there⟩
  refine .bind (enterScope_tracks.weaken ?_)
  rintro _ _ rfl
  exact .pure ⟨t, advances, rfl, rfl, above, there⟩

theorem whileFoot_advances {start leave : Nat} (head : Advances D Γ s s₁) (above : s.frame.pc ≤ leave)
    (there : s₁.frame.code[leave]? = some i) (jump : i.opcode? = some .jmp) (body : Advances D Γ' (s₁.enter true) t)
    (tail : Γ'.tail = Γ.tail) (run : whileFoot start leave t = .ok v u) : Advances D Γ s u := by
  obtain ⟨t₁, u', j, close, hop, _, _, exit, patch⟩ := whileFoot_lower run
  obtain ⟨closes, _⟩ := body.closed close
  have plain : j.opcode? ≠ some .closure := by simp [hop]
  have pushed := closes.pushed plain
  have left : Advances D Γ s₁ u' := .ofExit head.sound pushed.toInside pushed.depth tail (.pushed plain) exit
  have there' := left.code_at there
  obtain ⟨k, rfl, hop', _⟩ := patchHere_lower there' jump patch
  exact (head.trans left).replaced above there' (by simp [jump]) (hop'.trans jump.symm)

theorem repeatTest_tracks (hg : guard.Follows D Γ guard') (sound : Sound Γ s) :
    Lockstep (repeatTest guard) (repeatTest guard') s fun _ t => Steady D Γ s t := by
  refine .bind ((Tracks.scratch hg.toRegister sound.ready).weaken ?_)
  rintro a t ⟨grows, used⟩
  refine .bind (.self fun _ _ test => ?_)
  obtain ⟨i, rfl, _, hop, _⟩ := emitAbc_lower test
  exact .pure ((Steady.ofGrows sound grows used).pushed (by simp [hop]) (by simp [hop]))

theorem repeatFoot_advances {start : Nat} (sound : Sound Γ s) (body : Advances D Γ' (s.enter true) t)
    (tail : Γ'.tail = Γ.tail) (run : repeatFoot start t = .ok v u) : Advances D Γ s u := by
  obtain ⟨j, hop, _, _, _, run⟩ := repeatFoot_lower run
  exact scopeFoot_advances sound (body.pushed (by simp [hop])) tail run

def JumpAt (s t : Lowering) (pc : Nat) : Prop :=
  s.frame.pc ≤ pc ∧ ∃ i, t.frame.code[pc]? = some i ∧ i.opcode? = some .jmp

theorem JumpAt.advance {pc : Nat} (h : JumpAt s t pc) (advances : Advances D Γ t u) : JumpAt s u pc := by
  obtain ⟨above, i, there, jump⟩ := h
  exact ⟨above, i, advances.code_at there, jump⟩

theorem JumpAt.last (advances : Advances D Γ s t) (jump : i.opcode? = some .jmp) : JumpAt s (t.push i) t.frame.pc :=
  ⟨advances.frame.pc_le, i, Frame.push_last, jump⟩

theorem patchHere_advances {pc : Nat} (advances : Advances D Γ s t) (at' : JumpAt s t pc)
    (run : (Frame.patchHere pc : LowerM Unit) t = .ok v u) :
    Advances D Γ s u ∧ ∀ q, JumpAt s t q → JumpAt s u q := by
  obtain ⟨above, i, there, jump⟩ := at'
  obtain ⟨j, rfl, hop, _⟩ := patchHere_lower there jump run
  refine ⟨advances.replaced above there (by simp [jump]) (hop.trans jump.symm), ?_⟩
  rintro q ⟨above', k, there', jump'⟩
  refine ⟨above', ?_⟩
  by_cases same : pc = q
  · subst same
    exact ⟨j, Frame.replace_self (lt_of_getElem? there), hop⟩
  · exact ⟨k, (Frame.replace_other same).trans there', jump'⟩

theorem patchHeres_advances {pcs : List Nat} (advances : Advances D Γ s t) (jumps : ∀ pc ∈ pcs, JumpAt s t pc)
    (run : pcs.forM (fun pc => (Frame.patchHere pc : LowerM Unit)) t = .ok v u) : Advances D Γ s u := by
  induction pcs generalizing t with
  | nil =>
    obtain ⟨_, rfl⟩ := pure_ok run
    exact advances
  | cons pc rest ih =>
    obtain ⟨_, t', first, run⟩ := bind_ok run
    obtain ⟨advances', kept⟩ := patchHere_advances advances (jumps pc (.head _)) first
    exact ih advances' (fun q member => kept q (jumps q (.tail _ member))) run

theorem patchSkip_advances (before : Advances D Γ s t) (skips : ∀ pc ∈ skip?, JumpAt s t pc)
    (run : skip?.forM (fun pc => (Frame.patchHere pc : LowerM Unit)) t = .ok v u) :
    Advances D Γ s u ∧ ∀ q, JumpAt s t q → JumpAt s u q := by
  cases skip? with
  | none =>
    obtain ⟨_, rfl⟩ := pure_ok run
    exact ⟨before, fun _ h => h⟩
  | some pc => exact patchHere_advances before (skips pc rfl) run

theorem armHead_tracks (hg : guard.Follows D Γ guard') (before : Advances D Γ s t)
    (skips : ∀ pc ∈ skip?, JumpAt s t pc) :
    Lockstep (armHead skip? guard) (armHead skip? guard') t fun skip?' u => ∃ t₁, Advances D Γ s t₁ ∧
      u = t₁.enter false ∧ (∀ pc ∈ skip?', JumpAt s t₁ pc) ∧ ∀ q, JumpAt s t q → JumpAt s t₁ q := by
  refine .bind (.self fun _ t₁ patch => ?_)
  obtain ⟨landed, kept⟩ := patchSkip_advances before skips patch
  rw [Exp.isTrue_eq, Exp.isTrue_eq, hg.literal]
  split
  · refine .bind (.pure (.bind (enterScope_tracks.weaken ?_)))
    rintro _ _ rfl
    exact .pure ⟨t₁, landed, rfl, nofun, kept⟩
  · refine .bind (.map ((emitGuard_tracks hg landed.sound).weaken ?_))
    rintro leave t₂ ⟨guarded, above, there⟩
    refine .bind (enterScope_tracks.weaken ?_)
    rintro _ _ rfl
    have guarded := guarded.toAdvances
    refine .pure ⟨t₂, landed.trans guarded, rfl, fun pc same => ?_, fun q h => (kept q h).advance guarded⟩
    cases same
    exact ⟨Nat.le_trans landed.frame.pc_le above, there⟩

theorem numericHead_tracks {var : String} (visible : Frame.isHidden var = false) {init init' limit limit' : ExpCode}
    {step? step?' : Option ExpCode} (hi : init.Follows D Γ init') (hl : limit.Follows D Γ limit')
    (hs : Option.Rel (ExpCode.Follows D Γ) step? step?') (sound : Sound Γ s) :
    Lockstep (numericHead var init limit step?) (numericHead var init' limit' step?') s fun (_, prep) t =>
      Steady D ((Γ.declare numericControls).declare [var]) (s.enter true) t ∧ s.frame.pc ≤ prep ∧
        ∃ i, t.frame.code[prep]? = some i ∧ i.opcode? = some .forPrep := by
  have values : List.Forall₂ (ExpCode.Follows D Γ)
      [init, limit, step?.getD (.ofConstant (.integer 1) (.integer 1))]
      [init', limit', step?'.getD (.ofConstant (.integer 1) (.integer 1))] := by
    refine .cons hi (.cons hl (.cons ?_ .nil))
    cases hs with
    | none => exact ExpCode.ofConstant_walks rfl rfl
    | some follows => exact follows
  refine .bind (enterScope_tracks.weaken ?_)
  rintro _ _ rfl
  have controls : Orderly (s.frame.enter true) numericControls := .entered sound.ready true (by decide)
  refine .bind ((emitLocals_tracks values (sound.entered true) controls).weaken fun _ t₁ declared => ?_)
  refine .bind (.self fun startPc _ read => ?_)
  obtain ⟨rfl, rfl⟩ := pc_ok read
  refine .bind (.self fun _ t₂ add => ?_)
  have orderly : Orderly t₁.frame [var] := .inl fun y member => List.mem_singleton.mp member ▸ visible
  obtain ⟨added, rfl⟩ := addLocal_steady (D := D) declared.sound (Nat.le_succ _) orderly add
  refine .bind (.self fun _ _ read => ?_)
  obtain ⟨rfl, rfl⟩ := used_ok read
  refine .bind (.self fun _ _ less => ?_)
  obtain ⟨_, rfl, rfl⟩ := difference_lower less
  refine .bind (.self fun prep _ emit => ?_)
  obtain ⟨i, rfl, rfl, hop, _⟩ := emitAsbx_lower emit
  have opened := declared.trans added
  refine .pure ⟨opened.pushed (by simp [hop]) (by simp [hop]), opened.frame.pc_le, i, Frame.push_last, hop⟩

theorem numericFoot_advances {a prep : Nat} (sound : Sound Γ s) (body : Advances D Γ' (s.enter true) t)
    (above : s.frame.pc ≤ prep) (there : t.frame.code[prep]? = some i) (hop : i.opcode? = some .forPrep)
    (tail : Γ'.tail = Γ.tail) (run : numericFoot a prep t = .ok v u) : Advances D Γ s u := by
  obtain ⟨t₁, j, k, close, hopj, _, hopk, exit⟩ := numericFoot_lower there hop run
  obtain ⟨closes, _⟩ := body.closed close
  have plain : k.opcode? ≠ some .closure := by simp [hopk]
  have patched := closes.replaced above (closeCaptured_code there close) (j := j) (by simp [hop]) (hopj.trans hop.symm)
  have looped := patched.pushed plain
  exact .ofExit sound looped.toInside looped.depth tail (.pushed plain) exit

theorem genericHead_tracks (visible : ∀ x ∈ names, Frame.isHidden x = false)
    (hv : List.Forall₂ (ExpCode.Follows D Γ) values values') (sound : Sound Γ s) :
    Lockstep (genericHead names values) (genericHead names values') s fun (_, toCall) t =>
      Steady D ((Γ.declare genericControls).declare names) (s.enter true) t ∧ JumpAt s t toCall := by
  refine .bind (enterScope_tracks.weaken ?_)
  rintro _ _ rfl
  have controls : Orderly (s.frame.enter true) genericControls := .entered sound.ready true (by decide)
  refine .bind ((emitLocals_tracks hv (sound.entered true) controls).weaken fun _ t₁ declared => ?_)
  refine .bind (.self fun startPc _ read => ?_)
  obtain ⟨rfl, rfl⟩ := pc_ok read
  refine .bind (.self fun _ t₂ add => ?_)
  obtain ⟨added, _⟩ := declare_steady (D := D) declared.sound (Nat.le_succ _) (.inl visible) add
  refine .bind (.self fun _ _ read => ?_)
  obtain ⟨rfl, rfl⟩ := used_ok read
  refine .bind (.self fun _ _ less => ?_)
  obtain ⟨_, rfl, rfl⟩ := difference_lower less
  refine .bind (.self fun prep _ emit => ?_)
  obtain ⟨i, rfl, rfl, hop, zero, _⟩ := emitJmp_lower emit
  have opened := declared.trans added
  exact .pure ⟨opened.pushed (by simp [hop]) (fun _ => zero), opened.frame.pc_le, i, Frame.push_last, hop⟩

theorem genericFoot_advances {a toCall : Nat} (sound : Sound Γ s) (body : Advances D Γ' (s.enter true) t)
    (jump : JumpAt s t toCall) (tail : Γ'.tail = Γ.tail) (run : genericFoot names a toCall t = .ok v u) :
    Advances D Γ s u := by
  obtain ⟨above, i, there, hop⟩ := jump
  obtain ⟨t₁, j, k, l, close, hopj, _, hopk, _, _, hopl, exit⟩ := genericFoot_lower there hop run
  obtain ⟨closes, _⟩ := body.closed close
  have plain : l.opcode? ≠ some .closure := by simp [hopl]
  have patched := closes.replaced above (closeCaptured_code there close) (j := j) (by simp [hop]) (hopj.trans hop.symm)
  have looped := (patched.pushed (i := k) (by simp [hopk])).pushed plain
  exact .ofExit sound looped.toInside looped.depth tail (.pushed plain) exit

end Lowering

namespace SteadyTracks

variable {values values' : List ExpCode}

theorem emitLocals {names : List String} (visible : ∀ x ∈ names, Frame.isHidden x = false)
    (hv : List.Forall₂ (ExpCode.Follows D Γ) values values') :
    SteadyTracks D Γ (Γ.declare names) (emitLocals names values) (Lowering.emitLocals names values') :=
  fun _ sound => emitLocals_tracks hv sound (.inl visible)

theorem emitCallStatement {callee callee' : ExpCode} {args args' : List ExpCode}
    (hc : callee.Follows D Γ callee') (ha : List.Forall₂ (ExpCode.Follows D Γ) args args') (isMethod : Bool) :
    SteadyTracks D Γ Γ (emitCallStatement callee args isMethod) (Lowering.emitCallStatement callee' args' isMethod) :=
  ofTracks (emitCallStatement_holds hc ha isMethod)

theorem emitAssign {targets targets' : List ExpCode} (ht : List.Forall₂ (ExpCode.Follows D Γ) targets targets')
    (hv : List.Forall₂ (ExpCode.Follows D Γ) values values') :
    SteadyTracks D Γ Γ (emitAssign targets values) (Lowering.emitAssign targets' values') :=
  ofTracks (emitAssign_holds ht hv)

theorem emitReturn (hv : List.Forall₂ (ExpCode.Follows D Γ) values values') :
    SteadyTracks D Γ Γ (emitReturn values) (Lowering.emitReturn values') := ofTracks (emitReturn_holds hv)

end SteadyTracks

namespace StatTracks

variable {body body' : LowerM Unit} {guard guard' : ExpCode} {guards guards' : List ExpCode}
  {bodies bodies' : List (LowerM Unit)}

theorem inScope (hb : StatTracks D Γ Γ' body body') (tail : Γ'.tail = Γ.tail) :
    StatTracks D Γ Γ (inScope body) (Lowering.inScope body') := by
  intro s sound
  refine .bind (enterScope_tracks.weaken ?_)
  rintro _ _ rfl
  refine .bind ((hb (sound.entered false)).weaken fun _ t advances => ?_)
  exact .self fun _ u run => scopeFoot_advances sound advances tail run

theorem emitWhile (hg : guard.Follows D Γ guard') (hb : StatTracks D Γ Γ' body body') (tail : Γ'.tail = Γ.tail) :
    StatTracks D Γ Γ (emitWhile guard body) (Lowering.emitWhile guard' body') := by
  intro s sound
  rw [emitWhile_eq, emitWhile_eq]
  refine .bind ((whileHead_tracks hg sound).weaken ?_)
  rintro ⟨start, leave⟩ _ ⟨s₁, head, rfl, _, above, i, there, jump⟩
  refine .bind ((hb (head.sound.entered true)).weaken fun _ t advances => ?_)
  exact .self fun _ u run => whileFoot_advances head.toAdvances above there jump advances tail run

theorem emitRepeat (hb : StatTracks D Γ Γ' body body') (hg : guard.Follows D Γ' guard') (tail : Γ'.tail = Γ.tail) :
    StatTracks D Γ Γ (emitRepeat body guard) (Lowering.emitRepeat body' guard') := by
  intro s sound
  rw [emitRepeat_eq, emitRepeat_eq]
  refine .bind (.bind (enterScope_tracks.weaken ?_))
  rintro _ _ rfl
  refine .self fun start _ read => ?_
  obtain ⟨rfl, rfl⟩ := pc_ok read
  refine .bind ((hb (sound.entered true)).weaken fun _ t advances => ?_)
  refine .bind ((repeatTest_tracks hg advances.sound).weaken fun _ t' tested => ?_)
  exact .self fun _ u run => repeatFoot_advances sound (advances.trans tested.toAdvances) tail run

def Bodies (D : FunctionDef → Prop) (Γ : Scopes) : List (LowerM Unit) → List (LowerM Unit) → Prop :=
  List.Forall₂ fun body body' => ∃ Γ', Γ'.tail = Γ.tail ∧ StatTracks D Γ Γ' body body'

theorem emitArms (hg : List.Forall₂ (ExpCode.Follows D Γ) guards guards') (hb : Bodies D Γ bodies bodies')
    {s t : Lowering} (before : Advances D Γ s t) (skips : ∀ pc ∈ skip?, JumpAt s t pc) {ends : Array Nat}
    (jumps : ∀ pc ∈ ends, JumpAt s t pc) :
    Lockstep (emitArms guards bodies skip? ends) (Lowering.emitArms guards' bodies' skip? ends) t fun ends' u =>
      Advances D Γ s u ∧ ∀ pc ∈ ends', JumpAt s u pc := by
  induction hg generalizing bodies bodies' t skip? ends with
  | nil =>
    unfold Lowering.emitArms
    exact .pure ⟨before, jumps⟩
  | @cons guard guard' guards guards' head tail ih =>
    cases hb with
    | nil =>
      unfold Lowering.emitArms
      exact .pure ⟨before, jumps⟩
    | @cons body body' bodies bodies' first rest =>
      obtain ⟨Γ', around, first⟩ := first
      rw [emitArms_eq, emitArms_eq]
      refine .bind ((armHead_tracks head before skips).weaken ?_)
      rintro skip?' _ ⟨t₁, landed, rfl, skips', kept⟩
      refine .bind ((first (landed.sound.entered false)).weaken fun _ t₂ advances => ?_)
      refine .bind (.self fun _ t₃ run => ?_)
      have closed := scopeFoot_advances landed.sound advances around run
      have done := landed.trans closed
      have none : guards'.isEmpty = guards.isEmpty := ExpCode.isEmpty_of tail
      rw [none]
      split
      · refine .pure ⟨done, ?_⟩
        cases skip?' with
        | none => exact fun pc member => (kept pc (jumps pc member)).advance closed
        | some skip =>
          intro pc member
          rcases Array.mem_push.mp member with old | rfl
          · exact (kept pc (jumps pc old)).advance closed
          · exact (skips' pc rfl).advance closed
      · refine .bind (.self fun leave _ jump => ?_)
        obtain ⟨j, rfl, rfl, hop, _⟩ := emitJmp_lower jump
        have plain : j.opcode? ≠ some .closure := by simp [hop]
        have pushed : Advances D Γ t₃ (t₃.push j) := (Advances.refl done.sound).pushed plain
        refine ih rest (done.trans pushed) (fun pc same => ((skips' pc same).advance closed).advance pushed) ?_
        intro pc member
        rcases Array.mem_push.mp member with old | rfl
        · exact ((kept pc (jumps pc old)).advance closed).advance pushed
        · exact .last done hop

theorem emitIf (hg : List.Forall₂ (ExpCode.Follows D Γ) guards guards') (hb : Bodies D Γ bodies bodies') :
    StatTracks D Γ Γ (emitIf guards bodies) (Lowering.emitIf guards' bodies') := by
  intro s sound
  refine .bind ((emitArms hg hb (.refl sound) (by simp)
    (by simp)).weaken ?_)
  rintro ends t ⟨advances, jumps⟩
  refine .self fun _ u run => ?_
  have list : ends.toList.forM (fun pc => (Frame.patchHere pc : LowerM Unit)) t = .ok () u := by
    rw [← List.forM_toArray, Array.toArray_toList]
    exact run
  exact patchHeres_advances advances (fun pc member => jumps pc (by simpa using member)) list

theorem emitNumericFor {var : String} (visible : Frame.isHidden var = false) {init init' limit limit' : ExpCode}
    {step? step?' : Option ExpCode} (hi : init.Follows D Γ init') (hl : limit.Follows D Γ limit')
    (hs : Option.Rel (ExpCode.Follows D Γ) step? step?')
    (hb : StatTracks D ((Γ.declare numericControls).declare [var]) Γ' body body') (tail : Γ'.tail = Γ.tail) :
    StatTracks D Γ Γ (emitNumericFor var init limit step? body)
      (Lowering.emitNumericFor var init' limit' step?' body') := by
  intro s sound
  rw [emitNumericFor_eq, emitNumericFor_eq]
  refine .bind ((numericHead_tracks visible hi hl hs sound).weaken ?_)
  rintro ⟨a, prep⟩ t ⟨head, above, i, there, hop⟩
  refine .bind ((hb head.sound).weaken fun _ t₁ advances => ?_)
  exact .self fun _ u run =>
    numericFoot_advances sound (head.toAdvances.trans advances) above (advances.code_at there) hop tail run

theorem emitGenericFor {names : List String} (visible : ∀ x ∈ names, Frame.isHidden x = false)
    {values values' : List ExpCode} (hv : List.Forall₂ (ExpCode.Follows D Γ) values values')
    (hb : StatTracks D ((Γ.declare genericControls).declare names) Γ' body body') (tail : Γ'.tail = Γ.tail) :
    StatTracks D Γ Γ (emitGenericFor names values body) (Lowering.emitGenericFor names values' body') := by
  intro s sound
  rw [emitGenericFor_eq, emitGenericFor_eq]
  refine .bind ((genericHead_tracks visible hv sound).weaken ?_)
  rintro ⟨a, toCall⟩ t ⟨head, jump⟩
  refine .bind ((hb head.sound).weaken fun _ t₁ advances => ?_)
  exact .self fun _ u run =>
    genericFoot_advances sound (head.toAdvances.trans advances) (jump.advance advances) tail run

theorem emitBreak : StatTracks D Γ Γ emitBreak Lowering.emitBreak := by
  intro s sound
  refine .self fun _ u run => ?_
  obtain ⟨_, i, hop, _, rfl⟩ := emitBreak_lower run
  have pushed := (Advances.refl (D := D) sound).pushed (i := i) (by simp [hop])
  have depth : ((s.frame.push i).withBreak s.frame.pc).depth = s.frame.depth :=
    Frame.withBreak_depth _ _
  refine ⟨pushed.toInside.ofFrame ?_ (pushed.frame.broke Nat.le.refl) rfl depth rfl rfl, depth⟩
  refine pushed.sound.frame.broke ⟨i, Frame.push_last, hop⟩ fun pcs scope member => ?_
  obtain ⟨_, there, _⟩ := sound.frame.breaks pcs scope _ member
  exact Nat.lt_irrefl _ (lt_of_getElem? there)

end StatTracks

end LuaBytecode
