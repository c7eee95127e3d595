import LuaBytecode.Proofs.Statement.Control

namespace LuaBytecode

open Lowering

variable {V : Type} {ops : Operators V} {P : Ending V → Machine V → Prop} {D : FunctionDef → Prop} {Γ Γ' : Scopes}
  {s s₁ t t₁ u : Lowering} {v : Unit} {exec rest : Store V → Option (Outcome V)} {taken : Store V → Bool}
  {skip? : Option Nat} {ends ends' : Array Nat}

def Program.landing (pcs : List Nat) (target q target' : Nat) : Prop := q ∈ pcs ∧ target' = target

section Patches

theorem patchHeres_same {pcs : List Nat} (run : pcs.forM (fun pc => (Frame.patchHere pc : LowerM Unit)) t = .ok v u) :
    u.frame.scopes = t.frame.scopes ∧ u.frame.pc = t.frame.pc := by
  induction pcs generalizing t with
  | nil =>
    obtain ⟨_, rfl⟩ := pure_ok run
    exact ⟨rfl, rfl⟩
  | cons pc pcs ih =>
    obtain ⟨_, f, patch, run⟩ := bind_lift_ok run
    obtain ⟨_, j, _, _, rfl⟩ := Frame.patchHere_ok patch
    obtain ⟨scopes, size⟩ := ih run
    exact ⟨scopes, size.trans (Frame.replace_pc ..)⟩

theorem patchHeres_serves {pcs : List Nat} (jumps : ∀ pc ∈ pcs, JumpAt s t pc)
    (calm : ∀ pc ∈ pcs, pc ∉ loopBreaks t.frame.scopes)
    (run : pcs.forM (fun pc => (Frame.patchHere pc : LowerM Unit)) t = .ok v u) {p : Program} {exit lo : Nat}
    {hanging : Nat → Nat → Prop} (serves : p.Serves exit hanging lo u.frame)
    (still : ∀ pc ∈ pcs, ∀ target, ¬hanging pc target) :
    p.Serves exit (fun q target => hanging q target ∨ Program.landing pcs t.frame.pc q target) lo t.frame := by
  induction pcs generalizing t with
  | nil =>
    obtain ⟨_, rfl⟩ := pure_ok run
    refine serves.rehung fun q target => ⟨.inl, ?_⟩
    rintro (hangs | ⟨none, _⟩)
    · exact hangs
    · cases none
  | cons pc pcs ih =>
    obtain ⟨_, t₁, first, run⟩ := bind_ok run
    obtain ⟨above, i, there, jump⟩ := jumps pc (.head _)
    obtain ⟨j, rfl, hop, _, offset⟩ := patchHere_lower there jump first
    have others : ∀ q ∈ pcs, JumpAt s (t.replace pc j) q := fun q member => by
      obtain ⟨above', k, there', jump'⟩ := jumps q (.tail _ member)
      refine ⟨above', ?_⟩
      by_cases same : pc = q
      · subst same
        exact ⟨j, Frame.replace_self (lt_of_getElem? there), hop⟩
      · exact ⟨k, (Frame.replace_other same).trans there', jump'⟩
    have later := ih others (fun q member => calm q (.tail _ member)) run
      fun q member => still q (.tail _ member)
    rw [replace_frame, Frame.replace_pc] at later
    have inside : pc < t.frame.pc := lt_of_getElem? there
    have hung := later.unpatched hop offset inside (calm pc (.head _)) fun target hangs => by
      rcases hangs with hangs | ⟨_, same⟩
      · exact absurd hangs (still pc (.head _) target)
      · exact same
    refine hung.rehung fun q target => ?_
    rw [Program.landing, Program.landing, List.mem_cons, or_and_right, or_assoc, or_comm (a := q ∈ pcs ∧ _)]

theorem forM_option_eq (skip? : Option Nat) (f : Nat → LowerM Unit) : skip?.forM f = skip?.toList.forM f := by
  cases skip? with
  | none => rfl
  | some pc => simp [Option.forM]

end Patches

def Program.HangsOnly (s t : Lowering) (skip? : Option Nat) (hanging : Nat → Nat → Prop) : Prop :=
  ∀ q target, hanging q target → s.frame.pc ≤ q → q ∈ skip? ∨ t.frame.pc ≤ q

structure Arm (ops : Operators V) (P : Ending V → Machine V → Prop) (taken : Store V → Bool)
    (exec : Store V → Option (Outcome V)) (s t : Lowering) (skip? : Option Nat) : Prop where
  adds : AddsBreaks (s.frame.pc ≤ ·) s.frame.scopes t.frame.scopes
  jumps : ∀ pc ∈ skip?, JumpAt s t pc ∧ pc ∉ loopBreaks t.frame.scopes
  enters : ∀ {p : Program} {exit : Nat} {hanging : Nat → Nat → Prop}, p.Serves exit hanging s.frame.pc t.frame →
    Program.HangsOnly s t skip? hanging → ∀ {σ R}, Held s.frame.live σ R →
    taken σ = true → ∀ {r}, exec σ = some r → (r.broke = true → 0 < s.frame.loopDepth) ∧
      ∃ R', p.Passes ops P ⟨s.frame.pc, R⟩ r.endings ⟨if r.broke then exit else t.frame.pc, R'⟩ ∧ Keeps s r R'
  skips : ∀ {p : Program} {exit : Nat} {hanging : Nat → Nat → Prop}, p.Serves exit hanging s.frame.pc t.frame →
    Program.HangsOnly s t skip? hanging → ∀ {σ R}, Held s.frame.live σ R →
    taken σ = false → ∃ pc ∈ skip?, ∃ R', p.Passes ops P ⟨s.frame.pc, R⟩ [] ⟨pc, R'⟩ ∧ Held s.frame.live σ R'

theorem Arm.always (body : Simulates ops P exec s t (Keeps s)) : Arm ops P (fun _ => true) exec s t none where
  adds := body.adds
  jumps _ member := absurd member (Option.not_mem_none _)
  enters serves elsewhere _ _ held _ _ run := by
    refine body.runs (serves.settled fun q target hangs => ?_) held run
    by_cases least : s.frame.pc ≤ q
    · rcases elsewhere q target hangs least with none | later
      · cases none
      · exact .inr later
    · exact .inl (by omega)
  skips _ _ _ _ _ never := absurd never (by decide)

theorem Arm.guarded {e : Exp} {leave : Nat} (sound : Sound Γ s) (follows : e.code.Follows D Γ e.code)
    (pure : e.Pure (· ∈ s.frame.live.map (·.name))) (shape : e.Grammatical) (head : emitGuard e.code s = .ok leave s₁)
    (body : Simulates ops P exec s₁ t (Keeps s₁)) (after : Advances D Γ s₁ t) :
    Arm ops P (e.holdsIn ops) exec s t (some leave) := by
  obtain ⟨steady, above, i, there, jump⟩ := (emitGuard_tracks follows sound _ _ head).2
  obtain ⟨next, test⟩ := emitGuard_passes ops P sound pure shape head
  have marked := steady.marked sound
  have middle : s.frame.pc ≤ s₁.frame.pc := steady.frame.pc_le
  have last : s₁.frame.pc ≤ t.frame.pc := after.frame.pc_le
  have late : ∀ q ∈ loopBreaks t.frame.scopes, s.frame.pc ≤ q → leave < q := fun q member least => by
    rcases body.adds.backward member with old | new
    · have := sound.frame.loopBreaks_lt (steady.scopes ▸ old)
      omega
    · omega
  have hidden : leave ∉ loopBreaks t.frame.scopes := fun member => Nat.lt_irrefl _ (late leave member above)
  have includes : ∀ {p : Program} {exit : Nat} {hanging : Nat → Nat → Prop}, p.Serves exit hanging s.frame.pc t.frame →
      Program.HangsOnly s t (some leave) hanging → p.Includes s₁.frame s.frame.pc leave := by
    intro p exit hanging serves elsewhere
    refine serves.first after.frame.code after.frame.constants (by omega) (fun q member least => ?_)
      fun q target hangs least => ?_
    · exact Nat.le_of_lt (late q member least)
    · rcases elsewhere q target hangs least with same | later
      · cases same
        exact Nat.le.refl
      · omega
  refine ⟨?_, fun pc same => ?_, fun {p exit hanging} serves elsewhere {σ R} held holds {r} run => ?_,
    fun {p exit hanging} serves elsewhere {σ R} held fails => ?_⟩
  · exact (.refl _ : AddsBreaks (s.frame.pc ≤ ·) _ _).trans (steady.scopes ▸ body.adds) fun _ => Nat.le_trans middle
  · cases same
    exact ⟨⟨above, i, after.code_at there, jump⟩, hidden⟩
  · obtain ⟨R₁, tested, held₁⟩ := test (includes serves elsewhere) held
    rw [holds] at tested
    have around := (serves.narrow middle).settled fun q target hangs => by
      by_cases least : s.frame.pc ≤ q
      · rcases elsewhere q target hangs least with same | later
        · cases same
          exact .inl (by omega)
        · exact .inr later
      · exact .inl (by omega)
    obtain ⟨inLoop, R₂, passes, held₂⟩ := body.runs around (held₁.remarked marked) run
    refine ⟨fun broke => ?_, R₂, tested.trans passes, held₂.marked marked⟩
    have := inLoop broke
    rwa [Frame.loopDepth, steady.scopes] at this
  · obtain ⟨R₁, tested, held₁⟩ := test (includes serves elsewhere) held
    rw [fails] at tested
    exact ⟨leave, rfl, R₁, tested, held₁⟩

theorem isTrue_eq_isElse (e : Exp) : isTrue e = e.isElse := by
  cases e with
  | bool value => cases value <;> rfl
  | _ => rfl

section Head

variable {guard : Exp} (sound : Sound Γ s) (follows : guard.code.Follows D Γ guard.code)
  (choice : isTrue guard.code.exp = true ∧ skip? = none ∧ s₁ = s ∨
    isTrue guard.code.exp = false ∧ ∃ leave, emitGuard guard.code s = .ok leave s₁ ∧ skip? = some leave)

include sound follows choice

theorem armGuard_steady : Steady D Γ s s₁ := by
  rcases choice with ⟨_, _, rfl⟩ | ⟨_, leave, emit, _⟩
  · exact .refl sound
  · exact (emitGuard_tracks follows sound _ _ emit).2.1

theorem Arm.ofGuard (pure : guard.Pure (· ∈ s.frame.live.map (·.name))) (shape : guard.Grammatical)
    (body : Simulates ops P exec s₁ t (Keeps s₁)) (after : Advances D Γ s₁ t) :
    Arm ops P (fun σ => guard.isElse || guard.holdsIn ops σ) exec s t skip? := by
  rw [Exp.code_exp, isTrue_eq_isElse] at choice
  rcases choice with ⟨always, rfl, rfl⟩ | ⟨sometimes, leave, emit, rfl⟩
  · simp only [always, Bool.true_or]
    exact .always body
  · simp only [sometimes, Bool.false_or]
    exact .guarded sound follows pure shape emit body after

end Head

/-- Arms that follow one another. After the one that is taken, control jumps to the end. -/
structure Arms (ops : Operators V) (P : Ending V → Machine V → Prop) (exec : Store V → Option (Outcome V)) (s t : Lowering)
    (ends ends' : Array Nat) : Prop where
  code : s.frame.code.toList <+: t.frame.code.toList
  constants : s.frame.constants.entries.toList <+: t.frame.constants.entries.toList
  adds : AddsBreaks (s.frame.pc ≤ ·) s.frame.scopes t.frame.scopes
  kept : ∀ pc ∈ ends, pc ∈ ends'
  new : ∀ pc ∈ ends', pc ∈ ends ∨ s.frame.pc ≤ pc ∧ pc ∉ loopBreaks t.frame.scopes
  runs : ∀ {p : Program} {exit : Nat}, p.Serves exit (Program.landing ends'.toList t.frame.pc) s.frame.pc t.frame →
    ∀ {σ R}, Held s.frame.live σ R → ∀ {r}, exec σ = some r → (r.broke = true → 0 < s.frame.loopDepth) ∧
      ∃ R', p.Passes ops P ⟨s.frame.pc, R⟩ r.endings ⟨if r.broke then exit else t.frame.pc, R'⟩ ∧ Keeps s r R'

theorem mem_elim_push {pc : Nat} : pc ∈ skip?.elim ends ends.push ↔ pc ∈ ends ∨ pc ∈ skip? := by
  cases skip? with
  | none => simp
  | some skip => simp [Array.mem_push, eq_comm]

theorem Arms.last (arm : Arm ops P taken exec s t skip?) (after : Advances D Γ s t) (early : ∀ pc ∈ ends, pc < s.frame.pc) :
    Arms ops P (fun σ => if taken σ then exec σ else some ⟨[], false, σ⟩) s t ends (skip?.elim ends ends.push) where
  code := after.frame.code
  constants := after.frame.constants
  adds := arm.adds
  kept pc member := mem_elim_push.mpr (.inl member)
  new pc member := by
    rcases mem_elim_push.mp member with old | skip
    · exact .inl old
    · obtain ⟨⟨above, _⟩, calm⟩ := arm.jumps pc skip
      exact .inr ⟨above, calm⟩
  runs {p exit} serves {σ R} held {r} run := by
    have only : Program.HangsOnly s t skip? (Program.landing (skip?.elim ends ends.push).toList t.frame.pc) := by
      rintro q _ ⟨member, _⟩ least
      rcases mem_elim_push.mp (Array.mem_toList_iff.mp member) with old | skip
      · have := early q old
        omega
      · exact .inl skip
    cases holds : taken σ with
    | true =>
      rw [holds] at run
      exact arm.enters serves only held holds run
    | false =>
      rw [holds] at run
      cases run
      obtain ⟨pc, skip, R', passes, held'⟩ := arm.skips serves only held holds
      have lands := serves.lands pc t.frame.pc ⟨Array.mem_toList_iff.mpr (mem_elim_push.mpr (.inr skip)), rfl⟩
        (arm.jumps pc skip).1.1
      exact ⟨fun broke => absurd broke Bool.false_ne_true, R', passes.trans (.ofJump lands), held'⟩

section More

variable {j : Instruction} (sound : Sound Γ s) (arm : Arm ops P taken exec s t skip?) (after : Advances D Γ s t)
  (early : ∀ pc ∈ ends, pc < s.frame.pc) (jump : j.opcode? = some .jmp)
  (patch : skip?.forM (fun pc => (Frame.patchHere pc : LowerM Unit)) (t.push j) = .ok v t₁)

def Program.hangsBehind (t : Lowering) (skip? : Option Nat) (ends : Array Nat) (done q target : Nat) : Prop :=
  landing (ends.push t.frame.pc).toList done q target ∨ landing skip?.toList (t.frame.pc + 1) q target

include early in
theorem Program.hangsOnly_behind (done : Nat) : HangsOnly s t skip? (hangsBehind t skip? ends done) := by
  rintro q _ (⟨member, _⟩ | ⟨member, _⟩) least
  · rcases Array.mem_push.mp (Array.mem_toList_iff.mp member) with old | rfl
    · have := early q old
      omega
    · exact .inr Nat.le.refl
  · exact .inl (Option.mem_toList.mp member)

include arm after jump patch in
theorem Arm.landed : t₁.frame.scopes = t.frame.scopes ∧ t₁.frame.pc = t.frame.pc + 1 ∧ Advances D Γ s t₁ := by
  have pushed : Advances D Γ t (t.push j) := (Advances.refl after.sound).pushed (by simp [jump])
  have skips : ∀ pc ∈ skip?.toList, JumpAt s (t.push j) pc := fun pc member =>
    (arm.jumps pc (Option.mem_toList.mp member)).1.advance pushed
  rw [forM_option_eq] at patch
  obtain ⟨scopes, pc⟩ := patchHeres_same patch
  exact ⟨scopes, pc.trans (Frame.push_pc ..), patchHeres_advances (after.trans pushed) skips patch⟩

include arm after early jump patch in
theorem Arms.serves_behind (more : Arms ops P rest t₁ u (ends.push t.frame.pc) ends') {p : Program} {exit : Nat}
    (serves : p.Serves exit (Program.landing ends'.toList u.frame.pc) s.frame.pc u.frame) :
    p.Serves exit (Program.hangsBehind t skip? ends u.frame.pc) s.frame.pc (t.push j).frame := by
  have pushed : Advances D Γ t (t.push j) := (Advances.refl after.sound).pushed (by simp [jump])
  rw [forM_option_eq] at patch
  have size := (patchHeres_same patch).2
  rw [push_frame, Frame.push_pc] at size
  have first : p.Serves exit (Program.landing (ends.push t.frame.pc).toList u.frame.pc) s.frame.pc t₁.frame := by
    refine serves.earlier more.code more.constants more.adds ?_ ?_
    · rintro q _ ⟨member, same⟩ before
      rcases more.new q (Array.mem_toList_iff.mp member) with old | ⟨above, _⟩
      · exact ⟨Array.mem_toList_iff.mpr old, same⟩
      · omega
    · rintro q _ ⟨member, same⟩
      exact ⟨Array.mem_toList_iff.mpr (more.kept q (Array.mem_toList_iff.mp member)), same⟩
  have hung := patchHeres_serves (fun pc member => (arm.jumps pc (Option.mem_toList.mp member)).1.advance pushed)
    (fun pc member => (arm.jumps pc (Option.mem_toList.mp member)).2) patch first fun q member target hangs => ?_
  · rwa [push_frame, Frame.push_pc] at hung
  obtain ⟨⟨above, i, there, _⟩, _⟩ := arm.jumps q (Option.mem_toList.mp member)
  have inside : q < t.frame.pc := lt_of_getElem? there
  rcases Array.mem_push.mp (Array.mem_toList_iff.mp hangs.1) with old | rfl
  · have := early q old
    omega
  · omega

include sound arm after early jump patch in
theorem Arms.cons (more : Arms ops P rest t₁ u (ends.push t.frame.pc) ends') :
    Arms ops P (fun σ => if taken σ then exec σ else rest σ) s u ends ends' := by
  obtain ⟨scopes, size, landed⟩ := arm.landed after jump patch
  have marked := landed.marked sound
  have middle : s.frame.pc ≤ t.frame.pc := after.frame.pc_le
  have depth : t₁.frame.loopDepth = s.frame.loopDepth := by
    rw [Frame.loopDepth, scopes]
    exact arm.adds.loops
  refine ⟨landed.frame.code.trans more.code, landed.frame.constants.trans more.constants, ?_, fun pc member => ?_,
    fun q member => ?_, fun {p exit} serves {σ R} held {r} run => ?_⟩
  · exact arm.adds.trans (scopes ▸ more.adds) fun _ => Nat.le_trans (by omega)
  · exact more.kept pc (Array.mem_push.mpr (.inl member))
  · rcases more.new q member with old | ⟨above, calm⟩
    · rcases Array.mem_push.mp old with older | rfl
      · exact .inl older
      · refine .inr ⟨middle, fun listed => ?_⟩
        rcases more.adds.backward listed with before | since
        · exact Nat.lt_irrefl _ (after.sound.frame.loopBreaks_lt (scopes ▸ before))
        · omega
    · exact .inr ⟨by omega, calm⟩
  · have hung := Arms.serves_behind arm after early jump patch more serves
    have only : Program.HangsOnly s t skip? (Program.hangsBehind t skip? ends u.frame.pc) := Program.hangsOnly_behind early _
    cases holds : taken σ with
    | true =>
      rw [holds] at run
      obtain ⟨inLoop, R', passes, held'⟩ := arm.enters hung.before only held holds run
      have lands := hung.lands t.frame.pc u.frame.pc
        (.inl ⟨Array.mem_toList_iff.mpr (Array.mem_push.mpr (.inr rfl)), rfl⟩) middle
      exact ⟨inLoop, R', passes.unlessBroken (.ofJump lands), held'⟩
    | false =>
      rw [holds] at run
      obtain ⟨pc, skip, R₁, skipped, held₁⟩ := arm.skips hung.before only held holds
      have lands := hung.lands pc (t.frame.pc + 1) (.inr ⟨Option.mem_toList.mpr skip, rfl⟩) (arm.jumps pc skip).1.1
      obtain ⟨inLoop, R₂, passes, held₂⟩ := more.runs (serves.narrow (by omega)) (held₁.remarked marked) run
      rw [size] at passes
      refine ⟨fun broke => depth ▸ inLoop broke, R₂, ?_, held₂.marked marked⟩
      exact skipped.trans ((Program.Passes.ofJump lands).trans passes)

end More

theorem Simulates.ofArms (arms : Arms ops P exec s t #[] ends') (jumps : ∀ pc ∈ ends', JumpAt s t pc)
    (run : ends'.toList.forM (fun pc => (Frame.patchHere pc : LowerM Unit)) t = .ok v u) :
    Simulates ops P exec s u (Keeps s) := by
  obtain ⟨scopes, size⟩ := patchHeres_same run
  refine ⟨scopes ▸ arms.adds, fun {p exit} serves {σ R} held {r} done => ?_⟩
  have hung := patchHeres_serves (fun pc member => jumps pc (Array.mem_toList_iff.mp member))
    (fun pc member => ((arms.new pc (Array.mem_toList_iff.mp member)).resolve_left (Array.not_mem_empty pc)).2) run serves
    fun _ _ _ => id
  rw [size]
  exact arms.runs (hung.rehung fun q target => or_iff_right id) held done

end LuaBytecode
