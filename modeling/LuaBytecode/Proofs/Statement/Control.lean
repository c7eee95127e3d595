import LuaBytecode.Proofs.Statement.Landing

namespace LuaBytecode

open Lowering

variable {V : Type} {ops : Operators V} {P : Ending V → Machine V → Prop} {D : FunctionDef → Prop} {Γ Γ' : Scopes}
  {s s₁ t u : Lowering} {p : Program} {exit : Nat} {v : Unit} {exec : Store V → Option (Outcome V)} {σ : Store V}
  {R : Nat → V}

theorem Lowering.Ready.names (ready : Ready Γ s) : s.frame.live.map (·.name) = Γ.headD [] := by
  obtain ⟨names, outer, rfl⟩ := ready.exists_cons
  exact ready.1

theorem Lowering.Advances.marked (sound : Sound Γ s) (h : Advances D Γ s t) : MarkedAll s.frame.live t.frame.live := by
  obtain ⟨new, old, whole, marked, _⟩ := h.frame.live
  have names := congrArg List.length (h.sound.ready.names.trans sound.ready.names.symm)
  have count := marked.length_eq
  rw [List.length_map, List.length_map, whole, List.length_append] at names
  have none : new = [] := List.eq_nil_of_length_eq_zero (by omega)
  rw [whole, none]
  exact marked

theorem Held.outer (reaches : s.frame.Reaches D t.frame) (held : Held t.frame.live σ R) :
    ∃ inner outer, σ = inner ++ outer ∧ Held s.frame.live outer R := by
  obtain ⟨new, old, whole, marked, _⟩ := reaches.live
  rw [whole] at held
  obtain ⟨inner, outer, same, _, rest⟩ := held.split
  exact ⟨inner, outer, same, rest.marked marked⟩

structure Ends (s t : Lowering) (r : Outcome V) (R : Nat → V) : Prop where
  outer : ∃ inner outer, r.store = inner ++ outer ∧ Held s.frame.live outer R
  all : r.broke = false → Held t.frame.live r.store R

theorem Ends.leave {r : Outcome V} {R' : Nat → V} (h : Ends s t r R') (held : Held s.frame.live σ R) :
    Held s.frame.live (r.leave σ.length).store R' := by
  obtain ⟨inner, outer, same, rest⟩ := h.outer
  have count : outer.length = σ.length := rest.length_eq.symm.trans held.length_eq
  rw [Outcome.leave, same, ← count, Store.keep_append]
  exact rest

/-- The code between two states does what the source does, in any program that has it and lands its jumps. -/
structure Simulates (ops : Operators V) (P : Ending V → Machine V → Prop) (exec : Store V → Option (Outcome V))
    (s t : Lowering) (final : Outcome V → (Nat → V) → Prop) : Prop where
  adds : AddsBreaks (s.frame.pc ≤ ·) s.frame.scopes t.frame.scopes
  runs : ∀ {p : Program} {exit : Nat}, p.Serves exit Program.settled s.frame.pc t.frame → ∀ {σ R}, Held s.frame.live σ R →
    ∀ {r}, exec σ = some r → (r.broke = true → 0 < s.frame.loopDepth) ∧
      ∃ R', p.Passes ops P ⟨s.frame.pc, R⟩ r.endings ⟨if r.broke then exit else t.frame.pc, R'⟩ ∧ final r R'

abbrev Keeps (s : Lowering) (r : Outcome V) (R : Nat → V) : Prop := Held s.frame.live r.store R

section Plain

theorem Simulates.plain {final : Outcome V → (Nat → V) → Prop} (sound : Sound Γ s) (steady : Steady D Γ' s t)
    (runs : ∀ p : Program, p.Includes t.frame s.frame.pc t.frame.pc → ∀ σ R, Held s.frame.live σ R → ∀ r, exec σ = some r →
      r.endings = [] ∧ r.broke = false ∧
        ∃ R', p.Runs ops s.frame.pc t.frame.pc ⟨s.frame.pc, R⟩ ⟨t.frame.pc, R'⟩ ∧ final r R') :
    Simulates ops P exec s t final where
  adds := steady.scopes ▸ .refl _
  runs {p exit} serves {σ R} held {r} done := by
    have early : ∀ pc ∈ loopBreaks t.frame.scopes, pc < s.frame.pc := fun pc member =>
      sound.frame.loopBreaks_lt (steady.scopes ▸ member)
    obtain ⟨none, normal, R', passes, ends⟩ := runs p (serves.includes early fun _ _ hangs => hangs.elim) σ R held r done
    rw [none, normal]
    exact ⟨fun broke => absurd broke Bool.false_ne_true, R', .ofRuns passes, ends⟩

theorem Simulates.broke (run : emitBreak s = .ok v t) :
    Simulates ops P (fun σ => some ⟨[], true, σ⟩) s t (Keeps s) := by
  obtain ⟨inLoop, i, _, _, rfl⟩ := emitBreak_lower run
  refine ⟨.pushBreak Nat.le.refl _, fun {p exit} serves {σ R} held {r} done => ?_⟩
  cases done
  have jumps := serves.breaks s.frame.pc (mem_loopBreaks_pushBreak inLoop _) Nat.le.refl
  exact ⟨fun _ => inLoop, R, .ofJump jumps, held⟩

end Plain

theorem Simulates.inScope (body : Advances D Γ' (s.enter false) t)
    (inside : Simulates ops P exec (s.enter false) t (Ends (s.enter false) t)) (foot : scopeFoot t = .ok v u) :
    Simulates ops P (fun σ => (exec σ).map (·.leave σ.length)) s u (Keeps s) := by
  obtain ⟨rest, opened, adds⟩ := inside.adds.ofBlock
  obtain ⟨scopes, leaves⟩ := scopeFoot_passes ops P body.sound opened foot
  refine ⟨scopes ▸ adds, fun {p exit} serves {σ R} held {r} done => ?_⟩
  obtain ⟨r', run, rfl⟩ := Option.map_eq_some_iff.mp done
  obtain ⟨before, after⟩ := leaves serves body.frame.pc_le fun _ => id
  obtain ⟨inLoop, R', passes, ends⟩ := inside.runs before held run
  exact ⟨inLoop, R', passes.unlessBroken (after R'), ends.leave held⟩

section Loops

variable {guard : Store V → Bool} {live : List Binding} {start inside done : Nat}

theorem whileLoop_passes
    (test : ∀ σ R, Held live σ R → ∃ R', p.Passes ops P ⟨start, R⟩ [] ⟨if guard σ then inside else done, R'⟩ ∧
      Held live σ R')
    (round : ∀ σ R, Held live σ R → ∀ r, exec σ = some r →
      ∃ R', p.Passes ops P ⟨inside, R⟩ r.endings ⟨if r.broke then done else start, R'⟩ ∧ Held live r.store R')
    (rounds : Nat) {r : Outcome V} (held : Held live σ R) (run : whileLoop exec guard rounds σ = some r) :
    r.broke = false ∧ ∃ R', p.Passes ops P ⟨start, R⟩ r.endings ⟨done, R'⟩ ∧ Held live r.store R' := by
  induction rounds generalizing σ R r with
  | zero => cases run
  | succ rounds ih =>
    obtain ⟨R₁, tested, held₁⟩ := test σ R held
    rw [whileLoop] at run
    cases holds : guard σ with
    | false =>
      rw [holds, if_neg (by decide)] at run tested
      cases run
      exact ⟨rfl, R₁, tested, held₁⟩
    | true =>
      rw [holds, if_pos rfl] at run tested
      obtain ⟨r₁, first, run⟩ := Option.bind_eq_some_iff.mp run
      obtain ⟨R₂, passes, held₂⟩ := round σ R₁ held₁ r₁ first
      cases broke : r₁.broke with
      | true =>
        rw [broke, if_pos rfl] at run passes
        cases run
        exact ⟨rfl, R₂, tested.trans passes, held₂⟩
      | false =>
        rw [broke, if_neg (by decide)] at run passes
        obtain ⟨r₂, later, rfl⟩ := Option.map_eq_some_iff.mp run
        obtain ⟨normal, R₃, rest, held₃⟩ := ih held₂ later
        exact ⟨normal, R₃, tested.trans (passes.trans rest), held₃⟩

theorem repeatLoop_passes
    (round : ∀ σ R, Held live σ R → ∀ r, exec σ = some r →
      ∃ R', p.Passes ops P ⟨start, R⟩ r.endings ⟨if r.broke || guard r.store then done else start, R'⟩ ∧
        Held live (r.leave σ.length).store R')
    (rounds : Nat) {r : Outcome V} (held : Held live σ R) (run : repeatLoop exec guard rounds σ = some r) :
    r.broke = false ∧ ∃ R', p.Passes ops P ⟨start, R⟩ r.endings ⟨done, R'⟩ ∧ Held live r.store R' := by
  induction rounds generalizing σ R r with
  | zero => cases run
  | succ rounds ih =>
    rw [repeatLoop] at run
    obtain ⟨r₁, first, run⟩ := Option.bind_eq_some_iff.mp run
    obtain ⟨R₁, passes, held₁⟩ := round σ R held r₁ first
    cases stops : r₁.broke || guard r₁.store with
    | true =>
      rw [stops, if_pos rfl] at run passes
      cases run
      exact ⟨rfl, R₁, passes, held₁⟩
    | false =>
      rw [stops, if_neg (by decide)] at run passes
      obtain ⟨r₂, later, rfl⟩ := Option.map_eq_some_iff.mp run
      obtain ⟨normal, R₂, rest, held₂⟩ := ih held₁ later
      exact ⟨normal, R₂, passes.trans rest, held₂⟩

end Loops

section Guards

variable {e : Exp} {leave : Nat}

theorem whileHead_lower {guard : ExpCode} {start : Nat} (run : whileHead guard s = .ok (start, leave) t) :
    start = s.frame.pc ∧ ∃ s₁, emitGuard guard s = .ok leave s₁ ∧ t = s₁.enter true := by
  replace run := bind_pc_ok run
  obtain ⟨leave', s₁, emit, run⟩ := bind_ok run
  obtain ⟨_, enter, same⟩ := bind_pure_ok run
  cases same
  exact ⟨rfl, s₁, emit, enterScope_lower enter⟩

theorem repeatTest_lower {guard : ExpCode} (run : repeatTest guard s = .ok v t) :
    ∃ a s₁ i, scratch guard.toRegister s = .ok a s₁ ∧ i.opcode? = some .test ∧ i.a = a ∧ i.c = 0 ∧ t = s₁.push i := by
  obtain ⟨a, s₁, load, run⟩ := bind_ok run
  obtain ⟨_, test, _⟩ := bind_pure_ok run
  obtain ⟨i, rfl, _, hop, ha, _, hc, _⟩ := emitAbc_lower test
  exact ⟨a, s₁, i, load, hop, ha, hc, rfl⟩

variable (ops P) in
theorem emitGuard_passes (sound : Sound Γ s) (pure : e.Pure (· ∈ s.frame.live.map (·.name))) (shape : e.Grammatical)
    (run : emitGuard e.code s = .ok leave t) : leave + 1 = t.frame.pc ∧
      ∀ {p : Program}, p.Includes t.frame s.frame.pc leave → ∀ {σ R}, Held s.frame.live σ R →
        ∃ R', p.Passes ops P ⟨s.frame.pc, R⟩ [] ⟨if e.holdsIn ops σ then t.frame.pc else leave, R'⟩ ∧
          Held s.frame.live σ R' := by
  obtain ⟨a, t₀, i, j, load, hop, ha, hc, _, _, rfl, rfl⟩ := emitGuard_lower run
  refine ⟨by simp, fun {p} includes {σ R} held => ?_⟩
  have before : p.Includes (t₀.frame.push i) s.frame.pc (t₀.frame.pc + 1) := includes.earlier (.ofPush j) (by simp)
  obtain ⟨R', runs, held'⟩ := test_runs sound pure shape load hop ha hc before held
  refine ⟨R', ?_, held'⟩
  simpa using Program.Passes.ofRuns runs

end Guards

def Program.hangsAt (pc target : Nat) (q target' : Nat) : Prop := Program.settled q target' ∨ q = pc ∧ target' = target

theorem Program.hangsAt.pc_eq {pc target q target' : Nat} (h : Program.hangsAt pc target q target') : q = pc := by
  rcases h with none | ⟨same, _⟩
  · exact none.elim
  · exact same

section While

variable {leave : Nat} {pcs : Array Nat} {i : Instruction}

variable (ops P) in
theorem whileFoot_passes (sound : Sound Γ s) (steady : Steady D Γ s s₁) (above : s.frame.pc ≤ leave)
    (there : s₁.frame.code[leave]? = some i) (jump : i.opcode? = some .jmp) (body : Advances D Γ' (s₁.enter true) t)
    (tail : Γ'.tail = Γ.tail) (opened : t.frame.scopes = some pcs :: s₁.frame.scopes) (late : ∀ q ∈ pcs, s₁.frame.pc ≤ q)
    (foot : whileFoot s.frame.pc leave t = .ok v u) : u.frame.scopes = s.frame.scopes ∧
      ∀ {p : Program} {exit : Nat}, p.Serves exit Program.settled s.frame.pc u.frame →
        p.Serves u.frame.pc (Program.hangsAt leave u.frame.pc) s.frame.pc t.frame ∧
          ∀ R, p.Passes ops P ⟨t.frame.pc, R⟩ [] ⟨s.frame.pc, R⟩ := by
  obtain ⟨t₁, s₂, j, close, hop, _, offset, exits, patch⟩ := whileFoot_lower foot
  have closes := (body.closed close).1
  have plain : j.opcode? ≠ some .closure := by simp [hop]
  have pushed := closes.pushed plain
  have left : Advances D Γ s₁ s₂ := .ofExit steady.sound pushed.toInside pushed.depth tail (.pushed plain) exits
  obtain ⟨j', rfl, hop', _, offset'⟩ := patchHere_lower (left.code_at there) jump patch
  obtain ⟨scopes, pc⟩ := exitScope_scopes pushed.sound exits
  obtain ⟨f, leaves, rfl⟩ := lift_ok exits
  have opened₁ : (t₁.push j).frame.scopes = some pcs :: s₁.frame.scopes := (closeCaptured_scopes close).trans opened
  have outer : f.scopes = s.frame.scopes := by
    rw [← steady.scopes]
    exact scopes.trans (by rw [opened₁, List.tail_cons])
  have early : ∀ q ∈ loopBreaks s.frame.scopes, q < s.frame.pc := fun q member => sound.frame.loopBreaks_lt member
  have before : leave < s₁.frame.pc := lt_of_getElem? there
  have first : s.frame.pc ≤ s₁.frame.pc := steady.frame.pc_le
  have second : s₁.frame.pc ≤ t.frame.pc := body.frame.pc_le
  have third : t.frame.pc ≤ t₁.frame.pc := ((Advances.refl (D := D) body.sound).closed close).1.frame.pc_le
  have last : f.pc = t₁.frame.pc + 1 := pc.trans (Frame.push_pc ..)
  refine ⟨outer, fun {p exit} serves => ?_⟩
  rw [replace_frame, Frame.replace_pc]
  have hung : p.Serves exit (Program.hangsAt leave f.pc) s.frame.pc f := by
    refine serves.unpatched hop' offset' (show leave < f.pc by omega) (fun member => ?_) fun _ hangs => hangs.elim
    have := early leave (outer ▸ member)
    omega
  have looped := hung.ofLoop pushed.sound.ready.stack pushed.sound.frame leaves opened₁ (steady.scopes ▸ early)
    fun q _ hangs member => by
      have := late q member
      have := hangs.pc_eq
      omega
  have calm : ∀ q target, t.frame.pc ≤ q → ¬Program.hangsAt leave f.pc q target := fun q _ least hangs => by
    have := hangs.pc_eq
    omega
  have back : p.JumpsTo t₁.frame.pc s.frame.pc :=
    ⟨j, looped.pushed (by omega) closes.sound.frame fun target => calm _ target third, hop, offset⟩
  obtain ⟨served, closing⟩ := closeCaptured_passes ops P body.sound.frame close looped.before (by omega)
    fun target => calm _ target Nat.le.refl
  exact ⟨served, fun R => (closing R).trans (.ofJump back)⟩

theorem Simulates.whileDo {guard : Exp} (rounds : Nat) (sound : Sound Γ s) (follows : guard.code.Follows D Γ guard.code)
    (pure : guard.Pure (· ∈ s.frame.live.map (·.name))) (shape : guard.Grammatical)
    (head : emitGuard guard.code s = .ok leave s₁) (body : Advances D Γ' (s₁.enter true) t) (tail : Γ'.tail = Γ.tail)
    (inside : Simulates ops P exec (s₁.enter true) t (Ends (s₁.enter true) t))
    (foot : whileFoot s.frame.pc leave t = .ok v u) :
    Simulates ops P (whileLoop (fun σ => (exec σ).map (·.leave σ.length)) (guard.holdsIn ops) rounds) s u (Keeps s) := by
  obtain ⟨steady, above, i, there, jump⟩ := (emitGuard_tracks follows sound _ _ head).2
  obtain ⟨next, test⟩ := emitGuard_passes ops P sound pure shape head
  obtain ⟨pcs, opened, late⟩ := inside.adds.ofLoop
  rw [enter_frame, Frame.enter_pc] at late
  obtain ⟨scopes, foot⟩ := whileFoot_passes ops P sound steady above there jump body tail opened late foot
  refine ⟨scopes ▸ .refl _, fun {p exit} serves {σ R} held {r} done => ?_⟩
  obtain ⟨served, back⟩ := foot serves
  have marked := steady.marked sound
  have includes : p.Includes s₁.frame s.frame.pc leave := by
    refine served.first body.frame.code body.frame.constants (by omega) (fun q member _ => ?_) fun q _ hangs _ => ?_
    · rw [opened] at member
      have := late q (Array.mem_toList_iff.mp member)
      omega
    · exact Nat.le_of_eq hangs.pc_eq.symm
  have around : p.Serves u.frame.pc Program.settled s₁.frame.pc t.frame :=
    (served.narrow steady.frame.pc_le).settled fun q _ hangs => .inl (by have := hangs.pc_eq; omega)
  have leaves : p.JumpsTo leave u.frame.pc := served.lands leave _ (.inr ⟨rfl, rfl⟩) above
  have tests : ∀ σ R, Held s.frame.live σ R → ∃ R', p.Passes ops P ⟨s.frame.pc, R⟩ []
      ⟨if guard.holdsIn ops σ then s₁.frame.pc else u.frame.pc, R'⟩ ∧ Held s.frame.live σ R' := by
    intro σ R held
    obtain ⟨R', tested, held'⟩ := test includes held
    refine ⟨R', ?_, held'⟩
    cases holds : guard.holdsIn ops σ with
    | true => rwa [holds] at tested
    | false =>
      rw [holds] at tested
      exact tested.trans (.ofJump leaves)
  have round : ∀ σ R, Held s.frame.live σ R → ∀ r, (exec σ).map (·.leave σ.length) = some r → ∃ R',
      p.Passes ops P ⟨s₁.frame.pc, R⟩ r.endings ⟨if r.broke then u.frame.pc else s.frame.pc, R'⟩ ∧
        Held s.frame.live r.store R' := by
    intro σ R held r run
    obtain ⟨r', ran, rfl⟩ := Option.map_eq_some_iff.mp run
    have held₁ : Held (s₁.enter true).frame.live σ R := held.remarked marked
    obtain ⟨_, R', passes, ends⟩ := inside.runs around held₁ ran
    exact ⟨R', passes.unlessBroken (back R'), (ends.leave held₁).marked marked⟩
  obtain ⟨normal, R', passes, held'⟩ := whileLoop_passes tests round rounds held done
  rw [normal]
  exact ⟨fun broke => absurd broke Bool.false_ne_true, R', passes, held'⟩

end While

section Repeat

variable {w : Lowering} {pcs : Array Nat}

variable (ops P) in
theorem repeatFoot_passes (sound : Sound Γ s) (body : Advances D Γ' (s.enter true) t)
    (opened : t.frame.scopes = some pcs :: s.frame.scopes) (foot : repeatFoot s.frame.pc t = .ok v u) :
    u.frame.scopes = s.frame.scopes ∧
      ∀ {p : Program} {exit : Nat}, p.Serves exit Program.settled s.frame.pc u.frame →
        p.Serves u.frame.pc Program.settled s.frame.pc t.frame ∧ p.JumpsTo t.frame.pc s.frame.pc ∧
          ∀ R, p.Passes ops P ⟨t.frame.pc + 1, R⟩ [] ⟨u.frame.pc, R⟩ := by
  obtain ⟨j, hop, _, offset, _, foot⟩ := repeatFoot_lower foot
  have pushed := body.pushed (i := j) (by simp [hop])
  obtain ⟨t₁, close, exits⟩ := scopeFoot_lower foot
  have closes := (pushed.closed close).1
  have opened₁ : t₁.frame.scopes = some pcs :: s.frame.scopes := (closeCaptured_scopes close).trans opened
  obtain ⟨scopes, pc⟩ := exitScope_scopes closes.sound exits
  obtain ⟨f, leaves, rfl⟩ := lift_ok exits
  have later : s.frame.pc ≤ t.frame.pc := body.frame.pc_le
  refine ⟨by rw [scopes, opened₁, List.tail_cons], fun {p exit} serves => ?_⟩
  have looped := serves.ofLoop closes.sound.ready.stack closes.sound.frame leaves opened₁
    (fun q member => sound.frame.loopBreaks_lt member) fun _ _ hangs => hangs.elim
  obtain ⟨served, closing⟩ := closeCaptured_passes ops P pushed.sound.frame close looped
    (by rw [push_frame, Frame.push_pc]; omega) fun _ => id
  refine ⟨served.before, ⟨j, served.pushed later body.sound.frame fun _ => id, hop, offset⟩, fun R => ?_⟩
  have next := closing R
  rw [push_frame, Frame.push_pc] at next
  exact pc ▸ next

theorem Simulates.repeatUntil {guard : Exp} (rounds : Nat) (sound : Sound Γ s) (body : Advances D Γ' (s.enter true) t)
    (follows : guard.code.Follows D Γ' guard.code) (pure : guard.Pure (· ∈ t.frame.live.map (·.name)))
    (shape : guard.Grammatical) (inside : Simulates ops P exec (s.enter true) t (Ends (s.enter true) t))
    (test : repeatTest guard.code t = .ok v w) (foot : repeatFoot s.frame.pc w = .ok v u) :
    Simulates ops P (repeatLoop exec (guard.holdsIn ops) rounds) s u (Keeps s) := by
  have steady := (repeatTest_tracks follows body.sound _ _ test).2
  obtain ⟨a, t₁, i, load, hop, ha, hc, rfl⟩ := repeatTest_lower test
  obtain ⟨pcs, opened, _⟩ := inside.adds.ofLoop
  obtain ⟨scopes, foot⟩ :=
    repeatFoot_passes ops P sound (body.trans steady.toAdvances) (steady.scopes.trans opened) foot
  refine ⟨scopes ▸ .refl _, fun {p exit} serves {σ R} held {r} done => ?_⟩
  obtain ⟨served, back, on⟩ := foot serves
  have around : p.Serves u.frame.pc Program.settled s.frame.pc t.frame :=
    served.earlier steady.frame.code steady.frame.constants (steady.scopes ▸ .refl _) (fun _ _ hangs _ => hangs)
      fun _ _ hangs => hangs
  have includes : p.Includes (t₁.push i).frame t.frame.pc (t₁.push i).frame.pc := by
    refine (served.narrow body.frame.pc_le).includes (fun q member => ?_) fun _ _ hangs => hangs.elim
    exact body.sound.frame.loopBreaks_lt (steady.scopes ▸ member)
  rw [push_frame, Frame.push_pc] at back on includes
  have round : ∀ σ R, Held s.frame.live σ R → ∀ r, exec σ = some r → ∃ R', p.Passes ops P ⟨s.frame.pc, R⟩ r.endings
      ⟨if r.broke || guard.holdsIn ops r.store then u.frame.pc else s.frame.pc, R'⟩ ∧
        Held s.frame.live (r.leave σ.length).store R' := by
    intro σ R held r run
    obtain ⟨_, R₁, passes, ends⟩ := inside.runs around held run
    cases broke : r.broke with
    | true =>
      rw [broke] at passes
      exact ⟨R₁, passes, ends.leave held⟩
    | false =>
      rw [broke] at passes
      obtain ⟨R₂, tests, held₂⟩ := test_runs body.sound pure shape load hop ha hc includes (ends.all broke)
      have ended : Ends (s.enter true) t r R₂ := ⟨held₂.outer body.frame, fun _ => held₂⟩
      refine ⟨R₂, ?_, ended.leave held⟩
      have whole := passes.trans (.ofRuns tests)
      rw [List.append_nil] at whole
      rw [Bool.false_or]
      cases holds : guard.holdsIn ops r.store with
      | true =>
        rw [holds] at whole
        simpa using whole.trans (on R₂)
      | false =>
        rw [holds] at whole
        simpa using whole.trans (.ofJump back)
  obtain ⟨normal, R', passes, held'⟩ := repeatLoop_passes round rounds held done
  rw [normal]
  exact ⟨fun broke => absurd broke Bool.false_ne_true, R', passes, held'⟩

end Repeat

end LuaBytecode
