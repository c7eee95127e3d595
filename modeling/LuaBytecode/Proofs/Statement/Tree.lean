import LuaBytecode.Proofs.Statement.Arms

namespace LuaBytecode

open Lowering

/-- The statement was lowered somewhere in the block. When it ends, each variable that is then in scope has its value in
    its register, and unless there was a break the machine is at the end of its code. -/
def Ending.Reached {V : Type} (root : Block) (origin : Lowering) (e : Ending V) (m : Machine V) : Prop :=
  ∃ v w, Block.Visits root origin e.kind v ∧ e.kind.code v = .ok () w ∧ Held w.frame.live e.store m.registers ∧
    (e.broke = false → m.pc = w.frame.pc)

def Block.Within (root : Block) (origin : Lowering) (block : Block) (s : Lowering) : Prop :=
  ∀ ⦃kind v⦄, Block.Visits block s kind v → Block.Visits root origin kind v

theorem Block.scopes_headD (names : List String) (outer : Scopes) (block : Block) :
    (Block.scopes (names :: outer) block).headD [] = (Block.scopes [names] block).headD [] := by
  induction block generalizing names with
  | nil => rfl
  | cons stat rest ih => exact ih _

variable {V : Type} {ops : Operators V} {P : Ending V → Machine V → Prop} {D : FunctionDef → Prop} {Γ Γ' : Scopes}
  {s t u : Lowering} {exec : Store V → Option (Outcome V)} {root : Block} {origin : Lowering} {rounds : Nat}

theorem Simulates.settle (h : Simulates ops P exec s t (Keeps s)) (sound : Sound Γ s) (advances : Advances D Γ s t) :
    Simulates ops P exec s t fun r R => Held t.frame.live r.store R where
  adds := h.adds
  runs serves _ _ held _ done := by
    obtain ⟨inLoop, R', passes, held'⟩ := h.runs serves held done
    exact ⟨inLoop, R', passes, held'.remarked (advances.marked sound)⟩

theorem Ends.ofLater {r : Outcome V} {R : Nat → V} (h : Ends s t r R) (reaches : u.frame.Reaches D s.frame) :
    Ends u t r R := by
  obtain ⟨inner, outer, same, held⟩ := h.outer
  obtain ⟨inner', outer', rfl, held'⟩ := held.outer reaches
  exact ⟨⟨inner ++ inner', outer', by rw [same, List.append_assoc], held'⟩, h.all⟩

theorem StatKind.stays {kind : StatKind} (shape : kind.Shaped D) (none : kind.declared = []) (sound : Sound Γ s)
    (run : kind.code s = .ok () t) : Advances D Γ s t := by
  have advances := (StatKind.code_tracks shape Γ sound _ _ run).2
  rwa [none, show Γ.declare [] = Γ by cases Γ <;> rfl] at advances

theorem Lowering.Ready.declared (ready : Ready Γ s) (names : List String) :
    (Γ.declare names).headD [] = names.reverse ++ Γ.headD [] := by
  obtain ⟨_, _, rfl⟩ := ready.exists_cons
  rfl

theorem Lowering.Ready.scopes (ready : Ready Γ s) (block : Block) :
    (Block.scopes [Γ.headD []] block).headD [] = (Block.scopes Γ block).headD [] := by
  obtain ⟨names, outer, rfl⟩ := ready.exists_cons
  exact (Block.scopes_headD names outer block).symm

theorem Simulates.andThen {kind : StatKind} {rest : Store V → Option (Outcome V)}
    (head : Simulates ops P exec s t fun r R => Held t.frame.live r.store R) (tail : Simulates ops P rest t u (Ends t u))
    (before : s.frame.Reaches D t.frame) (after : t.frame.Reaches D u.frame)
    (note : ∀ {b σ m}, Held t.frame.live σ m.registers → (b = false → m.pc = t.frame.pc) → P ⟨kind, b, σ⟩ m) :
    Simulates ops P (fun σ => ((exec σ).map (·.note kind)).bind fun r =>
      if r.broke then some r else (rest r.store).map (·.after r.endings)) s u (Ends s u) := by
  refine ⟨head.adds.trans tail.adds fun _ => Nat.le_trans before.pc_le, fun {p exit} serves {σ R} held {r} run => ?_⟩
  obtain ⟨_, first, run⟩ := Option.bind_eq_some_iff.mp run
  obtain ⟨r₁, ran, rfl⟩ := Option.map_eq_some_iff.mp first
  have served := serves.earlier after.code after.constants tail.adds (fun _ _ hangs _ => hangs) fun _ _ hangs => hangs
  obtain ⟨inLoop, R₁, passes, held₁⟩ := head.runs served held ran
  have ended : P ⟨kind, r₁.broke, r₁.store⟩ ⟨if r₁.broke then exit else t.frame.pc, R₁⟩ :=
    note held₁ fun normal => by rw [normal]; rfl
  have noted := passes.trans (.note ended (.refl _))
  cases broke : r₁.broke with
  | true =>
    rw [show (r₁.note kind).broke = true from broke, if_pos rfl] at run
    cases run
    refine ⟨inLoop, R₁, ?_, held₁.outer before, fun normal => absurd (broke.symm.trans normal) (by decide)⟩
    show p.Passes ops P _ (r₁.endings ++ [⟨kind, r₁.broke, r₁.store⟩]) ⟨if r₁.broke then exit else u.frame.pc, R₁⟩
    rw [broke] at noted ⊢
    exact noted
  | false =>
    rw [show (r₁.note kind).broke = false from broke, if_neg (by decide)] at run
    obtain ⟨r₂, later, rfl⟩ := Option.map_eq_some_iff.mp run
    obtain ⟨inLoop₂, R₂, passes₂, ends⟩ := tail.runs (serves.narrow before.pc_le) held₁ later
    have ends' := ends.ofLater before
    refine ⟨fun broke' => ?_, R₂, ?_, ends'.outer, ends'.all⟩
    · have inLoop' := inLoop₂ broke'
      rwa [Frame.loopDepth, head.adds.loops] at inLoop'
    · show p.Passes ops P _ ((r₁.endings ++ [⟨kind, r₁.broke, r₁.store⟩]) ++ r₂.endings)
        ⟨if r₂.broke then exit else u.frame.pc, R₂⟩
      rw [broke] at noted ⊢
      exact noted.trans passes₂

mutual

theorem StatKind.simulates : (kind : StatKind) → kind.Grammatical → ∀ {Γ s t}, Sound Γ s → kind.Local (Γ.headD []) →
    kind.code s = .ok () t → (∀ {body w}, kind.Opens s body w → Block.Within root origin body w) →
    Simulates ops (Ending.Reached root origin) (kind.exec ops rounds) s t fun r R => Held t.frame.live r.store R
  | .empty, _, Γ, s, t, sound, _, run, _ => by
    rw [StatKind.code] at run
    obtain ⟨_, rfl⟩ := pure_ok run
    refine .plain sound (Steady.refl (D := fun _ => True) sound) fun p _ σ R held r done => ?_
    rw [StatKind.exec] at done
    cases done
    exact ⟨rfl, rfl, R, .refl _, held⟩
  | .breakLoop, shape, Γ, s, t, sound, _, run, _ => by
    have jumps : Simulates ops (Ending.Reached root origin) (fun σ => some ⟨[], true, σ⟩) s t (Keeps s) := by
      rw [StatKind.code] at run
      exact .broke run
    exact jumps.settle sound (StatKind.stays shape rfl sound run)
  | .localDecl names exps, .localDecl _ identifiers he, Γ, s, t, sound, pure, run, _ => by
    rw [StatKind.code, Exp.codes_eq] at run
    have tracks := SteadyTracks.emitLocals (fun x member => (identifiers x member).visible) (Exp.codes_follow he Γ)
    refine .plain sound (tracks sound _ _ run).2 fun p includes σ R held r done => ?_
    rw [StatKind.exec] at done
    cases done
    obtain ⟨R', runs, held'⟩ := emitLocals_runs sound (by rwa [sound.ready.names]) he run includes held
    exact ⟨rfl, rfl, R', runs, held'⟩
  | .assign targets exps, .assign nonempty vars ht values he, Γ, s, t, sound, ⟨bound, pure⟩, run, _ => by
    have stays := StatKind.stays (.assign nonempty vars ht values he) rfl sound run
    rw [StatKind.code, Exp.codes_eq, Exp.codes_eq] at run
    have tracks := SteadyTracks.emitAssign (Exp.codes_follow ht Γ) (Exp.codes_follow he Γ)
    refine Simulates.settle (.plain sound (tracks sound _ _ run).2 fun p includes σ R held r done => ?_) sound stays
    rw [StatKind.exec] at done
    obtain ⟨names, known, rfl⟩ := Option.map_eq_some_iff.mp done
    cases Exp.names_of_variables known
    rw [List.map_map] at run
    have live : ∀ x ∈ names, x ∈ s.frame.live.map (·.name) := fun x member => by
      obtain ⟨y, listed, same⟩ := bound (.name x) (List.mem_map_of_mem member)
      cases same
      rwa [sound.ready.names]
    obtain ⟨R', runs, held'⟩ := emitAssign_runs sound live (by rwa [sound.ready.names]) he run includes held
    exact ⟨rfl, rfl, R', runs, held'⟩
  | .doBlock body, .doBlock hb, Γ, s, t, sound, inside, run, within => by
    rw [StatKind.code, inScope_eq] at run
    obtain ⟨_, _, enter, run⟩ := bind_ok run
    cases enterScope_lower enter
    obtain ⟨_, u, lowered, foot⟩ := bind_ok run
    have entered := sound.entered false
    have advances := (Block.code_tracks hb Γ entered _ _ lowered).2
    have body' := Block.simulates body hb entered inside lowered (within ⟨rfl, rfl⟩)
    exact (body'.inScope advances foot).settle sound (scopeFoot_advances sound advances (Block.scopes_tail Γ body) foot)
  | .whileDo guard body, .whileDo hg hb, Γ, s, t, sound, ⟨pure, inside⟩, run, within => by
    have stays := StatKind.stays (.whileDo hg hb) rfl sound run
    rw [StatKind.code, emitWhile_eq] at run
    obtain ⟨⟨start, leave⟩, _, head, run⟩ := bind_ok run
    obtain ⟨_, u, lowered, foot⟩ := bind_ok run
    have opens := within ⟨rfl, _, head⟩
    obtain ⟨rfl, s₁, emit, rfl⟩ := whileHead_lower head
    have follows := Exp.code_follows hg Γ
    have entered := (emitGuard_tracks follows sound _ _ emit).2.1.sound.entered true
    have advances := (Block.code_tracks hb Γ entered _ _ lowered).2
    have body' := Block.simulates body hb entered inside lowered opens
    rw [← sound.ready.names] at pure
    have loop := Simulates.whileDo rounds sound follows pure hg emit advances (Block.scopes_tail Γ body) body' foot
    exact loop.settle sound stays
  | .repeatUntil body guard, .repeatUntil hb hg, Γ, s, t, sound, ⟨inside, pure⟩, run, within => by
    have stays := StatKind.stays (.repeatUntil hb hg) rfl sound run
    rw [StatKind.code, emitRepeat_eq] at run
    obtain ⟨start, s₁, head, run⟩ := bind_ok run
    obtain ⟨_, _, enter, read⟩ := bind_ok head
    cases enterScope_lower enter
    obtain ⟨rfl, rfl⟩ := pc_ok read
    obtain ⟨_, u, lowered, run⟩ := bind_ok run
    obtain ⟨_, w, test, foot⟩ := bind_ok run
    have entered := sound.entered true
    have advances := (Block.code_tracks hb Γ entered _ _ lowered).2
    have body' := Block.simulates body hb entered inside lowered (within ⟨rfl, rfl⟩)
    rw [sound.ready.scopes, ← advances.sound.ready.names] at pure
    exact (Simulates.repeatUntil rounds sound advances (Exp.code_follows hg _) pure hg body' test foot).settle sound stays
  | .ifThen guards blocks, .ifThen count nonempty hg hb, Γ, s, t, sound, ⟨pure, inside⟩, run, within => by
    have stays := StatKind.stays (.ifThen count nonempty hg hb) rfl sound run
    rw [StatKind.code, Exp.codes_eq, Block.codes_eq, List.reverse_nil, List.nil_append, List.reverse_nil,
      List.nil_append] at run
    obtain ⟨ends, u, arms, lands⟩ := bind_ok run
    have skips : ∀ pc ∈ (none : Option Nat), JumpAt s s pc := by simp
    have jumps : ∀ pc ∈ (#[] : Array Nat), JumpAt s s pc := by simp
    obtain ⟨_, jumps'⟩ := (StatTracks.emitArms (Exp.codes_follow hg Γ) (Block.bodies_track hb Γ) (.refl sound)
      skips jumps _ _ arms).2
    have some : blocks ≠ [] := fun none => nonempty (List.eq_nil_of_length_eq_zero (by rw [count, none]; rfl))
    obtain ⟨_, patch, arms'⟩ := Block.arms_simulate blocks hb guards hg count (.refl sound) skips
      (by simp) pure inside arms within some
    obtain ⟨_, rfl⟩ := pure_ok patch
    have list : ends.toList.forM (fun pc => (Frame.patchHere pc : LowerM Unit)) u = .ok () t := by
      rw [← List.forM_toArray, Array.toArray_toList]
      exact lands
    exact (Simulates.ofArms arms' jumps' list).settle sound stays
  | .label _, _, _, _, _, _, inside, _, _ | .goto _, _, _, _, _, _, inside, _, _
  | .localFunction .., _, _, _, _, _, inside, _, _ | .call .., _, _, _, _, _, inside, _, _
  | .ret _, _, _, _, _, _, inside, _, _ | .numericFor .., _, _, _, _, _, inside, _, _
  | .genericFor .., _, _, _, _, _, inside, _, _ => inside.elim

theorem Block.simulates : (block : List Stat) → Block.Grammatical block → ∀ {Γ s t}, Sound Γ s →
    Block.Local (Γ.headD []) block → Block.code block s = .ok () t → Block.Within root origin block s →
    Simulates ops (Ending.Reached root origin) (Block.exec ops rounds block) s t (Ends s t)
  | [], _, Γ, s, t, sound, _, run, _ => by
    rw [Block.code] at run
    obtain ⟨_, rfl⟩ := pure_ok run
    refine .plain sound (Steady.refl (D := fun _ => True) sound) fun p _ σ R held r done => ?_
    rw [Block.exec] at done
    cases done
    exact ⟨rfl, rfl, R, .refl _, ⟨[], σ, rfl, held⟩, fun _ => held⟩
  | .mk line kind :: rest, .cons hk _ hr, Γ, s, t, sound, ⟨first, later⟩, run, within => by
    rw [Block.code, Stat.code] at run
    obtain ⟨_, u, lowered, run⟩ := bind_ok run
    obtain ⟨_, s₁, lines, lowered⟩ := bind_ok lowered
    have steady := (SteadyTracks.setLine (D := fun _ => True) (Γ := Γ) line sound _ _ lines).2
    obtain ⟨f, sets, rfl⟩ := lift_ok lines
    cases sets
    have advances := (StatKind.code_tracks hk Γ steady.sound _ _ lowered).2
    have more := (Block.code_tracks hr _ advances.sound _ _ run).2
    have head := StatKind.simulates kind hk steady.sound first lowered fun opens _ _ visits => within (.inside opens visits)
    have tail := Block.simulates rest hr advances.sound (by rwa [sound.ready.declared]) run
      fun _ _ visits => within (.later lowered visits)
    exact Simulates.andThen ⟨head.adds, head.runs⟩ tail (steady.frame.trans advances.frame) more.frame
      fun held normal => ⟨_, u, within .here, lowered, held, normal⟩

theorem Block.arms_simulate : (bodies : List (List Stat)) → (∀ b ∈ bodies, Block.Grammatical b) → ∀ guards : List Exp,
    (∀ g ∈ guards, g.Grammatical) → guards.length = bodies.length → ∀ {Γ s t u skip? ends ends'},
    Advances (fun _ => True) Γ s t → (∀ pc ∈ skip?, JumpAt s t pc) → (∀ pc ∈ ends, pc < t.frame.pc) →
    (∀ g ∈ guards, g.Pure (· ∈ Γ.headD [])) → Block.AllLocal (Γ.headD []) bodies →
    emitArms (guards.map Exp.code) (bodies.map Block.code) skip? ends t = .ok ends' u →
    (∀ {body w}, Block.ArmOpens guards bodies skip? t body w → Block.Within root origin body w) → bodies ≠ [] →
    ∃ t₁, skip?.forM (fun pc => (Frame.patchHere pc : LowerM Unit)) t = .ok () t₁ ∧
      Arms ops (Ending.Reached root origin) (Block.execArms ops rounds guards bodies) t₁ u ends ends'
  | [], _, _, _, _, _, _, _, _, _, _, _, _, _, _, _, _, _, _, nonempty => absurd rfl nonempty
  | _ :: _, _, [], _, count, _, _, _, _, _, _, _, _, _, _, _, _, _, _, _ => nomatch count
  | body :: bodies, hb, guard :: guards, hg, count, Γ, s, t, u, skip?, ends, ends', advances, skips, early, pure,
    ⟨inside, others⟩, run, within, _ => by
    rw [List.map_cons, List.map_cons, emitArms_eq] at run
    obtain ⟨skip?', _, head, run⟩ := bind_ok run
    have opens := within ⟨_, _, head, .inl ⟨rfl, rfl⟩⟩
    obtain ⟨t₀, t₁, patch, choice, rfl⟩ := armHead_lower head
    have landed : Advances (fun _ => True) Γ s t₀ := by
      rw [forM_option_eq] at patch
      exact patchHeres_advances advances (fun pc member => skips pc (Option.mem_toList.mp member)) patch
    obtain ⟨_, t₂, lowered, run⟩ := bind_ok run
    obtain ⟨_, t₃, foot, run⟩ := bind_ok run
    have follows := Exp.code_follows (hg guard (.head _)) Γ
    have steady := armGuard_steady landed.sound follows choice
    have entered := steady.sound.entered false
    have shaped := hb body (.head _)
    have inner := (Block.code_tracks shaped Γ entered _ _ lowered).2
    have left := scopeFoot_advances steady.sound inner (Block.scopes_tail Γ body) foot
    have closed := (Block.simulates body shaped entered inside lowered opens).inScope inner foot
    have first := pure guard (.head _)
    rw [← landed.sound.ready.names] at first
    have arm := Arm.ofGuard landed.sound follows choice first (hg guard (.head _)) closed left
    have after := steady.toAdvances.trans left
    have before : ∀ pc ∈ ends, pc < t₀.frame.pc := by
      rw [forM_option_eq] at patch
      rwa [(patchHeres_same patch).2]
    refine ⟨t₀, patch, ?_⟩
    cases guards with
    | nil =>
      cases bodies with
      | nil =>
        obtain ⟨rfl, rfl⟩ := pure_ok run
        exact .last arm after before
      | cons => cases count
    | cons next guards =>
      rw [List.map_cons, List.isEmpty_cons, if_neg (by decide), ← List.map_cons] at run
      obtain ⟨leave, f, emit, run⟩ := bind_lift_ok run
      obtain ⟨j, built, rfl, rfl⟩ := Frame.emitAsbx_ok emit
      obtain ⟨hop, _⟩ := Instruction.asbx_ok built
      have pushed : Advances (fun _ => True) Γ t₃ (t₃.push j) := (Advances.refl left.sound).pushed (by simp [hop])
      have count' : (next :: guards).length = bodies.length := Nat.succ.inj count
      have ended : ∀ pc ∈ ends.push t₃.frame.pc, pc < (t₃.push j).frame.pc := fun pc member => by
        rw [push_frame, Frame.push_pc]
        have := after.frame.pc_le
        rcases Array.mem_push.mp member with old | rfl
        · have := before pc old
          omega
        · omega
      obtain ⟨t₄, patch', more⟩ := Block.arms_simulate bodies (fun b member => hb b (.tail _ member))
        (next :: guards) (fun g member => hg g (.tail _ member)) count' (after.trans pushed)
        (fun pc member => (arm.jumps pc member).1.advance pushed) ended
        (fun g member => pure g (.tail _ member)) others run
        (fun opens => within ⟨_, _, head, .inr ⟨_, _, _, _, lowered, foot, emit, opens⟩⟩)
        (List.ne_nil_of_length_pos (by rw [← count']; exact Nat.succ_pos _))
      exact .cons landed.sound arm after before hop patch' more

end

end LuaBytecode
