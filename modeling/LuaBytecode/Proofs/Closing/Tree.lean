import LuaBytecode.Proofs.Closing.Statements

namespace LuaBytecode

open Lowering

variable {D : FunctionDef → Prop} {Γ Γ' : Scopes} {s t : Lowering} {α : Type} {m : LowerM α} {r : α} {body : Block}

theorem SteadyTracks.accounted {m : LowerM Unit} (h : SteadyTracks D Γ Γ' m m) (sound : Sound Γ s) {v : Unit}
    (run : m s = .ok v t) : Frame.Accounted (fun _ => False) s.frame.pc t.frame :=
  .steady sound (h sound v t run).2

theorem opens_iff (run : m s = .ok r t) (b : Block) (u : Lowering) :
    (b = body ∧ ∃ r', m s = .ok r' u) ↔ b = body ∧ u = t := by
  refine and_congr_right fun _ => ⟨?_, ?_⟩
  · rintro ⟨r', run'⟩
    cases run.symm.trans run'
    rfl
  · rintro rfl
    exact ⟨r, run⟩

theorem exists_run_iff (run : m s = .ok r t) {P : α → Lowering → Prop} :
    (∃ r' t', m s = .ok r' t' ∧ P r' t') ↔ P r t := by
  constructor
  · rintro ⟨r', t', run', holds⟩
    cases run.symm.trans run'
    exact holds
  · exact fun holds => ⟨r, t, run, holds⟩

theorem Block.falls_iff {u : Lowering} (run : Block.code body t = .ok () u) (e : Exit) :
    Block.Falls body t e ↔ e = .ofScope u.frame := by
  constructor
  · rintro ⟨u', run', rfl⟩
    cases run.symm.trans run'
    rfl
  · exact fun falls => ⟨u, run, falls⟩

theorem StatKind.exits_iff_false {kind : StatKind} {e : Exit} (opens : ∀ b u, ¬kind.Opens s b u)
    (leaves : kind.Leaves s e = ∃ body t, kind.Opens s body t ∧ Block.Falls body t e) : False ↔ kind.Exits s e := by
  rw [StatKind.Exits, leaves]
  simp [opens]

mutual

theorem StatKind.accounted : (kind : StatKind) → kind.Shaped D → ∀ {Γ s t}, Sound Γ s → kind.code s = .ok () t →
    Frame.Accounted (kind.Exits s) s.frame.pc t.frame
  | .empty, _, Γ, s, t, sound, run | .label _, _, Γ, s, t, sound, run => by
    rw [StatKind.code] at run
    exact ((SteadyTracks.ofTracks (D := D) .pure).accounted sound run).congr fun e =>
      StatKind.exits_iff_false (fun _ _ => id) rfl
  | .goto _, _, _, _, _, _, run => nomatch run
  | .breakLoop, _, Γ, s, t, sound, run => by
    rw [StatKind.code] at run
    obtain ⟨_, j, jump, level, rfl⟩ := emitBreak_lower run
    exact (Frame.Accounted.broke sound.frame sound.ready.stack jump level).congr fun e => by
      simp [StatKind.Exits, StatKind.Leaves, StatKind.Opens]
  | .doBlock body, .doBlock hb, Γ, s, t, sound, run => by
    rw [StatKind.code, inScope_eq] at run
    obtain ⟨_, _, enter, run⟩ := bind_ok run
    cases enterScope_lower enter
    obtain ⟨_, u, lowered, foot⟩ := bind_ok run
    have entered := sound.entered false
    have advances := (Block.code_tracks hb Γ entered _ _ lowered).2
    have inside := Block.accounted body hb entered lowered
    exact (inside.scopeFoot advances.sound foot).congr fun e => by
      rw [StatKind.exits_iff (.doBlock body) e (fun _ _ => Iff.rfl) rfl, Block.falls_iff lowered]
  | .localDecl names exps, .localDecl _ identifiers he, Γ, s, t, sound, run => by
    rw [StatKind.code, Exp.codes_eq] at run
    have tracks := SteadyTracks.emitLocals (fun x member => (identifiers x member).visible) (Exp.codes_follow he Γ)
    exact (tracks.accounted sound run).congr fun e => StatKind.exits_iff_false (fun _ _ => id) rfl
  | .localFunction name params isVararg body, .localFunction identifier defined identifiers hb, Γ, s, t, sound, run => by
    rw [StatKind.code] at run
    have tracks := SteadyTracks.emitLocalFunction identifier.visible defined identifiers hb
      (Block.code_tracks hb ((Γ.declare [name]).enter params)) (Block.scopes_tail _ body)
    exact (tracks.accounted sound run).congr fun e => StatKind.exits_iff_false (fun _ _ => id) rfl
  | .assign targets values, .assign _ _ ht _ hv, Γ, s, t, sound, run => by
    rw [StatKind.code, Exp.codes_eq, Exp.codes_eq] at run
    have tracks := SteadyTracks.emitAssign (Exp.codes_follow ht Γ) (Exp.codes_follow hv Γ)
    exact (tracks.accounted sound run).congr fun e => StatKind.exits_iff_false (fun _ _ => id) rfl
  | .call callee args isMethod, .call h, Γ, s, t, sound, run => by
    obtain ⟨hc, ha⟩ := h.ofCall
    rw [StatKind.code, Exp.codes_eq] at run
    have tracks := SteadyTracks.emitCallStatement (Exp.code_follows hc Γ) (Exp.codes_follow ha Γ) isMethod
    exact (tracks.accounted sound run).congr fun e => StatKind.exits_iff_false (fun _ _ => id) rfl
  | .ret exps, .ret he, Γ, s, t, sound, run => by
    rw [StatKind.code, Exp.codes_eq] at run
    exact ((SteadyTracks.emitReturn (Exp.codes_follow he Γ)).accounted sound run).congr
      fun e => StatKind.exits_iff_false (fun _ _ => id) rfl
  | .whileDo guard body, .whileDo hg hb, Γ, s, t, sound, run => by
    rw [StatKind.code, emitWhile_eq] at run
    obtain ⟨⟨start, leave⟩, _, head, run⟩ := bind_ok run
    obtain ⟨_, u, lowered, foot⟩ := bind_ok run
    obtain ⟨s₁, steady, rfl, _, _, i, there, jump⟩ := (whileHead_tracks (Exp.code_follows hg Γ) sound _ _ head).2
    have entered := steady.sound.entered true
    have advances := (Block.code_tracks hb Γ entered _ _ lowered).2
    have before := (Frame.Accounted.steady sound steady).entered true
    have body' := Block.accounted body hb entered lowered
    have inside := before.reached entered.frame advances.frame body'
    refine (inside.whileFoot advances.sound (advances.code_at there) jump foot).congr fun e => ?_
    have exits := StatKind.exits_iff (.whileDo guard body) e (opens_iff head) rfl
    rw [exits, Block.falls_iff lowered, false_or]
  | .repeatUntil body guard, .repeatUntil hb hg, Γ, s, t, sound, run => by
    rw [StatKind.code, emitRepeat_eq] at run
    obtain ⟨start, s₁, head, run⟩ := bind_ok run
    obtain ⟨_, _, enter, read⟩ := bind_ok head
    cases enterScope_lower enter
    obtain ⟨rfl, rfl⟩ := pc_ok read
    obtain ⟨_, u, lowered, run⟩ := bind_ok run
    obtain ⟨_, w, test, foot⟩ := bind_ok run
    have entered := sound.entered true
    have advances := (Block.code_tracks hb Γ entered _ _ lowered).2
    have tested := (repeatTest_tracks (Exp.code_follows hg _) advances.sound _ _ test).2
    have inside := (Block.accounted body hb entered lowered).steadily advances.sound tested
    refine (inside.repeatFoot tested.sound foot).congr fun e => ?_
    have leaves : (StatKind.repeatUntil body guard).Leaves s e ↔ e = .ofScope w.frame ∨ ∃ pc f,
        Frame.emitJmp w.frame.scopeLevel (Frame.jumpOffset w.frame.pc s.frame.pc) w.frame = .ok pc f ∧ e = .ofScope f := by
      refine ⟨?_, fun exits => ⟨u, w, lowered, test, exits⟩⟩
      rintro ⟨u', w', lowered', test', exits⟩
      cases lowered.symm.trans lowered'
      cases test.symm.trans test'
      exact exits
    have opens : (∃ b t', (StatKind.repeatUntil body guard).Opens s b t' ∧ Block.Exits b t' e) ↔
        Block.Exits body (s.enter true) e := by
      refine ⟨?_, fun exits => ⟨body, _, ⟨rfl, rfl⟩, exits⟩⟩
      rintro ⟨_, _, ⟨rfl, rfl⟩, exits⟩
      exact exits
    rw [StatKind.Exits, leaves, opens]
    exact or_comm
  | .numericFor var init limit step body, .numericFor identifier hi hl hs hb, Γ, s, t, sound, run => by
    rw [StatKind.code, show Exp.code? step = step.map Exp.code by cases step <;> rfl, emitNumericFor_eq] at run
    obtain ⟨⟨a, prep⟩, s₁, head, run⟩ := bind_ok run
    obtain ⟨_, u, lowered, foot⟩ := bind_ok run
    have hs' : Option.Rel (ExpCode.Follows D Γ) (step.map Exp.code) (step.map Exp.code) := by
      cases step with
      | none => exact .none
      | some e => exact .some (Exp.code_follows (hs e rfl) Γ)
    obtain ⟨steady, above, i, there, hop⟩ := (numericHead_tracks identifier.visible (Exp.code_follows hi Γ)
      (Exp.code_follows hl Γ) hs' sound _ _ head).2
    have advances := (Block.code_tracks hb _ steady.sound _ _ lowered).2
    have before := Frame.Accounted.steady (sound.entered true) steady
    have inside := before.reached steady.sound.frame advances.frame (Block.accounted body hb steady.sound lowered)
    refine (inside.numericFoot (steady.toAdvances.trans advances) above (advances.code_at there) hop foot).congr fun e => ?_
    have exits := StatKind.exits_iff (.numericFor var init limit step body) e (opens_iff head) rfl
    rw [exits, Block.falls_iff lowered, false_or]
  | .genericFor names exps body, .genericFor _ identifiers _ he hb, Γ, s, t, sound, run => by
    rw [StatKind.code, Exp.codes_eq, List.reverse_nil, List.nil_append, emitGenericFor_eq] at run
    obtain ⟨⟨a, toCall⟩, s₁, head, run⟩ := bind_ok run
    obtain ⟨_, u, lowered, foot⟩ := bind_ok run
    obtain ⟨steady, jump⟩ := (genericHead_tracks (fun x member => (identifiers x member).visible)
      (Exp.codes_follow he Γ) sound _ _ head).2
    have advances := (Block.code_tracks hb _ steady.sound _ _ lowered).2
    have before := Frame.Accounted.steady (sound.entered true) steady
    have inside := before.reached steady.sound.frame advances.frame (Block.accounted body hb steady.sound lowered)
    refine (inside.genericFoot (steady.toAdvances.trans advances) (jump.advance advances) foot).congr fun e => ?_
    have exits := StatKind.exits_iff (.genericFor names exps body) e (opens_iff head) rfl
    rw [exits, Block.falls_iff lowered, false_or]
  | .ifThen guards blocks, .ifThen _ _ hg hb, Γ, s, t, sound, run => by
    rw [StatKind.code, Exp.codes_eq, Block.codes_eq, List.reverse_nil, List.nil_append, List.reverse_nil,
      List.nil_append] at run
    obtain ⟨ends, u, arms, lands⟩ := bind_ok run
    have skips : ∀ pc ∈ (none : Option Nat), JumpAt s s pc := by simp
    have jumps : ∀ pc ∈ (#[] : Array Nat), JumpAt s s pc := by simp
    obtain ⟨advances, jumps'⟩ := (StatTracks.emitArms (Exp.codes_follow hg Γ) (Block.bodies_track hb Γ) (.refl sound)
      skips jumps _ _ arms).2
    have here := Frame.Accounted.steady sound (Steady.refl (D := D) sound)
    have inside := Block.arms_accounted blocks hb guards hg (.refl sound) skips here arms
    have list : ends.toList.forM (fun pc => (Frame.patchHere pc : LowerM Unit)) u = .ok () t := by
      rw [← List.forM_toArray, Array.toArray_toList]
      exact lands
    refine (inside.patchedHeres advances (fun pc member => jumps' pc (by simpa using member)) list).congr fun e => ?_
    rw [false_or, Block.ArmExits, StatKind.Exits]
    constructor
    · rintro ⟨b, t', opens, exits | falls⟩
      · exact .inr ⟨b, t', opens, exits⟩
      · exact .inl ⟨b, t', opens, falls⟩
    · rintro (⟨b, t', opens, falls⟩ | ⟨b, t', opens, exits⟩)
      · exact ⟨b, t', opens, .inr falls⟩
      · exact ⟨b, t', opens, .inl exits⟩

theorem Block.accounted : (block : List Stat) → Block.Shaped D block → ∀ {Γ s t}, Sound Γ s →
    Block.code block s = .ok () t → Frame.Accounted (Block.Exits block s) s.frame.pc t.frame
  | [], _, Γ, s, t, sound, run => by
    rw [Block.code] at run
    exact ((SteadyTracks.ofTracks (D := D) .pure).accounted sound run).congr
      fun e => (iff_false_intro Block.not_exits_nil).symm
  | .mk line kind :: rest, .cons hk _ hr, Γ, s, t, sound, run => by
    rw [Block.code, Stat.code] at run
    obtain ⟨_, u, first, run⟩ := bind_ok run
    obtain ⟨_, s₁, lines, first⟩ := bind_ok first
    have steady := (SteadyTracks.setLine (D := D) (Γ := Γ) line sound _ _ lines).2
    obtain ⟨f, sets, rfl⟩ := lift_ok lines
    cases sets
    have advances := (StatKind.code_tracks hk Γ steady.sound _ _ first).2
    have more := (Block.code_tracks hr _ advances.sound _ _ run).2
    refine ((kind.accounted hk steady.sound first).reached advances.sound.frame more.frame
      (Block.accounted rest hr advances.sound run)).congr fun e => ?_
    rw [Block.exits_cons_iff]
    refine or_congr Iff.rfl ⟨fun later => ⟨u, first, later⟩, ?_⟩
    rintro ⟨u', first', later⟩
    cases first.symm.trans first'
    exact later

theorem Block.arms_accounted : (bodies : List (List Stat)) → (∀ b ∈ bodies, Block.Shaped D b) → ∀ guards : List Exp,
    (∀ g ∈ guards, g.Shaped D) → ∀ {Γ s t u X lo skip? ends ends'}, Advances D Γ s t → (∀ pc ∈ skip?, JumpAt s t pc) →
    Frame.Accounted X lo t.frame → emitArms (guards.map Exp.code) (bodies.map Block.code) skip? ends t = .ok ends' u →
    Frame.Accounted (fun e => X e ∨ Block.ArmExits guards bodies skip? t e) lo u.frame
  | [], _, guards, _, Γ, s, t, u, X, lo, skip?, ends, ends', _, _, before, run => by
    have none : emitArms (guards.map Exp.code) [] skip? ends = pure ends := by cases guards <;> rfl
    rw [List.map_nil, none] at run
    obtain ⟨_, rfl⟩ := pure_ok run
    refine before.congr fun e => ?_
    have nothing : ¬Block.ArmExits guards [] skip? u e := fun ⟨_, _, opens, _⟩ => by cases guards <;> exact opens
    rw [iff_false_intro nothing, or_false]
  | body :: bodies, _, [], _, Γ, s, t, u, X, lo, skip?, ends, ends', _, _, before, run => by
    obtain ⟨_, rfl⟩ := pure_ok run
    exact before.congr fun e => by rw [iff_false_intro Block.not_armExits_nil, or_false]
  | body :: bodies, hb, guard :: guards, hg, Γ, s, t, u, X, lo, skip?, ends, ends', advances, skips, before, run => by
    rw [List.map_cons, List.map_cons, emitArms_eq] at run
    obtain ⟨skip?', _, head, run⟩ := bind_ok run
    have follows := Exp.code_follows (hg guard (.head _)) Γ
    have armed := before.armHead advances follows skips head
    obtain ⟨t₁, landed, rfl, skips', _⟩ := (armHead_tracks follows advances skips _ _ head).2
    obtain ⟨_, t₂, lowered, run⟩ := bind_ok run
    have entered := landed.sound.entered false
    have shaped := hb body (.head _)
    have inner := (Block.code_tracks shaped Γ entered _ _ lowered).2
    have inside := armed.reached entered.frame inner.frame (Block.accounted body shaped entered lowered)
    obtain ⟨_, t₃, foot, run⟩ := bind_ok run
    have closed := inside.scopeFoot inner.sound foot
    have left := scopeFoot_advances landed.sound inner (Block.scopes_tail Γ body) foot
    cases guards with
    | nil =>
      obtain ⟨_, rfl⟩ := pure_ok run
      refine closed.congr fun e => ?_
      have last : ¬∃ u v leave w, Block.code body (t₁.enter false) = .ok () u ∧ scopeFoot u = .ok () v ∧
          Frame.emitJmp 0 0 v.frame = .ok leave w ∧ Block.ArmExits [] bodies skip?' ⟨w, v.enclosing⟩ e :=
        fun ⟨_, _, _, _, _, _, _, more⟩ => Block.not_armExits_nil more
      rw [Block.armExits_cons_iff, exists_run_iff head, Block.falls_iff lowered, or_assoc, iff_false_intro last, or_false]
    | cons next guards =>
      rw [List.map_cons, List.isEmpty_cons, if_neg (by decide), ← List.map_cons] at run
      obtain ⟨leave, f, emit, run⟩ := bind_lift_ok run
      obtain ⟨j, built, rfl, rfl⟩ := Frame.emitAsbx_ok emit
      obtain ⟨hop, zero, _⟩ := Instruction.asbx_ok built
      have pushed : Advances D Γ t₃ (t₃.push j) := (Advances.refl left.sound).pushed (by simp [hop])
      have more := Block.arms_accounted bodies (fun b member => hb b (.tail _ member)) (next :: guards)
        (fun g member => hg g (.tail _ member)) ((landed.trans left).trans pushed)
        (fun pc same => ((skips' pc same).advance left).advance pushed)
        (closed.pushed left.sound (i := j) (by simp [hop]) fun _ => zero) run
      refine more.congr fun e => ?_
      rw [Block.armExits_cons_iff, exists_run_iff head, Block.falls_iff lowered, or_assoc, or_assoc, or_assoc]
      refine or_congr Iff.rfl (or_congr Iff.rfl (or_congr Iff.rfl ⟨fun later => ?_, ?_⟩))
      · exact ⟨t₂, t₃, _, _, lowered, foot, emit, later⟩
      · rintro ⟨t₂', t₃', leave', w, lowered', foot', emit', later⟩
        cases lowered.symm.trans lowered'
        cases foot.symm.trans foot'
        cases emit.symm.trans emit'
        exact later

end

end LuaBytecode
