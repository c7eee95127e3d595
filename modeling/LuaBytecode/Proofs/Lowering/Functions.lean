import LuaBytecode.Proofs.Lowering.Statements

namespace LuaBytecode

open Lowering

variable {D : FunctionDef → Prop} {Γ Γ' : Scopes} {s t u : Lowering} {fn : FunctionDef} {body' : LowerM Unit}

namespace Lowering

theorem sound_new (ready : Ready Γ s) (params : Nat) (isVararg : Bool) (line : Nat) (path : List Nat) :
    Sound ([] :: Γ) ⟨Frame.new params isVararg line path, s.frame :: s.enclosing⟩ where
  ready := ⟨rfl, trivial, List.cons_ne_nil _ _, fun _ member => absurd member (Array.not_mem_empty _), ready⟩
  frame :=
    { balanced := rfl
      room := Nat.zero_le _
      small := Nat.zero_lt_succ _
      visible := nofun
      hidden := nofun
      breaks := fun _ member => by
        rw [Frame.new, List.mem_singleton] at member
        cases member
      apart := List.pairwise_singleton _ _
      closures := fun pc i there => by
        rw [Frame.new, Array.getElem?_empty] at there
        cases there
      captured := nofun
      last := fun r ⟨_, _, _, there, _⟩ => by
        rw [Frame.new, Array.getElem?_empty] at there
        cases there }

theorem enterFunction_advances {params : List String} {isVararg : Bool} (ready : Ready Γ s)
    (visible : ∀ x ∈ params, Frame.isHidden x = false) {v : Unit}
    (run : ExpCode.enterFunction params isVararg s = .ok v t) :
    Advances D (Γ.enter params) (s.nest params.length isVararg) t ∧ t.frame.code = #[] := by
  obtain ⟨_, _, new, run⟩ := bind_ok run
  cases new
  have sound := sound_new ready params.length isVararg s.frame.line (s.frame.functions.size :: s.frame.path)
  obtain ⟨declared, pc⟩ := declare_steady (D := D) sound Nat.le.refl (.inl visible) run
  refine ⟨?_, Array.eq_empty_of_size_eq_zero pc⟩
  rw [show Γ.enter params = Scopes.declare ([] :: Γ) params by simp [Scopes.enter, Scopes.declare]]
  exact declared.toAdvances

end Lowering

theorem finish_keeps (sound : Sound Γ s) {f : Frame} {pc : Nat}
    (run : (do Frame.exitScope; Frame.emitReturn 0 0) s.frame = .ok pc f) :
    f.functions = s.frame.functions ∧ f.upvalues = s.frame.upvalues := by
  obtain ⟨_, g, exit, emit⟩ := bind_ok run
  obtain ⟨i, _, _, rfl⟩ := Frame.emitAbc_ok emit
  obtain ⟨same, _⟩ := Frame.exitScope_ok sound.ready.opened sound.ready.stack sound.frame.jumps_of_breaks exit
  constructor
  · rw [same]
    rfl
  · rw [same]
    rfl

theorem tracks_emitFunction (known : D fn) (params : ∀ x ∈ fn.params, IsIdentifier x) (shaped : Block.Shaped D fn.body)
    (hb : StatTracks D (Γ.enter fn.params) Γ' (Block.code fn.body) body') (tail : Γ'.tail = Γ) (a : Nat) :
    Tracks D Γ (ExpCode.emitFunction fn.params fn.isVararg (Block.code fn.body) a)
      (ExpCode.emitFunction fn.params fn.isVararg body' a) Kept := by
  intro s ready
  refine .bind (.get (.bind (.self fun _ start entered => ?_)))
  obtain ⟨enters, _⟩ := enterFunction_advances (D := D) ready (fun x member => (params x member).visible) entered
  refine .bind ((hb enters.sound).withRun.weaken ?_)
  rintro _ finish ⟨body, advances⟩
  have whole := enters.trans advances
  refine .bind (.self fun _ _ exit => .bind (.self fun _ _ return' => ?_))
  obtain ⟨left, exits, rfl⟩ := lift_ok exit
  obtain ⟨done, returns, rfl⟩ := lift_ok return'
  have finished : (do Frame.exitScope; Frame.emitReturn 0 0) finish.frame = .ok _ done := (bind_run exits).trans returns
  obtain ⟨functions, upvalues⟩ := finish_keeps advances.sound finished
  have lowered : (done.toPrototype none).Lowered D := by
    refine .mk known params shaped ready entered body finished fun p member => ?_
    rw [functions] at member
    exact (whole.frame.prototypes p member).resolve_left (Array.not_mem_empty p)
  have around := whole.enclosing
  have outer : Scopes.Agrees Γ finish.enclosing := tail ▸ advances.sound.ready.outer
  have agrees : ∀ u ∈ finish.frame.upvalues, u.Agrees Γ finish.enclosing := tail ▸ advances.sound.ready.upvalues
  generalize finish.enclosing = enclosing at around outer agrees
  cases around with
  | @cons _ parent _ rest refers others =>
    refine .bind (.self fun child _ leave => ?_)
    cases leave
    have marked : ∀ u ∈ done.upvalues, u.inStack = true → ∃ b ∈ parent.live, b.register = u.index ∧ b.captured = true := by
      intro u member inStack
      rw [upvalues] at member
      obtain ⟨b, member', _, register, captured⟩ := (agrees u member).captured inStack parent rfl
      exact ⟨b, member', register, captured⟩
    refine .bind (.self fun index _ add => .bind (.self fun _ _ make => ?_))
    obtain ⟨g, adds, rfl⟩ := lift_ok add
    obtain ⟨rfl, rfl⟩ := Frame.addFunction_ok adds
    obtain ⟨h, makes, rfl⟩ := lift_ok make
    obtain ⟨i, built, _, rfl⟩ := Frame.emitAbx_ok makes
    obtain ⟨closure, _, bx, _⟩ := Instruction.abx_ok built
    have made := Frame.Extends.ofClosure (f := parent) lowered closure bx marked
    have returned : Grows D Γ s ⟨parent, rest⟩ := ⟨outer, .ofRefers refers, others⟩
    refine .pure ⟨returned.trans (.ofFrame outer made rfl), ?_⟩
    rw [refers.same]
    rfl

theorem SteadyTracks.emitLocalFunction {name : String} (visible : Frame.isHidden name = false) (known : D fn)
    (params : ∀ x ∈ fn.params, IsIdentifier x) (shaped : Block.Shaped D fn.body)
    (hb : StatTracks D ((Γ.declare [name]).enter fn.params) Γ' (Block.code fn.body) body')
    (tail : Γ'.tail = Γ.declare [name]) :
    SteadyTracks D Γ (Γ.declare [name]) (emitLocalFunction name fn.params fn.isVararg (Block.code fn.body))
      (Lowering.emitLocalFunction name fn.params fn.isVararg body') := by
  intro s sound
  refine .bind (.self fun startPc _ read => ?_)
  obtain ⟨rfl, rfl⟩ := pc_ok read
  refine .bind (.self fun r t add => ?_)
  have orderly : Orderly s.frame [name] := .inl fun y member => List.mem_singleton.mp member ▸ visible
  obtain ⟨added, _⟩ := addLocal_steady (D := D) sound (Nat.le_succ _) orderly add
  refine (tracks_emitFunction known params shaped hb tail r added.sound.ready).weaken ?_
  rintro _ u ⟨grows, used⟩
  exact added.trans (.ofGrows added.sound grows used)

theorem SteadyTracks.setLine (line : Nat) :
    SteadyTracks D Γ Γ (liftM (Frame.setLine line)) (liftM (Frame.setLine line)) := by
  intro s sound
  refine .lift fun _ f run => ?_
  cases run
  have same : Frame.Sound { s.frame with line := line } := { sound.frame with }
  have reaches : s.frame.Reaches D { s.frame with line := line } := { Frame.Reaches.refl (D := D) s.frame with }
  exact .ofCode ⟨(Advances.refl sound).toInside.ofFrame same reaches rfl rfl rfl rfl, rfl⟩ rfl rfl

end LuaBytecode
