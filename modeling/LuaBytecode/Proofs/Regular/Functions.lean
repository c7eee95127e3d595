import LuaBytecode.Proofs.Regular.Scopes

namespace LuaBytecode

open Lowering Instruction

variable {slack : Nat} {pending : List Nat} {s t : Lowering} {a : Nat} {params : List String} {isVararg : Bool}
  {body : LowerM Unit}

theorem Frame.Regular.ofNew (count : Nat) (isVararg : Bool) (line registers : Nat) (path : List Nat) :
    (Frame.new count isVararg line path).Regular registers [] where
  flow := .empty
  operands := .empty
  order := rfl
  makes := nofun
  recorded := .empty
  nested := nofun
  room := Nat.le.refl
  used := Nat.le.refl
  peak := show 0 < Frame.registerLimit by decide
  breaks pcs scope := by
    rw [show (Frame.new count isVararg line path).scopes = [none] from rfl] at scope
    simp at scope

theorem Frame.Touched.grown {f g : Frame} (h : f.Touched g) : f.Grown g := by
  have code : g.code = f.code := by rw [h.same]
  have kept := (Grown.refl f).code
  refine ⟨Nat.le_of_eq (by rw [h.same]), Nat.le_of_eq (by rw [h.same]), h.upvalues, ?_, by rw [h.same]⟩
  rw [code]
  exact kept

namespace ExpCode

theorem newFunction_rests (slack : Nat) (chain : Chain s.frame s.enclosing) (records : s.frame.HasRecords) (count : Nat)
    (isVararg : Bool) : Rests slack [] (s.nest count isVararg) where
  frame := .ofNew ..
  chain := ⟨⟨List.nodup_nil, Nat.zero_le _, fun _ => (Array.not_mem_empty _).elim, records⟩, chain⟩
  nested := List.cons_ne_nil _ _
  functions _ := (Array.not_mem_empty _).elim
  settled := ⟨nofun, nofun⟩
  alone := nofun
  balanced := rfl
  opened := List.cons_ne_nil _ _

theorem enterFunction_gives (slack : Nat) (chain : Chain s.frame s.enclosing) (records : s.frame.HasRecords)
    (params : List String) (isVararg : Bool) :
    Gives (enterFunction params isVararg) s fun _ t => t.Rests slack [] ∧ t.frame.depth = 1 ∧
      t.frame.params ≤ t.frame.peak ∧ List.Forall₂ Frame.Touched (s.frame :: s.enclosing) t.enclosing := by
  have rests : (s.nest params.length isVararg).Rests slack [] :=
    newFunction_rests slack chain records params.length isVararg
  refine .bind (show Gives (declare params 0) (s.nest params.length isVararg) _ from ?_)
  refine Gives.weaken (declare_carries rests params) ?_
  rintro _ t ⟨⟨used, depth⟩, does⟩
  refine ⟨does.toRests, depth, ?_, does.around⟩
  have fits := does.used_le
  have first : (s.nest params.length isVararg).frame.used = 0 := rfl
  have count : t.frame.params = params.length := does.grown.params
  omega

theorem finishes_of_body {i : Instruction} {u v : Lowering} (source : Option String) (rests : u.Rests slack [])
    (outermost : u.frame.depth = 1) (params : u.frame.params ≤ u.frame.peak) (poised : v.Poised slack [])
    (grown : u.frame.Grown v.frame)
    (live : v.frame.live = u.frame.live.filter fun b => b.depth < u.frame.depth)
    (built : abc .ret 0 1 0 = .ok i) : ((v.frame.push i).toPrototype source).Regular slack := by
  have retired : v.frame.live = [] := by
    rw [live, List.filter_eq_nil_iff]
    intro b member
    have := rests.frame.nested b member
    simp only [decide_eq_true_eq]
    omega
  have attached : ∃ parent, v.frame.Attached parent := by
    have chain := poised.chain
    have nested := poised.nested
    cases shape : v.enclosing with
    | nil => exact absurd shape nested
    | cons parent outer =>
      rw [shape] at chain
      exact ⟨parent, chain.1⟩
  obtain ⟨parent, attached⟩ := attached
  refine .mk (f := v.frame) ⟨?_, poised.settled, retired, ?_, attached.distinct, attached.few, i, source, built, rfl⟩ ?_
  · exact poised.frame.mono (by omega)
  · rw [grown.params]
    exact Nat.le_trans params grown.peak
  · intro q member
    exact poised.functions q (by simpa [Frame.toPrototype, Frame.push] using member)

theorem emitFunction_restores (hb : StatRegular slack body) (params : List String) (isVararg : Bool)
    (h : s.Regular slack 0 pending) (alone : s.frame.Alone)
    (started : ∀ b ∈ s.frame.live, ∀ v ∈ s.frame.locals[b.record]?, v.startPc ≤ s.frame.pc ∨ b.register = a)
    (inside : a < s.frame.used) : Restores slack pending (emitFunction params isVararg body a) s := by
  have := h.bounds
  have records : s.frame.HasRecords := fun _ => Stack.record_lt h.frame.recorded.stack
  refine Gives.bind (.get (.bind ((enterFunction_gives slack h.chain records params isVararg).weaken ?_)))
  rintro _ t ⟨rests, depth, count, around⟩
  refine .bind (Gives.weaken (hb rests) ?_)
  rintro _ u ⟨depth', does⟩
  have count : u.frame.params ≤ u.frame.peak := by
    rw [does.grown.params]
    exact Nat.le_trans count does.grown.peak
  refine .bind ((exitScope_gives does.toRests).weaken ?_)
  rintro _ v ⟨poised', grown, enclosing, _, _, live⟩
  have returns : Frame.emitReturn 0 0 = Frame.emit (abc .ret 0 1 0) := rfl
  rw [returns]
  refine .bind (.lift (Frame.emit_gives (fun error => abc_error (Nat.zero_le _)) fun i built => ?_))
  have finished := finishes_of_body none does.toRests (depth'.trans depth) count poised' grown live built
  -- The function around is as it was, but for variables that are marked and upvalues.
  obtain ⟨parent, outer, touched, rest, shape⟩ := List.forall₂_cons_left_iff.mp (touched_trans around does.around)
  rw [← enclosing] at shape
  have chain := poised'.chain
  rw [shape] at chain ⊢
  refine .bind (.congr (n := pure (v.frame.push i)) (u := ⟨parent, outer⟩) rfl (.pure ?_))
  refine .bind (.lift ?_)
  refine .bind (.lift (Frame.emitAbx_gives (by omega) fun j hop ha hbx => .pure ?_))
  have same := touched.same
  have code : parent.code = s.frame.code := by rw [same]
  have peak : parent.peak = s.frame.peak := by rw [same]
  have parent_regular : parent.Regular (max (parent.peak + slack) 0) pending := by
    rw [peak]
    exact h.frame.touched touched
  have alone' : parent.Alone := by
    unfold Frame.Alone
    rwa [code]
  have started' : ∀ b ∈ parent.live, ∀ v ∈ parent.locals[b.record]?, v.startPc ≤ parent.pc ∨ b.register = j.a := by
    intro b' member' v there
    obtain ⟨b, member, remains⟩ := touched.live.backward member'
    rw [remains.record, show parent.locals = s.frame.locals by rw [same]] at there
    rw [remains.register, ha, Frame.pc, code]
    exact started b member v there
  have made := parent_regular.closure (p := (v.frame.push i).toPrototype none) alone' started' hop (by omega) hbx
    chain.1.names
  refine ⟨?_, ⟨⟨made, chain.2.marked (.refl _) rfl, ?_, ?_⟩, .ofPush parent_regular.recorded ?_⟩, ?_, rest, ?_, ?_⟩
  · show parent.used = s.frame.used
    rw [same]
  · intro empty
    rw [show outer = [] from empty] at rest
    exact h.nested (List.forall₂_nil_right_iff.mp rest)
  · intro p member
    rcases Array.mem_push.mp member with old | rfl
    · refine h.functions p ?_
      rw [same] at old
      exact old
    · exact finished
  · simp [binds, isTest, hasExtra, Instruction.isOpen, hop, Opcode.isTest]
  · have added : parent.Grown { parent with functions := parent.functions.push ((v.frame.push i).toPrototype none) } :=
      ⟨Nat.le.refl, Nat.le.refl, List.prefix_rfl, (Frame.Grown.refl parent).code, rfl⟩
    exact (touched.grown.trans added).trans .ofPush
  · show parent.depth = s.frame.depth
    rw [same]
    rfl
  · exact touched.live.length_eq.symm

theorem emitFunction_lowers (hb : StatRegular slack body) (params : List String) (isVararg : Bool) :
    Emits slack fun a _ => emitFunction params isVararg body a := fun _ _ _ poised inside =>
  emitFunction_restores hb params isVararg poised.toRegular poised.settled.1
    (fun b member v there => .inl (poised.settled.2 b member v there)) inside

theorem ofFunction_regular {exp : Exp} (single : exp.isMulti = false) (hb : StatRegular slack body)
    (params : List String) (isVararg : Bool) :
    (plain exp fun a _ => emitFunction params isVararg body a).Regular slack :=
  plain_regular _ _ single (emitFunction_lowers hb params isVararg)

end ExpCode

theorem emitLocalFunction_regular (hb : StatRegular slack body) (name : String) (params : List String)
    (isVararg : Bool) : StatRegular slack (emitLocalFunction name params isVararg body) := by
  intro pending s h
  refine .pc (.after (h.addLocal name (Nat.le_succ _) Nat.le.refl) ?_)
  rintro _ _ ⟨rfl, rfl⟩ brings
  -- The function is made before its variable starts.
  refine brings.stays (ExpCode.emitFunction_restores hb params isVararg brings.toRegular brings.alone ?_ ?_)
  · exact fun b member v there => (h.frame.started_withLocal h.settled b member v there).imp_right (·.1)
  · exact Nat.lt_succ_self _

end LuaBytecode
