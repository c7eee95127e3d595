import LuaBytecode.Proofs.Regular.Statements

namespace LuaBytecode

open Lowering ExpCode Instruction

variable {slack : Nat} {pending : List Nat} {s t : Lowering} {exps : List ExpCode} {body : LowerM Unit}

section Frames

variable {f : Frame} {registers prep : Nat} {i j k l : Instruction}

theorem Instruction.starts_of_forJump (hop : i.opcode? = some .forPrep ∨ i.opcode? = some .forLoop) : i.Starts := by
  rcases hop with hop | hop <;> exact ⟨by simp [hop], by simp [takesOpen, hop], by simp [hop]⟩

theorem Instruction.isJump_of_opcode {op : Opcode} (hop : i.opcode? = some op) (jump : op.isJump = true) :
    i.isJump = true := by
  rw [isJump, hop]
  exact jump

theorem Frame.Regular.pushFor (h : f.Regular registers pending) (alone : f.Alone)
    (hop : i.opcode? = some .forPrep ∨ i.opcode? = some .forLoop) (zero : i.sbx = 0) (inside : i.a + 3 < registers)
    (waits : i.opcode? = some .forPrep → f.pc ∈ pending) : (f.push i).Regular registers pending := by
  have starts := starts_of_forJump hop
  have fits : i.Fits registers f.constants.entries.size f.upvalues.size := by
    rcases hop with hop | hop
    all_goals
      refine .intro hop ?_ rfl False.elim False.elim
      rintro r ⟨_, below⟩
      omega
  refine h.push ?_ (fun _ => starts) (fun m last => .ofStarts (alone m last) starts) (fun _ => ?_) waits fits ?_ ?_
  · rcases hop with hop | hop <;> simp [hop]
  · exact ⟨f.pc + 1, by rw [zero]; simp, .inl rfl⟩
  · intro m last wide
    have alone := alone m last
    rw [binds_eq_false, hasExtra, wide] at alone
    simp at alone
  · rcases hop with hop | hop <;> simp [hop]

theorem Frame.Regular.closeFor (h : f.Regular registers (prep :: pending)) (settled : f.Settled)
    (there : f.code[prep]? = some i) (hop : i.opcode? = some .forPrep) (hopl : l.opcode? = some .forLoop)
    (zero : l.sbx = 0) (same : l.a = i.a) (hopj : j.opcode? = some .forPrep) (haj : j.a = i.a)
    (hj : j.sbx = Frame.jumpOffset prep f.pc) (hopk : k.opcode? = some .forLoop) (hak : k.a = l.a)
    (hk : k.sbx = Frame.jumpOffset f.pc (prep + 1)) :
    (((f.push l).replace prep j).replace f.pc k).Regular registers pending ∧
      (((f.push l).replace prep j).replace f.pc k).Settled := by
  have before : prep < f.pc := lt_of_getElem? there
  have inside : i.a + 3 < registers :=
    (h.operands.fits prep i there).register _ ⟨_, hop, ⟨Nat.le_add_right .., Nat.le.refl⟩⟩
  have first := h.pushFor settled.1 (.inr hopl) zero (by omega) (by simp [hopl])
  have settled₁ : (f.push l).Settled := .ofPush h.recorded (binds_of_isJump (isJump_of_opcode hopl rfl))
  have redirects : i.Redirects j :=
    ⟨isJump_of_opcode hop rfl, hopj.trans hop.symm, .inl haj⟩
  have redirects' : l.Redirects k :=
    ⟨isJump_of_opcode hopl rfl, hopk.trans hopl.symm, .inl hak⟩
  have there₁ : (f.push l).code[prep]? = some i := getElem?_push_of_some there
  have second : ((f.push l).replace prep j).Regular registers (prep :: pending) := by
    refine first.replace there₁ redirects ⟨f.pc, ?_, settled.landing.push⟩ (fun _ => List.mem_cons_self) ?_
    · rw [hj, Frame.jumpOffset]
      omega
    · intro loop
      cases hop.symm.trans loop
  have there₂ : ((f.push l).replace prep j).code[f.pc]? = some l := by
    rw [Frame.replace_other (Nat.ne_of_lt before)]
    exact Frame.push_last
  have there₃ : ((f.push l).replace prep j).code[prep]? = some j :=
    Frame.replace_self (by rw [Frame.push_pc]; omega)
  have landing : Landing ((f.push l).replace prep j).code (prep + 1) := by
    refine ⟨?_, ?_⟩
    · rw [← Frame.pc, Frame.replace_pc, Frame.push_pc]
      omega
    · intro n m next found
      obtain rfl : prep = n := Nat.succ.inj next
      cases there₃.symm.trans found
      exact redirects.alone
  have third : (((f.push l).replace prep j).replace f.pc k).Regular registers (prep :: pending) := by
    refine second.replace there₂ redirects' ⟨prep + 1, ?_, landing⟩ ?_ (fun _ => zero)
    · rw [hk, Frame.jumpOffset]
      omega
    · intro start
      cases hopl.symm.trans start
  refine ⟨{ third with flow := third.flow.finish fun m found => ?_ }, (settled₁.replace redirects).replace redirects'⟩
  rw [Frame.replace_other (Nat.ne_of_gt before)] at found
  cases there₃.symm.trans found
  refine ⟨f.pc, k, ?_, Frame.replace_self (by rw [Frame.replace_pc, Frame.push_pc]; omega), hopk, ?_, ?_⟩
  · rw [hj, Frame.jumpOffset]
    omega
  · rw [hak, same, haj]
  · rw [hk, Frame.jumpOffset]
    omega

theorem Frame.Regular.pushGeneric (h : f.Regular registers pending) (settled : f.Settled)
    (hop : i.opcode? = some .tforCall) (unused : i.b = 0) (inside : i.a + 2 + i.c < registers)
    (hopl : l.opcode? = some .tforLoop)
    (zero : l.sbx = 0) (same : l.a = i.a + 2) (inside' : l.a + 1 < registers) :
    ((f.push i).push l).Regular registers pending := by
  have starts : i.Starts := ⟨by simp [hop], by simp [takesOpen, hop], by simp [hop]⟩
  have fits : i.Fits registers f.constants.entries.size f.upvalues.size := by
    refine .intro hop ?_ (by rw [unused]; rfl) False.elim False.elim
    rintro r ⟨_, below⟩
    omega
  have first := h.emit settled hop starts rfl (by decide) fits
  refine first.push (by simp [hopl]) (fun empty => by simp at empty) ?_ (fun _ => ?_) ?_ ?_ ?_ ?_
  · intro m last
    rw [Frame.push_code, Array.back?_push] at last
    cases last
    exact
      { test := by simp [isTest, hop, Opcode.isTest]
        extra := by simp [hasExtra, hop, hopl]
        results := by simp [Instruction.isOpen, takesOpen, hop, hopl]
        taken := by simp [Instruction.isOpen, hop]
        generic := by simp [hop, hopl]
        control := fun _ => same }
  · exact ⟨(f.push i).pc + 1, by rw [zero]; simp, .inl rfl⟩
  · intro start
    cases hopl.symm.trans start
  · refine .intro hopl ?_ rfl False.elim False.elim
    rintro r (rfl | rfl) <;> omega
  · intro m last wide
    rw [Frame.push_code, Array.back?_push] at last
    cases last
    cases hop.symm.trans wide
  · intro closure
    cases hopl.symm.trans closure

end Frames

section Numeric

theorem emitPrep_carries {a : Nat} (h : s.Pauses slack pending) (inside : a + 3 < s.frame.peak) :
    Carries slack (s.frame.pc :: pending) (Frame.emitAsbx .forPrep a 0 : LowerM Nat) s fun prep t =>
      prep = s.frame.pc ∧ ∃ i, i.opcode? = some .forPrep ∧ i.a = a ∧ t = s.push i := by
  have := h.bounds
  refine .lift (Frame.emitAsbx_gives (by omega) fun i hop ha hsbx => ⟨⟨rfl, i, hop, ha, rfl⟩, ?_⟩)
  have waits : s.frame.Regular (max (s.frame.peak + slack) 0) (s.frame.pc :: pending) :=
    { h.frame with flow := h.frame.flow.await }
  have pushed := waits.pushFor h.alone (.inl hop) hsbx (by omega) (fun _ => List.mem_cons_self)
  exact .ofFrame h.toRegular (f := s.frame.push i) pushed .ofPush rfl rfl
    (.ofPush h.frame.recorded (binds_of_isJump (isJump_of_opcode hop rfl))) h.balanced h.opened

theorem emitLoop_gives {a prep : Nat} {i : Instruction} {k : LowerM Unit} {post : Unit → Lowering → Prop}
    (before : Does slack (prep :: pending) s t) (there : t.frame.code[prep]? = some i) (hop : i.opcode? = some .forPrep)
    (ha : i.a = a) (later : s.frame.pc ≤ prep)
    (next : ∀ u, u.frame.depth = t.frame.depth → Does slack pending s u → Gives k u post) :
    Gives (do
      let loop ← Frame.emitAsbx .forLoop a 0
      Frame.patch prep loop
      Frame.patch loop (prep + 1)
      k : LowerM Unit) t post := by
  have first : prep < t.frame.pc := lt_of_getElem? there
  refine .bind (.lift (Frame.emitAsbx_gives (ha ▸ i.a_le) fun l hopl hal zero => ?_))
  have there₁ : (t.frame.push l).code[prep]? = some i := getElem?_push_of_some there
  refine .bind (.lift (Frame.patch_gives there₁ hop fun j hopj haj hj => ?_))
  have there₂ : ((t.frame.push l).replace prep j).code[t.frame.pc]? = some l := by
    rw [Frame.replace_other (Nat.ne_of_lt first)]
    exact Frame.push_last
  refine .bind (.lift (Frame.patch_gives there₂ hopl fun k hopk hak hk => next _ rfl ?_))
  obtain ⟨regular, settled⟩ := before.frame.closeFor before.settled there hop hopl zero (hal.trans ha.symm) hopj haj hj
    hopk hak hk
  have grown := ((before.grown.trans .ofPush).replace there₁ (hopj.trans hop.symm) (.inr later)).replace there₂
    (hopk.trans hopl.symm) (.inr (by omega))
  exact ⟨.withFrame before.toRegular regular rfl rfl settled before.balanced before.opened, grown, before.around⟩

theorem emitNumericFor_regular {init limit : ExpCode} {step? : Option ExpCode} (hi : init.Regular slack)
    (hl : limit.Regular slack) (hs : ∀ step, step? = some step → step.Regular slack) (hb : StatRegular slack body)
    (var : String) : StatRegular slack (emitNumericFor var init limit step? body) := by
  intro pending s h
  have values : ∀ e ∈ [init, limit, step?.getD (ofConstant (.integer 1) (.integer 1))], e.Regular slack := by
    simp only [List.mem_cons, List.not_mem_nil, or_false]
    rintro e (rfl | rfl | rfl)
    · exact hi
    · exact hl
    · cases step? with
      | none => exact ofConstant_regular rfl _
      | some step => exact hs step rfl
  have := h.depth_pos
  refine (h.enterScope true).bind fun _ t depth does => ?_
  refine (emitLocals_carries values _ does.toRests).bind ?_
  rintro _ u ⟨used, depth₁⟩ does₁
  have three : u.frame.used = t.frame.used + 3 := used
  refine .pc (.after (does₁.addLocal var (Nat.le_succ _) Nat.le.refl) ?_)
  rintro _ v ⟨_, same⟩ brings
  have used' : v.frame.used = u.frame.used + 1 := by rw [same]; rfl
  have depth₂ : v.frame.depth = u.frame.depth := by rw [same]; rfl
  have most := brings.used_le
  refine .used (.difference (by omega) ?_)
  refine Gives.bind (Gives.weaken (emitPrep_carries brings.toPauses (a := v.frame.used - 4) (by omega)) ?_)
  rintro _ _ ⟨⟨rfl, i, hop, ha, rfl⟩, does₃⟩
  refine .bind (Gives.weaken (hb does₃.toRests) ?_)
  rintro _ x ⟨depth₄, does₄⟩
  refine .bind (Gives.weaken does₄.closeCaptured ?_)
  rintro _ y ⟨depth₅, does₅⟩
  -- The start of the loop is still where it was, as only plain jumps have changed.
  have there : y.frame.code[v.frame.pc]? = some i := by
    obtain ⟨j, there, _, kept⟩ := (does₄.trans does₅).grown.code v.frame.pc i Frame.push_last
    rwa [kept (by simp [hop])] at there
  have inner := (does₃.trans does₄).trans does₅
  refine emitLoop_gives inner there hop ha Nat.le.refl fun z depth₆ looped => ?_
  have same : (v.push i).frame.depth = v.frame.depth := rfl
  refine Gives.weaken (looped.exitInner (by omega)) ?_
  rintro _ last ⟨depth₇, does₇⟩
  exact ⟨by omega, looped.trans does₇⟩

end Numeric

section Generic

theorem emitIterate_carries {a b start count : Nat} {k : LowerM Unit} {post : Unit → Lowering → Prop}
    (h : s.Rests slack pending) (after : b = a + 2) (inside : a + 2 + count < s.frame.peak)
    (inside' : a + 3 < s.frame.peak + slack) (landing : Landing s.frame.code start)
    (next : ∀ t, t.frame.depth = s.frame.depth → Does slack pending s t → Carries slack pending k t post) :
    Carries slack pending (do
      let _ ← Frame.emitAbc .tforCall a 0 count
      let loop ← Frame.emitAsbx .tforLoop b 0
      Frame.patch loop start
      k) s post := by
  have := h.bounds
  refine Gives.bind (.lift (Frame.emitAbc_gives (by omega) fun i hop ha hb hc => ?_))
  refine .bind (.lift (Frame.emitAsbx_gives (by omega) fun l hopl hal zero => ?_))
  have called : i.a + 2 + i.c < max (s.frame.peak + slack) 0 := by
    rw [ha, hc]
    omega
  have control : l.a = i.a + 2 := by rw [hal, ha, after]
  have tested : l.a + 1 < max (s.frame.peak + slack) 0 := by
    rw [hal]
    omega
  have pushed := h.frame.pushGeneric h.settled hop hb called hopl zero control tested
  have there : ((s.frame.push i).push l).code[(s.frame.push i).pc]? = some l := Frame.push_last
  refine .bind (.lift (Frame.patch_gives there hopl fun k hopk hak hk => ?_))
  have redirects : l.Redirects k := ⟨isJump_of_opcode hopl rfl, hopk.trans hopl.symm, .inl hak⟩
  have recorded := h.frame.recorded.later (by rw [Frame.push_pc]; exact Nat.le_succ _ : s.frame.pc ≤ (s.frame.push i).pc)
  have settled : ((s.frame.push i).push l).Settled := .ofPush recorded (binds_of_isJump (isJump_of_opcode hopl rfl))
  have distance : k.sbx = Frame.jumpOffset (s.frame.push i).pc start := hk
  have regular := pushed.replace there redirects ⟨start, by rw [distance, Frame.jumpOffset]; omega, landing.push.push⟩
    (fun prep => by cases hopl.symm.trans prep) (fun loop => by cases hopl.symm.trans loop)
  have grown := ((Frame.Grown.ofPush (f := s.frame) (i := i)).trans .ofPush).replace there (hopk.trans hopl.symm)
    (.inr (by rw [Frame.push_pc]; omega))
  have does : Does slack pending s ⟨((s.frame.push i).push l).replace (s.frame.push i).pc k, s.enclosing⟩ :=
    .ofFrame h.toRegular regular grown rfl rfl (settled.replace redirects) h.balanced h.opened
  exact Gives.weaken (next _ rfl does) fun _ t given => ⟨given.1, does.trans given.2⟩

theorem emitGenericFor_regular (he : ∀ e ∈ exps, e.Regular slack) (hb : StatRegular slack body) {names : List String}
    (spare : 0 < names.length + slack) : StatRegular slack (emitGenericFor names exps body) := by
  intro pending s h
  have := h.depth_pos
  refine (h.enterScope true).bind fun _ t depth does => ?_
  refine (emitLocals_carries he _ does.toRests).bind ?_
  rintro _ u ⟨used, depth₁⟩ does₁
  have three : u.frame.used = t.frame.used + 3 := used
  refine .pc (.after (declare_gives does₁.toPauses names (Nat.le_succ _) Nat.le.refl) ?_)
  rintro _ v ⟨used', depth₂, _⟩ brings
  have most := brings.used_le
  have jump := emitJmp_lowers brings.toRegular (.inl brings.alone) (.inl rfl) (Nat.zero_le 255)
  refine .used (.difference (by omega) ((brings.carries jump ?_).bind ?_))
  · rintro _ _ ⟨_, _, _, rfl⟩
    rfl
  rintro _ _ ⟨⟨rfl, i, hop, rfl⟩, depth₃⟩ does₃
  have jumps : (v.push i).frame.Jumps v.frame.pc := ⟨i, Frame.push_last, hop⟩
  have start : Landing (v.push i).frame.code (v.frame.pc + 1) := by
    have here := does₃.settled.landing
    rwa [push_frame, Frame.push_pc] at here
  refine (hb does₃.toRests).bind fun _ x depth₄ does₄ => ?_
  refine does₄.closeCaptured.bind fun _ y depth₅ does₅ => ?_
  refine (does₅.land (jumps.grow (does₄.trans does₅).grown)).bind fun _ z depth₆ does₆ => ?_
  have inner := (does₄.trans does₅).trans does₆
  have peak := (does₃.trans inner).grown.peak
  refine emitIterate_carries does₆.toRests rfl (by omega) (by omega) (inner.grown.landing start) ?_
  intro last depth₇ does₇
  refine (does₇.exitInner (by omega)).weaken ?_
  intro _ final depth₈
  omega

end Generic

end LuaBytecode
