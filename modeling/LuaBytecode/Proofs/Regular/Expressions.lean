import LuaBytecode.Proofs.Regular.Operands

namespace LuaBytecode

open Lowering

theorem Gives.ofLift {α : Type} {m : FrameM α} {s : Lowering} {post : α → Lowering → Prop}
    (h : Gives (liftM m : LowerM α) s post) : Gives m s.frame fun a f => post a ⟨f, s.enclosing⟩ :=
  .intro (fun _ _ run => h.ok (lift_run run)) fun e f run => by
    have failed : (liftM m : LowerM α) s = .error e ⟨f, s.enclosing⟩ := by
      show Lowering.step m s = _
      simp only [Lowering.step, run]
    exact h.error failed

namespace ExpCode

variable {slack : Nat} {pending : List Nat} {s t : Lowering} {a : Nat} {e object key callee lhs rhs operand : ExpCode}
  {exps args : List ExpCode} {exp : Exp}

section Plain

theorem plain_regular (exp : Exp) (emit : Nat → Int → LowerM Unit) (single : exp.isMulti = false) (h : Emits slack emit) :
    (plain exp emit).Regular slack where
  emit pending s a n poised inside wanted := by
    have one : n = 1 := by
      rcases wanted with one | ⟨multi, _⟩
      · exact one
      · cases single.symm.trans multi
    subst one
    refine Gives.weaken (h poised inside) ?_
    rintro _ t ⟨used, leads⟩
    refine ⟨?_, (leads.evals used).extend _⟩
    rw [if_neg]
    · exact leads.settled
    · rintro ⟨_, zero⟩
      simp [Frame.countOperand] at zero
  operands := by
    refine ⟨List.cons_ne_nil _ _, ?_⟩
    rintro _ member
    cases List.mem_singleton.mp member
    exact h
  prepare := by rintro _ ⟨⟩
  method := by rintro _ ⟨⟩
  target _ _ _ := Gives.bind (.get (.throw trivial))
  register _ _ poised := .pure poised ⟨rfl, by rintro _ ⟨⟩⟩
  place _ _ poised := .pure poised (by rintro _ ⟨⟩)

theorem ofNil_regular : ofNil.Regular slack := by
  refine plain_regular _ _ rfl fun pending s a poised inside => ?_
  have := poised.bounds
  refine .done (poised.emitAbc ?_ rfl (by omega) False.elim False.elim)
  rintro r ⟨_, below⟩
  have below : r ≤ a + (1 - 1) := below
  omega

theorem ofBool_regular (value : Bool) : (ofBool value).Regular slack := by
  refine plain_regular _ _ rfl fun pending s a poised inside => ?_
  have := poised.bounds
  refine .done (poised.emitAbc ?_ rfl (by omega) False.elim False.elim)
  rintro r rfl
  omega

theorem ofConstant_regular (single : exp.isMulti = false) (k : Constant) : (ofConstant exp k).Regular slack :=
  plain_regular _ _ single fun _ _ _ poised inside =>
    .done (poised.emitLoadK k (Nat.lt_of_lt_of_le inside poised.used_le))

theorem ofName_regular (name : String) : (ofName name).Regular slack :=
  { plain_regular (.name name) (fun a _ => emitName name a) rfl fun _ _ _ poised inside =>
      emitName_lowers poised name (Nat.lt_of_lt_of_le inside poised.used_le) with
    target := fun _ _ poised => nameTarget_lowers poised name
    register := fun _ _ poised => Gives.bind (.get (Lowers.pure poised ⟨rfl, fun _ => register?_lt poised⟩))
    place := fun _ _ poised => (resolve_lowers poised name).weaken fun _ _ given => given.1 }

end Plain

section Index

theorem operands_of_index (ho : object.Regular slack) (hk : key.Regular slack) (poised : s.Poised slack pending) :
    Lowers slack pending (scratch do
      let table ← object.toTable
      return (table, ← key.toRk)) s fun p t => (p.1.Fits t.frame ∧ t.frame.HasRk p.2) ∧
        t.frame.used = s.frame.used := by
  refine .scratch poised ((ho.toTable poised).bind ?_) ?_
  · intro table t fits leads
    refine (hk.toRk leads.toPoised).bind ?_
    intro rk u known leads'
    exact .pure leads'.toPoised ⟨fits.grow leads'.grown, known⟩
  · rintro p t u ⟨fits, known⟩ grown
    exact ⟨fits.grow grown, known.grow grown⟩

theorem ofIndex_regular (single : exp.isMulti = false) (ho : object.Regular slack) (hk : key.Regular slack) :
    (ofIndex exp object key).Regular slack := by
  refine { plain_regular exp _ single ?_ with method := ?_, target := ?_ }
  · intro pending s a poised inside
    refine (operands_of_index ho hk poised).bind ?_
    rintro ⟨table, rk⟩ t ⟨⟨fits, known⟩, used⟩ leads
    have := leads.bounds
    rw [← used]
    exact emitGetField_lowers leads.toPoised (by omega) fits known
  · rintro _ ⟨⟩ pending s a poised inside
    refine (ho.emits poised inside).bind ?_
    intro _ t used leads
    refine leads.alloc.bind ?_
    rintro _ u ⟨_, used'⟩ leads'
    refine (Lowers.scratch leads'.toPoised (hk.toRk leads'.toPoised) fun _ _ _ => Frame.HasRk.grow).bind ?_
    rintro rk v ⟨known, used''⟩ leads''
    have := leads''.bounds
    rw [← used, ← used', ← used'']
    refine .done (leads''.emitAbc ?_ rfl (by omega) (known.constant leads''.frame.peak) False.elim)
    rintro r (rfl | rfl | rfl | names)
    · omega
    · omega
    · omega
    · exact known.register names
  · intro pending s poised
    refine (ho.toNewRegister poised).bind ?_
    rintro _ t ⟨rfl, used⟩ leads
    refine (Regular.constantRk? leads.toPoised).bind ?_
    intro rk? u known leads'
    have := leads.bounds
    have := leads'.bounds
    cases rk? with
    | some rk => exact .pure leads'.toPoised ⟨show s.frame.used < u.frame.peak by omega, known rk rfl⟩
    | none =>
      refine (hk.toNewRegister leads'.toPoised).bind ?_
      rintro _ v ⟨rfl, used'⟩ leads''
      have := leads''.bounds
      exact .pure leads''.toPoised ⟨show s.frame.used < v.frame.peak by omega, .inl (by omega)⟩

end Index

section Calls

theorem multi_regular {emit : Nat → Int → LowerM Unit} (multi : exp.isMulti = true)
    (h : ∀ ⦃pending : List Nat⦄ ⦃s : Lowering⦄ ⦃a : Nat⦄ ⦃n : Int⦄, s.Poised slack pending → a < s.frame.used →
      -1 ≤ n → Gives (emit a n) s fun _ t =>
        (if Frame.countOperand n = 0 then t.frame.Opened a else t.frame.Settled) ∧
          Evals slack (a + n.toNat) pending s.frame.used s t) : (plain exp emit).Regular slack where
  emit pending s a n poised inside wanted := by
    refine (h poised inside (by omega)).weaken ?_
    rintro _ t ⟨leaves, evals⟩
    refine ⟨?_, evals⟩
    simpa only [show (plain exp emit).isMulti = true from multi, true_and] using leaves
  operands := by
    refine ⟨List.cons_ne_nil _ _, ?_⟩
    rintro _ member
    cases List.mem_singleton.mp member
    intro pending s a poised inside
    refine (h poised inside (by omega)).weaken ?_
    rintro _ t ⟨leaves, evals⟩
    have := evals.regular.used_le
    have used := evals.used
    rw [if_neg (by simp [Frame.countOperand])] at leaves
    exact ⟨used, (evals.settle (by simp only [Int.toNat_one]; omega)).leads leaves⟩
  prepare := by rintro _ ⟨⟩
  method := by rintro _ ⟨⟩
  target _ _ _ := Gives.bind (.get (.throw trivial))
  register _ _ poised := .pure poised ⟨rfl, by rintro _ ⟨⟩⟩
  place _ _ poised := .pure poised (by rintro _ ⟨⟩)

theorem leaves_push {f : Frame} {i : Instruction} {count : Nat} (recorded : Recorded f.depth f.pc f.locals f.live)
    (produces : i.opcode? = some .call ∧ i.c = count ∨ i.opcode? = some .vararg ∧ i.b = count) :
    if count = 0 then (f.push i).Opened i.a else (f.push i).Settled := by
  split
  · rename_i all
    apply Frame.Opened.ofPush
    rcases produces with ⟨hop, same⟩ | ⟨hop, same⟩ <;> simp [Instruction.isOpen, hop, same, all]
  · rename_i counted
    refine .ofPush recorded (Instruction.binds_eq_false.mpr ?_)
    rcases produces with ⟨hop, same⟩ | ⟨hop, same⟩ <;>
      simp [Instruction.isTest, Instruction.hasExtra, Instruction.isOpen, hop, Opcode.isTest, same, counted]

theorem ofVararg_regular : ofVararg.Regular slack := by
  refine multi_regular rfl fun pending s a n poised inside least => ?_
  have count := Frame.countOperand_le least
  have := poised.bounds
  refine .bind (.get ?_)
  show Gives (if s.frame.isVararg = true then _ else _) s _
  split
  · refine .bind ((emitStart_gives (poised.extend (a + n.toNat)) poised.settled ?_ rfl (by decide) (by omega) ?_
      False.elim False.elim rfl).weaken ?_)
    · intro i hop _ _
      exact ⟨by simp [hop], by simp [Instruction.takesOpen, hop], by simp [hop]⟩
    · rintro r (rfl | ⟨_, below⟩) <;> omega
    · rintro _ t ⟨⟨i, hop, rfl, hb, _, rfl⟩, evals⟩
      exact .pure ⟨leaves_push poised.frame.recorded (.inr ⟨hop, hb⟩), evals⟩
  · exact .throw trivial

theorem prepareCall_gives (hc : callee.Regular slack) (ha : ∀ e ∈ args, e.Regular slack) (isMethod : Bool)
    (poised : s.Poised slack pending) (inside : a < s.frame.used) :
    Gives (prepareCall callee args isMethod a) s fun count t =>
      t.frame.Prepared a count ∧ Evals slack 0 pending s.frame.used s t := by
  have := poised.bounds
  unfold prepareCall
  split
  · rename_i loadMethod method
    have ha : ∀ e ∈ args.drop 1, e.Regular slack := fun e member => ha e (List.mem_of_mem_drop member)
    generalize args.drop 1 = args at ha
    refine (hc.method _ method poised inside).before ?_
    intro _ t used leads
    refine .bind ((loadOpen_gives ha leads.toPoised).weaken ?_)
    rintro _ u ⟨leaves, evals⟩
    have used' := evals.used
    have live := (leads.before evals).live
    have most := evals.regular.used_le
    refine .bind ((freeN_gives evals.regular (by omega)).weaken ?_)
    rintro _ v ⟨same, evals'⟩
    have used'' := evals'.used
    have live' := evals'.live
    refine .bind ((free_gives evals'.regular (by omega)).weaken ?_)
    rintro _ w ⟨same', evals''⟩
    refine .pure ⟨?_, (((leads.before evals).trans evals').trans evals'').cast (by omega)⟩
    have peak := (evals'.trans evals'').grown.peak
    split
    · rename_i openArgs
      rw [if_pos openArgs] at leaves
      exact .inl ⟨rfl, _, by omega, (leaves.recounted same).recounted same'⟩
    · rename_i closed
      rw [if_neg closed] at leaves
      exact .inr ⟨by omega, (leaves.recounted same).recounted same', by omega⟩
  · refine (hc.emits poised inside).before ?_
    intro _ t used leads
    refine .bind ((loadOpen_gives ha leads.toPoised).weaken ?_)
    rintro _ u ⟨leaves, evals⟩
    have used' := evals.used
    have live := (leads.before evals).live
    have most := evals.regular.used_le
    refine .bind ((freeN_gives evals.regular (by omega)).weaken ?_)
    rintro _ v ⟨same, evals'⟩
    refine .pure ⟨?_, ((leads.before evals).trans evals').cast (by omega)⟩
    have peak := evals'.grown.peak
    unfold countOf
    split
    · rename_i openArgs
      rw [if_pos openArgs] at leaves
      have some : args ≠ [] := by
        rintro rfl
        cases openArgs
      have := List.length_pos_iff.mpr some
      exact .inl ⟨rfl, _, by omega, leaves.recounted same⟩
    · rename_i closed
      rw [if_neg closed] at leaves
      exact .inr ⟨by omega, leaves.recounted same, by omega⟩

theorem supplied_of_prepared {f : Frame} {count : Int} (h : f.Prepared a count) (limit : f.peak < 255) :
    (Frame.countOperand count ≠ 0 ∧ f.Settled ∨ Frame.countOperand count = 0 ∧ ∃ r, f.Opened r ∧ a + 1 ≤ r) ∧
      ∀ r, a ≤ r → r + 1 ≤ a + Frame.countOperand count → r < f.peak := by
  rcases h with ⟨rfl, r, above, opened⟩ | ⟨counted, settled, below⟩
  · have zero : Frame.countOperand (-1) = 0 := rfl
    exact ⟨.inr ⟨zero, r, opened, above⟩, by rw [zero]; omega⟩
  · obtain ⟨n, rfl⟩ := Int.eq_ofNat_of_zero_le counted
    simp only [Int.toNat_natCast] at below ⊢
    rw [Frame.countOperand_natCast (by omega)]
    exact ⟨.inl ⟨by omega, settled⟩, by omega⟩

theorem emitCall_gives (hc : callee.Regular slack) (ha : ∀ e ∈ args, e.Regular slack) (isMethod : Bool) {n : Int}
    (poised : s.Poised slack pending) (inside : a < s.frame.used) (least : -1 ≤ n) :
    Gives (emitCall callee args isMethod a n) s fun _ t =>
      (if Frame.countOperand n = 0 then t.frame.Opened a else t.frame.Settled) ∧
        Evals slack (a + n.toNat) pending s.frame.used s t := by
  have count := Frame.countOperand_le least
  refine .bind ((prepareCall_gives hc ha isMethod poised inside).weaken ?_)
  rintro args t ⟨prepared, evals⟩
  have limit := evals.regular.limit
  have fits := evals.regular.used_le
  have used := evals.used
  obtain ⟨supplied, below⟩ := supplied_of_prepared prepared limit
  refine .bind ((emitTaker_gives (evals.regular.extend (a + n.toNat)) (.inl rfl) (by omega) (by simpa using supplied)
    ?_).weaken ?_)
  · rintro r (rfl | ⟨least', most⟩ | ⟨_, most⟩)
    · omega
    · have := below r least' most
      omega
    · omega
  · rintro _ u ⟨⟨i, hop, rfl, _, hc, rfl⟩, evals'⟩
    exact .pure ⟨leaves_push evals.regular.frame.recorded (.inl ⟨hop, hc⟩), (evals.trans evals').cast used⟩

theorem ofCall_regular (multi : exp.isMulti = true) (hc : callee.Regular slack) (ha : ∀ e ∈ args, e.Regular slack)
    (isMethod : Bool) : (ofCall exp callee args isMethod).Regular slack := by
  refine { multi_regular multi fun _ _ _ _ => emitCall_gives hc ha isMethod with prepare := ?_ }
  rintro _ ⟨⟩ pending s a poised inside
  exact prepareCall_gives hc ha isMethod poised inside

end Calls

end ExpCode

end LuaBytecode
