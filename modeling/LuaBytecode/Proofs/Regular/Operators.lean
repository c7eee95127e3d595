import LuaBytecode.Proofs.Regular.Expressions

namespace LuaBytecode

open Lowering Instruction

namespace ExpCode

variable {slack : Nat} {pending : List Nat} {s t : Lowering} {a : Nat} {lhs rhs operand : ExpCode} {exp : Exp}

theorem register_of_operand (h : operand.Regular slack) (poised : s.Poised slack pending) :
    Lowers slack pending (scratch operand.toRegister) s fun r t => r < t.frame.peak ∧ t.frame.used = s.frame.used :=
  .scratch poised (h.toRegister poised) fun _ _ _ inside grown => Nat.lt_of_lt_of_le inside grown.peak

theorem toRks_lowers (hl : lhs.Regular slack) (hr : rhs.Regular slack) (poised : s.Poised slack pending) :
    Lowers slack pending (toRks lhs rhs) s fun p t => (t.frame.HasRk p.1 ∧ t.frame.HasRk p.2) ∧
      t.frame.used = s.frame.used := by
  refine .scratch poised ((hl.toRk poised).bind ?_) ?_
  · intro b t known leads
    refine (hr.toRk leads.toPoised).bind ?_
    intro c u known' leads'
    exact .pure leads'.toPoised ⟨known.grow leads'.grown, known'⟩
  · rintro p t u ⟨known, known'⟩ grown
    exact ⟨known.grow grown, known'.grow grown⟩

theorem emitUnop_lowers (op : UnOp) (h : operand.Regular slack) : Emits slack fun a _ => emitUnop op operand a := by
  intro pending s a poised inside
  refine (register_of_operand h poised).bind ?_
  rintro b t ⟨inside', used⟩ leads
  have := leads.bounds
  rw [← used]
  refine .done (leads.emitAbc ?_ (by cases op <;> rfl) (by omega) ?_ ?_)
  · intro r accesses
    have either : r = a ∨ r = b := by cases op <;> exact accesses
    omega
  · intro _ _ uses
    cases op <;> exact uses.elim
  · intro _ uses
    cases op <;> exact uses.elim

section Concat

variable {operands : List (Nat → Int → LowerM Unit)}

theorem loadOperands_lowers (h : ∀ emit ∈ operands, Emits slack emit) (poised : s.Poised slack pending) :
    Lowers slack pending (loadOperands operands) s fun _ t => t.frame.used = s.frame.used + operands.length := by
  induction operands generalizing s with
  | nil => exact .pure poised rfl
  | cons emit rest ih =>
    refine Regular.next (h emit (.head _)) poised fun t used leads => ?_
    refine (ih (fun emit member => h emit (.tail _ member)) leads.toPoised).weaken ?_
    intro _ u used'
    rw [List.length_cons]
    omega

theorem emitConcat_lowers (some : operands ≠ []) (h : ∀ emit ∈ operands, Emits slack emit) :
    Emits slack fun a _ => emitConcat operands a := by
  intro pending s a poised inside
  have positive := List.length_pos_iff.mpr some
  have := poised.bounds
  refine .used ((loadOperands_lowers h poised).bind ?_)
  intro _ t used leads
  have := leads.bounds
  refine .difference (by omega) ((leads.freeN (by omega)).bind ?_)
  intro _ u used' leads'
  have := leads'.bounds
  rw [show s.frame.used = u.frame.used by omega]
  refine .done (leads'.emitAbc ?_ rfl (by omega) False.elim False.elim)
  rintro r (rfl | ⟨_, below⟩) <;> omega

end Concat

theorem emitLogical_lowers (stopIf : Bool) (hl : lhs.Regular slack) (hr : rhs.Regular slack) :
    Emits slack fun a _ => emitLogical stopIf lhs rhs a := by
  intro pending s a poised inside
  refine (register_of_operand hl poised).bind ?_
  rintro b t ⟨inside', used⟩ leads
  have := leads.bounds
  refine .after (emitTest_gives leads.toPoised ?_ False.elim rfl rfl (by omega)) ?_
  · rintro r (rfl | rfl) <;> omega
  intro _ u tests evals
  refine (emitJmp_lowers evals.regular (.inr tests) (.inl rfl) (Nat.zero_le _)).bind ?_
  rintro _ v ⟨rfl, i, hop, rfl⟩ leads'
  refine (register_of_operand hr leads'.toPoised).bind ?_
  rintro c w ⟨inside'', used'⟩ leads''
  have := evals.grown.peak
  have := leads'.bounds
  have := leads''.bounds
  refine (leads''.emitMove (by omega) inside'').bind ?_
  intro _ x used'' leads₃
  -- The jump over the right operand is still where it was.
  obtain ⟨j, there, same, _⟩ := (leads''.trans leads₃).grown.code _ _ Frame.push_last
  refine (leads₃.patchHere there (same.trans hop)).weaken ?_
  intro _ y used₃
  exact used₃.trans ((used''.trans used').trans (evals.used.trans used))

section Comparison

theorem exists_jump : ∃ j, asbx .jmp 0 0 = .ok j := ⟨_, rfl⟩

/-- A test and a jump over the first of two loads. The jump goes over code that does not exist yet when it is emitted, so
    the frame is seen as one in which the jump was patched at the end. -/
theorem emitComparison_lowers {opcode : Opcode} {expect x y : Nat} (compares : opcode = .eq ∨ opcode = .lt ∨ opcode = .le)
    (small : expect ≤ 255) (hx : s.frame.HasRk x) (hy : s.frame.HasRk y) (poised : s.Poised slack pending)
    (inside : a < s.frame.used) : Restores slack pending (emitComparison opcode expect x y a) s := by
  have := poised.bounds
  have test : opcode.isTest = true := by rcases compares with rfl | rfl | rfl <;> rfl
  have listed : opcode.listsAll x y = true := by rcases compares with rfl | rfl | rfl <;> rfl
  refine Gives.bind ((emitTest_gives poised ?_ ?_ test listed small).weaken ?_)
  · intro r accesses
    have either : NamesRegister x r ∨ NamesRegister y r := by rcases compares with rfl | rfl | rfl <;> exact accesses
    rcases either with names | names
    · exact hx.register names
    · exact hy.register names
  · intro _ k uses
    have either : NamesConstant x k ∨ NamesConstant y k := by rcases compares with rfl | rfl | rfl <;> exact uses
    rcases either with names | names
    · exact hx.constant poised.frame.peak names
    · exact hy.constant poised.frame.peak names
  rintro _ t ⟨tests, evals⟩
  have used := evals.used
  have peak := evals.grown.peak
  have limit := evals.regular.limit
  refine .bind (.lift (Frame.emitAsbx_gives (Nat.zero_le _) fun j hopj _ hsbx => ?_))
  refine .bind (.lift (Frame.emitAbc_gives (by omega) fun b₀ hop₀ ha₀ hb₀ hc₀ => ?_))
  refine .bind (.lift (Frame.emitAbc_gives (by omega) fun b₁ hop₁ ha₁ hb₁ hc₁ => .pure ?_))
  obtain ⟨j₀, built⟩ := exists_jump
  obtain ⟨hopj₀, _, hsbx₀, _⟩ := asbx_ok built
  have load : ∀ {f : Frame} {b : Instruction}, f.Regular (max (f.peak + slack) 0) pending → f.Settled →
      b.opcode? = some .loadBool → b.a = a → a < f.peak →
      (f.push b).Regular (max (f.peak + slack) 0) pending ∧ (f.push b).Settled := by
    intro f b regular settled hop ha inside
    have starts : b.Starts := ⟨by simp [hop], by simp [takesOpen, hop], by simp [hop]⟩
    refine ⟨regular.emit settled hop starts rfl (by decide) ?_, .ofPush regular.recorded (binds_eq_false.mpr ?_)⟩
    · refine .intro hop ?_ rfl False.elim False.elim
      rintro r rfl
      omega
    · simp [isTest, hasExtra, Instruction.isOpen, hop, Opcode.isTest]
  have virtual : (t.frame.push j₀).Regular (max (t.frame.peak + slack) 0) pending := by
    refine evals.regular.frame.jump (fun k last => ?_) hopj₀ (.inl hsbx₀)
    obtain ⟨l, last', test'⟩ := tests
    cases last.symm.trans last'
    exact .ofTest test' hopj₀
  have alone : (t.frame.push j₀).Settled :=
    .ofPush evals.regular.frame.recorded (binds_of_isJump (by rw [isJump, hopj₀]; rfl))
  obtain ⟨first, settled₀⟩ := load virtual alone hop₀ ha₀ (show a < t.frame.peak by omega)
  obtain ⟨second, settled₁⟩ := load first settled₀ hop₁ ha₁ (show a < t.frame.peak by omega)
  have redirects : j₀.Redirects j := ⟨by rw [isJump, hopj₀]; rfl, hopj.trans hopj₀.symm, .inr hopj₀⟩
  have there : (((t.frame.push j₀).push b₀).push b₁).code[t.frame.pc]? = some j₀ := by
    simp only [Frame.push_code]
    exact getElem?_push_of_some (getElem?_push_of_some Array.getElem?_push_size)
  have landing : Landing (((t.frame.push j₀).push b₀).push b₁).code (t.frame.pc + 2) := by
    have here := settled₀.landing.push (j := b₁)
    rw [Frame.push_pc, Frame.push_pc] at here
    exact here
  have patched := second.replace there redirects ⟨t.frame.pc + 2, by rw [hsbx]; omega, landing⟩
    (fun prep => by cases hopj₀.symm.trans prep) (fun loop => by cases hopj₀.symm.trans loop)
  have same : (((t.frame.push j₀).push b₀).push b₁).replace t.frame.pc j = ((t.frame.push j).push b₀).push b₁ := by
    rw [Frame.push_replace_earlier (by simp only [Frame.push_pc]; omega),
      Frame.push_replace_earlier (by simp only [Frame.push_pc]; omega), Frame.push_replace]
  rw [same] at patched
  have last : ((((t.frame.push j₀).push b₀).push b₁).replace t.frame.pc j).Settled := settled₁.replace redirects
  rw [same] at last
  exact ⟨used, (evals.trans (.ofFrame evals.regular (f := ((t.frame.push j).push b₀).push b₁) patched
    ((Frame.Grown.ofPush.trans .ofPush).trans .ofPush) rfl rfl rfl rfl)).leads last⟩

end Comparison

theorem emitArithmetic_lowers {opcode : Opcode} (plain : ∀ b c, opcode.isPlain b c = true)
    (accesses : ∀ b c r, opcode.Accesses a b c r → r = a ∨ NamesRegister b r ∨ NamesRegister c r)
    (uses : ∀ b c bx k, opcode.UsesConstant b c bx k → NamesConstant b k ∨ NamesConstant c k)
    (closed : ∀ b u, ¬opcode.UsesUpvalue a b u) (hl : lhs.Regular slack) (hr : rhs.Regular slack)
    (poised : s.Poised slack pending) (inside : a < s.frame.used) :
    Restores slack pending (do
      let (b, c) ← toRks lhs rhs
      let _ ← Frame.emitAbc opcode a b c) s := by
  refine (toRks_lowers hl hr poised).bind ?_
  rintro ⟨b, c⟩ t ⟨⟨hb, hc⟩, used⟩ leads
  have := leads.bounds
  rw [← used]
  refine .done (leads.emitAbc ?_ (plain b c) (by omega) ?_ fun names => absurd names (closed b _))
  · intro r access
    rcases accesses b c r access with rfl | names | names
    · omega
    · exact hb.register names
    · exact hc.register names
  · intro bx k use
    rcases uses b c bx k use with names | names
    · exact hb.constant leads.frame.peak names
    · exact hc.constant leads.frame.peak names

theorem emitCompare_lowers {opcode : Opcode} {expect : Nat} (compares : opcode = .eq ∨ opcode = .lt ∨ opcode = .le)
    (small : expect ≤ 255) (swap : Bool) (hl : lhs.Regular slack) (hr : rhs.Regular slack)
    (poised : s.Poised slack pending) (inside : a < s.frame.used) :
    Restores slack pending (do
      let (b, c) ← toRks lhs rhs
      if swap then emitComparison opcode expect c b a else emitComparison opcode expect b c a) s := by
  refine (toRks_lowers hl hr poised).bind ?_
  rintro ⟨b, c⟩ t ⟨⟨hb, hc⟩, used⟩ leads
  rw [← used] at inside ⊢
  cases swap with
  | true => exact emitComparison_lowers compares small hc hb leads.toPoised inside
  | false => exact emitComparison_lowers compares small hb hc leads.toPoised inside

theorem emitBinop_lowers (op : BinOp) (hl : lhs.Regular slack) (hr : rhs.Regular slack) :
    Emits slack fun a _ => emitBinop op lhs rhs a := by
  intro pending s a poised inside
  have concat : ∀ emit ∈ lhs.operands ++ rhs.operands, Emits slack emit := by
    intro emit member
    rcases List.mem_append.mp member with left | right
    · exact hl.operands.2 emit left
    · exact hr.operands.2 emit right
  cases op with
  | and => exact emitLogical_lowers false hl hr poised inside
  | or => exact emitLogical_lowers true hl hr poised inside
  | concat => exact emitConcat_lowers (by simp [hl.operands.1]) concat poised inside
  | eq => exact emitCompare_lowers (.inl rfl) (by omega) false hl hr poised inside
  | notEq => exact emitCompare_lowers (.inl rfl) (by omega) false hl hr poised inside
  | lt => exact emitCompare_lowers (.inr (.inl rfl)) (by omega) false hl hr poised inside
  | gt => exact emitCompare_lowers (.inr (.inl rfl)) (by omega) true hl hr poised inside
  | ltEq => exact emitCompare_lowers (.inr (.inr rfl)) (by omega) false hl hr poised inside
  | gtEq => exact emitCompare_lowers (.inr (.inr rfl)) (by omega) true hl hr poised inside
  | _ =>
    refine emitArithmetic_lowers ?_ ?_ ?_ ?_ hl hr poised inside
    · exact fun _ _ => rfl
    · exact fun _ _ _ => id
    · exact fun _ _ _ _ => id
    · exact fun _ _ => id

theorem ofUnop_regular (op : UnOp) (single : exp.isMulti = false) (h : operand.Regular slack) :
    (plain exp fun a _ => emitUnop op operand a).Regular slack := plain_regular _ _ single (emitUnop_lowers op h)

theorem ofBinop_regular (op : BinOp) (single : exp.isMulti = false) (hl : lhs.Regular slack) (hr : rhs.Regular slack) :
    (ofBinop exp op lhs rhs).Regular slack := by
  refine { plain_regular exp _ single (emitBinop_lowers op hl hr) with operands := ?_ }
  show (if op = .concat then lhs.operands ++ rhs.operands else [fun a _ => emitBinop op lhs rhs a]) ≠ [] ∧
    ∀ emit ∈ if op = .concat then lhs.operands ++ rhs.operands else [fun a _ => emitBinop op lhs rhs a], Emits slack emit
  split
  · refine ⟨by simp [hl.operands.1], fun emit member => ?_⟩
    rcases List.mem_append.mp member with left | right
    · exact hl.operands.2 emit left
    · exact hr.operands.2 emit right
  · refine ⟨List.cons_ne_nil _ _, fun emit member => ?_⟩
    cases List.mem_singleton.mp member
    exact emitBinop_lowers op hl hr

end ExpCode

end LuaBytecode
