import LuaBytecode.Proofs.Lowering.Evaluation

namespace LuaBytecode

open Lowering Instruction

def Frame.Tests (f : Frame) : Prop := ∃ i, f.code.back? = some i ∧ i.isTest = true

variable {slack reach : Nat} {pending : List Nat} {s t : Lowering} {op : Opcode} {a b c pc : Nat} {i j : Instruction}

namespace Instruction

theorem Linked.ofTest (test : i.isTest = true) (jump : j.opcode? = some .jmp) : i.Linked j := by
  unfold isTest at test
  cases hop : i.opcode? with
  | none => simp [hop] at test
  | some op =>
    rw [hop, Option.any_some] at test
    exact
      { test := fun _ => jump
        extra := by cases op <;> simp_all [hasExtra, Opcode.isTest]
        results := by cases op <;> simp_all [isOpen, takesOpen, Opcode.isTest]
        taken := by cases op <;> simp_all [isOpen, Opcode.isTest]
        generic := by cases op <;> simp_all [Opcode.isTest]
        control := by cases op <;> simp_all [Opcode.isTest] }

theorem Linked.ofOpen (results : i.isOpen = true) (takes : j.takesOpen = true) (first : j.firstTaken ≤ i.a) :
    i.Linked j := by
  have producer : i.opcode? = some .call ∨ i.opcode? = some .tailCall ∨ i.opcode? = some .vararg := by
    simp only [isOpen, Bool.or_eq_true, Bool.and_eq_true, beq_iff_eq] at results
    tauto
  have taker : j.opcode? = some .call ∨ j.opcode? = some .tailCall ∨ j.opcode? = some .ret ∨
      j.opcode? = some .setList := by
    simp only [takesOpen, Bool.or_eq_true, Bool.and_eq_true, beq_iff_eq] at takes
    tauto
  refine ⟨?_, ?_, ?_, fun _ => first, ?_, ?_⟩
  · rcases producer with hop | hop | hop <;> simp [isTest, hop, Opcode.isTest]
  · rcases producer with hop | hop | hop <;> rcases taker with hop' | hop' | hop' | hop' <;>
      simp [hasExtra, hop, hop']
  · simp [results, takes]
  · rcases producer with hop | hop | hop <;> rcases taker with hop' | hop' | hop' | hop' <;> simp [hop, hop']
  · rcases producer with hop | hop | hop <;> simp [hop]

end Instruction

namespace Frame

variable {f : Frame}

theorem Settled.replace (settled : f.Settled) (redirects : i.Redirects j) : (f.replace pc j).Settled := by
  refine ⟨fun k last => ?_, by rw [replace_pc]; exact settled.2⟩
  rw [Array.back?_eq_getElem?, replace_code, Array.size_setIfInBounds] at last
  rcases getElem?_set_cases last with ⟨_, rfl⟩ | ⟨_, old⟩
  · exact redirects.alone
  · apply settled.1
    rwa [Array.back?_eq_getElem?]

theorem Opened.recounted {g : Frame} {r : Nat} (opened : f.Opened r) (same : f.Recounted g) : g.Opened r := by
  unfold Opened
  rwa [same.code]

end Frame

namespace Lowering

theorem emitTest_gives (h : s.Poised slack pending) (registers : ∀ r, op.Accesses a b c r → r < s.frame.peak)
    (constants : ∀ {bx k}, op.UsesConstant b c bx k → k < s.frame.constants.entries.size)
    (test : op.isTest = true) (listed : op.listsAll b c = true) (small : a ≤ 255) :
    Gives (Frame.emitAbc op a b c : LowerM Nat) s fun _ t =>
      t.frame.Tests ∧ Evals slack 0 pending s.frame.used s t := by
  refine (emitStart_gives h.toRegular h.settled ?_ ?_ ?_ small ?_ constants ?_ listed).weaken ?_
  · intro i hop hb _
    refine ⟨?_, ?_, ?_⟩ <;> cases op <;> simp_all [takesOpen, Opcode.isTest]
  · cases op <;> first
      | rfl
      | cases test
  · rintro rfl
    cases test
  · intro r accesses
    have := registers r accesses
    omega
  · intro u uses
    cases op <;> first
      | exact uses.elim
      | cases test
  · rintro _ t ⟨⟨i, hop, _, _, _, rfl⟩, evals⟩
    refine ⟨⟨i, Array.back?_push, ?_⟩, evals⟩
    rw [isTest, hop]
    exact test

theorem emitJmp_lowers (h : s.Regular slack 0 pending) (ready : s.frame.Alone ∨ s.frame.Tests) {sbx : Int}
    (lands : sbx = 0 ∨ ∃ t : Nat, (t : Int) = s.frame.pc + 1 + sbx ∧ Landing s.frame.code t) (small : a ≤ 255) :
    Lowers slack pending (Frame.emitJmp a sbx : LowerM Nat) s fun pc t => pc = s.frame.pc ∧
      ∃ i, i.opcode? = some .jmp ∧ t = s.push i := by
  refine .lift (Frame.emitAsbx_gives small fun i hop ha hsbx => ⟨⟨rfl, i, hop, rfl⟩, (evals_push h ?_).leads ?_⟩)
  · refine h.frame.jump (fun k last => ?_) hop (hsbx ▸ lands)
    rcases ready with alone | ⟨l, last', test⟩
    · exact .ofStarts (alone k last) ⟨by simp [hop], by simp [takesOpen, hop], by simp [hop]⟩
    · cases last.symm.trans last'
      exact .ofTest test hop
  · exact .ofPush h.frame.recorded (binds_of_isJump (by rw [isJump, hop]; rfl))

theorem Poised.patchHere (h : s.Poised slack pending) (there : s.frame.code[pc]? = some i)
    (hop : i.opcode? = some .jmp) : Restores slack pending (Frame.patchHere pc : LowerM Unit) s := by
  refine .lift (Frame.patchHere_gives there hop fun j hop' ha hsbx => ?_)
  have redirects : i.Redirects j := ⟨by rw [isJump, hop]; rfl, hop'.trans hop.symm, .inl ha⟩
  have regular : (s.frame.replace pc j).Regular (max (s.frame.peak + slack) 0) pending := by
    refine h.frame.replace there redirects ⟨s.frame.pc, ?_, h.settled.landing⟩ ?_ ?_
    · rw [hsbx, Frame.jumpOffset]
      omega
    · intro prep
      cases hop.symm.trans prep
    · intro loop
      cases hop.symm.trans loop
  have grown : s.frame.Grown (s.frame.replace pc j) :=
    (Frame.Grown.refl s.frame).replace there redirects.opcode (.inl hop)
  exact ⟨rfl, (Evals.ofFrame h.toRegular regular grown rfl rfl rfl rfl).leads (h.settled.replace redirects)⟩

theorem emitTaker_gives (h : s.Regular slack reach pending)
    (taker : op = .call ∨ op = .tailCall ∨ op = .ret ∨ op = .setList) (small : a ≤ 255)
    (supplied : b ≠ 0 ∧ s.frame.Settled ∨
      b = 0 ∧ ∃ r, s.frame.Opened r ∧ (if op = .ret then a else a + 1) ≤ r)
    (registers : ∀ r, op.Accesses a b c r → r < max (s.frame.peak + slack) reach) :
    Gives (Frame.emitAbc op a b c : LowerM Nat) s fun _ t => (∃ i, i.opcode? = some op ∧ i.a = a ∧ i.b = b ∧
      i.c = c ∧ t = s.push i) ∧ Evals slack reach pending s.frame.used s t := by
  have constants : ∀ {bx k}, op.UsesConstant b c bx k → k < s.frame.constants.entries.size := by
    rcases taker with rfl | rfl | rfl | rfl <;> exact False.elim
  have upvalues : ∀ {u}, op.UsesUpvalue a b u → u < s.frame.upvalues.size := by
    rcases taker with rfl | rfl | rfl | rfl <;> exact False.elim
  have jump : op.isJump = false := by rcases taker with rfl | rfl | rfl | rfl <;> rfl
  have closure : op ≠ .closure := by rcases taker with rfl | rfl | rfl | rfl <;> decide
  have listed : ∀ b c, op.listsAll b c = true := by rcases taker with rfl | rfl | rfl | rfl <;> exact fun _ _ => rfl
  rcases supplied with ⟨counted, settled⟩ | ⟨rfl, r, ⟨k, last, results, rfl⟩, first⟩
  · refine emitStart_gives h settled (fun i hop hb _ => ⟨?_, ?_, ?_⟩) jump closure small registers constants upvalues
      (listed _ _)
    · rcases taker with rfl | rfl | rfl | rfl <;> simp [hop]
    · simp [takesOpen, hb, counted]
    · rcases taker with rfl | rfl | rfl | rfl <;> simp [hop]
  · refine .lift (Frame.emitAbc_gives small fun i hop ha hb hc => ⟨⟨i, hop, ha, hb, hc, rfl⟩, evals_push h ?_⟩)
    have fits : i.Fits (max (s.frame.peak + slack) reach) s.frame.constants.entries.size s.frame.upvalues.size := by
      subst ha hc
      rw [← hb] at registers constants upvalues
      exact .intro hop (registers _) (listed _ _) constants upvalues
    have takes : i.takesOpen = true := by
      rcases taker with rfl | rfl | rfl | rfl <;> simp [takesOpen, hop, hb]
    have first' : i.firstTaken ≤ k.a := by
      rw [firstTaken, hop, ha]
      simpa using first
    refine h.frame.push (by simp [hop]) ?_ ?_ ?_ ?_ fits ?_ ?_
    · intro empty
      rw [Array.back?_eq_getElem?, ← Frame.pc, empty] at last
      have := lt_of_getElem? last
      rw [← Frame.pc, empty] at this
      omega
    · intro l last'
      cases last.symm.trans last'
      exact .ofOpen results takes first'
    · intro moves
      rw [isJump, hop, Option.any_some, jump] at moves
      cases moves
    · intro prep
      cases hop.symm.trans prep
      cases jump
    · intro l last' wide
      cases last.symm.trans last'
      simp [isOpen, wide] at results
    · intro makes
      cases hop.symm.trans makes
      exact closure rfl

theorem emitReturn_lowers (h : s.Regular slack 0 pending) (small : a ≤ 255)
    (supplied : b ≠ 0 ∧ s.frame.Settled ∨ b = 0 ∧ ∃ r, s.frame.Opened r ∧ a ≤ r)
    (registers : ∀ r, Opcode.Accesses .ret a b 0 r → r < s.frame.peak) :
    Restores slack pending (Frame.emitAbc .ret a b 0 : LowerM Nat) s := by
  refine (emitTaker_gives h (.inr (.inr (.inl rfl))) small (by simpa using supplied) ?_).weaken ?_
  · intro r accesses
    have := registers r accesses
    omega
  · rintro _ t ⟨⟨i, hop, _, _, _, rfl⟩, evals⟩
    refine ⟨rfl, evals.leads (.ofPush h.frame.recorded (binds_eq_false.mpr ?_))⟩
    simp [isTest, hasExtra, isOpen, hop, Opcode.isTest]

end Lowering

end LuaBytecode
