import LuaBytecode.Proofs.Instruction.Usage

namespace LuaBytecode

variable {code : Array Instruction} {pending : List Nat} {pc t : Nat} {i j : Instruction}

/-- A jump may land here: the instruction before does not belong together with the one here. -/
structure Landing (code : Array Instruction) (t : Nat) : Prop where
  inside : t ≤ code.size
  alone : ∀ k i, t = k + 1 → code[k]? = some i → i.binds = false

def Loops (code : Array Instruction) (pc : Nat) (i : Instruction) : Prop :=
  ∃ (t : Nat) (j : Instruction), (t : Int) = pc + 1 + i.sbx ∧ code[t]? = some j ∧ j.opcode? = some .forLoop ∧
    j.a = i.a ∧ (t : Int) + 1 + j.sbx = pc + 1

/-- Code in which control flow is as it should be. Loops at the `pending` positions are not finished. -/
structure Flow (pending : List Nat) (code : Array Instruction) : Prop where
  valid : ∀ (pc : Nat) (i : Instruction), code[pc]? = some i → i.opcode?.isSome = true
  first : ∀ i, code[0]? = some i → i.Starts
  linked : ∀ (pc : Nat) (i j : Instruction), code[pc]? = some i → code[pc + 1]? = some j → i.Linked j
  lands : ∀ (pc : Nat) (i : Instruction), code[pc]? = some i → i.isJump = true →
    ∃ t : Nat, (t : Int) = pc + 1 + i.sbx ∧ Landing code t
  loops : ∀ (pc : Nat) (i : Instruction), code[pc]? = some i → i.opcode? = some .forPrep → pc ∉ pending → Loops code pc i

namespace Flow

theorem empty : Flow pending #[] where
  valid := nofun
  first := nofun
  linked := nofun
  lands := nofun
  loops := nofun

end Flow

section Push

theorem getElem?_push_cases (there : (code.push j)[pc]? = some i) :
    code[pc]? = some i ∨ pc = code.size ∧ i = j := by
  rw [Array.getElem?_push] at there
  split at there
  · exact .inr ⟨‹_›, (Option.some.inj there).symm⟩
  · exact .inl there

theorem getElem?_push_of_some (there : code[pc]? = some i) : (code.push j)[pc]? = some i := by
  rw [Array.getElem?_push, if_neg, there]
  have := (Array.getElem?_eq_some_iff.mp there).1
  omega

theorem Landing.push (h : Landing code t) : Landing (code.push j) t where
  inside := by
    have := h.inside
    rw [Array.size_push]
    omega
  alone k i same there := by
    rcases getElem?_push_cases there with old | ⟨rfl, _⟩
    · exact h.alone k i same old
    · have := h.inside
      omega

theorem Landing.next (alone : j.binds = false) : Landing (code.push j) (code.size + 1) where
  inside := Nat.le_of_eq (Array.size_push ..).symm
  alone k i same there := by
    obtain rfl : code.size = k := Nat.succ.inj same
    rw [Array.getElem?_push_size] at there
    cases there
    exact alone

theorem Loops.push (h : Loops code pc i) : Loops (code.push j) pc i := by
  obtain ⟨t, l, target, there, rest⟩ := h
  exact ⟨t, l, target, getElem?_push_of_some there, rest⟩

theorem Flow.push (h : Flow pending code) (valid : j.opcode?.isSome = true) (first : code.size = 0 → j.Starts)
    (linked : ∀ i, code.back? = some i → i.Linked j)
    (lands : j.isJump = true → ∃ t : Nat, (t : Int) = code.size + 1 + j.sbx ∧ (t = code.size + 1 ∨ Landing code t))
    (loops : j.opcode? = some .forPrep → code.size ∈ pending) : Flow pending (code.push j) where
  valid pc i there := by
    rcases getElem?_push_cases there with old | ⟨_, rfl⟩
    · exact h.valid pc i old
    · exact valid
  first i there := by
    rcases getElem?_push_cases there with old | ⟨empty, rfl⟩
    · exact h.first i old
    · exact first empty.symm
  linked pc i k there next := by
    rcases getElem?_push_cases next with old | ⟨last, rfl⟩
    · rcases getElem?_push_cases there with before | ⟨here, _⟩
      · exact h.linked pc i k before old
      · have := (Array.getElem?_eq_some_iff.mp old).1
        omega
    · rcases getElem?_push_cases there with before | ⟨here, _⟩
      · apply linked
        rw [Array.back?_eq_getElem?, ← last, Nat.add_sub_cancel]
        exact before
      · omega
  lands pc i there jump := by
    rcases getElem?_push_cases there with old | ⟨rfl, rfl⟩
    · obtain ⟨t, target, landing⟩ := h.lands pc i old jump
      exact ⟨t, target, landing.push⟩
    · obtain ⟨t, target, rfl | landing⟩ := lands jump
      · exact ⟨_, target, .next (Instruction.binds_of_isJump jump)⟩
      · exact ⟨t, target, landing.push⟩
  loops pc i there prep outside := by
    rcases getElem?_push_cases there with old | ⟨rfl, rfl⟩
    · exact (h.loops pc i old prep outside).push
    · exact absurd (loops prep) outside

end Push

section Replace

theorem getElem?_set_cases {k : Nat} (there : (code.setIfInBounds pc j)[k]? = some i) :
    k = pc ∧ i = j ∨ k ≠ pc ∧ code[k]? = some i := by
  by_cases same : pc = k
  · subst same
    have inside : pc < code.size := by
      have := (Array.getElem?_eq_some_iff.mp there).1
      rwa [Array.size_setIfInBounds] at this
    rw [Array.getElem?_setIfInBounds_self_of_lt inside] at there
    exact .inl ⟨rfl, (Option.some.inj there).symm⟩
  · rw [Array.getElem?_setIfInBounds_ne same] at there
    exact .inr ⟨Ne.symm same, there⟩

/-- The jump `j` is the jump `i` with another distance, or with another level if it is a plain jump. -/
structure Instruction.Redirects (i j : Instruction) : Prop where
  jump : i.isJump = true
  opcode : j.opcode? = i.opcode?
  operand : j.a = i.a ∨ i.opcode? = some .jmp

namespace Instruction.Redirects

theorem jump' (h : i.Redirects j) : j.isJump = true := by
  rw [Instruction.isJump, h.opcode]
  exact h.jump

theorem alone (h : i.Redirects j) : j.binds = false := Instruction.binds_of_isJump h.jump'

end Instruction.Redirects

theorem Landing.replace (redirects : i.Redirects j) (h : Landing code t) : Landing (code.setIfInBounds pc j) t where
  inside := by
    rw [Array.size_setIfInBounds]
    exact h.inside
  alone k l same there := by
    rcases getElem?_set_cases there with ⟨_, rfl⟩ | ⟨_, old⟩
    · exact redirects.alone
    · exact h.alone k l same old

theorem Loops.replace {pc' : Nat} {l : Instruction} (there : code[pc]? = some i)
    (endless : i.opcode? = some .forLoop → i.sbx = 0) (prep : l.opcode? = some .forPrep) (there' : code[pc']? = some l)
    (h : Loops code pc' l) : Loops (code.setIfInBounds pc j) pc' l := by
  obtain ⟨t, k, target, found, loop, operand, back⟩ := h
  refine ⟨t, k, target, ?_, loop, operand, back⟩
  by_cases same : pc = t
  · subst same
    cases there.symm.trans found
    -- A loop whose end does not jump back would start where it ends.
    have : pc = pc' := by
      have := endless loop
      omega
    subst this
    cases there.symm.trans there'
    cases loop.symm.trans prep
  · rw [Array.getElem?_setIfInBounds_ne same]
    exact found

theorem Flow.replace (h : Flow pending code) (there : code[pc]? = some i) (redirects : i.Redirects j)
    (lands : ∃ t : Nat, (t : Int) = pc + 1 + j.sbx ∧ Landing code t)
    (unfinished : i.opcode? = some .forPrep → pc ∈ pending) (endless : i.opcode? = some .forLoop → i.sbx = 0) :
    Flow pending (code.setIfInBounds pc j) where
  valid k l found := by
    rcases getElem?_set_cases found with ⟨_, rfl⟩ | ⟨_, old⟩
    · rw [redirects.opcode]
      exact h.valid pc i there
    · exact h.valid k l old
  first l found := by
    rcases getElem?_set_cases found with ⟨rfl, rfl⟩ | ⟨_, old⟩
    · have starts := h.first i there
      refine ⟨?_, Instruction.takesOpen_of_isJump redirects.jump', ?_⟩
      · rw [redirects.opcode]
        exact starts.extra
      · rw [redirects.opcode]
        exact starts.generic
    · exact h.first l old
  linked k l m found next := by
    have before : ∃ l', code[k]? = some l' ∧ (l = l' ∨ l'.isJump = true ∧ l.opcode? = l'.opcode?) := by
      rcases getElem?_set_cases found with ⟨rfl, rfl⟩ | ⟨_, old⟩
      · exact ⟨i, there, .inr ⟨redirects.jump, redirects.opcode⟩⟩
      · exact ⟨l, old, .inl rfl⟩
    have after : ∃ m', code[k + 1]? = some m' ∧
        (m = m' ∨ m'.isJump = true ∧ m.opcode? = m'.opcode? ∧ (m.a = m'.a ∨ m'.opcode? = some .jmp)) := by
      rcases getElem?_set_cases next with ⟨rfl, rfl⟩ | ⟨_, old⟩
      · exact ⟨i, there, .inr ⟨redirects.jump, redirects.opcode, redirects.operand⟩⟩
      · exact ⟨m, old, .inl rfl⟩
    obtain ⟨l', found', left⟩ := before
    obtain ⟨m', next', right⟩ := after
    exact (h.linked k l' m' found' next').ofJumps left right
  lands k l found jump := by
    rcases getElem?_set_cases found with ⟨rfl, rfl⟩ | ⟨_, old⟩
    · obtain ⟨t, target, landing⟩ := lands
      exact ⟨t, target, landing.replace redirects⟩
    · obtain ⟨t, target, landing⟩ := h.lands k l old jump
      exact ⟨t, target, landing.replace redirects⟩
  loops k l found prep outside := by
    rcases getElem?_set_cases found with ⟨rfl, rfl⟩ | ⟨_, old⟩
    · rw [redirects.opcode] at prep
      exact absurd (unfinished prep) outside
    · exact (h.loops k l old prep outside).replace there endless prep old

end Replace

theorem Flow.finish (h : Flow (pc :: pending) code) (loops : ∀ i, code[pc]? = some i → Loops code pc i) :
    Flow pending code where
  valid := h.valid
  first := h.first
  linked := h.linked
  lands := h.lands
  loops k i there prep outside := by
    by_cases same : k = pc
    · subst same
      exact loops i there
    · exact h.loops k i there prep (fun member => (List.mem_cons.mp member).elim same outside)

theorem Flow.await (h : Flow pending code) : Flow (pc :: pending) code where
  valid := h.valid
  first := h.first
  linked := h.linked
  lands := h.lands
  loops k i there prep outside := h.loops k i there prep (List.not_mem_of_not_mem_cons outside)

/-- The operands of an instruction fit a function with that many registers, constants and upvalues. All of them are
    listed. -/
structure Instruction.Fits (registers constants upvalues : Nat) (i : Instruction) : Prop where
  register : ∀ r, i.Accesses r → r < registers
  constant : ∀ k, i.UsesConstant k → k < constants
  upvalue : ∀ u, i.UsesUpvalue u → u < upvalues
  listed : ∀ op, i.opcode? = some op → op.listsAll i.b i.c = true

/-- All operands fit. The constant of an instruction may stand in the word after it. -/
structure Operands (registers constants upvalues : Nat) (code : Array Instruction) : Prop where
  fits : ∀ (pc : Nat) (i : Instruction), code[pc]? = some i → i.Fits registers constants upvalues
  extra : ∀ (pc : Nat) (i j : Instruction), code[pc]? = some i → i.opcode? = some .loadKx → code[pc + 1]? = some j →
    j.axField < constants

variable {registers constants upvalues registers' constants' upvalues' : Nat} {i j : Instruction}
  {code : Array Instruction} {pc : Nat}

theorem Instruction.Fits.mono (h : i.Fits registers constants upvalues) (hr : registers ≤ registers')
    (hc : constants ≤ constants') (hu : upvalues ≤ upvalues') : i.Fits registers' constants' upvalues' where
  register r accesses := Nat.lt_of_lt_of_le (h.register r accesses) hr
  constant k uses := Nat.lt_of_lt_of_le (h.constant k uses) hc
  upvalue u uses := Nat.lt_of_lt_of_le (h.upvalue u uses) hu
  listed := h.listed

theorem Instruction.Fits.intro {op : Opcode} (hop : i.opcode? = some op)
    (register : ∀ {r}, op.Accesses i.a i.b i.c r → r < registers) (listed : op.listsAll i.b i.c = true)
    (constant : ∀ {k}, op.UsesConstant i.b i.c i.bx k → k < constants)
    (upvalue : ∀ {u}, op.UsesUpvalue i.a i.b u → u < upvalues) :
    i.Fits registers constants upvalues where
  register := by
    rintro r ⟨op', hop', accesses⟩
    cases hop.symm.trans hop'
    exact register accesses
  constant := by
    rintro k ⟨op', hop', uses⟩
    cases hop.symm.trans hop'
    exact constant uses
  upvalue := by
    rintro u ⟨op', hop', uses⟩
    cases hop.symm.trans hop'
    exact upvalue uses
  listed := by
    intro op' hop'
    cases hop.symm.trans hop'
    exact listed

theorem Instruction.Fits.redirect (h : i.Fits registers constants upvalues) (redirects : i.Redirects j) :
    j.Fits registers constants upvalues := by
  obtain ⟨jump, opcode, operand⟩ := redirects
  unfold Instruction.isJump at jump
  cases hop : i.opcode? with
  | none => simp [hop] at jump
  | some op =>
    have other : j.opcode? = some op := opcode.trans hop
    have level : op ≠ .jmp → j.a = i.a := by
      intro loop
      rcases operand with same | plain
      · exact same
      · cases hop.symm.trans plain
        exact absurd rfl loop
    have used : ∀ r, op.Accesses i.a i.b i.c r → r < registers := fun r accesses => h.register r ⟨op, hop, accesses⟩
    rw [hop] at jump
    rcases Opcode.eq_of_isJump jump with rfl | rfl | rfl | rfl
    · exact .intro other False.elim rfl False.elim False.elim
    all_goals
      refine .intro other (fun accesses => used _ ?_) rfl False.elim False.elim
      rwa [level (by decide)] at accesses

namespace Operands

theorem empty : Operands registers constants upvalues #[] where
  fits := nofun
  extra := nofun

variable (h : Operands registers constants upvalues code)

include h

theorem mono (hr : registers ≤ registers') (hc : constants ≤ constants') (hu : upvalues ≤ upvalues') :
    Operands registers' constants' upvalues' code where
  fits pc i there := (h.fits pc i there).mono hr hc hu
  extra pc i j there wide next := Nat.lt_of_lt_of_le (h.extra pc i j there wide next) hc

theorem push (fits : j.Fits registers constants upvalues)
    (extra : ∀ i, code.back? = some i → i.opcode? = some .loadKx → j.axField < constants) :
    Operands registers constants upvalues (code.push j) where
  fits pc i there := by
    rcases getElem?_push_cases there with old | ⟨_, rfl⟩
    · exact h.fits pc i old
    · exact fits
  extra pc i k there wide next := by
    rcases getElem?_push_cases next with old | ⟨last, rfl⟩
    · rcases getElem?_push_cases there with before | ⟨here, _⟩
      · exact h.extra pc i k before wide old
      · have := (Array.getElem?_eq_some_iff.mp old).1
        omega
    · rcases getElem?_push_cases there with before | ⟨here, _⟩
      · refine extra i ?_ wide
        rw [Array.back?_eq_getElem?, ← last, Nat.add_sub_cancel]
        exact before
      · omega

theorem replace (flow : ∀ i, code[pc]? = some i → i.Redirects j)
    (wide : ∀ k i, code[k]? = some i → i.opcode? = some .loadKx → k + 1 ≠ pc) :
    Operands registers constants upvalues (code.setIfInBounds pc j) where
  fits k l found := by
    rcases getElem?_set_cases found with ⟨rfl, rfl⟩ | ⟨_, old⟩
    · have inside : k < code.size := by simpa using (Array.getElem?_eq_some_iff.mp found).1
      have there := Array.getElem?_eq_getElem inside
      exact (h.fits k _ there).redirect (flow _ there)
    · exact h.fits k l old
  extra k l m found wide' next := by
    rcases getElem?_set_cases found with ⟨rfl, rfl⟩ | ⟨_, old⟩
    · have inside : k < code.size := by simpa using (Array.getElem?_eq_some_iff.mp found).1
      have jump := (flow _ (Array.getElem?_eq_getElem inside)).jump'
      rw [Instruction.isJump, wide'] at jump
      cases jump
    · rcases getElem?_set_cases next with ⟨here, _⟩ | ⟨_, next'⟩
      · exact absurd here (wide k l old wide')
      · exact h.extra k l m old wide' next'

end Operands

end LuaBytecode
