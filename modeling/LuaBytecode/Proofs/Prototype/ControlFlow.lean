import LuaBytecode.Proofs.Regular.Program

namespace LuaBytecode

variable {slack : Nat} {block : Block} {source name : String} {p q : Prototype}

namespace Prototype

/-- Control stays in the code of a function and comes to no word that belongs to the one before it. -/
structure ControlFlow (q : Prototype) : Prop where
  valid : ∀ i ∈ q.code, i.opcode?.isSome = true
  returns : ∃ i, q.code.back? = some i ∧ i.opcode? = some .ret ∧ i.a = 0 ∧ i.b = 1
  jumps : ∀ (pc : Nat) (i : Instruction), q.code[pc]? = some i → i.isJump = true →
    ∃ (t : Nat) (j : Instruction), (t : Int) = pc + 1 + i.sbx ∧ q.code[t]? = some j ∧ j.opcode? ≠ some .extraArg ∧
      ∀ k l, t = k + 1 → q.code[k]? = some l → l.isTest = false
  tests : ∀ (pc : Nat) (i : Instruction), q.code[pc]? = some i → i.isTest = true →
    ∃ j, q.code[pc + 1]? = some j ∧ j.opcode? = some .jmp
  continued : ∀ (pc : Nat) (i : Instruction), q.code[pc]? = some i → i.hasExtra = true →
    ∃ j, q.code[pc + 1]? = some j ∧ j.opcode? = some .extraArg
  continues : ∀ (pc : Nat) (j : Instruction), q.code[pc]? = some j → j.opcode? = some .extraArg →
    ∃ (k : Nat) (i : Instruction), pc = k + 1 ∧ q.code[k]? = some i ∧ i.hasExtra = true
  counts : ∀ (pc : Nat) (i : Instruction), q.code[pc]? = some i → i.opcode? = some .forPrep → Loops q.code pc i
  iterates : ∀ (pc : Nat) (j : Instruction), q.code[pc]? = some j → j.opcode? = some .tforLoop →
    ∃ (k : Nat) (i : Instruction), pc = k + 1 ∧ q.code[k]? = some i ∧ i.opcode? = some .tforCall ∧ j.a = i.a + 2

/-- A list of results of unknown length is taken by the next instruction, and only such a list is taken up to the top. -/
structure TakesResults (q : Prototype) : Prop where
  taken : ∀ (pc : Nat) (i : Instruction), q.code[pc]? = some i → i.isOpen = true →
    ∃ j, q.code[pc + 1]? = some j ∧ j.takesOpen = true ∧ j.firstTaken ≤ i.a
  opened : ∀ (pc : Nat) (j : Instruction), q.code[pc]? = some j → j.takesOpen = true →
    ∃ (k : Nat) (i : Instruction), pc = k + 1 ∧ q.code[k]? = some i ∧ i.isOpen = true
  jumps : ∀ (pc t : Nat) (i j : Instruction), q.code[pc]? = some i → i.isJump = true → (t : Int) = pc + 1 + i.sbx →
    q.code[t]? = some j → j.takesOpen = false

theorem Regular.controlFlow (h : q.Regular slack) : q.ControlFlow := by
  cases h with
  | @mk f _ finishes _ =>
    refine ⟨?_, ?_, ?_, ?_, ?_, ?_, ?_, ?_⟩
    · intro i member
      obtain ⟨pc, there⟩ := Array.mem_iff_getElem?.mp member
      exact finishes.flow.valid pc i there
    · obtain ⟨i, hop, ha, hb, same⟩ := finishes.code
      exact ⟨i, by rw [same, Array.back?_push], hop, ha, hb⟩
    · intro pc i there jump
      obtain ⟨t, j, target, landed, starts, alone⟩ := finishes.lands there jump
      exact ⟨t, j, target, landed, starts.extra, fun k l same before =>
        (Instruction.binds_eq_false.mp (alone k l same before)).1⟩
    · intro pc i there test
      obtain ⟨j, next, linked⟩ := finishes.exists_next there (by simp [Instruction.binds, test])
      exact ⟨j, next, linked.test test⟩
    · intro pc i there more
      obtain ⟨j, next, linked⟩ := finishes.exists_next there (by simp [Instruction.binds, more])
      exact ⟨j, next, linked.extra.mp more⟩
    · intro pc j there extra
      obtain ⟨k, i, same, before, linked⟩ := finishes.exists_before there fun starts => starts.extra extra
      exact ⟨k, i, same, before, linked.extra.mpr extra⟩
    · intro pc i there prep
      exact finishes.flow.loops pc i there prep List.not_mem_nil
    · intro pc j there loop
      obtain ⟨k, i, same, before, linked⟩ := finishes.exists_before there fun starts => starts.generic loop
      have call := linked.generic.mpr loop
      exact ⟨k, i, same, before, call, linked.control call⟩

theorem Regular.takesResults (h : q.Regular slack) : q.TakesResults := by
  cases h with
  | @mk f _ finishes _ =>
    refine ⟨?_, ?_, ?_⟩
    · intro pc i there results
      obtain ⟨j, next, linked⟩ := finishes.exists_next there (by simp [Instruction.binds, results])
      exact ⟨j, next, linked.results.mp results, linked.taken results⟩
    · intro pc j there takes
      obtain ⟨k, i, same, before, linked⟩ := finishes.exists_before there fun starts => by
        rw [starts.taken] at takes
        cases takes
      exact ⟨k, i, same, before, linked.results.mpr takes⟩
    · intro pc t i j there jump target landed
      obtain ⟨t', j', target', landed', starts, _⟩ := finishes.lands there jump
      obtain rfl : t = t' := by omega
      cases landed.symm.trans landed'
      exact starts.taken

end Prototype

theorem Block.compile_control_flow (parsed : Chunk.parse source = .ok block) (compiled : block.compile name = .ok p)
    (inside : p.Contains q) : q.ControlFlow :=
  (((Block.compile_regular_of_parse parsed name).1 p compiled).1.contains inside).controlFlow

theorem Block.compile_control_flow_of_loops :
    ∃ block p, Chunk.parse "local a, b; for i = a, b, a do if i < b then break end end for k, v in a do b = k and v end"
        = .ok block ∧ block.compile "loops" = .ok p ∧
      (∃ i ∈ p.code, i.opcode? = some .forPrep) ∧ p.ControlFlow := by
  refine Chunk.exists_compiled (fun p => p.code.any fun i => i.opcode? = some .forPrep) (by decide +kernel)
    fun block p parsed compiled loops => ⟨?_, Block.compile_control_flow parsed compiled .self⟩
  obtain ⟨i, member, holds⟩ := Array.any_eq_true'.mp loops
  exact ⟨i, member, of_decide_eq_true holds⟩

/-- Where every key of a table has a value, results of unknown length are taken at once. -/
theorem Block.compile_takes_results (paired : Block.Paired (fun _ => True) block)
    (compiled : block.compile name = .ok p) (inside : p.Contains q) : q.TakesResults := by
  have regular : p.Regular 1 := ((Block.compile_regular (fun _ _ => Nat.succ_pos _) paired name).1 p compiled).1
  exact (regular.contains inside).takesResults

theorem Block.compile_takes_results_of_table :
    Block.Paired (fun _ => True)
        [.mk 1 (.localDecl ["f"] []), .mk 2 (.ret [.table [none] [.vararg], .call (.name "f") [.vararg] false])] ∧
      ∃ p, Block.compile
          [.mk 1 (.localDecl ["f"] []), .mk 2 (.ret [.table [none] [.vararg], .call (.name "f") [.vararg] false])] "t" =
        .ok p ∧ p.TakesResults := by
  refine ⟨?paired, exists_ok (fun _ => true) (by decide +kernel) fun p compiled _ => ?_⟩
  · simp [Block.Paired, StatKind.Paired, Exp.AllPaired, Exp.Paired, Exp.KeysPaired, Exp.Paired?]
  · exact Block.compile_takes_results ?paired compiled .self

theorem Block.compile_leaves_results :
    ∃ p, Block.compile [.mk 1 (.localDecl ["t"]
        [.table [some .vararg, none, none] [.vararg, .vararg]])] "t" = .ok p ∧
      ¬ p.TakesResults := by
  refine exists_ok (fun p => p.code[4]?.any Instruction.isOpen && p.code[5]?.all fun j => !j.takesOpen)
    (by decide +kernel) fun p _ left takes => ?_
  rw [Bool.and_eq_true, Option.any_eq_true, Option.all_eq_true] at left
  obtain ⟨⟨i, there, results⟩, closed⟩ := left
  obtain ⟨j, next, taken, _⟩ := takes.taken 4 i there results
  have := closed j next
  rw [taken] at this
  cases this

end LuaBytecode
