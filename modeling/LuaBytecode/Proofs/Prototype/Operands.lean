import LuaBytecode.Proofs.Regular.Program

namespace LuaBytecode

variable {block : Block} {source name : String} {p q : Prototype}

namespace Prototype

/-- The frame of a function holds its parameters and every register that its code names. -/
structure HoldsRegisters (q : Prototype) : Prop where
  params : q.params ≤ q.stackSize
  limit : q.stackSize ≤ 254
  registers : ∀ i ∈ q.code, ∀ r, i.Accesses r → r < q.stackSize

/-- What the code of a function refers to by number is there. Nested functions are made once each and in order, and their
    upvalues are variables live at that point or upvalues, of the same name. -/
structure RefersInside (q : Prototype) : Prop where
  constants : ∀ i ∈ q.code, ∀ k, i.UsesConstant k → k < q.constants.size
  extra : ∀ (pc : Nat) (i : Instruction), q.code[pc]? = some i → i.opcode? = some .loadKx →
    ∃ j, q.code[pc + 1]? = some j ∧ j.opcode? = some .extraArg ∧ j.axField < q.constants.size
  upvalues : ∀ i ∈ q.code, ∀ u, i.UsesUpvalue u → u < q.upvalues.size
  few : q.upvalues.size ≤ 255
  order : q.code.toList.filterMap Instruction.closure? = List.range q.functions.length
  distinct : (q.upvalues.toList.map (·.name)).Nodup
  makes : ∀ (pc : Nat) (i : Instruction), q.code[pc]? = some i → i.opcode? = some .closure →
    ∃ child live, q.functions[i.bx]? = some child ∧ Makes q.locals [] q.upvalues pc i.a child live

theorem Regular.holdsRegisters (h : q.Regular 0) : q.HoldsRegisters := by
  cases h with
  | @mk f _ finishes _ =>
    have peak := finishes.regular.peak
    have params := finishes.params
    have operands := finishes.operands
    obtain ⟨i, source, _, rfl⟩ := finishes.returns
    refine ⟨params, Nat.le_of_lt_succ peak, ?_⟩
    intro j member
    obtain ⟨pc, there⟩ := Array.mem_iff_getElem?.mp member
    exact (operands.fits pc j there).register

theorem Regular.refersInside {slack : Nat} (h : q.Regular slack) : q.RefersInside := by
  cases h with
  | @mk f _ finishes _ =>
    have operands := finishes.operands
    have fits : ∀ i ∈ q.code, i.Fits (q.stackSize + slack) q.constants.size q.upvalues.size := by
      intro i member
      obtain ⟨pc, there⟩ := Array.mem_iff_getElem?.mp member
      exact operands.fits pc i there
    obtain ⟨last, source, rfl, regular⟩ := finishes.whole
    refine
      { constants := fun i member => (fits i member).constant
        extra := ?_
        upvalues := fun i member => (fits i member).upvalue
        few := finishes.few
        order := ?_
        distinct := finishes.distinct
        makes := ?_ }
    · intro pc i there hop
      have more : i.hasExtra = true := by simp [Instruction.hasExtra, hop]
      obtain ⟨j, next, linked⟩ := finishes.exists_next there (by simp [Instruction.binds, more])
      exact ⟨j, next, linked.extra.mp more, operands.extra pc i j there hop next⟩
    · exact regular.order.trans (congrArg List.range Array.length_toList.symm)
    · intro pc i there hop
      obtain ⟨child, live, found, makes⟩ := regular.makes pc i there hop
      have retired : (f.push last).live = [] := finishes.retired
      rw [retired] at makes
      exact ⟨child, live, (Array.getElem?_toList ..).trans found, makes⟩

end Prototype

/-- Functions stay inside their frames, and A is never too small for a register. -/
theorem Chunk.compile_holds_registers (source name : String) :
    (∀ p q, Chunk.compile source name = .ok p → p.Contains q → q.HoldsRegisters) ∧
      ∀ e line, Chunk.compile source name = .error (.code (.operandOverflow e line)) → e.field ≠ .a := by
  unfold Chunk.compile
  cases parsed : Chunk.parse source with
  | error e =>
    refine ⟨fun p q compiled => ?_, fun e' line failed => ?_⟩
    · cases compiled
    · cases failed
      exact absurd parsed Chunk.parse_ne_code
  | ok block =>
    have given := Block.compile_regular_of_parse parsed name
    simp only [bind, Except.bind]
    cases compiled : block.compile name with
    | ok p =>
      refine ⟨fun p' q same inside => ?_, fun e line failed => ?_⟩
      · cases same
        exact ((given.1 p compiled).1.contains inside).holdsRegisters
      · cases failed
    | error e =>
      refine ⟨fun p q same => ?_, fun e' line failed => ?_⟩
      · cases same
      · cases failed
        exact given.2 _ compiled

theorem Chunk.compile_holds_registers_of_calls :
    ∃ p, Chunk.compile "local f, x = ...; local function g(a, b, ...) return f(a, {b, ...}, ...) end; x = g(x, x) .. x" "calls"
        = .ok p ∧ 2 < p.stackSize ∧ ∀ q, p.Contains q → q.HoldsRegisters := by
  refine exists_ok (fun p => decide (2 < p.stackSize)) (by decide +kernel) fun p compiled needs => ?_
  exact ⟨of_decide_eq_true needs, fun q => (Chunk.compile_holds_registers _ _).1 p q compiled⟩

/-- Everything that the code of a source refers to by number is there, and the environment is the first upvalue. -/
theorem Block.compile_refers_inside (parsed : Chunk.parse source = .ok block) (compiled : block.compile name = .ok p) :
    p.upvalues[0]? = some .ofEnvironment ∧ ∀ q, p.Contains q → q.RefersInside := by
  obtain ⟨regular, first⟩ := (Block.compile_regular_of_parse parsed name).1 p compiled
  exact ⟨first, fun q inside => (regular.contains inside).refersInside⟩

theorem Block.compile_refers_inside_of_capture :
    ∃ block p, Chunk.parse "local x; local function f(y) local z = y; return function() return x, f, z end end"
        = .ok block ∧ block.compile "capture" = .ok p ∧ p.functions.length = 1 ∧
      p.upvalues[0]? = some .ofEnvironment ∧ ∀ q, p.Contains q → q.RefersInside := by
  refine Chunk.exists_compiled (fun p => p.functions.length == 1) (by decide +kernel) fun block p parsed compiled one => ?_
  exact ⟨by simpa using one, Block.compile_refers_inside parsed compiled⟩

end LuaBytecode
