import LuaBytecode.Proofs.Legality.Judged
import LuaBytecode.Proofs.Monitor.Records
import LuaBytecode.Proofs.Summary.Lowering

namespace LuaBytecode

open Lowering

namespace CodeError

def isLimit : CodeError → Bool
  | tooManyRegisters _ | tooManyUpvalues _ | operandOverflow _ _ => true
  | _ => false

/-- The lowering is at fault: it gives back what it has not taken, counts below zero, or changes an instruction, a
    local variable or a target that does not exist. -/
def isInternal : CodeError → Bool
  | registerUnderflow _ | functionStackUnderflow _ | unsupported .assignmentTarget _ | noInstruction _ _
  | countUnderflow _ | noLocal _ _ => true
  | _ => false

variable {e : CodeError} {legal : Prop}

theorem Fair.of_static (fair : e.Fair legal True) (static : e.isStatic = true) : ¬ legal := by
  unfold isStatic at static
  split at static
  · exact fair
  · exact fair
  · rename_i what _
    cases what with
    | goto => exact fair
    | assignmentTarget => exact (fair trivial).elim
  · cases static

theorem Expected.of_not_static (expected : e.Expected) (other : e.isStatic = false) : e.isLimit = true := by
  cases e with
  | tooManyRegisters | tooManyUpvalues | operandOverflow => rfl
  | breakOutsideLoop | varargOutsideVararg | unsupported => cases other
  | registerUnderflow | functionStackUnderflow | noInstruction | countUnderflow | noLocal => exact expected.elim

theorem Expected.not_internal (expected : e.Expected) (fair : e.Fair legal True) : e.isInternal = false := by
  unfold isInternal
  split
  · exact expected.elim
  · exact expected.elim
  · exact (fair trivial).elim
  · exact expected.elim
  · exact expected.elim
  · exact expected.elim
  · rfl

end CodeError

def CompileError.isInternal : CompileError → Bool
  | lex _ | parse _ => false
  | code e => e.isInternal
  | outOfFuel => true

namespace Block

variable {D : FunctionDef → Prop} {block : Block}

theorem compile_decides (shaped : Block.Shaped D block) (name : String) :
    (∀ p, block.compile name = .ok p → block.isLegal = true) ∧
      ∀ e, block.compile name = .error e → e.Fair (block.isLegal = true) True := by
  have decided := emitChunk_matches shaped.paired chunkStart
  have judged := shaped.judged
  have legal : block.summary.legal chunkStart.frame.setting ↔ block.isLegal = true := judged.legal _
  constructor
  · intro p compiled
    obtain ⟨s, t, first, run, _⟩ := Block.compile_eq compiled
    cases ofChunk_eq.symm.trans first
    exact legal.mp (decided.of_ok run).2.1
  · intro e failed
    obtain ⟨t, run⟩ := Block.compile_error failed
    exact (decided.of_error run).2.weaken legal.mpr fun _ => judged.assignable

/-- No program compiles that is not legal, and a program is blamed for not being legal only if it is not. One that is
    legal fails only by its size. -/
theorem compile_blames_illegal {source : String} (parsed : Chunk.parse source = .ok block) (name : String) :
    (block.isLegal = false → ∀ p, block.compile name ≠ .ok p) ∧
      (∀ e, block.compile name = .error e → e.isStatic = true → block.isLegal = false) ∧
      (block.isLegal = true → ∀ e, block.compile name = .error e → e.isLimit = true) := by
  obtain ⟨ok, fair⟩ := compile_decides (Chunk.parse_grammatical parsed) name
  have expected := (Block.compile_regular_of_parse parsed name).2
  refine ⟨fun illegal p compiled => ?_, fun e failed static => ?_, fun legal e failed => ?_⟩
  · exact Bool.false_ne_true (illegal.symm.trans (ok p compiled))
  · exact Bool.eq_false_iff.mpr ((fair e failed).of_static static)
  · cases static : e.isStatic with
    | true => exact absurd legal ((fair e failed).of_static static)
    | false => exact (expected e failed).of_not_static static

theorem compile_blames_illegal_break :
    ∃ block, Chunk.parse "while ... do f(function(...) break end) end" = .ok block ∧ block.isLegal = false ∧
      ∀ p, block.compile "loop" ≠ .ok p := by
  refine exists_ok (fun block => !block.isLegal) (by decide +kernel) fun block parsed illegal => ?_
  have illegal : block.isLegal = false := Bool.not_eq_true' _ ▸ illegal
  exact ⟨illegal, (compile_blames_illegal parsed "loop").1 illegal⟩

end Block

/-- Whatever the source is, it compiles or is itself the reason why it does not. Lowering that also stops where a
    variable in scope has no record comes to the same for every block. -/
theorem Chunk.compile_reported (source name : String) :
    ((∃ p, Chunk.compile source name = .ok p) ∨ ∃ e, Chunk.compile source name = .error e ∧ e.isInternal = false) ∧
      ∀ block : Block, block.compileMonitored recordKeeping name = block.compile name := by
  refine ⟨?_, fun block => recordKeeping_passes.compile_eq False.elim name⟩
  unfold Chunk.compile
  cases parsed : Chunk.parse source with
  | error e =>
    refine .inr ⟨e, rfl, ?_⟩
    cases e with
    | lex _ | parse _ => rfl
    | code _ => exact absurd parsed Chunk.parse_ne_code
    | outOfFuel => exact absurd parsed (Block.parse_ne_outOfFuel _)
  | ok block =>
    cases compiled : block.compile name with
    | ok p => exact .inl ⟨p, by simp only [bind, Except.bind, compiled, Except.mapError]⟩
    | error e =>
      have fair := (Block.compile_decides (Chunk.parse_grammatical parsed) name).2 e compiled
      have expected := (Block.compile_regular_of_parse parsed name).2 e compiled
      exact .inr ⟨.code e, by simp only [bind, Except.bind, compiled, Except.mapError], expected.not_internal fair⟩

end LuaBytecode
