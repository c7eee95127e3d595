import LuaBytecode.Proofs.Ast.Functions
import LuaBytecode.Proofs.Closing.Tree
import LuaBytecode.Proofs.Grammar.Shape

namespace LuaBytecode

open Lowering

namespace Prototype

inductive Contains (p : Prototype) : Prototype → Prop
  | self : Contains p p
  | inner {q r : Prototype} : Contains p q → r ∈ q.functions → Contains p r

/-- Wherever control leaves a scope of the body, what is captured is closed. A jump closes something only where control
    leaves a scope, and nothing that stays. -/
structure ClosesExits (body : Block) (start : Lowering) (q : Prototype) : Prop where
  closes : ∀ e, Block.Exits body start e → e.Closes q.code q.functions
  spares : ∀ (pc : Nat) (j : Instruction), q.code[pc]? = some j → j.opcode? = some .jmp → j.a ≠ 0 →
    ∃ e, Block.Exits body start e ∧ e.frame.pc = pc ∧ e.Spares j.a

end Prototype

variable {D : FunctionDef → Prop} {Γ : Scopes}

theorem Prototype.closesExits {body : Block} {start finish : Lowering} {pc : Nat} {f : Frame} {source : Option String}
    (sound : Sound Γ start) (shaped : Block.Shaped D body) (empty : start.frame.code = #[])
    (lowered : Block.code body start = .ok () finish)
    (finished : (do Frame.exitScope; Frame.emitReturn 0 0) finish.frame = .ok pc f) :
    (f.toPrototype source).ClosesExits body start := by
  have inside := Block.accounted body shaped sound lowered
  have sound' := (Block.code_tracks shaped Γ sound _ _ lowered).2.sound
  obtain ⟨_, g, exit, emit⟩ := bind_ok finished
  have left := inside.left sound'.frame sound'.ready.stack sound'.ready.opened exit
  obtain ⟨i, built, _, rfl⟩ := Frame.emitAbc_ok emit
  obtain ⟨hop, _⟩ := Instruction.abc_ok built
  constructor
  · intro e leaves
    obtain ⟨early, closes⟩ := left.exits e leaves
    refine closes.mono ?_ fun j there jump level => ?_
    · rintro q r before ⟨k, child, u, there, rest⟩
      rw [Frame.toPrototype, Frame.push_earlier (Nat.lt_of_lt_of_le before early)] at there
      exact ⟨k, child, u, there, rest⟩
    · have before := lt_of_getElem? there
      exact ⟨j, (Frame.push_earlier before).trans there, jump, level, Nat.le.refl⟩
  · intro q j there jump level
    by_cases before : q < g.pc
    · rw [Frame.toPrototype, Frame.push_earlier before] at there
      have above : start.frame.pc ≤ q := by simp [Frame.pc, empty]
      exact left.jumps q j above there jump level
    · obtain ⟨_, rfl⟩ := Frame.push_above (Nat.not_lt.mp before) there
      cases hop.symm.trans jump

theorem Prototype.Lowered.closesExits {q : Prototype} (h : q.Lowered D) :
    ∃ fn start, D fn ∧ q.LoweredFrom fn start ∧ q.ClosesExits fn.body start := by
  cases h with
  | @mk fn Γ s start finish pc f known params shaped ready entered lowered finished _ =>
    obtain ⟨enters, empty⟩ := enterFunction_advances (D := D) ready (fun x member => (params x member).visible) entered
    exact ⟨fn, start, known, ⟨none, finish, pc, f, .function entered, lowered, finished, rfl⟩,
      Prototype.closesExits enters.sound shaped empty lowered finished⟩

theorem Prototype.Lowered.inner {p r : Prototype} (h : p.Lowered D) (member : r ∈ p.functions) : r.Lowered D := by
  cases h with
  | mk _ _ _ _ _ _ _ functions => exact functions r (Array.mem_toList_iff.mp member)

theorem Prototype.Contains.lowered {p q : Prototype} (inside : p.Contains q) (h : ∀ r ∈ p.functions, r.Lowered D) :
    q = p ∨ q.Lowered D := by
  induction inside with
  | self => exact .inl rfl
  | inner _ member ih =>
    rcases ih with rfl | lowered
    · exact .inr (h _ member)
    · exact .inr (lowered.inner member)

/-- Upvalues are closed exactly when a scope is left, in the chunk and in every function inside it. -/
theorem Block.compile_closes_exits {source name : String} {block : Block} {p q : Prototype}
    (parsed : Chunk.parse source = .ok block) (compiled : block.compile name = .ok p) (inside : p.Contains q) :
    ∃ fn start, (q = p ∧ fn = ⟨[], true, block⟩ ∨ fn ∈ Block.functions block) ∧
      q.LoweredFrom fn start ∧ q.ClosesExits fn.body start := by
  have shaped : Block.Shaped (· ∈ Block.functions block) block :=
    .among (Chunk.parse_grammatical parsed) fun _ member => member
  obtain ⟨start, finish, pc, f, starts, enters, lowered, finished, rfl⟩ := Block.compile_ok compiled
  have empty : start.frame.code = #[] := by rw [starts.frame, Frame.new]
  have functions : ∀ r ∈ f.functions.toList, r.Lowered (· ∈ Block.functions block) := by
    intro r member
    have advances := (Block.code_tracks shaped _ starts.sound _ _ lowered).2
    rw [Array.mem_toList_iff, (finish_keeps advances.sound finished).1] at member
    refine (advances.frame.prototypes r member).resolve_left fun early => ?_
    rw [starts.frame, Frame.new] at early
    exact Array.not_mem_empty r early
  rcases inside.lowered functions with rfl | nested
  · exact ⟨_, start, .inl ⟨rfl, rfl⟩, ⟨some name, finish, pc, f, enters, lowered, finished, rfl⟩,
      Prototype.closesExits starts.sound shaped empty lowered finished⟩
  · obtain ⟨fn, start', known, closes⟩ := nested.closesExits
    exact ⟨fn, start', .inr known, closes⟩

theorem Block.compile_closes_exits_of_loops :
    ∃ block p, Chunk.parse "local x; while x do local y; local function f() return y end; if x then break end end
        repeat local z; local g = function() return z end until z" = .ok block ∧ block.compile "loops" = .ok p ∧
      (∃ i ∈ p.code, i.opcode? = some .jmp ∧ i.a ≠ 0) ∧
      ∀ q, p.Contains q → ∃ fn start, (q = p ∧ fn = ⟨[], true, block⟩ ∨ fn ∈ Block.functions block) ∧
        q.LoweredFrom fn start ∧ q.ClosesExits fn.body start := by
  refine Chunk.exists_compiled (fun p => p.code.any fun i => i.opcode? = some .jmp ∧ i.a ≠ 0) (by decide +kernel)
    fun block p parsed compiled closing => ⟨?_, fun q inside => Block.compile_closes_exits parsed compiled inside⟩
  obtain ⟨i, member, holds⟩ := Array.any_eq_true'.mp closing
  exact ⟨i, member, of_decide_eq_true holds⟩

end LuaBytecode
