import LuaBytecode.Chunk
import LuaBytecode.Proofs.Lowering.Tree
import LuaBytecode.Proofs.Prototype.Origin

namespace LuaBytecode

open Lowering

variable {s : Lowering} {name : String} {p : Prototype} {D : FunctionDef → Prop}

namespace Lowering

structure Starts (s : Lowering) : Prop where
  sound : Sound Scopes.ofChunk s
  frame : s.frame = { Frame.new 0 true 0 with upvalues := s.frame.upvalues }

theorem ofChunk_ok (h : ofChunk = .ok s) : Starts s := by
  rw [ofChunk] at h
  split at h
  · rename_i r entry add
    cases h
    obtain ⟨_, _, rfl⟩ := Frame.addLocal_ok add
    have outside : Ready [[environment]] ⟨(Frame.new 0 false 0).withLocal environment 0, []⟩ :=
      ⟨rfl, ⟨Nat.le.refl, Nat.zero_lt_one, rfl, trivial⟩, List.cons_ne_nil _ _,
        fun _ member => absurd member (Array.not_mem_empty _), trivial⟩
    exact ⟨sound_new outside 0 true 0 [], rfl⟩
  · cases h

theorem upvalue?_ok {t : Lowering} {i? : Option Nat} (starts : Starts s) (run : upvalue? environment s = .ok i? t) :
    Starts t := by
  obtain ⟨agrees, same, upvalues, enclosing, _, _⟩ := findUpvalue_ok (by decide) starts.sound.ready run
  have grows : Grows (fun _ => True) Scopes.ofChunk s t := ⟨agrees, same ▸ .ofUpvalues upvalues, enclosing⟩
  have advances := Advances.ofGrows starts.sound grows (by rw [same])
  refine ⟨advances.sound, ?_⟩
  rw [same, starts.frame]

theorem emitChunk_lockstep {Γ : Scopes} {body body' : LowerM Unit} (h : StatTracks D Scopes.ofChunk Γ body body')
    (starts : Starts s) : Lockstep (emitChunk body) (emitChunk body') s fun _ _ => True := by
  refine .bind (.self fun _ t find => .bind ((h (upvalue?_ok starts find).sound).weaken fun _ u _ => ?_))
  exact .self fun _ _ _ => trivial

theorem emitChunk_ok {body : LowerM Unit} {t : Lowering} (starts : Starts s) {v : Unit}
    (run : emitChunk body s = .ok v t) : ∃ i? start finish pc, Starts start ∧ upvalue? environment s = .ok i? start ∧
      body start = .ok () finish ∧ (do Frame.exitScope; Frame.emitReturn 0 0) finish.frame = .ok pc t.frame := by
  obtain ⟨_, start, find, run⟩ := bind_ok run
  obtain ⟨_, finish, lowered, run⟩ := bind_ok run
  obtain ⟨_, left, exit, run⟩ := bind_ok run
  obtain ⟨pc, return', _⟩ := bind_pure_ok run
  obtain ⟨f, exits, rfl⟩ := lift_ok exit
  obtain ⟨g, returns, rfl⟩ := lift_ok return'
  exact ⟨_, start, finish, pc, upvalue?_ok starts find, find, lowered, (bind_run exits).trans returns⟩

end Lowering

theorem Block.compile_eq {block : Block} (h : block.compile name = .ok p) :
    ∃ s t, ofChunk = .ok s ∧ emitChunk (Block.code block) s = .ok () t ∧ t.frame.toPrototype (some name) = p := by
  unfold Block.compile at h
  cases start : ofChunk with
  | error e =>
    rw [start] at h
    cases h
  | ok s =>
    rw [start] at h
    cases run : emitChunk (Block.code block) s with
    | error e t =>
      simp only [bind, Except.bind, run] at h
      cases h
    | ok v t =>
      simp only [bind, Except.bind, run] at h
      cases h
      exact ⟨s, t, rfl, run, rfl⟩

theorem Block.compile_ok {block : Block} (h : block.compile name = .ok p) :
    ∃ start finish pc f, Starts start ∧ start.Enters ⟨[], true, block⟩ (some name) ∧
      Block.code block start = .ok () finish ∧
      (do Frame.exitScope; Frame.emitReturn 0 0) finish.frame = .ok pc f ∧ p = f.toPrototype (some name) := by
  obtain ⟨s, t, first, run, rfl⟩ := Block.compile_eq h
  obtain ⟨_, start, finish, pc, starts, find, lowered, finished⟩ := emitChunk_ok (ofChunk_ok first) run
  exact ⟨start, finish, pc, t.frame, starts, .chunk first find, lowered, finished, rfl⟩

theorem Chunk.compile_eq_ok_iff {source : String} : Chunk.compile source name = .ok p ↔
    ∃ block, Chunk.parse source = .ok block ∧ block.compile name = .ok p := by
  unfold Chunk.compile
  constructor
  · intro h
    cases parsed : Chunk.parse source with
    | error e =>
      rw [parsed] at h
      cases h
    | ok block =>
      rw [parsed] at h
      cases compiled : block.compile name with
      | error e =>
        simp only [bind, Except.bind, compiled] at h
        cases h
      | ok q =>
        simp only [bind, Except.bind, compiled] at h
        cases h
        exact ⟨block, rfl, compiled⟩
  · rintro ⟨block, parsed, compiled⟩
    simp only [parsed, bind, Except.bind, compiled]
    rfl

section Existence

theorem exists_ok {ε α : Type} {r : Except ε α} {P : α → Prop} (check : α → Bool) (h : r.toOption.any check = true)
    (holds : ∀ a, r = .ok a → check a = true → P a) : ∃ a, r = .ok a ∧ P a := by
  cases r with
  | error e => cases h
  | ok a => exact ⟨a, rfl, holds a rfl h⟩

theorem ne_ok {ε α : Type} {r : Except ε α} (h : r.isOk = false) (a : α) : r ≠ .ok a := by
  rintro rfl
  cases h

theorem Block.exists_compiled {block : Block} {P : Block → Prototype → Prop} (name : String)
    (h : (block.compile name).isOk = true) (holds : ∀ p, block.compile name = .ok p → P block p) :
    ∃ b p, b = block ∧ P b p := by
  cases compiled : block.compile name with
  | error e =>
    rw [compiled] at h
    cases h
  | ok p => exact ⟨block, p, rfl, holds p compiled⟩

theorem Chunk.exists_compiled {source name : String} {P : Block → Prototype → Prop} (check : Prototype → Bool)
    (h : (Chunk.compile source name).toOption.any check = true)
    (holds : ∀ block p, Chunk.parse source = .ok block → block.compile name = .ok p → check p = true → P block p) :
    ∃ block p, Chunk.parse source = .ok block ∧ block.compile name = .ok p ∧ P block p := by
  obtain ⟨p, whole, passed⟩ := exists_ok check h fun _ _ passed => passed
  obtain ⟨block, parsed, compiled⟩ := Chunk.compile_eq_ok_iff.mp whole
  exact ⟨block, p, parsed, compiled, holds block p parsed compiled passed⟩

end Existence

end LuaBytecode
