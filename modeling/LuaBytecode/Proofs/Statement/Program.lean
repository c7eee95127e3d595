import LuaBytecode.Proofs.Closing.Program
import LuaBytecode.Proofs.Statement.Tree

namespace LuaBytecode

open Lowering

namespace Prototype

def program (p : Prototype) : Program := ⟨p.code, p.constants⟩

def EndsAt (p : Prototype) (pc : Nat) : Prop :=
  pc + 1 = p.code.size ∧ ∃ i, p.code[pc]? = some i ∧ i.opcode? = some .ret ∧ i.a = 0 ∧ i.b = 1

theorem serves_finish {finish : Lowering} {Γ : Scopes} {pc : Nat} {f : Frame} {source : Option String}
    (sound : Sound Γ finish) (scopes : finish.frame.scopes = [none])
    (finished : (do Frame.exitScope; Frame.emitReturn 0 0) finish.frame = .ok pc f) :
    (f.toPrototype source).program.Serves 0 Program.settled 0 finish.frame ∧
      (f.toPrototype source).EndsAt finish.frame.pc := by
  obtain ⟨_, g, exit, emit⟩ := bind_ok finished
  obtain ⟨same, _, size, _⟩ := Frame.exitScope_ok sound.ready.opened sound.ready.stack sound.frame.jumps_of_breaks exit
  obtain ⟨i, built, _, rfl⟩ := Frame.emitAbc_ok emit
  obtain ⟨hop, ha, hb, _⟩ := Instruction.abc_ok built
  have none : loopBreaks g.scopes = [] := by rw [same, Frame.outside, scopes]; rfl
  have serves : ((g.push i).toPrototype source).program.Serves 0 Program.settled 0 g := by
    refine ⟨fun q _ inside _ _ => Frame.push_earlier inside, fun q member => ?_,
      fun _ _ hangs => hangs.elim, List.prefix_rfl⟩
    rw [none] at member
    cases member
  refine ⟨serves.ofBlock sound.ready.stack sound.frame exit scopes, ?_⟩
  rw [← size]
  exact ⟨(Frame.push_pc ..).symm, i, Frame.push_last, hop, ha, hb⟩

end Prototype

/-- A run of the source is a run of the code, to the return at its end. Whenever a statement ends, each variable in scope
    has its value in its register. -/
theorem Block.compile_preserves_runs {V : Type} (ops : Operators V) {source name : String} {block : Block} {p : Prototype}
    {r : Outcome V} (parsed : Chunk.parse source = .ok block) (fragment : Block.Local [] block)
    (compiled : block.compile name = .ok p) (runs : Block.RunsTo ops block [] r) (registers : Nat → V) :
    r.broke = false ∧ ∃ start finish registers', p.LoweredFrom ⟨[], true, block⟩ start ∧
    Block.code block start = .ok () finish ∧
      p.program.Passes ops (Ending.Reached block start) ⟨0, registers⟩ r.endings ⟨finish.frame.pc, registers'⟩ ∧
      Held finish.frame.live r.store registers' ∧ p.EndsAt finish.frame.pc := by
  obtain ⟨rounds, done⟩ := runs
  obtain ⟨start, finish, pc, f, starts, enters, lowered, finished, rfl⟩ := Block.compile_ok compiled
  have grammatical := Chunk.parse_grammatical parsed
  have empty : start.frame.code = #[] := by rw [starts.frame, Frame.new]
  have opened : start.frame.scopes = [none] := by rw [starts.frame, Frame.new]
  have nothing : start.frame.live = [] := by rw [starts.frame, Frame.new]
  have sound := (Block.code_tracks grammatical _ starts.sound _ _ lowered).2.sound
  have inside : Simulates ops (Ending.Reached block start) (Block.exec ops rounds block) start finish (Ends start finish) :=
    Block.simulates block grammatical starts.sound fragment lowered fun _ _ visits => visits
  have scopes : finish.frame.scopes = [none] := by
    obtain ⟨rest, whole, adds⟩ := (opened ▸ inside.adds).ofBlock
    cases adds
    exact whole
  obtain ⟨serves, ends⟩ := Prototype.serves_finish (f := f) sound scopes finished
  have held : Held start.frame.live [] registers := by
    rw [nothing]
    exact .nil
  obtain ⟨inLoop, registers', passes, final⟩ := inside.runs (serves.narrow (Nat.zero_le _)) held done
  have normal : r.broke = false := by
    refine Bool.eq_false_iff.mpr fun broke => ?_
    have loop := inLoop broke
    rw [Frame.loopDepth, opened] at loop
    cases loop
  have first : start.frame.pc = 0 := by rw [Frame.pc, empty]; rfl
  rw [normal, first] at passes
  exact ⟨normal, start, finish, registers', ⟨some name, finish, pc, f, enters, lowered, finished, rfl⟩, lowered, passes,
    final.all normal, ends⟩

theorem Block.compile_preserves_runs_of_loops :
    ∃ block p r, Chunk.parse "local a, b = true, true while a do local c = a; a, b = b
        if b then ; elseif a then else break end end do local a = b end repeat local d = a == b until d" = .ok block ∧
      Block.Local [] block ∧ block.compile "loops" = .ok p ∧ Block.RunsTo .onNat block [] r ∧ r.endings.length = 15 ∧
      r.store = [("b", 0), ("a", 0)] ∧ ∀ registers : Nat → Nat, r.broke = false ∧ ∃ start finish registers',
        p.LoweredFrom ⟨[], true, block⟩ start ∧ Block.code block start = .ok () finish ∧
        p.program.Passes .onNat (Ending.Reached block start) ⟨0, registers⟩ r.endings ⟨finish.frame.pc, registers'⟩ ∧
        Held finish.frame.live r.store registers' ∧ p.EndsAt finish.frame.pc := by
  obtain ⟨block, parsed, checked⟩ := exists_ok (r := Chunk.parse "local a, b = true, true while a do local c = a; a, b = b
        if b then ; elseif a then else break end end do local a = b end repeat local d = a == b until d")
    (fun block => decide (Block.Local [] block) && (Block.compile block "loops").toOption.any (fun _ => true) &&
      (Block.exec .onNat 2 block []).any fun r => r.endings.length = 15 ∧ r.store = [("b", 0), ("a", 0)])
    (by decide +kernel) fun _ _ => id
  rw [Bool.and_eq_true, Bool.and_eq_true, decide_eq_true_eq] at checked
  obtain ⟨⟨fragment, compiles⟩, runs⟩ := checked
  obtain ⟨p, compiled, _⟩ := exists_ok _ compiles fun _ _ => id
  obtain ⟨some, holds⟩ := (Option.any_eq_true_iff_get _ _).mp runs
  obtain ⟨count, store⟩ := of_decide_eq_true holds
  have outcome : Block.RunsTo .onNat block [] ((Block.exec .onNat 2 block []).get some) := ⟨2, (Option.some_get some).symm⟩
  exact ⟨block, p, _, parsed, fragment, compiled, outcome, count, store,
    fun registers => Block.compile_preserves_runs .onNat parsed fragment compiled outcome registers⟩

end LuaBytecode
