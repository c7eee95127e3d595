import LuaBytecode.Proofs.Prototype.Operands

namespace LuaBytecode

open Lowering

variable {u : Unit} {names : List String}

namespace Frame

variable {f f' g : Frame} {held most held' most' : Nat}

/-- Registers come into use: `most` of them at once, of which `held` stay. The frame grows only as far as it must. -/
structure Takes (held most : Nat) (f f' : Frame) : Prop where
  used : f'.used = f.used + held
  peak : f'.peak = max f.peak (f.used + most)
  scopes : f'.scopes = f.scopes

namespace Takes

theorem refl (room : f.used ≤ f.peak) : Takes 0 0 f f := ⟨rfl, (Nat.max_eq_left room).symm, rfl⟩

theorem trans (first : Takes held most f g) (second : Takes held' most' g f') :
    Takes (held + held') (max most (held + most')) f f' where
  used := by rw [second.used, first.used, Nat.add_assoc]
  peak := by
    rw [second.peak, first.peak, first.used]
    omega
  scopes := second.scopes.trans first.scopes

section

variable (h : Takes held most f f')

include h

theorem of_eq (same : held = held') (same' : most = most') : Takes held' most' f f' := by
  rwa [← same, ← same']

theorem room (le : held ≤ most) : f'.used ≤ f'.peak := by
  rw [h.used, h.peak]
  omega

theorem push (i : Instruction) : Takes held most f (f'.push i) := ⟨h.used, h.peak, h.scopes⟩

theorem restore : Takes 0 most f (f'.withUsed f.used) := ⟨rfl, h.peak, h.scopes⟩

end

theorem allocAll {n : Nat} (room : f.used ≤ f.peak) (h : Frame.allocAll n f = .ok u f') : Takes n n f f' := by
  induction n generalizing f with
  | zero =>
    cases h
    exact refl room
  | succ n ih =>
    obtain ⟨_, g, first, rest⟩ := bind_ok h
    obtain ⟨_, _, rfl⟩ := alloc_ok first
    have one : Takes 1 1 f { f with used := f.used + 1, peak := max f.peak (f.used + 1) } := ⟨rfl, rfl, rfl⟩
    exact (one.trans (ih (one.room Nat.le.refl) rest)).of_eq (by omega) (by omega)

end Takes

theorem forM_retire_spares (h : names.forM retire f = .ok u f') :
    f'.code = f.code ∧ f'.peak = f.peak ∧ f'.scopes = f.scopes := by
  induction names generalizing f with
  | nil =>
    cases h
    exact ⟨rfl, rfl, rfl⟩
  | cons x rest ih =>
    obtain ⟨_, g, first, others⟩ := bind_ok h
    obtain ⟨_, same⟩ := retire_ok first
    obtain ⟨code, peak, scopes⟩ := ih others
    rw [code, peak, scopes, same]
    exact ⟨rfl, rfl, rfl⟩

theorem exitScope_spares (calm : f.breaks = []) (h : exitScope f = .ok u f') :
    f'.code = f.code ∧ f'.peak = f.peak ∧ f'.scopes = f.scopes.tail := by
  obtain ⟨g, landed, retired⟩ := exitScope_steps h
  rw [calm] at landed
  cases landed
  exact forM_retire_spares retired

end Frame

namespace Lowering

variable {s t : Lowering}

theorem declare_takes {start : Nat} (room : s.frame.used ≤ s.frame.peak) (h : declare names start s = .ok u t) :
    s.frame.Takes names.length names.length t.frame := by
  induction names generalizing s with
  | nil =>
    cases h
    exact .refl room
  | cons x rest ih =>
    obtain ⟨_, _, first, others⟩ := bind_ok h
    obtain ⟨_, added, _⟩ := bind_pure_ok first
    obtain ⟨g, bound, rfl⟩ := lift_ok added
    obtain ⟨_, _, rfl⟩ := Frame.addLocal_ok bound
    have one : s.frame.Takes 1 1 (s.frame.withLocal x start) := ⟨rfl, rfl, rfl⟩
    have rest := ih (one.room Nat.le.refl) others
    exact (one.trans rest).of_eq (Nat.add_comm ..) (by rw [List.length_cons]; omega)

theorem emitVararg_pushes {a : Nat} {n : Int} (h : ExpCode.ofVararg.emit a n s = .ok u t) : ∃ i, t = s.push i := by
  have run := bind_get_ok h
  split at run
  · obtain ⟨_, emitted, _⟩ := bind_pure_ok run
    obtain ⟨i, rfl, _⟩ := emitAbc_lower emitted
    exact ⟨i, rfl⟩
  · cases run

theorem loadVararg_takes (h : scratch (ExpCode.loadValues [ExpCode.ofVararg] 3) s = .ok u t) :
    s.frame.Takes 0 3 t.frame := by
  have run := bind_used_ok h
  obtain ⟨_, v, loaded, run⟩ := bind_ok run
  obtain ⟨_, restored, _⟩ := bind_pure_ok run
  obtain ⟨_, back, rfl⟩ := lift_ok restored
  cases Frame.setUsed_ok back
  obtain ⟨a, g, allocated, loaded⟩ := bind_lift_ok loaded
  obtain ⟨rfl, _, rfl⟩ := Frame.alloc_ok allocated
  rw [if_pos (show ExpCode.ofVararg.isMulti = true from rfl)] at loaded
  obtain ⟨_, _, emitted, loaded⟩ := bind_ok loaded
  obtain ⟨i, rfl⟩ := emitVararg_pushes emitted
  obtain ⟨_, others, _⟩ := bind_pure_ok loaded
  obtain ⟨_, allocated', rfl⟩ := lift_ok others
  have all := bind_get_ok allocated'
  obtain ⟨_, all, _⟩ := bind_pure_ok all
  have one : s.frame.Takes 1 1 { s.frame with used := s.frame.used + 1, peak := max s.frame.peak (s.frame.used + 1) } :=
    ⟨rfl, rfl, rfl⟩
  have two := Frame.Takes.allocAll ((one.push i).room Nat.le.refl) all
  exact ((one.push i).trans two).restore

theorem genericHead_takes {a toCall : Nat} (h : genericHead names [ExpCode.ofVararg] s = .ok (a, toCall) t) :
    a = s.frame.used ∧ (s.enter true).frame.Takes (3 + names.length) (3 + names.length) t.frame ∧
      ∃ i, t.frame.code[toCall]? = some i ∧ i.opcode? = some .jmp := by
  obtain ⟨_, _, opened, run⟩ := bind_lift_ok h
  cases Frame.enterScope_ok opened
  obtain ⟨_, v, locals, run⟩ := bind_ok run
  obtain ⟨_, w, loaded, declared⟩ := bind_ok locals
  replace declared := bind_pc_ok declared
  have values := loadVararg_takes (s := s.enter true) loaded
  have hidden := values.trans (declare_takes (values.room (Nat.zero_le _)) declared)
  replace run := bind_pc_ok run
  obtain ⟨_, x, declared', run⟩ := bind_ok run
  have named := hidden.trans (declare_takes (hidden.room (by decide)) declared')
  replace run := bind_used_ok run
  obtain ⟨_, _, subtracted, run⟩ := bind_ok run
  obtain ⟨_, rfl, rfl⟩ := difference_lower subtracted
  obtain ⟨_, _, jumped, done⟩ := bind_ok run
  obtain ⟨i, rfl, rfl, hop, _⟩ := emitJmp_lower jumped
  obtain ⟨same, rfl⟩ := pure_ok done
  cases same
  have whole : (s.enter true).frame.Takes (3 + names.length) (3 + names.length) x.frame :=
    named.of_eq rfl (by simp only [List.length_cons, List.length_nil]; omega)
  have used : x.frame.used = s.frame.used + (3 + names.length) := whole.used
  exact ⟨by omega, whole.push i, i, Frame.push_last, hop⟩

theorem emitGenericFor_takes (h : emitGenericFor names [ExpCode.ofVararg] (pure ()) s = .ok u t) :
    t.frame.peak = max s.frame.peak (s.frame.used + (3 + names.length)) ∧ t.frame.scopes = s.frame.scopes ∧
      ∃ i ∈ t.frame.code, i.opcode? = some .tforCall ∧ i.a = s.frame.used ∧ i.c = names.length := by
  rw [emitGenericFor_eq] at h
  obtain ⟨⟨a, toCall⟩, _, head, run⟩ := bind_ok h
  obtain ⟨rfl, takes, i, there, hop⟩ := genericHead_takes head
  obtain ⟨_, v, body, foot⟩ := bind_ok run
  obtain ⟨_, rfl⟩ := pure_ok body
  obtain ⟨w, j, k, l, close, _, _, hopk, hak, hck, _, exit⟩ := genericFoot_lower there hop foot
  have kept : w.frame.peak = v.frame.peak ∧ w.frame.scopes = v.frame.scopes := by
    rcases closeCaptured_lower close with ⟨_, rfl⟩ | ⟨_, _, rfl, _⟩
    · exact ⟨rfl, rfl⟩
    · exact ⟨rfl, rfl⟩
  let last : Frame := ((w.frame.replace toCall j).push k).push l
  have scopes : last.scopes = some #[] :: s.frame.scopes := kept.2.trans takes.scopes
  obtain ⟨f, left, rfl⟩ := lift_ok exit
  obtain ⟨code, peak, outer⟩ := Frame.exitScope_spares (f := last) (by rw [Frame.breaks, scopes]; rfl) left
  refine ⟨?_, ?_, k, ?_, hopk, hak, hck⟩
  · exact peak.trans (kept.1.trans takes.peak)
  · show f.scopes = _
    rw [outer, scopes]
    rfl
  · show k ∈ f.code
    rw [code]
    have placed : last.code[(w.frame.replace toCall j).pc]? = some k := by
      rw [Frame.push_earlier (by rw [Frame.push_pc]; exact Nat.lt_succ_self _), Frame.push_last]
    exact Array.mem_of_getElem? placed

end Lowering

theorem Block.compile_loop_takes {line : Nat} {name : String} {p : Prototype}
    (compiled : Block.compile [.mk line (.genericFor names [.vararg] [])] name = .ok p) :
    p.stackSize = 3 + names.length ∧ ∃ i ∈ p.code, i.opcode? = some .tforCall ∧ i.a = 0 ∧ i.c = names.length := by
  obtain ⟨s, t, start, run, rfl⟩ := Block.compile_eq compiled
  cases ofChunk_eq.symm.trans start
  obtain ⟨_, v, first, run⟩ := bind_ok run
  obtain ⟨_, same, _⟩ := (findUpvalue_gives environment _ _ (chunkStart_rests 0).chain).ok first
  have fresh : v.frame.used = 0 ∧ v.frame.peak = 0 ∧ v.frame.scopes = [none] := by
    rw [same]
    exact ⟨rfl, rfl, rfl⟩
  obtain ⟨_, w, body, run⟩ := bind_ok run
  obtain ⟨_, stat, _⟩ := bind_pure_ok body
  obtain ⟨_, _, set, loop⟩ := bind_lift_ok stat
  cases set
  obtain ⟨peak, scopes, i, member, hop, ha, hc⟩ := emitGenericFor_takes loop
  have outer : w.frame.scopes = [none] := scopes.trans fresh.2.2
  have size : w.frame.peak = max v.frame.peak (v.frame.used + (3 + names.length)) := peak
  obtain ⟨_, f, ended, run⟩ := bind_lift_ok run
  obtain ⟨code, kept, _⟩ := Frame.exitScope_spares (by rw [Frame.breaks, outer]; rfl) ended
  obtain ⟨_, returned, _⟩ := bind_pure_ok run
  obtain ⟨l, rfl, _⟩ := emitAbc_lower returned
  refine ⟨?_, i, ?_, hop, ha.trans fresh.1, hc⟩
  · show f.peak = _
    omega
  · exact Array.mem_push_of_mem l (code ▸ member)

theorem Prototype.Regular.holdsIterator {q : Prototype} (h : q.Regular 0) {i : Instruction} (member : i ∈ q.code)
    (hop : i.opcode? = some .tforCall) : i.a + 3 < q.stackSize ∧ i.a + 2 + i.c < q.stackSize := by
  have holds := h.holdsRegisters
  obtain ⟨pc, there⟩ := Array.mem_iff_getElem?.mp member
  have next : ∃ j ∈ q.code, j.opcode? = some .tforLoop ∧ j.a = i.a + 2 := by
    cases h with
    | mk finishes _ =>
      obtain ⟨j, next, linked⟩ := finishes.exists_next there (by simp [Instruction.binds, hop])
      exact ⟨j, Array.mem_of_getElem? next, linked.generic.mp hop, linked.control hop⟩
  obtain ⟨j, member', hopj, control⟩ := next
  have tested := holds.registers j member' (j.a + 1) ⟨_, hopj, .inr rfl⟩
  refine ⟨by omega, holds.registers i member _ ⟨_, hop, ?_, Nat.le.refl⟩⟩
  omega

/-- The call of an iterator copies a function and its two arguments to the registers behind the three that a loop
    iterates with. The frame has room for the function and for the variables of the loop, and so for all copies from
    three variables on. It has no more: where the loop is all that there is, one or two variables leave arguments
    outside. -/
theorem Chunk.compile_iterator_room (name : String) :
    (∀ source p q, Chunk.compile source name = .ok p → p.Contains q → ∀ i ∈ q.code, i.opcode? = some .tforCall →
      i.a + 3 < q.stackSize ∧ i.a + 2 + i.c < q.stackSize ∧ (3 ≤ i.c → i.a + 5 < q.stackSize)) ∧
    ∀ line names p, Block.compile [.mk line (.genericFor names [.vararg] [])] name = .ok p →
      ∃ i ∈ p.code, i.opcode? = some .tforCall ∧ i.c = names.length ∧ p.stackSize = i.a + 3 + names.length ∧
        (i.a + 5 < p.stackSize ↔ 3 ≤ names.length) := by
  constructor
  · intro source p q compiled inside i member hop
    obtain ⟨block, parsed, compiled⟩ := Chunk.compile_eq_ok_iff.mp compiled
    have regular := ((Block.compile_regular_of_parse parsed name).1 p compiled).1.contains inside
    obtain ⟨first, last⟩ := regular.holdsIterator member hop
    exact ⟨first, last, fun many => by omega⟩
  · intro line names p compiled
    obtain ⟨size, i, member, hop, ha, hc⟩ := Block.compile_loop_takes compiled
    exact ⟨i, member, hop, hc, by omega, by omega⟩

theorem Chunk.compile_iterator_room_of_loops :
    (∃ p, Chunk.compile "for a, b, c in ... do end" "loops" = .ok p ∧
        ∃ i ∈ p.code, i.opcode? = some .tforCall ∧ i.a + 5 < p.stackSize) ∧
      ∃ p, Block.compile [.mk 1 (.genericFor ["k"] [.vararg] [])] "loops" = .ok p ∧
        ∃ i ∈ p.code, i.opcode? = some .tforCall ∧ ¬i.a + 5 < p.stackSize := by
  constructor
  · refine exists_ok (fun p => p.code.any fun i => i.opcode? == some .tforCall && decide (3 ≤ i.c)) (by decide +kernel)
      fun p whole calls => ?_
    obtain ⟨i, member, call⟩ := Array.any_eq_true'.mp calls
    rw [Bool.and_eq_true, beq_iff_eq, decide_eq_true_eq] at call
    have room := (Chunk.compile_iterator_room "loops").1 _ p p whole .self i member call.1
    exact ⟨i, member, call.1, room.2.2 call.2⟩
  · refine exists_ok (fun _ => true) (by decide +kernel) fun p compiled _ => ?_
    obtain ⟨i, member, hop, _, _, room⟩ := (Chunk.compile_iterator_room "loops").2 1 ["k"] p compiled
    exact ⟨i, member, hop, fun fits => absurd (room.mp fits) (by decide)⟩

end LuaBytecode
