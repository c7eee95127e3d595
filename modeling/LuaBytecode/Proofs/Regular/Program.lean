import LuaBytecode.Proofs.Closing.Program
import LuaBytecode.Proofs.Regular.Tree

namespace LuaBytecode

open Lowering

variable {slack : Nat} {P : List String → Prop} {block : Block} {name : String} {p q : Prototype}

def Upvalue.ofEnvironment : Upvalue := ⟨environment, true, 0⟩

section Chunk

def Lowering.chunkStart : Lowering := ⟨Frame.new 0 true 0, [(Frame.new 0 false 0).withLocal environment 0]⟩

theorem ofChunk_eq : ofChunk = .ok chunkStart := rfl

theorem chunkStart_rests (slack : Nat) : chunkStart.Rests slack [] where
  frame := .ofNew ..
  chain := ⟨⟨List.nodup_nil, Nat.zero_le _, fun _ => (Array.not_mem_empty _).elim, by decide⟩, rfl, 0, by decide⟩
  nested := List.cons_ne_nil _ _
  functions _ := (Array.not_mem_empty _).elim
  settled := ⟨nofun, nofun⟩
  alone := nofun
  balanced := rfl
  opened := List.cons_ne_nil _ _

theorem upvalue?_chunkStart {i? : Option Nat} {t : Lowering} (run : upvalue? environment chunkStart = .ok i? t) :
    t.frame.upvalues[0]? = some .ofEnvironment := by
  have fresh : (Frame.new 0 true 0).upvalueIndex? environment = none := by decide +kernel
  have found : ((Frame.new 0 false 0).withLocal environment 0).register? environment = some 0 := by decide +kernel
  have added : Frame.addUpvalue environment true 0 (Frame.new 0 true 0) =
      .ok 0 { Frame.new 0 true 0 with upvalues := #[.ofEnvironment] } := by
    unfold Frame.addUpvalue
    rw [fresh]
    rfl
  simp only [upvalue?, chunkStart, findUpvalue, fresh, found, Functor.map, EStateM.map, step, added] at run
  cases run
  rfl

theorem emitChunk_gives {body : LowerM Unit} (hb : StatRegular slack body) (source : Option String) :
    Gives (emitChunk body) chunkStart fun _ t => (t.frame.toPrototype source).Regular slack ∧
      t.frame.upvalues[0]? = some .ofEnvironment := by
  have rests := chunkStart_rests slack
  have start : Carries slack [] (upvalue? environment) chunkStart fun _ t =>
      t.frame.upvalues[0]? = some .ofEnvironment ∧ t.frame.depth = 1 := by
    have given := upvalue?_lowers rests.toPoised environment
    refine Gives.intro (fun i? t run => ?_) fun e t run => given.error run
    obtain ⟨⟨_, _, used⟩, leads⟩ := given.ok run
    exact ⟨⟨upvalue?_chunkStart run, leads.depth⟩, rests.does leads used⟩
  refine .bind (Gives.weaken start ?_)
  rintro _ t ⟨⟨first, depth⟩, does⟩
  refine .bind (Gives.weaken (hb does.toRests) ?_)
  rintro _ u ⟨depth', does'⟩
  have params : u.frame.params ≤ u.frame.peak := by
    rw [(does.trans does').grown.params]
    exact Nat.zero_le _
  refine .bind ((exitScope_gives does'.toRests).weaken ?_)
  rintro _ v ⟨poised, grown, _, _, _, live⟩
  have returns : Frame.emitReturn 0 0 = Frame.emit (Instruction.abc .ret 0 1 0) := rfl
  rw [returns]
  refine .bind (.lift (Frame.emit_gives (fun error => Instruction.abc_error (Nat.zero_le _)) fun i built => .pure ⟨?_, ?_⟩))
  · exact ExpCode.finishes_of_body source does'.toRests (depth'.trans depth) params poised grown live built
  · -- Upvalues only come to those that there are.
    obtain ⟨rest, whole⟩ := (does'.grown.trans grown).upvalues
    show v.frame.upvalues[0]? = _
    rw [← Array.getElem?_toList] at first ⊢
    rw [← whole, List.getElem?_append_left (List.getElem?_eq_some_iff.mp first).1, first]

theorem Block.compile_error {e : CodeError} (h : block.compile name = .error e) :
    ∃ t, emitChunk (Block.code block) chunkStart = .error e t := by
  unfold Block.compile at h
  rw [ofChunk_eq] at h
  cases run : emitChunk (Block.code block) chunkStart with
  | ok v t =>
    simp only [bind, Except.bind, run] at h
    cases h
  | error e' t =>
    simp only [bind, Except.bind, run] at h
    cases h
    exact ⟨t, rfl⟩

theorem Block.compile_regular (spare : HasControl P slack) (paired : Block.Paired P block) (name : String) :
    (∀ p, block.compile name = .ok p → p.Regular slack ∧ p.upvalues[0]? = some .ofEnvironment) ∧
      ∀ e, block.compile name = .error e → e.Expected := by
  have given := emitChunk_gives (Block.code_regular spare block paired) (some name)
  constructor
  · intro p compiled
    obtain ⟨s, t, first, run, rfl⟩ := Block.compile_eq compiled
    cases ofChunk_eq.symm.trans first
    exact given.ok run
  · intro e failed
    obtain ⟨t, run⟩ := Block.compile_error failed
    exact given.error run

theorem Block.compile_regular_of_parse {source : String} (parsed : Chunk.parse source = .ok block) (name : String) :
    (∀ p, block.compile name = .ok p → p.Regular 0 ∧ p.upvalues[0]? = some .ofEnvironment) ∧
      ∀ e, block.compile name = .error e → e.Expected := by
  refine Block.compile_regular (P := (· ≠ [])) ?_ (Chunk.parse_grammatical parsed).paired name
  intro names named
  exact List.length_pos_iff.mpr named

end Chunk

namespace Prototype

theorem Regular.contains (h : p.Regular slack) (inside : p.Contains q) : q.Regular slack := by
  induction inside with
  | self => exact h
  | inner _ member ih =>
    cases ih with
    | mk _ functions => exact functions _ member

end Prototype

namespace Frame.Finishes

variable {f : Frame}

variable (h : f.Finishes slack p) {pc : Nat} {i : Instruction}

include h

theorem code : ∃ i, i.opcode? = some .ret ∧ i.a = 0 ∧ i.b = 1 ∧ p.code = f.code.push i := by
  obtain ⟨i, source, built, rfl⟩ := h.returns
  obtain ⟨hop, ha, hb, _⟩ := Instruction.abc_ok built
  exact ⟨i, hop, ha, hb, rfl⟩

theorem whole : ∃ i source, p = (f.push i).toPrototype source ∧
    (f.push i).Regular (f.peak + slack) [] := by
  obtain ⟨i, source, built, same⟩ := h.returns
  obtain ⟨hop, ha, hb, _⟩ := Instruction.abc_ok built
  refine ⟨i, source, same, h.regular.emit h.settled hop ?_ rfl (by decide) ?_⟩
  · exact ⟨by simp [hop], by simp [Instruction.takesOpen, hop, hb], by simp [hop]⟩
  · refine .intro hop ?_ rfl False.elim False.elim
    rintro r (⟨many, _⟩ | ⟨least, most⟩)
    · exact absurd hb many
    · omega

theorem flow : Flow [] p.code := by
  obtain ⟨i, source, rfl, regular⟩ := h.whole
  exact regular.flow

theorem operands : Operands (p.stackSize + slack) p.constants.size p.upvalues.size p.code := by
  obtain ⟨i, source, rfl, regular⟩ := h.whole
  exact regular.operands

theorem exists_next (there : p.code[pc]? = some i) (binds : i.binds = true) :
    ∃ j, p.code[pc + 1]? = some j ∧ i.Linked j := by
  obtain ⟨l, hop, _, _, same⟩ := h.code
  have inside := lt_of_getElem? there
  have more : pc + 1 < p.code.size := by
    by_contra last
    have here : pc = f.code.size := by
      rw [same, Array.size_push] at inside last
      omega
    rw [same, here, Array.getElem?_push_size] at there
    cases there
    simp [Instruction.binds, Instruction.isTest, Instruction.hasExtra, Instruction.isOpen, hop, Opcode.isTest] at binds
  have next := Array.getElem?_eq_getElem more
  exact ⟨_, next, h.flow.linked pc i _ there next⟩

theorem exists_before {j : Instruction} (there : p.code[pc]? = some j) (needs : ¬ j.Starts) :
    ∃ (k : Nat) (i : Instruction), pc = k + 1 ∧ p.code[k]? = some i ∧ i.Linked j := by
  cases pc with
  | zero => exact absurd (h.flow.first j there) needs
  | succ k =>
    have inside := lt_of_getElem? there
    have before := Array.getElem?_eq_getElem (Nat.lt_of_succ_lt inside)
    exact ⟨k, _, rfl, before, h.flow.linked k _ j before there⟩

theorem lands (there : p.code[pc]? = some i) (jump : i.isJump = true) :
    ∃ (t : Nat) (j : Instruction), (t : Int) = pc + 1 + i.sbx ∧ p.code[t]? = some j ∧ j.Starts ∧
      ∀ k l, t = k + 1 → p.code[k]? = some l → l.binds = false := by
  obtain ⟨last, hop, _, _, same⟩ := h.code
  obtain ⟨t, target, landing⟩ := h.flow.lands pc i there jump
  -- No jump lands behind the return, since none did before it was there.
  have before : t < p.code.size := by
    rw [same] at there
    rcases getElem?_push_cases there with old | ⟨_, rfl⟩
    · obtain ⟨t', target', landing'⟩ := h.regular.flow.lands pc i old jump
      have := landing'.inside
      rw [same, Array.size_push]
      omega
    · simp [Instruction.isJump, hop, Opcode.isJump] at jump
  have found := Array.getElem?_eq_getElem before
  refine ⟨t, _, target, found, ?_, landing.alone⟩
  cases t with
  | zero => exact h.flow.first _ found
  | succ k =>
    have there' := Array.getElem?_eq_getElem (Nat.lt_of_succ_lt before)
    obtain ⟨test, extra, results, generic⟩ := Instruction.binds_eq_false.mp (landing.alone k _ rfl there')
    have linked := h.flow.linked k _ _ there' found
    refine ⟨fun here => ?_, ?_, fun here => generic (linked.generic.mpr here)⟩
    · rw [linked.extra.mpr here] at extra
      cases extra
    · rw [← Bool.not_eq_true, ← linked.results, results]
      exact Bool.false_ne_true

end Frame.Finishes

end LuaBytecode
