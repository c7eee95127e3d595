import LuaBytecode.Proofs.Lowering.Tracks

namespace LuaBytecode

namespace Frame

def Apart (a b : Option (Array Nat)) : Prop := ∀ pcs ∈ a, ∀ pcs' ∈ b, ∀ pc ∈ pcs, pc ∉ pcs'

/-- What holds of a frame between two statements. The variables of the loops themselves come first in their scope, the
    jumps out of loops are jumps, and a variable that a function made since it was declared refers to is marked. -/
structure Sound (f : Frame) : Prop where
  balanced : f.used = f.live.length
  room : f.live.length ≤ f.peak
  small : f.live.length < registerLimit
  visible : ∀ b ∈ f.live, b.captured = true → isHidden b.name = false
  hidden : ∀ b ∈ f.live, isHidden b.name = true → ∀ c ∈ f.live, c.depth = b.depth → c.register < b.register →
    isHidden c.name = true
  breaks : ∀ pcs, some pcs ∈ f.scopes → ∀ pc ∈ pcs, ∃ i, f.code[pc]? = some i ∧ i.opcode? = some .jmp
  apart : f.scopes.Pairwise Apart
  closures : ∀ (pc : Nat) (i : Instruction), f.code[pc]? = some i → i.opcode? = some .closure → i.bx < f.functions.size
  captured : ∀ pc r, Captures f.code f.functions.toList pc r → ∀ b ∈ f.live, b.register = r →
    (∀ v ∈ f.locals[b.record]?, v.startPc ≤ pc + 1) → b.captured = true
  last : ∀ r, Captures f.code f.functions.toList (f.pc - 1) r → ∃ b ∈ f.live, b.register = r ∧ b.captured = true

/-- What the last instruction refers to outlives the scope. -/
def Closed (f : Frame) : Prop :=
  ∀ r, Captures f.code f.functions.toList (f.pc - 1) r → ∃ b ∈ f.live, b.depth < f.depth ∧ b.register = r ∧ b.captured = true

theorem Closed.ofLast {f : Frame} (plain : ∀ i, f.code[f.pc - 1]? = some i → i.opcode? ≠ some .closure) : f.Closed := by
  rintro r ⟨i, _, _, there, closure, _⟩
  exact absurd closure (plain i there)

theorem Closed.pushed {f : Frame} {i : Instruction} (plain : i.opcode? ≠ some .closure) : (f.push i).Closed := by
  refine .ofLast fun j there => ?_
  rw [push_pc, Nat.add_sub_cancel, push_code, Frame.pc, Array.getElem?_push_size] at there
  cases there
  exact plain

theorem endLocals_startPc {locals : Array LocalVar} (bindings : List Binding) (pc : Nat) {k : Nat} {v : LocalVar}
    (found : locals[k]? = some v) :
    ∃ v', (endLocals locals bindings pc)[k]? = some v' ∧ v'.startPc = v.startPc := by
  induction bindings generalizing locals v with
  | nil => exact ⟨v, found, rfl⟩
  | cons b rest ih =>
    rw [endLocals, List.foldl_cons]
    by_cases same : b.record = k
    · have found' : (locals.modify b.record fun v => { v with endPc := pc })[k]? = some { v with endPc := pc } := by
        rw [Array.getElem?_modify, if_pos same, found]
        rfl
      obtain ⟨v', last, start⟩ := ih found'
      exact ⟨v', last, start⟩
    · have found' : (locals.modify b.record fun v => { v with endPc := pc })[k]? = some v := by
        rw [Array.getElem?_modify, if_neg same, found]
      exact ih found'

namespace Sound

variable {D : FunctionDef → Prop} {f f' : Frame}

section

variable (h : f.Sound)

include h

theorem extended (stack : Stack f.depth f.locals.size f.live) (e : f.Extends D f') (used : f'.used = f.used) :
    f'.Sound := by
  have length := e.marked.length_eq
  have stack' := e.marked.stack stack
  have locals : f'.locals = f.locals := by rw [e.same]
  have scopes : f'.scopes = f.scopes := by rw [e.same]
  have known : ∀ pc r, pc < f.pc → Captures f'.code f'.functions.toList pc r →
      Captures f.code f.functions.toList pc r := fun pc r inside captures =>
    captures.earlier inside e.code (fun i there closure => by simpa using h.closures pc i there closure) e.functions
  refine ⟨?_, ?_, ?_, ?_, ?_, ?_, ?_, ?_, ?_, ?_⟩
  · rw [used, h.balanced, length]
  · rw [← length]
    exact Nat.le_trans h.room e.peak
  · rw [← length]
    exact h.small
  · intro b' member' captured
    obtain ⟨b, member, marked⟩ := e.marked.backward member'
    rcases marked with rfl | ⟨visible, rfl⟩
    · exact h.visible b' member captured
    · exact visible
  · intro b' hb' hidden c' hc' depth register
    obtain ⟨b, hb, markedB⟩ := e.marked.backward hb'
    obtain ⟨c, hc, markedC⟩ := e.marked.backward hc'
    rw [markedB.name] at hidden
    rw [markedC.depth, markedB.depth] at depth
    rw [markedC.register, markedB.register] at register
    rw [markedC.name]
    exact h.hidden b hb hidden c hc depth register
  · intro pcs scope pc member
    rw [scopes] at scope
    obtain ⟨i, there, jump⟩ := h.breaks pcs scope pc member
    refine ⟨i, ?_, jump⟩
    rw [getElem?_of_prefixed e.code (lt_of_getElem? there), there]
  · rw [scopes]
    exact h.apart
  · intro pc i there closure
    by_cases inside : pc < f.pc
    · rw [getElem?_of_prefixed e.code inside] at there
      have more := e.functions.length_le
      simp only [Array.length_toList] at more
      exact Nat.lt_of_lt_of_le (h.closures pc i there closure) more
    · exact e.closures pc i (Nat.not_lt.mp inside) there closure
  · intro pc r captures b' member' register started
    by_cases inside : pc < f.pc
    · obtain ⟨b, member, marked⟩ := e.marked.backward member'
      rw [marked.register] at register
      rw [marked.remains.record, locals] at started
      exact marked.captured (h.captured pc r (known pc r inside captures) b member register started)
    · obtain ⟨c, member, register', captured⟩ := e.captured pc r (Nat.not_lt.mp inside) captures
      cases stack'.eq_of_register member' member (register.trans register'.symm)
      exact captured
  · intro r captures
    by_cases inside : f'.pc - 1 < f.pc
    · have same : f'.pc - 1 = f.pc - 1 := by
        have := e.pc_le
        omega
      have old := known _ r inside captures
      rw [same] at old
      obtain ⟨b, member, register, captured⟩ := h.last r old
      obtain ⟨b', member', marked⟩ := e.marked.forward member
      exact ⟨b', member', marked.register.trans register, marked.captured captured⟩
    · exact e.captured _ r (Nat.not_lt.mp inside) captures

theorem jumps_of_breaks : ∀ pc ∈ f.breaks, ∃ i, f.code[pc]? = some i ∧ i.opcode? = some .jmp := by
  intro pc pending
  obtain ⟨pcs, outer, scopes, member⟩ := exists_of_mem_breaks pending
  exact h.breaks pcs (by simp [scopes]) pc member

theorem recoded {code : Array Instruction}
    (jumps : ∀ (pc : Nat) (i : Instruction), f.code[pc]? = some i → i.opcode? = some .jmp →
      ∃ j, code[pc]? = some j ∧ j.opcode? = some .jmp)
    (closures : ∀ (pc : Nat) (i : Instruction), code[pc]? = some i → i.opcode? = some .closure →
      f.code[pc]? = some i ∧ (pc = code.size - 1 → pc = f.pc - 1)) :
    Sound { f with code := code } := by
  have known : ∀ pc r, Captures code f.functions.toList pc r → Captures f.code f.functions.toList pc r ∧
      (pc = code.size - 1 → pc = f.pc - 1) := by
    rintro pc r ⟨i, child, u, there, closure, facts⟩
    obtain ⟨old, last⟩ := closures pc i there closure
    exact ⟨⟨i, child, u, old, closure, facts⟩, last⟩
  refine { h with breaks := ?_, closures := ?_, captured := ?_, last := ?_ }
  · intro pcs scope pc member
    obtain ⟨i, there, jump⟩ := h.breaks pcs scope pc member
    exact jumps pc i there jump
  · intro pc i there closure
    exact h.closures pc i (closures pc i there closure).1 closure
  · intro pc r captures
    exact h.captured pc r (known pc r captures).1
  · intro r captures
    obtain ⟨old, last⟩ := known _ r captures
    rw [last rfl] at old
    exact h.last r old

theorem pushed {i : Instruction} (plain : i.opcode? ≠ some .closure) : (f.push i).Sound := by
  refine h.recoded (fun pc j there jump => ⟨j, ?_, jump⟩) (fun pc j there closure => ?_)
  · rw [getElem?_of_prefixed (by simp) (lt_of_getElem? there), there]
  · rw [Array.getElem?_push] at there
    split at there
    · cases there
      exact absurd closure plain
    · refine ⟨there, fun last => ?_⟩
      have inside := lt_of_getElem? there
      simp only [Array.size_push] at last
      omega

theorem replaced {pc : Nat} {i j : Instruction} (there : f.code[pc]? = some i) (plain : i.opcode? ≠ some .closure)
    (kind : j.opcode? = i.opcode?) : (f.replace pc j).Sound := by
  have inside := lt_of_getElem? there
  refine h.recoded (fun at' k there' jump => ?_) (fun at' k there' closure => ?_)
  · by_cases same : pc = at'
    · subst same
      cases there.symm.trans there'
      exact ⟨j, Array.getElem?_setIfInBounds_self_of_lt inside, kind.trans jump⟩
    · exact ⟨k, by rw [Array.getElem?_setIfInBounds_ne same, there'], jump⟩
  · by_cases same : pc = at'
    · subst same
      rw [Array.getElem?_setIfInBounds_self_of_lt inside] at there'
      cases there'
      exact absurd (kind.symm.trans closure) plain
    · rw [Array.getElem?_setIfInBounds_ne same] at there'
      refine ⟨there', fun last => ?_⟩
      rwa [Array.size_setIfInBounds] at last

theorem entered (isLoop : Bool) : (f.enter isLoop).Sound := by
  refine { h with breaks := ?_, apart := ?_ }
  · intro pcs scope pc member
    rcases List.mem_cons.mp scope with same | old
    · cases isLoop with
      | false => cases same
      | true =>
        cases same
        exact absurd member (Array.not_mem_empty pc)
    · exact h.breaks pcs old pc member
  · refine .cons (fun scope _ pcs same => ?_) h.apart
    cases isLoop with
    | false => cases same
    | true =>
      cases same
      exact fun _ _ pc absurd => (Array.not_mem_empty pc absurd).elim

end

theorem apart_pushBreak {pc : Nat} {scopes : List (Option (Array Nat))} (h : scopes.Pairwise Apart)
    (fresh : ∀ pcs, some pcs ∈ scopes → pc ∉ pcs) : (pushBreak pc scopes).Pairwise Apart := by
  induction scopes with
  | nil => exact h
  | cons scope rest ih =>
    have rest' : ∀ pcs, some pcs ∈ rest → pc ∉ pcs := fun pcs member => fresh pcs (.tail _ member)
    cases scope with
    | none => exact .cons nofun (ih h.of_cons rest')
    | some pending =>
      refine .cons (fun other member pcs same pcs' same' x there there' => ?_) h.of_cons
      cases same
      cases same'
      rcases Array.mem_push.mp there with old | rfl
      · exact List.rel_of_pairwise_cons h member pending rfl pcs' rfl x old there'
      · exact rest' pcs' member there'

theorem broke (h : f.Sound) {pc : Nat} (there : ∃ i, f.code[pc]? = some i ∧ i.opcode? = some .jmp)
    (fresh : ∀ pcs, some pcs ∈ f.scopes → pc ∉ pcs) : (f.withBreak pc).Sound := by
  refine { h with breaks := ?_, apart := apart_pushBreak h.apart fresh }
  intro pcs scope x member
  rcases (AddsBreaks.pushBreak (P := (· = pc)) rfl f.scopes).member scope member with rfl | ⟨pcs', scope', member'⟩
  · exact there
  · exact h.breaks pcs' scope' x member'

theorem declared (h : f.Sound) (stack : Stack f.depth f.locals.size f.live) {name : String} {startPc : Nat}
    (free : f.used + 1 < registerLimit) (here : f.pc ≤ startPc)
    (first : isHidden name = true → ∀ c ∈ f.live, c.depth = f.depth → isHidden c.name = true) :
    (f.withLocal name startPc).Sound := by
  refine { h with balanced := ?_, room := ?_, small := ?_, visible := ?_, hidden := ?_, captured := ?_, last := ?_ }
  · rw [withLocal_used, withLocal, List.length_cons, h.balanced]
  · simp only [withLocal, List.length_cons, h.balanced]
    omega
  · rwa [h.balanced] at free
  · intro b member captured
    rcases List.mem_cons.mp member with rfl | old
    · cases captured
    · exact h.visible b old captured
  · intro b hb hidden c hc depth register
    rcases List.mem_cons.mp hb with rfl | oldB
    · rcases List.mem_cons.mp hc with rfl | oldC
      · exact hidden
      · exact first hidden c oldC depth
    · rcases List.mem_cons.mp hc with rfl | oldC
      · have := stack.register_lt oldB
        rw [← h.balanced] at this
        simp only at register
        omega
      · exact h.hidden b oldB hidden c oldC depth register
  · intro pc r captures b member register started
    rcases List.mem_cons.mp member with rfl | old
    · -- only the last instruction could refer to the variable, and its variables are older
      have inside : pc < f.pc := by
        obtain ⟨i, _, _, there, _⟩ := captures
        exact lt_of_getElem? there
      have start : startPc ≤ pc + 1 := started ⟨name, startPc, 0⟩ (by simp [withLocal])
      rw [show pc = f.pc - 1 by omega] at captures
      obtain ⟨b, member, register', _⟩ := h.last r captures
      have := stack.register_lt member
      rw [← h.balanced] at this
      simp only at register
      omega
    · refine h.captured pc r captures b old register fun v found => started v ?_
      have inside := stack.record_lt old
      rw [withLocal, Array.getElem?_push_lt inside]
      rwa [Array.getElem?_eq_getElem inside] at found
  · intro r captures
    obtain ⟨b, member, facts⟩ := h.last r captures
    exact ⟨b, .tail _ member, facts⟩

theorem left (h : f.Sound) (opened : f.scopes ≠ []) (stack : Stack f.depth f.locals.size f.live) (closed : f.Closed)
    {u : Unit} (exit : exitScope f = .ok u f') : f'.Sound := by
  have jumps : ∀ pc ∈ f.breaks, ∃ i, f.code[pc]? = some i ∧ i.opcode? = some .jmp := h.jumps_of_breaks
  obtain ⟨same, used, size, untouched, landed⟩ := exitScope_ok opened stack jumps exit
  have live : f'.live = f.live.filter fun b => b.depth < f.depth := by rw [same]
  have locals : f'.locals = endLocals f.locals (f.leaving f.depth) f.pc := by rw [same]
  have functions : f'.functions = f.functions := by rw [same]
  have scopes : f'.scopes = f.scopes.tail := by rw [same]
  have peak : f'.peak = f.peak := by rw [same]
  have kept : ∀ (pc : Nat) (i : Instruction), f'.code[pc]? = some i → i.opcode? = some .closure →
      f.code[pc]? = some i := by
    intro pc i there closure
    by_cases pending : pc ∈ f.breaks
    · obtain ⟨k, old, _⟩ := jumps pc pending
      obtain ⟨j, new, jump, _⟩ := landed pc pending k old
      cases there.symm.trans new
      cases jump.symm.trans closure
    · rwa [untouched pc pending] at there
  have known : ∀ pc r, Captures f'.code f'.functions.toList pc r → Captures f.code f.functions.toList pc r := by
    rintro pc r ⟨i, child, u, there, closure, found, facts⟩
    rw [functions] at found
    exact ⟨i, child, u, kept pc i there closure, closure, found, facts⟩
  have still : ∀ b ∈ f'.live, b ∈ f.live := fun b member => List.mem_of_mem_filter (live ▸ member)
  have fewer : f'.live.length ≤ f.live.length := by
    rw [live]
    exact List.length_filter_le ..
  have balanced := h.balanced
  have room := h.room
  have small := h.small
  refine ⟨by omega, by omega, by omega, ?_, ?_, ?_, scopes ▸ h.apart.tail, ?_, ?_, ?_⟩
  · exact fun b member => h.visible b (still b member)
  · exact fun b hb hidden c hc => h.hidden b (still b hb) hidden c (still c hc)
  · intro pcs scope pc member
    rw [scopes] at scope
    obtain ⟨i, there, jump⟩ := h.breaks pcs (List.mem_of_mem_tail scope) pc member
    by_cases pending : pc ∈ f.breaks
    · obtain ⟨j, new, jump', _⟩ := landed pc pending i there
      exact ⟨j, new, jump'⟩
    · exact ⟨i, by rw [untouched pc pending, there], jump⟩
  · intro pc i there closure
    rw [functions]
    exact h.closures pc i (kept pc i there closure) closure
  · intro pc r captures b member register started
    refine h.captured pc r (known pc r captures) b (still b member) register fun v found => ?_
    obtain ⟨v', found', start⟩ := endLocals_startPc (f.leaving f.depth) f.pc found
    rw [locals] at started
    rw [← start]
    exact started v' found'
  · intro r captures
    rw [size] at captures
    obtain ⟨b, member, shallow, facts⟩ := closed r (known _ r captures)
    refine ⟨b, ?_, facts⟩
    rw [live]
    exact List.mem_filter.mpr ⟨member, by simpa using shallow⟩

end Sound

end Frame

end LuaBytecode
