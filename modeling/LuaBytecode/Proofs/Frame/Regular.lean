import LuaBytecode.Proofs.Code.Flow
import LuaBytecode.Proofs.Frame.Locals

namespace LuaBytecode

open Instruction

def Instruction.closure? (i : Instruction) : Option Nat := if i.opcode? = some .closure then some i.bx else none

def Upvalue.Names (u : Upvalue) (live : List Binding) (upvalues : Array Upvalue) : Prop :=
  if u.inStack then ∃ b ∈ live, b.name = u.name ∧ b.register = u.index
  else ∃ v, upvalues[u.index]? = some v ∧ v.name = u.name

/-- The function made at `pc` in register `a` refers to variables of the frame that were live there, and to upvalues. -/
structure Makes (locals : Array LocalVar) (now : List Binding) (upvalues : Array Upvalue) (pc a : Nat)
    (child : Prototype) (live : List Binding) : Prop where
  stack : ∃ depth size, Stack depth size live
  recalls : Recalls locals now pc a live
  names : ∀ u ∈ child.upvalues, u.Names live upvalues

/-- What holds of a frame at all times, if its instructions name registers below `registers`. -/
structure Frame.Regular (registers : Nat) (pending : List Nat) (f : Frame) : Prop where
  flow : Flow pending f.code
  operands : Operands registers f.constants.entries.size f.upvalues.size f.code
  order : f.code.toList.filterMap Instruction.closure? = List.range f.functions.size
  makes : ∀ (pc : Nat) (i : Instruction), f.code[pc]? = some i → i.opcode? = some .closure →
    ∃ child live, f.functions[i.bx]? = some child ∧ Makes f.locals f.live f.upvalues pc i.a child live
  recorded : Recorded f.depth f.pc f.locals f.live
  nested : ∀ b ∈ f.live, 0 < b.depth
  room : f.live.length ≤ f.used
  used : f.used ≤ f.peak
  peak : f.peak < registerLimit
  breaks : ∀ pcs, some pcs ∈ f.scopes → ∀ pc ∈ pcs, ∃ i, f.code[pc]? = some i ∧ i.opcode? = some .jmp

def Frame.Alone (f : Frame) : Prop := ∀ i, f.code.back? = some i → i.binds = false

/-- The next instruction does not belong together with the last one, and all variables have started. -/
def Frame.Settled (f : Frame) : Prop :=
  f.Alone ∧ ∀ b ∈ f.live, ∀ v ∈ f.locals[b.record]?, v.startPc ≤ f.pc

/-- The last instruction leaves its results open from `a` on. -/
def Frame.Opened (f : Frame) (a : Nat) : Prop := ∃ i, f.code.back? = some i ∧ i.isOpen = true ∧ i.a = a

structure Frame.Touched (f f' : Frame) : Prop where
  same : f' = { f with live := f'.live, upvalues := f'.upvalues }
  live : RemainAll f.live f'.live
  upvalues : f.upvalues.toList <+: f'.upvalues.toList

theorem filterMap_set {α β : Type} (g : α → Option β) {l : List α} {n : Nat} {x y : α} (there : l[n]? = some y)
    (same : g x = g y) : (l.set n x).filterMap g = l.filterMap g := by
  induction l generalizing n with
  | nil => rfl
  | cons head tail ih =>
    cases n with
    | zero =>
      cases there
      simp only [List.set_cons_zero, List.filterMap_cons, same]
    | succ n =>
      simp only [List.getElem?_cons_succ] at there
      simp only [List.set_cons_succ, List.filterMap_cons, ih there]

theorem Upvalue.Names.grow {u : Upvalue} {live : List Binding} {upvalues upvalues' : Array Upvalue}
    (h : u.Names live upvalues) (more : upvalues.toList <+: upvalues'.toList) : u.Names live upvalues' := by
  unfold Upvalue.Names at *
  split
  · rename_i inStack
    rwa [if_pos inStack] at h
  · rename_i outside
    rw [if_neg outside] at h
    obtain ⟨v, there, name⟩ := h
    obtain ⟨rest, whole⟩ := more
    refine ⟨v, ?_, name⟩
    rw [← Array.getElem?_toList] at there ⊢
    rw [← whole, List.getElem?_append_left (List.getElem?_eq_some_iff.mp there).1, there]

namespace Frame

variable {f f' f'' : Frame} {registers : Nat} {pending : List Nat} {i j : Instruction} {pc : Nat}

namespace Touched

theorem refl (f : Frame) : Touched f f := ⟨rfl, .refl _, List.prefix_rfl⟩

theorem trans (first : Touched f f') (second : Touched f' f'') : Touched f f'' := by
  refine ⟨?_, first.live.trans second.live, first.upvalues.trans second.upvalues⟩
  rw [second.same, first.same]

end Touched

namespace Settled

theorem landing (h : f.Settled) : Landing f.code f.pc where
  inside := Nat.le.refl
  alone k i same there := by
    apply h.1
    rw [Array.back?_eq_getElem?, ← Frame.pc, same, Nat.add_sub_cancel]
    exact there

theorem ofPush (recorded : Recorded f.depth f.pc f.locals f.live) (alone : i.binds = false) : (f.push i).Settled := by
  refine ⟨fun j last => ?_, fun b member v there => ?_⟩
  · rw [push_code, Array.back?_push] at last
    cases last
    exact alone
  · obtain ⟨w, there', _, start⟩ := recorded.known b member
    cases there'.symm.trans there
    rwa [push_pc]

end Settled

theorem Opened.ofPush (results : i.isOpen = true) : (f.push i).Opened i.a := ⟨i, Array.back?_push, results, rfl⟩

namespace Regular

variable (h : f.Regular registers pending)

include h

theorem mono {registers' : Nat} (more : registers ≤ registers') : f.Regular registers' pending :=
  { h with operands := h.operands.mono more Nat.le.refl Nat.le.refl }

theorem push (valid : i.opcode?.isSome = true) (first : f.pc = 0 → i.Starts)
    (linked : ∀ k, f.code.back? = some k → k.Linked i)
    (lands : i.isJump = true → ∃ t : Nat, (t : Int) = f.pc + 1 + i.sbx ∧ (t = f.pc + 1 ∨ Landing f.code t))
    (loops : i.opcode? = some .forPrep → f.pc ∈ pending)
    (fits : i.Fits registers f.constants.entries.size f.upvalues.size)
    (extra : ∀ k, f.code.back? = some k → k.opcode? = some .loadKx → i.axField < f.constants.entries.size)
    (plain : i.opcode? ≠ some .closure) : (f.push i).Regular registers pending where
  flow := h.flow.push valid first linked lands loops
  operands := h.operands.push fits extra
  order := by
    rw [push_code, Array.toList_push, List.filterMap_append, h.order]
    simp [closure?, plain, Frame.push]
  makes pc j there closure := by
    rcases getElem?_push_cases there with old | ⟨_, rfl⟩
    · exact h.makes pc j old closure
    · exact absurd closure plain
  recorded := h.recorded.later (by rw [push_pc]; exact Nat.le_succ _)
  nested := h.nested
  room := h.room
  used := h.used
  peak := h.peak
  breaks pcs scope pc member := by
    obtain ⟨j, there, jump⟩ := h.breaks pcs scope pc member
    exact ⟨j, getElem?_push_of_some there, jump⟩

theorem emit (settled : f.Settled) {op : Opcode} (hop : i.opcode? = some op) (starts : i.Starts)
    (jump : op.isJump = false) (closure : op ≠ .closure)
    (fits : i.Fits registers f.constants.entries.size f.upvalues.size) : (f.push i).Regular registers pending := by
  refine h.push (by simp [hop]) (fun _ => starts) (fun k last => .ofStarts (settled.1 k last) starts) ?_ ?_ fits ?_ ?_
  · intro moves
    rw [isJump, hop, Option.any_some, jump] at moves
    cases moves
  · intro prep
    cases hop.symm.trans prep
    cases jump
  · intro k last wide
    have alone := settled.1 k last
    rw [binds_eq_false, hasExtra, wide] at alone
    simp at alone
  · intro makes
    cases hop.symm.trans makes
    exact closure rfl

theorem jump (linked : ∀ k, f.code.back? = some k → k.Linked i) (hop : i.opcode? = some .jmp)
    (lands : i.sbx = 0 ∨ ∃ t : Nat, (t : Int) = f.pc + 1 + i.sbx ∧ Landing f.code t) :
    (f.push i).Regular registers pending := by
  have starts : i.Starts := ⟨by simp [hop], by simp [takesOpen, hop], by simp [hop]⟩
  refine h.push (by simp [hop]) (fun _ => starts) linked (fun _ => ?_) ?_ ?_ ?_ ?_
  · rcases lands with zero | ⟨t, target, landing⟩
    · exact ⟨f.pc + 1, by rw [zero]; simp, .inl rfl⟩
    · exact ⟨t, target, .inr landing⟩
  · intro prep
    cases hop.symm.trans prep
  · exact .intro hop False.elim rfl False.elim False.elim
  · intro k last wide
    have both := (linked k last).extra
    rw [hop, hasExtra, wide] at both
    simp at both
  · intro closure
    cases hop.symm.trans closure

theorem replace (there : f.code[pc]? = some i) (redirects : i.Redirects j)
    (lands : ∃ t : Nat, (t : Int) = pc + 1 + j.sbx ∧ Landing f.code t)
    (unfinished : i.opcode? = some .forPrep → pc ∈ pending) (endless : i.opcode? = some .forLoop → i.sbx = 0) :
    (f.replace pc j).Regular registers pending := by
  have kept : ∀ (k : Nat) (l : Instruction), f.code[k]? = some l → l.opcode? ≠ none ∧
      ∃ m, (f.replace pc j).code[k]? = some m ∧ m.opcode? = l.opcode? := by
    intro k l found
    have valid := h.flow.valid k l found
    refine ⟨by rintro none; simp [none] at valid, ?_⟩
    by_cases same : pc = k
    · subst same
      cases there.symm.trans found
      exact ⟨j, replace_self (lt_of_getElem? there), redirects.opcode⟩
    · exact ⟨l, (replace_other same).trans found, rfl⟩
  refine ⟨h.flow.replace there redirects lands unfinished endless, ?_, ?_, ?_, ?_, h.nested, h.room, h.used, h.peak, ?_⟩
  · apply h.operands.replace
    · intro k found
      cases there.symm.trans found
      exact redirects
    · intro k l found wide same
      subst same
      have extra := (h.flow.linked k l i found there).extra
      rw [hasExtra, wide] at extra
      have jump := redirects.jump
      rw [isJump, extra.mp (by simp)] at jump
      cases jump
  · have old : i.closure? = none := by
      unfold closure?
      rw [if_neg]
      intro closure
      have jump := redirects.jump
      rw [isJump, closure] at jump
      cases jump
    have new : j.closure? = none := by
      unfold closure? at old ⊢
      rw [redirects.opcode]
      split
      · rename_i closure
        rw [if_pos closure] at old
        cases old
      · rfl
    rw [replace_code, Array.toList_setIfInBounds]
    rw [filterMap_set _ (by rw [Array.getElem?_toList]; exact there) (new.trans old.symm)]
    exact h.order
  · intro k l found closure
    rcases getElem?_set_cases found with ⟨rfl, rfl⟩ | ⟨_, old⟩
    · have jump := redirects.jump'
      rw [isJump, closure] at jump
      cases jump
    · exact h.makes k l old closure
  · exact h.recorded.later (Nat.le_of_eq (by rw [replace_pc]))
  · intro pcs scope k member
    obtain ⟨l, found, plain⟩ := h.breaks pcs scope k member
    obtain ⟨_, m, found', same⟩ := kept k l found
    exact ⟨m, found', same.trans plain⟩

theorem withRegisters {used peak : Nat} (room : f.live.length ≤ used) (fits : used ≤ peak)
    (limit : peak < registerLimit) : ({ f with used := used, peak := peak } : Frame).Regular registers pending :=
  { h with room := room, used := fits, peak := limit }

theorem withConstants {constants : ConstantPool} (more : f.constants.entries.toList <+: constants.entries.toList) :
    ({ f with constants := constants } : Frame).Regular registers pending :=
  { h with operands := h.operands.mono Nat.le.refl (by simpa using more.length_le) Nat.le.refl }

theorem withLine (line : Nat) : ({ f with line := line } : Frame).Regular registers pending := { h with }

theorem touched (touched : f.Touched f') : f'.Regular registers pending := by
  obtain ⟨same, live, upvalues⟩ := touched
  rw [same]
  refine
    { h with
      operands := h.operands.mono Nat.le.refl Nat.le.refl (by simpa using upvalues.length_le)
      makes := ?_
      recorded := h.recorded.marked live
      nested := ?_
      room := live.length_eq ▸ h.room }
  rotate_left
  · intro b' member'
    obtain ⟨b, member, same⟩ := live.backward member'
    rw [same.depth]
    exact h.nested b member
  intro pc i there closure
  obtain ⟨child, then', found, stack, recalls, names⟩ := h.makes pc i there closure
  exact ⟨child, then', found, stack, recalls.marked live, fun u member => (names u member).grow upvalues⟩

theorem enter (isLoop : Bool) : (f.enter isLoop).Regular registers pending := by
  refine { h with recorded := h.recorded.deeper, breaks := ?_ }
  intro pcs scope pc member
  rcases List.mem_cons.mp scope with here | outer
  · cases isLoop with
    | true =>
      cases here
      simp at member
    | false => cases here
  · exact h.breaks pcs outer pc member

theorem withBreak (there : f.code[pc]? = some i) (jump : i.opcode? = some .jmp) :
    (f.withBreak pc).Regular registers pending := by
  refine { h with recorded := (f.withBreak_depth pc).symm ▸ h.recorded, breaks := ?_ }
  intro pcs scope k member
  rcases (AddsBreaks.pushBreak (P := (· = pc)) rfl f.scopes).member scope member with rfl | ⟨pcs', scope', member'⟩
  · exact ⟨i, there, jump⟩
  · exact h.breaks pcs' scope' k member'

theorem withLocal (opened : f.scopes ≠ []) (balanced : f.used = f.live.length) (limit : f.used + 1 < registerLimit)
    {name : String} {startPc : Nat} (least : f.pc ≤ startPc) (most : startPc ≤ f.pc + 1) :
    (f.withLocal name startPc).Regular registers pending := by
  have declared := h.recorded.declare (b := ⟨name, f.depth, f.used, false, f.locals.size⟩) most rfl balanced rfl
  have peak := h.peak
  refine
    { h with
      makes := ?_
      recorded := declared
      nested := List.forall_mem_cons.mpr ⟨List.length_pos_iff.mpr opened, h.nested⟩
      room := ?_
      used := Nat.le_max_right ..
      peak := Nat.max_lt.mpr ⟨peak, limit⟩ }
  · intro pc i there closure
    have before : pc < f.pc := lt_of_getElem? there
    obtain ⟨child, live, found, stack, recalls, names⟩ := h.makes pc i there closure
    have start : pc < startPc := Nat.lt_of_lt_of_le before least
    exact ⟨child, live, found, stack, recalls.declare (b := ⟨name, f.depth, f.used, false, f.locals.size⟩) start rfl,
      names⟩
  · have := h.room
    simp only [Frame.withLocal, List.length_cons]
    omega

theorem retire (used : Nat) (scopes : f.scopes ≠ []) (room : (f.live.filter fun b => b.depth < f.depth).length ≤ used)
    (fits : used ≤ f.peak) : ({ f with
        used := used
        scopes := f.scopes.tail
        live := f.live.filter fun b => b.depth < f.depth
        locals := endLocals f.locals (f.leaving f.depth) f.pc } : Frame).Regular registers pending := by
  have stack := h.recorded.stack
  have outer := stack.outer f.scopes.tail.length
  rw [show f.scopes.tail.length + 1 = f.depth from List.length_tail_add_one _ (List.length_pos_iff.mpr scopes)] at outer
  refine
    { h with
      makes := ?_
      recorded := h.recorded.leave outer (mem_live_iff stack.layered) (leaving_apart stack.layered)
      nested := fun b member => h.nested b (List.mem_of_mem_filter member)
      room := room
      used := fits
      breaks := fun pcs scope => h.breaks pcs (List.mem_of_mem_tail scope) }
  intro pc i there closure
  have before : pc < f.pc := lt_of_getElem? there
  obtain ⟨child, live, found, stack, recalls, names⟩ := h.makes pc i there closure
  exact ⟨child, live, found, stack, recalls.leave before (mem_live_iff h.recorded.stack.layered), names⟩

theorem closure {p : Prototype} (alone : f.Alone)
    (started : ∀ b ∈ f.live, ∀ v ∈ f.locals[b.record]?, v.startPc ≤ f.pc ∨ b.register = i.a)
    (hop : i.opcode? = some .closure) (operand : i.a < registers) (index : i.bx = f.functions.size)
    (names : ∀ u ∈ p.upvalues, u.Names f.live f.upvalues) :
    (Frame.push { f with functions := f.functions.push p } i).Regular registers pending := by
  have starts : i.Starts := ⟨by simp [hop], by simp [takesOpen, hop], by simp [hop]⟩
  have fits : i.Fits registers f.constants.entries.size f.upvalues.size := by
    refine .intro hop ?_ rfl False.elim False.elim
    rintro r rfl
    exact operand
  refine
    { h with
      flow := h.flow.push (by simp [hop]) (fun _ => starts) (fun k last => .ofStarts (alone k last) starts) ?_ ?_
      operands := h.operands.push fits ?_
      order := ?_
      makes := ?_
      recorded := h.recorded.later (by rw [push_pc]; exact Nat.le_succ _)
      breaks := ?_ }
  · intro jump
    simp [isJump, hop, Opcode.isJump] at jump
  · intro prep
    cases hop.symm.trans prep
  · intro k last wide
    have alone := alone k last
    rw [binds_eq_false, hasExtra, wide] at alone
    simp at alone
  · rw [push_code, Array.toList_push, List.filterMap_append, h.order]
    simp [closure?, hop, index, Frame.push, List.range_succ]
  · intro pc j there closure
    rcases getElem?_push_cases there with old | ⟨here, rfl⟩
    · obtain ⟨child, live, found, makes⟩ := h.makes pc j old closure
      have inside := lt_of_getElem? found
      refine ⟨child, live, ?_, makes⟩
      simp only [Frame.push]
      rw [Array.getElem?_push, if_neg (Nat.ne_of_lt inside), found]
    · subst here
      refine ⟨p, f.live, ?_, ⟨_, _, h.recorded.stack⟩, .here h.recorded started, names⟩
      simp [Frame.push, index]
  · intro pcs scope pc member
    obtain ⟨j, there, jump⟩ := h.breaks pcs scope pc member
    exact ⟨j, getElem?_push_of_some there, jump⟩

end Regular

end Frame

end LuaBytecode
