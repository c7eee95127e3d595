import LuaBytecode.Proofs.Frame.Steps
import LuaBytecode.Proofs.Machine.Basic

namespace LuaBytecode

structure Frame.Appends (f f' : Frame) : Prop where
  same : f' = { f with used := f'.used, peak := f'.peak, constants := f'.constants, code := f'.code }
  code : f.code.toList <+: f'.code.toList
  constants : f.constants.entries.toList <+: f'.constants.entries.toList

namespace Frame.Appends

variable {f g h : Frame}

theorem refl (f : Frame) : Appends f f := ⟨rfl, List.prefix_rfl, List.prefix_rfl⟩

theorem trans (first : Appends f g) (second : Appends g h) : Appends f h := by
  refine ⟨?_, first.code.trans second.code, first.constants.trans second.constants⟩
  rw [second.same, first.same]

theorem live (h : Appends f g) : g.live = f.live := by rw [h.same]

theorem register? (h : Appends f g) (x : String) : g.register? x = f.register? x := by
  simp only [Frame.register?, Frame.binding?, h.live]

theorem pc_le (h : Appends f g) : f.pc ≤ g.pc := by
  simpa [Frame.pc] using h.code.length_le

theorem ofUsed {used peak : Nat} : Appends f { f with used := used, peak := peak } :=
  ⟨rfl, List.prefix_rfl, List.prefix_rfl⟩

theorem withUsed (h : Appends f g) (used : Nat) : Appends f (g.withUsed used) :=
  ⟨by rw [Frame.withUsed, h.same], h.code, h.constants⟩

theorem ofPush (i : Instruction) : Appends f (f.push i) :=
  ⟨rfl, by simp, List.prefix_rfl⟩

theorem patch (h : Appends f g) {pc : Nat} (later : f.pc ≤ pc) (i : Instruction) :
    Appends f (g.replace pc i) := by
  refine ⟨?_, ?_, h.constants⟩
  · rw [Frame.replace, h.same]
  · exact prefixed_set h.code later i

end Frame.Appends

/-- The program has the instructions of the frame from `lo` on and before `hi`, and its constants. -/
structure Program.Includes (p : Program) (f : Frame) (lo hi : Nat) : Prop where
  code : ∀ pc, lo ≤ pc → pc < hi → p.code[pc]? = f.code[pc]?
  constants : f.constants.entries.toList <+: p.constants.toList

namespace Program.Includes

variable {p : Program} {f f' : Frame} {lo hi lo' hi' : Nat} {pc : Nat} {i : Instruction}

theorem narrow (h : p.Includes f lo hi) (above : lo ≤ lo') (below : hi' ≤ hi) : p.Includes f lo' hi' :=
  ⟨fun pc hlo hhi => h.code pc (Nat.le_trans above hlo) (Nat.lt_of_lt_of_le hhi below), h.constants⟩

theorem earlier (h : p.Includes f' lo hi) (appends : f.Appends f') (below : hi ≤ f.pc) : p.Includes f lo hi := by
  refine ⟨fun pc hlo hhi => ?_, appends.constants.trans h.constants⟩
  rw [h.code pc hlo hhi]
  exact getElem?_of_prefixed appends.code (Nat.lt_of_lt_of_le hhi below)

theorem pushed (h : p.Includes (f.push i) lo hi) (last : pc = f.pc) (above : lo ≤ pc) (below : pc < hi) :
    p.code[pc]? = some i := by
  subst last
  rw [h.code f.pc above below]
  simp [Frame.pc]

theorem unpatched (h : p.Includes (f.replace pc i) lo hi) (outside : pc < lo ∨ hi ≤ pc) : p.Includes f lo hi := by
  refine ⟨fun at' hlo hhi => ?_, h.constants⟩
  rw [h.code at' hlo hhi]
  exact Array.getElem?_setIfInBounds_ne (by omega)

theorem patched (h : p.Includes (f.replace pc i) lo hi) (above : lo ≤ pc) (below : pc < hi) (inside : pc < f.pc) :
    p.code[pc]? = some i := by
  rw [h.code pc above below]
  exact Array.getElem?_setIfInBounds_self_of_lt inside

theorem constant {i : Nat} {k : Constant} (h : p.Includes f lo hi) (found : f.constants.entries[i]? = some k) :
    p.constants[i]? = some k := by
  rw [getElem?_of_prefixed h.constants (lt_of_getElem? found)]
  exact found

end Program.Includes

section Operand

variable {V : Type} {ops : Operators V} {constants : Array Constant} {registers : Nat → V} {r i : Nat}

theorem isRkConstant_of_lt (h : r < 256) : isRkConstant r = false := Nat.testBit_lt_two_pow h

theorem isRkConstant_rkConstant (i : Nat) : isRkConstant (rkConstant i) = true := by
  rw [isRkConstant, rkConstant, Nat.testBit_or, Bool.or_eq_true]
  exact Or.inr (Nat.testBit_two_pow_self (n := 8))

theorem rkConstant_mod (h : i ≤ maxRkIndex) : rkConstant i % 256 = i := by
  unfold maxRkIndex at h
  have small : i ||| 256 = 256 + i := by
    have := Nat.two_pow_add_eq_or_of_lt (show i < 2 ^ 8 by omega) 1
    simp only [Nat.mul_one] at this
    rw [Nat.or_comm, ← this]
  rw [rkConstant, small]
  omega

theorem operand_register (h : r < 256) : Machine.operand ops constants registers r = some (registers r) := by
  simp [Machine.operand, isRkConstant_of_lt h]

theorem operand_constant {k : Constant} (fits : i ≤ maxRkIndex) (found : constants[i]? = some k) :
    Machine.operand ops constants registers (rkConstant i) = some (ops.constant k) := by
  simp [Machine.operand, isRkConstant_rkConstant, rkConstant_mod fits, found]

theorem operand_congr {registers' : Nat → V} {x : Nat} (h : isRkConstant x = false → registers' x = registers x) :
    Machine.operand ops constants registers' x = Machine.operand ops constants registers x := by
  unfold Machine.operand
  split
  · rfl
  · rename_i register
    rw [h (by simpa using register)]

end Operand

end LuaBytecode
