import LuaBytecode.Proofs.Instruction.Encoding
import Mathlib.Algebra.Group.Nat.Defs
import Mathlib.Order.GaloisConnection.Basic
import Mathlib.Order.Monotone.Basic

namespace LuaBytecode

namespace FloatByte

variable {byte size : Nat}

/-- The size that a byte stands for, were sizes not bounded. -/
def value (byte : Nat) : Nat := if byte < 8 then byte else (byte % 8 + 8) * 2 ^ (byte / 8 - 1)

def greatest : Nat := 239

theorem value_greatest : value greatest = 15 * 2 ^ 28 := by decide

theorem value_parts {x exponent : Nat} (least : 8 ≤ x) (most : x < 16) :
    value ((exponent + 1) * 8 + (x - 8)) = x * 2 ^ exponent := by
  have quotient : ((exponent + 1) * 8 + (x - 8)) / 8 - 1 = exponent := by omega
  have remainder : ((exponent + 1) * 8 + (x - 8)) % 8 + 8 = x := by omega
  rw [value, if_neg (by omega), quotient, remainder]

theorem exists_parts (large : 8 ≤ byte) : ∃ x exponent, 8 ≤ x ∧ x < 16 ∧ byte = (exponent + 1) * 8 + (x - 8) :=
  ⟨byte % 8 + 8, byte / 8 - 1, by omega, by omega, by omega⟩

theorem value_strictMono : StrictMono value := by
  refine strictMono_nat_of_lt_succ fun byte => ?_
  by_cases small : byte < 7
  · rw [value, value, if_pos (by omega), if_pos (by omega)]
    omega
  by_cases last : byte = 7
  · subst last
    decide
  obtain ⟨x, exponent, least, most, rfl⟩ := exists_parts (show 8 ≤ byte by omega)
  have positive : 0 < 2 ^ exponent := Nat.two_pow_pos exponent
  rw [value_parts least most]
  by_cases full : x = 15
  · have next : (exponent + 1) * 8 + (x - 8) + 1 = (exponent + 1 + 1) * 8 + (8 - 8) := by omega
    rw [next, value_parts (by omega) (by omega), full, Nat.pow_succ]
    omega
  · have next : (exponent + 1) * 8 + (x - 8) + 1 = (exponent + 1) * 8 + (x + 1 - 8) := by omega
    rw [next, value_parts (by omega) (by omega), Nat.succ_mul]
    omega

theorem decode_eq (bounded : byte ≤ greatest) : decode byte = value byte := by
  have inside : value byte < Nat.pow 2 32 :=
    Nat.lt_of_le_of_lt (value_strictMono.monotone bounded) (by decide)
  rw [value] at inside ⊢
  rw [decode]
  split
  · rfl
  · rename_i large
    rw [if_neg large] at inside
    exact Nat.mod_eq_of_lt inside

/-- `size` is `x` times a power of two, rounded up, and a smaller power would have needed an `x` above 15. -/
structure Scaled (size x exponent : Nat) : Prop where
  normal : 8 ≤ x
  above : size ≤ x * 2 ^ exponent
  below : (x - 1) * 2 ^ exponent < size
  needed : exponent = 0 ∨ 15 * 2 ^ exponent < 2 * size

namespace Scaled

variable {size x exponent : Nat}

theorem start (large : 8 ≤ size) : Scaled size size 0 := ⟨large, by simp, by simp; omega, .inl rfl⟩

variable (h : Scaled size x exponent)

include h

theorem shift {k y : Nat} (step : 1 ≤ k) (large : 8 * 2 ^ k ≤ x) (above : x ≤ y * 2 ^ k) (below : (y - 1) * 2 ^ k < x) :
    Scaled size y (exponent + k) := by
  have two : 2 ^ 1 ≤ 2 ^ k := Nat.pow_le_pow_right (by decide) step
  have normal : 8 ≤ y := by
    refine Nat.le_of_mul_le_mul_right ?_ (Nat.two_pow_pos k)
    exact Nat.le_trans large above
  refine ⟨normal, ?_, ?_, .inr ?_⟩
  · calc size ≤ x * 2 ^ exponent := h.above
      _ ≤ y * 2 ^ k * 2 ^ exponent := Nat.mul_le_mul_right _ above
      _ = y * 2 ^ (exponent + k) := by rw [Nat.pow_add, Nat.mul_assoc, Nat.mul_comm (2 ^ k)]
  · calc (y - 1) * 2 ^ (exponent + k) = (y - 1) * 2 ^ k * 2 ^ exponent := by
          rw [Nat.pow_add, Nat.mul_assoc, Nat.mul_comm (2 ^ k)]
      _ ≤ (x - 1) * 2 ^ exponent := Nat.mul_le_mul_right _ (by omega)
      _ < size := h.below
  · calc 15 * 2 ^ (exponent + k) = 15 * 2 ^ k * 2 ^ exponent := by
          rw [Nat.pow_add, Nat.mul_assoc, Nat.mul_comm (2 ^ k)]
      _ ≤ 2 * (x - 1) * 2 ^ exponent := Nat.mul_le_mul_right _ (by omega)
      _ = 2 * ((x - 1) * 2 ^ exponent) := Nat.mul_assoc ..
      _ < 2 * size := Nat.mul_lt_mul_of_pos_left h.below (by decide)

theorem coarse : Scaled size (coarse x exponent).1 (FloatByte.coarse x exponent).2 := by
  fun_induction FloatByte.coarse x exponent with
  | case1 => exact h
  | case2 x exponent large ih => exact ih (h.shift (k := 4) (by decide) (by omega) (by omega) (by omega))

theorem fine : Scaled size (fine x exponent).1 (FloatByte.fine x exponent).2 ∧ (FloatByte.fine x exponent).1 < 16 := by
  fun_induction FloatByte.fine x exponent with
  | case1 _ _ small => exact ⟨h, small⟩
  | case2 x exponent large ih => exact ih (h.shift (k := 1) (by decide) (by omega) (by omega) (by omega))

theorem encloses (most : x < 16) :
    value ((exponent + 1) * 8 + (x - 8) - 1) < size ∧ size ≤ value ((exponent + 1) * 8 + (x - 8)) := by
  have normal := h.normal
  refine ⟨?_, by rw [value_parts normal most]; exact h.above⟩
  by_cases first : x = 8
  · subst first
    cases exponent with
    | zero => exact h.below
    | succ exponent =>
      have before : (exponent + 1 + 1) * 8 + (8 - 8) - 1 = (exponent + 1) * 8 + (15 - 8) := by omega
      have needed := h.needed.resolve_left (Nat.succ_ne_zero exponent)
      rw [before, value_parts (by decide) (by decide)]
      rw [Nat.pow_succ] at needed
      omega
  · have before : (exponent + 1) * 8 + (x - 8) - 1 = (exponent + 1) * 8 + (x - 1 - 8) := by omega
    rw [before, value_parts (by omega) (by omega)]
    exact h.below

end Scaled

theorem encode_encloses (positive : 0 < size) : value (encode size - 1) < size ∧ size ≤ value (encode size) := by
  by_cases small : size < 8
  · rw [encode, if_pos small, value, value, if_pos (by omega), if_pos small]
    omega
  · obtain ⟨scaled, most⟩ := (Scaled.start (Nat.not_lt.mp small)).coarse.fine
    rw [encode, if_neg small]
    exact scaled.encloses most

theorem encode_galois : GaloisConnection encode value := by
  intro size byte
  rcases Nat.eq_zero_or_pos size with rfl | positive
  · simp [encode]
  obtain ⟨below, above⟩ := encode_encloses positive
  constructor
  · exact fun enough => Nat.le_trans above (value_strictMono.monotone enough)
  · intro holds
    by_contra short
    have less : value byte ≤ value (encode size - 1) := value_strictMono.monotone (by omega)
    omega

theorem encode_value (byte : Nat) : encode (value byte) = byte :=
  value_strictMono.injective (encode_galois.u_l_u_eq_u byte)

theorem encode_le_greatest_iff : encode size ≤ greatest ↔ size ≤ 15 * 2 ^ 28 := by
  rw [encode_galois, value_greatest]

end FloatByte

open FloatByte

theorem Frame.emitNewTable_fits {array hash : Nat} (ha : array ≤ 15 * 2 ^ 28) (hh : hash ≤ 15 * 2 ^ 28) (a : Nat)
    (f : Frame) : if a ≤ 255 then
        ∃ i, emitNewTable a array hash f = .ok f.pc (f.push i) ∧ i.opcode? = some .newTable ∧ i.a = a ∧
          i.b = encode array ∧ i.c = encode hash
      else emitNewTable a array hash f = .error (.operandOverflow ⟨.newTable, .a, a⟩ f.line) f := by
  have first := encode_le_greatest_iff.mpr ha
  have second := encode_le_greatest_iff.mpr hh
  rw [greatest] at first second
  split
  · rename_i fits
    obtain ⟨i, made⟩ := (Instruction.abc_encodes .newTable a (encode array) (encode hash)).made_iff.mpr (by
      simp only [List.mem_cons, List.not_mem_nil, or_false, forall_eq_or_imp, forall_eq, Operand.Fits, Field.Fits]
      omega)
    obtain ⟨hop, ha, hb, hc, _⟩ := Instruction.abc_ok made
    refine ⟨i, ?_, hop, ha, hb, hc⟩
    simp only [emitNewTable, emitAbc, emit, made]
    rfl
  · rename_i unfit
    have check : Field.a.check .newTable a = .error ⟨.newTable, .a, a⟩ :=
      Field.check_unfit (by simp only [Field.Fits]; omega)
    simp only [emitNewTable, emitAbc, emit, Instruction.abc, check]
    rfl

/-- Sizes are rounded up to the nearest one that a byte can stand for, in order and without a change to those that are
    such already. Counts of fields never overflow the operands that they are put into. -/
theorem FloatByte.encode_nearest {size : Nat} (bounded : size ≤ 15 * 2 ^ 28) :
    encode size ≤ 239 ∧ size ≤ decode (encode size) ∧
      (∀ byte ≤ 239, ¬(size ≤ decode byte ∧ decode byte < decode (encode size))) ∧
      (∀ less ≤ size, encode less ≤ encode size) ∧
      (∀ byte ≤ 239, encode (decode byte) = byte) ∧
      ∀ hash ≤ 15 * 2 ^ 28, ∀ (a : Nat) (f : Frame), if a ≤ 255 then
          ∃ i, Frame.emitNewTable a size hash f = .ok f.pc (f.push i) ∧ i.opcode? = some .newTable ∧ i.a = a ∧
            i.b = encode size ∧ i.c = encode hash
        else Frame.emitNewTable a size hash f = .error (.operandOverflow ⟨.newTable, .a, a⟩ f.line) f := by
  have fits : encode size ≤ greatest := encode_le_greatest_iff.mpr bounded
  refine ⟨fits, ?_, ?_, fun less le => encode_galois.monotone_l le, ?_, fun hash le a f => ?_⟩
  · rw [decode_eq fits]
    exact encode_galois.le_u_l size
  · rintro byte le ⟨enough, better⟩
    rw [decode_eq le] at enough better
    rw [decode_eq fits] at better
    exact Nat.not_le.mpr better (value_strictMono.monotone (encode_galois.l_le enough))
  · intro byte le
    rw [decode_eq le, encode_value]
  · exact Frame.emitNewTable_fits bounded le a f

theorem FloatByte.encode_nearest_of_next :
    1921 ≤ 15 * 2 ^ 28 ∧ decode 71 = 1920 ∧ encode 1921 = 72 ∧ decode 72 = 2048 ∧
      ∀ byte ≤ 239, ¬(1921 ≤ decode byte ∧ decode byte < decode (encode 1921)) := by
  have bounded : 1921 ≤ 15 * 2 ^ 28 := by decide
  exact ⟨bounded, by decide, by decide +kernel, by decide, (encode_nearest bounded).2.2.1⟩

end LuaBytecode
