import LuaBytecode.Instruction.Word

namespace LuaBytecode

variable {op : Opcode} {i : Instruction} {n a : Nat}

theorem Field.check_bind {field : Field} {value : Int} {next : Except OperandError Instruction}
    (h : (do field.check op value; next) = .ok i) : field.least ≤ value ∧ value ≤ field.greatest ∧ next = .ok i := by
  unfold Field.check at h
  split at h
  · exact ⟨by omega, by omega, h⟩
  · cases h

namespace Instruction

theorem word_toNat (h : n < 4294967296) : (UInt32.ofNat n).toNat = n := by
  rw [UInt32.toNat_ofNat']
  exact Nat.mod_eq_of_lt h

theorem a_le (i : Instruction) : i.a ≤ 255 := by
  unfold a
  omega

theorem bx_eq (i : Instruction) : i.bx = i.b * 512 + i.c := by
  unfold bx b c
  omega

theorem opcode?_of_mod (h : i.word.toNat % 64 = op.toNat) : i.opcode? = some op := by
  unfold opcode?
  rw [h]
  exact Opcode.ofNat?_toNat op

theorem mod_of_opcode? (h : i.opcode? = some op) : i.word.toNat % 64 = op.toNat := by
  have bound : i.word.toNat % 64 < 64 := Nat.mod_lt _ (by decide)
  have table : ∀ n < 64, (Opcode.ofNat? n).all (·.toNat == n) = true := by decide
  have entry := table _ bound
  rw [show Opcode.ofNat? (i.word.toNat % 64) = some op from h] at entry
  simpa using (beq_iff_eq.mp entry).symm

theorem abc_ok {b c : Nat} (h : abc op a b c = .ok i) :
    i.opcode? = some op ∧ i.a = a ∧ i.b = b ∧ i.c = c ∧ a ≤ 255 ∧ b ≤ 511 ∧ c ≤ 511 := by
  unfold abc at h
  obtain ⟨_, fitsA, h⟩ := Field.check_bind h
  obtain ⟨_, fitsB, h⟩ := Field.check_bind h
  obtain ⟨_, fitsC, h⟩ := Field.check_bind h
  simp only [Field.greatest] at fitsA fitsB fitsC
  have code := op.toNat_lt
  have size : op.toNat + a * 64 + c * 16384 + b * 8388608 < 4294967296 := by omega
  cases h
  refine ⟨opcode?_of_mod ?_, ?_, ?_, ?_, by omega, by omega, by omega⟩
  · simp only [word_toNat size]; omega
  · simp only [Instruction.a, word_toNat size]; omega
  · simp only [Instruction.b, word_toNat size]; omega
  · simp only [Instruction.c, word_toNat size]; omega

theorem abx_ok {bx : Nat} (h : abx op a bx = .ok i) :
    i.opcode? = some op ∧ i.a = a ∧ i.bx = bx ∧ a ≤ 255 ∧ bx ≤ 262143 := by
  unfold abx at h
  obtain ⟨_, fitsA, h⟩ := Field.check_bind h
  obtain ⟨_, fitsBx, h⟩ := Field.check_bind h
  simp only [Field.greatest] at fitsA fitsBx
  have code := op.toNat_lt
  have size : op.toNat + a * 64 + bx * 16384 < 4294967296 := by omega
  cases h
  refine ⟨opcode?_of_mod ?_, ?_, ?_, by omega, by omega⟩
  · simp only [word_toNat size]; omega
  · simp only [Instruction.a, word_toNat size]; omega
  · simp only [Instruction.bx, word_toNat size]; omega

theorem asbx_ok {sbx : Int} (h : asbx op a sbx = .ok i) : i.opcode? = some op ∧ i.a = a ∧ i.sbx = sbx ∧ a ≤ 255 := by
  unfold asbx at h
  obtain ⟨least, _, h⟩ := Field.check_bind h
  simp only [Field.least] at least
  obtain ⟨hop, ha, hbx, bound, _⟩ := abx_ok h
  refine ⟨hop, ha, ?_, bound⟩
  simp only [Instruction.sbx, hbx]
  omega

theorem ax_ok (h : ax op n = .ok i) : i.opcode? = some op ∧ i.axField = n := by
  unfold ax at h
  obtain ⟨_, fits, h⟩ := Field.check_bind h
  simp only [Field.greatest] at fits
  have code := op.toNat_lt
  have size : op.toNat + n * 64 < 4294967296 := by omega
  cases h
  refine ⟨opcode?_of_mod ?_, ?_⟩
  · simp only [word_toNat size]; omega
  · simp only [Instruction.axField, word_toNat size]; omega

theorem setA_ok {j : Instruction} (hop : i.opcode? = some op) (h : i.setA n = .ok j) :
    j.opcode? = some op ∧ j.a = n ∧ j.bx = i.bx ∧ n ≤ 255 := by
  unfold setA at h
  simp only [hop] at h
  obtain ⟨_, fits, h⟩ := Field.check_bind h
  simp only [Field.greatest] at fits
  have code := mod_of_opcode? hop
  have word := i.word.toNat_lt
  simp only [Instruction.a] at h
  have size : i.word.toNat - i.word.toNat / 64 % 256 * 64 + n * 64 < 4294967296 := by omega
  cases h
  refine ⟨opcode?_of_mod ?_, ?_, ?_, by omega⟩
  · rw [← code]
    simp only [word_toNat size]; omega
  · simp only [Instruction.a, word_toNat size]; omega
  · simp only [Instruction.bx, word_toNat size]; omega

theorem setSbx_ok {j : Instruction} {n : Int} (hop : i.opcode? = some op) (h : i.setSbx n = .ok j) :
    j.opcode? = some op ∧ j.a = i.a ∧ j.sbx = n := by
  unfold setSbx at h
  simp only [hop] at h
  obtain ⟨least, greatest, h⟩ := Field.check_bind h
  simp only [Field.least, Field.greatest] at least greatest
  have code := mod_of_opcode? hop
  have size : i.word.toNat % 16384 + ((n + 131071) % 262144).toNat * 16384 < 4294967296 := by omega
  cases h
  refine ⟨opcode?_of_mod ?_, ?_, ?_⟩
  · rw [← code]
    simp only [word_toNat size]; omega
  · simp only [Instruction.a, word_toNat size]; omega
  · simp only [Instruction.sbx, Instruction.bx, word_toNat size]; omega

end Instruction

end LuaBytecode
