import LuaBytecode.Proofs.Frame.Steps
import LuaBytecode.Proofs.Instruction.Usage

namespace LuaBytecode

def Field.Fits : Field → Int → Prop
  | a, value => 0 ≤ value ∧ value ≤ 255
  | b, value | c, value => 0 ≤ value ∧ value ≤ 511
  | bx, value => 0 ≤ value ∧ value ≤ 262143
  | sbx, value => value.natAbs ≤ 131071
  | ax, value => 0 ≤ value ∧ value ≤ 67108863

theorem Field.fits_iff {field : Field} {value : Int} :
    field.Fits value ↔ field.least ≤ value ∧ value ≤ field.greatest := by
  cases field with
  | sbx =>
    simp only [Fits, least, greatest]
    omega
  | _ => exact Iff.rfl

abbrev Operand := Field × Int

abbrev Operand.Fits (operand : Operand) : Prop := operand.1.Fits operand.2

abbrev Operand.error (op : Opcode) (operand : Operand) : OperandError := ⟨op, operand.1, operand.2⟩

namespace Instruction

def read (i : Instruction) : Field → Int
  | .a => i.a
  | .b => i.b
  | .c => i.c
  | .bx => i.bx
  | .sbx => i.sbx
  | .ax => i.axField

/-- A word is made iff all operands fit. It gives the operation and the operands back. If there is none, the first operand
    that does not fit is reported. -/
structure Encodes (op : Opcode) (operands : List Operand) (made : Except OperandError Instruction) : Prop where
  made_iff : (∃ i, made = .ok i) ↔ ∀ operand ∈ operands, operand.Fits
  decoded : ∀ i, made = .ok i → i.opcode? = some op ∧ ∀ operand ∈ operands, i.read operand.1 = operand.2
  reported : ∀ e, made = .error e → ∃ before operand after, operands = before ++ operand :: after ∧
    (∀ earlier ∈ before, earlier.Fits) ∧ ¬operand.Fits ∧ e = operand.error op

/-- A field of an emitted word is changed iff the operand fits. The operation and the `kept` fields stay. If the operand
    does not fit, it is reported and the code stays as it is. -/
structure Sets (i : Instruction) (op : Opcode) (operand : Operand) (kept : List Field)
    (change : Instruction → Except OperandError Instruction) : Prop where
  changed_iff : (∃ j, change i = .ok j) ↔ operand.Fits
  changed : ∀ j, change i = .ok j → j.opcode? = some op ∧ j.read operand.1 = operand.2 ∧
    ∀ field ∈ kept, j.read field = i.read field
  reported : ∀ (f : Frame) (pc : Nat), f.code[pc]? = some i → ¬operand.Fits →
    Frame.amend pc change f = .error (.operandOverflow (operand.error op) f.line) f

end Instruction

section Checks

variable {op : Opcode} {field : Field} {value : Int} {operands : List Operand} {e : OperandError}

theorem Field.check_fits (fits : field.Fits value) : field.check op value = .ok () := if_pos (fits_iff.mp fits)

theorem Field.check_unfit (unfit : ¬field.Fits value) : field.check op value = .error ⟨op, field, value⟩ :=
  if_neg fun fits => unfit (fits_iff.mpr fits)

def checkAll (op : Opcode) : List Operand → Except OperandError Unit
  | [] => pure ()
  | operand :: rest => do
    operand.1.check op operand.2
    checkAll op rest

theorem checkAll_ok_iff : checkAll op operands = .ok () ↔ ∀ operand ∈ operands, operand.Fits := by
  induction operands with
  | nil => exact iff_of_true rfl (List.forall_mem_nil _)
  | cons operand rest ih =>
    rw [List.forall_mem_cons, checkAll]
    by_cases fits : operand.Fits
    · rw [Field.check_fits fits]
      exact ih.trans (iff_and_self.mpr fun _ => fits)
    · rw [Field.check_unfit fits]
      simp [Bind.bind, Except.bind, fits]

theorem of_checkAll_error (h : checkAll op operands = .error e) : ∃ before operand after,
    operands = before ++ operand :: after ∧ (∀ earlier ∈ before, earlier.Fits) ∧ ¬operand.Fits ∧
      e = operand.error op := by
  induction operands with
  | nil => cases h
  | cons operand rest ih =>
    rw [checkAll] at h
    by_cases fits : operand.Fits
    · rw [Field.check_fits fits] at h
      obtain ⟨before, unfit, after, rfl, earlier, facts⟩ := ih h
      exact ⟨operand :: before, unfit, after, rfl, List.forall_mem_cons.mpr ⟨fits, earlier⟩, facts⟩
    · rw [Field.check_unfit fits] at h
      cases h
      exact ⟨[], operand, rest, rfl, List.forall_mem_nil _, fits, rfl⟩

theorem Instruction.Encodes.ofChecks {made : Except OperandError Instruction} {word : Instruction}
    (checks : made = (do checkAll op operands; return word))
    (decoded : ∀ i, made = .ok i → i.opcode? = some op ∧ ∀ operand ∈ operands, i.read operand.1 = operand.2) :
    Encodes op operands made := by
  refine ⟨?_, decoded, ?_⟩
  · have accepted : checkAll op operands = .ok () ↔ _ := checkAll_ok_iff
    rw [← accepted, checks]
    cases checked : checkAll op operands with
    | ok => exact ⟨fun _ => rfl, fun _ => ⟨word, rfl⟩⟩
    | error e => simp [Bind.bind, Except.bind]
  · intro e failed
    apply of_checkAll_error
    rw [checks] at failed
    cases checked : checkAll op operands with
    | ok => simp [checked, Bind.bind, Except.bind, Pure.pure, Except.pure] at failed
    | error e' =>
      rw [checked] at failed
      cases failed
      rfl

end Checks

namespace Instruction

variable (op : Opcode)

theorem abc_encodes (a b c : Nat) : Encodes op [(.a, a), (.b, b), (.c, c)] (abc op a b c) := by
  refine .ofChecks (by simp only [abc, checkAll, bind_assoc, pure_bind]; rfl) fun i made => ?_
  obtain ⟨hop, ha, hb, hc, _⟩ := abc_ok made
  simp [hop, read, ha, hb, hc]

theorem abx_encodes (a bx : Nat) : Encodes op [(.a, a), (.bx, bx)] (abx op a bx) := by
  refine .ofChecks (by simp only [abx, checkAll, bind_assoc, pure_bind]; rfl) fun i made => ?_
  obtain ⟨hop, ha, hbx, _⟩ := abx_ok made
  simp [hop, read, ha, hbx]

theorem asbx_encodes (a : Nat) (sbx : Int) : Encodes op [(.sbx, sbx), (.a, a)] (asbx op a sbx) := by
  have checks : asbx op a sbx = (do
      checkAll op [(.sbx, sbx), (.a, a)]
      return ⟨UInt32.ofNat (op.toNat + a * 64 + (sbx + 131071).toNat * 16384)⟩) := by
    by_cases fits : Field.sbx.Fits sbx
    · have biased : Field.bx.Fits (sbx + 131071).toNat := by
        simp only [Field.Fits] at fits ⊢
        omega
      simp only [asbx, abx, checkAll, Field.check_fits biased, bind_assoc, pure_bind]
      rfl
    · simp only [asbx, checkAll, Field.check_unfit fits]
      rfl
  refine .ofChecks checks fun i made => ?_
  obtain ⟨hop, ha, hsbx, _⟩ := asbx_ok made
  simp [hop, read, ha, hsbx]

theorem ax_encodes (n : Nat) : Encodes op [(.ax, n)] (ax op n) := by
  refine .ofChecks (by simp only [ax, checkAll, bind_assoc, pure_bind]; rfl) fun i made => ?_
  obtain ⟨hop, hax⟩ := ax_ok made
  simp [hop, read, hax]

section Words

variable {op : Opcode} {i j : Instruction}

theorem bx_le (i : Instruction) : i.bx ≤ 262143 := by
  have := i.word.toNat_lt
  simp only [bx]
  omega

theorem bc_le (i : Instruction) : i.b ≤ 511 ∧ i.c ≤ 511 := by
  have := i.word.toNat_lt
  simp only [b, c]
  omega

theorem axField_eq (i : Instruction) : i.axField = i.bx * 256 + i.a := by
  simp only [axField, bx, a]
  omega

theorem eq_of_fields (hi : i.opcode? = some op) (hj : j.opcode? = some op) (ha : j.a = i.a) (hbx : j.bx = i.bx) :
    j = i := by
  have code := (mod_of_opcode? hj).trans (mod_of_opcode? hi).symm
  have word : j.word.toNat = i.word.toNat := by
    simp only [a, bx] at ha hbx
    omega
  cases i
  cases j
  simpa [UInt32.toNat_inj] using word

theorem Encodes.restores {operands : List Operand} {made : Except OperandError Instruction}
    (encodes : Encodes op operands made) (fits : ∀ operand ∈ operands, operand.Fits)
    (unique : ∀ j, j.opcode? = some op → (∀ operand ∈ operands, j.read operand.1 = operand.2) → j = i) :
    made = .ok i := by
  obtain ⟨j, ok⟩ := encodes.made_iff.mpr fits
  obtain ⟨hop, read⟩ := encodes.decoded j ok
  rw [ok, unique j hop read]

section

variable (hop : i.opcode? = some op)

include hop

theorem abc_restores : abc op i.a i.b i.c = .ok i := by
  have least := i.a_le
  have bound := i.bc_le
  have whole := i.bx_eq
  refine (abc_encodes op _ _ _).restores ?_ fun j hop' same => ?_
  · simp only [List.mem_cons, List.not_mem_nil, or_false, forall_eq_or_imp, forall_eq, Operand.Fits, Field.Fits]
    omega
  · simp only [List.mem_cons, List.not_mem_nil, or_false, forall_eq_or_imp, forall_eq, read] at same
    have := j.bx_eq
    exact eq_of_fields hop hop' (by omega) (by omega)

theorem abx_restores : abx op i.a i.bx = .ok i := by
  have least := i.a_le
  have bound := i.bx_le
  refine (abx_encodes op _ _).restores ?_ fun j hop' same => ?_
  · simp only [List.mem_cons, List.not_mem_nil, or_false, forall_eq_or_imp, forall_eq, Operand.Fits, Field.Fits]
    omega
  · simp only [List.mem_cons, List.not_mem_nil, or_false, forall_eq_or_imp, forall_eq, read] at same
    exact eq_of_fields hop hop' (by omega) (by omega)

theorem ax_restores : ax op i.axField = .ok i := by
  have least := i.a_le
  have bound := i.bx_le
  have whole := i.axField_eq
  refine (ax_encodes op _).restores ?_ fun j hop' same => ?_
  · simp only [List.mem_cons, List.not_mem_nil, or_false, forall_eq, Operand.Fits, Field.Fits]
    omega
  · simp only [List.mem_cons, List.not_mem_nil, or_false, forall_eq, read] at same
    have := j.axField_eq
    have := j.a_le
    exact eq_of_fields hop hop' (by omega) (by omega)

theorem asbx_restores_iff : asbx op i.a i.sbx = .ok i ↔ i.bx ≠ 262143 := by
  have least := i.a_le
  have bound := i.bx_le
  have encodes := asbx_encodes op i.a i.sbx
  have fits_iff : (∀ operand ∈ [(Field.sbx, i.sbx), (Field.a, (i.a : Int))], Operand.Fits operand) ↔ i.bx ≠ 262143 := by
    simp only [List.mem_cons, List.not_mem_nil, or_false, forall_eq_or_imp, forall_eq, Operand.Fits, Field.Fits, sbx]
    omega
  rw [← fits_iff]
  constructor
  · exact fun made => encodes.made_iff.mp ⟨i, made⟩
  · refine fun fits => encodes.restores fits fun j hop' same => ?_
    simp only [List.mem_cons, List.not_mem_nil, or_false, forall_eq_or_imp, forall_eq, read, sbx] at same
    exact eq_of_fields hop hop' (by omega) (by omega)

end

theorem Sets.ofOk {operand : Operand} {kept : List Field} {change : Instruction → Except OperandError Instruction}
    (fit : operand.Fits → ∃ j, change i = .ok j) (unfit : ¬operand.Fits → change i = .error (operand.error op))
    (changed : ∀ j, change i = .ok j → j.opcode? = some op ∧ j.read operand.1 = operand.2 ∧
      ∀ field ∈ kept, j.read field = i.read field) : Sets i op operand kept change := by
  refine ⟨⟨fun ⟨j, ok⟩ => ?_, fit⟩, changed, fun f pc there overflow => ?_⟩
  · refine Classical.byContradiction fun overflow => ?_
    cases ok.symm.trans (unfit overflow)
  · simp only [Frame.amend, there, unfit overflow]

theorem setA_sets (hop : i.opcode? = some op) (n : Nat) :
    Sets i op (.a, n) [.b, .c, .bx, .sbx] (·.setA n) := by
  refine .ofOk (fun fits => ?_) (fun unfit => ?_) fun j changed => ?_
  · simp only [setA, hop, Field.check_fits fits]
    exact ⟨_, rfl⟩
  · simp only [setA, hop, Field.check_unfit unfit]
    rfl
  · obtain ⟨hop', ha, hbx, _⟩ := setA_ok hop changed
    have hb : j.b = i.b ∧ j.c = i.c := by
      simp only [bx, b, c] at hbx ⊢
      omega
    simp [hop', read, ha, hbx, hb, sbx]

theorem setSbx_sets (hop : i.opcode? = some op) (n : Int) : Sets i op (.sbx, n) [.a] (·.setSbx n) := by
  refine .ofOk (fun fits => ?_) (fun unfit => ?_) fun j changed => ?_
  · simp only [setSbx, hop, Field.check_fits fits]
    exact ⟨_, rfl⟩
  · simp only [setSbx, hop, Field.check_unfit unfit]
    rfl
  · obtain ⟨hop', ha, hsbx⟩ := setSbx_ok hop changed
    simp [hop', read, ha, hsbx]

end Words

/-- Encoding is exact in every format: operands go in iff they fit and come out again, words come out and go in again but
    for the one offset that the bias does not reach, and a field that is set is the only one to change. -/
theorem encoding_exact (op : Opcode) :
    (∀ a b c : Nat, Encodes op [(.a, a), (.b, b), (.c, c)] (abc op a b c)) ∧
      (∀ a bx : Nat, Encodes op [(.a, a), (.bx, bx)] (abx op a bx)) ∧
      (∀ (a : Nat) (sbx : Int), Encodes op [(.sbx, sbx), (.a, a)] (asbx op a sbx)) ∧
      (∀ n : Nat, Encodes op [(.ax, n)] (ax op n)) ∧
      ∀ i : Instruction, i.opcode? = some op →
        abc op i.a i.b i.c = .ok i ∧ abx op i.a i.bx = .ok i ∧ ax op i.axField = .ok i ∧
        (asbx op i.a i.sbx = .ok i ↔ i.bx ≠ 262143) ∧
        (∀ n : Nat, Sets i op (.a, n) [.b, .c, .bx, .sbx] (·.setA n)) ∧
        ∀ n : Int, Sets i op (.sbx, n) [.a] (·.setSbx n) :=
  ⟨abc_encodes op, abx_encodes op, asbx_encodes op, ax_encodes op, fun _ hop =>
    ⟨abc_restores hop, abx_restores hop, ax_restores hop, asbx_restores_iff hop, setA_sets hop, setSbx_sets hop⟩⟩

theorem encoding_exact_of_jump :
    ∃ i : Instruction, i.word = 4294967262 ∧ i.opcode? = some .jmp ∧ abc .jmp i.a i.b i.c = .ok i ∧
      ¬asbx .jmp i.a i.sbx = .ok i ∧ Sets i .jmp (.sbx, -5) [.a] (·.setSbx (-5)) := by
  let i : Instruction := ⟨4294967262⟩
  have jump : i.opcode? = some .jmp := by decide
  obtain ⟨_, _, _, _, words⟩ := encoding_exact .jmp
  obtain ⟨byAbc, _, _, byAsbx, _, sets⟩ := words i jump
  exact ⟨i, rfl, jump, byAbc, fun made => byAsbx.mp made (by decide), sets (-5)⟩

end Instruction

end LuaBytecode
