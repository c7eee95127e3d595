import LuaBytecode.Prototype.Listing
import LuaBytecode.Proofs.Instruction.Encoding
import LuaBytecode.Proofs.Regular.Program
import Std.Data.String.ToInt

namespace LuaBytecode

theorem Opcode.mem_all (op : Opcode) : op ∈ Opcode.all.toList := by
  cases op <;> decide

namespace Prototype

variable {q : Prototype} {i j : Instruction} {op : Opcode}

def shownOperands (i : Instruction) (op : Opcode) : List Int :=
  match op.format with
  | .abc =>
    let shown (mode : OperandMode) (value : Nat) : List Int :=
      if mode = .unused then [] else [shownOperand mode value]
    (i.a : Int) :: (shown op.bMode i.b ++ shown op.cMode i.c)
  | .abx =>
    (i.a : Int) ::
      match op.bMode with
      | .rk => [-1 - (i.bx : Int)]
      | .number => [(i.bx : Int)]
      | _ => []
  | .asbx => [(i.a : Int), i.sbx]
  | .ax => [-1 - (i.axField : Int)]

def front (i : Instruction) : String :=
  match i.opcode? with
  | none => i.describe
  | some op => padded op.mnemonic ++ "\t" ++ operandText i op

section Text

theorem notMem_repr (n : Int) : ' ' ∉ n.repr.toList := by
  have digits : ∀ k : Nat, ' ' ∉ k.repr.toList := by
    intro k member
    rw [Nat.toList_repr] at member
    cases Nat.isDigit_of_mem_toDigits (by decide) (by decide) member
  rw [Int.repr_eq_if]
  split
  · exact digits _
  · rw [String.toList_append]
    exact fun member => (List.mem_append.mp member).elim (by decide) (digits _)

theorem spaced_injective {xs ys : List Int} (hx : xs ≠ []) (hy : ys ≠ [])
    (same : " ".intercalate (xs.map Int.repr) = " ".intercalate (ys.map Int.repr)) : xs = ys := by
  have words : ∀ {zs : List Int}, zs ≠ [] →
      List.splitOn ' ' (" ".intercalate (zs.map Int.repr)).toList = zs.map (·.repr.toList) := by
    intro zs nonempty
    rw [String.toList_intercalate, List.map_map]
    refine List.splitOn_intercalate ' ' ?_ (by simpa using nonempty)
    intro word member
    obtain ⟨n, _, rfl⟩ := List.mem_map.mp member
    exact notMem_repr n
  have split := words hx
  rw [same, words hy] at split
  refine (List.map_injective_iff.mpr (fun m n equal => ?_) split).symm
  exact Int.repr_injective (String.toList_inj.mp equal)

theorem operandText_eq : operandText i op = " ".intercalate ((shownOperands i op).map Int.repr) := by
  have number : ∀ n : Nat, (n : Int).repr = n.repr := fun _ => rfl
  unfold operandText shownOperands
  cases op.format with
  | abc =>
    by_cases hb : op.bMode = .unused <;> by_cases hc : op.cMode = .unused <;>
      simp [hb, hc, number, Int.toString_eq_repr, String.append_assoc]
  | abx => cases op.bMode <;> simp [number, Int.toString_eq_repr, String.append_assoc]
  | asbx => simp [number, Int.toString_eq_repr, String.append_assoc]
  | ax => simp [Int.toString_eq_repr]

theorem shownOperands_ne_nil : shownOperands i op ≠ [] := by
  unfold shownOperands
  split <;> exact List.cons_ne_nil _ _

theorem length_padded (op : Opcode) : (padded op.mnemonic).toList.length = 9 := by
  have table : ∀ op ∈ Opcode.all.toList, (padded op.mnemonic).toList.length = 9 := by decide +kernel
  exact table op (Opcode.mem_all op)

theorem padded_injective {op' : Opcode} (same : padded op.mnemonic = padded op'.mnemonic) : op = op' := by
  have distinct : (Opcode.all.toList.map fun op => padded op.mnemonic).Nodup := by decide +kernel
  exact List.inj_on_of_nodup_map distinct (Opcode.mem_all op) (Opcode.mem_all op') same

end Text

section Fields

theorem shownOperand_injective {mode : OperandMode} {x y : Nat} (hx : x ≤ 511) (hy : y ≤ 511)
    (same : shownOperand mode x = shownOperand mode y) : x = y := by
  have top : ∀ z, isRkConstant z = decide (z / 256 % 2 = 1) := fun z => Nat.testBit_eq_decide_div_mod_eq
  simp only [shownOperand, top, Bool.and_eq_true, decide_eq_true_eq] at same
  split at same <;> split at same <;> omega

theorem bMode_of_abx (format : op.format = .abx) : op.bMode ≠ .register := by
  cases op <;> first
    | decide
    | cases format

theorem eq_of_shownOperands (hi : i.opcode? = some op) (hj : j.opcode? = some op)
    (listed : op.listsAll i.b i.c = true) (listed' : op.listsAll j.b j.c = true)
    (same : shownOperands i op = shownOperands j op) : i = j := by
  have whole := i.bx_eq
  have whole' := j.bx_eq
  suffices i.a = j.a ∧ i.bx = j.bx from Instruction.eq_of_fields hj hi this.1 this.2
  unfold shownOperands at same
  unfold Opcode.listsAll at listed listed'
  cases format : op.format with
  | abc =>
    simp only [format, List.cons.injEq, Int.natCast_inj] at same
    simp only [format, Bool.and_eq_true, Bool.or_eq_true, bne_iff_ne, beq_iff_eq] at listed listed'
    obtain ⟨ha, rest⟩ := same
    have small := i.bc_le
    have small' := j.bc_le
    obtain ⟨hb, hc⟩ : i.b = j.b ∧ i.c = j.c := by
      by_cases b : op.bMode = .unused <;> by_cases c : op.cMode = .unused <;>
        simp [b, c] at rest listed listed'
      · omega
      · exact ⟨by omega, shownOperand_injective small.2 small'.2 rest⟩
      · exact ⟨shownOperand_injective small.1 small'.1 rest, by omega⟩
      · exact ⟨shownOperand_injective small.1 small'.1 rest.1, shownOperand_injective small.2 small'.2 rest.2⟩
    omega
  | abx =>
    cases mode : op.bMode with
    | register => exact absurd mode (bMode_of_abx format)
    | unused =>
      simp only [format, mode, List.cons.injEq, Int.natCast_inj] at same
      simp [format, mode] at listed listed'
      omega
    | number | rk =>
      simp only [format, mode, List.cons.injEq, Int.natCast_inj] at same
      omega
  | asbx =>
    simp only [format, List.cons.injEq, Int.natCast_inj, Instruction.sbx] at same
    omega
  | ax =>
    have full := i.axField_eq
    have full' := j.axField_eq
    have small := i.a_le
    have small' := j.a_le
    simp only [format, List.cons.injEq] at same
    omega

theorem front_injective {op' : Opcode} (hi : i.opcode? = some op) (hj : j.opcode? = some op')
    (listed : op.listsAll i.b i.c = true) (listed' : op'.listsAll j.b j.c = true) (same : front i = front j) : i = j := by
  simp only [front, hi, hj, String.append_assoc] at same
  have chars := congrArg String.toList same
  simp only [String.toList_append] at chars
  obtain ⟨name, rest⟩ := List.append_inj chars ((length_padded op).trans (length_padded op').symm)
  cases padded_injective (String.toList_inj.mp name)
  have operands := String.toList_inj.mp (List.append_cancel_left rest)
  rw [operandText_eq, operandText_eq] at operands
  exact eq_of_shownOperands hi hj listed listed' (spaced_injective shownOperands_ne_nil shownOperands_ne_nil operands)

end Fields

/-- Each instruction has its line, and a jump names the line of its target. -/
structure ListsCode (q : Prototype) : Prop where
  lines : ∀ (pc : Nat) (i : Instruction), q.code[pc]? = some i → ∀ source isMain,
    (q.ownLines source isMain)[pc + 2]? = some s!"\t{pc + 1}\t[-]\t{q.instructionText pc i}"
  texts : ∀ (pc : Nat) (i : Instruction), q.code[pc]? = some i →
    ∃ op, i.opcode? = some op ∧ q.instructionText pc i = front i ++ q.comment pc i op
  jumps : ∀ (pc : Nat) (i : Instruction), q.code[pc]? = some i → i.isJump = true →
    ∃ (t : Nat) (j : Instruction), (t : Int) = pc + 1 + i.sbx ∧ q.code[t]? = some j ∧
      q.instructionText pc i = front i ++ s!"\t; to {t + 1}"

theorem instructionText_eq (hop : i.opcode? = some op) (pc : Nat) :
    q.instructionText pc i = front i ++ q.comment pc i op := by
  simp only [instructionText, front, hop]

theorem comment_of_isJump {pc t : Nat} (jump : op.isJump = true) (target : (t : Int) = pc + 1 + i.sbx) :
    q.comment pc i op = s!"\t; to {t + 1}" := by
  have number : (pc : Int) + 2 + i.sbx = ((t + 1 : Nat) : Int) := by omega
  rcases Opcode.eq_of_isJump jump with rfl | rfl | rfl | rfl
  all_goals
    show "\t; to " ++ toString ((pc : Int) + 2 + i.sbx) = _
    rw [number]
    rfl

theorem ownLines_code {pc : Nat} (there : q.code[pc]? = some i) (source : String) (isMain : Bool) :
    (q.ownLines source isMain)[pc + 2]? = some s!"\t{pc + 1}\t[-]\t{q.instructionText pc i}" := by
  have inside := lt_of_getElem? there
  simp only [ownLines, List.append_assoc, List.cons_append, List.nil_append, List.getElem?_cons_succ]
  rw [List.getElem?_append_left (by simpa using inside), List.getElem?_map, List.getElem?_zipIdx,
    Array.getElem?_toList, there]
  simp

theorem Regular.listsCode {slack : Nat} (h : q.Regular slack) : q.ListsCode := by
  cases h with
  | mk finishes _ =>
    have known : ∀ (pc : Nat) (i : Instruction), q.code[pc]? = some i → ∃ op, i.opcode? = some op := fun pc i there =>
      Option.isSome_iff_exists.mp (finishes.flow.valid pc i there)
    refine ⟨fun pc i there source isMain => ownLines_code there source isMain, ?_, ?_⟩
    · intro pc i there
      obtain ⟨op, hop⟩ := known pc i there
      exact ⟨op, hop, instructionText_eq hop pc⟩
    · intro pc i there jump
      obtain ⟨op, hop⟩ := known pc i there
      obtain ⟨t, j, target, landed, _⟩ := finishes.lands there jump
      rw [Instruction.isJump, hop] at jump
      exact ⟨t, j, target, landed, by rw [instructionText_eq hop, comment_of_isJump jump target]⟩

theorem Regular.listsAll {slack : Nat} (h : q.Regular slack) (member : i ∈ q.code) :
    ∃ op, i.opcode? = some op ∧ op.listsAll i.b i.c = true := by
  cases h with
  | mk finishes _ =>
    obtain ⟨pc, there⟩ := Array.mem_iff_getElem?.mp member
    obtain ⟨op, hop⟩ := Option.isSome_iff_exists.mp (finishes.flow.valid pc i there)
    exact ⟨op, hop, (finishes.operands.fits pc i there).listed op hop⟩

end Prototype

theorem Chunk.compile_regular {source name : String} {p q : Prototype} (compiled : Chunk.compile source name = .ok p)
    (inside : p.Contains q) : q.Regular 0 := by
  obtain ⟨block, parsed, lowered⟩ := Chunk.compile_eq_ok_iff.mp compiled
  exact ((Block.compile_regular_of_parse parsed name).1 p lowered).1.contains inside

/-- A listing tells the instructions of all sources apart, and its jumps lead to the lines that they name. -/
theorem Chunk.compile_lists_instructions {source name source' name' : String} {p q p' q' : Prototype}
    (compiled : Chunk.compile source name = .ok p) (inside : p.Contains q)
    (compiled' : Chunk.compile source' name' = .ok p') (inside' : p'.Contains q') :
    q.ListsCode ∧ ∀ i ∈ q.code, ∀ j ∈ q'.code, Prototype.front i = Prototype.front j → i = j := by
  have regular := Chunk.compile_regular compiled inside
  have regular' := Chunk.compile_regular compiled' inside'
  refine ⟨regular.listsCode, fun i member j member' same => ?_⟩
  obtain ⟨op, hi, listed⟩ := regular.listsAll member
  obtain ⟨op', hj, listed'⟩ := regular'.listsAll member'
  exact Prototype.front_injective hi hj listed listed' same

theorem Chunk.compile_lists_instructions_of_loops :
    ∃ p, Chunk.compile "local f, n = ...; while n do n = f(n) end; for k in n do f(k) end" "loops" = .ok p ∧
      (∃ i ∈ p.code, i.opcode? = some .jmp) ∧ (∃ i ∈ p.code, i.opcode? = some .tforLoop) ∧ p.ListsCode ∧
      ∀ i ∈ p.code, ∀ j ∈ p.code, Prototype.front i = Prototype.front j → i = j := by
  refine exists_ok (fun p => (p.code.any (·.opcode? = some .jmp)) && p.code.any (·.opcode? = some .tforLoop))
    (by decide +kernel) fun p compiled loops => ?_
  obtain ⟨jmp, tforLoop⟩ := Bool.and_eq_true_iff.mp loops
  obtain ⟨i, member, hop⟩ := Array.any_eq_true'.mp jmp
  obtain ⟨j, member', hop'⟩ := Array.any_eq_true'.mp tforLoop
  exact ⟨⟨i, member, of_decide_eq_true hop⟩, ⟨j, member', of_decide_eq_true hop'⟩,
    Chunk.compile_lists_instructions compiled .self compiled .self⟩

end LuaBytecode
