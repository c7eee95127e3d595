import LuaBytecode.Proofs.Instruction.Fields

namespace LuaBytecode

open Instruction

def NamesRegister (x r : Nat) : Prop := isRkConstant x = false ∧ r = x

def NamesConstant (x k : Nat) : Prop := isRkConstant x = true ∧ k = x % 256

namespace Opcode

/-- The registers that an operation reads or writes. Where a count of zero means all values up to the top, only the first
    register counts. -/
def Accesses : Opcode → (a b c r : Nat) → Prop
  | move, a, b, _, r | unm, a, b, _, r | bnot, a, b, _, r | not, a, b, _, r | len, a, b, _, r
  | testSet, a, b, _, r => r = a ∨ r = b
  | loadK, a, _, _, r | loadKx, a, _, _, r | loadBool, a, _, _, r | getUpval, a, _, _, r | setUpval, a, _, _, r
  | newTable, a, _, _, r | test, a, _, _, r | closure, a, _, _, r => r = a
  | loadNil, a, b, _, r => a ≤ r ∧ r ≤ a + b
  | getTabUp, a, _, c, r => r = a ∨ NamesRegister c r
  | getTable, a, b, c, r => r = a ∨ r = b ∨ NamesRegister c r
  | setTabUp, _, b, c, r | eq, _, b, c, r | lt, _, b, c, r | le, _, b, c, r => NamesRegister b r ∨ NamesRegister c r
  | self, a, b, c, r => r = a ∨ r = a + 1 ∨ r = b ∨ NamesRegister c r
  | setTable, a, b, c, r | add, a, b, c, r | sub, a, b, c, r | mul, a, b, c, r | mod, a, b, c, r | pow, a, b, c, r
  | div, a, b, c, r | idiv, a, b, c, r | band, a, b, c, r | bor, a, b, c, r | bxor, a, b, c, r | shl, a, b, c, r
  | shr, a, b, c, r => r = a ∨ NamesRegister b r ∨ NamesRegister c r
  | concat, a, b, c, r => r = a ∨ b ≤ r ∧ r ≤ c
  | call, a, b, c, r => r = a ∨ a ≤ r ∧ r + 1 ≤ a + b ∨ a ≤ r ∧ r + 2 ≤ a + c
  | tailCall, a, b, _, r => r = a ∨ a ≤ r ∧ r + 1 ≤ a + b
  | ret, a, b, _, r => b ≠ 1 ∧ r = a ∨ a ≤ r ∧ r + 2 ≤ a + b
  | vararg, a, b, _, r => r = a ∨ a ≤ r ∧ r + 2 ≤ a + b
  | setList, a, b, _, r => a ≤ r ∧ r ≤ a + b
  | forLoop, a, _, _, r | forPrep, a, _, _, r => a ≤ r ∧ r ≤ a + 3
  | tforCall, a, _, c, r => a ≤ r ∧ r ≤ a + 2 + c
  | tforLoop, a, _, _, r => r = a ∨ r = a + 1
  | jmp, _, _, _, _ | extraArg, _, _, _, _ => False

def UsesConstant : Opcode → (b c bx k : Nat) → Prop
  | loadK, _, _, bx, k => k = bx
  | getTabUp, _, c, _, k | getTable, _, c, _, k | self, _, c, _, k => NamesConstant c k
  | setTabUp, b, c, _, k | setTable, b, c, _, k | add, b, c, _, k | sub, b, c, _, k | mul, b, c, _, k | mod, b, c, _, k
  | pow, b, c, _, k | div, b, c, _, k | idiv, b, c, _, k | band, b, c, _, k | bor, b, c, _, k | bxor, b, c, _, k
  | shl, b, c, _, k | shr, b, c, _, k | eq, b, c, _, k | lt, b, c, _, k | le, b, c, _, k =>
    NamesConstant b k ∨ NamesConstant c k
  | _, _, _, _, _ => False

def UsesUpvalue : Opcode → (a b u : Nat) → Prop
  | getUpval, _, b, u | setUpval, _, b, u | getTabUp, _, b, u => u = b
  | setTabUp, a, _, u => u = a
  | _, _, _, _ => False

def isJump : Opcode → Bool
  | jmp | forPrep | forLoop | tforLoop => true
  | _ => false

/-- The operands that a listing of the operation leaves out are zero. -/
def listsAll (op : Opcode) (b c : Nat) : Bool :=
  match op.format with
  | .abc => (op.bMode != .unused || b == 0) && (op.cMode != .unused || c == 0)
  | .abx => op.bMode != .unused || b == 0 && c == 0
  | .asbx | .ax => true

theorem eq_of_isJump {op : Opcode} (jump : op.isJump = true) :
    op = jmp ∨ op = forPrep ∨ op = forLoop ∨ op = tforLoop := by
  cases op <;> simp_all [isJump]

end Opcode

namespace Instruction

variable (i j : Instruction)

def Accesses (r : Nat) : Prop := ∃ op, i.opcode? = some op ∧ op.Accesses i.a i.b i.c r

def UsesConstant (k : Nat) : Prop := ∃ op, i.opcode? = some op ∧ op.UsesConstant i.b i.c i.bx k

def UsesUpvalue (u : Nat) : Prop := ∃ op, i.opcode? = some op ∧ op.UsesUpvalue i.a i.b u

def isJump : Bool := i.opcode?.any Opcode.isJump

def isTest : Bool := i.opcode?.any Opcode.isTest

def hasExtra : Bool := i.opcode? == some .loadKx || i.opcode? == some .setList && i.c == 0

def isOpen : Bool :=
  i.opcode? == some .call && i.c == 0 || i.opcode? == some .tailCall || i.opcode? == some .vararg && i.b == 0

def takesOpen : Bool :=
  i.b == 0 && (i.opcode? == some .call || i.opcode? == some .tailCall || i.opcode? == some .ret ||
    i.opcode? == some .setList)

/-- The first register of the values that an instruction takes: a return takes them from A on, the others keep a function
    or a table there. -/
def firstTaken : Nat := if i.opcode? = some .ret then i.a else i.a + 1

def binds : Bool := i.isTest || i.hasExtra || i.isOpen || i.opcode? == some .tforCall

structure Starts : Prop where
  extra : i.opcode? ≠ some .extraArg
  taken : i.takesOpen = false
  generic : i.opcode? ≠ some .tforLoop

/-- The instructions belong together just as far as both of them need it. -/
structure Linked : Prop where
  test : i.isTest = true → j.opcode? = some .jmp
  extra : i.hasExtra = true ↔ j.opcode? = some .extraArg
  results : i.isOpen = true ↔ j.takesOpen = true
  taken : i.isOpen = true → j.firstTaken ≤ i.a
  generic : i.opcode? = some .tforCall ↔ j.opcode? = some .tforLoop
  control : i.opcode? = some .tforCall → j.a = i.a + 2

variable {i j}

theorem binds_eq_false : i.binds = false ↔
    i.isTest = false ∧ i.hasExtra = false ∧ i.isOpen = false ∧ i.opcode? ≠ some .tforCall := by
  simp [binds, and_assoc]

theorem Linked.ofStarts (alone : i.binds = false) (starts : j.Starts) : i.Linked j := by
  obtain ⟨test, extra, results, generic⟩ := binds_eq_false.mp alone
  exact
    { test := by simp [test]
      extra := by simp [extra, starts.extra]
      results := by simp [results, starts.taken]
      taken := by simp [results]
      generic := by simp [generic, starts.generic]
      control := by simp [generic] }

theorem binds_of_isJump (jump : i.isJump = true) : i.binds = false := by
  unfold isJump at jump
  cases hop : i.opcode? with
  | none => simp [hop] at jump
  | some op => cases op <;> simp_all [Opcode.isJump, binds, isTest, hasExtra, isOpen, Opcode.isTest]

theorem takesOpen_of_isJump (jump : i.isJump = true) : i.takesOpen = false := by
  unfold isJump at jump
  cases hop : i.opcode? with
  | none => simp [hop] at jump
  | some op => cases op <;> simp_all [Opcode.isJump, takesOpen]

theorem Linked.ofJumps {i' j' : Instruction} (h : i.Linked j) (left : i' = i ∨ i.isJump = true ∧ i'.opcode? = i.opcode?)
    (right : j' = j ∨ j.isJump = true ∧ j'.opcode? = j.opcode? ∧ (j'.a = j.a ∨ j.opcode? = some .jmp)) :
    i'.Linked j' := by
  have right' : i.Linked j' := by
    rcases right with rfl | ⟨jump, same, operand⟩
    · exact h
    · have jump' : j'.isJump = true := by rwa [isJump, same]
      have closed : i.isOpen = false := by
        have := h.results
        rw [takesOpen_of_isJump jump] at this
        simpa using this
      refine ⟨?_, ?_, ?_, ?_, ?_, ?_⟩
      · rw [same]
        exact h.test
      · rw [same]
        exact h.extra
      · simp [closed, takesOpen_of_isJump jump']
      · simp [closed]
      · rw [same]
        exact h.generic
      · intro generic
        rcases operand with operand | plain
        · rw [operand]
          exact h.control generic
        · cases (h.generic.mp generic).symm.trans plain
  rcases left with rfl | ⟨jump, same⟩
  · exact right'
  · have jump' : i'.isJump = true := by rwa [isJump, same]
    obtain ⟨test, extra, results, generic⟩ := binds_eq_false.mp (binds_of_isJump jump)
    obtain ⟨test', extra', results', generic'⟩ := binds_eq_false.mp (binds_of_isJump jump')
    have hextra := right'.extra
    have hresults := right'.results
    have hgeneric := right'.generic
    rw [extra] at hextra
    rw [results] at hresults
    refine ⟨by simp [test'], by rwa [extra'], by rwa [results'], by simp [results'], ?_, fun h' => absurd h' generic'⟩
    rw [same]
    exact hgeneric

end Instruction

section Errors

variable {op : Opcode} {a b c bx n : Nat} {sbx : Int} {e : OperandError}

theorem Field.check_bind_error {field : Field} {value : Int} {next : Except OperandError Instruction}
    (fits : field = .a → value.toNat ≤ 255 ∧ 0 ≤ value) (later : ∀ e, next = .error e → e.field ≠ .a)
    (h : (do field.check op value; next) = .error e) : e.field ≠ .a := by
  unfold Field.check at h
  split at h
  · exact later _ h
  · rename_i unfit
    cases h
    rintro rfl
    have fits := fits rfl
    simp only [least, greatest] at unfit
    omega

theorem Instruction.ax_error : ax op n = .error e → e.field ≠ .a := Field.check_bind_error nofun nofun

theorem Instruction.setSbx_error {i : Instruction} (hop : i.opcode? = some op) :
    i.setSbx sbx = .error e → e.field ≠ .a := by
  simp only [setSbx, hop]
  exact Field.check_bind_error nofun nofun

variable (fits : a ≤ 255)

include fits

theorem Field.check_a : Field.a.check op a = .ok () := by
  unfold Field.check
  rw [if_pos ⟨Int.natCast_nonneg a, by simp only [Field.greatest]; omega⟩]

theorem Instruction.abc_error : abc op a b c = .error e → e.field ≠ .a := by
  refine Field.check_bind_error (fun _ => by omega) fun e => Field.check_bind_error nofun fun e => ?_
  exact Field.check_bind_error nofun nofun

theorem Instruction.abx_error : abx op a bx = .error e → e.field ≠ .a :=
  Field.check_bind_error (fun _ => by omega) fun _ => Field.check_bind_error nofun nofun

theorem Instruction.asbx_error : asbx op a sbx = .error e → e.field ≠ .a :=
  Field.check_bind_error nofun fun _ => abx_error fits

theorem Instruction.setA_error {i : Instruction} (hop : i.opcode? = some op) : i.setA a ≠ .error e := by
  unfold setA
  rw [hop]
  simp [Field.check_a fits, Bind.bind, Except.bind, Pure.pure, Except.pure]

end Errors

end LuaBytecode
