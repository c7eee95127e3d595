import LuaBytecode.Lowering.Basic
import Mathlib.Logic.Function.Basic

namespace LuaBytecode

/-- What the operators of the language do with values. Comparisons other than these three are made from them. -/
structure Operators (V : Type) where
  constant : Constant → V
  unary : UnOp → V → V
  arith : BinOp → V → V → V
  concat : V → V → V
  eq : V → V → Bool
  lt : V → V → Bool
  le : V → V → Bool
  truthy : V → Bool
  index : V → V → V

namespace Operators

variable {V : Type} (ops : Operators V)

def bool (b : Bool) : V := ops.constant (.bool b)

/-- The meaning of a binary operation. The right operand of `and` and `or` matters only if the left one does not decide. -/
def binary : BinOp → V → V → V
  | .and, x, y => if ops.truthy x then y else x
  | .or, x, y => if ops.truthy x then x else y
  | .concat, x, y => ops.concat x y
  | .eq, x, y => ops.bool (ops.eq x y)
  | .notEq, x, y => ops.bool (!ops.eq x y)
  | .lt, x, y => ops.bool (ops.lt x y)
  | .ltEq, x, y => ops.bool (ops.le x y)
  | .gt, x, y => ops.bool (ops.lt y x)
  | .gtEq, x, y => ops.bool (ops.le y x)
  | op, x, y => ops.arith op x y

def concatRow (registers : Nat → V) (first : Nat) : (more : Nat) → V
  | 0 => registers first
  | more + 1 => ops.concat (registers first) (concatRow registers (first + 1) more)

end Operators

namespace Opcode

def arith? : Opcode → Option BinOp
  | add => some .add
  | sub => some .sub
  | mul => some .mul
  | mod => some .mod
  | pow => some .pow
  | div => some .div
  | idiv => some .idiv
  | band => some .band
  | bor => some .bor
  | bxor => some .bxor
  | shl => some .shl
  | shr => some .shr
  | _ => none

def unary? : Opcode → Option UnOp
  | unm => some .neg
  | bnot => some .bnot
  | not => some .not
  | len => some .len
  | _ => none

end Opcode

structure Program where
  code : Array Instruction
  constants : Array Constant

structure Machine (V : Type) where
  pc : Nat
  registers : Nat → V

namespace Machine

variable {V : Type}

def load (m : Machine V) (r : Nat) (v : V) : Machine V := ⟨m.pc + 1, Function.update m.registers r v⟩

def next (m : Machine V) (skip : Bool) : Machine V := ⟨bif skip then m.pc + 2 else m.pc + 1, m.registers⟩

def jump (m : Machine V) (offset : Int) : Option (Machine V) :=
  if 0 ≤ m.pc + 1 + offset then some ⟨(m.pc + 1 + offset).toNat, m.registers⟩ else none

def operand (ops : Operators V) (constants : Array Constant) (registers : Nat → V) (x : Nat) : Option V :=
  if isRkConstant x then constants[x % 256]?.map ops.constant else some (registers x)

end Machine

namespace Program

open Machine

variable {V : Type} (ops : Operators V) (p : Program)

/-- The operand fields of an instruction make an operation of the Lua 5.3 machine. Closing upvalues changes no register.
    Operations that refer to other functions, upvalues or varargs, that store in tables or that count a loop have no
    meaning here, and at a return the machine stops. -/
def execute (m : Machine V) (i : Instruction) : Opcode → Option (Machine V)
  | .move => return m.load i.a (m.registers i.b)
  | .loadK => return m.load i.a (ops.constant (← p.constants[i.bx]?))
  | .loadKx => do
    let extra ← p.code[m.pc + 1]?
    if extra.opcode? = some .extraArg then
      return ⟨m.pc + 2, Function.update m.registers i.a (ops.constant (← p.constants[extra.axField]?))⟩
    else none
  | .loadBool => return ⟨if i.c = 0 then m.pc + 1 else m.pc + 2, Function.update m.registers i.a (ops.bool (i.b != 0))⟩
  | .loadNil => return ⟨m.pc + 1, fun r => if i.a ≤ r ∧ r ≤ i.a + i.b then ops.constant .nil else m.registers r⟩
  | .getTable => return m.load i.a (ops.index (m.registers i.b) (← operand ops p.constants m.registers i.c))
  | .concat => return m.load i.a (ops.concatRow m.registers i.b (i.c - i.b))
  | .jmp => m.jump i.sbx
  | .eq => compare ops.eq
  | .lt => compare ops.lt
  | .le => compare ops.le
  | .test => return m.next (ops.truthy (m.registers i.a) != (i.c != 0))
  | .testSet =>
    if ops.truthy (m.registers i.b) = (i.c != 0) then some (m.load i.a (m.registers i.b)) else some (m.next true)
  | op =>
    match op.arith?, op.unary? with
    | some f, _ => return m.load i.a (ops.arith f (← operand ops p.constants m.registers i.b)
        (← operand ops p.constants m.registers i.c))
    | none, some f => return m.load i.a (ops.unary f (m.registers i.b))
    | none, none => none
where
  compare (holds : V → V → Bool) : Option (Machine V) :=
    return m.next (holds (← operand ops p.constants m.registers i.b) (← operand ops p.constants m.registers i.c) !=
      (i.a != 0))

def step (m : Machine V) : Option (Machine V) := do
  let i ← p.code[m.pc]?
  p.execute ops m i (← i.opcode?)

theorem step_eq {ops : Operators V} {p : Program} {pc : Nat} {R : Nat → V} {i : Instruction} {op : Opcode}
    (found : p.code[pc]? = some i) (opcode : i.opcode? = some op) :
    p.step ops ⟨pc, R⟩ = p.execute ops ⟨pc, R⟩ i op := by
  simp [step, found, opcode]

theorem execute_arith {op : Opcode} {f : BinOp} (h : op.arith? = some f) (m : Machine V) (i : Instruction) :
    p.execute ops m i op = return m.load i.a (ops.arith f (← operand ops p.constants m.registers i.b)
      (← operand ops p.constants m.registers i.c)) := by
  cases op <;> cases h <;> simp only [execute, Opcode.arith?]

inductive Runs (lo hi : Nat) : Machine V → Machine V → Prop
  | refl (m : Machine V) : Runs lo hi m m
  | step {m m' m'' : Machine V} : lo ≤ m.pc → m.pc < hi → p.step ops m = some m' → Runs lo hi m' m'' → Runs lo hi m m''

namespace Runs

variable {ops : Operators V} {p : Program} {lo hi lo' hi' : Nat} {m m' m'' : Machine V}

theorem trans (first : p.Runs ops lo hi m m') (second : p.Runs ops lo hi m' m'') : p.Runs ops lo hi m m'' := by
  induction first with
  | refl => exact second
  | step above below one _ ih => exact .step above below one (ih second)

theorem mono (h : p.Runs ops lo hi m m') (above : lo' ≤ lo) (below : hi ≤ hi') : p.Runs ops lo' hi' m m' := by
  induction h with
  | refl => exact .refl _
  | step hlo hhi one _ ih => exact .step (Nat.le_trans above hlo) (Nat.lt_of_lt_of_le hhi below) one ih

theorem cons {pc : Nat} {R : Nat → V} (above : lo ≤ pc) (below : pc < hi) (one : p.step ops ⟨pc, R⟩ = some m')
    (rest : p.Runs ops lo hi m' m'') : p.Runs ops lo hi ⟨pc, R⟩ m'' :=
  .step above below one rest

theorem one {pc : Nat} {R : Nat → V} (above : lo ≤ pc) (below : pc < hi) (h : p.step ops ⟨pc, R⟩ = some m') :
    p.Runs ops lo hi ⟨pc, R⟩ m' :=
  cons above below h (.refl _)

end Runs

end Program

/-- The value of an expression made of literals, variables, parentheses, operators and indexing. Other expressions have
    no value of their own, and `nil` stands for it. -/
def Exp.value {V : Type} (ops : Operators V) (vars : String → V) : Exp → V
  | .nil => ops.constant .nil
  | .bool value => ops.constant (.bool value)
  | .integer value => ops.constant (.integer value)
  | .float value => ops.constant (.float value)
  | .string value => ops.constant (.string value)
  | .name x => vars x
  | .index object key => ops.index (object.value ops vars) (key.value ops vars)
  | .paren inner => inner.value ops vars
  | .unop op operand => ops.unary op (operand.value ops vars)
  | .binop op lhs rhs => ops.binary op (lhs.value ops vars) (rhs.value ops vars)
  | _ => ops.constant .nil

def Exp.Pure (bound : String → Prop) : Exp → Prop
  | .nil | .bool _ | .integer _ | .float _ | .string _ => True
  | .name x => bound x
  | .index object key => object.Pure bound ∧ key.Pure bound
  | .paren inner => inner.Pure bound
  | .unop _ operand => operand.Pure bound
  | .binop _ lhs rhs => lhs.Pure bound ∧ rhs.Pure bound
  | _ => False

def Frame.Binds (f : Frame) (x : String) : Prop := (f.register? x).isSome

def Frame.Holds {V : Type} (f : Frame) (vars : String → V) (registers : Nat → V) : Prop :=
  ∀ x r, f.register? x = some r → registers r = vars x

end LuaBytecode
