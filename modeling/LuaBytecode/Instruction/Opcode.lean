namespace LuaBytecode

/-- Operations of the Lua 5.3 virtual machine, in the order of their codes. -/
inductive Opcode where
  | move
  | loadK
  | loadKx
  | loadBool
  | loadNil
  | getUpval
  | getTabUp
  | getTable
  | setTabUp
  | setUpval
  | setTable
  | newTable
  | self
  | add
  | sub
  | mul
  | mod
  | pow
  | div
  | idiv
  | band
  | bor
  | bxor
  | shl
  | shr
  | unm
  | bnot
  | not
  | len
  | concat
  | jmp
  | eq
  | lt
  | le
  | test
  | testSet
  | call
  | tailCall
  | ret
  | forLoop
  | forPrep
  | tforCall
  | tforLoop
  | setList
  | closure
  | vararg
  | extraArg
  deriving DecidableEq, Repr

/-- Layout of the 26 bits beside the operation code. -/
inductive Format where
  | abc
  | abx
  | asbx
  | ax
  deriving DecidableEq, Repr

/-- What an operation takes its B or C field for. -/
inductive OperandMode where
  | unused
  | number
  | register
  /-- A constant or a register, told apart by the top bit. -/
  | rk
  deriving DecidableEq, Repr

namespace Opcode

def all : Array Opcode :=
  #[move, loadK, loadKx, loadBool, loadNil, getUpval, getTabUp, getTable, setTabUp, setUpval, setTable, newTable,
    self, add, sub, mul, mod, pow, div, idiv, band, bor, bxor, shl, shr, unm, bnot, not, len, concat, jmp, eq, lt,
    le, test, testSet, call, tailCall, ret, forLoop, forPrep, tforCall, tforLoop, setList, closure, vararg, extraArg]

def toNat (op : Opcode) : Nat := op.ctorIdx

def ofNat? (code : Nat) : Option Opcode := all[code]?

@[simp] theorem ofNat?_toNat (op : Opcode) : ofNat? op.toNat = some op := by
  cases op <;> rfl

theorem toNat_lt (op : Opcode) : op.toNat < 47 := by
  cases op <;> decide

def format : Opcode → Format
  | loadK | loadKx | closure => .abx
  | jmp | forLoop | forPrep | tforLoop => .asbx
  | extraArg => .ax
  | _ => .abc

def bMode : Opcode → OperandMode
  | loadKx | test | tforCall => .unused
  | move | getTable | self | unm | bnot | not | len | concat | jmp | testSet | forLoop | forPrep | tforLoop => .register
  | loadK | setTabUp | setTable | add | sub | mul | mod | pow | div | idiv | band | bor | bxor | shl | shr | eq | lt
  | le => .rk
  | loadBool | loadNil | getUpval | getTabUp | setUpval | newTable | call | tailCall | ret | setList | closure | vararg
  | extraArg => .number

def cMode : Opcode → OperandMode
  | move | loadK | loadKx | loadNil | getUpval | setUpval | unm | bnot | not | len | jmp | forLoop | forPrep | tforLoop
  | closure | vararg => .unused
  | concat => .register
  | getTabUp | getTable | setTabUp | setTable | self | add | sub | mul | mod | pow | div | idiv | band | bor | bxor
  | shl | shr | eq | lt | le => .rk
  | loadBool | newTable | test | testSet | call | tailCall | ret | tforCall | setList | extraArg => .number

def isTest : Opcode → Bool
  | eq | lt | le | test | testSet => true
  | _ => false

def mnemonic : Opcode → String
  | move => "MOVE"
  | loadK => "LOADK"
  | loadKx => "LOADKX"
  | loadBool => "LOADBOOL"
  | loadNil => "LOADNIL"
  | getUpval => "GETUPVAL"
  | getTabUp => "GETTABUP"
  | getTable => "GETTABLE"
  | setTabUp => "SETTABUP"
  | setUpval => "SETUPVAL"
  | setTable => "SETTABLE"
  | newTable => "NEWTABLE"
  | self => "SELF"
  | add => "ADD"
  | sub => "SUB"
  | mul => "MUL"
  | mod => "MOD"
  | pow => "POW"
  | div => "DIV"
  | idiv => "IDIV"
  | band => "BAND"
  | bor => "BOR"
  | bxor => "BXOR"
  | shl => "SHL"
  | shr => "SHR"
  | unm => "UNM"
  | bnot => "BNOT"
  | not => "NOT"
  | len => "LEN"
  | concat => "CONCAT"
  | jmp => "JMP"
  | eq => "EQ"
  | lt => "LT"
  | le => "LE"
  | test => "TEST"
  | testSet => "TESTSET"
  | call => "CALL"
  | tailCall => "TAILCALL"
  | ret => "RETURN"
  | forLoop => "FORLOOP"
  | forPrep => "FORPREP"
  | tforCall => "TFORCALL"
  | tforLoop => "TFORLOOP"
  | setList => "SETLIST"
  | closure => "CLOSURE"
  | vararg => "VARARG"
  | extraArg => "EXTRAARG"

end Opcode

end LuaBytecode
