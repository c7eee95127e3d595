import LuaBytecode.Lowering.Operand

namespace LuaBytecode

namespace ExpCode

open Lowering

/-- An expression that is neither a call, an index, a name nor a concatenation. -/
def plain (exp : Exp) (emit : Nat → Int → LowerM Unit) : ExpCode where
  exp := exp
  emit := emit
  operands := [emit]
  prepare? := none
  method? := none
  target := do throw (.unsupported .assignmentTarget (← get).frame.line)
  register? := pure none
  place? := pure none

def ofNil : ExpCode := plain .nil fun a n => do let _ ← Frame.emitLoadNil a (max n 1).toNat

def ofBool (value : Bool) : ExpCode := plain (.bool value) fun a _ => do let _ ← Frame.emitLoadBool a value.toNat 0

def ofConstant (exp : Exp) (k : Constant) : ExpCode := plain exp fun a _ => do let _ ← Frame.emitLoadK a k

def ofVararg : ExpCode :=
  plain .vararg fun a n => do
    let frame := (← get).frame
    if frame.isVararg then
      let _ ← Frame.emitVararg a n
    else throw (.varargOutsideVararg frame.line)

def ofName (name : String) : ExpCode :=
  { plain (.name name) (fun a _ => emitName name a) with
    target := nameTarget name
    register? := do return (← get).frame.register? name
    place? := resolve name }

def ofIndex (exp : Exp) (object key : ExpCode) : ExpCode :=
  let read (a : Nat) : LowerM Unit := do
    let (table, key) ← scratch do
      let table ← object.toTable
      return (table, ← key.toRk)
    emitGetField a table key
  { plain exp (fun a _ => read a) with
    method? := some fun a => do
      object.emit a 1
      let _ ← Frame.alloc
      let name ← scratch key.toRk
      let _ ← Frame.emitAbc .self a a name
    target := do
      let table ← object.toNewRegister
      match ← key.constantRk? with
      | some rk => return .field (.register table) rk
      | none => return .field (.register table) (← key.toNewRegister) }

/-- Loads a function and its arguments from `a` on and gives the number of arguments, or -1 for all up to the top. The
    receiver of a method call is loaded with the method and not again as an argument. -/
def prepareCall (callee : ExpCode) (args : List ExpCode) (isMethod : Bool) (a : Nat) : LowerM Int := do
  match isMethod, callee.method? with
  | true, some loadMethod =>
    let args := args.drop 1
    loadMethod a
    loadOpen args
    Frame.freeN args.length
    Frame.free
    return if isOpen args then -1 else args.length + 1
  | _, _ =>
    callee.emit a 1
    loadOpen args
    Frame.freeN args.length
    return countOf args

def emitCall (callee : ExpCode) (args : List ExpCode) (isMethod : Bool) (a : Nat) (n : Int) : LowerM Unit := do
  let count ← prepareCall callee args isMethod a
  let _ ← Frame.emitCall a count n

def ofCall (exp : Exp) (callee : ExpCode) (args : List ExpCode) (isMethod : Bool) : ExpCode :=
  { plain exp (emitCall callee args isMethod) with
    prepare? := some (prepareCall callee args isMethod) }

def enterFunction (params : List String) (isVararg : Bool) : LowerM Unit := do
  modify (·.nest params.length isVararg)
  params.forM fun name => do let _ ← Frame.addLocal name 0

def leaveFunction (line : Nat) : LowerM Frame := fun ⟨frame, enclosing⟩ =>
  match enclosing with
  | [] => .error (.functionStackUnderflow line) ⟨frame, []⟩
  | parent :: outer => .ok frame ⟨parent, outer⟩

def emitFunction [NameOrder] (params : List String) (isVararg : Bool) (body : LowerM Unit) (a : Nat) : LowerM Unit := do
  let line := (← get).frame.line
  enterFunction params isVararg
  body
  Frame.exitScope
  let _ ← Frame.emitReturn 0 0
  let child ← leaveFunction line
  let index ← Frame.addFunction (child.toPrototype none)
  let _ ← Frame.emitAbx .closure a index

def batchSize : Nat := 50

def flushFields (a index : Nat) (toTop : Bool) : LowerM Unit := do
  let pending := if index % batchSize = 0 then batchSize else index % batchSize
  Frame.freeN pending
  let _ ← Frame.emitSetList a (if toTop then 0 else pending) ((index - 1) / batchSize + 1)

/-- Stores fields in order. Positional fields are gathered until a batch is full or the last one has come. -/
def emitFields (a positional : Nat) (openTail : Bool) : Nat → List (Option ExpCode) → List ExpCode → LowerM Unit
  | stored, none :: keys, value :: values => do
    let toTop := openTail && values.isEmpty
    let r ← Frame.alloc
    value.emit r (if toTop then -1 else 1)
    if (stored + 1) % batchSize = 0 ∨ stored + 1 = positional then
      flushFields a (stored + 1) toTop
    emitFields a positional openTail (stored + 1) keys values
  | stored, some key :: keys, value :: values => do
    let (key, value) ← scratch do
      let key ← key.toRk
      return (key, ← value.toRk)
    let _ ← Frame.emitAbc .setTable a key value
    emitFields a positional openTail stored keys values
  | _, _, _ => pure ()

def emitTable (keys : List (Option ExpCode)) (values : List ExpCode) (a : Nat) : LowerM Unit := do
  let positional := keys.countP (·.isNone)
  let openTail := keys.getLast?.any (·.isNone) && isOpen values
  let keyed ← Frame.difference values.length positional
  let _ ← Frame.emitNewTable a positional keyed
  emitFields a positional openTail 0 keys values

def emitUnop (op : UnOp) (operand : ExpCode) (a : Nat) : LowerM Unit := do
  let b ← scratch operand.toRegister
  let opcode := match op with
    | .neg => Opcode.unm
    | .bnot => .bnot
    | .not => .not
    | .len => .len
  let _ ← Frame.emitAbc opcode a b 0

def loadOperands : List (Nat → Int → LowerM Unit) → LowerM Unit
  | [] => pure ()
  | emit :: rest => do
    let r ← Frame.alloc
    emit r 1
    loadOperands rest

def emitConcat (operands : List (Nat → Int → LowerM Unit)) (a : Nat) : LowerM Unit := do
  let first ← used
  loadOperands operands
  let last ← Frame.difference (first + operands.length) 1
  Frame.freeN operands.length
  let _ ← Frame.emitAbc .concat a first last

def emitLogical (stopIf : Bool) (lhs rhs : ExpCode) (a : Nat) : LowerM Unit := do
  let b ← scratch lhs.toRegister
  let _ ← Frame.emitAbc .testSet a b stopIf.toNat
  let done ← Frame.emitJmp 0 0
  let b ← scratch rhs.toRegister
  let _ ← Frame.emitMove a b
  Frame.patchHere done

def toRks (lhs rhs : ExpCode) : LowerM (Nat × Nat) := scratch do
  let b ← lhs.toRk
  return (b, ← rhs.toRk)

/-- Compares and makes a boolean: the jump over the first load is taken if the comparison comes out as `expect`. -/
def emitComparison (opcode : Opcode) (expect x y a : Nat) : LowerM Unit := do
  let _ ← Frame.emitAbc opcode expect x y
  let _ ← Frame.emitJmp 0 1
  let _ ← Frame.emitLoadBool a 0 1
  let _ ← Frame.emitLoadBool a 1 0

def emitBinop (op : BinOp) (lhs rhs : ExpCode) (a : Nat) : LowerM Unit := do
  let arith (opcode : Opcode) : LowerM Unit := do
    let (b, c) ← toRks lhs rhs
    let _ ← Frame.emitAbc opcode a b c
  let compare (opcode : Opcode) (expect : Nat) (swap : Bool) : LowerM Unit := do
    let (b, c) ← toRks lhs rhs
    if swap then emitComparison opcode expect c b a else emitComparison opcode expect b c a
  match op with
  | .and => emitLogical false lhs rhs a
  | .or => emitLogical true lhs rhs a
  | .concat => emitConcat (lhs.operands ++ rhs.operands) a
  | op =>
    if op.isComparison then
      match op with
      | .eq => compare .eq 1 false
      | .notEq => compare .eq 0 false
      | .lt => compare .lt 1 false
      | .gt => compare .lt 1 true
      | .ltEq => compare .le 1 false
      | _ => compare .le 1 true
    else
      match op with
      | .add => arith .add
      | .sub => arith .sub
      | .mul => arith .mul
      | .div => arith .div
      | .idiv => arith .idiv
      | .mod => arith .mod
      | .pow => arith .pow
      | .shl => arith .shl
      | .shr => arith .shr
      | .band => arith .band
      | .bor => arith .bor
      | _ => arith .bxor

def ofBinop (exp : Exp) (op : BinOp) (lhs rhs : ExpCode) : ExpCode :=
  { plain exp (fun a _ => emitBinop op lhs rhs a) with
    operands :=
      if op = .concat then lhs.operands ++ rhs.operands else [fun a _ => emitBinop op lhs rhs a] }

end ExpCode

end LuaBytecode
