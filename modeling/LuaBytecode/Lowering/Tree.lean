import LuaBytecode.Lowering.Statement

namespace LuaBytecode

open Lowering

variable [NameOrder]

mutual

def Exp.code : Exp → ExpCode
  | .nil => .ofNil
  | .bool value => .ofBool value
  | .integer value => .ofConstant (.integer value) (.integer value)
  | .float value => .ofConstant (.float value) (.float value)
  | .string value => .ofConstant (.string value) (.string value)
  | .vararg => .ofVararg
  | .name name => .ofName name
  | .index object key => .ofIndex (.index object key) object.code key.code
  | .call callee args isMethod => .ofCall (.call callee args isMethod) callee.code (Exp.codes args []) isMethod
  | .function params isVararg body =>
    .plain (.function params isVararg body) fun a _ => ExpCode.emitFunction params isVararg (Block.code body) a
  | .table keys values =>
    let keyCodes := Exp.keyCodes keys []
    let valueCodes := Exp.codes values []
    .plain (.table keys values) fun a _ => ExpCode.emitTable keyCodes valueCodes a
  | .paren inner =>
    let code := inner.code
    .plain (.paren inner) fun a _ => code.emit a 1
  | .unop op operand =>
    let code := operand.code
    .plain (.unop op operand) fun a _ => ExpCode.emitUnop op code a
  | .binop op lhs rhs => .ofBinop (.binop op lhs rhs) op lhs.code rhs.code

/-- The codes of a list after those collected so far, which are kept last first. -/
def Exp.codes : List Exp → List ExpCode → List ExpCode
  | [], done => done.reverse
  | e :: rest, done => Exp.codes rest (e.code :: done)

def Exp.code? : Option Exp → Option ExpCode
  | none => none
  | some e => some e.code

def Exp.keyCodes : List (Option Exp) → List (Option ExpCode) → List (Option ExpCode)
  | [], done => done.reverse
  | key :: rest, done => Exp.keyCodes rest (Exp.code? key :: done)

def StatKind.code : StatKind → LowerM Unit
  | .empty | .label _ => pure ()
  | .goto _ => do throw (.unsupported .goto (← get).frame.line)
  | .breakLoop => emitBreak
  | .doBlock body => inScope (Block.code body)
  | .whileDo guard body => emitWhile guard.code (Block.code body)
  | .repeatUntil body guard => emitRepeat (Block.code body) guard.code
  | .ifThen guards blocks => emitIf (Exp.codes guards []) (Block.codes blocks [])
  | .numericFor var init limit step body =>
    emitNumericFor var init.code limit.code (Exp.code? step) (Block.code body)
  | .genericFor names exps body => emitGenericFor names (Exp.codes exps []) (Block.code body)
  | .localDecl names exps => emitLocals names (Exp.codes exps [])
  | .localFunction name params isVararg body => emitLocalFunction name params isVararg (Block.code body)
  | .assign targets values => emitAssign (Exp.codes targets []) (Exp.codes values [])
  | .call callee args isMethod => emitCallStatement callee.code (Exp.codes args []) isMethod
  | .ret exps => emitReturn (Exp.codes exps [])

def Stat.code : Stat → LowerM Unit
  | .mk line kind => do
    Frame.setLine line
    kind.code

def Block.code : List Stat → LowerM Unit
  | [] => pure ()
  | s :: rest => do
    s.code
    Block.code rest

def Block.codes : List (List Stat) → List (LowerM Unit) → List (LowerM Unit)
  | [], done => done.reverse
  | b :: rest, done => Block.codes rest (Block.code b :: done)

end

@[simp] theorem Exp.code_exp (e : Exp) : e.code.exp = e := by
  cases e <;> rfl

theorem Exp.codes_eq (exps : List Exp) (done : List ExpCode) :
    Exp.codes exps done = done.reverse ++ exps.map Exp.code := by
  induction exps generalizing done with
  | nil => simp [Exp.codes]
  | cons e rest ih => simp [Exp.codes, ih]

theorem Exp.keyCodes_eq (keys : List (Option Exp)) (done : List (Option ExpCode)) :
    Exp.keyCodes keys done = done.reverse ++ keys.map (Option.map Exp.code) := by
  induction keys generalizing done with
  | nil => simp [Exp.keyCodes]
  | cons key rest ih => cases key <;> simp [Exp.keyCodes, Exp.code?, ih]

theorem Block.codes_eq (blocks : List (List Stat)) (done : List (LowerM Unit)) :
    Block.codes blocks done = done.reverse ++ blocks.map Block.code := by
  induction blocks generalizing done with
  | nil => simp [Block.codes]
  | cons body rest ih => simp [Block.codes, ih]

namespace Lowering

def ofChunk : Except CodeError Lowering :=
  match Frame.addLocal environment 0 (Frame.new 0 false 0) with
  | .ok _ entry => .ok ⟨Frame.new 0 true 0, [entry]⟩
  | .error e _ => .error e

def emitChunk (body : LowerM Unit) : LowerM Unit := do
  let _ ← upvalue? environment
  body
  Frame.exitScope
  let _ ← Frame.emitReturn 0 0

end Lowering

def Block.compile (block : Block) (name : String) : Except CodeError Prototype := do
  match emitChunk (Block.code block) (← Lowering.ofChunk) with
  | .ok _ s => return s.frame.toPrototype (some name)
  | .error e _ => throw e

end LuaBytecode
