import LuaBytecode.Lowering.Tree
import LuaBytecode.Proofs.Ast.Shape

namespace LuaBytecode

open Lowering

/-- Something to do around each step of lowering. It may look at the state before and after, and stop. -/
structure Monitor where
  exp : Exp → (Nat → Int → LowerM Unit) → Nat → Int → LowerM Unit
  stat : StatKind → LowerM Unit → LowerM Unit
  /-- Before a value that belongs into the first register is put into the second. -/
  slot : Nat → Nat → LowerM Unit
  finish : LowerM Unit := pure ()

def Monitor.idle : Monitor where
  exp _ emit := emit
  stat _ m := m
  slot _ _ := pure ()

namespace Lowering

def ensure (holds : Lowering → Bool) : LowerM Unit := fun s =>
  if holds s then .ok () s else .error (.registerUnderflow s.frame.line) s

theorem ensure_run {holds : Lowering → Bool} {s : Lowering} (h : holds s = true) : ensure holds s = .ok () s := by
  rw [ensure, if_pos h]

end Lowering

namespace ExpCode

def monitored (w : Monitor) (e : ExpCode) : ExpCode :=
  { e with
    emit := w.exp e.exp e.emit
    operands := if e.exp.isConcat then e.operands else [w.exp e.exp e.emit] }

def inSlot (w : Monitor) (r : Nat) (e : ExpCode) : ExpCode :=
  { e with emit := fun a n => do w.slot r a; e.emit a n }

def inSlots (w : Monitor) : Nat → List ExpCode → List ExpCode
  | _, [] => []
  | r, e :: rest => e.inSlot w r :: inSlots w (r + 1) rest

/-- Positional fields of a table in register `a` belong into the registers after it, one batch after another. -/
def fieldSlots (w : Monitor) (a : Nat) : Nat → List (Option ExpCode) → List ExpCode → List ExpCode
  | stored, none :: keys, value :: values =>
    value.inSlot w (a + 1 + stored % batchSize) :: fieldSlots w a (stored + 1) keys values
  | stored, some _ :: keys, value :: values => value :: fieldSlots w a stored keys values
  | _, [], values => values
  | _, _ :: _, [] => []

theorem inSlots_idle (r : Nat) (es : List ExpCode) : inSlots .idle r es = es := by
  induction es generalizing r with
  | nil => rfl
  | cons e rest ih =>
    rw [inSlots, ih]
    rfl

theorem fieldSlots_idle (a stored : Nat) (keys : List (Option ExpCode)) (values : List ExpCode) :
    fieldSlots .idle a stored keys values = values := by
  fun_induction fieldSlots Monitor.idle a stored keys values with
  | case1 stored keys value values ih =>
    rw [ih]
    rfl
  | case2 stored _ keys value values ih => rw [ih]
  | case3 => rfl
  | case4 => rfl

def ofMonitoredCall (w : Monitor) (exp : Exp) (callee : ExpCode) (args : List ExpCode) (isMethod : Bool) : ExpCode :=
  { plain exp (fun a n => emitCall callee (inSlots w (a + 1) args) isMethod a n) with
    prepare? := some fun a => prepareCall callee (inSlots w (a + 1) args) isMethod a }

def emitMonitoredFunction [NameOrder] (w : Monitor) (params : List String) (isVararg : Bool) (body : LowerM Unit) (a : Nat) :
    LowerM Unit := do
  let line := (← get).frame.line
  enterFunction params isVararg
  body
  Frame.exitScope
  let _ ← Frame.emitReturn 0 0
  w.finish
  let child ← leaveFunction line
  let index ← Frame.addFunction (child.toPrototype none)
  let _ ← Frame.emitAbx .closure a index

end ExpCode

namespace Lowering

def emitMonitoredCall (w : Monitor) (callee : ExpCode) (args : List ExpCode) (isMethod : Bool) : LowerM Unit := do
  let r ← Frame.alloc
  ExpCode.emitCall callee (ExpCode.inSlots w (r + 1) args) isMethod r 0
  Frame.free

def emitMonitoredLocalFunction [NameOrder] (w : Monitor) (name : String) (params : List String) (isVararg : Bool)
    (body : LowerM Unit) : LowerM Unit := do
  let r ← Frame.addLocal name ((← pc) + 1)
  ExpCode.emitMonitoredFunction w params isVararg body r

end Lowering

variable [NameOrder]

mutual

def Exp.monitored (w : Monitor) : Exp → ExpCode
  | .nil => ExpCode.ofNil.monitored w
  | .bool value => (ExpCode.ofBool value).monitored w
  | .integer value => (ExpCode.ofConstant (.integer value) (.integer value)).monitored w
  | .float value => (ExpCode.ofConstant (.float value) (.float value)).monitored w
  | .string value => (ExpCode.ofConstant (.string value) (.string value)).monitored w
  | .vararg => ExpCode.ofVararg.monitored w
  | .name name => (ExpCode.ofName name).monitored w
  | .index object key => (ExpCode.ofIndex (.index object key) (object.monitored w) (key.monitored w)).monitored w
  | .call callee args isMethod =>
    (ExpCode.ofMonitoredCall w (.call callee args isMethod) (callee.monitored w) (Exp.monitoredAll w args)
      isMethod).monitored w
  | .function params isVararg body =>
    (ExpCode.plain (.function params isVararg body) fun a _ =>
      ExpCode.emitMonitoredFunction w params isVararg (Block.monitored w body) a).monitored w
  | .table keys values =>
    (ExpCode.plain (.table keys values) fun a _ =>
      ExpCode.emitTable (Exp.monitoredKeys w keys)
        (ExpCode.fieldSlots w a 0 (Exp.monitoredKeys w keys) (Exp.monitoredAll w values)) a).monitored w
  | .paren inner => (ExpCode.plain (.paren inner) fun a _ => (inner.monitored w).emit a 1).monitored w
  | .unop op operand =>
    (ExpCode.plain (.unop op operand) fun a _ => ExpCode.emitUnop op (operand.monitored w) a).monitored w
  | .binop op lhs rhs => (ExpCode.ofBinop (.binop op lhs rhs) op (lhs.monitored w) (rhs.monitored w)).monitored w

def Exp.monitoredAll (w : Monitor) : List Exp → List ExpCode
  | [] => []
  | e :: rest => e.monitored w :: Exp.monitoredAll w rest

def Exp.monitored? (w : Monitor) : Option Exp → Option ExpCode
  | none => none
  | some e => some (e.monitored w)

def Exp.monitoredKeys (w : Monitor) : List (Option Exp) → List (Option ExpCode)
  | [] => []
  | key :: rest => Exp.monitored? w key :: Exp.monitoredKeys w rest

def StatKind.monitored (w : Monitor) : StatKind → LowerM Unit
  | .empty | .label _ => pure ()
  | .goto _ => do throw (.unsupported .goto (← get).frame.line)
  | .breakLoop => emitBreak
  | .doBlock body => inScope (Block.monitored w body)
  | .whileDo guard body => emitWhile (guard.monitored w) (Block.monitored w body)
  | .repeatUntil body guard => emitRepeat (Block.monitored w body) (guard.monitored w)
  | .ifThen guards blocks => emitIf (Exp.monitoredAll w guards) (Block.monitoredAll w blocks)
  | .numericFor var init limit step body =>
    emitNumericFor var (init.monitored w) (limit.monitored w) (Exp.monitored? w step) (Block.monitored w body)
  | .genericFor names exps body => emitGenericFor names (Exp.monitoredAll w exps) (Block.monitored w body)
  | .localDecl names exps => emitLocals names (Exp.monitoredAll w exps)
  | .localFunction name params isVararg body =>
    emitMonitoredLocalFunction w name params isVararg (Block.monitored w body)
  | .assign targets values => emitAssign (Exp.monitoredAll w targets) (Exp.monitoredAll w values)
  | .call callee args isMethod => emitMonitoredCall w (callee.monitored w) (Exp.monitoredAll w args) isMethod
  | .ret exps => emitReturn (Exp.monitoredAll w exps)

def Stat.monitored (w : Monitor) : Stat → LowerM Unit
  | .mk line kind => do
    Frame.setLine line
    w.stat kind (kind.monitored w)

def Block.monitored (w : Monitor) : List Stat → LowerM Unit
  | [] => pure ()
  | s :: rest => do
    s.monitored w
    Block.monitored w rest

def Block.monitoredAll (w : Monitor) : List (List Stat) → List (LowerM Unit)
  | [] => []
  | b :: rest => Block.monitored w b :: Block.monitoredAll w rest

end

open Monitor in
mutual

theorem Exp.monitored_idle : (e : Exp) → e.monitored idle = e.code
  | .nil | .bool _ | .integer _ | .float _ | .string _ | .vararg | .name _ => rfl
  | .index object key => by
    rw [Exp.monitored, Exp.code, object.monitored_idle, key.monitored_idle]
    rfl
  | .call callee args _ => by
    rw [Exp.monitored, Exp.code, callee.monitored_idle, Exp.monitoredAll_idle args]
    simp only [ExpCode.ofMonitoredCall, ExpCode.inSlots_idle]
    rfl
  | .function params _ body => by
    rw [Exp.monitored, Exp.code, Block.monitored_idle body]
    rfl
  | .table keys values => by
    rw [Exp.monitored, Exp.code, Exp.monitoredKeys_idle keys, Exp.monitoredAll_idle values]
    simp only [ExpCode.fieldSlots_idle]
    rfl
  | .paren inner => by
    rw [Exp.monitored, Exp.code, inner.monitored_idle]
    rfl
  | .unop _ operand => by
    rw [Exp.monitored, Exp.code, operand.monitored_idle]
    rfl
  | .binop op lhs rhs => by
    rw [Exp.monitored, Exp.code, lhs.monitored_idle, rhs.monitored_idle]
    cases op <;> rfl

theorem Exp.monitoredAll_idle : (exps : List Exp) → Exp.monitoredAll idle exps = Exp.codes exps []
  | [] => rfl
  | e :: rest => by
    rw [Exp.monitoredAll, e.monitored_idle, Exp.monitoredAll_idle rest, Exp.codes_eq, Exp.codes_eq]
    rfl

theorem Exp.monitored?_idle : (e? : Option Exp) → Exp.monitored? idle e? = Exp.code? e?
  | none => by rw [Exp.monitored?, Exp.code?]
  | some e => by rw [Exp.monitored?, Exp.code?, e.monitored_idle]

theorem Exp.monitoredKeys_idle : (keys : List (Option Exp)) →
    Exp.monitoredKeys idle keys = Exp.keyCodes keys []
  | [] => rfl
  | key :: rest => by
    rw [Exp.monitoredKeys, Exp.monitored?_idle key, Exp.monitoredKeys_idle rest, Exp.keyCodes_eq, Exp.keyCodes_eq]
    cases key <;> rfl

theorem StatKind.monitored_idle : (kind : StatKind) → kind.monitored idle = kind.code
  | .empty | .label _ | .goto _ | .breakLoop => rfl
  | .doBlock body => by rw [StatKind.monitored, StatKind.code, Block.monitored_idle body]
  | .whileDo guard body => by
    rw [StatKind.monitored, StatKind.code, guard.monitored_idle, Block.monitored_idle body]
  | .repeatUntil body guard => by
    rw [StatKind.monitored, StatKind.code, guard.monitored_idle, Block.monitored_idle body]
  | .ifThen guards blocks => by
    rw [StatKind.monitored, StatKind.code, Exp.monitoredAll_idle guards, Block.monitoredAll_idle blocks]
  | .numericFor _ init limit step body => by
    rw [StatKind.monitored, StatKind.code, init.monitored_idle, limit.monitored_idle, Exp.monitored?_idle step,
      Block.monitored_idle body]
  | .genericFor _ exps body => by
    rw [StatKind.monitored, StatKind.code, Exp.monitoredAll_idle exps, Block.monitored_idle body]
  | .localDecl _ exps => by
    rw [StatKind.monitored, StatKind.code, Exp.monitoredAll_idle exps]
  | .localFunction _ _ _ body => by
    rw [StatKind.monitored, StatKind.code, Block.monitored_idle body]
    rfl
  | .assign targets values => by
    rw [StatKind.monitored, StatKind.code, Exp.monitoredAll_idle targets, Exp.monitoredAll_idle values]
  | .call callee args _ => by
    rw [StatKind.monitored, StatKind.code, callee.monitored_idle, Exp.monitoredAll_idle args]
    simp only [emitMonitoredCall, ExpCode.inSlots_idle]
    rfl
  | .ret exps => by
    rw [StatKind.monitored, StatKind.code, Exp.monitoredAll_idle exps]

theorem Stat.monitored_idle : (s : Stat) → s.monitored idle = s.code
  | .mk _ kind => by
    rw [Stat.monitored, Stat.code, kind.monitored_idle]
    rfl

theorem Block.monitored_idle : (block : List Stat) → Block.monitored idle block = Block.code block
  | [] => by rw [Block.monitored, Block.code]
  | s :: rest => by rw [Block.monitored, Block.code, s.monitored_idle, Block.monitored_idle rest]

theorem Block.monitoredAll_idle : (blocks : List (List Stat)) → Block.monitoredAll idle blocks = Block.codes blocks []
  | [] => rfl
  | b :: rest => by
    rw [Block.monitoredAll, Block.monitored_idle b, Block.monitoredAll_idle rest, Block.codes_eq, Block.codes_eq]
    rfl

end

def Lowering.emitMonitoredChunk (w : Monitor) (body : LowerM Unit) : LowerM Unit := do
  emitChunk body
  w.finish

def Block.compileMonitored (w : Monitor) (block : Block) (name : String) : Except CodeError Prototype := do
  match emitMonitoredChunk w (Block.monitored w block) (← Lowering.ofChunk) with
  | .ok _ s => return s.frame.toPrototype (some name)
  | .error e _ => throw e

theorem Block.compileMonitored_idle (block : Block) (name : String) :
    block.compileMonitored .idle name = block.compile name := by
  have chunk : emitMonitoredChunk .idle (Block.code block) = emitChunk (Block.code block) := bind_pure _
  rw [Block.compileMonitored, Block.monitored_idle, chunk]
  rfl

end LuaBytecode
