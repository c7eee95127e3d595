import LuaBytecode.Proofs.Scoping.Basic

namespace LuaBytecode

open Lowering

namespace Scopes

def declare : Scopes → List String → Scopes
  | [], _ => []
  | current :: outer, names => (names.reverse ++ current) :: outer

def enter (Γ : Scopes) (params : List String) : Scopes := params.reverse :: Γ

/-- A chunk is a function inside another one whose only variable is the environment. -/
def ofChunk : Scopes := [[], [environment]]

end Scopes

def numericControls : List String := ["(for index)", "(for limit)", "(for step)"]

def genericControls : List String := ["(for generator)", "(for state)", "(for control)"]

def StatKind.declared : StatKind → List String
  | .localDecl names _ => names
  | .localFunction name .. => [name]
  | _ => []

def Block.scopes (Γ : Scopes) : Block → Scopes
  | [] => Γ
  | s :: rest => Block.scopes (Γ.declare s.kind.declared) rest

abbrev Observer := Scopes → String → LowerM Unit

def ExpCode.after (look : LowerM Unit) (e : ExpCode) : ExpCode where
  exp := e.exp
  emit a n := do look; e.emit a n
  operands := e.operands.map fun emit a n => do look; emit a n
  prepare? := e.prepare?.map fun prepare a => do look; prepare a
  method? := e.method?.map fun load a => do look; load a
  target := do look; e.target
  register? := do look; e.register?
  place? := do look; e.place?

mutual

/-- Lowers an expression, with a look at every name in it. Scopes are those of the source: a variable is in scope from
    the end of its declaration to the end of its block, a local function also in its own body, parameters and loop
    variables in the body, and the variables of a `repeat` body in its condition. -/
def Exp.observed (w : Observer) (Γ : Scopes) : Exp → ExpCode
  | .nil => .ofNil
  | .bool value => .ofBool value
  | .integer value => .ofConstant (.integer value) (.integer value)
  | .float value => .ofConstant (.float value) (.float value)
  | .string value => .ofConstant (.string value) (.string value)
  | .vararg => .ofVararg
  | .name name => (ExpCode.ofName name).after (w Γ name)
  | .index object key => .ofIndex (.index object key) (object.observed w Γ) (key.observed w Γ)
  | .call callee args isMethod =>
    .ofCall (.call callee args isMethod) (callee.observed w Γ) (Exp.observedAll w Γ args) isMethod
  | .function params isVararg body =>
    .plain (.function params isVararg body) fun a _ =>
      ExpCode.emitFunction params isVararg (Block.observed w (Γ.enter params) body) a
  | .table keys values =>
    .plain (.table keys values) fun a _ =>
      ExpCode.emitTable (Exp.observedKeys w Γ keys) (Exp.observedAll w Γ values) a
  | .paren inner => .plain (.paren inner) fun a _ => (inner.observed w Γ).emit a 1
  | .unop op operand => .plain (.unop op operand) fun a _ => ExpCode.emitUnop op (operand.observed w Γ) a
  | .binop op lhs rhs => .ofBinop (.binop op lhs rhs) op (lhs.observed w Γ) (rhs.observed w Γ)

def Exp.observedAll (w : Observer) (Γ : Scopes) : List Exp → List ExpCode
  | [] => []
  | e :: rest => e.observed w Γ :: Exp.observedAll w Γ rest

def Exp.observed? (w : Observer) (Γ : Scopes) : Option Exp → Option ExpCode
  | none => none
  | some e => some (e.observed w Γ)

def Exp.observedKeys (w : Observer) (Γ : Scopes) : List (Option Exp) → List (Option ExpCode)
  | [] => []
  | key :: rest => Exp.observed? w Γ key :: Exp.observedKeys w Γ rest

def StatKind.observed (w : Observer) (Γ : Scopes) : StatKind → LowerM Unit
  | .empty | .label _ => pure ()
  | .goto _ => do throw (.unsupported .goto (← get).frame.line)
  | .breakLoop => emitBreak
  | .doBlock body => inScope (Block.observed w Γ body)
  | .whileDo guard body => emitWhile (guard.observed w Γ) (Block.observed w Γ body)
  | .repeatUntil body guard => emitRepeat (Block.observed w Γ body) (guard.observed w (Block.scopes Γ body))
  | .ifThen guards blocks => emitIf (Exp.observedAll w Γ guards) (Block.observedAll w Γ blocks)
  | .numericFor var init limit step body =>
    emitNumericFor var (init.observed w Γ) (limit.observed w Γ) (Exp.observed? w Γ step)
      (Block.observed w ((Γ.declare numericControls).declare [var]) body)
  | .genericFor names exps body =>
    emitGenericFor names (Exp.observedAll w Γ exps)
      (Block.observed w ((Γ.declare genericControls).declare names) body)
  | .localDecl names exps => emitLocals names (Exp.observedAll w Γ exps)
  | .localFunction name params isVararg body =>
    emitLocalFunction name params isVararg (Block.observed w ((Γ.declare [name]).enter params) body)
  | .assign targets values => emitAssign (Exp.observedAll w Γ targets) (Exp.observedAll w Γ values)
  | .call callee args isMethod => emitCallStatement (callee.observed w Γ) (Exp.observedAll w Γ args) isMethod
  | .ret exps => emitReturn (Exp.observedAll w Γ exps)

def Stat.observed (w : Observer) (Γ : Scopes) : Stat → LowerM Unit
  | .mk line kind => do
    Frame.setLine line
    kind.observed w Γ

def Block.observed (w : Observer) (Γ : Scopes) : List Stat → LowerM Unit
  | [] => pure ()
  | s :: rest => do
    s.observed w Γ
    Block.observed w (Γ.declare s.kind.declared) rest

def Block.observedAll (w : Observer) (Γ : Scopes) : List (List Stat) → List (LowerM Unit)
  | [] => []
  | b :: rest => Block.observed w Γ b :: Block.observedAll w Γ rest

end

def Observer.silent : Observer := fun _ _ => pure ()

theorem ExpCode.after_pure (e : ExpCode) : e.after (pure ()) = e := by
  cases e with
  | mk exp emit operands prepare? method? target register? place? =>
    simp only [after, pure_bind, Option.map_id', List.map_id']

open Observer in
mutual

theorem Exp.observed_silent (Γ : Scopes) : (e : Exp) → e.observed silent Γ = e.code
  | .nil | .bool _ | .integer _ | .float _ | .string _ | .vararg => rfl
  | .name _ => ExpCode.after_pure _
  | .index object key => by
    rw [Exp.observed, Exp.code, object.observed_silent Γ, key.observed_silent Γ]
  | .call callee args _ => by
    rw [Exp.observed, Exp.code, callee.observed_silent Γ, Exp.observedAll_silent Γ args]
  | .function params _ body => by
    rw [Exp.observed, Exp.code, Block.observed_silent (Γ.enter params) body]
  | .table keys values => by
    rw [Exp.observed, Exp.code, Exp.observedKeys_silent Γ keys, Exp.observedAll_silent Γ values]
  | .paren inner => by
    rw [Exp.observed, Exp.code, inner.observed_silent Γ]
  | .unop _ operand => by
    rw [Exp.observed, Exp.code, operand.observed_silent Γ]
  | .binop _ lhs rhs => by
    rw [Exp.observed, Exp.code, lhs.observed_silent Γ, rhs.observed_silent Γ]

theorem Exp.observedAll_silent (Γ : Scopes) : (exps : List Exp) → Exp.observedAll silent Γ exps = Exp.codes exps []
  | [] => rfl
  | e :: rest => by
    rw [Exp.observedAll, e.observed_silent Γ, Exp.observedAll_silent Γ rest, Exp.codes_eq, Exp.codes_eq]
    rfl

theorem Exp.observed?_silent (Γ : Scopes) : (e? : Option Exp) → Exp.observed? silent Γ e? = Exp.code? e?
  | none => rfl
  | some e => by rw [Exp.observed?, Exp.code?, e.observed_silent Γ]

theorem Exp.observedKeys_silent (Γ : Scopes) :
    (keys : List (Option Exp)) → Exp.observedKeys silent Γ keys = Exp.keyCodes keys []
  | [] => rfl
  | key :: rest => by
    rw [Exp.observedKeys, Exp.observed?_silent Γ key, Exp.observedKeys_silent Γ rest, Exp.keyCodes_eq, Exp.keyCodes_eq]
    cases key <;> rfl

theorem StatKind.observed_silent (Γ : Scopes) : (kind : StatKind) → kind.observed silent Γ = kind.code
  | .empty | .label _ | .goto _ | .breakLoop => rfl
  | .doBlock body => by
    rw [StatKind.observed, StatKind.code, Block.observed_silent Γ body]
  | .whileDo guard body => by
    rw [StatKind.observed, StatKind.code, guard.observed_silent Γ, Block.observed_silent Γ body]
  | .repeatUntil body guard => by
    rw [StatKind.observed, StatKind.code, guard.observed_silent _, Block.observed_silent Γ body]
  | .ifThen guards blocks => by
    rw [StatKind.observed, StatKind.code, Exp.observedAll_silent Γ guards, Block.observedAll_silent Γ blocks]
  | .numericFor _ init limit step body => by
    rw [StatKind.observed, StatKind.code, init.observed_silent Γ, limit.observed_silent Γ, Exp.observed?_silent Γ step,
      Block.observed_silent _ body]
  | .genericFor _ exps body => by
    rw [StatKind.observed, StatKind.code, Exp.observedAll_silent Γ exps, Block.observed_silent _ body]
  | .localDecl _ exps => by
    rw [StatKind.observed, StatKind.code, Exp.observedAll_silent Γ exps]
  | .localFunction _ _ _ body => by
    rw [StatKind.observed, StatKind.code, Block.observed_silent _ body]
  | .assign targets values => by
    rw [StatKind.observed, StatKind.code, Exp.observedAll_silent Γ targets, Exp.observedAll_silent Γ values]
  | .call callee args _ => by
    rw [StatKind.observed, StatKind.code, callee.observed_silent Γ, Exp.observedAll_silent Γ args]
  | .ret exps => by
    rw [StatKind.observed, StatKind.code, Exp.observedAll_silent Γ exps]

theorem Stat.observed_silent (Γ : Scopes) : (s : Stat) → s.observed silent Γ = s.code
  | .mk _ kind => by rw [Stat.observed, Stat.code, kind.observed_silent Γ]

theorem Block.observed_silent (Γ : Scopes) : (block : List Stat) → Block.observed silent Γ block = Block.code block
  | [] => by rw [Block.observed, Block.code]
  | s :: rest => by
    rw [Block.observed, Block.code, s.observed_silent Γ, Block.observed_silent _ rest]

theorem Block.observedAll_silent (Γ : Scopes) :
    (blocks : List (List Stat)) → Block.observedAll silent Γ blocks = Block.codes blocks []
  | [] => rfl
  | b :: rest => by
    rw [Block.observedAll, Block.observed_silent Γ b, Block.observedAll_silent Γ rest, Block.codes_eq, Block.codes_eq]
    rfl

end

end LuaBytecode
