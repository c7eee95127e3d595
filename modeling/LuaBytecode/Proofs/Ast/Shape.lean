import LuaBytecode.Ast.Basic
import LuaBytecode.Token.Cursor

namespace LuaBytecode

/-- A word of letters, digits and underscores that does not start with a digit and is no keyword. -/
def IsIdentifier (word : String) : Prop :=
  ∃ b rest, Byte.isNameStart b = true ∧ (∀ c ∈ rest, Byte.isName c = true) ∧ word = ofAscii (b :: rest) ∧
    TokenKind.keyword? word = none

def Exp.isPrefixExp : Exp → Bool
  | .name _ | .index .. | .call .. | .paren _ => true
  | _ => false

def Exp.isConcat : Exp → Bool
  | .binop .concat _ _ => true
  | _ => false

def StatKind.isReturn : StatKind → Bool
  | .ret _ => true
  | _ => false

/-- A function as it is written: its parameters, whether `...` ends them, and its body. -/
structure FunctionDef where
  params : List String
  isVararg : Bool
  body : Block

mutual

/-- Trees as the grammar builds them, whose functions are all among `D`. A chain of `..` leans to the right. -/
inductive Exp.Shaped (D : FunctionDef → Prop) : Exp → Prop
  | nil : Exp.Shaped D .nil
  | bool (value : Bool) : Exp.Shaped D (.bool value)
  | integer (value : Int64) : Exp.Shaped D (.integer value)
  | float (value : Binary64) : Exp.Shaped D (.float value)
  | string (value : String) : Exp.Shaped D (.string value)
  | vararg : Exp.Shaped D .vararg
  | name {x : String} : IsIdentifier x → Exp.Shaped D (.name x)
  | index {object key : Exp} : object.isPrefixExp = true → Exp.Shaped D object → Exp.Shaped D key →
    Exp.Shaped D (.index object key)
  | call {callee : Exp} {args : List Exp} : callee.isPrefixExp = true → Exp.Shaped D callee →
    (∀ e ∈ args, Exp.Shaped D e) → Exp.Shaped D (.call callee args false)
  | method {object : Exp} {m : String} {args : List Exp} : object.isPrefixExp = true → Exp.Shaped D object →
    IsIdentifier m → (∀ e ∈ args, Exp.Shaped D e) →
    Exp.Shaped D (.call (.index object (.string m)) (object :: args) true)
  | function {params : List String} {isVararg : Bool} {body : Block} : D ⟨params, isVararg, body⟩ →
    (∀ x ∈ params, IsIdentifier x) → Block.Shaped D body → Exp.Shaped D (.function params isVararg body)
  | table {keys : List (Option Exp)} {values : List Exp} : keys.length = values.length →
    (∀ k, some k ∈ keys → Exp.Shaped D k) → (∀ v ∈ values, Exp.Shaped D v) → Exp.Shaped D (.table keys values)
  | paren {inner : Exp} : Exp.Shaped D inner → Exp.Shaped D (.paren inner)
  | unop {op : UnOp} {operand : Exp} : Exp.Shaped D operand → Exp.Shaped D (.unop op operand)
  | binop {op : BinOp} {lhs rhs : Exp} : (op = .concat → lhs.isConcat = false) → Exp.Shaped D lhs →
    Exp.Shaped D rhs → Exp.Shaped D (.binop op lhs rhs)

inductive StatKind.Shaped (D : FunctionDef → Prop) : StatKind → Prop
  | empty : StatKind.Shaped D .empty
  | breakLoop : StatKind.Shaped D .breakLoop
  | label {x : String} : IsIdentifier x → StatKind.Shaped D (.label x)
  | goto {x : String} : IsIdentifier x → StatKind.Shaped D (.goto x)
  | doBlock {body : Block} : Block.Shaped D body → StatKind.Shaped D (.doBlock body)
  | whileDo {guard : Exp} {body : Block} : Exp.Shaped D guard → Block.Shaped D body →
    StatKind.Shaped D (.whileDo guard body)
  | repeatUntil {body : Block} {guard : Exp} : Block.Shaped D body → Exp.Shaped D guard →
    StatKind.Shaped D (.repeatUntil body guard)
  | ifThen {guards : List Exp} {blocks : List Block} : guards.length = blocks.length → guards ≠ [] →
    (∀ g ∈ guards, Exp.Shaped D g) → (∀ b ∈ blocks, Block.Shaped D b) → StatKind.Shaped D (.ifThen guards blocks)
  | numericFor {var : String} {init limit : Exp} {step : Option Exp} {body : Block} : IsIdentifier var →
    Exp.Shaped D init → Exp.Shaped D limit → (∀ e ∈ step, Exp.Shaped D e) → Block.Shaped D body →
    StatKind.Shaped D (.numericFor var init limit step body)
  | genericFor {names : List String} {exps : List Exp} {body : Block} : names ≠ [] → (∀ x ∈ names, IsIdentifier x) →
    exps ≠ [] → (∀ e ∈ exps, Exp.Shaped D e) → Block.Shaped D body → StatKind.Shaped D (.genericFor names exps body)
  | localDecl {names : List String} {exps : List Exp} : names ≠ [] → (∀ x ∈ names, IsIdentifier x) →
    (∀ e ∈ exps, Exp.Shaped D e) → StatKind.Shaped D (.localDecl names exps)
  | localFunction {f : String} {params : List String} {isVararg : Bool} {body : Block} : IsIdentifier f →
    D ⟨params, isVararg, body⟩ → (∀ x ∈ params, IsIdentifier x) → Block.Shaped D body →
    StatKind.Shaped D (.localFunction f params isVararg body)
  | assign {targets values : List Exp} : targets ≠ [] → (∀ t ∈ targets, t.isVar = true) →
    (∀ t ∈ targets, Exp.Shaped D t) → values ≠ [] → (∀ v ∈ values, Exp.Shaped D v) →
    StatKind.Shaped D (.assign targets values)
  | call {callee : Exp} {args : List Exp} {isMethod : Bool} : Exp.Shaped D (.call callee args isMethod) →
    StatKind.Shaped D (.call callee args isMethod)
  | ret {exps : List Exp} : (∀ e ∈ exps, Exp.Shaped D e) → StatKind.Shaped D (.ret exps)

inductive Block.Shaped (D : FunctionDef → Prop) : Block → Prop
  | nil : Block.Shaped D []
  | cons {line : Nat} {kind : StatKind} {rest : Block} : StatKind.Shaped D kind →
    (kind.isReturn = true → rest = []) → Block.Shaped D rest → Block.Shaped D (.mk line kind :: rest)

end

theorem Exp.Shaped.ofCall {D : FunctionDef → Prop} {callee : Exp} {args : List Exp} {isMethod : Bool}
    (h : (Exp.call callee args isMethod).Shaped D) : callee.Shaped D ∧ ∀ e ∈ args, e.Shaped D := by
  cases h with
  | call _ callee args => exact ⟨callee, args⟩
  | method isPrefix object _ args =>
    refine ⟨.index isPrefix object (.string _), fun e member => ?_⟩
    rcases List.mem_cons.mp member with rfl | member
    · exact object
    · exact args e member

abbrev Exp.Grammatical (e : Exp) : Prop := e.Shaped fun _ => True

abbrev StatKind.Grammatical (kind : StatKind) : Prop := kind.Shaped fun _ => True

abbrev Block.Grammatical (block : Block) : Prop := Block.Shaped (fun _ => True) block

end LuaBytecode
