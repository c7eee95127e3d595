import LuaBytecode.Ast.Operator
import LuaBytecode.Binary64.Basic

namespace LuaBytecode

mutual

/-- Expressions. A call `o:m(x)` is the call of `o["m"]` with `o` in front of the arguments, marked as a method call.
    Keys and values of a table are parallel, and an absent key stands for the next position. -/
inductive Exp where
  | nil
  | bool (value : Bool)
  | integer (value : Int64)
  | float (value : Binary64)
  | string (value : String)
  | vararg
  | name (name : String)
  | index (object key : Exp)
  | call (callee : Exp) (args : List Exp) (isMethod : Bool)
  | function (params : List String) (isVararg : Bool) (body : List Stat)
  | table (keys : List (Option Exp)) (values : List Exp)
  /-- Parentheses cut a list of results to one. -/
  | paren (inner : Exp)
  | unop (op : UnOp) (operand : Exp)
  | binop (op : BinOp) (lhs rhs : Exp)

/-- Statements. Guards and blocks of a conditional are parallel, and the guard of an `else` is `true`. -/
inductive StatKind where
  | empty
  | breakLoop
  | label (name : String)
  | goto (name : String)
  | doBlock (body : List Stat)
  | whileDo (guard : Exp) (body : List Stat)
  | repeatUntil (body : List Stat) (guard : Exp)
  | ifThen (guards : List Exp) (blocks : List (List Stat))
  | numericFor (var : String) (init limit : Exp) (step : Option Exp) (body : List Stat)
  | genericFor (names : List String) (exps : List Exp) (body : List Stat)
  | localDecl (names : List String) (exps : List Exp)
  /-- The name is visible in the body. -/
  | localFunction (name : String) (params : List String) (isVararg : Bool) (body : List Stat)
  | assign (targets values : List Exp)
  | call (callee : Exp) (args : List Exp) (isMethod : Bool)
  | ret (exps : List Exp)

/-- A statement and the line it starts on. -/
inductive Stat where
  | mk (line : Nat) (kind : StatKind)

end

abbrev Block := List Stat

namespace Exp

/-- Calls and `...` give any number of values. -/
def isMulti : Exp → Bool
  | call .. | vararg => true
  | _ => false

def isVar : Exp → Bool
  | name _ | index .. => true
  | _ => false

def isNil : Exp → Bool
  | nil => true
  | _ => false

end Exp

namespace Stat

def line : Stat → Nat
  | mk line _ => line

def kind : Stat → StatKind
  | mk _ kind => kind

end Stat

end LuaBytecode
