import LuaBytecode.Token.Basic

namespace LuaBytecode

inductive UnOp where
  | neg
  | bnot
  | not
  | len
  deriving DecidableEq, Repr

inductive BinOp where
  | add
  | sub
  | mul
  | div
  | idiv
  | mod
  | pow
  | concat
  | shl
  | shr
  | band
  | bor
  | bxor
  | eq
  | notEq
  | lt
  | ltEq
  | gt
  | gtEq
  | and
  | or
  deriving DecidableEq, Repr

namespace UnOp

def ofKind? : TokenKind → Option UnOp
  | .minus => some neg
  | .tilde => some bnot
  | .kwNot => some not
  | .hash => some len
  | _ => none

def power : Nat := 12

end UnOp

namespace BinOp

def ofKind? : TokenKind → Option BinOp
  | .plus => some add
  | .minus => some sub
  | .star => some mul
  | .slash => some div
  | .floorDiv => some idiv
  | .percent => some mod
  | .caret => some pow
  | .dotDot => some concat
  | .shiftLeft => some shl
  | .shiftRight => some shr
  | .ampersand => some band
  | .pipe => some bor
  | .tilde => some bxor
  | .equal => some eq
  | .notEqual => some notEq
  | .less => some lt
  | .lessEq => some ltEq
  | .greater => some gt
  | .greaterEq => some gtEq
  | .kwAnd => some and
  | .kwOr => some or
  | _ => none

/-- Binding power over the operand on the left. An operator is read only while its left power exceeds the limit. -/
def leftPower : BinOp → Nat
  | or => 1
  | and => 2
  | lt | gt | ltEq | gtEq | notEq | eq => 3
  | bor => 4
  | bxor => 5
  | band => 6
  | shl | shr => 7
  | concat => 9
  | add | sub => 10
  | mul | div | idiv | mod => 11
  | pow => 14

/-- Limit for the operand on the right. It is the left power, which groups to the left, except for `..` and `^`,
    which group to the right. -/
def rightPower : BinOp → Nat
  | concat => 8
  | pow => 13
  | op => op.leftPower

def isComparison : BinOp → Bool
  | eq | notEq | lt | ltEq | gt | gtEq => true
  | _ => false

end BinOp

end LuaBytecode
