import LuaBytecode.Ast.Basic

namespace LuaBytecode

namespace UnOp

def kind : UnOp → TokenKind
  | neg => .minus
  | bnot => .tilde
  | not => .kwNot
  | len => .hash

end UnOp

namespace BinOp

def kind : BinOp → TokenKind
  | add => .plus
  | sub => .minus
  | mul => .star
  | div => .slash
  | idiv => .floorDiv
  | mod => .percent
  | pow => .caret
  | concat => .dotDot
  | shl => .shiftLeft
  | shr => .shiftRight
  | band => .ampersand
  | bor => .pipe
  | bxor => .tilde
  | eq => .equal
  | notEq => .notEqual
  | lt => .less
  | ltEq => .lessEq
  | gt => .greater
  | gtEq => .greaterEq
  | and => .kwAnd
  | or => .kwOr

theorem ofKind?_eq_some {k : TokenKind} {op : BinOp} (h : ofKind? k = some op) : k = op.kind := by
  revert h
  cases k <;> simp only [ofKind?, Option.some.injEq, reduceCtorEq, false_imp_iff] <;> rintro rfl <;> rfl

end BinOp

namespace Token

def ofKind (kind : TokenKind) : Token := ⟨kind, 1, some kind.spelling⟩

def ofName (x : String) : Token := ⟨.identifier, 1, some x⟩

def ofInteger (value : Int64) : Token :=
  ⟨.number, 1, some ("0x" ++ String.ofList (Nat.toDigits 16 value.toUInt64.toNat))⟩

def ofString (contents : String) : Token := ⟨.string, 1, some contents⟩

def commas : List (List Token) → List Token
  | [] => []
  | ts :: rest => ts ++ rest.flatMap (.ofKind .comma :: ·)

def names (xs : List String) : List Token := commas (xs.map fun x => [ofName x])

def ofField : Option (List Token) → List Token → List Token
  | none, value => value
  | some key, value => .ofKind .lbracket :: (key ++ .ofKind .rbracket :: .ofKind .assign :: value)

def ofParams (params : List String) (isVararg : Bool) : List Token :=
  commas (params.map (fun x => [ofName x]) ++ if isVararg then [[.ofKind .vararg]] else [])

def ofFunction (params : List String) (isVararg : Bool) (body : List Token) : List Token :=
  .ofKind .lparen :: (ofParams params isVararg ++ .ofKind .rparen :: (body ++ [.ofKind .kwEnd]))

def ofArgs (args : List (List Token)) : List Token := .ofKind .lparen :: (commas args ++ [.ofKind .rparen])

/-- A method call leaves out its first argument, the receiver. -/
def ofCall (isMethod : Bool) (callee method : List Token) (args : List (List Token)) : List Token :=
  if isMethod then method ++ ofArgs args.tail else callee ++ ofArgs args

def ofArms (guards blocks : List (List Token)) : List Token :=
  (List.zipWith (fun guard body => .ofKind .kwElseIf :: (guard ++ .ofKind .kwThen :: body)) guards blocks).flatten

def ofConditional : List (List Token) → List (List Token) → List Token
  | guard :: guards, body :: blocks =>
    .ofKind .kwIf :: (guard ++ .ofKind .kwThen :: (body ++ (ofArms guards blocks ++ [.ofKind .kwEnd])))
  | _, _ => []

def ofLoopBody (body : List Token) : List Token := .ofKind .kwDo :: (body ++ [.ofKind .kwEnd])

def ofStep : Option (List Token) → List Token
  | none => []
  | some step => .ofKind .comma :: step

def ofLocals (xs : List String) : List (List Token) → List Token
  | [] => names xs
  | exps => names xs ++ .ofKind .assign :: commas exps

end Token

open Token

mutual

/-- An expression in long form: a name after a dot becomes a key, arguments stand in parentheses, and there are no
    parentheses but those of the tree. There are no words for a float. -/
def Exp.words : Exp → List Token
  | .nil => [ofKind .kwNil]
  | .bool value => [ofKind (if value then .kwTrue else .kwFalse)]
  | .integer value => [ofInteger value]
  | .float _ => []
  | .string value => [ofString value]
  | .vararg => [ofKind .vararg]
  | .name x => [ofName x]
  | .index object key => object.words ++ ofKind .lbracket :: (key.words ++ [ofKind .rbracket])
  | .call callee args isMethod => ofCall isMethod callee.words callee.methodWords (Exp.wordLists args)
  | .function params isVararg body => ofKind .kwFunction :: ofFunction params isVararg (Block.words body)
  | .table keys values =>
    ofKind .lbrace ::
      (commas (List.zipWith ofField (Exp.keyWords keys) (Exp.wordLists values)) ++ [ofKind .rbrace])
  | .paren inner => ofKind .lparen :: (inner.words ++ [ofKind .rparen])
  | .unop op operand => ofKind op.kind :: operand.words
  | .binop op lhs rhs => lhs.words ++ ofKind op.kind :: rhs.words

def Exp.methodWords : Exp → List Token
  | .index object (.string method) => object.words ++ [ofKind .colon, ofName method]
  | _ => []

def Exp.wordLists : List Exp → List (List Token)
  | [] => []
  | e :: rest => e.words :: Exp.wordLists rest

def Exp.words? : Option Exp → Option (List Token)
  | none => none
  | some e => some e.words

def Exp.keyWords : List (Option Exp) → List (Option (List Token))
  | [] => []
  | key :: rest => Exp.words? key :: Exp.keyWords rest

def StatKind.words : StatKind → List Token
  | .empty => [ofKind .semi]
  | .breakLoop => [ofKind .kwBreak]
  | .label x => [ofKind .doubleColon, ofName x, ofKind .doubleColon]
  | .goto x => [ofKind .kwGoto, ofName x]
  | .doBlock body => ofLoopBody (Block.words body)
  | .whileDo guard body => ofKind .kwWhile :: (guard.words ++ ofLoopBody (Block.words body))
  | .repeatUntil body guard => ofKind .kwRepeat :: (Block.words body ++ ofKind .kwUntil :: guard.words)
  | .ifThen guards blocks => ofConditional (Exp.wordLists guards) (Block.wordLists blocks)
  | .numericFor var init limit step body =>
    ofKind .kwFor :: ofName var :: ofKind .assign :: (init.words ++ ofKind .comma ::
      (limit.words ++ (ofStep (Exp.words? step) ++ ofLoopBody (Block.words body))))
  | .genericFor xs exps body =>
    ofKind .kwFor :: (names xs ++ ofKind .kwIn :: (commas (Exp.wordLists exps) ++ ofLoopBody (Block.words body)))
  | .localDecl xs exps => ofKind .kwLocal :: ofLocals xs (Exp.wordLists exps)
  | .localFunction f params isVararg body =>
    ofKind .kwLocal :: ofKind .kwFunction :: ofName f :: ofFunction params isVararg (Block.words body)
  | .assign targets values =>
    commas (Exp.wordLists targets) ++ ofKind .assign :: commas (Exp.wordLists values)
  | .call callee args isMethod => ofCall isMethod callee.words callee.methodWords (Exp.wordLists args)
  | .ret exps => ofKind .kwReturn :: commas (Exp.wordLists exps)

def Stat.words : Stat → List Token
  | .mk _ kind => kind.words

def Block.words : List Stat → List Token
  | [] => []
  | s :: rest => s.words ++ Block.words rest

def Block.wordLists : List (List Stat) → List (List Token)
  | [] => []
  | body :: rest => Block.words body :: Block.wordLists rest

end

theorem Exp.words_call (callee : Exp) (args : List Exp) :
    (Exp.call callee args false).words = callee.words ++ ofArgs (Exp.wordLists args) := by
  rw [Exp.words]
  rfl

theorem Exp.words_method (object : Exp) (method : String) (args : List Exp) :
    (Exp.call (.index object (.string method)) (object :: args) true).words =
      object.words ++ ofKind .colon :: ofName method :: ofArgs (Exp.wordLists args) := by
  rw [Exp.words, Exp.methodWords, Exp.wordLists]
  simp [ofCall]

theorem StatKind.words_call (callee : Exp) (args : List Exp) (isMethod : Bool) :
    (StatKind.call callee args isMethod).words = (Exp.call callee args isMethod).words := by
  rw [StatKind.words, Exp.words]

mutual

def Exp.atLine (line : Nat) : Exp → Exp
  | .nil => .nil
  | .bool value => .bool value
  | .integer value => .integer value
  | .float value => .float value
  | .string value => .string value
  | .vararg => .vararg
  | .name x => .name x
  | .index object key => .index (object.atLine line) (key.atLine line)
  | .call callee args isMethod => .call (callee.atLine line) (Exp.listAtLine line args) isMethod
  | .function params isVararg body => .function params isVararg (Block.atLine line body)
  | .table keys values => .table (Exp.keysAtLine line keys) (Exp.listAtLine line values)
  | .paren inner => .paren (inner.atLine line)
  | .unop op operand => .unop op (operand.atLine line)
  | .binop op lhs rhs => .binop op (lhs.atLine line) (rhs.atLine line)

def Exp.listAtLine (line : Nat) : List Exp → List Exp
  | [] => []
  | e :: rest => e.atLine line :: Exp.listAtLine line rest

def Exp.atLine? (line : Nat) : Option Exp → Option Exp
  | none => none
  | some e => some (e.atLine line)

def Exp.keysAtLine (line : Nat) : List (Option Exp) → List (Option Exp)
  | [] => []
  | key :: rest => Exp.atLine? line key :: Exp.keysAtLine line rest

def StatKind.atLine (line : Nat) : StatKind → StatKind
  | .empty => .empty
  | .breakLoop => .breakLoop
  | .label x => .label x
  | .goto x => .goto x
  | .doBlock body => .doBlock (Block.atLine line body)
  | .whileDo guard body => .whileDo (guard.atLine line) (Block.atLine line body)
  | .repeatUntil body guard => .repeatUntil (Block.atLine line body) (guard.atLine line)
  | .ifThen guards blocks => .ifThen (Exp.listAtLine line guards) (Block.listAtLine line blocks)
  | .numericFor var init limit step body =>
    .numericFor var (init.atLine line) (limit.atLine line) (Exp.atLine? line step) (Block.atLine line body)
  | .genericFor xs exps body => .genericFor xs (Exp.listAtLine line exps) (Block.atLine line body)
  | .localDecl xs exps => .localDecl xs (Exp.listAtLine line exps)
  | .localFunction f params isVararg body => .localFunction f params isVararg (Block.atLine line body)
  | .assign targets values => .assign (Exp.listAtLine line targets) (Exp.listAtLine line values)
  | .call callee args isMethod => .call (callee.atLine line) (Exp.listAtLine line args) isMethod
  | .ret exps => .ret (Exp.listAtLine line exps)

def Stat.atLine (line : Nat) : Stat → Stat
  | .mk _ kind => .mk line (kind.atLine line)

def Block.atLine (line : Nat) : List Stat → List Stat
  | [] => []
  | s :: rest => s.atLine line :: Block.atLine line rest

def Block.listAtLine (line : Nat) : List (List Stat) → List (List Stat)
  | [] => []
  | body :: rest => Block.atLine line body :: Block.listAtLine line rest

end

theorem Exp.listAtLine_eq (line : Nat) (exps : List Exp) : Exp.listAtLine line exps = exps.map (Exp.atLine line) := by
  induction exps with
  | nil => rfl
  | cons e rest ih => rw [listAtLine, ih, List.map_cons]

theorem Exp.keysAtLine_eq (line : Nat) (keys : List (Option Exp)) :
    Exp.keysAtLine line keys = keys.map (Exp.atLine? line) := by
  induction keys with
  | nil => rfl
  | cons key rest ih => rw [keysAtLine, ih, List.map_cons]

theorem Block.atLine_eq (line : Nat) (block : Block) : Block.atLine line block = block.map (Stat.atLine line) := by
  induction block with
  | nil => rfl
  | cons s rest ih => rw [atLine, ih, List.map_cons]

theorem Block.listAtLine_eq (line : Nat) (blocks : List Block) :
    Block.listAtLine line blocks = blocks.map (Block.atLine line) := by
  induction blocks with
  | nil => rfl
  | cons body rest ih => rw [listAtLine, ih, List.map_cons]

theorem Exp.isVar_atLine (e : Exp) (line : Nat) : (e.atLine line).isVar = e.isVar := by
  cases e <;> rfl

theorem Exp.all_isVar_atLine (es : List Exp) (line : Nat) :
    (Exp.listAtLine line es).all Exp.isVar = es.all Exp.isVar := by
  induction es with
  | nil => rfl
  | cons e es ih => rw [Exp.listAtLine, List.all_cons, List.all_cons, Exp.isVar_atLine, ih]

mutual

def Exp.hasFloat : Exp → Bool
  | .float _ => true
  | .nil | .bool _ | .integer _ | .string _ | .vararg | .name _ => false
  | .index object key => object.hasFloat || key.hasFloat
  | .call callee args _ => callee.hasFloat || Exp.anyFloat args
  | .function _ _ body => Block.hasFloat body
  | .table keys values => Exp.keysHaveFloat keys || Exp.anyFloat values
  | .paren inner => inner.hasFloat
  | .unop _ operand => operand.hasFloat
  | .binop _ lhs rhs => lhs.hasFloat || rhs.hasFloat

def Exp.anyFloat : List Exp → Bool
  | [] => false
  | e :: rest => e.hasFloat || Exp.anyFloat rest

def Exp.hasFloat? : Option Exp → Bool
  | none => false
  | some e => e.hasFloat

def Exp.keysHaveFloat : List (Option Exp) → Bool
  | [] => false
  | key :: rest => Exp.hasFloat? key || Exp.keysHaveFloat rest

def StatKind.hasFloat : StatKind → Bool
  | .empty | .breakLoop | .label _ | .goto _ => false
  | .doBlock body => Block.hasFloat body
  | .whileDo guard body => guard.hasFloat || Block.hasFloat body
  | .repeatUntil body guard => Block.hasFloat body || guard.hasFloat
  | .ifThen guards blocks => Exp.anyFloat guards || Block.anyFloat blocks
  | .numericFor _ init limit step body =>
    init.hasFloat || limit.hasFloat || Exp.hasFloat? step || Block.hasFloat body
  | .genericFor _ exps body => Exp.anyFloat exps || Block.hasFloat body
  | .localDecl _ exps => Exp.anyFloat exps
  | .localFunction _ _ _ body => Block.hasFloat body
  | .assign targets values => Exp.anyFloat targets || Exp.anyFloat values
  | .call callee args _ => callee.hasFloat || Exp.anyFloat args
  | .ret exps => Exp.anyFloat exps

def Stat.hasFloat : Stat → Bool
  | .mk _ kind => kind.hasFloat

def Block.hasFloat : List Stat → Bool
  | [] => false
  | s :: rest => s.hasFloat || Block.hasFloat rest

def Block.anyFloat : List (List Stat) → Bool
  | [] => false
  | body :: rest => Block.hasFloat body || Block.anyFloat rest

end

theorem Exp.hasFloat_call {callee : Exp} {args : List Exp} {isMethod : Bool} :
    (Exp.call callee args isMethod).hasFloat = false ↔ callee.hasFloat = false ∧ Exp.anyFloat args = false := by
  rw [Exp.hasFloat, Bool.or_eq_false_iff]

theorem Block.hasFloat_cons {s : Stat} {rest : List Stat} :
    Block.hasFloat (s :: rest) = false ↔ s.hasFloat = false ∧ Block.hasFloat rest = false := by
  rw [Block.hasFloat, Bool.or_eq_false_iff]

namespace Token

def escape (b : UInt8) : List UInt8 := [92, 48 + b / 100, 48 + b / 10 % 10, 48 + b % 10]

def written (t : Token) : String :=
  if t.kind = .string then ofAscii (34 :: ((utf8 t.text).flatMap escape ++ [34])) else t.text

def spaced : List Token → String
  | [] => ""
  | [t] => t.written
  | t :: rest => t.written ++ " " ++ spaced rest

end Token

def Block.print (block : Block) : String := Token.spaced (Block.words block)

end LuaBytecode
