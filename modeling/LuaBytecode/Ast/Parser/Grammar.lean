import LuaBytecode.Ast.Basic
import LuaBytecode.Ast.Parser.Basic
import LuaBytecode.Numeral

namespace LuaBytecode

def Exp.ofNumber : Number → Exp
  | .integer value => .integer value
  | .float value => .float value

namespace Parser

/-! Every function takes fuel, which a call hands on less one. `Parser.fuelFor` is enough for all the calls that the
    tokens can give rise to. -/

def outOfFuel {α : Type} : Parser α := throw .outOfFuel

def moreNames (fuel : Nat) (names : List String) : Parser (List String) :=
  match fuel with
  | 0 => outOfFuel
  | fuel + 1 => do
    if ← accept .comma then moreNames fuel ((← name) :: names)
    else return names.reverse

def fieldNames (fuel : Nat) (target : Exp) : Parser Exp :=
  match fuel with
  | 0 => outOfFuel
  | fuel + 1 => do
    if ← accept .dot then fieldNames fuel (.index target (.string (← name)))
    else return target

def params (fuel : Nat) (names : List String) : Parser (List String × Bool) :=
  match fuel with
  | 0 => outOfFuel
  | fuel + 1 => do
    match ← peek with
    | .identifier =>
      let names := (← name) :: names
      if ← accept .comma then params fuel names
      else return (names.reverse, false)
    | .vararg =>
      let _ ← next
      return (names.reverse, true)
    | _ => complain .nameExpected

def numeral (t : Token) : Parser Exp :=
  match Numeral.read? t.text with
  | some n => return .ofNumber n
  | none => throw (.lex (.malformedNumber t.text t.line))

def acceptSeparator : Parser Bool := do
  if ← accept .comma then return true
  else accept .semi

mutual

/-- `exp ::= (simpleexp | unop exp) {binop exp}`, with operators of a left power over the limit. -/
def exp (fuel : Nat) (limit : Nat) : Parser Exp :=
  match fuel with
  | 0 => outOfFuel
  | fuel + 1 => do
    match UnOp.ofKind? (← peek) with
    | some op =>
      let _ ← next
      let operand ← exp fuel UnOp.power
      operators fuel limit (.unop op operand)
    | none =>
      let operand ← simpleExp fuel
      operators fuel limit operand

def operators (fuel : Nat) (limit : Nat) (lhs : Exp) : Parser Exp :=
  match fuel with
  | 0 => outOfFuel
  | fuel + 1 => do
    match BinOp.ofKind? (← peek) with
    | some op =>
      if op.leftPower ≤ limit then return lhs
      else
        let _ ← next
        let rhs ← exp fuel op.rightPower
        operators fuel limit (.binop op lhs rhs)
    | none => return lhs

def simpleExp (fuel : Nat) : Parser Exp :=
  match fuel with
  | 0 => outOfFuel
  | fuel + 1 => do
    match ← peek with
    | .kwNil =>
      let _ ← next
      return .nil
    | .kwTrue =>
      let _ ← next
      return .bool true
    | .kwFalse =>
      let _ ← next
      return .bool false
    | .vararg =>
      let _ ← next
      return .vararg
    | .number => numeral (← next)
    | .string => return .string (← next).text
    | .lbrace => table fuel
    | .kwFunction =>
      let line := (← next).line
      let (params, isVararg, body) ← funcBody fuel line
      return .function params isVararg body
    | _ => primaryExp fuel

/-- `prefixexp ::= (Name | '(' exp ')') {suffix}` -/
def primaryExp (fuel : Nat) : Parser Exp :=
  match fuel with
  | 0 => outOfFuel
  | fuel + 1 => do
    match ← peek with
    | .identifier =>
      let first ← name
      suffixes fuel (.name first)
    | .lparen =>
      let line := (← next).line
      let inner ← exp fuel 0
      close .rparen .lparen line
      suffixes fuel (.paren inner)
    | _ => complain .unexpectedSymbol

/-- `suffix ::= '.' Name | '[' exp ']' | ':' Name args | args` -/
def suffixes (fuel : Nat) (e : Exp) : Parser Exp :=
  match fuel with
  | 0 => outOfFuel
  | fuel + 1 => do
    match ← peek with
    | .dot =>
      let _ ← next
      let key ← name
      suffixes fuel (.index e (.string key))
    | .lbracket =>
      let _ ← next
      let key ← exp fuel 0
      let _ ← expect .rbracket
      suffixes fuel (.index e key)
    | .colon =>
      let _ ← next
      let method ← name
      let arguments ← args fuel
      suffixes fuel (.call (.index e (.string method)) (e :: arguments) true)
    | .lparen | .string | .lbrace =>
      let arguments ← args fuel
      suffixes fuel (.call e arguments false)
    | _ => return e

/-- `args ::= '(' [explist] ')' | tableconstructor | LiteralString` -/
def args (fuel : Nat) : Parser (List Exp) :=
  match fuel with
  | 0 => outOfFuel
  | fuel + 1 => do
    match ← peek with
    | .lparen =>
      let line := (← next).line
      if (← peek) = .rparen then
        close .rparen .lparen line
        return []
      else
        let arguments ← expList fuel
        close .rparen .lparen line
        return arguments
    | .lbrace => return [← table fuel]
    | .string => return [.string (← next).text]
    | _ => complain .argumentsExpected

def expList (fuel : Nat) : Parser (List Exp) :=
  match fuel with
  | 0 => outOfFuel
  | fuel + 1 => do
    let first ← exp fuel 0
    moreExps fuel [first]

def moreExps (fuel : Nat) (exps : List Exp) : Parser (List Exp) :=
  match fuel with
  | 0 => outOfFuel
  | fuel + 1 => do
    if ← accept .comma then
      let e ← exp fuel 0
      moreExps fuel (e :: exps)
    else return exps.reverse

/-- `tableconstructor ::= '{' [field {fieldsep field} [fieldsep]] '}'` -/
def table (fuel : Nat) : Parser Exp :=
  match fuel with
  | 0 => outOfFuel
  | fuel + 1 => do
    let line := (← expect .lbrace).line
    let (keys, values) ← fields fuel [] []
    close .rbrace .lbrace line
    return .table keys values

def fields (fuel : Nat) (keys : List (Option Exp)) (values : List Exp) : Parser (List (Option Exp) × List Exp) :=
  match fuel with
  | 0 => outOfFuel
  | fuel + 1 => do
    if (← peek) = .rbrace then return (keys.reverse, values.reverse)
    else
      let (key, value) ← field fuel
      if ← acceptSeparator then fields fuel (key :: keys) (value :: values)
      else return ((key :: keys).reverse, (value :: values).reverse)

/-- `field ::= '[' exp ']' '=' exp | Name '=' exp | exp`. A name is read as an expression first. -/
def field (fuel : Nat) : Parser (Option Exp × Exp) :=
  match fuel with
  | 0 => outOfFuel
  | fuel + 1 => do
    if ← accept .lbracket then
      let key ← exp fuel 0
      let _ ← expect .rbracket
      let _ ← expect .assign
      let value ← exp fuel 0
      return (some key, value)
    else
      match ← exp fuel 0 with
      | .name key =>
        if ← accept .assign then
          let value ← exp fuel 0
          return (some (.string key), value)
        else return (none, .name key)
      | value => return (none, value)

/-- `funcbody ::= '(' [parlist] ')' block end`, of a function that starts on the given line. -/
def funcBody (fuel : Nat) (line : Nat) : Parser (List String × Bool × Block) :=
  match fuel with
  | 0 => outOfFuel
  | fuel + 1 => do
    let _ ← expect .lparen
    let (params, isVararg) ← if (← peek) = .rparen then pure ([], false) else params fuel []
    let _ ← expect .rparen
    let body ← block fuel []
    close .kwEnd .kwFunction line
    return (params, isVararg, body)

/-- `block ::= {stat} [retstat]`; `stats` holds the statements already read, last one first. -/
def block (fuel : Nat) (stats : List Stat) : Parser Block :=
  match fuel with
  | 0 => outOfFuel
  | fuel + 1 => do
    match ← peek with
    | .kwReturn =>
      let last ← returnStat fuel
      return (last :: stats).reverse
    | kind =>
      if endsBlock kind then return stats.reverse
      else
        let s ← stat fuel
        block fuel (s :: stats)

/-- `retstat ::= return [explist] [';']` -/
def returnStat (fuel : Nat) : Parser Stat :=
  match fuel with
  | 0 => outOfFuel
  | fuel + 1 => do
    let line := (← expect .kwReturn).line
    let kind ← peek
    let exps ← if endsBlock kind || kind = .semi then pure [] else expList fuel
    let _ ← accept .semi
    return .mk line (.ret exps)

def stat (fuel : Nat) : Parser Stat :=
  match fuel with
  | 0 => outOfFuel
  | fuel + 1 => do
    let line := (← look).line
    match ← peek with
    | .semi =>
      let _ ← next
      return .mk line .empty
    | .kwBreak =>
      let _ ← next
      return .mk line .breakLoop
    | .doubleColon =>
      let _ ← next
      let label ← name
      let _ ← expect .doubleColon
      return .mk line (.label label)
    | .kwGoto =>
      let _ ← next
      return .mk line (.goto (← name))
    | .kwDo =>
      let _ ← next
      let body ← block fuel []
      close .kwEnd .kwDo line
      return .mk line (.doBlock body)
    | .kwWhile =>
      let _ ← next
      let guard ← exp fuel 0
      let _ ← expect .kwDo
      let body ← block fuel []
      close .kwEnd .kwWhile line
      return .mk line (.whileDo guard body)
    | .kwRepeat =>
      let _ ← next
      let body ← block fuel []
      close .kwUntil .kwRepeat line
      let guard ← exp fuel 0
      return .mk line (.repeatUntil body guard)
    | .kwIf =>
      let _ ← next
      let guard ← exp fuel 0
      let _ ← expect .kwThen
      let body ← block fuel []
      let (guards, blocks) ← moreArms fuel [guard] [body]
      close .kwEnd .kwIf line
      return .mk line (.ifThen guards blocks)
    | .kwFor =>
      let _ ← next
      let first ← name
      let kind ← if ← accept .assign then numericFor fuel first line else genericFor fuel first line
      return .mk line kind
    | .kwFunction =>
      let _ ← next
      let kind ← functionStat fuel line
      return .mk line kind
    | .kwLocal =>
      let _ ← next
      let kind ← localStat fuel line
      return .mk line kind
    | _ =>
      let kind ← assignOrCall fuel
      return .mk line kind

/-- `{elseif exp then block} [else block]`; the arms already read come last one first. -/
def moreArms (fuel : Nat) (guards : List Exp) (blocks : List Block) : Parser (List Exp × List Block) :=
  match fuel with
  | 0 => outOfFuel
  | fuel + 1 => do
    if ← accept .kwElseIf then
      let guard ← exp fuel 0
      let _ ← expect .kwThen
      let body ← block fuel []
      moreArms fuel (guard :: guards) (body :: blocks)
    else if ← accept .kwElse then
      let body ← block fuel []
      return ((.bool true :: guards).reverse, (body :: blocks).reverse)
    else return (guards.reverse, blocks.reverse)

/-- `exp ',' exp [',' exp] do block end` after `for Name '='` -/
def numericFor (fuel : Nat) (var : String) (line : Nat) : Parser StatKind :=
  match fuel with
  | 0 => outOfFuel
  | fuel + 1 => do
    let init ← exp fuel 0
    let _ ← expect .comma
    let limit ← exp fuel 0
    let step ← if ← accept .comma then some <$> exp fuel 0 else pure none
    let _ ← expect .kwDo
    let body ← block fuel []
    close .kwEnd .kwFor line
    return .numericFor var init limit step body

/-- `{',' Name} in explist do block end` after `for Name` -/
def genericFor (fuel : Nat) (first : String) (line : Nat) : Parser StatKind :=
  match fuel with
  | 0 => outOfFuel
  | fuel + 1 => do
    let names ← moreNames fuel [first]
    let _ ← expect .kwIn
    let exps ← expList fuel
    let _ ← expect .kwDo
    let body ← block fuel []
    close .kwEnd .kwFor line
    return .genericFor names exps body

/-- `Name {'.' Name} [':' Name] funcbody` after `function`. It is an assignment; a colon adds the parameter `self`. -/
def functionStat (fuel : Nat) (line : Nat) : Parser StatKind :=
  match fuel with
  | 0 => outOfFuel
  | fuel + 1 => do
    let target ← fieldNames fuel (.name (← name))
    if ← accept .colon then
      let target := Exp.index target (.string (← name))
      let (params, isVararg, body) ← funcBody fuel line
      return .assign [target] [.function ("self" :: params) isVararg body]
    else
      let (params, isVararg, body) ← funcBody fuel line
      return .assign [target] [.function params isVararg body]

/-- `function Name funcbody | Name {',' Name} ['=' explist]` after `local` -/
def localStat (fuel : Nat) (line : Nat) : Parser StatKind :=
  match fuel with
  | 0 => outOfFuel
  | fuel + 1 => do
    if ← accept .kwFunction then
      let f ← name
      let (params, isVararg, body) ← funcBody fuel line
      return .localFunction f params isVararg body
    else
      let names ← moreNames fuel [← name]
      let exps ← if ← accept .assign then expList fuel else pure []
      return .localDecl names exps

/-- `varlist '=' explist | functioncall` -/
def assignOrCall (fuel : Nat) : Parser StatKind :=
  match fuel with
  | 0 => outOfFuel
  | fuel + 1 => do
    let first ← primaryExp fuel
    let kind ← peek
    if kind = .assign || kind = .comma then
      let targets ← moreTargets fuel [first]
      if targets.all Exp.isVar then
        let _ ← expect .assign
        let values ← expList fuel
        return .assign targets values
      else complain .notAStatement
    else
      match first with
      | .call callee arguments isMethod => return .call callee arguments isMethod
      | _ => complain .notAStatement

def moreTargets (fuel : Nat) (targets : List Exp) : Parser (List Exp) :=
  match fuel with
  | 0 => outOfFuel
  | fuel + 1 => do
    if ← accept .comma then
      let target ← primaryExp fuel
      moreTargets fuel (target :: targets)
    else return targets.reverse

end

/-- Fewer than ten calls in a row leave the next token alone. -/
def fuelFor (s : TokenStream) : Nat := 10 * (s.tokens.length + 2)

end Parser

def Block.parse (s : TokenStream) : Except CompileError Block := do
  let (body, rest) ← Parser.block (Parser.fuelFor s) [] s
  let _ ← Parser.expect .eof rest
  return body

end LuaBytecode
