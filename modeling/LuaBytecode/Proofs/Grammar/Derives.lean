import LuaBytecode.Ast.Parser.Grammar

namespace LuaBytecode

/-- The kind of the first token, or of what comes behind the tokens if there are none. -/
def ahead : List Token → TokenKind → TokenKind
  | [], next => next
  | t :: _, _ => t.kind

@[simp] theorem ahead_nil (next : TokenKind) : ahead [] next = next := rfl

@[simp] theorem ahead_cons (t : Token) (ts : List Token) (next : TokenKind) : ahead (t :: ts) next = t.kind := rfl

theorem ahead_append (ts us : List Token) (next : TokenKind) : ahead (ts ++ us) next = ahead ts (ahead us next) := by
  cases ts with
  | nil => rfl
  | cons t ts => rfl

def TokenKind.startsSuffix : TokenKind → Bool
  | .dot | .lbracket | .colon | .lparen | .string | .lbrace => true
  | _ => false

/-- What the rules of the grammar are about, with the tree that it stands for. A repetition that builds on what stands
    before it has that too. -/
inductive Phrase where
  | exp (limit : Nat) (e : Exp)
  | operators (limit : Nat) (lhs e : Exp)
  | simpleExp (e : Exp)
  | primaryExp (e : Exp)
  | suffixes (head e : Exp)
  | args (exps : List Exp)
  | expList (exps : List Exp)
  | moreExps (exps : List Exp)
  | table (e : Exp)
  | fields (keys : List (Option Exp)) (values : List Exp)
  | field (key : Option Exp) (value : Exp)
  | moreNames (names : List String)
  | fieldNames (head target : Exp)
  | params (names : List String) (isVararg : Bool)
  | funcBody (params : List String) (isVararg : Bool) (body : Block)
  | block (stats : Block)
  | returnStat (s : Stat)
  | stat (s : Stat)
  | moreArms (guards : List Exp) (blocks : List Block)
  | moreTargets (targets : List Exp)

/-- The grammar: the tokens, each of them once and in order, spell the phrase, and a token of kind `next` comes behind
    them. That kind matters only to repetitions, which go on as long as they can. -/
inductive Derives : Phrase → List Token → TokenKind → Prop
  -- exp ::= (simpleexp | unop exp) {binop exp}
  | unop {limit : Nat} {op : UnOp} {operand e : Exp} {t : Token} {ts us : List Token} {next : TokenKind} :
    UnOp.ofKind? t.kind = some op → Derives (.exp UnOp.power operand) ts (ahead us next) →
    Derives (.operators limit (.unop op operand) e) us next → Derives (.exp limit e) (t :: (ts ++ us)) next
  | simple {limit : Nat} {operand e : Exp} {ts us : List Token} {next : TokenKind} :
    Derives (.simpleExp operand) ts (ahead us next) → Derives (.operators limit operand e) us next →
    Derives (.exp limit e) (ts ++ us) next
  | operand {limit : Nat} {e : Exp} {next : TokenKind} :
    (∀ op, BinOp.ofKind? next = some op → op.leftPower ≤ limit) → Derives (.operators limit e e) [] next
  | binop {limit : Nat} {op : BinOp} {lhs rhs e : Exp} {t : Token} {ts us : List Token} {next : TokenKind} :
    BinOp.ofKind? t.kind = some op → limit < op.leftPower → Derives (.exp op.rightPower rhs) ts (ahead us next) →
    Derives (.operators limit (.binop op lhs rhs) e) us next → Derives (.operators limit lhs e) (t :: (ts ++ us)) next
  -- simpleexp ::= nil | true | false | '...' | Numeral | String | tableconstructor | function funcbody | prefixexp
  | nil {t : Token} {next : TokenKind} : t.kind = .kwNil → Derives (.simpleExp .nil) [t] next
  | kwTrue {t : Token} {next : TokenKind} : t.kind = .kwTrue → Derives (.simpleExp (.bool true)) [t] next
  | kwFalse {t : Token} {next : TokenKind} : t.kind = .kwFalse → Derives (.simpleExp (.bool false)) [t] next
  | vararg {t : Token} {next : TokenKind} : t.kind = .vararg → Derives (.simpleExp .vararg) [t] next
  | number {t : Token} {n : Number} {next : TokenKind} : t.kind = .number → Numeral.read? t.text = some n →
    Derives (.simpleExp (.ofNumber n)) [t] next
  | string {t : Token} {next : TokenKind} : t.kind = .string → Derives (.simpleExp (.string t.text)) [t] next
  | tableExp {e : Exp} {ts : List Token} {next : TokenKind} : Derives (.table e) ts next →
    Derives (.simpleExp e) ts next
  | function {params : List String} {isVararg : Bool} {body : Block} {t : Token} {ts : List Token} {next : TokenKind} :
    t.kind = .kwFunction → Derives (.funcBody params isVararg body) ts next →
    Derives (.simpleExp (.function params isVararg body)) (t :: ts) next
  | primary {e : Exp} {ts : List Token} {next : TokenKind} : Derives (.primaryExp e) ts next →
    Derives (.simpleExp e) ts next
  -- prefixexp ::= (Name | '(' exp ')') {'.' Name | '[' exp ']' | ':' Name args | args}
  | name {e : Exp} {x : Token} {ts : List Token} {next : TokenKind} : x.kind = .identifier →
    Derives (.suffixes (.name x.text) e) ts next → Derives (.primaryExp e) (x :: ts) next
  | paren {inner e : Exp} {l r : Token} {ts us : List Token} {next : TokenKind} : l.kind = .lparen →
    Derives (.exp 0 inner) ts .rparen → r.kind = .rparen → Derives (.suffixes (.paren inner) e) us next →
    Derives (.primaryExp e) (l :: (ts ++ r :: us)) next
  | head {e : Exp} {next : TokenKind} : next.startsSuffix = false → Derives (.suffixes e e) [] next
  | dotName {head e : Exp} {d x : Token} {ts : List Token} {next : TokenKind} : d.kind = .dot → x.kind = .identifier →
    Derives (.suffixes (.index head (.string x.text)) e) ts next → Derives (.suffixes head e) (d :: x :: ts) next
  | index {head key e : Exp} {l r : Token} {ts us : List Token} {next : TokenKind} : l.kind = .lbracket →
    Derives (.exp 0 key) ts .rbracket → r.kind = .rbracket → Derives (.suffixes (.index head key) e) us next →
    Derives (.suffixes head e) (l :: (ts ++ r :: us)) next
  | method {head e : Exp} {args : List Exp} {c x : Token} {ts us : List Token} {next : TokenKind} : c.kind = .colon →
    x.kind = .identifier → Derives (.args args) ts (ahead us next) →
    Derives (.suffixes (.call (.index head (.string x.text)) (head :: args) true) e) us next →
    Derives (.suffixes head e) (c :: x :: (ts ++ us)) next
  | call {head e : Exp} {args : List Exp} {ts us : List Token} {next : TokenKind} :
    Derives (.args args) ts (ahead us next) → Derives (.suffixes (.call head args false) e) us next →
    Derives (.suffixes head e) (ts ++ us) next
  -- args ::= '(' [explist] ')' | tableconstructor | String
  | noArgs {l r : Token} {next : TokenKind} : l.kind = .lparen → r.kind = .rparen → Derives (.args []) [l, r] next
  | argList {exps : List Exp} {l r : Token} {ts : List Token} {next : TokenKind} : l.kind = .lparen →
    Derives (.expList exps) ts .rparen → r.kind = .rparen → Derives (.args exps) (l :: (ts ++ [r])) next
  | tableArg {e : Exp} {ts : List Token} {next : TokenKind} : Derives (.table e) ts next → Derives (.args [e]) ts next
  | stringArg {t : Token} {next : TokenKind} : t.kind = .string → Derives (.args [.string t.text]) [t] next
  -- explist ::= exp {',' exp}
  | expList {e : Exp} {exps : List Exp} {ts us : List Token} {next : TokenKind} :
    Derives (.exp 0 e) ts (ahead us next) → Derives (.moreExps exps) us next →
    Derives (.expList (e :: exps)) (ts ++ us) next
  | lastExp {next : TokenKind} : next ≠ .comma → Derives (.moreExps []) [] next
  | moreExps {e : Exp} {exps : List Exp} {c : Token} {ts us : List Token} {next : TokenKind} : c.kind = .comma →
    Derives (.exp 0 e) ts (ahead us next) → Derives (.moreExps exps) us next →
    Derives (.moreExps (e :: exps)) (c :: (ts ++ us)) next
  -- tableconstructor ::= '{' [field {fieldsep field} [fieldsep]] '}'
  | table {keys : List (Option Exp)} {values : List Exp} {l r : Token} {ts : List Token} {next : TokenKind} :
    l.kind = .lbrace → Derives (.fields keys values) ts .rbrace → r.kind = .rbrace →
    Derives (.table (.table keys values)) (l :: (ts ++ [r])) next
  | noFields : Derives (.fields [] []) [] .rbrace
  | lastField {key : Option Exp} {value : Exp} {ts : List Token} {next : TokenKind} :
    Derives (.field key value) ts next → next ≠ .comma → next ≠ .semi → Derives (.fields [key] [value]) ts next
  | fields {key : Option Exp} {value : Exp} {keys : List (Option Exp)} {values : List Exp} {c : Token}
    {ts us : List Token} {next : TokenKind} : Derives (.field key value) ts c.kind → c.kind = .comma ∨ c.kind = .semi →
    Derives (.fields keys values) us next → Derives (.fields (key :: keys) (value :: values)) (ts ++ c :: us) next
  -- field ::= '[' exp ']' '=' exp | Name '=' exp | exp
  | keyField {key value : Exp} {l r a : Token} {ts us : List Token} {next : TokenKind} : l.kind = .lbracket →
    Derives (.exp 0 key) ts .rbracket → r.kind = .rbracket → a.kind = .assign → Derives (.exp 0 value) us next →
    Derives (.field (some key) value) (l :: (ts ++ r :: a :: us)) next
  | nameField {value : Exp} {x a : Token} {ts : List Token} {next : TokenKind} : x.kind = .identifier →
    a.kind = .assign → Derives (.exp 0 value) ts next → Derives (.field (some (.string x.text)) value) (x :: a :: ts) next
  | field {value : Exp} {ts : List Token} {next : TokenKind} : Derives (.exp 0 value) ts next →
    ((∃ x, value = .name x) → next ≠ .assign) → Derives (.field none value) ts next
  -- {',' Name}
  | lastName {next : TokenKind} : next ≠ .comma → Derives (.moreNames []) [] next
  | moreNames {names : List String} {c x : Token} {ts : List Token} {next : TokenKind} : c.kind = .comma →
    x.kind = .identifier → Derives (.moreNames names) ts next → Derives (.moreNames (x.text :: names)) (c :: x :: ts) next
  -- {'.' Name}
  | target {e : Exp} {next : TokenKind} : next ≠ .dot → Derives (.fieldNames e e) [] next
  | fieldNames {head target : Exp} {d x : Token} {ts : List Token} {next : TokenKind} : d.kind = .dot →
    x.kind = .identifier → Derives (.fieldNames (.index head (.string x.text)) target) ts next →
    Derives (.fieldNames head target) (d :: x :: ts) next
  -- parlist ::= Name {',' Name} [',' '...'] | '...'
  | lastParam {x : Token} {next : TokenKind} : x.kind = .identifier → next ≠ .comma →
    Derives (.params [x.text] false) [x] next
  | params {names : List String} {isVararg : Bool} {x c : Token} {ts : List Token} {next : TokenKind} :
    x.kind = .identifier → c.kind = .comma → Derives (.params names isVararg) ts next →
    Derives (.params (x.text :: names) isVararg) (x :: c :: ts) next
  | dots {t : Token} {next : TokenKind} : t.kind = .vararg → Derives (.params [] true) [t] next
  -- funcbody ::= '(' [parlist] ')' block end
  | noParams {body : Block} {l r e : Token} {ts : List Token} {next : TokenKind} : l.kind = .lparen → r.kind = .rparen →
    Derives (.block body) ts .kwEnd → e.kind = .kwEnd → Derives (.funcBody [] false body) (l :: r :: (ts ++ [e])) next
  | funcBody {params : List String} {isVararg : Bool} {body : Block} {l r e : Token} {ts us : List Token}
    {next : TokenKind} : l.kind = .lparen → Derives (.params params isVararg) ts .rparen → r.kind = .rparen →
    Derives (.block body) us .kwEnd → e.kind = .kwEnd →
    Derives (.funcBody params isVararg body) (l :: (ts ++ r :: (us ++ [e]))) next
  -- block ::= {stat} [retstat]
  | blockEnd {next : TokenKind} : Parser.endsBlock next = true → next ≠ .kwReturn → Derives (.block []) [] next
  | blockReturn {s : Stat} {ts : List Token} {next : TokenKind} : Derives (.returnStat s) ts next →
    Derives (.block [s]) ts next
  | block {s : Stat} {rest : Block} {ts us : List Token} {next : TokenKind} : Derives (.stat s) ts (ahead us next) →
    Derives (.block rest) us next → Derives (.block (s :: rest)) (ts ++ us) next
  -- retstat ::= return [explist] [';']
  | ret {r : Token} {next : TokenKind} : r.kind = .kwReturn → Parser.endsBlock next = true →
    Derives (.returnStat (.mk r.line (.ret []))) [r] next
  | retSemi {r s : Token} {next : TokenKind} : r.kind = .kwReturn → s.kind = .semi →
    Derives (.returnStat (.mk r.line (.ret []))) [r, s] next
  | retExps {exps : List Exp} {r : Token} {ts : List Token} {next : TokenKind} : r.kind = .kwReturn →
    Derives (.expList exps) ts next → next ≠ .semi → Derives (.returnStat (.mk r.line (.ret exps))) (r :: ts) next
  | retExpsSemi {exps : List Exp} {r s : Token} {ts : List Token} {next : TokenKind} : r.kind = .kwReturn →
    Derives (.expList exps) ts .semi → s.kind = .semi →
    Derives (.returnStat (.mk r.line (.ret exps))) (r :: (ts ++ [s])) next
  -- ';' | break | '::' Name '::' | goto Name
  | empty {t : Token} {next : TokenKind} : t.kind = .semi → Derives (.stat (.mk t.line .empty)) [t] next
  | breakLoop {t : Token} {next : TokenKind} : t.kind = .kwBreak → Derives (.stat (.mk t.line .breakLoop)) [t] next
  | label {l x r : Token} {next : TokenKind} : l.kind = .doubleColon → x.kind = .identifier → r.kind = .doubleColon →
    Derives (.stat (.mk l.line (.label x.text))) [l, x, r] next
  | goto {t x : Token} {next : TokenKind} : t.kind = .kwGoto → x.kind = .identifier →
    Derives (.stat (.mk t.line (.goto x.text))) [t, x] next
  -- do block end | while exp do block end | repeat block until exp
  | doBlock {body : Block} {t e : Token} {ts : List Token} {next : TokenKind} : t.kind = .kwDo →
    Derives (.block body) ts .kwEnd → e.kind = .kwEnd → Derives (.stat (.mk t.line (.doBlock body))) (t :: (ts ++ [e])) next
  | whileDo {guard : Exp} {body : Block} {t d e : Token} {ts us : List Token} {next : TokenKind} : t.kind = .kwWhile →
    Derives (.exp 0 guard) ts .kwDo → d.kind = .kwDo → Derives (.block body) us .kwEnd → e.kind = .kwEnd →
    Derives (.stat (.mk t.line (.whileDo guard body))) (t :: (ts ++ d :: (us ++ [e]))) next
  | repeatUntil {body : Block} {guard : Exp} {t u : Token} {ts us : List Token} {next : TokenKind} :
    t.kind = .kwRepeat → Derives (.block body) ts .kwUntil → u.kind = .kwUntil → Derives (.exp 0 guard) us next →
    Derives (.stat (.mk t.line (.repeatUntil body guard))) (t :: (ts ++ u :: us)) next
  -- if exp then block {elseif exp then block} [else block] end
  | ifThen {guard : Exp} {guards : List Exp} {body : Block} {blocks : List Block} {t h e : Token}
    {ts us vs : List Token} {next : TokenKind} : t.kind = .kwIf → Derives (.exp 0 guard) ts .kwThen → h.kind = .kwThen →
    Derives (.block body) us (ahead vs .kwEnd) → Derives (.moreArms guards blocks) vs .kwEnd → e.kind = .kwEnd →
    Derives (.stat (.mk t.line (.ifThen (guard :: guards) (body :: blocks))))
      (t :: (ts ++ h :: (us ++ (vs ++ [e])))) next
  | lastArm {next : TokenKind} : next ≠ .kwElseIf → next ≠ .kwElse → Derives (.moreArms [] []) [] next
  | elseIf {guard : Exp} {guards : List Exp} {body : Block} {blocks : List Block} {t h : Token}
    {ts us vs : List Token} {next : TokenKind} : t.kind = .kwElseIf → Derives (.exp 0 guard) ts .kwThen →
    h.kind = .kwThen → Derives (.block body) us (ahead vs next) → Derives (.moreArms guards blocks) vs next →
    Derives (.moreArms (guard :: guards) (body :: blocks)) (t :: (ts ++ h :: (us ++ vs))) next
  | otherwise {body : Block} {t : Token} {ts : List Token} {next : TokenKind} : t.kind = .kwElse →
    Derives (.block body) ts next → Derives (.moreArms [.bool true] [body]) (t :: ts) next
  -- for Name '=' exp ',' exp [',' exp] do block end | for Name {',' Name} in explist do block end
  | numericFor {init limit : Exp} {body : Block} {t x a c d e : Token} {ts us vs : List Token} {next : TokenKind} :
    t.kind = .kwFor → x.kind = .identifier → a.kind = .assign → Derives (.exp 0 init) ts .comma → c.kind = .comma →
    Derives (.exp 0 limit) us .kwDo → d.kind = .kwDo → Derives (.block body) vs .kwEnd → e.kind = .kwEnd →
    Derives (.stat (.mk t.line (.numericFor x.text init limit none body)))
      (t :: x :: a :: (ts ++ c :: (us ++ d :: (vs ++ [e])))) next
  | numericForStep {init limit step : Exp} {body : Block} {t x a c b d e : Token} {ts us vs ws : List Token}
    {next : TokenKind} : t.kind = .kwFor → x.kind = .identifier → a.kind = .assign → Derives (.exp 0 init) ts .comma →
    c.kind = .comma → Derives (.exp 0 limit) us .comma → b.kind = .comma → Derives (.exp 0 step) vs .kwDo →
    d.kind = .kwDo → Derives (.block body) ws .kwEnd → e.kind = .kwEnd →
    Derives (.stat (.mk t.line (.numericFor x.text init limit (some step) body)))
      (t :: x :: a :: (ts ++ c :: (us ++ b :: (vs ++ d :: (ws ++ [e]))))) next
  | genericFor {names : List String} {exps : List Exp} {body : Block} {t x i d e : Token} {ts us vs : List Token}
    {next : TokenKind} : t.kind = .kwFor → x.kind = .identifier → Derives (.moreNames names) ts .kwIn → i.kind = .kwIn →
    Derives (.expList exps) us .kwDo → d.kind = .kwDo → Derives (.block body) vs .kwEnd → e.kind = .kwEnd →
    Derives (.stat (.mk t.line (.genericFor (x.text :: names) exps body)))
      (t :: x :: (ts ++ i :: (us ++ d :: (vs ++ [e])))) next
  -- function Name {'.' Name} [':' Name] funcbody
  | functionStat {target : Exp} {params : List String} {isVararg : Bool} {body : Block} {t x : Token}
    {ts us : List Token} {next : TokenKind} : t.kind = .kwFunction → x.kind = .identifier →
    Derives (.fieldNames (.name x.text) target) ts .lparen → Derives (.funcBody params isVararg body) us next →
    Derives (.stat (.mk t.line (.assign [target] [.function params isVararg body]))) (t :: x :: (ts ++ us)) next
  | methodStat {target : Exp} {params : List String} {isVararg : Bool} {body : Block} {t x c m : Token}
    {ts us : List Token} {next : TokenKind} : t.kind = .kwFunction → x.kind = .identifier →
    Derives (.fieldNames (.name x.text) target) ts .colon → c.kind = .colon → m.kind = .identifier →
    Derives (.funcBody params isVararg body) us next →
    Derives (.stat (.mk t.line
      (.assign [.index target (.string m.text)] [.function ("self" :: params) isVararg body])))
      (t :: x :: (ts ++ c :: m :: us)) next
  -- local function Name funcbody | local Name {',' Name} ['=' explist]
  | localFunction {params : List String} {isVararg : Bool} {body : Block} {t f x : Token} {ts : List Token}
    {next : TokenKind} : t.kind = .kwLocal → f.kind = .kwFunction → x.kind = .identifier →
    Derives (.funcBody params isVararg body) ts next →
    Derives (.stat (.mk t.line (.localFunction x.text params isVararg body))) (t :: f :: x :: ts) next
  | localDecl {names : List String} {t x : Token} {ts : List Token} {next : TokenKind} : t.kind = .kwLocal →
    x.kind = .identifier → Derives (.moreNames names) ts next → next ≠ .assign →
    Derives (.stat (.mk t.line (.localDecl (x.text :: names) []))) (t :: x :: ts) next
  | localInit {names : List String} {exps : List Exp} {t x a : Token} {ts us : List Token} {next : TokenKind} :
    t.kind = .kwLocal → x.kind = .identifier → Derives (.moreNames names) ts .assign → a.kind = .assign →
    Derives (.expList exps) us next →
    Derives (.stat (.mk t.line (.localDecl (x.text :: names) exps))) (t :: x :: (ts ++ a :: us)) next
  -- prefixexp {',' prefixexp} '=' explist | functioncall
  | assign {first : Exp} {targets values : List Exp} {t a : Token} {ts us vs : List Token} {next : TokenKind} :
    Derives (.primaryExp first) (t :: ts) (ahead us .assign) → Derives (.moreTargets targets) us .assign →
    (first :: targets).all Exp.isVar = true → a.kind = .assign → Derives (.expList values) vs next →
    Derives (.stat (.mk t.line (.assign (first :: targets) values))) (t :: (ts ++ (us ++ a :: vs))) next
  | lastTarget {next : TokenKind} : next ≠ .comma → Derives (.moreTargets []) [] next
  | moreTargets {target : Exp} {targets : List Exp} {c : Token} {ts us : List Token} {next : TokenKind} :
    c.kind = .comma → Derives (.primaryExp target) ts (ahead us next) → Derives (.moreTargets targets) us next →
    Derives (.moreTargets (target :: targets)) (c :: (ts ++ us)) next
  | callStat {callee : Exp} {args : List Exp} {isMethod : Bool} {t : Token} {ts : List Token} {next : TokenKind} :
    Derives (.primaryExp (.call callee args isMethod)) (t :: ts) next → next ≠ .assign → next ≠ .comma →
    Derives (.stat (.mk t.line (.call callee args isMethod))) (t :: ts) next

namespace Phrase

def primaryFirsts : List TokenKind := [.identifier, .lparen]

def simpleFirsts : List TokenKind :=
  [.kwNil, .kwTrue, .kwFalse, .vararg, .number, .string, .lbrace, .kwFunction, .identifier, .lparen]

def expFirsts : List TokenKind := [.kwNot, .minus, .hash, .tilde] ++ simpleFirsts

def statFirsts : List TokenKind :=
  [.semi, .kwBreak, .doubleColon, .kwGoto, .kwDo, .kwWhile, .kwRepeat, .kwIf, .kwFor, .kwFunction, .kwLocal,
    .identifier, .lparen]

def firsts : Phrase → Option (List TokenKind)
  | .exp _ _ | .expList _ => some expFirsts
  | .simpleExp _ => some simpleFirsts
  | .primaryExp _ => some primaryFirsts
  | .args _ => some [.lparen, .lbrace, .string]
  | .table _ => some [.lbrace]
  | .field _ _ => some (.lbracket :: expFirsts)
  | .params _ _ => some [.identifier, .vararg]
  | .funcBody _ _ _ => some [.lparen]
  | .returnStat _ => some [.kwReturn]
  | .stat _ => some statFirsts
  | _ => none

end Phrase

namespace Derives

variable {next : TokenKind} {p : Phrase} {ts : List Token}

theorem starts (h : Derives p ts next) : ∀ kinds, p.firsts = some kinds → ∃ t us, ts = t :: us ∧ t.kind ∈ kinds := by
  induction h with
  | unop found =>
    rintro _ ⟨⟩
    refine ⟨_, _, rfl, ?_⟩
    revert found
    cases Token.kind _ <;> simp [UnOp.ofKind?, Phrase.expFirsts]
  | simple _ _ ih =>
    rintro _ ⟨⟩
    obtain ⟨t, us, rfl, member⟩ := ih _ rfl
    exact ⟨t, _, rfl, List.mem_append_right _ member⟩
  | nil same | kwTrue same | kwFalse same | vararg same | number same | string same | function same | name same
  | paren same | noArgs same | argList same | stringArg same | table same | keyField same | nameField same | lastParam same
  | params same | dots same | noParams same | funcBody same | ret same | retSemi same | retExps same | retExpsSemi same
  | empty same | breakLoop same | label same | goto same | doBlock same | whileDo same | repeatUntil same
  | ifThen same | numericFor same | numericForStep same | genericFor same | functionStat same | methodStat same
  | localFunction same | localDecl same | localInit same =>
    rintro _ ⟨⟩
    exact ⟨_, _, rfl, by rw [same]; decide⟩
  | tableExp _ ih | primary _ ih | tableArg _ ih | expList _ _ ih | field _ _ ih =>
    rintro _ ⟨⟩
    obtain ⟨t, us, rfl, member⟩ := ih _ rfl
    refine ⟨t, _, rfl, ?_⟩
    revert member
    generalize t.kind = kind
    revert kind
    decide
  | assign _ _ _ _ _ ih | callStat _ _ _ ih =>
    rintro _ ⟨⟩
    obtain ⟨t, us, ⟨⟩, member⟩ := ih _ rfl
    refine ⟨_, _, rfl, ?_⟩
    revert member
    generalize Token.kind _ = kind
    revert kind
    decide
  | _ => rintro _ ⟨⟩

theorem length_pos {kinds : List TokenKind} (h : Derives p ts next) (first : p.firsts = some kinds) :
    0 < ts.length := by
  obtain ⟨t, us, rfl, _⟩ := h.starts kinds first
  exact Nat.succ_pos _

theorem primary_kind {e : Exp} {t : Token} {us : List Token} (h : Derives (.primaryExp e) (t :: us) next) :
    t.kind = .identifier ∨ t.kind = .lparen := by
  cases h with
  | name identifier => exact .inl identifier
  | paren opener => exact .inr opener

end Derives

end LuaBytecode
