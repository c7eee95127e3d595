import LuaBytecode.Proofs.Summary.Lowering
import LuaBytecode.Proofs.Regular.Program

namespace LuaBytecode

variable {names : List String} {isVararg : Bool} {body : Block} {ts : List Token} {kind : TokenKind}

/-- What the tokens behind the keyword `function` say of the function: each name in the parentheses is a parameter, a
    colon before them stands for one more, and the last thing in them may be `...`. -/
def Signature.ofHeader (depth : Nat) (behind : List Token) : Signature :=
  let name := behind.takeWhile (·.kind ≠ .lparen)
  let params := ((behind.dropWhile (·.kind ≠ .lparen)).drop 1).takeWhile (·.kind ≠ .rparen)
  ⟨depth, params.countP (·.kind = .identifier) + name.countP (·.kind = .colon), params.getLast?.any (·.kind = .vararg)⟩

namespace Token

/-- The functions that tokens show, in their order. `around` has the constructs that wait for their `end`, innermost
    first, and whether they are functions. -/
def signaturesIn (around : List Bool) : List Token → List Signature
  | [] => []
  | t :: ts =>
    match t.kind with
    | .kwFunction => .ofHeader (1 + around.count true) ts :: signaturesIn (true :: around) ts
    | .kwDo | .kwIf => signaturesIn (false :: around) ts
    | .kwEnd => signaturesIn around.tail ts
    | _ => signaturesIn around ts

def signatures (ts : List Token) : List Signature := signaturesIn [] ts

theorem length_signaturesIn (around : List Bool) (ts : List Token) :
    (signaturesIn around ts).length = ts.countP (·.kind = .kwFunction) := by
  induction ts generalizing around with
  | nil => rfl
  | cons t ts ih =>
    by_cases isFunction : t.kind = .kwFunction
    · rw [signaturesIn, isFunction, List.countP_cons_of_pos (by simpa using isFunction)]
      exact congrArg (· + 1) (ih (true :: around))
    · rw [signaturesIn, List.countP_cons_of_neg (by simpa using isFunction)]
      split
      · exact absurd ‹_› isFunction
      all_goals exact ih _

end Token

def TokenKind.isInert : TokenKind → Bool
  | .kwFunction | .kwDo | .kwIf | .kwEnd => false
  | _ => true

def Spans (ts : List Token) (o : Summary) : Prop :=
  ∀ around us,
    Token.signaturesIn around (ts ++ us) = o.functions (1 + around.count true) ++ Token.signaturesIn around us

theorem Token.signaturesIn_inert {t : Token} (inert : t.kind.isInert = true) (around : List Bool) (ts : List Token) :
    Token.signaturesIn around (t :: ts) = Token.signaturesIn around ts := by
  rw [Token.signaturesIn]
  split
  all_goals first
    | rfl
    | rename_i kind
      rw [kind] at inert
      cases inert

open Summary

namespace Spans

variable {ts us : List Token} {o o' : Summary} {t e : Token} {kind : TokenKind}

theorem nil : Spans [] 1 := fun _ _ => rfl

theorem append (first : Spans ts o) (second : Spans us o') : Spans (ts ++ us) (o * o') := by
  intro around vs
  rw [List.append_assoc, first, second]
  exact (List.append_assoc ..).symm

theorem congr (h : Spans ts o) (same : o = o') : Spans ts o' := same ▸ h

theorem skip (same : t.kind = kind) (inert : kind.isInert = true) (rest : Spans ts o) : Spans (t :: ts) o := by
  intro around us
  rw [List.cons_append, Token.signaturesIn_inert (same ▸ inert), rest]

theorem one (same : t.kind = kind) (inert : kind.isInert = true) : Spans [t] 1 := skip same inert nil

theorem enclosed (opens : t.kind = .kwDo ∨ t.kind = .kwIf) (inside : Spans ts o) (ends : e.kind = .kwEnd) :
    Spans (t :: (ts ++ [e])) o := by
  intro around us
  have start : Token.signaturesIn around (t :: ((ts ++ [e]) ++ us)) =
      Token.signaturesIn (false :: around) ((ts ++ [e]) ++ us) := by
    rw [Token.signaturesIn]
    rcases opens with kind | kind <;> rw [kind]
  have stop : Token.signaturesIn (false :: around) (e :: us) = Token.signaturesIn around us := by
    rw [Token.signaturesIn, ends]
    rfl
  rw [List.cons_append, start, List.append_assoc, inside, List.singleton_append, stop, List.count_cons_of_ne (by decide)]

theorem scope (isLoop : Bool) (h : Spans ts o) : Spans ts (weights.scope isLoop o) := h

theorem target {x : Exp} (h : Spans ts (x.weigh weights)) :
    Spans ts (x.weigh weights * if x.isVar then 1 else weights.noTarget) := by
  intro around us
  rw [h around us]
  split <;> exact congrArg (· ++ _) (List.append_nil _).symm

end Spans

/-- A list of parameters: all of its names count, and `...` can only be the last of its tokens. -/
structure ParamsSpelt (names : List String) (isVararg : Bool) (ts : List Token) : Prop where
  inside : ∀ t ∈ ts, t.kind.isInert = true ∧ t.kind ≠ .rparen
  count : ts.countP (·.kind = .identifier) = names.length
  last : ts.getLast?.any (·.kind = .vararg) = isVararg

theorem ParamsSpelt.cons {x c : Token} (h : ParamsSpelt names isVararg ts) (kind : x.kind = .identifier)
    (comma : c.kind = .comma) : ParamsSpelt (x.text :: names) isVararg (x :: c :: ts) where
  inside := by simpa [kind, comma, TokenKind.isInert] using h.inside
  count := by simp [kind, comma, h.count]
  last := by
    have last := h.last
    cases ts with
    | nil => simpa [comma] using last
    | cons t ts => simpa using last

structure FunctionSpelt (names : List String) (isVararg : Bool) (body : Block) (ts : List Token) : Prop where
  header : ∃ l params r rest, ts = l :: (params ++ r :: rest) ∧ l.kind = .lparen ∧ r.kind = .rparen ∧
    ParamsSpelt names isVararg params
  body : ∀ around us, Token.signaturesIn (true :: around) (ts ++ us) =
    body.summary.functions (1 + (around.count true + 1)) ++ Token.signaturesIn around us

theorem Token.signaturesIn_inert_append (inert : ∀ t ∈ ts, t.kind.isInert = true) (around : List Bool)
    (us : List Token) : Token.signaturesIn around (ts ++ us) = Token.signaturesIn around us := by
  induction ts with
  | nil => rfl
  | cons t ts ih =>
    obtain ⟨first, others⟩ := List.forall_mem_cons.mp inert
    rw [List.cons_append, Token.signaturesIn_inert first, ih others]

theorem FunctionSpelt.of_parts {l r e : Token} {params : List Token} (opens : l.kind = .lparen)
    (spelt : ParamsSpelt names isVararg params) (closes : r.kind = .rparen) (inside : Spans ts body.summary)
    (ends : e.kind = .kwEnd) : FunctionSpelt names isVararg body (l :: (params ++ r :: (ts ++ [e]))) where
  header := ⟨l, params, r, ts ++ [e], rfl, opens, closes, spelt⟩
  body around us := by
    have stop : Token.signaturesIn (true :: around) (e :: us) = Token.signaturesIn around us := by
      rw [Token.signaturesIn, ends]
      rfl
    rw [List.cons_append, Token.signaturesIn_inert (by rw [opens]; rfl), List.append_assoc,
      Token.signaturesIn_inert_append (fun t member => (spelt.inside t member).1), List.cons_append,
      Token.signaturesIn_inert (by rw [closes]; rfl), List.append_assoc, inside, List.singleton_append, stop,
      List.count_cons_self]

theorem FunctionSpelt.ofHeader_eq (h : FunctionSpelt names isVararg body ts) {before : List Token}
    (outside : ∀ t ∈ before, t.kind ≠ .lparen) (depth : Nat) (us : List Token) :
    Signature.ofHeader depth (before ++ (ts ++ us)) =
      ⟨depth, names.length + before.countP (·.kind = .colon), isVararg⟩ := by
  obtain ⟨l, params, r, rest, rfl, opens, closes, spelt⟩ := h.header
  have name : (before ++ (l :: (params ++ r :: rest) ++ us)).takeWhile (·.kind ≠ .lparen) = before := by
    rw [List.takeWhile_append_of_pos (by simpa using outside), List.cons_append, List.takeWhile_cons_of_neg (by simp [opens]),
      List.append_nil]
  have behind : (before ++ (l :: (params ++ r :: rest) ++ us)).dropWhile (·.kind ≠ .lparen) =
      l :: (params ++ (r :: rest ++ us)) := by
    rw [List.dropWhile_append_of_pos (by simpa using outside), List.cons_append, List.dropWhile_cons_of_neg (by simp [opens]),
      List.append_assoc]
  have list : (params ++ (r :: rest ++ us)).takeWhile (·.kind ≠ .rparen) = params := by
    rw [List.takeWhile_append_of_pos (by simpa using fun t member => (spelt.inside t member).2), List.cons_append,
      List.takeWhile_cons_of_neg (by simp [closes]), List.append_nil]
  simp only [Signature.ofHeader, name, behind, List.drop_succ_cons, List.drop_zero, list, spelt.count, spelt.last]

theorem FunctionSpelt.spans {before : List Token} {f : Token} (h : FunctionSpelt names isVararg body ts)
    (keyword : f.kind = .kwFunction) (outside : ∀ t ∈ before, t.kind.isInert = true ∧ t.kind ≠ .lparen)
    (more : List String) (colons : before.countP (·.kind = .colon) = more.length) :
    Spans (f :: (before ++ ts)) (weights.function ⟨more ++ names, isVararg, body⟩ body.summary) := by
  intro around us
  have start : Token.signaturesIn around (f :: (before ++ ts ++ us)) =
      .ofHeader (1 + around.count true) (before ++ ts ++ us) :: Token.signaturesIn (true :: around) (before ++ ts ++ us) := by
    rw [Token.signaturesIn, keyword]
  rw [List.cons_append, start, List.append_assoc, h.ofHeader_eq fun t member => (outside t member).2,
    Token.signaturesIn_inert_append fun t member => (outside t member).1, h.body, ← Nat.add_assoc, colons,
    Nat.add_comm names.length, ← List.length_append]
  rfl

def NameSpelt (ts : List Token) : Prop := ∀ t ∈ ts, t.kind = .dot ∨ t.kind = .identifier

namespace NameSpelt

variable {ts : List Token} {c m : Token}

theorem outside (h : NameSpelt ts) : ∀ t ∈ ts, t.kind.isInert = true ∧ t.kind ≠ .lparen := by
  intro t member
  rcases h t member with kind | kind <;> rw [kind] <;> decide

theorem outside_method (h : NameSpelt ts) (colon : c.kind = .colon) (method : m.kind = .identifier) :
    ∀ t ∈ ts ++ [c, m], t.kind.isInert = true ∧ t.kind ≠ .lparen := by
  have behind : ∀ t ∈ [c, m], t.kind.isInert = true ∧ t.kind ≠ .lparen := by simp [colon, method, TokenKind.isInert]
  exact List.forall_mem_append.mpr ⟨h.outside, behind⟩

theorem colons (h : NameSpelt ts) : ts.countP (·.kind = .colon) = 0 := by
  refine List.countP_eq_zero.mpr fun t member => ?_
  rcases h t member with kind | kind <;> simp [kind]

end NameSpelt

/-- The tokens of a phrase show the functions that are written in its tree. What builds on a tree shows those that it
    adds. -/
abbrev Phrase.Spelt (ts : List Token) : Phrase → Prop
  | .exp _ e | .simpleExp e | .primaryExp e | .table e => Spans ts (e.weigh weights)
  | .operators _ head e | .suffixes head e => ∃ added, e.weigh weights = head.weigh weights * added ∧ Spans ts added
  | .fieldNames head e => e.weigh weights = head.weigh weights ∧ (head.isVar = true → e.isVar = true) ∧ NameSpelt ts
  | .args es | .expList es | .moreExps es => Spans ts (Exp.weighEach weights es).prod
  | .moreTargets es => Spans ts (Exp.weighTargets weights es).prod
  | .fields keys values =>
    Spans ts (List.zipWith (· * ·) (Exp.weighKeys weights keys) (Exp.weighEach weights values)).prod
  | .field key value => Spans ts (Exp.weigh? weights key * value.weigh weights)
  | .moreNames _ => Spans ts 1
  | .params names isVararg => ParamsSpelt names isVararg ts
  | .funcBody names isVararg body => FunctionSpelt names isVararg body ts
  | .block stats => Spans ts (Block.weigh weights stats)
  | .returnStat s | .stat s => Spans ts (s.kind.weigh weights)
  | .moreArms guards blocks => Spans ts (List.zipWith (fun g b => g * weights.scope false b)
      (Exp.weighEach weights guards) (Block.weighEach weights blocks)).prod

theorem UnOp.isInert_of_ofKind? {op : UnOp} (h : UnOp.ofKind? kind = some op) : kind.isInert = true := by
  cases kind <;> first | rfl | cases h

theorem BinOp.isInert_of_ofKind? {op : BinOp} (h : BinOp.ofKind? kind = some op) : kind.isInert = true := by
  cases kind <;> first | rfl | cases h

theorem Derives.spelt {p : Phrase} {next : TokenKind} (h : Derives p ts next) : p.Spelt ts := by
  induction h with
  | unop kind _ _ operand rest =>
    obtain ⟨added, parts, spans⟩ := rest
    exact (Spans.skip rfl (UnOp.isInert_of_ofKind? kind) (operand.append spans)).congr parts.symm
  | simple _ _ operand rest =>
    obtain ⟨added, parts, spans⟩ := rest
    exact (operand.append spans).congr parts.symm
  | operand | head => exact ⟨1, (mul_one _).symm, .nil⟩
  | binop kind _ _ _ rhs rest =>
    obtain ⟨added, parts, spans⟩ := rest
    refine ⟨_, ?_, Spans.skip rfl (BinOp.isInert_of_ofKind? kind) (rhs.append spans)⟩
    rw [parts, Exp.weigh, mul_assoc]
  | nil kind | kwTrue kind | kwFalse kind | vararg kind | string kind => exact .one kind rfl
  | @number t n _ kind _ => exact (Spans.one kind rfl).congr (by cases n <;> rfl)
  | tableExp _ inner | primary _ inner => exact inner
  | function kind _ body =>
    have none : ∀ t ∈ ([] : List Token), t.kind.isInert = true ∧ t.kind ≠ .lparen := nofun
    exact body.spans kind none [] rfl
  | name kind _ rest =>
    obtain ⟨added, parts, spans⟩ := rest
    exact (Spans.skip kind rfl spans).congr (by rw [parts, Exp.weigh, one_mul])
  | paren opens _ closes _ inner rest =>
    obtain ⟨added, parts, spans⟩ := rest
    exact (Spans.skip opens rfl (inner.append (.skip closes rfl spans))).congr parts.symm
  | dotName dot kind _ rest =>
    obtain ⟨added, parts, spans⟩ := rest
    refine ⟨added, ?_, .skip dot rfl (.skip kind rfl spans)⟩
    rw [parts, Exp.weigh, Exp.weigh, mul_one]
  | index opens _ closes _ key rest =>
    obtain ⟨added, parts, spans⟩ := rest
    refine ⟨_, ?_, Spans.skip opens rfl (key.append (.skip closes rfl spans))⟩
    rw [parts, Exp.weigh, mul_assoc]
  | method colon kind _ _ args rest =>
    obtain ⟨added, parts, spans⟩ := rest
    refine ⟨_, ?_, Spans.skip colon rfl (.skip kind rfl (args.append spans))⟩
    simp [parts, Exp.weigh, Exp.weighEach, Exp.isIndex, mul_assoc]
  | call _ _ args rest =>
    obtain ⟨added, parts, spans⟩ := rest
    refine ⟨_, ?_, args.append spans⟩
    simp [parts, Exp.weigh, mul_assoc]
  | noArgs opens closes => exact .skip opens rfl (.one closes rfl)
  | argList opens _ closes list =>
    exact (Spans.skip opens rfl (list.append (.one closes rfl))).congr (mul_one _)
  | tableArg _ inner => exact inner.congr (mul_one _).symm
  | stringArg kind => exact .one kind rfl
  | expList _ _ first others => exact first.append others
  | lastExp | noFields | lastName | blockEnd | lastArm | lastTarget => exact .nil
  | moreExps comma _ _ first others => exact .skip comma rfl (first.append others)
  | moreTargets comma _ _ first others => exact .skip comma rfl (first.target.append others)
  | table opens _ closes inside =>
    exact (Spans.skip opens rfl (inside.append (.one closes rfl))).congr (mul_one _)
  | lastField _ _ _ field => exact field.congr (by simp [Exp.weighKeys, Exp.weighEach])
  | fields _ separator _ field others =>
    have inert : ∀ {c : Token}, c.kind = .comma ∨ c.kind = .semi → c.kind.isInert = true := by
      rintro c (kind | kind) <;> rw [kind] <;> rfl
    exact field.append (.skip rfl (inert separator) others)
  | keyField opens _ closes assign _ key value =>
    exact .skip opens rfl (key.append (.skip closes rfl (.skip assign rfl value)))
  | nameField kind assign _ value => exact .skip kind rfl (.skip assign rfl value)
  | field _ _ value => exact value
  | moreNames comma kind _ names => exact .skip comma rfl (.skip kind rfl names)
  | target => exact ⟨rfl, id, nofun⟩
  | fieldNames dot kind _ rest =>
    obtain ⟨same, var, names⟩ := rest
    refine ⟨?_, fun _ => var rfl, List.forall_mem_cons.mpr ⟨.inl dot, List.forall_mem_cons.mpr ⟨.inr kind, names⟩⟩⟩
    rw [same, Exp.weigh, Exp.weigh, mul_one]
  | lastParam kind _ => exact ⟨by simp [kind, TokenKind.isInert], by simp [kind], by simp [kind]⟩
  | params kind comma _ rest => exact rest.cons kind comma
  | dots kind => exact ⟨by simp [kind, TokenKind.isInert], by simp [kind], by simp [kind]⟩
  | noParams opens closes _ ends body =>
    have none : ParamsSpelt [] false [] := ⟨nofun, rfl, rfl⟩
    exact .of_parts opens none closes body ends
  | funcBody opens _ closes _ ends params body => exact .of_parts opens params closes body ends
  | @blockReturn s _ _ _ last =>
    cases s
    exact last.congr (mul_one _).symm
  | @block s _ _ _ _ _ _ first others =>
    cases s
    exact first.append others
  | ret kind => exact .one kind rfl
  | retSemi kind semi => exact .skip kind rfl (.one semi rfl)
  | retExps kind _ _ list => exact .skip kind rfl list
  | retExpsSemi kind _ semi list =>
    exact (Spans.skip kind rfl (list.append (.one semi rfl))).congr (mul_one _)
  | empty kind | breakLoop kind => exact .one kind rfl
  | label opens kind closes => exact .skip opens rfl (.skip kind rfl (.one closes rfl))
  | goto keyword kind => exact .skip keyword rfl (.one kind rfl)
  | doBlock opens _ ends body => exact .enclosed (.inl opens) body ends
  | whileDo keyword _ opens _ ends guard body =>
    exact .skip keyword rfl (guard.append (.enclosed (.inl opens) body ends))
  | repeatUntil keyword _ stops _ body guard => exact .skip keyword rfl (body.append (.skip stops rfl guard))
  | ifThen opens _ then_ _ _ ends guard body others =>
    have arms := guard.append (.skip then_ rfl ((body.scope false).append others))
    have spans := Spans.enclosed (.inr opens) arms ends
    simp only [List.append_assoc, List.cons_append] at spans
    exact spans.congr (mul_assoc ..).symm
  | elseIf keyword _ then_ _ _ guard body others =>
    exact (Spans.skip keyword rfl (guard.append (.skip then_ rfl ((body.scope false).append others)))).congr
      (mul_assoc ..).symm
  | otherwise keyword _ body =>
    refine (Spans.skip keyword rfl (body.scope false)).congr ?_
    simp [Exp.weighEach, Block.weighEach, Exp.weigh]
  | numericFor keyword kind assign _ comma _ opens _ ends init limit body =>
    refine ((Spans.skip keyword rfl (.skip kind rfl (.skip assign rfl (init.append (.skip comma rfl
      (limit.append (.enclosed (.inl opens) body ends))))))).congr ?_).scope true
    simp [Exp.weigh?, mul_assoc]
  | numericForStep keyword kind assign _ comma _ comma' _ opens _ ends init limit step body =>
    refine ((Spans.skip keyword rfl (.skip kind rfl (.skip assign rfl (init.append (.skip comma rfl
      (limit.append (.skip comma' rfl (step.append (.enclosed (.inl opens) body ends))))))))).congr ?_).scope true
    simp [Exp.weigh?, mul_assoc]
  | genericFor keyword kind _ within _ opens _ ends names list body =>
    exact .skip keyword rfl (.skip kind rfl (names.append (.skip within rfl
      (list.append (.enclosed (.inl opens) body ends)))))
  | functionStat keyword kind _ _ names body =>
    obtain ⟨same, var, names⟩ := names
    have name : NameSpelt (_ :: _) := List.forall_mem_cons.mpr ⟨.inr kind, names⟩
    refine (body.spans keyword name.outside [] name.colons).congr ?_
    simp [Stat.kind, StatKind.weigh, Exp.weighEach, Exp.weighTargets, same, var rfl, Exp.weigh]
  | methodStat keyword kind _ colon method _ names body =>
    obtain ⟨same, _, names⟩ := names
    have name : NameSpelt (_ :: _) := List.forall_mem_cons.mpr ⟨.inr kind, names⟩
    have spans := body.spans keyword (name.outside_method colon method) ["self"]
      (by rw [List.countP_append, name.colons]; simp [colon, method])
    rw [List.append_assoc] at spans
    refine spans.congr ?_
    simp [Stat.kind, StatKind.weigh, Exp.weighEach, Exp.weighTargets, same, Exp.isVar, Exp.weigh]
  | localFunction keyword function kind _ body =>
    have name : NameSpelt [_] := List.forall_mem_singleton.mpr (.inr kind)
    exact Spans.skip keyword rfl (body.spans function name.outside [] name.colons)
  | localDecl keyword kind _ _ names => exact .skip keyword rfl (.skip kind rfl names)
  | localInit keyword kind _ assign _ names list =>
    exact .skip keyword rfl (.skip kind rfl (names.append (.skip assign rfl list)))
  | assign _ _ _ assign _ first others values =>
    have spans := first.target.append (others.append (.skip assign rfl values))
    exact spans.congr (mul_assoc ..).symm
  | callStat _ _ _ call => exact call

section

variable {P : List String → Prop} {block : Block} {name : String} {p : Prototype}

theorem Block.compile_yields (paired : Block.Paired P block) (compiled : block.compile name = .ok p) :
    ∃ t, Lowering.Yields true block.summary Lowering.chunkStart t ∧ t.frame.toPrototype (some name) = p := by
  obtain ⟨s, t, first, run, rfl⟩ := Block.compile_eq compiled
  cases ofChunk_eq.symm.trans first
  obtain ⟨_, _, yields⟩ := (emitChunk_matches paired Lowering.chunkStart).of_ok run
  exact ⟨t, yields, rfl⟩

theorem Block.compile_signatures (paired : Block.Paired P block) (compiled : block.compile name = .ok p) :
    p.signatures 0 = ⟨0, 0, true⟩ :: block.summary.functions 1 := by
  obtain ⟨t, yields, rfl⟩ := Block.compile_yields paired compiled
  have params : t.frame.params = 0 := yields.params
  have isVararg : t.frame.isVararg = true := congrArg Setting.isVararg yields.setting
  have nested : Prototype.signaturesAll 1 t.frame.functions.toList = block.summary.functions 1 := yields.signatures 1
  rw [Frame.toPrototype, Prototype.signatures, params, isVararg, nested]

theorem Block.compile_lists (paired : Block.Paired P block) (compiled : block.compile name = .ok p) :
    Prototype.Lists [p] (⟨[], true, block⟩ :: block.summary.written) := by
  obtain ⟨start, finish, pc, f, _, enters, lowered, finished, rfl⟩ := Block.compile_ok compiled
  obtain ⟨t, yields, same⟩ := Block.compile_yields paired compiled
  have inside : Prototype.Lists (f.toPrototype (some name)).functions block.summary.written := by
    rw [← same]
    exact yields.written [] .nil
  have one := Prototype.Lists.cons ⟨some name, finish, pc, f, enters, lowered, finished, rfl⟩ inside .nil
  rwa [List.append_nil] at one

end

namespace Chunk

/-- The functions of a tree of prototypes, each before those inside it, are those that the tokens show: as many as there
    are keywords, in their order, nested as they are and with the parameters that are written. Each comes from the body
    of its own function. -/
theorem compile_keeps_functions {source name : String} {p : Prototype} (compiled : compile source name = .ok p) :
    ∃ ts, tokens source = .ok ts ∧ p.count = 1 + ts.countP (·.kind = .kwFunction) ∧
      p.signatures 0 = ⟨0, 0, true⟩ :: Token.signatures ts ∧
      ∃ block, parse source = .ok block ∧ Prototype.Lists [p] (⟨[], true, block⟩ :: block.summary.written) := by
  obtain ⟨block, parsed, lowered⟩ := compile_eq_ok_iff.mp compiled
  obtain ⟨⟨line, ending⟩, derives⟩ := Block.parse_spelt (TokenStream.ofSource_kind source) parsed
  have spans : Spans (TokenStream.ofSource source).tokens block.summary := derives.spelt
  have shown : Token.signatures (TokenStream.ofSource source).tokens = block.summary.functions 1 := by
    simpa [Token.signatures, Token.signaturesIn] using spans [] []
  have kept : p.signatures 0 = ⟨0, 0, true⟩ :: Token.signatures (TokenStream.ofSource source).tokens := by
    rw [shown]
    exact Block.compile_signatures (parse_grammatical parsed).paired lowered
  have lists := Block.compile_lists (parse_grammatical parsed).paired lowered
  refine ⟨(TokenStream.ofSource source).tokens, ?_, ?_, kept, block, parsed, lists⟩
  · rw [tokens, TokenStream.toExcept, ending]
  · rw [← Prototype.length_signatures 0 p, kept, List.length_cons, Token.signatures, Token.length_signaturesIn,
      Nat.add_comm]

theorem compile_keeps_functions_of_closures :
    ∃ p ts, compile "local function f(a, ...) if a then return function(b) end end local g = function() end end" "f" = .ok p ∧
      tokens "local function f(a, ...) if a then return function(b) end end local g = function() end end" = .ok ts ∧
      p.count = 1 + ts.countP (·.kind = .kwFunction) ∧ p.signatures 0 = ⟨0, 0, true⟩ :: Token.signatures ts ∧
      Token.signatures ts = [⟨1, 1, true⟩, ⟨2, 1, false⟩, ⟨2, 0, false⟩] ∧
      ∃ block, parse "local function f(a, ...) if a then return function(b) end end local g = function() end end" = .ok block ∧
        Prototype.Lists [p] (⟨[], true, block⟩ :: block.summary.written) := by
  simp only [exists_and_left]
  refine exists_ok (fun p => decide (p.signatures 0 = [⟨0, 0, true⟩, ⟨1, 1, true⟩, ⟨2, 1, false⟩, ⟨2, 0, false⟩]))
    (by decide +kernel) fun p compiled checked => ?_
  obtain ⟨ts, read, count, kept, lists⟩ := compile_keeps_functions compiled
  have shown := kept.symm.trans (of_decide_eq_true checked)
  exact ⟨ts, read, count, kept, List.tail_eq_of_cons_eq shown, lists⟩

example : (tokens "function a.b:c(x, ...) local f = function(x, y) end end function g() end").toOption.map Token.signatures =
    some [⟨1, 2, true⟩, ⟨2, 2, false⟩, ⟨1, 0, false⟩] := by
  decide +kernel

end Chunk

end LuaBytecode
