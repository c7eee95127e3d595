import LuaBytecode.Proofs.Grammar.Reading

namespace LuaBytecode

variable {line : Nat} {x c d e : Token} {names : List String} {isVararg : Bool}

namespace Parser

/-- With enough fuel, the reader of the phrase reads these tokens as it. The fuel is ten for each token, and one for
    each call that comes before the first of them. -/
def Completes (ts : List Token) (n : TokenKind) : Phrase → Prop
  | .exp limit e => ∀ fuel, 10 * ts.length + 3 ≤ fuel → Reads (exp fuel limit) ts e n
  | .operators limit lhs e => ∀ fuel, 10 * ts.length + 1 ≤ fuel → Reads (operators fuel limit lhs) ts e n
  | .simpleExp e => ∀ fuel, 10 * ts.length + 2 ≤ fuel → Reads (simpleExp fuel) ts e n
  | .primaryExp e => ∀ fuel, 10 * ts.length + 1 ≤ fuel → Reads (primaryExp fuel) ts e n
  | .suffixes head e => ∀ fuel, 10 * ts.length + 3 ≤ fuel → Reads (suffixes fuel head) ts e n
  | .args es => ∀ fuel, 10 * ts.length + 2 ≤ fuel → Reads (args fuel) ts es n
  | .expList es => ∀ fuel, 10 * ts.length + 4 ≤ fuel → Reads (expList fuel) ts es n
  | .moreExps es => ∀ fuel, 10 * ts.length + 1 ≤ fuel → ∀ read, Reads (moreExps fuel read) ts (read.reverse ++ es) n
  | .table e => ∀ fuel, 10 * ts.length + 1 ≤ fuel → Reads (table fuel) ts e n
  | .fields ks vs => ∀ fuel, 10 * ts.length + 5 ≤ fuel → ∀ keys values,
    Reads (fields fuel keys values) ts (keys.reverse ++ ks, values.reverse ++ vs) n
  | .field k v => ∀ fuel, 10 * ts.length + 4 ≤ fuel → Reads (field fuel) ts (k, v) n
  | .moreNames xs => ∀ fuel, 10 * ts.length + 1 ≤ fuel → ∀ read,
    Reads (moreNames fuel read) ts (read.reverse ++ xs) n
  | .fieldNames head e => ∀ fuel, 10 * ts.length + 1 ≤ fuel → Reads (fieldNames fuel head) ts e n
  | .params xs isVararg => ∀ fuel, 10 * ts.length + 1 ≤ fuel → ∀ read,
    Reads (params fuel read) ts (read.reverse ++ xs, isVararg) n
  | .funcBody params isVararg body => ∀ fuel, 10 * ts.length + 1 ≤ fuel → ∀ line,
    Reads (funcBody fuel line) ts (params, isVararg, body) n
  | .block body => ∀ fuel, 10 * ts.length + 4 ≤ fuel → ∀ read, Reads (block fuel read) ts (read.reverse ++ body) n
  | .returnStat s => ∀ fuel, 10 * ts.length + 1 ≤ fuel → Reads (returnStat fuel) ts s n
  | .stat s => ∀ fuel, 10 * ts.length + 3 ≤ fuel → Reads (stat fuel) ts s n
  | .moreArms gs bs => ∀ fuel, 10 * ts.length + 1 ≤ fuel → ∀ guards blocks,
    Reads (moreArms fuel guards blocks) ts (guards.reverse ++ gs, blocks.reverse ++ bs) n
  | .moreTargets es => ∀ fuel, 10 * ts.length + 1 ≤ fuel → ∀ read,
    Reads (moreTargets fuel read) ts (read.reverse ++ es) n

namespace Completes

variable {ts us vs ws : List Token} {n : TokenKind} {fuel : Nat} {body : Block} {params : List String}
  {init limit target : Exp} {exps : List Exp} {a : Token}

theorem before {p : Phrase} {k : TokenKind} {t : Token} (h : Completes ts k p) (same : t.kind = k) :
    Completes ts t.kind p := same ▸ h

theorem name (identifier : x.kind = .identifier) (enough : 13 ≤ fuel) :
    Reads (Parser.exp fuel 0) [x] (.name x.text) .assign := by
  obtain ⟨fuel, rfl⟩ : ∃ f, fuel = f + 4 := ⟨fuel - 4, by omega⟩
  have simple : Reads (Parser.simpleExp (fuel + 3)) [x] (.name x.text) .assign := by
    rw [Parser.simpleExp]
    apply peek_reads
    simp only [ahead_cons, identifier]
    rw [Parser.primaryExp]
    apply peek_reads
    simp only [ahead_cons, identifier]
    apply name_reads identifier
    rw [Parser.suffixes]
    exact peek_reads Reads.pure
  have none : Reads (Parser.operators (fuel + 3) 0 (.name x.text)) [] (.name x.text) .assign := by
    rw [Parser.operators]
    exact peek_reads Reads.pure
  rw [Parser.exp]
  apply peek_reads
  simp only [ahead_cons, identifier, UnOp.ofKind?]
  exact simple.bind none

theorem numericFor {x : String} (first : Completes us .comma (.exp 0 init)) (comma : c.kind = .comma)
    (second : Completes vs .kwDo (.exp 0 limit)) (dos : d.kind = .kwDo) (whole : Completes ws .kwEnd (.block body))
    (ending : e.kind = .kwEnd) (enough : 10 * (us.length + vs.length + ws.length) + 5 ≤ fuel) :
    Reads (Parser.numericFor fuel x line) (us ++ c :: (vs ++ d :: (ws ++ [e])))
      (.numericFor x init limit none body) n := by
  obtain _ | fuel := fuel
  · omega
  rw [Parser.numericFor]
  apply (first _ (by omega)).andExpect comma
  apply (second.before dos _ (by omega)).bind
  apply accept_passes (by simp [dos])
  rw [if_neg (by decide), pure_bind]
  apply expect_reads dos
  apply (whole _ (by omega) []).andClose ending
  exact Reads.pure

theorem numericForStep {step : Exp} {b : Token} {ss : List Token} {x : String}
    (first : Completes us .comma (.exp 0 init)) (comma : c.kind = .comma) (second : Completes vs .comma (.exp 0 limit))
    (comma' : b.kind = .comma) (third : Completes ss .kwDo (.exp 0 step)) (dos : d.kind = .kwDo)
    (whole : Completes ws .kwEnd (.block body)) (ending : e.kind = .kwEnd)
    (enough : 10 * (us.length + vs.length + ss.length + ws.length) + 5 ≤ fuel) :
    Reads (Parser.numericFor fuel x line) (us ++ c :: (vs ++ b :: (ss ++ d :: (ws ++ [e]))))
      (.numericFor x init limit (some step) body) n := by
  obtain _ | fuel := fuel
  · omega
  rw [Parser.numericFor]
  apply (first _ (by omega)).andExpect comma
  apply (second.before comma' _ (by omega)).bind
  apply accept_reads comma'
  simp only [if_true, map_eq_pure_bind, bind_assoc, pure_bind]
  apply (third _ (by omega)).andExpect dos
  apply (whole _ (by omega) []).andClose ending
  exact Reads.pure

theorem genericFor {i : Token} {x : String} (first : Completes us .kwIn (.moreNames names)) (ins : i.kind = .kwIn)
    (second : Completes vs .kwDo (.expList exps)) (dos : d.kind = .kwDo) (whole : Completes ws .kwEnd (.block body))
    (ending : e.kind = .kwEnd) (enough : 10 * (us.length + vs.length + ws.length) + 5 ≤ fuel) :
    Reads (Parser.genericFor fuel x line) (us ++ i :: (vs ++ d :: (ws ++ [e])))
      (.genericFor (x :: names) exps body) n := by
  obtain _ | fuel := fuel
  · omega
  rw [Parser.genericFor]
  apply (first _ (by omega) [x]).andExpect ins
  apply (second _ (by omega)).andExpect dos
  apply (whole _ (by omega) []).andClose ending
  exact Reads.pure

theorem functionStat (identifier : x.kind = .identifier)
    (first : Completes us .lparen (.fieldNames (.name x.text) target)) (opener : ahead vs n = .lparen)
    (function : Completes vs n (.funcBody params isVararg body)) (enough : 10 * (us.length + vs.length) + 2 ≤ fuel) :
    Reads (Parser.functionStat fuel line) (x :: (us ++ vs)) (.assign [target] [.function params isVararg body]) n := by
  obtain _ | fuel := fuel
  · omega
  rw [Parser.functionStat]
  apply name_reads identifier
  rw [← opener] at first
  apply (first _ (by omega)).bind
  apply acceptThen_passes (by simp [opener])
  exact (function _ (by omega) line).andPure

theorem methodStat {m : Token} (identifier : x.kind = .identifier)
    (first : Completes us .colon (.fieldNames (.name x.text) target)) (colon : c.kind = .colon)
    (method : m.kind = .identifier) (function : Completes vs n (.funcBody params isVararg body))
    (enough : 10 * (us.length + vs.length) + 2 ≤ fuel) :
    Reads (Parser.functionStat fuel line) (x :: (us ++ c :: m :: vs))
      (.assign [.index target (.string m.text)] [.function ("self" :: params) isVararg body]) n := by
  obtain _ | fuel := fuel
  · omega
  rw [Parser.functionStat]
  apply name_reads identifier
  apply (first.before colon _ (by omega)).bind
  apply acceptThen_reads colon
  apply name_reads method
  exact (function _ (by omega) line).andPure

theorem localFunction {f : Token} (isFunction : f.kind = .kwFunction) (identifier : x.kind = .identifier)
    (function : Completes us n (.funcBody params isVararg body)) (enough : 10 * us.length + 2 ≤ fuel) :
    Reads (Parser.localStat fuel line) (f :: x :: us) (.localFunction x.text params isVararg body) n := by
  obtain _ | fuel := fuel
  · omega
  rw [Parser.localStat]
  apply acceptThen_reads isFunction
  apply name_reads identifier
  exact (function _ (by omega) line).andPure

theorem localDecl (identifier : x.kind = .identifier) (first : Completes us n (.moreNames names)) (other : n ≠ .assign)
    (enough : 10 * us.length + 2 ≤ fuel) :
    Reads (Parser.localStat fuel line) (x :: us) (.localDecl (x.text :: names) []) n := by
  obtain _ | fuel := fuel
  · omega
  rw [Parser.localStat]
  apply acceptThen_passes (by simp [identifier])
  apply name_reads identifier
  rw [← List.append_nil us]
  apply (first _ (by omega) [x.text]).bind
  apply accept_passes
  · exact other
  · rw [if_neg (by decide), pure_bind]
    exact Reads.pure

theorem localInit (identifier : x.kind = .identifier) (first : Completes us .assign (.moreNames names))
    (assign : a.kind = .assign) (values : Completes vs n (.expList exps))
    (enough : 10 * (us.length + vs.length) + 5 ≤ fuel) :
    Reads (Parser.localStat fuel line) (x :: (us ++ a :: vs)) (.localDecl (x.text :: names) exps) n := by
  obtain _ | fuel := fuel
  · omega
  rw [Parser.localStat]
  apply acceptThen_passes (by simp [identifier])
  apply name_reads identifier
  apply (first.before assign _ (by omega) [x.text]).bind
  apply accept_reads assign
  rw [if_pos rfl]
  exact (values _ (by omega)).andPure

theorem assign {first : Exp} {targets values : List Exp} (head : Completes ts (ahead us .assign) (.primaryExp first))
    (listed : ahead us .assign = .assign ∨ ahead us .assign = .comma)
    (more : Completes us .assign (.moreTargets targets)) (vars : (first :: targets).all Exp.isVar = true)
    (assign : a.kind = .assign) (exps : Completes vs n (.expList values))
    (enough : 10 * (ts.length + us.length + vs.length) + 5 ≤ fuel) :
    Reads (Parser.assignOrCall fuel) (ts ++ (us ++ a :: vs)) (.assign (first :: targets) values) n := by
  obtain ⟨fuel, rfl⟩ : ∃ f, fuel = f + 1 := ⟨fuel - 1, by omega⟩
  have across : ahead (us ++ a :: vs) n = ahead us .assign := by rw [ahead_append, ahead_cons, assign]
  rw [Parser.assignOrCall]
  rw [← across] at head
  apply (head _ (by omega)).bind
  apply peek_reads
  rw [across, if_pos (by simpa using listed)]
  apply (more.before assign _ (by omega) [first]).bind
  have joined : [first].reverse ++ targets = first :: targets := rfl
  rw [joined, if_pos vars]
  apply expect_reads assign
  exact (exps _ (by omega)).andPure

theorem callStat {callee : Exp} {args : List Exp} {isMethod : Bool}
    (whole : Completes ts n (.primaryExp (.call callee args isMethod))) (notAssign : n ≠ .assign)
    (notComma : n ≠ .comma) (enough : 10 * ts.length + 2 ≤ fuel) :
    Reads (Parser.assignOrCall fuel) ts (.call callee args isMethod) n := by
  obtain _ | fuel := fuel
  · omega
  rw [Parser.assignOrCall, ← List.append_nil ts]
  apply (whole _ (by omega)).bind
  apply peek_reads
  rw [ahead_nil, if_neg (by simp [notAssign, notComma])]
  exact Reads.pure

section Statement

variable {t : Token} {kind : StatKind} {guard : Exp}

theorem bareStat (same : t.kind = .semi ∧ kind = .empty ∨ t.kind = .kwBreak ∧ kind = .breakLoop) :
    Reads (stat (fuel + 1)) [t] (.mk t.line kind) n := by
  rw [Parser.stat]
  apply look_reads
  obtain ⟨same, rfl⟩ | ⟨same, rfl⟩ := same
  · exact peek_next_reads same rfl Reads.pure
  · exact peek_next_reads same rfl Reads.pure

theorem label (opener : c.kind = .doubleColon) (identifier : x.kind = .identifier) (closer : d.kind = .doubleColon) :
    Reads (stat (fuel + 1)) [c, x, d] (.mk c.line (.label x.text)) n := by
  rw [Parser.stat]
  apply look_reads
  apply peek_next_reads opener rfl
  apply name_reads identifier
  apply expect_reads closer
  exact Reads.pure

theorem goto (same : t.kind = .kwGoto) (identifier : x.kind = .identifier) :
    Reads (stat (fuel + 1)) [t, x] (.mk t.line (.goto x.text)) n := by
  rw [Parser.stat]
  apply look_reads
  apply peek_next_reads same rfl
  apply name_reads identifier
  exact Reads.pure

theorem doBlock (same : t.kind = .kwDo) (whole : Completes ts .kwEnd (.block body)) (ending : e.kind = .kwEnd)
    (enough : 10 * ts.length + 4 ≤ fuel) :
    Reads (stat (fuel + 1)) (t :: (ts ++ [e])) (.mk t.line (.doBlock body)) n := by
  rw [Parser.stat]
  apply look_reads
  apply peek_next_reads same rfl
  apply (whole _ enough []).andClose ending
  exact Reads.pure

theorem whileDo (same : t.kind = .kwWhile) (test : Completes ts .kwDo (.exp 0 guard)) (dos : d.kind = .kwDo)
    (whole : Completes us .kwEnd (.block body)) (ending : e.kind = .kwEnd)
    (enough : 10 * (ts.length + us.length) + 4 ≤ fuel) :
    Reads (stat (fuel + 1)) (t :: (ts ++ d :: (us ++ [e]))) (.mk t.line (.whileDo guard body)) n := by
  rw [Parser.stat]
  apply look_reads
  apply peek_next_reads same rfl
  apply (test _ (by omega)).andExpect dos
  apply (whole _ (by omega) []).andClose ending
  exact Reads.pure

theorem repeatUntil (same : t.kind = .kwRepeat) (whole : Completes ts .kwUntil (.block body))
    (untils : d.kind = .kwUntil) (test : Completes us n (.exp 0 guard))
    (enough : 10 * (ts.length + us.length) + 4 ≤ fuel) :
    Reads (stat (fuel + 1)) (t :: (ts ++ d :: us)) (.mk t.line (.repeatUntil body guard)) n := by
  rw [Parser.stat]
  apply look_reads
  apply peek_next_reads same rfl
  apply (whole _ (by omega) []).andClose untils
  exact (test _ (by omega)).andPure

theorem ifThen {guards : List Exp} {blocks : List Block} (same : t.kind = .kwIf)
    (test : Completes ts .kwThen (.exp 0 guard)) (thens : d.kind = .kwThen)
    (whole : Completes us (ahead vs .kwEnd) (.block body)) (arms : Completes vs .kwEnd (.moreArms guards blocks))
    (ending : e.kind = .kwEnd) (enough : 10 * (ts.length + us.length + vs.length) + 4 ≤ fuel) :
    Reads (stat (fuel + 1)) (t :: (ts ++ d :: (us ++ (vs ++ [e]))))
      (.mk t.line (.ifThen (guard :: guards) (body :: blocks))) n := by
  have across : ahead (vs ++ [e]) n = ahead vs .kwEnd := by rw [ahead_append, ahead_cons, ending]
  rw [← across] at whole
  rw [Parser.stat]
  apply look_reads
  apply peek_next_reads same rfl
  apply (test _ (by omega)).andExpect thens
  apply (whole _ (by omega) []).bind
  apply (arms _ (by omega) [guard] [body]).andClose ending
  exact Reads.pure

theorem forAssign (same : t.kind = .kwFor) (identifier : x.kind = .identifier) (assign : a.kind = .assign)
    (rest : Reads (Parser.numericFor fuel x.text t.line) ts kind n) :
    Reads (stat (fuel + 1)) (t :: x :: a :: ts) (.mk t.line kind) n := by
  rw [Parser.stat]
  apply look_reads
  apply peek_next_reads same rfl
  apply name_reads identifier
  apply accept_reads assign
  rw [if_pos rfl]
  exact rest.andPure

theorem forNames (same : t.kind = .kwFor) (identifier : x.kind = .identifier) (other : ahead ts n ≠ .assign)
    (rest : Reads (Parser.genericFor fuel x.text t.line) ts kind n) :
    Reads (stat (fuel + 1)) (t :: x :: ts) (.mk t.line kind) n := by
  rw [Parser.stat]
  apply look_reads
  apply peek_next_reads same rfl
  apply name_reads identifier
  apply accept_passes other
  rw [if_neg (by decide)]
  exact rest.andPure

theorem declaration (same : t.kind = .kwFunction ∧ Reads (Parser.functionStat fuel t.line) ts kind n ∨
      t.kind = .kwLocal ∧ Reads (Parser.localStat fuel t.line) ts kind n) :
    Reads (stat (fuel + 1)) (t :: ts) (.mk t.line kind) n := by
  rw [Parser.stat]
  apply look_reads
  obtain ⟨same, rest⟩ | ⟨same, rest⟩ := same
  · exact peek_next_reads same rfl rest.andPure
  · exact peek_next_reads same rfl rest.andPure

theorem noKeyword (same : t.kind = .identifier ∨ t.kind = .lparen)
    (whole : Reads (Parser.assignOrCall fuel) (t :: ts) kind n) :
    Reads (stat (fuel + 1)) (t :: ts) (.mk t.line kind) n := by
  rw [Parser.stat]
  apply look_reads
  apply peek_reads
  rw [ahead_cons]
  obtain identifier | opener := same
  · simp only [identifier]
    exact whole.andPure
  · simp only [opener]
    exact whole.andPure

end Statement

end Completes

end Parser

namespace Derives

open LuaBytecode.Parser

variable {p : Phrase} {ts : List Token} {n : TokenKind}

theorem of_starts (h : Derives p ts n) (P : TokenKind → Prop) {kinds : List TokenKind}
    (starts : p.firsts = some kinds) (all : ∀ k ∈ kinds, P k) (n' : TokenKind) : P (ahead ts n') := by
  obtain ⟨t, us, rfl, member⟩ := h.starts _ starts
  exact all _ member

theorem listed {targets : List Exp} (h : Derives (.moreTargets targets) ts .assign) :
    ahead ts .assign = .assign ∨ ahead ts .assign = .comma := by
  cases h with
  | lastTarget => exact .inl rfl
  | moreTargets comma => exact .inr comma

theorem complete (h : Derives p ts n) : Completes ts n p := by
  induction h with
    (intro fuel enough
     try simp only [List.length_cons, List.length_append] at enough
     obtain ⟨fuel, rfl⟩ : ∃ f, fuel = f + 1 := ⟨fuel - 1, by omega⟩)
  | unop found _ _ operand rest =>
    rw [Parser.exp]
    apply peek_reads
    simp only [ahead_cons, found]
    apply next_reads
    exact (operand _ (by omega)).bind (rest _ (by omega))
  | simple first _ operand rest =>
    rw [Parser.exp]
    apply peek_reads
    rw [ahead_append, first.of_starts (UnOp.ofKind? · = none) rfl (by decide)]
    exact (operand _ (by omega)).bind (rest _ (by omega))
  | operand low =>
    rw [Parser.operators]
    apply peek_reads
    rw [ahead_nil]
    split
    · rename_i op found
      rw [if_pos (low op found)]
      exact Reads.pure
    · exact Reads.pure
  | binop found high _ _ right rest =>
    rw [Parser.operators]
    apply peek_reads
    simp only [ahead_cons, found]
    rw [if_neg (Nat.not_le_of_lt high)]
    apply next_reads
    exact (right _ (by omega)).bind (rest _ (by omega))
  | nil same | kwTrue same | kwFalse same | vararg same | string same =>
    rw [Parser.simpleExp]
    apply peek_next_reads same rfl
    exact Reads.pure
  | number same value =>
    rw [Parser.simpleExp]
    apply peek_next_reads same rfl
    simp only [numeral, value]
    exact Reads.pure
  | tableExp whole table =>
    rw [Parser.simpleExp]
    apply peek_reads
    rw [whole.of_starts (· = .lbrace) rfl (by decide)]
    exact table _ (by omega)
  | function same _ body =>
    rw [Parser.simpleExp]
    apply peek_next_reads same rfl
    exact (body _ (by omega) _).andPure
  | primary whole primary =>
    have primary := primary fuel (by omega)
    rw [Parser.simpleExp]
    apply peek_reads
    obtain identifier | opener := whole.of_starts (fun k => k = .identifier ∨ k = .lparen) rfl (by decide) _
    · rw [identifier]
      exact primary
    · rw [opener]
      exact primary
  | name identifier _ rest =>
    rw [Parser.primaryExp]
    apply peek_reads
    simp only [ahead_cons, identifier]
    apply name_reads identifier
    exact rest _ (by omega)
  | paren opener _ closer _ inner rest =>
    rw [Parser.primaryExp]
    apply peek_next_reads opener rfl
    apply (inner _ (by omega)).andClose closer
    exact rest _ (by omega)
  | head stops =>
    rw [Parser.suffixes]
    apply peek_reads
    rw [ahead_nil]
    split <;> first | exact Reads.pure | cases stops
  | dotName dot identifier _ rest =>
    rw [Parser.suffixes]
    apply peek_next_reads dot rfl
    apply name_reads identifier
    exact rest _ (by omega)
  | index opener _ closer _ key rest =>
    rw [Parser.suffixes]
    apply peek_next_reads opener rfl
    apply (key _ (by omega)).andExpect closer
    exact rest _ (by omega)
  | method colon identifier _ _ args rest =>
    rw [Parser.suffixes]
    apply peek_next_reads colon rfl
    apply name_reads identifier
    exact (args _ (by omega)).bind (rest _ (by omega))
  | call first _ args rest =>
    have positive := first.length_pos rfl
    rw [Parser.suffixes]
    apply peek_reads
    rw [ahead_append]
    obtain paren | brace | string :=
      first.of_starts (fun k => k = .lparen ∨ k = .lbrace ∨ k = .string) rfl (by decide) _
    · rw [paren]
      exact (args _ (by omega)).bind (rest _ (by omega))
    · rw [brace]
      exact (args _ (by omega)).bind (rest _ (by omega))
    · rw [string]
      exact (args _ (by omega)).bind (rest _ (by omega))
  | noArgs opener closer =>
    rw [Parser.args]
    apply peek_next_reads opener rfl
    apply peek_reads
    rw [ahead_cons, if_pos closer]
    apply close_reads closer
    exact Reads.pure
  | argList opener first closer exps =>
    rw [Parser.args]
    apply peek_next_reads opener rfl
    apply peek_reads
    rw [ahead_append, if_neg (first.of_starts (¬ · = .rparen) rfl (by decide) _)]
    apply (exps _ (by omega)).andClose closer
    exact Reads.pure
  | tableArg whole table =>
    rw [Parser.args]
    apply peek_reads
    rw [whole.of_starts (· = .lbrace) rfl (by decide)]
    exact (table _ (by omega)).andPure
  | stringArg same =>
    rw [Parser.args]
    apply peek_next_reads same rfl
    exact Reads.pure
  | expList _ _ first rest =>
    rw [Parser.expList]
    exact (first _ (by omega)).bind (rest _ (by omega) [_])
  | lastExp other =>
    intro read
    rw [Parser.moreExps, List.append_nil]
    exact acceptThen_passes other Reads.pure
  | moreExps comma _ _ first rest =>
    intro read
    rw [Parser.moreExps]
    apply acceptThen_reads comma
    apply (first _ (by omega)).bind
    simpa using rest _ (by omega) (_ :: read)
  | table opener _ closer fields =>
    rw [Parser.table]
    apply expect_reads opener
    apply (fields _ (by omega) [] []).andClose closer
    exact Reads.pure
  | noFields =>
    intro keys values
    rw [Parser.fields]
    apply peek_reads
    rw [ahead_nil, if_pos rfl, List.append_nil, List.append_nil]
    exact Reads.pure
  | @lastField _ _ ts _ first notComma notSemi field =>
    intro keys values
    rw [Parser.fields]
    apply peek_reads
    rw [if_neg (first.of_starts (¬ · = .rbrace) rfl (by decide) _), ← List.append_nil ts]
    apply (field _ (by omega)).bind
    apply acceptSeparator_passes
    · exact notComma
    · exact notSemi
    · simpa using Reads.pure
  | fields first separator _ field rest =>
    intro keys values
    rw [Parser.fields]
    apply peek_reads
    rw [ahead_append, if_neg (first.of_starts (¬ · = .rbrace) rfl (by decide) _)]
    apply (field _ (by omega)).bind
    apply acceptSeparator_reads separator
    simpa using rest _ (by omega) (_ :: keys) (_ :: values)
  | keyField opener _ closer assign _ key value =>
    rw [Parser.field]
    apply acceptThen_reads opener
    apply (key _ (by omega)).andExpect closer
    apply expect_reads assign
    exact (value _ (by omega)).andPure
  | @nameField _ x a ts n identifier assign _ value =>
    have name : Reads (Parser.exp fuel 0) [x] (.name x.text) (ahead (a :: ts) n) := by
      rw [ahead_cons, assign]
      exact Completes.name identifier (by omega)
    rw [Parser.field]
    apply acceptThen_passes (by simp [ahead, identifier])
    apply name.bind
    apply acceptThen_reads assign
    exact (value _ (by omega)).andPure
  | @field _ ts _ first other value =>
    rw [Parser.field]
    apply acceptThen_passes (first.of_starts (· ≠ .lbracket) rfl (by decide) _)
    rw [← List.append_nil ts]
    apply (value _ (by omega)).bind
    split
    · exact acceptThen_passes (other ⟨_, rfl⟩) Reads.pure
    · exact Reads.pure
  | lastName other =>
    intro read
    rw [Parser.moreNames, List.append_nil]
    exact acceptThen_passes other Reads.pure
  | moreNames comma identifier _ rest =>
    intro read
    rw [Parser.moreNames]
    apply acceptThen_reads comma
    apply name_reads identifier
    simpa using rest _ (by omega) (_ :: read)
  | target other =>
    rw [Parser.fieldNames]
    exact acceptThen_passes other Reads.pure
  | fieldNames dot identifier _ rest =>
    rw [Parser.fieldNames]
    apply acceptThen_reads dot
    apply name_reads identifier
    exact rest _ (by omega)
  | lastParam identifier other =>
    intro read
    rw [Parser.params]
    apply peek_reads
    simp only [ahead_cons, identifier]
    apply name_reads identifier
    apply acceptThen_passes
    · exact other
    · simpa using Reads.pure
  | params identifier comma _ rest =>
    intro read
    rw [Parser.params]
    apply peek_reads
    simp only [ahead_cons, identifier]
    apply name_reads identifier
    apply acceptThen_reads comma
    simpa using rest _ (by omega) (_ :: read)
  | dots same =>
    intro read
    rw [Parser.params]
    apply peek_next_reads same rfl
    rw [List.append_nil]
    exact Reads.pure
  | noParams opener closer _ ending body =>
    intro line
    rw [Parser.funcBody]
    apply expect_reads opener
    apply peek_reads
    rw [ahead_cons, if_pos closer, pure_bind]
    apply expect_reads closer
    apply (body _ (by omega) []).andClose ending
    exact Reads.pure
  | funcBody opener first closer _ ending params body =>
    intro line
    rw [Parser.funcBody]
    apply expect_reads opener
    apply peek_reads
    rw [ahead_append, if_neg (first.of_starts (¬ · = .rparen) rfl (by decide) _)]
    apply (params _ (by omega) []).andExpect closer
    apply (body _ (by omega) []).andClose ending
    exact Reads.pure
  | blockEnd ended notReturn =>
    intro read
    rw [Parser.block]
    apply peek_reads
    rw [ahead_nil, List.append_nil]
    split
    · exact absurd rfl notReturn
    · rw [if_pos ended]
      exact Reads.pure
  | blockReturn last returnStat =>
    intro read
    rw [Parser.block]
    apply peek_reads
    rw [last.of_starts (· = .kwReturn) rfl (by decide)]
    simpa using (returnStat _ (by omega)).andPure
  | @block _ _ _ us n first _ stat rest =>
    intro read
    have positive := first.length_pos rfl
    have goesOn := first.of_starts (endsBlock · = false) rfl (by decide) (ahead us n)
    rw [Parser.block]
    apply peek_reads
    rw [ahead_append]
    split
    · rename_i isReturn
      rw [isReturn] at goesOn
      cases goesOn
    · rw [if_neg (by simp [goesOn])]
      apply (stat _ (by omega)).bind
      simpa using rest _ (by omega) (_ :: read)
  | ret ret ended =>
    rw [Parser.returnStat]
    apply expect_reads ret
    apply peek_reads
    rw [ahead_nil, if_pos (by simp [ended]), pure_bind]
    apply accept_passes
    · rintro rfl
      cases ended
    · exact Reads.pure
  | retSemi ret semi =>
    rw [Parser.returnStat]
    apply expect_reads ret
    apply peek_reads
    rw [ahead_cons, if_pos (by simp [semi]), pure_bind]
    apply accept_reads semi
    exact Reads.pure
  | @retExps _ _ ts _ ret first other exps =>
    have goesOn := first.of_starts (fun k => ¬ (endsBlock k || decide (k = .semi)) = true) rfl (by decide)
    rw [Parser.returnStat]
    apply expect_reads ret
    apply peek_reads
    rw [if_neg (goesOn _), ← List.append_nil ts]
    apply (exps _ (by omega)).bind
    apply accept_passes
    · exact other
    · exact Reads.pure
  | retExpsSemi ret first semi exps =>
    have goesOn := first.of_starts (fun k => ¬ (endsBlock k || decide (k = .semi)) = true) rfl (by decide)
    rw [Parser.returnStat]
    apply expect_reads ret
    apply peek_reads
    rw [ahead_append, if_neg (goesOn _)]
    apply (exps.before semi _ (by omega)).bind
    apply accept_reads semi
    exact Reads.pure
  | lastArm notElseIf notElse =>
    intro guards blocks
    rw [Parser.moreArms, List.append_nil, List.append_nil]
    exact acceptThen_passes notElseIf (acceptThen_passes notElse Reads.pure)
  | elseIf elseIf _ thens _ _ guard body rest =>
    intro guards blocks
    rw [Parser.moreArms]
    apply acceptThen_reads elseIf
    apply (guard _ (by omega)).andExpect thens
    apply (body _ (by omega) []).bind
    simpa using rest _ (by omega) (_ :: guards) (_ :: blocks)
  | otherwise otherwise _ body =>
    intro guards blocks
    rw [Parser.moreArms]
    apply acceptThen_passes (by simp [otherwise])
    apply acceptThen_reads otherwise
    simpa using (body _ (by omega) []).andPure
  | lastTarget other =>
    intro read
    rw [Parser.moreTargets, List.append_nil]
    exact acceptThen_passes other Reads.pure
  | moreTargets comma _ _ first rest =>
    intro read
    rw [Parser.moreTargets]
    apply acceptThen_reads comma
    apply (first _ (by omega)).bind
    simpa using rest _ (by omega) (_ :: read)
  | empty same => exact Completes.bareStat (.inl ⟨same, rfl⟩)
  | breakLoop same => exact Completes.bareStat (.inr ⟨same, rfl⟩)
  | label opener identifier closer => exact Completes.label opener identifier closer
  | goto same identifier => exact Completes.goto same identifier
  | doBlock same _ ending body => exact Completes.doBlock same body ending (by omega)
  | whileDo same _ dos _ ending guard body => exact Completes.whileDo same guard dos body ending (by omega)
  | repeatUntil same _ untils _ body guard => exact Completes.repeatUntil same body untils guard (by omega)
  | ifThen same _ thens _ _ ending guard body arms =>
    exact Completes.ifThen same guard thens body arms ending (by omega)
  | numericFor same identifier assign _ comma _ dos _ ending init limit body =>
    exact Completes.forAssign same identifier assign (Completes.numericFor init comma limit dos body ending (by omega))
  | numericForStep same identifier assign _ comma _ comma' _ dos _ ending init limit step body =>
    apply Completes.forAssign same identifier assign
    exact Completes.numericForStep init comma limit comma' step dos body ending (by omega)
  | genericFor same identifier first ins _ dos _ ending names exps body =>
    refine Completes.forNames same identifier ?_ (Completes.genericFor names ins exps dos body ending (by omega))
    cases first with
    | lastName => simp [ins]
    | moreNames comma => simp [comma]
  | functionStat same identifier _ first target function =>
    have opener := first.of_starts (· = .lparen) rfl (by decide)
    exact Completes.declaration (.inl ⟨same, Completes.functionStat identifier target (opener _) function (by omega)⟩)
  | methodStat same identifier _ colon method _ target function =>
    exact Completes.declaration (.inl ⟨same, Completes.methodStat identifier target colon method function (by omega)⟩)
  | localFunction same isFunction identifier _ function =>
    exact Completes.declaration (.inr ⟨same, Completes.localFunction isFunction identifier function (by omega)⟩)
  | localDecl same identifier _ other names =>
    exact Completes.declaration (.inr ⟨same, Completes.localDecl identifier names other (by omega)⟩)
  | localInit same identifier _ assign _ names exps =>
    exact Completes.declaration (.inr ⟨same, Completes.localInit identifier names assign exps (by omega)⟩)
  | assign first more vars assign _ head targets exps =>
    apply Completes.noKeyword first.primary_kind
    exact Completes.assign head more.listed targets vars assign exps (by simp only [List.length_cons]; omega)
  | callStat first notAssign notComma call =>
    apply Completes.noKeyword first.primary_kind
    exact Completes.callStat call notAssign notComma (by simp only [List.length_cons]; omega)

end Derives

theorem Block.parse_of_derives {block : Block} {ts : List Token} (h : Derives (.block block) ts .eof) :
    Block.parse ⟨ts, .ok line⟩ = .ok block := by
  have reads := h.complete (Parser.fuelFor ⟨ts, .ok line⟩) (by simp [Parser.fuelFor]; omega) []
  have run := reads ⟨[], .ok line⟩ ⟨line, rfl⟩ rfl
  have whole : TokenStream.prepend ⟨[], .ok line⟩ ts = ⟨ts, .ok line⟩ := by simp [TokenStream.prepend]
  rw [whole] at run
  rw [Block.parse, run]
  rfl

end LuaBytecode
