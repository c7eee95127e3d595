import LuaBytecode.Proofs.Grammar.Complete
import LuaBytecode.Proofs.Numeral.Digits
import LuaBytecode.Proofs.Printing.Words

namespace LuaBytecode

open Token

def TokenKind.isQuiet (k : TokenKind) : Bool := !k.startsSuffix && (BinOp.ofKind? k).isNone

def Rests (next next' : TokenKind) : Prop := next' = next ∨ next'.isQuiet = true

namespace Rests

variable {next next' : TokenKind}

theorem startsSuffix (h : Rests next next') (stops : next.startsSuffix = false) : next'.startsSuffix = false := by
  obtain rfl | quiet := h
  · exact stops
  · simp only [TokenKind.isQuiet, Bool.and_eq_true, Bool.not_eq_true'] at quiet
    exact quiet.1

theorem leftPower {limit : Nat} (h : Rests next next') (low : ∀ op, BinOp.ofKind? next = some op → op.leftPower ≤ limit) :
    ∀ op, BinOp.ofKind? next' = some op → op.leftPower ≤ limit := by
  obtain rfl | quiet := h
  · exact low
  · simp only [TokenKind.isQuiet, Bool.and_eq_true, Option.isNone_iff_eq_none] at quiet
    intro op found
    rw [quiet.2] at found
    cases found

theorem of_separator (h : next' = .comma ∨ next' = .rbrace) : Rests next next' := by
  obtain rfl | rfl := h
  · exact .inr rfl
  · exact .inr rfl

end Rests

def TokenKind.followers : List TokenKind :=
  Phrase.statFirsts ++ [.kwReturn, .eof, .kwEnd, .kwElse, .kwElseIf, .kwUntil]

/-- What may come behind a statement in the place of `next`: an opening parenthesis only where there was one, since it
    might go on with the statement. -/
def Follows (next next' : TokenKind) : Prop := next' ∈ TokenKind.followers ∧ (next' = .lparen → next = .lparen)

namespace Follows

variable {next next' : TokenKind}

theorem rests (h : Follows next next') : Rests next next' := by
  obtain ⟨member, paren⟩ := h
  have kinds : ∀ k ∈ TokenKind.followers, k = .lparen ∨ k.isQuiet = true := by decide
  obtain opener | quiet := kinds next' member
  · exact .inl (opener.trans (paren opener).symm)
  · exact .inr quiet

theorem ne_comma (h : Follows next next') : next' ≠ .comma := by
  rintro rfl
  exact absurd h.1 (by decide)

theorem ne_assign (h : Follows next next') : next' ≠ .assign := by
  rintro rfl
  exact absurd h.1 (by decide)

theorem of_endsBlock (next : TokenKind) (ends : Parser.endsBlock next' = true) : Follows next next' := by
  constructor
  · revert ends
    cases next' <;> decide
  · rintro rfl
    cases ends

end Follows

namespace Derives

variable {isVararg : Bool} {body : Block} {us vs : List Token} {n' : TokenKind}

theorem moreNames_words (xs : List String) {next : TokenKind} (other : next ≠ .comma) :
    Derives (.moreNames xs) ((xs.map fun x => [ofName x]).flatMap (ofKind .comma :: ·)) next := by
  induction xs with
  | nil => exact .lastName other
  | cons x xs ih => exact @moreNames xs (ofKind .comma) (ofName x) _ next rfl rfl ih

theorem params_words {xs : List String} {next : TokenKind} (given : xs ≠ [] ∨ isVararg = true) (other : next ≠ .comma) :
    Derives (.params xs isVararg) (ofParams xs isVararg) next := by
  induction xs with
  | nil =>
    obtain none | rfl := given
    · exact absurd rfl none
    · exact .dots rfl
  | cons x xs ih =>
    by_cases more : xs ≠ [] ∨ isVararg = true
    · have next_param : ofParams (x :: xs) isVararg = ofName x :: ofKind .comma :: ofParams xs isVararg := by
        cases xs with
        | nil =>
          obtain rfl : isVararg = true := by simpa using more
          rfl
        | cons y ys => rfl
      rw [next_param]
      exact @params xs isVararg (ofName x) (ofKind .comma) _ next rfl rfl (ih more)
    · obtain ⟨rfl, rfl⟩ : xs = [] ∧ isVararg = false := by simpa using more
      exact @lastParam (ofName x) next rfl other

theorem funcBody_words {ts : List Token} (xs : List String) (isVararg : Bool) (next : TokenKind)
    (h : Derives (.block body) ts .kwEnd) : Derives (.funcBody xs isVararg body) (ofFunction xs isVararg ts) next := by
  by_cases given : xs ≠ [] ∨ isVararg = true
  · exact .funcBody rfl (params_words given (by decide)) rfl h rfl
  · obtain ⟨rfl, rfl⟩ : xs = [] ∧ isVararg = false := by simpa using given
    exact .noParams rfl rfl h rfl

theorem string_words (text : String) {limit : Nat} {next : TokenKind} (quiet : next.isQuiet = true) :
    Derives (.exp limit (.string text)) [ofString text] next := by
  have none_found : ∀ op, BinOp.ofKind? next = some op → op.leftPower ≤ limit :=
    Rests.leftPower (.inr quiet : Rests .eof next) (by simp [BinOp.ofKind?])
  exact .simple (@string (ofString text) _ rfl) (.operand none_found)

theorem arms_end (guards blocks : List (List Token)) : Parser.endsBlock (ahead (ofArms guards blocks) .kwEnd) = true ∧
    ahead (ofArms guards blocks) .kwEnd ≠ .kwReturn := by
  cases guards with
  | nil => exact ⟨rfl, show TokenKind.kwEnd ≠ .kwReturn by decide⟩
  | cons guard guards =>
    cases blocks with
    | nil => exact ⟨rfl, show TokenKind.kwEnd ≠ .kwReturn by decide⟩
    | cons body blocks => exact ⟨rfl, show TokenKind.kwElseIf ≠ .kwReturn by decide⟩

theorem assign_words {first : Exp} {targets values : List Exp} {ws : List Token} {t : Token} (line : t.line = 1)
    (head : Derives (.primaryExp first) (t :: us) (ahead vs .assign)) (more : Derives (.moreTargets targets) vs .assign)
    (vars : (first :: targets).all Exp.isVar = true) (exps : Derives (.expList values) ws n') :
    Derives (.stat (.mk 1 (.assign (first :: targets) values))) (t :: us ++ vs ++ ofKind .assign :: ws) n' := by
  have whole := Derives.assign (a := ofKind .assign) head more vars rfl exps
  rw [line] at whole
  simpa using whole

theorem function_words {x : String} {target : Exp} {params : List String} {n : TokenKind} (follows : Follows n n')
    (suffixes : Derives (.suffixes (.name x) target) us .assign) (var : target.isVar = true)
    (function : Derives (.funcBody params isVararg body) vs n') :
    Derives (.stat (.mk 1 (.assign [target] [.function params isVararg body])))
      (ofName x :: us ++ ofKind .assign :: ofKind .kwFunction :: vs) n' := by
  have none_found : BinOp.ofKind? n' = none := by
    have kinds : ∀ k ∈ TokenKind.followers, BinOp.ofKind? k = none := by decide
    exact kinds n' follows.1
  have head : Derives (.primaryExp target) (ofName x :: us) .assign := .name (x := ofName x) rfl suffixes
  have value : Derives (.expList [.function params isVararg body]) (ofKind .kwFunction :: vs) n' := by
    have exp : Derives (.exp 0 (.function params isVararg body)) (ofKind .kwFunction :: vs ++ []) n' :=
      .simple (.function (t := ofKind .kwFunction) rfl function) (.operand (by simp [none_found]))
    simpa using Derives.expList exp (.lastExp follows.ne_comma)
  have whole := assign_words rfl head (.lastTarget (by decide)) (by simpa using var) value
  simpa using whole

end Derives

/-- The words of a phrase that starts with the kind `first` and that `n` comes behind derive it too, on one line. -/
def Phrase.Prints (first n : TokenKind) : Phrase → Prop
  | .exp limit e => e.hasFloat = false → ∀ n', Rests n n' → Derives (.exp limit (e.atLine 1)) e.words n'
  | .operators limit lhs e => e.hasFloat = false →
    lhs.hasFloat = false ∧ ∃ us, e.words = lhs.words ++ us ∧ ∀ n', Rests n n' →
      Rests first (ahead us n') ∧ Derives (.operators limit (lhs.atLine 1) (e.atLine 1)) us n'
  | .simpleExp e => e.hasFloat = false → ∀ n', Rests n n' → Derives (.simpleExp (e.atLine 1)) e.words n'
  | .primaryExp e => e.hasFloat = false → (∃ t us, e.words = t :: us ∧ t.line = 1 ∧ t.kind = first) ∧
    ∀ n', Rests n n' → Derives (.primaryExp (e.atLine 1)) e.words n'
  | .suffixes head e => e.hasFloat = false →
    head.hasFloat = false ∧ ∃ us, e.words = head.words ++ us ∧ ∀ n', Rests n n' →
      Derives (.suffixes (head.atLine 1) (e.atLine 1)) us n'
  | .args es => Exp.anyFloat es = false →
    ∀ n', Derives (.args (Exp.listAtLine 1 es)) (ofArgs (Exp.wordLists es)) n'
  | .expList es => Exp.anyFloat es = false → ∀ n', Rests n n' → n' ≠ .comma →
    Derives (.expList (Exp.listAtLine 1 es)) (commas (Exp.wordLists es)) n'
  | .moreExps es => Exp.anyFloat es = false → ∀ n', Rests n n' → n' ≠ .comma →
    Rests first (ahead ((Exp.wordLists es).flatMap (ofKind .comma :: ·)) n') ∧
      Derives (.moreExps (Exp.listAtLine 1 es)) ((Exp.wordLists es).flatMap (ofKind .comma :: ·)) n'
  | .table e => e.hasFloat = false → ∀ n', Derives (.table (e.atLine 1)) e.words n'
  | .fields ks vs => Exp.keysHaveFloat ks = false → Exp.anyFloat vs = false →
    Derives (.fields (Exp.keysAtLine 1 ks) (Exp.listAtLine 1 vs))
      (commas (List.zipWith ofField (Exp.keyWords ks) (Exp.wordLists vs))) .rbrace
  | .field k v => Exp.hasFloat? k = false → v.hasFloat = false → ∀ n', n' = .comma ∨ n' = .rbrace →
    Derives (.field (Exp.atLine? 1 k) (v.atLine 1)) (ofField (Exp.words? k) v.words) n'
  | .fieldNames head e => (head.isVar = true → e.isVar = true) ∧ ∃ us, e.words = head.words ++ us ∧ ∀ e' vs n',
    Derives (.suffixes (e.atLine 1) e') vs n' → Derives (.suffixes (head.atLine 1) e') (us ++ vs) n'
  | .funcBody _ _ body => Block.hasFloat body = false → ∀ xs isVararg n',
    Derives (.funcBody xs isVararg (Block.atLine 1 body)) (ofFunction xs isVararg (Block.words body)) n'
  | .block body => Block.hasFloat body = false → ∀ n', Parser.endsBlock n' = true → n' ≠ .kwReturn →
    Follows first (ahead (Block.words body) n') ∧ Derives (.block (Block.atLine 1 body)) (Block.words body) n'
  | .returnStat s => s.hasFloat = false → ∀ n', Parser.endsBlock n' = true →
    Derives (.returnStat (s.atLine 1)) s.words n'
  | .stat s => s.hasFloat = false → (ahead s.words n = .lparen → first = .lparen) ∧
    ∀ n', Follows n n' → Derives (.stat (s.atLine 1)) s.words n'
  | .moreArms gs bs => Exp.anyFloat gs = false → Block.anyFloat bs = false →
    Derives (.moreArms (Exp.listAtLine 1 gs) (Block.listAtLine 1 bs))
      (ofArms (Exp.wordLists gs) (Block.wordLists bs)) .kwEnd
  | .moreTargets es => Exp.anyFloat es = false →
    Derives (.moreTargets (Exp.listAtLine 1 es)) ((Exp.wordLists es).flatMap (ofKind .comma :: ·)) .assign
  | .moreNames _ | .params _ _ => True

namespace Derives

variable {ts us vs : List Token} {n : TokenKind}

theorem leads (k : TokenKind) {first : TokenKind} (other : k ≠ .lparen) : k = .lparen → first = .lparen :=
  fun same => absurd same other

theorem fields_words {key : Option Exp} {value : Exp} {keys : List (Option Exp)} {values : List Exp}
    (rest : Derives (.fields keys values) ts n)
    (field : ∀ n', n' = .comma ∨ n' = .rbrace →
      Derives (.field (Exp.atLine? 1 key) (value.atLine 1)) (ofField (Exp.words? key) value.words) n')
    (rest' : Derives (.fields (Exp.keysAtLine 1 keys) (Exp.listAtLine 1 values))
      (commas (List.zipWith ofField (Exp.keyWords keys) (Exp.wordLists values))) .rbrace) :
    Derives (.fields (Exp.keysAtLine 1 (key :: keys)) (Exp.listAtLine 1 (value :: values)))
      (commas (List.zipWith ofField (Exp.keyWords (key :: keys)) (Exp.wordLists (value :: values)))) .rbrace := by
  cases rest with
  | noFields =>
    have last := field .rbrace (.inr rfl)
    rw [← List.append_nil (ofField _ _)] at last
    exact .lastField last (by decide) (by decide)
  | lastField | fields => exact .fields (field .comma (.inl rfl)) (.inl rfl) rest'

theorem blockReturn_words {s : Stat} (h : Derives (.returnStat (s.atLine 1)) s.words n) (first : TokenKind) :
    Follows first (ahead (Block.words [s]) n) ∧ Derives (.block (Block.atLine 1 [s])) (Block.words [s]) n := by
  obtain ⟨t, us, same, member⟩ := h.starts _ rfl
  have single : Block.words [s] = t :: us := by rw [Block.words, Block.words, List.append_nil, same]
  rw [single]
  rw [same] at h
  refine ⟨.of_endsBlock _ ?_, .blockReturn h⟩
  rw [ahead_cons, List.mem_singleton.mp member]
  rfl

theorem block_first {s : Stat} {rest : Block} {k k' n' : TokenKind} (first : Derives (.stat s) ts k)
    (whole : Derives (.stat (s.atLine 1)) s.words k') (paren : ahead s.words k = .lparen → ahead ts k = .lparen) :
    Follows (ahead (ts ++ us) n) (ahead (Block.words (s :: rest)) n') := by
  obtain ⟨t, ts, rfl, _⟩ := first.starts _ rfl
  obtain ⟨t', ts', same, member⟩ := whole.starts _ rfl
  rw [same] at paren
  rw [Block.words, same]
  exact ⟨List.mem_append_left _ member, paren⟩

theorem returnStat_words {line : Nat} {es : List Exp} (ends : Parser.endsBlock n = true)
    (exps : Derives (.expList (Exp.listAtLine 1 es)) (commas (Exp.wordLists es)) n) :
    Derives (.returnStat ((Stat.mk line (.ret es)).atLine 1)) (Stat.mk line (.ret es)).words n := by
  refine .retExps (r := ofKind .kwReturn) rfl exps ?_
  rintro rfl
  cases ends

theorem otherwise_words {body : Block} (h : Derives (.block body) ts .kwEnd) :
    Derives (.moreArms [.bool true] [body]) (ofKind .kwElseIf :: ofKind .kwTrue :: ofKind .kwThen :: ts) .kwEnd := by
  have guard : Derives (.exp 0 (.bool true)) [ofKind .kwTrue] .kwThen :=
    .simple (.kwTrue rfl) (.operand (by simp [BinOp.ofKind?]))
  have whole := Derives.elseIf (t := ofKind .kwElseIf) (h := ofKind .kwThen) rfl guard rfl h
    (.lastArm (by decide) (by decide))
  simpa using whole

end Derives

namespace Phrase.Prints

open Derives

variable {line : Nat} {first n k k' k₁ k₂ k₃ : TokenKind} {guard init limit step target e : Exp} {body : Block}
  {guards exps : List Exp} {blocks : List Block} {x : String} {names params : List String} {isVararg : Bool}

theorem doBlock (whole : (Phrase.block body).Prints k .kwEnd) :
    (Phrase.stat (.mk line (.doBlock body))).Prints first n := by
  refine fun plain => ⟨leads .kwDo (by decide), fun _ _ => ?_⟩
  exact .doBlock (t := ofKind .kwDo) rfl (whole plain _ rfl (by decide)).2 rfl

theorem whileDo (test : (Phrase.exp 0 guard).Prints k .kwDo) (whole : (Phrase.block body).Prints k' .kwEnd) :
    (Phrase.stat (.mk line (.whileDo guard body))).Prints first n := by
  intro plain
  have plain := Bool.or_eq_false_iff.mp plain
  refine ⟨leads .kwWhile (by decide), fun n' _ => ?_⟩
  exact .whileDo (t := ofKind .kwWhile) rfl (test plain.1 _ (.inl rfl)) rfl (whole plain.2 _ rfl (by decide)).2 rfl

theorem repeatUntil (whole : (Phrase.block body).Prints k .kwUntil) (test : (Phrase.exp 0 guard).Prints k' n) :
    (Phrase.stat (.mk line (.repeatUntil body guard))).Prints first n := by
  intro plain
  have plain := Bool.or_eq_false_iff.mp plain
  refine ⟨leads .kwRepeat (by decide), fun n' follows => ?_⟩
  exact .repeatUntil (t := ofKind .kwRepeat) rfl (whole plain.1 _ rfl (by decide)).2 rfl (test plain.2 n' follows.rests)

theorem ifThen (test : (Phrase.exp 0 guard).Prints k .kwThen) (whole : (Phrase.block body).Prints k₁ k₂)
    (arms : (Phrase.moreArms guards blocks).Prints k' k₃) :
    (Phrase.stat (.mk line (.ifThen (guard :: guards) (body :: blocks)))).Prints first n := by
  intro plain
  obtain ⟨plainGuards, plainBlocks⟩ := Bool.or_eq_false_iff.mp plain
  obtain ⟨plainGuard, plainGuards⟩ := Bool.or_eq_false_iff.mp plainGuards
  obtain ⟨plainBody, plainBlocks⟩ := Bool.or_eq_false_iff.mp plainBlocks
  obtain ⟨ends, notReturn⟩ := arms_end (Exp.wordLists guards) (Block.wordLists blocks)
  refine ⟨leads .kwIf (by decide), fun n' _ => ?_⟩
  exact .ifThen (t := ofKind .kwIf) rfl (test plainGuard _ (.inl rfl)) rfl (whole plainBody _ ends notReturn).2
    (arms plainGuards plainBlocks) rfl

theorem elseIf (test : (Phrase.exp 0 guard).Prints k .kwThen) (whole : (Phrase.block body).Prints k₁ k₂)
    (rest : (Phrase.moreArms guards blocks).Prints k' k₃) :
    (Phrase.moreArms (guard :: guards) (body :: blocks)).Prints first n := by
  intro plain plainBlocks
  rw [Exp.anyFloat, Bool.or_eq_false_iff] at plain
  rw [Block.anyFloat, Bool.or_eq_false_iff] at plainBlocks
  obtain ⟨ends, notReturn⟩ := arms_end (Exp.wordLists guards) (Block.wordLists blocks)
  have arms := Derives.elseIf (t := ofKind .kwElseIf) (h := ofKind .kwThen) rfl (test plain.1 _ (.inl rfl)) rfl
    (whole plainBlocks.1 _ ends notReturn).2 (rest plain.2 plainBlocks.2)
  simpa [ofArms, Exp.wordLists, Block.wordLists, Exp.listAtLine, Block.listAtLine] using arms

theorem otherwise (whole : (Phrase.block body).Prints k k') : (Phrase.moreArms [.bool true] [body]).Prints first n := by
  intro _ plain
  rw [Block.anyFloat, Bool.or_eq_false_iff] at plain
  have arms := otherwise_words (whole plain.1 .kwEnd rfl (by decide)).2
  simpa [ofArms, Exp.wordLists, Block.wordLists, Exp.words, Exp.listAtLine, Block.listAtLine, Exp.atLine] using arms

theorem numericFor (start : (Phrase.exp 0 init).Prints k .comma) (stop : (Phrase.exp 0 limit).Prints k' .kwDo)
    (whole : (Phrase.block body).Prints k₁ .kwEnd) :
    (Phrase.stat (.mk line (.numericFor x init limit none body))).Prints first n := by
  intro plain
  obtain ⟨plain, plainBody⟩ := Bool.or_eq_false_iff.mp plain
  have plain := Bool.or_eq_false_iff.mp (Bool.or_eq_false_iff.mp plain).1
  refine ⟨leads .kwFor (by decide), fun n' _ => ?_⟩
  exact .numericFor (t := ofKind .kwFor) (x := ofName x) rfl rfl rfl (start plain.1 _ (.inl rfl)) rfl
    (stop plain.2 _ (.inl rfl)) rfl (whole plainBody _ rfl (by decide)).2 rfl

theorem numericForStep (start : (Phrase.exp 0 init).Prints k .comma) (stop : (Phrase.exp 0 limit).Prints k' .comma)
    (width : (Phrase.exp 0 step).Prints k₁ .kwDo) (whole : (Phrase.block body).Prints k₂ .kwEnd) :
    (Phrase.stat (.mk line (.numericFor x init limit (some step) body))).Prints first n := by
  intro plain
  obtain ⟨plain, plainBody⟩ := Bool.or_eq_false_iff.mp plain
  obtain ⟨plain, plainStep⟩ := Bool.or_eq_false_iff.mp plain
  have plain := Bool.or_eq_false_iff.mp plain
  refine ⟨leads .kwFor (by decide), fun n' _ => ?_⟩
  exact .numericForStep (t := ofKind .kwFor) (x := ofName x) rfl rfl rfl (start plain.1 _ (.inl rfl)) rfl
    (stop plain.2 _ (.inl rfl)) rfl (width plainStep _ (.inl rfl)) rfl (whole plainBody _ rfl (by decide)).2 rfl

theorem genericFor (values : (Phrase.expList exps).Prints k .kwDo) (whole : (Phrase.block body).Prints k' .kwEnd) :
    (Phrase.stat (.mk line (.genericFor (x :: names) exps body))).Prints first n := by
  intro plain
  have plain := Bool.or_eq_false_iff.mp plain
  refine ⟨leads .kwFor (by decide), fun n' _ => ?_⟩
  exact .genericFor (t := ofKind .kwFor) (x := ofName x) rfl rfl (moreNames_words _ (by decide)) rfl
    (values plain.1 _ (.inl rfl) (by decide)) rfl (whole plain.2 _ rfl (by decide)).2 rfl

theorem functionStat (fieldNames : (Phrase.fieldNames (.name x) target).Prints k k₁)
    (function : (Phrase.funcBody params isVararg body).Prints k' k₂) :
    (Phrase.stat (.mk line (.assign [target] [.function params isVararg body]))).Prints first n := by
  intro plain
  have plain := Bool.or_eq_false_iff.mp (Bool.or_eq_false_iff.mp plain).2
  obtain ⟨var, us, same, tail⟩ := fieldNames
  constructor
  · simp [Stat.words, StatKind.words, commas, Exp.wordLists, same, Exp.words, ofName]
  intro n' follows
  have suffixes := tail (target.atLine 1) [] .assign (.head rfl)
  rw [List.append_nil] at suffixes
  have whole := function_words follows suffixes (by rw [Exp.isVar_atLine]; exact var rfl)
    (function plain.1 params isVararg n')
  simpa [Stat.words, StatKind.words, commas, Exp.wordLists, same, Exp.words, Stat.atLine, StatKind.atLine,
    Exp.listAtLine, Exp.atLine] using whole

theorem methodStat {m : String} (fieldNames : (Phrase.fieldNames (.name x) target).Prints k k₁)
    (function : (Phrase.funcBody params isVararg body).Prints k' k₂) :
    (Phrase.stat (.mk line (.assign [.index target (.string m)] [.function ("self" :: params) isVararg body]))).Prints
      first n := by
  intro plain
  have plain := Bool.or_eq_false_iff.mp (Bool.or_eq_false_iff.mp plain).2
  obtain ⟨_, us, same, tail⟩ := fieldNames
  constructor
  · simp [Stat.words, StatKind.words, commas, Exp.wordLists, same, Exp.words, ofName]
  intro n' follows
  have key : Derives (.suffixes (target.atLine 1) (.index (target.atLine 1) (.string m)))
      (ofKind .lbracket :: ([ofString m] ++ [ofKind .rbracket])) .assign :=
    .index rfl (string_words m rfl) rfl (.head rfl)
  have whole := function_words follows (tail _ _ _ key) rfl (function plain.1 ("self" :: params) isVararg n')
  simpa [Stat.words, StatKind.words, commas, Exp.wordLists, same, Exp.words, Stat.atLine, StatKind.atLine,
    Exp.listAtLine, Exp.atLine] using whole

theorem localInit (values : (Phrase.expList exps).Prints k n) (given : exps ≠ []) :
    (Phrase.stat (.mk line (.localDecl (x :: names) exps))).Prints first n := by
  refine fun plain => ⟨leads .kwLocal (by decide), fun n' follows => ?_⟩
  have values := values plain n' follows.rests follows.ne_comma
  obtain ⟨e, es, rfl⟩ := List.exists_cons_of_ne_nil given
  exact .localInit (t := ofKind .kwLocal) (x := ofName x) rfl rfl (moreNames_words names (by decide)) rfl values

theorem assign {targets : List Exp} (head : (Phrase.primaryExp target).Prints first k)
    (more : (Phrase.moreTargets targets).Prints k' k₁) (vars : (target :: targets).all Exp.isVar = true)
    (values : (Phrase.expList exps).Prints k₂ n) :
    (Phrase.stat (.mk line (.assign (target :: targets) exps))).Prints first n := by
  intro plain
  obtain ⟨plainTargets, plainValues⟩ := Bool.or_eq_false_iff.mp plain
  have plain := Bool.or_eq_false_iff.mp plainTargets
  obtain ⟨⟨t, us, same, line, kind⟩, head⟩ := head plain.1
  constructor
  · intro opener
    simp only [Stat.words, StatKind.words, commas, Exp.wordLists, same, List.cons_append, ahead_cons] at opener
    exact kind.symm.trans opener
  intro n' follows
  have quiet : (ahead ((Exp.wordLists targets).flatMap (ofKind .comma :: ·)) .assign).isQuiet = true := by
    cases targets <;> rfl
  have first' := head _ (.inr quiet)
  rw [same] at first'
  have vars' : (target.atLine 1 :: Exp.listAtLine 1 targets).all Exp.isVar = true := by
    rw [List.all_cons, Exp.isVar_atLine, Exp.all_isVar_atLine, ← List.all_cons]
    exact vars
  have whole := assign_words line first' (more plain.2) vars' (values plainValues n' follows.rests follows.ne_comma)
  simpa [Stat.words, StatKind.words, commas, Exp.wordLists, same, Stat.atLine, StatKind.atLine,
    Exp.listAtLine] using whole

theorem callStat {isMethod : Bool} (call : (Phrase.primaryExp (.call e exps isMethod)).Prints first n) :
    (Phrase.stat (.mk line (.call e exps isMethod))).Prints first n := by
  intro plain
  obtain ⟨⟨t, us, same, line, kind⟩, whole⟩ := call plain
  rw [Stat.words, StatKind.words_call, same]
  refine ⟨fun opener => kind.symm.trans opener, fun n' follows => ?_⟩
  have call := whole n' follows.rests
  rw [same, Exp.atLine] at call
  have stat := Derives.callStat call follows.ne_assign follows.ne_comma
  rw [line] at stat
  exact stat

end Phrase.Prints

namespace Derives

variable {ts : List Token} {n : TokenKind}

theorem prints {p : Phrase} (h : Derives p ts n) : p.Prints (ahead ts n) n := by
  induction h with
  | @unop _ op _ _ _ _ _ _ _ _ _ operand rest =>
    intro plain n' rests
    obtain ⟨plain, us, same, tail⟩ := rest plain
    obtain ⟨onward, rest⟩ := tail n' rests
    rw [Exp.hasFloat] at plain
    rw [same, Exp.words, List.cons_append]
    exact .unop (by cases op <;> rfl) (operand plain _ onward) rest
  | simple _ _ operand rest =>
    intro plain n' rests
    obtain ⟨plain, us, same, tail⟩ := rest plain
    obtain ⟨onward, rest⟩ := tail n' rests
    rw [same]
    exact .simple (operand plain _ onward) rest
  | operand low =>
    exact fun plain => ⟨plain, [], (List.append_nil _).symm, fun n' rests => ⟨rests, .operand (rests.leftPower low)⟩⟩
  | @binop _ op _ rhs _ _ _ _ _ found high _ _ right rest =>
    intro plain
    obtain ⟨plain, us, same, tail⟩ := rest plain
    rw [Exp.hasFloat, Bool.or_eq_false_iff] at plain
    refine ⟨plain.1, ofKind op.kind :: (rhs.words ++ us), ?_, fun n' rests => ⟨?_, ?_⟩⟩
    · rw [same, Exp.words, List.append_assoc, List.cons_append]
    · exact .inl (BinOp.ofKind?_eq_some found).symm
    · obtain ⟨onward, rest⟩ := tail n' rests
      exact .binop (by cases op <;> rfl) high (right plain.2 _ onward) rest
  | nil => exact fun _ _ _ => .nil rfl
  | kwTrue => exact fun _ _ _ => .kwTrue rfl
  | kwFalse => exact fun _ _ _ => .kwFalse rfl
  | vararg => exact fun _ _ _ => .vararg rfl
  | @number _ number =>
    intro plain n' rests
    cases number with
    | float => cases plain
    | integer value => exact .number (t := ofInteger value) (n := .integer value) rfl (Numeral.read?_toDigits value)
  | string => exact fun _ _ _ => .string (t := ofString _) rfl
  | tableExp _ table => exact fun plain n' _ => .tableExp (table plain n')
  | function _ _ body => exact fun plain n' _ => .function rfl (body plain _ _ n')
  | primary _ primary => exact fun plain n' rests => .primary ((primary plain).2 n' rests)
  | name identifier _ rest =>
    intro plain
    obtain ⟨_, us, same, tail⟩ := rest plain
    rw [same]
    exact ⟨⟨_, _, rfl, rfl, identifier.symm⟩, fun n' rests => .name rfl (tail n' rests)⟩
  | paren opener _ _ _ inner rest =>
    intro plain
    obtain ⟨plain, us, same, tail⟩ := rest plain
    rw [Exp.hasFloat] at plain
    rw [same, Exp.words, List.cons_append, List.append_assoc]
    refine ⟨⟨_, _, rfl, rfl, opener.symm⟩, fun n' rests => ?_⟩
    exact .paren rfl (inner plain _ (.inl rfl)) rfl (tail n' rests)
  | head stops =>
    exact fun plain => ⟨plain, [], (List.append_nil _).symm, fun n' rests => .head (rests.startsSuffix stops)⟩
  | @dotName _ _ _ x _ _ _ _ _ rest =>
    intro plain
    obtain ⟨plain, us, same, tail⟩ := rest plain
    rw [Exp.hasFloat, Bool.or_eq_false_iff] at plain
    refine ⟨plain.1, ofKind .lbracket :: ([ofString x.text] ++ ofKind .rbracket :: us), ?_, fun n' rests => ?_⟩
    · rw [same, Exp.words, Exp.words, List.append_assoc]
      rfl
    · exact .index rfl (string_words x.text rfl) rfl (tail n' rests)
  | @index _ key _ _ _ _ _ _ _ _ _ _ inner rest =>
    intro plain
    obtain ⟨plain, us, same, tail⟩ := rest plain
    rw [Exp.hasFloat, Bool.or_eq_false_iff] at plain
    refine ⟨plain.1, ofKind .lbracket :: (key.words ++ ofKind .rbracket :: us), ?_, fun n' rests => ?_⟩
    · rw [same, Exp.words]
      simp
    · exact .index rfl (inner plain.2 _ (.inl rfl)) rfl (tail n' rests)
  | @method _ _ args _ x _ _ _ _ _ _ _ arguments rest =>
    intro plain
    obtain ⟨plain, us, same, tail⟩ := rest plain
    rw [Exp.hasFloat_call, Exp.anyFloat, Bool.or_eq_false_iff] at plain
    obtain ⟨_, plainHead, plainArgs⟩ := plain
    refine ⟨plainHead, ofKind .colon :: ofName x.text :: (ofArgs (Exp.wordLists args) ++ us), ?_, fun n' rests => ?_⟩
    · rw [same, Exp.words_method]
      simp
    · exact .method rfl rfl (arguments plainArgs _) (tail n' rests)
  | @call _ _ args _ _ _ _ _ arguments rest =>
    intro plain
    obtain ⟨plain, us, same, tail⟩ := rest plain
    rw [Exp.hasFloat_call] at plain
    refine ⟨plain.1, ofArgs (Exp.wordLists args) ++ us, ?_, fun n' rests => ?_⟩
    · rw [same, Exp.words_call, List.append_assoc]
    · exact .call (arguments plain.2 _) (tail n' rests)
  | noArgs => exact fun _ _ => .noArgs rfl rfl
  | argList _ _ _ exps => exact fun plain _ => .argList rfl (exps plain _ (.inl rfl) (by decide)) rfl
  | @tableArg e _ _ _ table =>
    intro plain n'
    rw [Exp.anyFloat, Exp.anyFloat, Bool.or_false] at plain
    have single : Derives (.exp 0 (e.atLine 1)) e.words .rparen := by
      rw [← List.append_nil e.words]
      exact .simple (.tableExp (table plain _)) (.operand (by simp [BinOp.ofKind?]))
    exact .argList rfl (.expList single (.lastExp (by decide))) rfl
  | @stringArg t =>
    exact fun _ _ => .argList rfl (.expList (string_words t.text rfl) (.lastExp (by decide))) rfl
  | expList _ _ first rest =>
    intro plain n' rests other
    rw [Exp.anyFloat, Bool.or_eq_false_iff] at plain
    obtain ⟨onward, rest⟩ := rest plain.2 n' rests other
    exact .expList (first plain.1 _ onward) rest
  | lastExp => exact fun _ n' rests other => ⟨rests, .lastExp other⟩
  | moreExps comma _ _ first rest =>
    intro plain n' rests other
    rw [Exp.anyFloat, Bool.or_eq_false_iff] at plain
    obtain ⟨onward, rest⟩ := rest plain.2 n' rests other
    exact ⟨.inl comma.symm, .moreExps rfl (first plain.1 _ onward) rest⟩
  | table _ _ _ fields =>
    intro plain n'
    rw [Exp.hasFloat, Bool.or_eq_false_iff] at plain
    exact .table rfl (fields plain.1 plain.2) rfl
  | noFields => exact fun _ _ => .noFields
  | lastField _ _ _ field =>
    intro plainKeys plain
    rw [Exp.keysHaveFloat, Bool.or_eq_false_iff] at plainKeys
    rw [Exp.anyFloat, Bool.or_eq_false_iff] at plain
    exact fields_words .noFields (field plainKeys.1 plain.1) .noFields
  | fields _ _ rest field others =>
    intro plainKeys plain
    rw [Exp.keysHaveFloat, Bool.or_eq_false_iff] at plainKeys
    rw [Exp.anyFloat, Bool.or_eq_false_iff] at plain
    exact fields_words rest (field plainKeys.1 plain.1) (others plainKeys.2 plain.2)
  | keyField _ _ _ _ _ key value =>
    intro plainKey plain n' separates
    exact .keyField rfl (key plainKey _ (.inl rfl)) rfl rfl (value plain n' (.of_separator separates))
  | @nameField _ x _ _ _ _ _ _ value =>
    intro _ plain n' separates
    exact .keyField rfl (string_words x.text rfl) rfl rfl (value plain n' (.of_separator separates))
  | field _ _ value =>
    intro _ plain n' separates
    refine .field (value plain n' (.of_separator separates)) fun _ => ?_
    obtain rfl | rfl := separates <;> decide
  | lastName | moreNames | lastParam | params | dots => trivial
  | target => exact ⟨id, [], (List.append_nil _).symm, fun e' vs n' rest => rest⟩
  | @fieldNames _ _ _ x _ _ _ _ _ rest =>
    obtain ⟨var, us, same, tail⟩ := rest
    refine ⟨fun _ => var rfl, ofKind .lbracket :: ([ofString x.text] ++ ofKind .rbracket :: us), ?_,
      fun e' vs n' more => ?_⟩
    · rw [same, Exp.words, Exp.words, List.append_assoc]
      rfl
    · exact .index rfl (string_words x.text rfl) rfl (tail e' vs n' more)
  | noParams _ _ _ _ body | funcBody _ _ _ _ _ _ body =>
    exact fun plain xs isVararg n' => .funcBody_words xs isVararg n' (body plain _ rfl (by decide)).2
  | blockEnd => exact fun _ n' ends notReturn => ⟨.of_endsBlock _ ends, .blockEnd ends notReturn⟩
  | blockReturn _ last =>
    intro plain n' ends _
    rw [Block.hasFloat, Block.hasFloat, Bool.or_false] at plain
    exact blockReturn_words (last plain n' ends) _
  | block source _ first rest =>
    intro plain n' ends notReturn
    rw [Block.hasFloat_cons] at plain
    obtain ⟨follows, rest⟩ := rest plain.2 n' ends notReturn
    obtain ⟨paren, first⟩ := first plain.1
    have whole := first _ follows
    exact ⟨block_first source whole paren, .block whole rest⟩
  | ret | retSemi => exact fun _ n' ends => .ret (r := ofKind .kwReturn) rfl ends
  | retExps _ _ _ exps | retExpsSemi _ _ _ exps =>
    intro plain n' ends
    have follows : ∀ n, Follows n n' := fun n => .of_endsBlock n ends
    exact returnStat_words ends (exps plain n' (follows _).rests (follows .eof).ne_comma)
  | empty => exact fun _ => ⟨leads .semi (by decide), fun _ _ => .empty (t := ofKind .semi) rfl⟩
  | breakLoop => exact fun _ => ⟨leads .kwBreak (by decide), fun _ _ => .breakLoop (t := ofKind .kwBreak) rfl⟩
  | @label _ x =>
    refine fun _ => ⟨leads .doubleColon (by decide), fun _ _ => ?_⟩
    exact .label (l := ofKind .doubleColon) (x := ofName x.text) rfl rfl rfl
  | @goto _ x =>
    refine fun _ => ⟨leads .kwGoto (by decide), fun _ _ => ?_⟩
    exact .goto (t := ofKind .kwGoto) (x := ofName x.text) rfl rfl
  | doBlock _ _ _ body => exact .doBlock body
  | whileDo _ _ _ _ _ guard body => exact .whileDo guard body
  | repeatUntil _ _ _ _ body guard => exact .repeatUntil body guard
  | ifThen _ _ _ _ _ _ guard body arms => exact .ifThen guard body arms
  | lastArm => exact fun _ _ => .lastArm (by decide) (by decide)
  | elseIf _ _ _ _ _ guard body rest => exact .elseIf guard body rest
  | otherwise _ _ body => exact .otherwise body
  | numericFor _ _ _ _ _ _ _ _ _ init limit body => exact .numericFor init limit body
  | numericForStep _ _ _ _ _ _ _ _ _ _ _ init limit step body => exact .numericForStep init limit step body
  | genericFor _ _ _ _ _ _ _ _ _ exps body => exact .genericFor exps body
  | functionStat _ _ _ _ fieldNames function => exact .functionStat fieldNames function
  | methodStat _ _ _ _ _ _ fieldNames function => exact .methodStat fieldNames function
  | @localFunction ps isVararg _ _ _ x _ _ _ _ _ _ function =>
    refine fun plain => ⟨leads .kwLocal (by decide), fun n' _ => ?_⟩
    exact .localFunction (t := ofKind .kwLocal) (f := ofKind .kwFunction) (x := ofName x.text) rfl rfl rfl
      (function plain ps isVararg n')
  | @localDecl xs _ x =>
    refine fun _ => ⟨leads .kwLocal (by decide), fun n' follows => ?_⟩
    exact .localDecl (t := ofKind .kwLocal) (x := ofName x.text) rfl rfl (moreNames_words xs follows.ne_comma)
      follows.ne_assign
  | localInit _ _ _ _ source _ exps =>
    refine .localInit exps ?_
    cases source
    exact List.cons_ne_nil _ _
  | assign _ _ vars _ _ head more exps => exact .assign head more vars exps
  | lastTarget => exact fun _ => .lastTarget (by decide)
  | @moreTargets _ es _ _ _ _ _ _ _ first rest =>
    intro plain
    rw [Exp.anyFloat, Bool.or_eq_false_iff] at plain
    refine .moreTargets rfl ((first plain.1).2 _ (.inr ?_)) (rest plain.2)
    cases es <;> rfl
  | callStat _ _ _ call => exact .callStat call

theorem block_words {block : Block} (h : Derives (.block block) ts .eof) (plain : Block.hasFloat block = false) :
    Derives (.block (Block.atLine 1 block)) (Block.words block) .eof :=
  (h.prints plain .eof rfl (by decide)).2

end Derives

end LuaBytecode
