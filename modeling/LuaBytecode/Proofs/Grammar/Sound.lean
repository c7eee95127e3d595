import LuaBytecode.Proofs.Grammar.Reading
import LuaBytecode.Proofs.Lowering.Chunk

namespace LuaBytecode

variable {ts : List Token} {next kind : TokenKind} {line limit : Nat} {p : Phrase} {t : Token}

namespace Derives

theorem followed {us : List Token} (h : Derives p ts (ahead (t :: us) next)) (same : t.kind = kind) :
    Derives p ts kind := by
  subst same
  exact h

theorem followed_across {us vs : List Token} (h : Derives p ts (ahead (us ++ t :: vs) next)) (same : t.kind = kind) :
    Derives p ts (ahead us kind) := by
  rw [ahead_append, ahead_cons, same] at h
  exact h

/-- What is built on an operand or on a prefix is no name, unless nothing is built on it. -/
theorem extends_name (h : Derives p ts next) : match p with
    | .operators _ inner e | .suffixes inner e => ∀ x, e = .name x → inner = .name x ∧ ts = []
    | _ => True := by
  induction h with
  | operand | head => exact fun x same => ⟨same, rfl⟩
  | binop _ _ _ _ _ rest =>
    intro x same
    cases (rest x same).1
  | dotName _ _ _ rest | index _ _ _ _ _ rest | method _ _ _ _ _ rest | call _ _ _ rest =>
    intro x same
    cases (rest x same).1
  | _ => trivial

theorem exp_name {x : String} (h : Derives (.exp limit (.name x)) ts next) :
    ∃ t, ts = [t] ∧ t.kind = .identifier ∧ t.text = x := by
  cases h with
  | unop _ _ rest => cases (rest.extends_name x rfl).1
  | simple first rest =>
    obtain ⟨rfl, rfl⟩ := rest.extends_name x rfl
    generalize named : Exp.name x = e at first
    cases first with
    | nil | kwTrue | kwFalse | vararg | string | function => cases named
    | @number _ n _ _ => cases n <;> cases named
    | tableExp inner =>
      cases inner
      cases named
    | primary inner =>
      subst named
      cases inner with
      | name kind rest =>
        obtain ⟨same, rfl⟩ := rest.extends_name x rfl
        cases same
        exact ⟨_, rfl, kind, rfl⟩
      | paren _ _ _ rest => cases (rest.extends_name x rfl).1

theorem primaryExp_cons {e : Exp} (h : Derives (.primaryExp e) ts next) : ∃ t us, ts = t :: us := by
  cases h with
  | name => exact ⟨_, _, rfl⟩
  | paren => exact ⟨_, _, rfl⟩

end Derives

namespace Parser

/-- With the fuel, the reader consumes tokens that spell the phrase of what it gives. -/
abbrev Spelling {α : Type} (calls fuel : Nat) (p : Parser α) (s : TokenStream) (phrase : α → Phrase) : Prop :=
  Takes (Enough calls fuel s) p s fun a => Derives (phrase a)

/-- The reader adds what it reads to a list that it is given in reverse. -/
abbrev Gathering {α : Type} (calls fuel : Nat) (p : Parser (List α)) (read : List α) (s : TokenStream)
    (phrase : List α → Phrase) : Prop :=
  Takes (Enough calls fuel s) p s fun as ts n => ∃ more, as = read.reverse ++ more ∧ Derives (phrase more) ts n

/-- The reader gives the rest of a statement, which spells it behind every way to open the statement. -/
abbrev Closing (calls fuel : Nat) (p : Parser StatKind) (s : TokenStream) (opener : TokenKind) (ts : List Token) : Prop :=
  Takes (Enough calls fuel s) p s fun kind us n =>
    ∀ f, f.kind = opener → Derives (.stat (.mk f.line kind)) (f :: ts ++ us) n

structure Spells (fuel : Nat) : Prop where
  exp {limit s} : Spelling 3 fuel (exp fuel limit) s (.exp limit)
  operators {limit lhs s} : Spelling 1 fuel (operators fuel limit lhs) s (.operators limit lhs)
  simpleExp {s} : Spelling 2 fuel (simpleExp fuel) s .simpleExp
  primaryExp {s} : Spelling 1 fuel (primaryExp fuel) s .primaryExp
  suffixes {head s} : Spelling 3 fuel (suffixes fuel head) s (.suffixes head)
  args {s} : Spelling 2 fuel (args fuel) s .args
  expList {s} : Spelling 4 fuel (expList fuel) s .expList
  moreExps {read s} : Gathering 1 fuel (moreExps fuel read) read s .moreExps
  table {s} : Spelling 1 fuel (table fuel) s .table
  fields {keys values s} : Takes (Enough 5 fuel s) (fields fuel keys values) s fun r ts n =>
    ∃ ks vs, r = (keys.reverse ++ ks, values.reverse ++ vs) ∧ Derives (.fields ks vs) ts n
  field {s} : Spelling 4 fuel (field fuel) s fun r => .field r.1 r.2
  funcBody {line s} : Spelling 1 fuel (funcBody fuel line) s fun r => .funcBody r.1 r.2.1 r.2.2
  block {read s} : Gathering 4 fuel (block fuel read) read s .block
  returnStat {s} : Spelling 1 fuel (returnStat fuel) s .returnStat
  stat {s} : Spelling 3 fuel (stat fuel) s .stat
  moreArms {guards blocks s} : Takes (Enough 1 fuel s) (moreArms fuel guards blocks) s fun r ts n =>
    ∃ gs bs, r = (guards.reverse ++ gs, blocks.reverse ++ bs) ∧ Derives (.moreArms gs bs) ts n
  numericFor {x a : Token} {line s} (identifier : x.kind = .identifier) (assign : a.kind = .assign) :
    Closing 4 fuel (numericFor fuel x.text line) s .kwFor [x, a]
  genericFor {x : Token} {line s} (identifier : x.kind = .identifier) :
    Closing 2 fuel (genericFor fuel x.text line) s .kwFor [x]
  functionStat {line s} : Closing 1 fuel (functionStat fuel line) s .kwFunction []
  localStat {line s} : Closing 1 fuel (localStat fuel line) s .kwLocal []
  assignOrCall {s} : Takes (Enough 2 fuel s) (assignOrCall fuel) s fun kind ts n =>
    ∃ t us, ts = t :: us ∧ Derives (.stat (.mk t.line kind)) ts n
  moreTargets {read s} : Gathering 1 fuel (moreTargets fuel read) read s .moreTargets

theorem moreNames_takes (fuel : Nat) (read : List String) (s : TokenStream) :
    Gathering 1 fuel (moreNames fuel read) read s .moreNames := by
  induction fuel generalizing read s with
  | zero => exact Takes.outOfFuel (by omega)
  | succ fuel ih =>
    refine acceptThen_takes rfl (fun c t _ comma => name_takes fun x t' _ identifier => (ih _ _).weaken (by omega) ?_)
      fun other => ?_
    · rintro _ ts n ⟨more, rfl, rest⟩
      exact ⟨x.text :: more, by simp, .moreNames comma identifier rest⟩
    · exact Takes.pure ⟨[], by simp, .lastName other⟩

theorem fieldNames_takes (fuel : Nat) (head : Exp) (s : TokenStream) :
    Spelling 1 fuel (fieldNames fuel head) s (.fieldNames head) := by
  induction fuel generalizing head s with
  | zero => exact Takes.outOfFuel (by omega)
  | succ fuel ih =>
    refine acceptThen_takes rfl (fun d t _ dot => name_takes fun x t' _ identifier => (ih _ _).weaken (by omega) ?_)
      fun other => ?_
    · intro e ts n rest
      exact .fieldNames dot identifier rest
    · exact Takes.pure (.target other)

theorem params_takes (fuel : Nat) (read : List String) (s : TokenStream) :
    Takes (Enough 1 fuel s) (params fuel read) s fun r ts n =>
      ∃ more, r.1 = read.reverse ++ more ∧ Derives (.params more r.2) ts n := by
  induction fuel generalizing read s with
  | zero => exact Takes.outOfFuel (by omega)
  | succ fuel ih =>
    apply peek_takes
    split
    · apply name_takes
      intro x t _ identifier
      refine acceptThen_takes rfl (fun c t' _ comma => (ih _ _).weaken (by omega) ?_) fun other => ?_
      · rintro r ts n ⟨more, same, rest⟩
        exact ⟨x.text :: more, by simp [same], .params identifier comma rest⟩
      · exact Takes.pure ⟨[x.text], by simp, .lastParam identifier other⟩
    · rename_i dots
      exact next_takes dots rfl fun d t _ _ same => Takes.pure ⟨[], by simp, .dots same⟩
    · exact complain_takes

namespace Spells

variable {fuel : Nat} {s : TokenStream} (ih : Spells fuel)

include ih

theorem body : Spelling 4 fuel (Parser.block fuel []) s .block := by
  apply ih.block.weaken id
  rintro _ ts n ⟨body, rfl, derived⟩
  exact derived

theorem exp_succ : Spelling 3 (fuel + 1) (Parser.exp (fuel + 1) limit) s (.exp limit) := by
  rw [Parser.exp]
  apply peek_takes
  split
  · rename_i op found
    refine next_takes rfl (beq_false_of_ne fun ended => by simp [ended, UnOp.ofKind?] at found) fun t t' _ _ same => ?_
    rw [← same] at found
    refine ih.exp.andThen (by omega) fun operand ts m t'' _ _ first => ih.operators.weaken (by omega) ?_
    rintro e us n rest rfl
    exact .unop found first rest
  · refine ih.simpleExp.andThen (by omega) fun operand ts m t _ _ first => ih.operators.weaken (by omega) ?_
    rintro e us n rest rfl
    exact .simple first rest

theorem operators_succ {lhs : Exp} :
    Spelling 1 (fuel + 1) (Parser.operators (fuel + 1) limit lhs) s (.operators limit lhs) := by
  rw [Parser.operators]
  apply peek_takes
  split
  · rename_i op found
    split
    · -- The operator binds too loosely and is left to a reader around this one.
      rename_i low
      refine Takes.pure (.operand fun op' found' => ?_)
      rw [found] at found'
      cases found'
      exact low
    · rename_i high
      refine next_takes rfl (beq_false_of_ne fun ended => by simp [ended, BinOp.ofKind?] at found) fun t t' _ _ same => ?_
      rw [← same] at found
      refine ih.exp.andThen (by omega) fun rhs ts m t'' _ _ right => ih.operators.weaken (by omega) ?_
      rintro e us n rest rfl
      exact .binop found (Nat.lt_of_not_le high) right rest
  · rename_i none_found
    refine Takes.pure (.operand fun op' found' => ?_)
    rw [none_found] at found'
    cases found'

theorem simpleExp_succ : Spelling 2 (fuel + 1) (Parser.simpleExp (fuel + 1)) s .simpleExp := by
  rw [Parser.simpleExp]
  apply peek_takes
  split
  · rename_i found
    exact next_takes found rfl fun t t' _ _ same => Takes.pure (.nil same)
  · rename_i found
    exact next_takes found rfl fun t t' _ _ same => Takes.pure (.kwTrue same)
  · rename_i found
    exact next_takes found rfl fun t t' _ _ same => Takes.pure (.kwFalse same)
  · rename_i found
    exact next_takes found rfl fun t t' _ _ same => Takes.pure (.vararg same)
  · rename_i found
    exact numeral_takes found fun t n next same value => .number same value
  · rename_i found
    exact next_takes found rfl fun t t' _ _ same => Takes.pure (.string same)
  · exact ih.table.weaken (by omega) fun e ts n whole => .tableExp whole
  · rename_i found
    exact next_takes found rfl fun t t' _ _ same => ih.funcBody.andPure (by omega) fun r ts n body => .function same body
  · exact ih.primaryExp.weaken (by omega) fun e ts n whole => .primary whole

theorem primaryExp_succ : Spelling 1 (fuel + 1) (Parser.primaryExp (fuel + 1)) s .primaryExp := by
  rw [Parser.primaryExp]
  apply peek_takes
  split
  · apply name_takes
    intro x t _ identifier
    exact ih.suffixes.weaken (by omega) fun e ts n rest => .name identifier rest
  · rename_i found
    refine next_takes found rfl fun l t _ _ same => ih.exp.andClose (by omega) rfl fun inner ts r t' _ first closer => ?_
    exact ih.suffixes.weaken (by omega) fun e us n rest => .paren same first closer rest
  · exact complain_takes

theorem suffixes_succ {head : Exp} :
    Spelling 3 (fuel + 1) (Parser.suffixes (fuel + 1) head) s (.suffixes head) := by
  rw [Parser.suffixes]
  apply peek_takes
  have called : Takes (Enough 3 (fuel + 1) s) (do
      let arguments ← Parser.args fuel
      Parser.suffixes fuel (.call head arguments false)) s fun e => Derives (.suffixes head e) := by
    refine ih.args.andThen (by omega) fun arguments ts m t _ _ first => ?_
    -- Arguments take a token, which pays for the suffix behind them.
    have some_token := first.length_pos rfl
    refine ih.suffixes.weaken (by omega) ?_
    rintro e us n rest rfl
    exact .call first rest
  split
  · rename_i found
    refine next_takes found rfl fun d t _ _ same => name_takes fun x t' _ identifier => ?_
    exact ih.suffixes.weaken (by omega) fun e ts n rest => .dotName same identifier rest
  · rename_i found
    refine next_takes found rfl fun l t _ _ same => ih.exp.andExpect (by omega) rfl fun key ts r t' _ first closer => ?_
    exact ih.suffixes.weaken (by omega) fun e us n rest => .index same first closer rest
  · rename_i found
    refine next_takes found rfl fun c t _ _ same => name_takes fun x t' _ identifier => ?_
    refine ih.args.andThen (by omega) fun arguments ts m t'' _ _ first => ih.suffixes.weaken (by omega) ?_
    rintro e us n rest rfl
    exact .method same identifier first rest
  · exact called
  · exact called
  · exact called
  · rename_i h₁ h₂ h₃ h₄ h₅ h₆
    apply Takes.pure
    apply Derives.head
    unfold TokenKind.startsSuffix
    split <;> first | rfl | contradiction

theorem args_succ : Spelling 2 (fuel + 1) (Parser.args (fuel + 1)) s .args := by
  rw [Parser.args]
  apply peek_takes
  split
  · rename_i found
    refine next_takes found rfl fun l t _ _ same => peek_takes ?_
    split
    · exact close_takes rfl fun r t' _ _ closer => Takes.pure (.noArgs same closer)
    · exact ih.expList.andClose (by omega) rfl fun es ts r t' _ first closer => Takes.pure (.argList same first closer)
  · exact ih.table.andPure (by omega) fun e ts n whole => .tableArg whole
  · rename_i found
    exact next_takes found rfl fun t t' _ _ same => Takes.pure (.stringArg same)
  · exact complain_takes

theorem expList_succ : Spelling 4 (fuel + 1) (Parser.expList (fuel + 1)) s .expList := by
  rw [Parser.expList]
  refine ih.exp.andThen (by omega) fun e ts m t _ _ first => ih.moreExps.weaken (by omega) ?_
  rintro _ us n ⟨more, rfl, rest⟩ rfl
  exact .expList first rest

theorem moreExps_succ {read : List Exp} : Gathering 1 (fuel + 1) (Parser.moreExps (fuel + 1) read) read s .moreExps := by
  rw [Parser.moreExps]
  refine acceptThen_takes rfl (fun c t _ comma => ih.exp.andThen (by omega)
    fun e ts m t' _ _ first => ih.moreExps.weaken (by omega) ?_)
    fun other => Takes.pure ⟨[], by simp, .lastExp other⟩
  rintro _ us n ⟨more, rfl, rest⟩ rfl
  exact ⟨e :: more, by simp, .moreExps comma first rest⟩

theorem table_succ : Spelling 1 (fuel + 1) (Parser.table (fuel + 1)) s .table := by
  rw [Parser.table]
  refine expect_takes rfl fun l t _ _ opener => ih.fields.andClose (by omega) rfl ?_
  rintro _ ts r t' _ ⟨keys, values, rfl, first⟩ closer
  exact Takes.pure (.table opener first closer)

theorem fields_succ {keys : List (Option Exp)} {values : List Exp} :
    Takes (Enough 5 (fuel + 1) s) (Parser.fields (fuel + 1) keys values) s fun r ts n =>
      ∃ ks vs, r = (keys.reverse ++ ks, values.reverse ++ vs) ∧ Derives (.fields ks vs) ts n := by
  rw [Parser.fields]
  apply peek_takes
  split
  · rename_i found
    apply Takes.pure
    rw [found]
    exact ⟨[], [], by simp, .noFields⟩
  · refine ih.field.andThen (by omega) ?_
    rintro ⟨key, value⟩ ts m t at_t _ first
    apply acceptSeparator_takes
    · intro c t' _ separator
      refine ih.fields.weaken (by omega) ?_
      rintro _ us n ⟨ks, vs, rfl, rest⟩ rfl
      exact ⟨key :: ks, value :: vs, by simp, .fields first separator rest⟩
    · intro notComma notSemi
      rw [← at_t] at notComma notSemi
      apply Takes.done at_t
      rw [List.append_nil]
      exact ⟨[key], [value], by simp, .lastField first notComma notSemi⟩

theorem field_succ : Spelling 4 (fuel + 1) (Parser.field (fuel + 1)) s fun r => .field r.1 r.2 := by
  rw [Parser.field]
  refine acceptThen_takes rfl (fun l t _ opener => ?_) fun _ => ?_
  · refine ih.exp.andExpect (by omega) rfl fun key ts r t' _ first closer => expect_takes rfl fun a t'' _ _ assign => ?_
    exact ih.exp.andPure (by omega) fun value us n second => .keyField opener first closer assign second
  · refine ih.exp.andThen (by omega) fun e ts m t at_t _ first => ?_
    split
    · rename_i key
      obtain ⟨x, rfl, identifier, rfl⟩ := first.exp_name
      refine acceptThen_takes rfl (fun a t' _ assign => ?_) fun other => ?_
      · exact ih.exp.andPure (by omega) fun value us n second _ => .nameField identifier assign second
      · rw [← at_t] at other
        apply Takes.done at_t
        exact .field first fun _ => other
    · rename_i notName
      apply Takes.done at_t
      rw [List.append_nil]
      refine .field first ?_
      rintro ⟨x, same⟩
      exact absurd same (notName x)

theorem funcBody_succ :
    Spelling 1 (fuel + 1) (Parser.funcBody (fuel + 1) line) s fun r => .funcBody r.1 r.2.1 r.2.2 := by
  rw [Parser.funcBody]
  refine expect_takes rfl fun l t _ _ opener => peek_takes ?_
  split
  · rw [pure_bind]
    refine expect_takes rfl fun r t' _ _ closer => ih.body.andClose (by omega) rfl fun body ts e t'' _ first ending => ?_
    exact Takes.pure (.noParams opener closer first ending)
  · refine (params_takes fuel [] _).andExpect (by omega) rfl ?_
    rintro ⟨_, isVararg⟩ ts r t' _ ⟨names, rfl, parameters⟩ closer
    refine ih.body.andClose (by omega) rfl fun body us e t'' _ first ending => ?_
    exact Takes.pure (.funcBody opener parameters closer first ending)

theorem block_succ {read : Block} : Gathering 4 (fuel + 1) (Parser.block (fuel + 1) read) read s .block := by
  rw [Parser.block]
  apply peek_takes
  split
  · exact ih.returnStat.andPure (by omega) fun last ts n whole => ⟨[last], by simp, .blockReturn whole⟩
  · rename_i notReturn
    split
    · rename_i ended
      exact Takes.pure ⟨[], by simp, .blockEnd ended notReturn⟩
    · refine ih.stat.andThen (by omega) fun stat ts m t _ _ first => ?_
      have some_token := first.length_pos rfl
      refine ih.block.weaken (by omega) ?_
      rintro _ us n ⟨more, rfl, rest⟩ rfl
      exact ⟨stat :: more, by simp, .block first rest⟩

theorem returnStat_succ : Spelling 1 (fuel + 1) (Parser.returnStat (fuel + 1)) s .returnStat := by
  rw [Parser.returnStat]
  refine expect_takes rfl fun r t _ _ ret => peek_takes ?_
  split
  · rename_i ended
    rw [pure_bind]
    refine accept_takes rfl (fun s t' _ _ semi => Takes.pure (.retSemi ret semi)) fun other => ?_
    have closed : endsBlock (upcoming t) = true := by simpa [other] using ended
    exact Takes.pure (.ret ret closed)
  · refine ih.expList.andThen (by omega) fun es ts m t' at_t _ first =>
      accept_takes rfl (fun s t'' _ found semi => ?_) fun other => ?_
    · rw [at_t, found] at first
      exact Takes.pure fun _ => .retExpsSemi ret first semi
    · rw [← at_t] at other
      apply Takes.done at_t
      rw [List.append_nil]
      exact .retExps ret first other

theorem moreArms_succ {guards : List Exp} {blocks : List Block} :
    Takes (Enough 1 (fuel + 1) s) (Parser.moreArms (fuel + 1) guards blocks) s fun r ts n =>
      ∃ gs bs, r = (guards.reverse ++ gs, blocks.reverse ++ bs) ∧ Derives (.moreArms gs bs) ts n := by
  rw [Parser.moreArms]
  refine acceptThen_takes rfl (fun e t _ elseIf => ?_) fun notElseIf =>
    acceptThen_takes rfl (fun e t _ otherwise => ?_) fun notElse => ?_
  · refine ih.exp.andExpect (by omega) rfl fun guard ts h t' _ first thens => ?_
    refine ih.body.andThen (by omega) fun body us m t'' _ _ second => ih.moreArms.weaken (by omega) ?_
    rintro _ vs n ⟨gs, bs, rfl, rest⟩ rfl
    exact ⟨guard :: gs, body :: bs, by simp, .elseIf elseIf first thens second rest⟩
  · exact ih.body.andPure (by omega) fun body ts n first => ⟨[.bool true], [body], by simp, .otherwise otherwise first⟩
  · exact Takes.pure ⟨[], [], by simp, .lastArm notElseIf notElse⟩

theorem numericFor_succ {x a : Token} (identifier : x.kind = .identifier) (assign : a.kind = .assign) :
    Closing 4 (fuel + 1) (Parser.numericFor (fuel + 1) x.text line) s .kwFor [x, a] := by
  rw [Parser.numericFor]
  refine ih.exp.andExpect (by omega) rfl fun init ts c t _ first comma => ih.exp.andThen (by omega)
    fun limit us m t' at_t _ second => ?_
  refine accept_takes rfl (fun b t'' _ found comma' => ?_) fun _ => ?_
  · rw [at_t, found] at second
    simp only [if_true, map_eq_pure_bind, bind_assoc, pure_bind]
    refine ih.exp.andExpect (by omega) rfl fun step vs d u _ third dos =>
      ih.body.andClose (by omega) rfl fun body ws e u' _ last ending => ?_
    exact Takes.pure fun _ f isFor =>
      .numericForStep isFor identifier assign first comma second comma' third dos last ending
  · rw [if_neg (by decide), pure_bind]
    refine expect_takes rfl fun d u _ found dos => ih.body.andClose (by omega) rfl fun body ws e u' _ last ending => ?_
    rw [at_t, found] at second
    exact Takes.pure fun _ f isFor => .numericFor isFor identifier assign first comma second dos last ending

theorem genericFor_succ {x : Token} (identifier : x.kind = .identifier) :
    Closing 2 (fuel + 1) (Parser.genericFor (fuel + 1) x.text line) s .kwFor [x] := by
  rw [Parser.genericFor]
  refine (moreNames_takes fuel _ _).andExpect (by omega) rfl ?_
  rintro _ ts i t _ ⟨names, rfl, first⟩ ins
  refine ih.expList.andExpect (by omega) rfl fun es us d t' _ second dos =>
    ih.body.andClose (by omega) rfl fun body vs e t'' _ last ending => ?_
  exact Takes.pure fun f isFor => .genericFor isFor identifier first ins second dos last ending

theorem functionStat_succ : Closing 1 (fuel + 1) (Parser.functionStat (fuel + 1) line) s .kwFunction [] := by
  rw [Parser.functionStat]
  refine name_takes fun x t _ identifier => (fieldNames_takes fuel _ _).andThen (by omega)
    fun target ts m t' at_t _ first => ?_
  refine accept_takes rfl (fun c t'' _ found colon => name_takes fun y t''' _ identifier' =>
    ih.funcBody.andPure (by omega) ?_)
    fun _ => ih.funcBody.andPure (by omega) ?_
  · rw [at_t, found] at first
    exact fun r us n last _ f isFunction => .methodStat isFunction identifier first colon identifier' last
  · rintro ⟨params, isVararg, body⟩ us n last rfl f isFunction
    have opener : ahead us n = .lparen := by
      cases last with
      | noParams opener => exact opener
      | funcBody opener => exact opener
    rw [opener] at first
    exact .functionStat isFunction identifier first last

theorem localStat_succ : Closing 1 (fuel + 1) (Parser.localStat (fuel + 1) line) s .kwLocal [] := by
  rw [Parser.localStat]
  refine acceptThen_takes rfl (fun g t _ isFunction => name_takes fun x t' _ identifier => ?_)
    fun _ => name_takes fun x t _ identifier => (moreNames_takes fuel _ _).andThen (by omega) ?_
  · exact ih.funcBody.andPure (by omega) fun r ts n last f isLocal => .localFunction isLocal isFunction identifier last
  · rintro _ ts m t' at_t _ ⟨names, rfl, first⟩
    refine accept_takes rfl (fun a t'' _ found assign => ?_) fun other => ?_
    · rw [at_t, found] at first
      rw [if_pos rfl]
      exact ih.expList.andPure (by omega) fun es us n last _ f isLocal => .localInit isLocal identifier first assign last
    · rw [← at_t] at other
      rw [if_neg (by decide), pure_bind]
      apply Takes.done at_t
      rw [List.append_nil]
      exact fun f isLocal => .localDecl isLocal identifier first other

theorem assignOrCall_succ : Takes (Enough 2 (fuel + 1) s) (Parser.assignOrCall (fuel + 1)) s fun kind ts n =>
    ∃ t us, ts = t :: us ∧ Derives (.stat (.mk t.line kind)) ts n := by
  rw [Parser.assignOrCall]
  refine ih.primaryExp.andThen (by omega) fun e ts m t at_t _ first => ?_
  obtain ⟨f, ts, rfl⟩ := first.primaryExp_cons
  apply peek_takes
  split
  · refine ih.moreTargets.andThen (by omega) ?_
    rintro _ us m' t' _ _ ⟨targets, rfl, second⟩
    split
    · rename_i vars
      refine expect_takes rfl fun a t'' _ _ assign => ih.expList.andPure (by omega) ?_
      rintro values vs n last rfl rfl
      exact ⟨f, _, rfl, .assign (first.followed_across assign) (second.followed assign) vars assign last⟩
    · exact complain_takes
  · rename_i other
    obtain ⟨notAssign, notComma⟩ : m ≠ .assign ∧ m ≠ .comma := by simpa [at_t] using other
    split
    · apply Takes.done at_t
      rw [List.append_nil]
      exact ⟨f, ts, rfl, .callStat first notAssign notComma⟩
    · exact complain_takes

theorem moreTargets_succ {read : List Exp} :
    Gathering 1 (fuel + 1) (Parser.moreTargets (fuel + 1) read) read s .moreTargets := by
  rw [Parser.moreTargets]
  refine acceptThen_takes rfl (fun c t _ comma => ih.primaryExp.andThen (by omega)
    fun e ts m t' _ _ first => ih.moreTargets.weaken (by omega) ?_)
    fun other => Takes.pure ⟨[], by simp, .lastTarget other⟩
  rintro _ us n ⟨more, rfl, rest⟩ rfl
  exact ⟨e :: more, by simp, .moreTargets comma first rest⟩

theorem stat_succ : Spelling 3 (fuel + 1) (Parser.stat (fuel + 1)) s .stat := by
  rw [Parser.stat]
  apply look_takes
  intro f seen _
  apply peek_takes
  split
  · rename_i found
    exact seen_takes seen found rfl fun t _ same => Takes.pure (.empty same)
  · rename_i found
    exact seen_takes seen found rfl fun t _ same => Takes.pure (.breakLoop same)
  · rename_i found
    refine seen_takes seen found rfl fun t _ same => name_takes fun x t' _ identifier => ?_
    exact expect_takes rfl fun r t'' _ _ closer => Takes.pure (.label same identifier closer)
  · rename_i found
    refine seen_takes seen found rfl fun t _ same => name_takes fun x t' _ identifier => ?_
    exact Takes.pure (.goto same identifier)
  · rename_i found
    refine seen_takes seen found rfl fun t _ same => ih.body.andClose (by omega) rfl fun body ts e t' _ first ending => ?_
    exact Takes.pure (.doBlock same first ending)
  · rename_i found
    refine seen_takes seen found rfl fun t _ same => ih.exp.andExpect (by omega) rfl fun guard ts d t' _ first dos => ?_
    refine ih.body.andClose (by omega) rfl fun body us e u _ second ending => ?_
    exact Takes.pure (.whileDo same first dos second ending)
  · rename_i found
    refine seen_takes seen found rfl fun t _ same => ih.body.andClose (by omega) rfl fun body ts u t' _ first untils => ?_
    exact ih.exp.andPure (by omega) fun guard us n second => .repeatUntil same first untils second
  · rename_i found
    refine seen_takes seen found rfl fun t _ same => ih.exp.andExpect (by omega) rfl fun guard ts h t' _ first thens => ?_
    refine ih.body.andThen (by omega) fun body us m t'' _ _ second => ih.moreArms.andClose (by omega) rfl ?_
    rintro _ vs e u _ ⟨guards, blocks, rfl, arms⟩ ending
    apply Takes.pure
    rintro rfl
    exact .ifThen same first thens (second.followed_across ending) arms ending
  · rename_i found
    refine seen_takes seen found rfl fun t _ same => name_takes fun x t' _ identifier => ?_
    refine acceptThen_takes rfl (fun a t'' _ assign => ?_) fun _ => ?_
    · exact (ih.numericFor identifier assign).andPure (by omega) fun kind ts n rest => rest f same
    · exact (ih.genericFor identifier).andPure (by omega) fun kind ts n rest => rest f same
  · rename_i found
    refine seen_takes seen found rfl fun t _ same => ?_
    exact ih.functionStat.andPure (by omega) fun kind ts n rest => rest f same
  · rename_i found
    refine seen_takes seen found rfl fun t _ same => ?_
    exact ih.localStat.andPure (by omega) fun kind ts n rest => rest f same
  · refine ih.assignOrCall.first.andPure (by omega) ?_
    rintro kind _ n ⟨⟨t, ts, rfl, whole⟩, front⟩
    obtain rfl : t = f := seen t (front t rfl)
    exact whole

end Spells

theorem spells_zero : Spells 0 := by
  constructor <;> intros <;>
    simp only [exp, operators, simpleExp, primaryExp, suffixes, args, expList, moreExps, table, fields, field, funcBody,
      block, returnStat, stat, moreArms, numericFor, genericFor, functionStat, localStat, assignOrCall, moreTargets] <;>
    exact Takes.outOfFuel (by omega)

theorem spells (fuel : Nat) : Spells fuel := by
  induction fuel with
  | zero => exact spells_zero
  | succ fuel ih =>
    exact ⟨ih.exp_succ, ih.operators_succ, ih.simpleExp_succ, ih.primaryExp_succ, ih.suffixes_succ, ih.args_succ,
      ih.expList_succ, ih.moreExps_succ, ih.table_succ, ih.fields_succ, ih.field_succ, ih.funcBody_succ, ih.block_succ,
      ih.returnStat_succ, ih.stat_succ, ih.moreArms_succ, ih.numericFor_succ, ih.genericFor_succ, ih.functionStat_succ,
      ih.localStat_succ, ih.assignOrCall_succ, ih.moreTargets_succ⟩

theorem expect_blames {s : TokenStream} {e : CompileError} (failed : expect kind s = .error e) : Blames True s e := by
  have judged (t : Token) (u : TokenStream) : Takes True (if t.kind = kind then Pure.pure t
      else throw (.parse ⟨t.line, t.shown, .expected kind⟩) : Parser Token) u fun _ _ _ => True := by
    split
    · exact Takes.pure trivial
    · exact Takes.throw (.parse _)
  have whole : Takes True (expect kind) s fun _ _ _ => True :=
    next_or_end (fun line _ => judged (.eof line) s) fun t t' _ _ _ => judged t t'
  exact whole.error e failed

theorem expect_eof {s s' : TokenStream} (real : ∀ t ∈ s.tokens, t.kind ≠ .eof) (run : expect .eof s = .ok (t, s')) :
    s.tokens = [] ∧ ∃ line, s.ending = .ok line := by
  obtain ⟨tokens, ending⟩ := s
  cases tokens with
  | cons u us =>
    have other : ¬ u.kind = .eof := real u (.head _)
    change (if u.kind = .eof then Pure.pure u else _ : Parser Token) _ = _ at run
    rw [if_neg other] at run
    cases run
  | nil =>
    cases ending with
    | ok line => exact ⟨rfl, line, rfl⟩
    | error e => cases run

end Parser

theorem TokenStream.readFrom_forall {P : Token → Prop}
    (each : ∀ c t next, Cursor.token c = .ok t next → t.kind ≠ .eof → P t) (c : Cursor) (read : List Token)
    (h : ∀ t ∈ read, P t) : ∀ t ∈ (readFrom c read).tokens, P t := by
  fun_induction readFrom c read with
  | case1 c read e _ _ => exact fun t member => h t (List.mem_reverse.mp member)
  | case2 c read t next _ _ => exact fun t member => h t (List.mem_reverse.mp member)
  | case3 c read t next found real _ ih => exact ih (List.forall_mem_cons.mpr ⟨each c t next found real, h⟩)

theorem TokenStream.ofSource_kind (source : String) : ∀ t ∈ (ofSource source).tokens, t.kind ≠ .eof :=
  readFrom_forall (fun _ _ _ _ real => real) _ _ nofun

theorem Block.parse_spelt {s : TokenStream} {block : Block} (real : ∀ t ∈ s.tokens, t.kind ≠ .eof)
    (parsed : Block.parse s = .ok block) : (∃ line, s.ending = .ok line) ∧ Derives (.block block) s.tokens .eof := by
  unfold Block.parse at parsed
  simp only [Bind.bind, Except.bind] at parsed
  split at parsed
  · cases parsed
  · rename_i r run
    split at parsed
    · cases parsed
    · rename_i t expected
      cases parsed
      obtain ⟨ts, whole, spelt⟩ := (Parser.spells _).body.ok r.1 r.2 run
      rw [whole] at real
      obtain ⟨rest, line, ending⟩ := Parser.expect_eof (fun t member => real t (List.mem_append_right _ member)) expected
      have last : Parser.upcoming r.2 = .eof := by simp [Parser.upcoming, rest]
      rw [last] at spelt
      rw [whole, TokenStream.prepend, rest, List.append_nil]
      exact ⟨⟨line, ending⟩, spelt⟩

theorem Block.parse_blames {s : TokenStream} {e : CompileError} (failed : Block.parse s = .error e) :
    Parser.Blames True s e := by
  unfold Block.parse at failed
  simp only [Bind.bind, Except.bind] at failed
  split at failed
  · rename_i e' run
    cases failed
    have enough : True → Parser.Enough 4 (Parser.fuelFor s) s := by
      simp only [Parser.Enough, Parser.fuelFor, Parser.left]
      omega
    exact ((Parser.spells (Parser.fuelFor s)).body.weaken enough fun _ _ _ => id).error e run
  · rename_i r run
    split at failed
    · rename_i e' expected
      cases failed
      obtain ⟨ts, whole, -⟩ := (Parser.spells (Parser.fuelFor s)).body.ok r.1 r.2 run
      rw [whole]
      exact (Parser.expect_blames expected).prepend ts
    · cases failed

theorem Block.parse_ne_outOfFuel (s : TokenStream) : Block.parse s ≠ .error .outOfFuel :=
  fun failed => (Block.parse_blames failed).fuel trivial rfl

theorem Chunk.parse_ne_code {source : String} {e : CodeError} : Chunk.parse source ≠ .error (.code e) :=
  fun failed => (Block.parse_blames failed).parsing e rfl

/-- The tokens of a source spell the block that it is read as, from the first to the last. -/
theorem Chunk.parse_derives {source : String} {block : Block} (parsed : Chunk.parse source = .ok block) :
    ∃ ts, Chunk.tokens source = .ok ts ∧ Derives (.block block) ts .eof := by
  obtain ⟨⟨line, ending⟩, spelt⟩ := Block.parse_spelt (TokenStream.ofSource_kind source) parsed
  refine ⟨(TokenStream.ofSource source).tokens, ?_, spelt⟩
  rw [Chunk.tokens, TokenStream.toExcept, ending]

theorem Chunk.parse_derives_methods :
    ∃ block ts, Chunk.parse "function a.b:c(x, ...) if x then return ...; else x = \x7b[1] = 2, y = -x ^ 2; ...\x7d end end
        a.b:c'z'.d[1] = #x .. \"\" return a.b:c\x7b\x7d (1);" = .ok block ∧ block.length = 3 ∧
      Chunk.tokens "function a.b:c(x, ...) if x then return ...; else x = \x7b[1] = 2, y = -x ^ 2; ...\x7d end end
        a.b:c'z'.d[1] = #x .. \"\" return a.b:c\x7b\x7d (1);" = .ok ts ∧ Derives (.block block) ts .eof := by
  simp only [exists_and_left]
  refine exists_ok (fun block => decide (block.length = 3)) (by decide +kernel) fun block parsed checked => ?_
  exact ⟨of_decide_eq_true checked, Chunk.parse_derives parsed⟩

end LuaBytecode
