import LuaBytecode.Proofs.Logic.Steps
import LuaBytecode.Proofs.Printing.Derivation

namespace LuaBytecode

def LexError.unlined : LexError → LexError
  | unexpectedChar near _ => unexpectedChar near 0
  | unfinishedString near _ => unfinishedString near 0
  | unfinishedLongBracket what _ => unfinishedLongBracket what 0
  | invalidEscape near _ => invalidEscape near 0
  | malformedNumber near _ => malformedNumber near 0
  | malformedString _ => malformedString 0

/-- What kind of error it is: all but its line, and of a syntax error not the words either. -/
def CompileError.kind : CompileError → CompileError
  | lex e => lex e.unlined
  | parse _ => parse ⟨0, "", .notAStatement⟩
  | code e => code e.unlined
  | outOfFuel => outOfFuel

inductive SameOutcome {α β : Type} (R : α → β → Prop) : Except CompileError α → Except CompileError β → Prop
  | ok {a : α} {b : β} : R a b → SameOutcome R (.ok a) (.ok b)
  | error {e e' : CompileError} : e.kind = e'.kind → SameOutcome R (.error e) (.error e')

namespace TokenStream

def Ends (s : TokenStream) : Prop := ∃ line, s.ending = .ok line

def bare (s : TokenStream) : TokenStream := ⟨s.tokens.map fun t => ⟨t.kind, 0, some t.text⟩, .ok 0⟩

structure Alike (s s' : TokenStream) : Prop where
  ends : s.Ends
  ends' : s'.Ends
  bare : s.bare = s'.bare

end TokenStream

namespace Parser

class Lined (α : Type) (bare : outParam (α → α)) : Prop

instance (priority := low) linedOther (α : Type) : Lined α fun a => a := ⟨⟩

instance linedExp : Lined Exp (Exp.atLine 0) := ⟨⟩

instance linedExps : Lined (List Exp) (Exp.listAtLine 0) := ⟨⟩

instance linedKey : Lined (Option Exp) (Exp.atLine? 0) := ⟨⟩

instance linedKeys : Lined (List (Option Exp)) (Exp.keysAtLine 0) := ⟨⟩

instance linedStatKind : Lined StatKind (StatKind.atLine 0) := ⟨⟩

instance linedStat : Lined Stat (Stat.atLine 0) := ⟨⟩

instance linedBlock : Lined (List Stat) (Block.atLine 0) := ⟨⟩

instance linedBlocks : Lined (List (List Stat)) (Block.listAtLine 0) := ⟨⟩

instance linedProd {α β : Type} {f : α → α} {g : β → β} [Lined α f] [Lined β g] :
    Lined (α × β) fun r => (f r.1, g r.2) := ⟨⟩

/-- The second reader does on tokens without their lines what the first one does, but for lines. -/
def Agrees {α : Type} {bare : α → α} [Lined α bare] (p p' : Parser α) : Prop :=
  ∀ ⦃s : TokenStream⦄, s.Ends → SameOutcome (fun r r' => r' = (bare r.1, r.2.bare) ∧ r.2.Ends) (p s) (p' s.bare)

abbrev Steady {α : Type} {bare : α → α} [Lined α bare] (p : Parser α) : Prop := Agrees p p

section Steps

variable {α β : Type} {bare : α → α} [Lined α bare] {p p' : Parser α} {k k' : Token → Parser α} {kind : TokenKind}

namespace Agrees

theorem bind {bare' : β → β} [Lined β bare'] {k k' : α → Parser β} (first : Agrees p p')
    (rest : ∀ a, Agrees (k a) (k' (bare a))) :
    Agrees (p >>= k) (p' >>= k') := by
  intro s ends
  have whole : (p >>= k) s = (p s).bind fun r => k r.1 r.2 := rfl
  have whole' : (p' >>= k') s.bare = (p' s.bare).bind fun r => k' r.1 r.2 := rfl
  rw [whole, whole']
  have outcome := first ends
  generalize p s = r, p' s.bare = r' at outcome
  cases outcome with
  | error same => exact .error same
  | ok both =>
    obtain ⟨rfl, ends'⟩ := both
    exact rest _ ends'

theorem pure {a b : α} (h : b = bare a) : Agrees (pure a) (pure b) := fun _ ends => .ok ⟨by rw [h], ends⟩

theorem throw {e e' : CompileError} (same : e.kind = e'.kind) : Agrees (throw e : Parser α) (throw e') :=
  fun _ _ => .error same

theorem ite {c : Prop} [Decidable c] {q q' : Parser α} (yes : Agrees p p') (no : Agrees q q') :
    Agrees (if c then p else q) (if c then p' else q') := by
  split
  · exact yes
  · exact no

end Agrees

section

variable (rest : ∀ t text, text.getD "" = t.text → Agrees (k t) (k' ⟨t.kind, 0, text⟩))

include rest

theorem look_bind : Agrees (look >>= k) (look >>= k') := by
  rintro ⟨ts, _⟩ ⟨line, rfl⟩
  cases ts with
  | nil => exact rest (.eof line) none rfl ⟨line, rfl⟩
  | cons t ts => exact rest t (some t.text) rfl ⟨line, rfl⟩

theorem next_bind : Agrees (next >>= k) (next >>= k') := by
  rintro ⟨ts, _⟩ ⟨line, rfl⟩
  cases ts with
  | nil => exact rest (.eof line) none rfl ⟨line, rfl⟩
  | cons t ts => exact rest t (some t.text) rfl ⟨line, rfl⟩

theorem expect_bind : Agrees (expect kind >>= k) (expect kind >>= k') := by
  rw [expect, bind_assoc, bind_assoc]
  refine next_bind fun t text same => ?_
  split
  · rw [pure_bind, pure_bind]
    exact rest t text same
  · exact .throw rfl

end

theorem next_then (rest : Agrees p p') : Agrees (next >>= fun _ => p) (next >>= fun _ => p') :=
  next_bind fun _ _ _ => rest

theorem expect_then (rest : Agrees p p') : Agrees (expect kind >>= fun _ => p) (expect kind >>= fun _ => p') :=
  expect_bind fun _ _ _ => rest

theorem peek_steady : Steady peek := look_bind fun _ _ _ => .pure rfl

theorem complain_agrees (c c' : Complaint) : Agrees (complain c : Parser α) (complain c') :=
  look_bind fun _ _ _ => .throw rfl

theorem name_steady : Steady name := expect_bind fun _ _ same => .pure same

theorem accept_steady (kind : TokenKind) : Steady (accept kind) :=
  peek_steady.bind fun _ => .ite (next_then (.pure rfl)) (.pure rfl)

theorem close_then {opener : TokenKind} {line line' : Nat} (rest : Agrees p p') :
    Agrees (close kind opener line >>= fun _ => p) (close kind opener line' >>= fun _ => p') := by
  have closes : Agrees (close kind opener line) (close kind opener line') := by
    refine (accept_steady kind).bind fun _ => .ite (.pure rfl) (look_bind fun _ _ _ => ?_)
    split <;> split <;> exact complain_agrees _ _
  exact closes.bind fun _ => rest

theorem outOfFuel_steady : Steady (outOfFuel : Parser α) := .throw rfl

theorem acceptSeparator_steady : Steady acceptSeparator :=
  (accept_steady .comma).bind fun _ => .ite (.pure rfl) (accept_steady .semi)

theorem moreNames_steady (fuel : Nat) (names : List String) : Steady (moreNames fuel names) := by
  induction fuel generalizing names with
  | zero => exact outOfFuel_steady
  | succ fuel ih => exact (accept_steady .comma).bind fun _ => .ite (name_steady.bind fun _ => ih _) (.pure rfl)

theorem fieldNames_agrees (fuel : Nat) (target : Exp) :
    Agrees (fieldNames fuel target) (fieldNames fuel (target.atLine 0)) := by
  induction fuel generalizing target with
  | zero => exact outOfFuel_steady
  | succ fuel ih => exact (accept_steady .dot).bind fun _ => .ite (name_steady.bind fun _ => ih _) (.pure rfl)

theorem params_steady (fuel : Nat) (names : List String) : Steady (params fuel names) := by
  induction fuel generalizing names with
  | zero => exact outOfFuel_steady
  | succ fuel ih =>
    refine peek_steady.bind fun kind => ?_
    split
    · exact name_steady.bind fun _ => (accept_steady .comma).bind fun _ => .ite (ih _) (.pure rfl)
    · exact next_then (.pure rfl)
    · exact complain_agrees _ _

theorem numeral_agrees {t t' : Token} (same : t'.text = t.text) : Agrees (numeral t) (numeral t') := by
  unfold numeral
  rw [same]
  split
  · rename_i n _
    cases n <;> exact .pure rfl
  · exact .throw rfl

end Steps

structure Agreement (fuel : Nat) : Prop where
  exp (limit : Nat) : Steady (exp fuel limit)
  operators (limit : Nat) (e : Exp) : Agrees (operators fuel limit e) (operators fuel limit (e.atLine 0))
  simpleExp : Steady (simpleExp fuel)
  primaryExp : Steady (primaryExp fuel)
  suffixes (e : Exp) : Agrees (suffixes fuel e) (suffixes fuel (e.atLine 0))
  args : Steady (args fuel)
  expList : Steady (expList fuel)
  moreExps (es : List Exp) : Agrees (moreExps fuel es) (moreExps fuel (Exp.listAtLine 0 es))
  table : Steady (table fuel)
  fields (keys : List (Option Exp)) (values : List Exp) :
    Agrees (fields fuel keys values) (fields fuel (Exp.keysAtLine 0 keys) (Exp.listAtLine 0 values))
  field : Steady (field fuel)
  funcBody (line line' : Nat) : Agrees (funcBody fuel line) (funcBody fuel line')
  block (stats : List Stat) : Agrees (block fuel stats) (block fuel (Block.atLine 0 stats))
  returnStat : Steady (returnStat fuel)
  stat : Steady (stat fuel)
  moreArms (guards : List Exp) (blocks : List Block) :
    Agrees (moreArms fuel guards blocks) (moreArms fuel (Exp.listAtLine 0 guards) (Block.listAtLine 0 blocks))
  numericFor (x : String) (line line' : Nat) : Agrees (numericFor fuel x line) (numericFor fuel x line')
  genericFor (x : String) (line line' : Nat) : Agrees (genericFor fuel x line) (genericFor fuel x line')
  functionStat (line line' : Nat) : Agrees (functionStat fuel line) (functionStat fuel line')
  localStat (line line' : Nat) : Agrees (localStat fuel line) (localStat fuel line')
  assignOrCall : Steady (assignOrCall fuel)
  moreTargets (es : List Exp) : Agrees (moreTargets fuel es) (moreTargets fuel (Exp.listAtLine 0 es))

theorem listAtLine_reverse (es : List Exp) : (Exp.listAtLine 0 es).reverse = Exp.listAtLine 0 es.reverse := by
  rw [Exp.listAtLine_eq, Exp.listAtLine_eq, List.map_reverse]

theorem keysAtLine_reverse (keys : List (Option Exp)) :
    (Exp.keysAtLine 0 keys).reverse = Exp.keysAtLine 0 keys.reverse := by
  rw [Exp.keysAtLine_eq, Exp.keysAtLine_eq, List.map_reverse]

theorem atLine_reverse (stats : List Stat) : (Block.atLine 0 stats).reverse = Block.atLine 0 stats.reverse := by
  rw [Block.atLine_eq, Block.atLine_eq, List.map_reverse]

theorem blocksAtLine_reverse (blocks : List Block) :
    (Block.listAtLine 0 blocks).reverse = Block.listAtLine 0 blocks.reverse := by
  rw [Block.listAtLine_eq, Block.listAtLine_eq, List.map_reverse]

namespace Agreement

variable {fuel : Nat} (ih : Agreement fuel)

include ih

theorem exp_succ (limit : Nat) : Steady (Parser.exp (fuel + 1) limit) := by
  rw [Parser.exp]
  refine peek_steady.bind fun kind => ?_
  split
  · exact next_then ((ih.exp _).bind fun _ => ih.operators _ _)
  · exact ih.simpleExp.bind fun _ => ih.operators _ _

theorem operators_succ (limit : Nat) (e : Exp) :
    Agrees (Parser.operators (fuel + 1) limit e) (Parser.operators (fuel + 1) limit (e.atLine 0)) := by
  rw [Parser.operators, Parser.operators]
  refine peek_steady.bind fun kind => ?_
  split
  · exact .ite (.pure rfl) (next_then ((ih.exp _).bind fun _ => ih.operators _ _))
  · exact .pure rfl

theorem simpleExp_succ : Steady (Parser.simpleExp (fuel + 1)) := by
  rw [Parser.simpleExp]
  refine peek_steady.bind fun kind => ?_
  split
  · exact next_then (.pure rfl)
  · exact next_then (.pure rfl)
  · exact next_then (.pure rfl)
  · exact next_then (.pure rfl)
  · exact next_bind fun _ _ same => numeral_agrees same
  · exact next_bind fun _ _ same => .pure (congrArg Exp.string same)
  · exact ih.table
  · exact next_bind fun _ _ _ => (ih.funcBody _ _).bind fun _ => .pure rfl
  · exact ih.primaryExp

theorem primaryExp_succ : Steady (Parser.primaryExp (fuel + 1)) := by
  rw [Parser.primaryExp]
  refine peek_steady.bind fun kind => ?_
  split
  · exact name_steady.bind fun _ => ih.suffixes _
  · exact next_bind fun _ _ _ => (ih.exp 0).bind fun _ => close_then (ih.suffixes _)
  · exact complain_agrees _ _

theorem suffixes_succ (e : Exp) :
    Agrees (Parser.suffixes (fuel + 1) e) (Parser.suffixes (fuel + 1) (e.atLine 0)) := by
  rw [Parser.suffixes, Parser.suffixes]
  refine peek_steady.bind fun kind => ?_
  cases kind with
  | dot => exact next_then (name_steady.bind fun _ => ih.suffixes _)
  | lbracket => exact next_then ((ih.exp 0).bind fun _ => expect_then (ih.suffixes _))
  | colon => exact next_then (name_steady.bind fun _ => ih.args.bind fun _ => ih.suffixes _)
  | lparen | string | lbrace => exact ih.args.bind fun _ => ih.suffixes _
  | _ => exact .pure rfl

theorem args_succ : Steady (Parser.args (fuel + 1)) := by
  rw [Parser.args]
  refine peek_steady.bind fun kind => ?_
  split
  · refine next_bind fun _ _ _ => peek_steady.bind fun _ => ?_
    exact .ite (close_then (.pure rfl)) (ih.expList.bind fun _ => close_then (.pure rfl))
  · exact ih.table.bind fun _ => .pure rfl
  · exact next_bind fun _ _ same => .pure (congrArg (fun x => [Exp.string x]) same)
  · exact complain_agrees _ _

theorem expList_succ : Steady (Parser.expList (fuel + 1)) := by
  rw [Parser.expList]
  exact (ih.exp 0).bind fun _ => ih.moreExps _

theorem moreExps_succ (es : List Exp) :
    Agrees (Parser.moreExps (fuel + 1) es) (Parser.moreExps (fuel + 1) (Exp.listAtLine 0 es)) := by
  rw [Parser.moreExps, Parser.moreExps]
  exact (accept_steady .comma).bind fun _ =>
    .ite ((ih.exp 0).bind fun _ => ih.moreExps _) (.pure (listAtLine_reverse _))

theorem table_succ : Steady (Parser.table (fuel + 1)) := by
  rw [Parser.table]
  exact expect_bind fun _ _ _ => (ih.fields [] []).bind fun _ => close_then (.pure rfl)

theorem fields_succ (keys : List (Option Exp)) (values : List Exp) : Agrees (Parser.fields (fuel + 1) keys values)
    (Parser.fields (fuel + 1) (Exp.keysAtLine 0 keys) (Exp.listAtLine 0 values)) := by
  have done : ∀ keys values, ((Exp.keysAtLine 0 keys).reverse, (Exp.listAtLine 0 values).reverse) =
      (Exp.keysAtLine 0 keys.reverse, Exp.listAtLine 0 values.reverse) := fun keys values => by
    rw [keysAtLine_reverse, listAtLine_reverse]
  rw [Parser.fields, Parser.fields]
  refine peek_steady.bind fun _ => .ite (.pure (done _ _)) (ih.field.bind fun _ => ?_)
  exact acceptSeparator_steady.bind fun _ => .ite (ih.fields _ _) (.pure (done (_ :: _) (_ :: _)))

theorem field_succ : Steady (Parser.field (fuel + 1)) := by
  rw [Parser.field]
  refine (accept_steady .lbracket).bind fun _ => .ite ?_ ((ih.exp 0).bind fun e => ?_)
  · exact (ih.exp 0).bind fun _ => expect_then (expect_then ((ih.exp 0).bind fun _ => .pure rfl))
  · cases e with
    | name x => exact (accept_steady .assign).bind fun _ => .ite ((ih.exp 0).bind fun _ => .pure rfl) (.pure rfl)
    | _ => exact .pure rfl

theorem funcBody_succ (line line' : Nat) :
    Agrees (Parser.funcBody (fuel + 1) line) (Parser.funcBody (fuel + 1) line') := by
  rw [Parser.funcBody, Parser.funcBody]
  refine expect_then (peek_steady.bind fun _ => ?_)
  split
  · exact expect_then ((ih.block []).bind fun _ => close_then (.pure rfl))
  · exact (params_steady fuel []).bind fun _ => expect_then ((ih.block []).bind fun _ => close_then (.pure rfl))

theorem block_succ (stats : List Stat) :
    Agrees (Parser.block (fuel + 1) stats) (Parser.block (fuel + 1) (Block.atLine 0 stats)) := by
  rw [Parser.block, Parser.block]
  refine peek_steady.bind fun kind => ?_
  cases kind with
  | kwReturn => exact ih.returnStat.bind fun s => .pure (atLine_reverse (s :: stats))
  | _ => exact .ite (.pure (atLine_reverse _)) (ih.stat.bind fun _ => ih.block _)

theorem returnStat_succ : Steady (Parser.returnStat (fuel + 1)) := by
  rw [Parser.returnStat]
  have none_steady : Steady (pure [] : Parser (List Exp)) := .pure rfl
  refine expect_bind fun _ _ _ => peek_steady.bind fun _ => ?_
  split
  · exact none_steady.bind fun _ => (accept_steady .semi).bind fun _ => .pure rfl
  · exact ih.expList.bind fun _ => (accept_steady .semi).bind fun _ => .pure rfl

theorem moreArms_succ (guards : List Exp) (blocks : List Block) : Agrees (Parser.moreArms (fuel + 1) guards blocks)
    (Parser.moreArms (fuel + 1) (Exp.listAtLine 0 guards) (Block.listAtLine 0 blocks)) := by
  have done : ∀ guards blocks, ((Exp.listAtLine 0 guards).reverse, (Block.listAtLine 0 blocks).reverse) =
      (Exp.listAtLine 0 guards.reverse, Block.listAtLine 0 blocks.reverse) := fun guards blocks => by
    rw [listAtLine_reverse, blocksAtLine_reverse]
  rw [Parser.moreArms, Parser.moreArms]
  refine (accept_steady _).bind fun _ => .ite ((ih.exp 0).bind fun _ => expect_then ?_) ((accept_steady _).bind fun _ => ?_)
  · exact (ih.block []).bind fun _ => ih.moreArms _ _
  · exact .ite ((ih.block []).bind fun body => .pure (done (.bool true :: guards) (body :: blocks)))
      (.pure (done _ _))

theorem numericFor_succ (x : String) (line line' : Nat) :
    Agrees (Parser.numericFor (fuel + 1) x line) (Parser.numericFor (fuel + 1) x line') := by
  rw [Parser.numericFor, Parser.numericFor]
  have some_steady : Steady (some <$> Parser.exp fuel 0) := by
    rw [map_eq_pure_bind]
    exact (ih.exp 0).bind fun _ => .pure rfl
  have none_steady : Steady (pure none : Parser (Option Exp)) := .pure rfl
  refine (ih.exp 0).bind fun _ => expect_then ((ih.exp 0).bind fun _ => (accept_steady _).bind fun _ => ?_)
  split
  · exact some_steady.bind fun _ => expect_then ((ih.block []).bind fun _ => close_then (.pure rfl))
  · exact none_steady.bind fun _ => expect_then ((ih.block []).bind fun _ => close_then (.pure rfl))

theorem genericFor_succ (x : String) (line line' : Nat) :
    Agrees (Parser.genericFor (fuel + 1) x line) (Parser.genericFor (fuel + 1) x line') := by
  rw [Parser.genericFor, Parser.genericFor]
  refine (moreNames_steady fuel [x]).bind fun _ => expect_then (ih.expList.bind fun _ => expect_then ?_)
  exact (ih.block []).bind fun _ => close_then (.pure rfl)

theorem functionStat_succ (line line' : Nat) :
    Agrees (Parser.functionStat (fuel + 1) line) (Parser.functionStat (fuel + 1) line') := by
  rw [Parser.functionStat, Parser.functionStat]
  refine name_steady.bind fun _ => (fieldNames_agrees fuel _).bind fun _ => (accept_steady _).bind fun _ => ?_
  exact .ite (name_steady.bind fun _ => (ih.funcBody _ _).bind fun _ => .pure rfl)
    ((ih.funcBody _ _).bind fun _ => .pure rfl)

theorem localStat_succ (line line' : Nat) :
    Agrees (Parser.localStat (fuel + 1) line) (Parser.localStat (fuel + 1) line') := by
  rw [Parser.localStat, Parser.localStat]
  refine (accept_steady _).bind fun _ => .ite (name_steady.bind fun _ => (ih.funcBody _ _).bind fun _ => .pure rfl) ?_
  refine name_steady.bind fun _ => (moreNames_steady fuel _).bind fun _ => (accept_steady _).bind fun _ => ?_
  split
  · exact ih.expList.bind fun _ => .pure rfl
  · exact .pure rfl

theorem assignOrCall_succ : Steady (Parser.assignOrCall (fuel + 1)) := by
  rw [Parser.assignOrCall]
  refine ih.primaryExp.bind fun first => peek_steady.bind fun _ => .ite ?_ ?_
  · refine (ih.moreTargets [first]).bind fun targets => ?_
    rw [Exp.all_isVar_atLine]
    exact .ite (expect_then (ih.expList.bind fun _ => .pure rfl)) (complain_agrees _ _)
  · cases first with
    | call callee args isMethod => exact .pure rfl
    | _ => exact complain_agrees _ _

theorem moreTargets_succ (es : List Exp) :
    Agrees (Parser.moreTargets (fuel + 1) es) (Parser.moreTargets (fuel + 1) (Exp.listAtLine 0 es)) := by
  rw [Parser.moreTargets, Parser.moreTargets]
  exact (accept_steady .comma).bind fun _ =>
    .ite (ih.primaryExp.bind fun _ => ih.moreTargets _) (.pure (listAtLine_reverse _))

theorem stat_succ : Steady (Parser.stat (fuel + 1)) := by
  rw [Parser.stat]
  refine look_bind fun _ _ _ => peek_steady.bind fun kind => ?_
  cases kind with
  | semi | kwBreak => exact next_then (.pure rfl)
  | doubleColon => exact next_then (name_steady.bind fun _ => expect_then (.pure rfl))
  | kwGoto => exact next_then (name_steady.bind fun _ => .pure rfl)
  | kwDo => exact next_then ((ih.block []).bind fun _ => close_then (.pure rfl))
  | kwWhile =>
    exact next_then ((ih.exp 0).bind fun _ => expect_then ((ih.block []).bind fun _ => close_then (.pure rfl)))
  | kwRepeat => exact next_then ((ih.block []).bind fun _ => close_then ((ih.exp 0).bind fun _ => .pure rfl))
  | kwIf =>
    refine next_then ((ih.exp 0).bind fun _ => expect_then ((ih.block []).bind fun _ => ?_))
    exact (ih.moreArms [_] [_]).bind fun _ => close_then (.pure rfl)
  | kwFor =>
    refine next_then (name_steady.bind fun _ => (accept_steady _).bind fun _ => ?_)
    split
    · exact (ih.numericFor _ _ _).bind fun _ => .pure rfl
    · exact (ih.genericFor _ _ _).bind fun _ => .pure rfl
  | kwFunction => exact next_then ((ih.functionStat _ _).bind fun _ => .pure rfl)
  | kwLocal => exact next_then ((ih.localStat _ _).bind fun _ => .pure rfl)
  | _ => exact ih.assignOrCall.bind fun _ => .pure rfl

end Agreement

theorem agreement_zero : Agreement 0 := by
  constructor <;> intros <;>
    simp only [exp, operators, simpleExp, primaryExp, suffixes, args, expList, moreExps, table, fields, field, funcBody,
      block, returnStat, stat, moreArms, numericFor, genericFor, functionStat, localStat, assignOrCall, moreTargets] <;>
    exact outOfFuel_steady

theorem agreement (fuel : Nat) : Agreement fuel := by
  induction fuel with
  | zero => exact agreement_zero
  | succ fuel ih =>
    exact ⟨ih.exp_succ, ih.operators_succ, ih.simpleExp_succ, ih.primaryExp_succ, ih.suffixes_succ, ih.args_succ,
      ih.expList_succ, ih.moreExps_succ, ih.table_succ, ih.fields_succ, ih.field_succ, ih.funcBody_succ, ih.block_succ,
      ih.returnStat_succ, ih.stat_succ, ih.moreArms_succ, ih.numericFor_succ, ih.genericFor_succ, ih.functionStat_succ,
      ih.localStat_succ, ih.assignOrCall_succ, ih.moreTargets_succ⟩

end Parser

end LuaBytecode
