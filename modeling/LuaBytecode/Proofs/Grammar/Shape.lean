import LuaBytecode.Proofs.Grammar.Sound

namespace LuaBytecode

def Named (ts : List Token) : Prop := ∀ t ∈ ts, t.kind = .identifier → IsIdentifier t.text

namespace Named

variable {t : Token} {ts us : List Token}

theorem head (h : Named (t :: ts)) (kind : t.kind = .identifier) : IsIdentifier t.text := h t (.head _) kind

theorem tail (h : Named (t :: ts)) : Named ts := fun u member => h u (.tail _ member)

theorem left (h : Named (ts ++ us)) : Named ts := fun t member => h t (List.mem_append_left us member)

theorem right (h : Named (ts ++ us)) : Named us := fun t member => h t (List.mem_append_right ts member)

end Named

def TokenKind.Stops (limit : Nat) (next : TokenKind) : Prop :=
  ∀ op, BinOp.ofKind? next = some op → op.leftPower ≤ limit

def StatKind.Inner (kind : StatKind) : Prop := kind.Grammatical ∧ kind.isReturn = false

/-- What the tree of a phrase is like that starts with the kind `first` and that `next` comes behind, if what it is built
    on is in order. A chain of `..` is taken as a whole. -/
def Phrase.Shaped (first next : TokenKind) : Phrase → Prop
  | .exp limit e => e.Grammatical ∧ next.Stops limit
  | .operators limit lhs e =>
    lhs.Grammatical → (lhs.isConcat = true → first ≠ .dotDot) → e.Grammatical ∧ next.Stops limit
  | .simpleExp e | .table e => e.Grammatical ∧ e.isConcat = false
  | .primaryExp e => e.Grammatical ∧ e.isPrefixExp = true
  | .suffixes head e => head.Grammatical → head.isPrefixExp = true → e.Grammatical ∧ e.isPrefixExp = true
  | .args exps | .moreExps exps | .moreTargets exps => ∀ e ∈ exps, e.Grammatical
  | .expList exps => exps ≠ [] ∧ ∀ e ∈ exps, e.Grammatical
  | .fields keys values =>
    keys.length = values.length ∧ (∀ k, some k ∈ keys → k.Grammatical) ∧ ∀ v ∈ values, v.Grammatical
  | .field key value => (∀ k ∈ key, k.Grammatical) ∧ value.Grammatical
  | .moreNames names | .params names _ => ∀ x ∈ names, IsIdentifier x
  | .fieldNames head target => head.Grammatical → head.isVar = true → target.Grammatical ∧ target.isVar = true
  | .funcBody names _ body => (∀ x ∈ names, IsIdentifier x) ∧ Block.Grammatical body
  | .block stats => Block.Grammatical stats
  | .returnStat s => s.kind.Grammatical
  | .stat s => s.kind.Inner
  | .moreArms guards blocks =>
    guards.length = blocks.length ∧ (∀ g ∈ guards, g.Grammatical) ∧ ∀ b ∈ blocks, Block.Grammatical b

theorem Exp.isPrefixExp_of_isVar {e : Exp} (var : e.isVar = true) : e.isPrefixExp = true := by
  cases e <;> first | rfl | cases var

theorem Exp.isConcat_of_isPrefixExp {e : Exp} (head : e.isPrefixExp = true) : e.isConcat = false := by
  cases e <;> first | rfl | cases head

theorem Exp.shaped_ofNumber (n : Number) : (Exp.ofNumber n).Grammatical ∧ (Exp.ofNumber n).isConcat = false := by
  cases n with
  | integer value => exact ⟨.integer value, rfl⟩
  | float value => exact ⟨.float value, rfl⟩

/-- After `..` and its operand no further `..` comes: the operand has taken it. -/
theorem Exp.shaped_binop {op : BinOp} {lhs rhs : Exp} {first next : TokenKind} (found : BinOp.ofKind? first = some op)
    (left : lhs.Grammatical) (whole : lhs.isConcat = true → first ≠ .dotDot) (right : rhs.Grammatical)
    (stops : next.Stops op.rightPower) :
    (Exp.binop op lhs rhs).Grammatical ∧ ((Exp.binop op lhs rhs).isConcat = true → next ≠ .dotDot) := by
  refine ⟨.binop (fun concat => ?_) left right, fun concat again => ?_⟩
  · subst concat
    cases leans : lhs.isConcat with
    | false => rfl
    | true =>
      have other := whole leans
      revert found other
      cases first <;> simp [BinOp.ofKind?]
  · have power := stops .concat (by rw [again]; rfl)
    cases op <;> first | exact absurd power (by decide) | cases concat

theorem StatKind.inner_function {f : Exp} {params : List String} {isVararg : Bool} {body : Block}
    (target : f.Grammatical ∧ f.isVar = true) (names : ∀ x ∈ params, IsIdentifier x) (shape : Block.Grammatical body) :
    (StatKind.assign [f] [.function params isVararg body]).Inner := by
  refine ⟨.assign (by simp) ?_ ?_ (by simp) ?_, rfl⟩
  · simpa using target.2
  · simpa using target.1
  · simpa using Exp.Shaped.function trivial names shape

theorem isIdentifier_self : IsIdentifier "self" :=
  ⟨115, [101, 108, 102], rfl, List.all_eq_true.mp (by decide), rfl, by decide +kernel⟩

theorem Derives.shaped {p : Phrase} {ts : List Token} {next : TokenKind} (h : Derives p ts next) (named : Named ts) :
    p.Shaped (ahead ts next) next := by
  induction h with
  | unop _ _ _ operand rest =>
    exact rest named.tail.right (.unop (operand named.tail.left).1) nofun
  | simple _ _ operand rest =>
    obtain ⟨shape, single⟩ := operand named.left
    exact rest named.right shape fun concat => absurd concat (by simp [single])
  | operand low => exact fun shape _ => ⟨shape, low⟩
  | binop found _ _ _ right rest =>
    intro shape whole
    obtain ⟨right, stops⟩ := right named.tail.left
    obtain ⟨shape, whole⟩ := Exp.shaped_binop found shape whole right stops
    exact rest named.tail.right shape whole
  | nil => exact ⟨.nil, rfl⟩
  | kwTrue => exact ⟨.bool true, rfl⟩
  | kwFalse => exact ⟨.bool false, rfl⟩
  | vararg => exact ⟨.vararg, rfl⟩
  | number => exact Exp.shaped_ofNumber _
  | string => exact ⟨.string _, rfl⟩
  | tableExp _ table => exact table named
  | function _ _ body =>
    obtain ⟨names, shape⟩ := body named.tail
    exact ⟨.function trivial names shape, rfl⟩
  | primary _ primary =>
    obtain ⟨shape, head⟩ := primary named
    exact ⟨shape, Exp.isConcat_of_isPrefixExp head⟩
  | name identifier _ rest => exact rest named.tail (.name (named.head identifier)) rfl
  | paren _ _ _ _ inner rest => exact rest named.tail.right.tail (.paren (inner named.tail.left).1) rfl
  | head => exact fun shape head => ⟨shape, head⟩
  | dotName _ _ _ rest => exact fun shape head => rest named.tail.tail (.index head shape (.string _)) rfl
  | index _ _ _ _ key rest =>
    exact fun shape head => rest named.tail.right.tail (.index head shape (key named.tail.left).1) rfl
  | method _ identifier _ _ args rest =>
    intro shape head
    exact rest named.tail.tail.right (.method head shape (named.tail.head identifier) (args named.tail.tail.left)) rfl
  | call _ _ args rest => exact fun shape head => rest named.right (.call head shape (args named.left)) rfl
  | noArgs | lastExp | lastTarget | lastName => exact nofun
  | argList _ _ _ exps => exact (exps named.tail.left).2
  | tableArg _ table => exact List.forall_mem_singleton.mpr (table named).1
  | stringArg => exact List.forall_mem_singleton.mpr (.string _)
  | expList _ _ first rest =>
    exact ⟨by simp, List.forall_mem_cons.mpr ⟨(first named.left).1, rest named.right⟩⟩
  | moreExps _ _ _ first rest | moreTargets _ _ _ first rest =>
    exact List.forall_mem_cons.mpr ⟨(first named.tail.left).1, rest named.tail.right⟩
  | table _ _ _ fields =>
    obtain ⟨paired, keys, values⟩ := fields named.tail.left
    exact ⟨.table paired keys values, rfl⟩
  | noFields => exact ⟨rfl, nofun, nofun⟩
  | lastField _ _ _ field =>
    obtain ⟨key, value⟩ := field named
    exact ⟨rfl, fun k member => key k (List.mem_singleton.mp member).symm, List.forall_mem_singleton.mpr value⟩
  | fields _ _ _ field rest =>
    obtain ⟨key, value⟩ := field named.left
    obtain ⟨paired, keys, values⟩ := rest named.right.tail
    refine ⟨by simpa using paired, fun k member => ?_, List.forall_mem_cons.mpr ⟨value, values⟩⟩
    obtain same | member := List.mem_cons.mp member
    · exact key k same.symm
    · exact keys k member
  | keyField _ _ _ _ _ key value =>
    refine ⟨?_, (value named.tail.right.tail.tail).1⟩
    rintro _ ⟨⟩
    exact (key named.tail.left).1
  | nameField _ _ _ value =>
    refine ⟨?_, (value named.tail.tail).1⟩
    rintro _ ⟨⟩
    exact .string _
  | field _ _ value => exact ⟨nofun, (value named).1⟩
  | moreNames _ identifier _ rest =>
    exact List.forall_mem_cons.mpr ⟨named.tail.head identifier, rest named.tail.tail⟩
  | target => exact fun shape var => ⟨shape, var⟩
  | fieldNames _ _ _ rest =>
    intro shape var
    exact rest named.tail.tail (.index (Exp.isPrefixExp_of_isVar var) shape (.string _)) rfl
  | lastParam identifier => exact List.forall_mem_singleton.mpr (named.head identifier)
  | params identifier _ _ rest => exact List.forall_mem_cons.mpr ⟨named.head identifier, rest named.tail.tail⟩
  | dots => exact nofun
  | noParams _ _ _ _ body => exact ⟨nofun, body named.tail.tail.left⟩
  | funcBody _ _ _ _ _ params body => exact ⟨params named.tail.left, body named.tail.right.tail.left⟩
  | blockEnd => exact .nil
  | @blockReturn s _ _ _ last =>
    obtain ⟨line, kind⟩ := s
    exact .cons (last named) (fun _ => rfl) .nil
  | @block s _ _ _ _ _ _ first rest =>
    obtain ⟨line, kind⟩ := s
    obtain ⟨shape, inner⟩ := first named.left
    exact .cons shape (fun returns => absurd (inner.symm.trans returns) Bool.false_ne_true) (rest named.right)
  | ret | retSemi => exact .ret nofun
  | retExps _ _ _ exps => exact .ret (exps named.tail).2
  | retExpsSemi _ _ _ exps => exact .ret (exps named.tail.left).2
  | empty => exact ⟨.empty, rfl⟩
  | breakLoop => exact ⟨.breakLoop, rfl⟩
  | label _ identifier => exact ⟨.label (named.tail.head identifier), rfl⟩
  | goto _ identifier => exact ⟨.goto (named.tail.head identifier), rfl⟩
  | doBlock _ _ _ body => exact ⟨.doBlock (body named.tail.left), rfl⟩
  | whileDo _ _ _ _ _ guard body =>
    exact ⟨.whileDo (guard named.tail.left).1 (body named.tail.right.tail.left), rfl⟩
  | repeatUntil _ _ _ _ body guard =>
    exact ⟨.repeatUntil (body named.tail.left) (guard named.tail.right.tail).1, rfl⟩
  | ifThen _ _ _ _ _ _ guard body arms =>
    obtain ⟨paired, guards, blocks⟩ := arms named.tail.right.tail.right.left
    refine ⟨.ifThen (by simpa using paired) (by simp) ?_ ?_, rfl⟩
    · exact List.forall_mem_cons.mpr ⟨(guard named.tail.left).1, guards⟩
    · exact List.forall_mem_cons.mpr ⟨body named.tail.right.tail.left, blocks⟩
  | lastArm => exact ⟨rfl, nofun, nofun⟩
  | elseIf _ _ _ _ _ guard body rest =>
    obtain ⟨paired, guards, blocks⟩ := rest named.tail.right.tail.right
    refine ⟨by simpa using paired, ?_, ?_⟩
    · exact List.forall_mem_cons.mpr ⟨(guard named.tail.left).1, guards⟩
    · exact List.forall_mem_cons.mpr ⟨body named.tail.right.tail.left, blocks⟩
  | otherwise _ _ body =>
    exact ⟨rfl, List.forall_mem_singleton.mpr (.bool true), List.forall_mem_singleton.mpr (body named.tail)⟩
  | numericFor _ identifier _ _ _ _ _ _ _ init limit body =>
    have named := named.tail
    have rest := named.tail.tail
    exact ⟨.numericFor (named.head identifier) (init rest.left).1 (limit rest.right.tail.left).1 nofun
      (body rest.right.tail.right.tail.left), rfl⟩
  | numericForStep _ identifier _ _ _ _ _ _ _ _ _ init limit step body =>
    have named := named.tail
    have rest := named.tail.tail
    have last := rest.right.tail.right.tail
    refine ⟨.numericFor (named.head identifier) (init rest.left).1 (limit rest.right.tail.left).1 ?_
      (body last.right.tail.left), rfl⟩
    rintro _ ⟨⟩
    exact (step last.left).1
  | genericFor _ identifier _ _ _ _ _ _ names exps body =>
    have rest := named.tail.tail.right.tail
    have names := List.forall_mem_cons.mpr ⟨named.tail.head identifier, names named.tail.tail.left⟩
    obtain ⟨some_exp, exps⟩ := exps rest.left
    exact ⟨.genericFor (by simp) names some_exp exps (body rest.right.tail.left), rfl⟩
  | functionStat _ identifier _ _ target body =>
    obtain ⟨names, shape⟩ := body named.tail.tail.right
    exact StatKind.inner_function (target named.tail.tail.left (.name (named.tail.head identifier)) rfl) names shape
  | methodStat _ identifier _ _ _ _ target body =>
    obtain ⟨names, shape⟩ := body named.tail.tail.right.tail.tail
    obtain ⟨object, var⟩ := target named.tail.tail.left (.name (named.tail.head identifier)) rfl
    exact StatKind.inner_function ⟨.index (Exp.isPrefixExp_of_isVar var) object (.string _), rfl⟩
      (List.forall_mem_cons.mpr ⟨isIdentifier_self, names⟩) shape
  | localFunction _ _ identifier _ body =>
    obtain ⟨names, shape⟩ := body named.tail.tail.tail
    exact ⟨.localFunction (named.tail.tail.head identifier) trivial names shape, rfl⟩
  | localDecl _ identifier _ _ names =>
    have names := List.forall_mem_cons.mpr ⟨named.tail.head identifier, names named.tail.tail⟩
    exact ⟨.localDecl (by simp) names nofun, rfl⟩
  | localInit _ identifier _ _ _ names exps =>
    have names := List.forall_mem_cons.mpr ⟨named.tail.head identifier, names named.tail.tail.left⟩
    exact ⟨.localDecl (by simp) names (exps named.tail.tail.right.tail).2, rfl⟩
  | @assign first targets values t a ts us vs _ _ _ vars _ _ head more exps =>
    have split : t :: (ts ++ (us ++ a :: vs)) = (t :: ts) ++ (us ++ a :: vs) := rfl
    rw [split] at named
    obtain ⟨some_value, values⟩ := exps named.right.right.tail
    refine ⟨.assign (by simp) (List.all_eq_true.mp vars) ?_ some_value values, rfl⟩
    exact List.forall_mem_cons.mpr ⟨(head named.left).1, more named.right.left⟩
  | callStat _ _ _ call => exact ⟨.call (call named).1, rfl⟩

theorem Cursor.lexeme_identifier {c next : Cursor} {t : Token} (h : c.lexeme = .ok t next)
    (kind : t.kind = .identifier) : IsIdentifier t.text := by
  cases lexeme_scans h with
  | eof | numeral | longString | shortString => cases kind
  | @name b rest _ _ start first read =>
    have letter : Byte.isName b = true := by simp [Byte.isName, first]
    cases read
    have plain : TokenKind.keyword? (ofAscii (c.rest.takeWhile Byte.isName)) = none := by
      cases found : TokenKind.keyword? (ofAscii (c.rest.takeWhile Byte.isName)) with
      | none => rfl
      | some keyword =>
        simp only [found, Option.getD_some] at kind
        subst kind
        have member := List.mem_of_find?_eq_some found
        exact absurd member (by decide)
    rw [start, List.takeWhile_cons_of_pos letter] at plain
    refine ⟨b, rest.takeWhile Byte.isName, first, ?_, ?_, ?_⟩
    · exact List.all_eq_true.mp List.all_takeWhile
    · simp only [Token.text, start, List.takeWhile_cons_of_pos letter, Option.getD_some]
    · simpa only [Token.text, start, List.takeWhile_cons_of_pos letter, Option.getD_some] using plain
  | symbol found =>
    unfold TokenKind.symbol? at found
    obtain ⟨⟨spelling, entry⟩, member, found⟩ := List.exists_of_findSome?_eq_some found
    obtain ⟨rest'', _, same⟩ := Option.map_eq_some_iff.mp found
    cases same
    have symbol : ∀ pair ∈ TokenKind.symbolBytes, pair.2 ≠ .identifier := by decide +kernel
    exact absurd kind (symbol _ member)

theorem TokenStream.ofSource_named (source : String) : Named (ofSource source).tokens := by
  refine readFrom_forall (fun c t next found _ kind => ?_) _ _ nofun
  obtain ⟨start, -, read⟩ := Cursor.token_ok found
  exact Cursor.lexeme_identifier read kind

theorem Chunk.parse_grammatical {source : String} {block : Block} (h : Chunk.parse source = .ok block) :
    Block.Grammatical block :=
  (Block.parse_spelt (TokenStream.ofSource_kind source) h).2.shaped (TokenStream.ofSource_named source)

end LuaBytecode
