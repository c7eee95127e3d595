import LuaBytecode.Proofs.Ast.Nodes
import LuaBytecode.Proofs.Grammar.Complete
import LuaBytecode.Proofs.Grammar.Sound

namespace LuaBytecode

variable {ts : List Token} {next : TokenKind} {p : Phrase}

namespace Exp

def isOperand : Exp → Bool
  | unop .. | binop .. => false
  | _ => true

/-- The powers over their right operands of the operators on the right edge, outermost first. -/
def rightPowers : Exp → List Nat
  | binop op _ rhs => op.rightPower :: rhs.rightPowers
  | unop _ operand => UnOp.power :: operand.rightPowers
  | _ => []

/-- The powers over their left operands of the binary operators on the left edge, outermost first. -/
def leftPowers : Exp → List Nat
  | binop op lhs _ => op.leftPower :: lhs.leftPowers
  | _ => []

/-- Each operator has the operands that its powers reach: what ends its left operand binds that at least as strongly as
    the operator does, and what starts its right operand binds that more strongly. -/
def WellGrouped : Exp → Prop
  | binop op lhs rhs => (∀ p ∈ lhs.rightPowers, op.leftPower ≤ p) ∧ (∀ p ∈ rhs.leftPowers, op.rightPower < p) ∧
    lhs.WellGrouped ∧ rhs.WellGrouped
  | unop _ operand => (∀ p ∈ operand.leftPowers, UnOp.power < p) ∧ operand.WellGrouped
  | _ => True

inductive Item where
  | unary (op : UnOp)
  | binary (op : BinOp)
  | operand (e : Exp)

def sequence : Exp → List Item
  | binop op lhs rhs => lhs.sequence ++ .binary op :: rhs.sequence
  | unop op operand => .unary op :: operand.sequence
  | e => [.operand e]

theorem operator_cases {motive : Exp → Prop}
    (binop : ∀ op lhs rhs, motive lhs → motive rhs → motive (.binop op lhs rhs))
    (unop : ∀ op operand, motive operand → motive (.unop op operand))
    (operand : ∀ e : Exp, e.isOperand = true → motive e) : (e : Exp) → motive e
  | .binop op lhs rhs => binop op lhs rhs (operator_cases binop unop operand lhs) (operator_cases binop unop operand rhs)
  | .unop op inner => unop op inner (operator_cases binop unop operand inner)
  | .nil | .bool _ | .integer _ | .float _ | .string _ | .vararg | .name _ | .index .. | .call .. | .function .. | .table ..
  | .paren _ => operand _ rfl

section

variable {e : Exp}

variable (h : e.isOperand = true)

include h

theorem rightPowers_of_isOperand : e.rightPowers = [] := by
  cases e <;> first | rfl | cases h

theorem leftPowers_of_isOperand : e.leftPowers = [] := by
  cases e <;> first | rfl | cases h

theorem sequence_of_isOperand : e.sequence = [.operand e] := by
  cases e <;> first | rfl | cases h

theorem wellGrouped_of_isOperand : e.WellGrouped := by
  cases e <;> first | exact trivial | cases h

end

/-- An expression as it is read up to a token of kind `next`, where only operators with a left power above the limit are
    taken: the token is no operator that an operator on the right edge leaves its operand to. -/
structure Sits (limit : Nat) (next : TokenKind) (e : Exp) : Prop where
  grouped : e.WellGrouped
  left : ∀ p ∈ e.leftPowers, limit < p
  right : ∀ op, BinOp.ofKind? next = some op → ∀ p ∈ e.rightPowers, op.leftPower ≤ p

namespace Sits

variable {limit : Nat} {next : TokenKind}

theorem operand {e : Exp} (h : e.isOperand = true) : e.Sits limit next := by
  refine ⟨wellGrouped_of_isOperand h, ?_, ?_⟩
  · simp [leftPowers_of_isOperand h]
  · simp [rightPowers_of_isOperand h]

theorem unop {e : Exp} (op : UnOp) (inner : e.Sits UnOp.power next)
    (low : ∀ op, BinOp.ofKind? next = some op → op.leftPower ≤ UnOp.power) : (Exp.unop op e).Sits limit next := by
  refine ⟨⟨inner.left, inner.grouped⟩, ?_, fun op found => ?_⟩
  · simp [leftPowers]
  · rw [rightPowers, List.forall_mem_cons]
    exact ⟨low op found, inner.right op found⟩

theorem binop {lhs rhs : Exp} {op : BinOp} {kind : TokenKind} (found : BinOp.ofKind? kind = some op)
    (above : limit < op.leftPower) (first : lhs.Sits limit kind) (second : rhs.Sits op.rightPower next)
    (low : ∀ q, BinOp.ofKind? next = some q → q.leftPower ≤ op.rightPower) : (Exp.binop op lhs rhs).Sits limit next := by
  refine ⟨⟨first.right op found, second.left, first.grouped, second.grouped⟩, ?_, fun q coming => ?_⟩
  · rw [leftPowers, List.forall_mem_cons]
    exact ⟨above, first.left⟩
  · rw [rightPowers, List.forall_mem_cons]
    exact ⟨low q coming, second.right q coming⟩

end Sits

def AllGrouped (es : List Exp) : Prop := ∀ e ∈ es, e.WellGrouped

@[simp] theorem allGrouped_nil : AllGrouped [] ↔ True := by simp [AllGrouped]

@[simp] theorem allGrouped_cons {e : Exp} {es : List Exp} : AllGrouped (e :: es) ↔ e.WellGrouped ∧ AllGrouped es :=
  List.forall_mem_cons

@[simp] theorem allGrouped_append {es es' : List Exp} : AllGrouped (es ++ es') ↔ AllGrouped es ∧ AllGrouped es' :=
  List.forall_mem_append

structure Settled (e : Exp) : Prop where
  operand : e.isOperand = true
  nodes : AllGrouped (e.nodes true)

namespace Settled

variable {object : Exp} {args : List Exp}

theorem leaf {e : Exp} (operand : e.isOperand = true) (none : e.parts true = []) : e.Settled := by
  refine ⟨operand, ?_⟩
  rw [Exp.nodes, none, allGrouped_cons]
  exact ⟨wellGrouped_of_isOperand operand, allGrouped_nil.mpr trivial⟩

theorem string (value : String) : (Exp.string value).Settled := leaf rfl (by rw [Exp.parts])

theorem index {key : Exp} (ho : object.Settled) (hk : AllGrouped (key.nodes true)) :
    (Exp.index object key).Settled := by
  refine ⟨rfl, ?_⟩
  rw [Exp.nodes, Exp.parts, allGrouped_cons]
  exact ⟨trivial, allGrouped_append.mpr ⟨ho.nodes, hk⟩⟩

theorem field (h : object.Settled) (name : String) : (Exp.index object (.string name)).Settled :=
  h.index (string name).nodes

theorem call {callee : Exp} {isMethod : Bool} (hc : callee.Settled) (ha : AllGrouped (Exp.nodesOf true args)) :
    (Exp.call callee args isMethod).Settled := by
  refine ⟨rfl, ?_⟩
  rw [Exp.nodes, Exp.parts, allGrouped_cons, Bool.not_true, Bool.and_false, Exp.argNodes_keep]
  exact ⟨trivial, allGrouped_append.mpr ⟨hc.nodes, ha⟩⟩

theorem method {name : String} (ho : object.Settled) (ha : AllGrouped (Exp.nodesOf true args)) :
    (Exp.call (.index object (.string name)) (object :: args) true).Settled := by
  refine call (ho.field name) ?_
  rw [Exp.nodesOf_cons]
  exact allGrouped_append.mpr ⟨ho.nodes, ha⟩

theorem paren {inner : Exp} (h : AllGrouped (inner.nodes true)) : (Exp.paren inner).Settled := by
  refine ⟨rfl, ?_⟩
  rw [Exp.nodes, Exp.parts, allGrouped_cons]
  exact ⟨trivial, h⟩

theorem table {keys : List (Option Exp)} {values : List Exp} (hk : AllGrouped (Exp.keyNodes true keys))
    (hv : AllGrouped (Exp.nodesOf true values)) : (Exp.table keys values).Settled := by
  refine ⟨rfl, ?_⟩
  rw [Exp.nodes, Exp.parts, allGrouped_cons]
  exact ⟨trivial, allGrouped_append.mpr ⟨hk, hv⟩⟩

theorem function {params : List String} {isVararg : Bool} {body : Block} (h : AllGrouped (Block.nodes true body)) :
    (Exp.function params isVararg body).Settled := by
  refine ⟨rfl, ?_⟩
  rw [Exp.nodes, Exp.parts, allGrouped_cons]
  exact ⟨trivial, h⟩

end Settled

end Exp

/-- The expressions in a phrase are well grouped. Where a repetition builds on what stands before it, that is so if it is
    so of what it builds on. -/
def Phrase.Grouped (ts : List Token) (next : TokenKind) : Phrase → Prop
  | .exp limit e => e.Sits limit next ∧ (∀ op, BinOp.ofKind? next = some op → op.leftPower ≤ limit) ∧
    Exp.AllGrouped (e.nodes true)
  | .operators limit lhs e => lhs.Sits limit (ahead ts next) → Exp.AllGrouped (lhs.nodes true) →
    e.Sits limit next ∧ (∀ op, BinOp.ofKind? next = some op → op.leftPower ≤ limit) ∧ Exp.AllGrouped (e.nodes true)
  | .simpleExp e | .primaryExp e | .table e => e.Settled
  | .suffixes head e | .fieldNames head e => head.Settled → e.Settled
  | .args exps | .expList exps | .moreExps exps | .moreTargets exps => Exp.AllGrouped (Exp.nodesOf true exps)
  | .fields keys values => Exp.AllGrouped (Exp.keyNodes true keys) ∧ Exp.AllGrouped (Exp.nodesOf true values)
  | .field key value => Exp.AllGrouped (Exp.nodes? true key) ∧ Exp.AllGrouped (value.nodes true)
  | .moreNames _ | .params _ _ => True
  | .funcBody _ _ body | .block body => Exp.AllGrouped (Block.nodes true body)
  | .returnStat s | .stat s => Exp.AllGrouped (s.kind.nodes true)
  | .moreArms guards blocks => Exp.AllGrouped (Exp.nodesOf true guards) ∧ Exp.AllGrouped (Block.nodesOf true blocks)

theorem Derives.grouped (h : Derives p ts next) : p.Grouped ts next := by
  induction h with
  | unop found _ _ inner rest =>
    obtain ⟨sits, low, nodes⟩ := inner
    refine rest (.unop _ sits low) ?_
    rw [Exp.nodes, Exp.parts, Exp.allGrouped_cons]
    exact ⟨⟨sits.left, sits.grouped⟩, nodes⟩
  | simple _ _ first rest => exact rest (.operand first.operand) first.nodes
  | operand low => exact fun sits nodes => ⟨sits, low, nodes⟩
  | binop found above _ _ right rest =>
    intro left nodes
    obtain ⟨sits, low, nodes'⟩ := right
    have outer := Exp.Sits.binop found above left sits low
    refine rest outer ?_
    rw [Exp.nodes, Exp.parts, Exp.allGrouped_cons]
    exact ⟨outer.grouped, Exp.allGrouped_append.mpr ⟨nodes, nodes'⟩⟩
  | nil | kwTrue | kwFalse | vararg => exact .leaf rfl (by rw [Exp.parts])
  | string => exact .string _
  | @number _ n => cases n <;> exact .leaf rfl (by rw [Exp.ofNumber, Exp.parts])
  | tableExp _ table => exact table
  | function _ _ body => exact .function body
  | primary _ primary => exact primary
  | name _ _ rest => exact rest (.leaf rfl (by rw [Exp.parts]))
  | paren _ _ _ _ inner rest => exact rest (.paren inner.2.2)
  | head => exact id
  | dotName _ _ _ rest => exact fun head => rest (head.field _)
  | index _ _ _ _ key rest => exact fun head => rest (head.index key.2.2)
  | method _ _ _ _ args rest => exact fun head => rest (head.method args)
  | call _ _ args rest => exact fun head => rest (head.call args)
  | table _ _ _ fields => exact .table fields.1 fields.2
  | tableArg _ table =>
    rw [Phrase.Grouped, Exp.nodesOf_cons]
    exact Exp.allGrouped_append.mpr ⟨table.nodes, by simp [Exp.nodesOf]⟩
  | stringArg =>
    rw [Phrase.Grouped, Exp.nodesOf_cons]
    exact Exp.allGrouped_append.mpr ⟨(Exp.Settled.string _).nodes, by simp [Exp.nodesOf]⟩
  | nameField _ _ _ value => exact ⟨(Exp.Settled.string _).nodes, value.2.2⟩
  | target => exact id
  | fieldNames _ _ _ rest => exact fun head => rest (head.field _)
  | functionStat _ _ _ _ target body =>
    have named := (target (.leaf rfl (by rw [Exp.parts]))).nodes
    rw [Phrase.Grouped, Stat.kind_mk, StatKind.nodes, Exp.nodesOf_cons, Exp.nodesOf_cons]
    simp [Exp.nodesOf, named, (Exp.Settled.function body).nodes]
  | methodStat _ _ _ _ _ _ target body =>
    have named := fun method => ((target (.leaf rfl (by rw [Exp.parts]))).field method).nodes
    rw [Phrase.Grouped, Stat.kind_mk, StatKind.nodes, Exp.nodesOf_cons, Exp.nodesOf_cons]
    simp [Exp.nodesOf, named, (Exp.Settled.function body).nodes]
  | assign _ _ _ _ _ first targets values =>
    rw [Phrase.Grouped, Stat.kind_mk, StatKind.nodes, Exp.nodesOf_cons]
    simp only [Exp.allGrouped_append]
    exact ⟨⟨first.nodes, targets⟩, values⟩
  | moreTargets _ _ _ target targets =>
    rw [Phrase.Grouped, Exp.nodesOf_cons]
    exact Exp.allGrouped_append.mpr ⟨target.nodes, targets⟩
  | callStat _ _ _ call =>
    have nodes := call.nodes
    rw [Exp.nodes, Exp.allGrouped_cons, Exp.parts] at nodes
    exact nodes.2
  | _ =>
    simp_all [Phrase.Grouped, Exp.WellGrouped, Exp.nodes, Exp.parts, Exp.nodesOf, Exp.nodes?, Exp.keyNodes, Block.nodes_cons,
      Block.nodes, Block.nodesOf, Stat.kind_mk, StatKind.nodes]

inductive Spelt : List Exp.Item → List Token → TokenKind → Prop
  | nil {next : TokenKind} : Spelt [] [] next
  | unary {op : UnOp} {t : Token} {items : List Exp.Item} {ts : List Token} {next : TokenKind} :
    UnOp.ofKind? t.kind = some op → Spelt items ts next → Spelt (.unary op :: items) (t :: ts) next
  | binary {op : BinOp} {t : Token} {items : List Exp.Item} {ts : List Token} {next : TokenKind} :
    BinOp.ofKind? t.kind = some op → Spelt items ts next → Spelt (.binary op :: items) (t :: ts) next
  | operand {e : Exp} {items : List Exp.Item} {ts us : List Token} {next : TokenKind} :
    Derives (.simpleExp e) ts (ahead us next) → Spelt items us next → Spelt (.operand e :: items) (ts ++ us) next

namespace Spelt

variable {items items' : List Exp.Item} {ts us : List Token} {next : TokenKind}

theorem append (first : Spelt items ts (ahead us next)) (rest : Spelt items' us next) :
    Spelt (items ++ items') (ts ++ us) next := by
  generalize between : ahead us next = kind at first
  induction first with
  | nil => exact rest
  | unary found _ ih => exact .unary found (ih between)
  | binary found _ ih => exact .binary found (ih between)
  | operand derives _ ih =>
    subst between
    rw [List.append_assoc]
    rw [← ahead_append] at derives
    exact .operand derives (ih rfl)

theorem split (h : Spelt (items ++ items') ts next) :
    ∃ us vs, ts = us ++ vs ∧ Spelt items us (ahead vs next) ∧ Spelt items' vs next := by
  induction items generalizing ts with
  | nil => exact ⟨[], ts, rfl, .nil, h⟩
  | cons item items ih =>
    cases h with
    | unary found rest =>
      obtain ⟨us, vs, rfl, first, second⟩ := ih rest
      exact ⟨_ :: us, vs, rfl, .unary found first, second⟩
    | binary found rest =>
      obtain ⟨us, vs, rfl, first, second⟩ := ih rest
      exact ⟨_ :: us, vs, rfl, .binary found first, second⟩
    | operand derives rest =>
      obtain ⟨us, vs, rfl, first, second⟩ := ih rest
      rw [ahead_append] at derives
      exact ⟨_ ++ us, vs, (List.append_assoc ..).symm, .operand derives first, second⟩

theorem alone {e : Exp} (h : Derives (.simpleExp e) ts next) : Spelt [.operand e] ts next := by
  rw [← List.append_nil ts]
  exact .operand h .nil

theorem single {e : Exp} (operand : e.isOperand = true) (h : Spelt e.sequence ts next) : Derives (.simpleExp e) ts next := by
  rw [Exp.sequence_of_isOperand operand] at h
  cases h with
  | operand derives rest =>
    cases rest
    rwa [List.append_nil]

end Spelt

def Phrase.InOrder (ts : List Token) (next : TokenKind) : Phrase → Prop
  | .exp _ e => Spelt e.sequence ts next
  | .operators _ lhs e => ∀ us, Spelt lhs.sequence us (ahead ts next) → Spelt e.sequence (us ++ ts) next
  | _ => True

theorem Derives.inOrder (h : Derives p ts next) : p.InOrder ts next := by
  induction h with
  | unop found _ _ inner rest => exact rest _ (.unary found inner)
  | simple first _ _ rest =>
    apply rest
    rw [Exp.sequence_of_isOperand first.grouped.operand]
    exact .alone first
  | operand =>
    intro us left
    rwa [List.append_nil]
  | @binop _ op lhs rhs _ t ts vs next found _ _ _ right rest =>
    intro us left
    have both : Spelt (Exp.binop op lhs rhs).sequence (us ++ t :: ts) (ahead vs next) :=
      Spelt.append left (.binary found right)
    have whole := rest _ both
    rwa [List.append_assoc, List.cons_append] at whole
  | _ => exact trivial

theorem Exp.Sits.derives {tree : Exp} : {limit : Nat} → {e : Exp} → {ts us : List Token} → {next : TokenKind} →
    tree.Sits limit (ahead us next) → Spelt tree.sequence ts (ahead us next) → Derives (.operators limit tree e) us next →
    Derives (.exp limit e) (ts ++ us) next := by
  induction tree using Exp.operator_cases with
  | binop op lhs rhs left right =>
    intro limit e ts us next sits spelt rest
    obtain ⟨⟨above, below, groupedLeft, groupedRight⟩, outside, inside⟩ := sits
    rw [leftPowers, List.forall_mem_cons] at outside
    obtain ⟨vs, ws, rfl, first, second⟩ := spelt.split
    cases second with
    | @binary _ t _ ws _ found second =>
      -- The token behind both operands does not continue the right one, as the operator is on the right edge.
      have operand : Derives (.exp op.rightPower rhs) (ws ++ []) (ahead us next) := by
        refine right ⟨groupedRight, below, fun q coming p member => ?_⟩ second (.operand fun q coming => ?_)
        · exact inside q coming p (.tail _ member)
        · exact inside q coming _ (.head _)
      rw [List.append_nil] at operand
      have more : Derives (.operators limit lhs e) (t :: (ws ++ us)) next := .binop found outside.1 operand rest
      rw [List.append_assoc, List.cons_append]
      refine left ⟨groupedLeft, outside.2, fun q coming => ?_⟩ first more
      cases found.symm.trans coming
      exact above
  | unop op operand inner =>
    intro limit e ts us next sits spelt rest
    obtain ⟨⟨below, grouped⟩, -, inside⟩ := sits
    cases spelt with
    | @unary _ t _ ts _ found spelt =>
      have operand : Derives (.exp UnOp.power operand) (ts ++ []) (ahead us next) := by
        refine inner ⟨grouped, below, fun q coming p member => ?_⟩ spelt (.operand fun q coming => ?_)
        · exact inside q coming p (.tail _ member)
        · exact inside q coming _ (.head _)
      rw [List.append_nil] at operand
      exact .unop found operand rest
  | operand tree operand =>
    intro limit e ts us next _ spelt rest
    exact .simple (spelt.single operand) rest

theorem Derives.exp_unique {limit : Nat} {e e' : Exp} (h : Derives (.exp limit e) ts next)
    (h' : Derives (.exp limit e') ts next) : e = e' := by
  have enough : 10 * ts.length + 3 ≤ 10 * ts.length + 3 := Nat.le.refl
  have reads := h.complete _ enough ⟨[⟨next, 1, none⟩], .ok 1⟩ ⟨1, rfl⟩ rfl
  have reads' := h'.complete _ enough ⟨[⟨next, 1, none⟩], .ok 1⟩ ⟨1, rfl⟩ rfl
  cases reads.symm.trans reads'
  rfl

theorem BinOp.leftPower_pos (op : BinOp) : 0 < op.leftPower := by
  cases op <;> decide

theorem Exp.leftPowers_pos (e : Exp) : ∀ p ∈ e.leftPowers, 0 < p := by
  induction e using Exp.operator_cases with
  | binop op lhs rhs left _ =>
    rw [leftPowers, List.forall_mem_cons]
    exact ⟨op.leftPower_pos, left⟩
  | unop op operand _ => simp [leftPowers]
  | operand e operand => simp [leftPowers_of_isOperand operand]

/-- An expression is read as the one tree over its operators and operands in which each operator has the operands that its
    powers reach; and so is every expression in it. -/
theorem Parser.exp_wellGrouped {fuel : Nat} {s s' : TokenStream} {e : Exp} (run : Parser.exp fuel 0 s = .ok (e, s')) :
    ∃ ts, s = s'.prepend ts ∧ Spelt e.sequence ts (Parser.upcoming s') ∧ (∀ inner ∈ e.nodes true, inner.WellGrouped) ∧
      ∀ e' : Exp, e'.WellGrouped → e'.sequence = e.sequence → e' = e := by
  obtain ⟨ts, whole, derived⟩ := (Parser.spells fuel).exp.ok e s' run
  obtain ⟨_, low, nodes⟩ := derived.grouped
  have spelt : Spelt e.sequence ts (Parser.upcoming s') := derived.inOrder
  refine ⟨ts, whole, spelt, nodes, fun e' grouped same => ?_⟩
  -- No binary operator comes behind the whole: it would have been taken in.
  have last : ∀ op, BinOp.ofKind? (Parser.upcoming s') ≠ some op :=
    fun op coming => absurd (low op coming) (Nat.not_le_of_lt op.leftPower_pos)
  have other : Derives (.exp 0 e') (ts ++ []) (Parser.upcoming s') := by
    refine Exp.Sits.derives ⟨grouped, e'.leftPowers_pos, fun op coming => absurd coming (last op)⟩ (same ▸ spelt)
      (.operand low)
  rw [List.append_nil] at other
  exact other.exp_unique derived

theorem Parser.exp_wellGrouped_of_powers :
    ∃ ts e, Parser.exp 100 0 ⟨ts, .ok 1⟩ = .ok (e, ⟨[], .ok 1⟩) ∧
      e = .binop .and (.binop .concat (.binop .pow (.name "a") (.unop .neg (.binop .pow (.name "b") (.name "c"))))
        (.binop .concat (.unop .neg (.name "d")) (.paren (.binop .sub (.name "e") (.name "f"))))) (.unop .not (.name "g")) ∧
      Spelt e.sequence ts .eof ∧ (∀ inner ∈ e.nodes true, inner.WellGrouped) ∧
      ∀ e' : Exp, e'.WellGrouped → e'.sequence = e.sequence → e' = e := by
  have run : Parser.exp 100 0 ⟨[.ofName "a", .ofKind .caret, .ofKind .minus, .ofName "b", .ofKind .caret, .ofName "c",
      .ofKind .dotDot, .ofKind .minus, .ofName "d", .ofKind .dotDot, .ofKind .lparen, .ofName "e", .ofKind .minus,
      .ofName "f", .ofKind .rparen, .ofKind .kwAnd, .ofKind .kwNot, .ofName "g"], .ok 1⟩ =
      .ok (.binop .and (.binop .concat (.binop .pow (.name "a") (.unop .neg (.binop .pow (.name "b") (.name "c"))))
        (.binop .concat (.unop .neg (.name "d")) (.paren (.binop .sub (.name "e") (.name "f")))))
        (.unop .not (.name "g")), ⟨[], .ok 1⟩) := by
    with_unfolding_all rfl
  obtain ⟨ts, whole, spelt, nodes, unique⟩ := Parser.exp_wellGrouped run
  have tokens := congrArg TokenStream.tokens whole
  simp only [TokenStream.prepend, List.append_nil] at tokens
  subst tokens
  exact ⟨_, _, run, rfl, spelt, nodes, unique⟩

end LuaBytecode
