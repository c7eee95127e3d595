import LuaBytecode.Proofs.Grammar.Shape
import Mathlib.Data.List.ReduceOption
import Mathlib.Logic.Relation

namespace LuaBytecode

inductive Node where
  | exp (e : Exp)
  | stat (kind : StatKind)
  | block (b : Block)

def Exp.children : Exp → List Node
  | .nil | .bool _ | .integer _ | .float _ | .string _ | .vararg | .name _ => []
  | .index object key => [.exp object, .exp key]
  | .call callee args _ => .exp callee :: args.map .exp
  | .function _ _ body => [.block body]
  | .table keys values => keys.reduceOption.map .exp ++ values.map .exp
  | .paren inner => [.exp inner]
  | .unop _ operand => [.exp operand]
  | .binop _ lhs rhs => [.exp lhs, .exp rhs]

def StatKind.children : StatKind → List Node
  | .empty | .breakLoop | .label _ | .goto _ => []
  | .doBlock body => [.block body]
  | .whileDo guard body => [.exp guard, .block body]
  | .repeatUntil body guard => [.block body, .exp guard]
  | .ifThen guards blocks => guards.map .exp ++ blocks.map .block
  | .numericFor _ init limit step body => .exp init :: .exp limit :: .block body :: step.toList.map .exp
  | .genericFor _ exps body => .block body :: exps.map .exp
  | .localDecl _ exps => exps.map .exp
  | .localFunction _ _ _ body => [.block body]
  | .assign targets values => targets.map .exp ++ values.map .exp
  | .call callee args _ => .exp callee :: args.map .exp
  | .ret exps => exps.map .exp

structure Exp.Calls (callee : Exp) (args : List Exp) (isMethod : Bool) : Prop where
  isPrefix : callee.isPrefixExp = true
  receiver : isMethod = true →
    ∃ object m rest, callee = .index object (.string m) ∧ IsIdentifier m ∧ args = object :: rest

/-- What code generation relies on, at the root of the expression. -/
def Exp.WellShaped : Exp → Prop
  | .name x => IsIdentifier x
  | .index object _ => object.isPrefixExp = true
  | .call callee args isMethod => callee.Calls args isMethod
  | .function params _ _ => ∀ x ∈ params, IsIdentifier x
  | .table keys values => keys.length = values.length
  | _ => True

def StatKind.WellShaped : StatKind → Prop
  | .label x | .goto x => IsIdentifier x
  | .ifThen guards blocks => guards.length = blocks.length ∧ guards ≠ []
  | .numericFor var _ _ _ _ => IsIdentifier var
  | .genericFor names exps _ => names ≠ [] ∧ exps ≠ [] ∧ ∀ x ∈ names, IsIdentifier x
  | .localDecl names _ => names ≠ [] ∧ ∀ x ∈ names, IsIdentifier x
  | .localFunction f params _ _ => IsIdentifier f ∧ ∀ x ∈ params, IsIdentifier x
  | .assign targets values => targets ≠ [] ∧ values ≠ [] ∧ ∀ t ∈ targets, t.isVar = true
  | .call callee args isMethod => callee.Calls args isMethod
  | _ => True

def Block.WellShaped (b : Block) : Prop :=
  ∀ before s after, b = before ++ s :: after → s.kind.isReturn = true → after = []

namespace Node

def children : Node → List Node
  | .exp e => e.children
  | .stat kind => kind.children
  | .block b => b.map fun s => .stat s.kind

def WellShaped : Node → Prop
  | .exp e => e.WellShaped
  | .stat kind => kind.WellShaped
  | .block b => Block.WellShaped b

def Holds : Node → Node → Prop := Relation.ReflTransGen fun above below => below ∈ above.children

def Grammatical : Node → Prop
  | .exp e => e.Grammatical
  | .stat kind => kind.Grammatical
  | .block b => Block.Grammatical b

theorem grammatical_exps {exps : List Exp} (h : ∀ e ∈ exps, e.Grammatical) : ∀ n ∈ exps.map .exp, Grammatical n :=
  List.forall_mem_map.mpr h

end Node

open Node

section Children

theorem Exp.Shaped.children {e : Exp} (h : e.Grammatical) : ∀ n ∈ e.children, n.Grammatical := by
  cases h with
  | nil | bool | integer | float | string | vararg | name => exact nofun
  | index _ object key => exact List.forall_mem_cons.mpr ⟨object, List.forall_mem_singleton.mpr key⟩
  | call _ callee args => exact List.forall_mem_cons.mpr ⟨callee, grammatical_exps args⟩
  | method isPrefix object name args =>
    have whole := Exp.Shaped.ofCall (.method isPrefix object name args)
    exact List.forall_mem_cons.mpr ⟨whole.1, grammatical_exps whole.2⟩
  | function _ _ body => exact List.forall_mem_singleton.mpr body
  | table _ keys values =>
    refine List.forall_mem_append.mpr ⟨grammatical_exps fun k member => keys k ?_, grammatical_exps values⟩
    exact List.reduceOption_mem_iff.mp member
  | paren inner => exact List.forall_mem_singleton.mpr inner
  | unop operand => exact List.forall_mem_singleton.mpr operand
  | binop _ lhs rhs => exact List.forall_mem_cons.mpr ⟨lhs, List.forall_mem_singleton.mpr rhs⟩

theorem StatKind.Shaped.children {kind : StatKind} (h : kind.Grammatical) : ∀ n ∈ kind.children, n.Grammatical := by
  cases h with
  | empty | breakLoop | label | goto => exact nofun
  | doBlock body => exact List.forall_mem_singleton.mpr body
  | whileDo guard body => exact List.forall_mem_cons.mpr ⟨guard, List.forall_mem_singleton.mpr body⟩
  | repeatUntil body guard => exact List.forall_mem_cons.mpr ⟨body, List.forall_mem_singleton.mpr guard⟩
  | ifThen _ _ guards blocks =>
    exact List.forall_mem_append.mpr ⟨grammatical_exps guards, List.forall_mem_map.mpr blocks⟩
  | numericFor _ init limit step body =>
    refine List.forall_mem_cons.mpr ⟨init, List.forall_mem_cons.mpr ⟨limit, List.forall_mem_cons.mpr ⟨body, ?_⟩⟩⟩
    exact grammatical_exps fun e member => step e (Option.mem_toList.mp member)
  | genericFor _ _ _ exps body => exact List.forall_mem_cons.mpr ⟨body, grammatical_exps exps⟩
  | localDecl _ _ exps => exact grammatical_exps exps
  | localFunction _ _ _ body => exact List.forall_mem_singleton.mpr body
  | assign _ _ targets _ values =>
    exact List.forall_mem_append.mpr ⟨grammatical_exps targets, grammatical_exps values⟩
  | call whole => exact List.forall_mem_cons.mpr ⟨whole.ofCall.1, grammatical_exps whole.ofCall.2⟩
  | ret exps => exact grammatical_exps exps

theorem Block.Shaped.stats : {b : Block} → Block.Grammatical b → ∀ s ∈ b, s.kind.Grammatical
  | [], _ => nofun
  | .mk _ _ :: _, .cons first _ rest => List.forall_mem_cons.mpr ⟨first, Block.Shaped.stats rest⟩

theorem Node.Grammatical.children {n : Node} (h : n.Grammatical) : ∀ m ∈ n.children, m.Grammatical := by
  cases n with
  | exp e => exact Exp.Shaped.children h
  | stat kind => exact StatKind.Shaped.children h
  | block b => exact List.forall_mem_map.mpr (Block.Shaped.stats h)

theorem Node.Grammatical.holds {n m : Node} (h : n.Grammatical) (below : n.Holds m) : m.Grammatical := by
  induction below with
  | refl => exact h
  | tail _ child above => exact above.children _ child

end Children

section Local

theorem Exp.Shaped.calls {callee : Exp} {args : List Exp} {isMethod : Bool}
    (h : (Exp.call callee args isMethod).Grammatical) : callee.Calls args isMethod := by
  cases h with
  | call isPrefix => exact ⟨isPrefix, nofun⟩
  | method _ _ name => exact ⟨rfl, fun _ => ⟨_, _, _, rfl, name, rfl⟩⟩

theorem Exp.Shaped.wellShaped {e : Exp} (h : e.Grammatical) : e.WellShaped := by
  cases e with
  | nil | bool | integer | float | string | vararg | paren | unop | binop => trivial
  | name => cases h with | name identifier => exact identifier
  | index => cases h with | index isPrefix => exact isPrefix
  | call => exact h.calls
  | function => cases h with | function _ params => exact params
  | table => cases h with | table paired => exact paired

theorem StatKind.Shaped.wellShaped {kind : StatKind} (h : kind.Grammatical) : kind.WellShaped := by
  cases h with
  | empty | breakLoop | doBlock | whileDo | repeatUntil | ret => trivial
  | label identifier | goto identifier | numericFor identifier => exact identifier
  | ifThen paired some_guard => exact ⟨paired, some_guard⟩
  | genericFor some_name names some_exp => exact ⟨some_name, some_exp, names⟩
  | localDecl some_name names => exact ⟨some_name, names⟩
  | localFunction identifier _ params => exact ⟨identifier, params⟩
  | assign some_target vars _ some_value => exact ⟨some_target, some_value, vars⟩
  | call whole => exact whole.calls

theorem Block.Shaped.wellShaped {b : Block} (h : Block.Grammatical b) : Block.WellShaped b := by
  intro before s after split returns
  induction before generalizing b with
  | nil =>
    subst split
    obtain ⟨line, kind⟩ := s
    cases h with
    | cons _ last => exact last returns
  | cons first before ih =>
    subst split
    cases h with
    | cons _ _ rest => exact ih rest rfl

theorem Node.Grammatical.wellShaped {n : Node} (h : n.Grammatical) : n.WellShaped := by
  cases n with
  | exp e => exact Exp.Shaped.wellShaped h
  | stat kind => exact StatKind.Shaped.wellShaped h
  | block b => exact Block.Shaped.wellShaped h

end Local

/-- The parser builds well-shaped trees only: whatever node of the tree is looked at, its lists are paired and not empty
    where they must not be, its names are identifiers, and nothing follows a `return`. -/
theorem Chunk.parse_wellShaped {source : String} {block : Block} (parsed : Chunk.parse source = .ok block) {n : Node}
    (inside : (Node.block block).Holds n) : n.WellShaped := by
  have root : (Node.block block).Grammatical := Chunk.parse_grammatical parsed
  exact (root.holds inside).wellShaped

def Node.isMethodCall : Node → Bool
  | .stat (.call _ _ isMethod) => isMethod
  | _ => false

theorem Node.eq_of_isMethodCall {n : Node} (h : n.isMethodCall = true) :
    ∃ callee args, n = .stat (.call callee args true) := by
  unfold isMethodCall at h
  split at h
  · subst h
    exact ⟨_, _, rfl⟩
  · cases h

theorem Chunk.parse_wellShaped_method : ∃ block callee args,
    Chunk.parse "local function f(a) a.b:c(\x7b[a] = 1, 2\x7d) return a end" = .ok block ∧
      (Node.block block).Holds (.stat (.call callee args true)) ∧
      ∃ object m rest, callee = .index object (.string m) ∧ IsIdentifier m ∧ args = object :: rest := by
  simp only [exists_and_left]
  refine exists_ok (fun block => (((Node.block block).children.flatMap children).flatMap children).any isMethodCall)
    (by decide +kernel) fun block parsed checked => ?_
  obtain ⟨n, found, isCall⟩ := List.any_eq_true.mp checked
  obtain ⟨body, second, third⟩ := List.mem_flatMap.mp found
  obtain ⟨function, first, second⟩ := List.mem_flatMap.mp second
  obtain ⟨callee, args, rfl⟩ := eq_of_isMethodCall isCall
  have inside : (Node.block block).Holds (.stat (.call callee args true)) := .tail (.tail (.single first) second) third
  have calls : callee.Calls args true := Chunk.parse_wellShaped parsed inside
  exact ⟨callee, args, inside, by simpa only [exists_and_left] using calls.receiver rfl⟩

end LuaBytecode
