import LuaBytecode.Proofs.Ast.Shape
import Mathlib.Algebra.Group.Nat.Defs

namespace LuaBytecode

mutual

/-- The expressions that an expression is made of. A method call has its receiver twice, in its callee and in front of
    its arguments; if `copies` is false, the second one is left out. -/
def Exp.parts (copies : Bool) : Exp → List Exp
  | .nil | .bool _ | .integer _ | .float _ | .string _ | .vararg | .name _ => []
  | .index object key => object :: (object.parts copies ++ key :: key.parts copies)
  | .call callee args isMethod => callee :: (callee.parts copies ++ Exp.argNodes copies (isMethod && !copies) args)
  | .function _ _ body => Block.nodes copies body
  | .table keys values => Exp.keyNodes copies keys ++ Exp.nodesOf copies values
  | .paren inner => inner :: inner.parts copies
  | .unop _ operand => operand :: operand.parts copies
  | .binop _ lhs rhs => lhs :: (lhs.parts copies ++ rhs :: rhs.parts copies)

def Exp.nodesOf (copies : Bool) : List Exp → List Exp
  | [] => []
  | e :: rest => e :: (e.parts copies ++ Exp.nodesOf copies rest)

def Exp.argNodes (copies skip : Bool) : List Exp → List Exp
  | [] => []
  | e :: rest => if skip then Exp.nodesOf copies rest else e :: (e.parts copies ++ Exp.nodesOf copies rest)

def Exp.nodes? (copies : Bool) : Option Exp → List Exp
  | none => []
  | some e => e :: e.parts copies

def Exp.keyNodes (copies : Bool) : List (Option Exp) → List Exp
  | [] => []
  | key :: rest => Exp.nodes? copies key ++ Exp.keyNodes copies rest

def StatKind.nodes (copies : Bool) : StatKind → List Exp
  | .empty | .label _ | .goto _ | .breakLoop => []
  | .doBlock body => Block.nodes copies body
  | .whileDo guard body => guard :: (guard.parts copies ++ Block.nodes copies body)
  | .repeatUntil body guard => Block.nodes copies body ++ guard :: guard.parts copies
  | .ifThen guards blocks => Exp.nodesOf copies guards ++ Block.nodesOf copies blocks
  | .numericFor _ init limit step body => init :: (init.parts copies ++ limit :: (limit.parts copies ++
    (Exp.nodes? copies step ++ Block.nodes copies body)))
  | .genericFor _ exps body => Exp.nodesOf copies exps ++ Block.nodes copies body
  | .localDecl _ exps => Exp.nodesOf copies exps
  | .localFunction _ _ _ body => Block.nodes copies body
  | .assign targets values => Exp.nodesOf copies targets ++ Exp.nodesOf copies values
  | .call callee args isMethod => callee :: (callee.parts copies ++ Exp.argNodes copies (isMethod && !copies) args)
  | .ret exps => Exp.nodesOf copies exps

def Block.nodes (copies : Bool) : List Stat → List Exp
  | [] => []
  | .mk _ kind :: rest => kind.nodes copies ++ Block.nodes copies rest

def Block.nodesOf (copies : Bool) : List (List Stat) → List Exp
  | [] => []
  | b :: rest => Block.nodes copies b ++ Block.nodesOf copies rest

end

def Exp.nodes (copies : Bool) (e : Exp) : List Exp := e :: e.parts copies

theorem Exp.nodesOf_cons (copies : Bool) (e : Exp) (rest : List Exp) :
    Exp.nodesOf copies (e :: rest) = e.nodes copies ++ Exp.nodesOf copies rest := by
  rw [Exp.nodesOf, Exp.nodes, List.cons_append]

theorem Block.nodes_cons (copies : Bool) (s : Stat) (rest : Block) :
    Block.nodes copies (s :: rest) = s.kind.nodes copies ++ Block.nodes copies rest := by
  cases s
  rw [Block.nodes, Stat.kind]

theorem Stat.kind_mk (line : Nat) (kind : StatKind) : (Stat.mk line kind).kind = kind := rfl

mutual

def Exp.receiverDepth : Exp → Nat
  | .nil | .bool _ | .integer _ | .float _ | .string _ | .vararg | .name _ => 0
  | .index object key => max object.receiverDepth key.receiverDepth
  | .call callee args isMethod => max (callee.receiverDepth + isMethod.toNat) (Exp.receiverDepthOf args)
  | .function _ _ body => Block.receiverDepth body
  | .table keys values => max (Exp.keyReceiverDepth keys) (Exp.receiverDepthOf values)
  | .paren inner => inner.receiverDepth
  | .unop _ operand => operand.receiverDepth
  | .binop _ lhs rhs => max lhs.receiverDepth rhs.receiverDepth

def Exp.receiverDepthOf : List Exp → Nat
  | [] => 0
  | e :: rest => max e.receiverDepth (Exp.receiverDepthOf rest)

def Exp.receiverDepth? : Option Exp → Nat
  | none => 0
  | some e => e.receiverDepth

def Exp.keyReceiverDepth : List (Option Exp) → Nat
  | [] => 0
  | key :: rest => max (Exp.receiverDepth? key) (Exp.keyReceiverDepth rest)

def StatKind.receiverDepth : StatKind → Nat
  | .empty | .label _ | .goto _ | .breakLoop => 0
  | .doBlock body => Block.receiverDepth body
  | .whileDo guard body => max guard.receiverDepth (Block.receiverDepth body)
  | .repeatUntil body guard => max (Block.receiverDepth body) guard.receiverDepth
  | .ifThen guards blocks => max (Exp.receiverDepthOf guards) (Block.receiverDepthOf blocks)
  | .numericFor _ init limit step body =>
    max (max init.receiverDepth limit.receiverDepth) (max (Exp.receiverDepth? step) (Block.receiverDepth body))
  | .genericFor _ exps body => max (Exp.receiverDepthOf exps) (Block.receiverDepth body)
  | .localDecl _ exps => Exp.receiverDepthOf exps
  | .localFunction _ _ _ body => Block.receiverDepth body
  | .assign targets values => max (Exp.receiverDepthOf targets) (Exp.receiverDepthOf values)
  | .call callee args isMethod => max (callee.receiverDepth + isMethod.toNat) (Exp.receiverDepthOf args)
  | .ret exps => Exp.receiverDepthOf exps

def Block.receiverDepth : List Stat → Nat
  | [] => 0
  | .mk _ kind :: rest => max kind.receiverDepth (Block.receiverDepth rest)

def Block.receiverDepthOf : List (List Stat) → Nat
  | [] => 0
  | b :: rest => max (Block.receiverDepth b) (Block.receiverDepthOf rest)

end

/-- Of what is written once, no more than a power of two is stored. -/
def Doubled (depth stored written : Nat) : Prop := stored ≤ 2 ^ depth * written

namespace Doubled

variable {depth stored stored' written written' : Nat}

theorem zero : Doubled depth 0 0 := Nat.zero_le _

variable (h : Doubled depth stored written)

include h

theorem add (h' : Doubled depth stored' written') : Doubled depth (stored + stored') (written + written') := by
  rw [Doubled, Nat.mul_add]
  exact Nat.add_le_add h h'

theorem succ : Doubled depth (stored + 1) (written + 1) :=
  h.add (by rw [Doubled, Nat.mul_one]; exact Nat.one_le_two_pow)

theorem twice : Doubled (depth + 1) (stored + stored) written := by
  have bound : stored ≤ 2 ^ depth * written := h
  rw [Doubled, Nat.pow_succ, Nat.mul_right_comm]
  omega

end Doubled

theorem Exp.argNodes_keep (copies : Bool) (args : List Exp) : Exp.argNodes copies false args = Exp.nodesOf copies args := by
  cases args with
  | nil => rw [Exp.argNodes, Exp.nodesOf]
  | cons e rest => rw [Exp.argNodes, Exp.nodesOf, if_neg (by decide)]

theorem Exp.argNodes_skip (copies : Bool) (e : Exp) (args : List Exp) :
    Exp.argNodes copies true (e :: args) = Exp.nodesOf copies args := by
  rw [Exp.argNodes, if_pos rfl]

/-- Method calls that stand `depth` deep in receivers store no more than `2 ^ depth` of what is written. -/
abbrev Exp.Doubles (e : Exp) : Prop :=
  ∀ ⦃depth : Nat⦄, e.receiverDepth ≤ depth → Doubled depth (e.parts true).length (e.parts false).length

abbrev Block.Doubles (block : Block) : Prop :=
  ∀ ⦃depth : Nat⦄, Block.receiverDepth block ≤ depth →
    Doubled depth (Block.nodes true block).length (Block.nodes false block).length

section Lists

variable {depth : Nat}

theorem Exp.doubledOf {exps : List Exp} (h : ∀ e ∈ exps, e.Doubles) (deep : Exp.receiverDepthOf exps ≤ depth) :
    Doubled depth (Exp.nodesOf true exps).length (Exp.nodesOf false exps).length := by
  induction exps with
  | nil => exact .zero
  | cons e rest ih =>
    rw [Exp.receiverDepthOf, Nat.max_le] at deep
    obtain ⟨first, others⟩ := List.forall_mem_cons.mp h
    simp only [Exp.nodesOf, List.length_cons, List.length_append]
    exact ((first deep.1).add (ih others deep.2)).succ

theorem Exp.doubled? : {e? : Option Exp} → (∀ e ∈ e?, e.Doubles) → Exp.receiverDepth? e? ≤ depth →
    Doubled depth (Exp.nodes? true e?).length (Exp.nodes? false e?).length
  | none, _, _ => .zero
  | some e, h, deep => (h e rfl deep).succ

theorem Exp.doubledKeys {keys : List (Option Exp)} (h : ∀ k, some k ∈ keys → k.Doubles)
    (deep : Exp.keyReceiverDepth keys ≤ depth) :
    Doubled depth (Exp.keyNodes true keys).length (Exp.keyNodes false keys).length := by
  induction keys with
  | nil => exact .zero
  | cons key rest ih =>
    rw [Exp.keyReceiverDepth, Nat.max_le] at deep
    have first := Exp.doubled? (fun e same => h e (same ▸ List.mem_cons_self)) deep.1
    simp only [Exp.keyNodes, List.length_append]
    exact first.add (ih (fun k member => h k (.tail _ member)) deep.2)

theorem Block.doubledOf {blocks : List Block} (h : ∀ b ∈ blocks, Block.Doubles b)
    (deep : Block.receiverDepthOf blocks ≤ depth) :
    Doubled depth (Block.nodesOf true blocks).length (Block.nodesOf false blocks).length := by
  induction blocks with
  | nil => exact .zero
  | cons b rest ih =>
    rw [Block.receiverDepthOf, Nat.max_le] at deep
    obtain ⟨first, others⟩ := List.forall_mem_cons.mp h
    simp only [Block.nodesOf, List.length_append]
    exact (first deep.1).add (ih others deep.2)

end Lists

theorem Exp.Doubles.index {object key : Exp} (ho : object.Doubles) (hk : key.Doubles) :
    (Exp.index object key).Doubles := by
  intro depth deep
  rw [Exp.receiverDepth, Nat.max_le] at deep
  simp only [Exp.parts, List.length_cons, List.length_append]
  exact ((ho deep.1).add (hk deep.2).succ).succ

theorem Exp.Doubles.call {callee : Exp} {args : List Exp} (hc : callee.Doubles) (ha : ∀ e ∈ args, e.Doubles) :
    (Exp.call callee args false).Doubles := by
  intro depth deep
  rw [Exp.receiverDepth, Nat.max_le] at deep
  simp only [Exp.parts, Bool.false_and, Exp.argNodes_keep, List.length_cons, List.length_append]
  exact ((hc deep.1).add (Exp.doubledOf ha deep.2)).succ

theorem Exp.Doubles.method {object : Exp} {m : String} {args : List Exp} (ho : object.Doubles)
    (ha : ∀ e ∈ args, e.Doubles) : (Exp.call (.index object (.string m)) (object :: args) true).Doubles := by
  intro depth deep
  rw [Exp.receiverDepth, Nat.max_le, Exp.receiverDepthOf, Nat.max_le] at deep
  obtain ⟨most, _, others⟩ := deep
  obtain ⟨below, rfl⟩ : ∃ below, depth = below + 1 := ⟨depth - 1, by simp only [Bool.toNat_true] at most; omega⟩
  have receiver := ((ho.index fun _ _ => .zero) (Nat.le_of_succ_le_succ most)).twice
  have together := (receiver.add (Exp.doubledOf ha others)).succ
  simp only [Exp.parts, Bool.not_true, Bool.and_false, Bool.not_false, Bool.and_true, Exp.argNodes_keep, Exp.argNodes_skip,
    Exp.nodesOf, List.length_cons, List.length_append, List.length_nil] at together ⊢
  exact Nat.le_trans (by omega) together

section

variable {D : FunctionDef → Prop}

mutual

theorem Exp.Shaped.doubled {e : Exp} : e.Shaped D → e.Doubles
  | .nil, _, _ | .bool _, _, _ | .integer _, _, _ | .float _, _, _ | .string _, _, _ | .vararg, _, _ | .name _, _, _ => .zero
  | .index _ ho hk, _, deep => ho.doubled.index hk.doubled deep
  | .call _ hc ha, _, deep => hc.doubled.call (fun e member => (ha e member).doubled) deep
  | .method _ ho _ ha, _, deep => ho.doubled.method (fun e member => (ha e member).doubled) deep
  | .function _ _ hb, _, deep => hb.doubled deep
  | .table _ hk hv, _, deep => by
    rw [Exp.receiverDepth, Nat.max_le] at deep
    simp only [Exp.parts, List.length_append]
    exact (Exp.doubledKeys (fun k member => (hk k member).doubled) deep.1).add
      (Exp.doubledOf (fun v member => (hv v member).doubled) deep.2)
  | .paren hi, _, deep => (hi.doubled deep).succ
  | .unop ho, _, deep => (ho.doubled deep).succ
  | .binop _ hl hr, _, deep => hl.doubled.index hr.doubled deep

theorem StatKind.Shaped.doubled {kind : StatKind} {depth : Nat} : kind.Shaped D → kind.receiverDepth ≤ depth →
    Doubled depth (kind.nodes true).length (kind.nodes false).length
  | .empty, _ | .label _, _ | .goto _, _ | .breakLoop, _ => .zero
  | .doBlock hb, deep => hb.doubled deep
  | .whileDo hg hb, deep => by
    rw [StatKind.receiverDepth, Nat.max_le] at deep
    simp only [StatKind.nodes, List.length_cons, List.length_append]
    exact ((hg.doubled deep.1).add (hb.doubled deep.2)).succ
  | .repeatUntil hb hg, deep => by
    rw [StatKind.receiverDepth, Nat.max_le] at deep
    simp only [StatKind.nodes, List.length_cons, List.length_append]
    exact (hb.doubled deep.1).add (hg.doubled deep.2).succ
  | .ifThen _ _ hg hb, deep => by
    rw [StatKind.receiverDepth, Nat.max_le] at deep
    simp only [StatKind.nodes, List.length_append]
    exact (Exp.doubledOf (fun g member => (hg g member).doubled) deep.1).add
      (Block.doubledOf (fun b member => (hb b member).doubled) deep.2)
  | .numericFor _ hi hl hs hb, deep => by
    rw [StatKind.receiverDepth, Nat.max_le, Nat.max_le, Nat.max_le] at deep
    obtain ⟨⟨first, second⟩, third, inside⟩ := deep
    have stride := Exp.doubled? (fun e member => (hs e member).doubled) third
    simp only [StatKind.nodes, List.length_cons, List.length_append]
    exact ((hi.doubled first).add ((hl.doubled second).add (stride.add (hb.doubled inside))).succ).succ
  | .genericFor _ _ _ he hb, deep => by
    rw [StatKind.receiverDepth, Nat.max_le] at deep
    simp only [StatKind.nodes, List.length_append]
    exact (Exp.doubledOf (fun e member => (he e member).doubled) deep.1).add (hb.doubled deep.2)
  | .localDecl _ _ he, deep => Exp.doubledOf (fun e member => (he e member).doubled) deep
  | .localFunction _ _ _ hb, deep => hb.doubled deep
  | .assign _ _ ht _ hv, deep => by
    rw [StatKind.receiverDepth, Nat.max_le] at deep
    simp only [StatKind.nodes, List.length_append]
    exact (Exp.doubledOf (fun t member => (ht t member).doubled) deep.1).add
      (Exp.doubledOf (fun v member => (hv v member).doubled) deep.2)
  | .call shaped, deep => shaped.doubled deep
  | .ret he, deep => Exp.doubledOf (fun e member => (he e member).doubled) deep

theorem Block.Shaped.doubled {block : Block} : Block.Shaped D block → Block.Doubles block
  | .nil, _, _ => .zero
  | .cons hk _ hr, _, deep => by
    rw [Block.receiverDepth, Nat.max_le] at deep
    simp only [Block.nodes, List.length_append]
    exact (hk.doubled deep.1).add (hr.doubled deep.2)

end

end

end LuaBytecode
