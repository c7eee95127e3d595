import LuaBytecode.Proofs.Ast.Shape

namespace LuaBytecode

mutual

/-- Every key of a table has a value, in all tables of the tree, and the names of every loop over an iterator are as `P`
    says. -/
def Exp.Paired (P : List String → Prop) : Exp → Prop
  | .nil | .bool _ | .integer _ | .float _ | .string _ | .vararg | .name _ => True
  | .index object key => object.Paired P ∧ key.Paired P
  | .call callee args _ => callee.Paired P ∧ Exp.AllPaired P args
  | .function _ _ body => Block.Paired P body
  | .table keys values => keys.length ≤ values.length ∧ Exp.KeysPaired P keys ∧ Exp.AllPaired P values
  | .paren inner => inner.Paired P
  | .unop _ operand => operand.Paired P
  | .binop _ lhs rhs => lhs.Paired P ∧ rhs.Paired P

def Exp.AllPaired (P : List String → Prop) : List Exp → Prop
  | [] => True
  | e :: rest => e.Paired P ∧ Exp.AllPaired P rest

def Exp.Paired? (P : List String → Prop) : Option Exp → Prop
  | none => True
  | some e => e.Paired P

def Exp.KeysPaired (P : List String → Prop) : List (Option Exp) → Prop
  | [] => True
  | key :: rest => Exp.Paired? P key ∧ Exp.KeysPaired P rest

def StatKind.Paired (P : List String → Prop) : StatKind → Prop
  | .empty | .label _ | .goto _ | .breakLoop => True
  | .doBlock body => Block.Paired P body
  | .whileDo guard body => guard.Paired P ∧ Block.Paired P body
  | .repeatUntil body guard => Block.Paired P body ∧ guard.Paired P
  | .ifThen guards blocks => Exp.AllPaired P guards ∧ Block.AllPaired P blocks
  | .numericFor _ init limit step body => init.Paired P ∧ limit.Paired P ∧ Exp.Paired? P step ∧ Block.Paired P body
  | .genericFor names exps body => P names ∧ Exp.AllPaired P exps ∧ Block.Paired P body
  | .localDecl _ exps => Exp.AllPaired P exps
  | .localFunction _ _ _ body => Block.Paired P body
  | .assign targets values => Exp.AllPaired P targets ∧ Exp.AllPaired P values
  | .call callee args _ => callee.Paired P ∧ Exp.AllPaired P args
  | .ret exps => Exp.AllPaired P exps

def Block.Paired (P : List String → Prop) : List Stat → Prop
  | [] => True
  | .mk _ kind :: rest => kind.Paired P ∧ Block.Paired P rest

def Block.AllPaired (P : List String → Prop) : List (List Stat) → Prop
  | [] => True
  | b :: rest => Block.Paired P b ∧ Block.AllPaired P rest

end

section Lists

variable {P : List String → Prop}

theorem Exp.allPaired {exps : List Exp} (h : ∀ e ∈ exps, e.Paired P) : Exp.AllPaired P exps := by
  induction exps with
  | nil => trivial
  | cons e rest ih => exact (List.forall_mem_cons.mp h).imp id ih

theorem Exp.paired? : {e? : Option Exp} → (∀ e ∈ e?, e.Paired P) → Exp.Paired? P e?
  | none, _ => trivial
  | some e, h => h e rfl

theorem Exp.keysPaired {keys : List (Option Exp)} (h : ∀ k, some k ∈ keys → k.Paired P) : Exp.KeysPaired P keys := by
  induction keys with
  | nil => trivial
  | cons key rest ih =>
    exact ⟨Exp.paired? fun e same => h e (same ▸ List.mem_cons_self), ih fun k member => h k (.tail _ member)⟩

theorem Block.allPaired {blocks : List Block} (h : ∀ b ∈ blocks, Block.Paired P b) : Block.AllPaired P blocks := by
  induction blocks with
  | nil => trivial
  | cons b rest ih => exact (List.forall_mem_cons.mp h).imp id ih

end Lists

section

variable {D : FunctionDef → Prop}

mutual

theorem Exp.Shaped.paired {e : Exp} : e.Shaped D → e.Paired (· ≠ [])
  | .nil | .bool _ | .integer _ | .float _ | .string _ | .vararg | .name _ => trivial
  | .index _ ho hk => ⟨ho.paired, hk.paired⟩
  | .call _ hc ha => ⟨hc.paired, Exp.allPaired fun e member => (ha e member).paired⟩
  | .method _ ho _ ha => ⟨⟨ho.paired, trivial⟩, ho.paired, Exp.allPaired fun e member => (ha e member).paired⟩
  | .function _ _ hb => hb.paired
  | .table parallel hk hv =>
    ⟨Nat.le_of_eq parallel, Exp.keysPaired fun k member => (hk k member).paired,
      Exp.allPaired fun v member => (hv v member).paired⟩
  | .paren hi => hi.paired
  | .unop ho => ho.paired
  | .binop _ hl hr => ⟨hl.paired, hr.paired⟩

theorem StatKind.Shaped.paired {kind : StatKind} : kind.Shaped D → kind.Paired (· ≠ [])
  | .empty | .label _ | .goto _ | .breakLoop => trivial
  | .doBlock hb => hb.paired
  | .whileDo hg hb => ⟨hg.paired, hb.paired⟩
  | .repeatUntil hb hg => ⟨hb.paired, hg.paired⟩
  | .ifThen _ _ hg hb =>
    ⟨Exp.allPaired fun g member => (hg g member).paired, Block.allPaired fun b member => (hb b member).paired⟩
  | .numericFor _ hi hl hs hb =>
    ⟨hi.paired, hl.paired, Exp.paired? fun e member => (hs e member).paired, hb.paired⟩
  | .genericFor named _ _ he hb => ⟨named, Exp.allPaired fun e member => (he e member).paired, hb.paired⟩
  | .localDecl _ _ he => Exp.allPaired fun e member => (he e member).paired
  | .localFunction _ _ _ hb => hb.paired
  | .assign _ _ ht _ hv =>
    ⟨Exp.allPaired fun t member => (ht t member).paired, Exp.allPaired fun v member => (hv v member).paired⟩
  | .call shaped => shaped.paired
  | .ret he => Exp.allPaired fun e member => (he e member).paired

theorem Block.Shaped.paired {block : Block} : Block.Shaped D block → Block.Paired (· ≠ []) block
  | .nil => trivial
  | .cons hk _ hr => ⟨hk.paired, hr.paired⟩

end

end

end LuaBytecode
