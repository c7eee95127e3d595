import LuaBytecode.Proofs.Ast.Shape

namespace LuaBytecode

mutual

def Exp.functions : Exp → List FunctionDef
  | .nil | .bool _ | .integer _ | .float _ | .string _ | .vararg | .name _ => []
  | .index object key => object.functions ++ key.functions
  | .call callee args _ => callee.functions ++ Exp.functionsOf args
  | .function params isVararg body => ⟨params, isVararg, body⟩ :: Block.functions body
  | .table keys values => Exp.functionsOfKeys keys ++ Exp.functionsOf values
  | .paren inner => inner.functions
  | .unop _ operand => operand.functions
  | .binop _ lhs rhs => lhs.functions ++ rhs.functions

def Exp.functionsOf : List Exp → List FunctionDef
  | [] => []
  | e :: rest => e.functions ++ Exp.functionsOf rest

def Exp.functions? : Option Exp → List FunctionDef
  | none => []
  | some e => e.functions

def Exp.functionsOfKeys : List (Option Exp) → List FunctionDef
  | [] => []
  | key :: rest => Exp.functions? key ++ Exp.functionsOfKeys rest

def StatKind.functions : StatKind → List FunctionDef
  | .empty | .label _ | .goto _ | .breakLoop => []
  | .doBlock body => Block.functions body
  | .whileDo guard body => guard.functions ++ Block.functions body
  | .repeatUntil body guard => Block.functions body ++ guard.functions
  | .ifThen guards blocks => Exp.functionsOf guards ++ Block.functionsOf blocks
  | .numericFor _ init limit step body =>
    init.functions ++ limit.functions ++ Exp.functions? step ++ Block.functions body
  | .genericFor _ exps body => Exp.functionsOf exps ++ Block.functions body
  | .localDecl _ exps => Exp.functionsOf exps
  | .localFunction _ params isVararg body => ⟨params, isVararg, body⟩ :: Block.functions body
  | .assign targets values => Exp.functionsOf targets ++ Exp.functionsOf values
  | .call callee args _ => callee.functions ++ Exp.functionsOf args
  | .ret exps => Exp.functionsOf exps

def Block.functions : List Stat → List FunctionDef
  | [] => []
  | .mk _ kind :: rest => kind.functions ++ Block.functions rest

def Block.functionsOf : List (List Stat) → List FunctionDef
  | [] => []
  | b :: rest => Block.functions b ++ Block.functionsOf rest

end

section Lists

variable {P : FunctionDef → Prop}

theorem Exp.forall_functionsOf {exps : List Exp} :
    (∀ fn ∈ Exp.functionsOf exps, P fn) ↔ ∀ e ∈ exps, ∀ fn ∈ e.functions, P fn := by
  induction exps with
  | nil => simp [Exp.functionsOf]
  | cons e rest ih => rw [Exp.functionsOf, List.forall_mem_append, ih, List.forall_mem_cons]

theorem Exp.forall_functions? {e? : Option Exp} :
    (∀ fn ∈ Exp.functions? e?, P fn) ↔ ∀ e ∈ e?, ∀ fn ∈ e.functions, P fn := by
  cases e? <;> simp [Exp.functions?]

theorem Exp.forall_functionsOfKeys {keys : List (Option Exp)} :
    (∀ fn ∈ Exp.functionsOfKeys keys, P fn) ↔ ∀ k, some k ∈ keys → ∀ fn ∈ k.functions, P fn := by
  induction keys with
  | nil => simp [Exp.functionsOfKeys]
  | cons key rest ih =>
    rw [Exp.functionsOfKeys, List.forall_mem_append, ih, Exp.forall_functions?]
    cases key <;> simp [or_imp, forall_and]

theorem Block.forall_functionsOf {blocks : List Block} :
    (∀ fn ∈ Block.functionsOf blocks, P fn) ↔ ∀ b ∈ blocks, ∀ fn ∈ Block.functions b, P fn := by
  induction blocks with
  | nil => simp [Block.functionsOf]
  | cons b rest ih => rw [Block.functionsOf, List.forall_mem_append, ih, List.forall_mem_cons]

end Lists

section

variable {D D' : FunctionDef → Prop}

mutual

theorem Exp.Shaped.among {e : Exp} : e.Shaped D → (∀ fn ∈ e.functions, D' fn) → e.Shaped D'
  | .nil, _ => .nil
  | .bool value, _ => .bool value
  | .integer value, _ => .integer value
  | .float value, _ => .float value
  | .string value, _ => .string value
  | .vararg, _ => .vararg
  | .name identifier, _ => .name identifier
  | .index isPrefix ho hk, h => by
    rw [Exp.functions, List.forall_mem_append] at h
    exact .index isPrefix (ho.among h.1) (hk.among h.2)
  | .call isPrefix hc ha, h => by
    rw [Exp.functions, List.forall_mem_append, Exp.forall_functionsOf] at h
    exact .call isPrefix (hc.among h.1) fun e member => (ha e member).among (h.2 e member)
  | .method isPrefix ho identifier ha, h => by
    rw [Exp.functions, List.forall_mem_append, Exp.forall_functionsOf, List.forall_mem_cons] at h
    exact .method isPrefix (ho.among h.2.1) identifier fun e member => (ha e member).among (h.2.2 e member)
  | .function _ identifiers hb, h => by
    rw [Exp.functions, List.forall_mem_cons] at h
    exact .function h.1 identifiers (hb.among h.2)
  | .table parallel hk hv, h => by
    rw [Exp.functions, List.forall_mem_append, Exp.forall_functionsOfKeys, Exp.forall_functionsOf] at h
    exact .table parallel (fun k member => (hk k member).among (h.1 k member)) fun v member =>
      (hv v member).among (h.2 v member)
  | .paren hi, h => .paren (hi.among (by rwa [Exp.functions] at h))
  | .unop ho, h => .unop (ho.among (by rwa [Exp.functions] at h))
  | .binop leans hl hr, h => by
    rw [Exp.functions, List.forall_mem_append] at h
    exact .binop leans (hl.among h.1) (hr.among h.2)

theorem StatKind.Shaped.among {kind : StatKind} : kind.Shaped D → (∀ fn ∈ kind.functions, D' fn) → kind.Shaped D'
  | .empty, _ => .empty
  | .label identifier, _ => .label identifier
  | .goto identifier, _ => .goto identifier
  | .breakLoop, _ => .breakLoop
  | .doBlock hb, h => .doBlock (hb.among (by rwa [StatKind.functions] at h))
  | .whileDo hg hb, h => by
    rw [StatKind.functions, List.forall_mem_append] at h
    exact .whileDo (hg.among h.1) (hb.among h.2)
  | .repeatUntil hb hg, h => by
    rw [StatKind.functions, List.forall_mem_append] at h
    exact .repeatUntil (hb.among h.1) (hg.among h.2)
  | .ifThen parallel nonempty hg hb, h => by
    rw [StatKind.functions, List.forall_mem_append, Exp.forall_functionsOf, Block.forall_functionsOf] at h
    exact .ifThen parallel nonempty (fun g member => (hg g member).among (h.1 g member)) fun b member =>
      (hb b member).among (h.2 b member)
  | .numericFor identifier hi hl hs hb, h => by
    simp only [StatKind.functions, List.forall_mem_append, Exp.forall_functions?] at h
    obtain ⟨⟨⟨first, second⟩, third⟩, inside⟩ := h
    exact .numericFor identifier (hi.among first) (hl.among second) (fun e member => (hs e member).among (third e member))
      (hb.among inside)
  | .genericFor nonempty identifiers valued he hb, h => by
    rw [StatKind.functions, List.forall_mem_append, Exp.forall_functionsOf] at h
    exact .genericFor nonempty identifiers valued (fun e member => (he e member).among (h.1 e member)) (hb.among h.2)
  | .localDecl nonempty identifiers he, h => by
    rw [StatKind.functions, Exp.forall_functionsOf] at h
    exact .localDecl nonempty identifiers fun e member => (he e member).among (h e member)
  | .localFunction identifier _ identifiers hb, h => by
    rw [StatKind.functions, List.forall_mem_cons] at h
    exact .localFunction identifier h.1 identifiers (hb.among h.2)
  | .assign nonempty vars ht valued hv, h => by
    rw [StatKind.functions, List.forall_mem_append, Exp.forall_functionsOf, Exp.forall_functionsOf] at h
    exact .assign nonempty vars (fun t member => (ht t member).among (h.1 t member)) valued fun v member =>
      (hv v member).among (h.2 v member)
  | .call shaped, h => .call (shaped.among (by rwa [StatKind.functions, ← Exp.functions] at h))
  | .ret he, h => by
    rw [StatKind.functions, Exp.forall_functionsOf] at h
    exact .ret fun e member => (he e member).among (h e member)

theorem Block.Shaped.among {block : Block} : Block.Shaped D block → (∀ fn ∈ Block.functions block, D' fn) →
    Block.Shaped D' block
  | .nil, _ => .nil
  | .cons hk last hr, h => by
    rw [Block.functions, List.forall_mem_append] at h
    exact .cons (hk.among h.1) last (hr.among h.2)

end

end

end LuaBytecode
