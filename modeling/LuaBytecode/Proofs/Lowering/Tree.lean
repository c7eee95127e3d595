import LuaBytecode.Proofs.Lowering.Functions

namespace LuaBytecode

open Lowering

theorem StatTracks.stays {D : FunctionDef → Prop} {Γ : Scopes} {m m' : LowerM Unit} (h : StatTracks D Γ Γ m m') :
    StatTracks D Γ (Γ.declare []) m m' := by
  rwa [show Γ.declare [] = Γ by cases Γ <;> rfl]

theorem Block.scopes_tail (Γ : Scopes) (block : Block) : (Block.scopes Γ block).tail = Γ.tail := by
  induction block generalizing Γ with
  | nil => rfl
  | cons s rest ih => rw [Block.scopes, ih, declare_tail]

section

/-- The observer lets every name pass that is looked up where `K` is known of the scopes. -/
structure Observer.Passes (K : Scopes → Prop) (w : Observer) : Prop where
  declares {Γ : Scopes} (names : List String) : K Γ → K (Γ.declare names)
  enters {Γ : Scopes} (params : List String) : K Γ → K (Γ.enter params)
  quiet ⦃Γ : Scopes⦄ ⦃x : String⦄ ⦃s : Lowering⦄ : K Γ → IsIdentifier x → Ready Γ s → w Γ x s = .ok () s

variable {D : FunctionDef → Prop} {K : Scopes → Prop} {w : Observer}

theorem Block.scopes_known {Γ : Scopes} (passes : w.Passes K) (h : K Γ) (block : Block) : K (Block.scopes Γ block) := by
  induction block generalizing Γ with
  | nil => exact h
  | cons s rest ih => exact ih (passes.declares _ h)

mutual

theorem Exp.follows (passes : w.Passes K) : (e : Exp) → e.Shaped D → ∀ Γ, K Γ → e.code.Follows D Γ (e.observed w Γ)
  | .nil, _, _, _ => ExpCode.ofNil_walks
  | .bool value, _, _, _ => ExpCode.ofBool_walks value
  | .integer _, _, _, _ | .float _, _, _, _ | .string _, _, _, _ => ExpCode.ofConstant_walks rfl rfl
  | .vararg, _, _, _ => ExpCode.ofVararg_walks
  | .name _, .name identifier, _, known =>
    ExpCode.follows_name (fun _ ready => passes.quiet known identifier ready) identifier.visible
  | .index object key, .index _ ho hk, Γ, known =>
    ExpCode.ofIndex_walks ⟨rfl, rfl⟩ (object.follows passes ho Γ known) (key.follows passes hk Γ known) rfl rfl
  | .call callee args isMethod, h, Γ, known => by
    obtain ⟨hc, ha⟩ := h.ofCall
    rw [Exp.code, Exp.observed, Exp.codes_eq]
    exact ExpCode.ofCall_walks ⟨rfl, rfl⟩ (callee.follows passes hc Γ known) (Exp.follows_all passes args ha Γ known) rfl rfl
  | .function params isVararg body, .function defined identifiers shaped, Γ, known => by
    rw [Exp.code, Exp.observed]
    have hb := Block.tracks passes body shaped (Γ.enter params) (passes.enters params known)
    refine ExpCode.plain_walks ⟨rfl, rfl⟩ (fun a _ => ?_) rfl
    exact tracks_emitFunction defined identifiers shaped hb (Block.scopes_tail _ _) a
  | .table keys values, .table parallel hk hv, Γ, known => by
    rw [Exp.code, Exp.observed, Exp.codes_eq, Exp.keyCodes_eq]
    have paired : (keys.map (Option.map Exp.code)).length ≤ (values.map Exp.code).length := by
      simpa using Nat.le_of_eq parallel
    refine ExpCode.plain_walks ⟨rfl, rfl⟩ (fun a _ => ?_) rfl
    have keys' := Exp.follows_keys passes keys hk Γ known
    exact ExpCode.emitTable_holds keys' (Exp.follows_all passes values hv Γ known) (fun _ => paired) a
  | .paren inner, .paren h, Γ, known => by
    rw [Exp.code, Exp.observed]
    have follows := inner.follows passes h Γ known
    exact ExpCode.plain_walks ⟨rfl, rfl⟩ (fun a _ => follows.emit a 1) rfl
  | .unop op operand, .unop h, Γ, known => by
    rw [Exp.code, Exp.observed]
    have follows := operand.follows passes h Γ known
    exact ExpCode.plain_walks ⟨rfl, rfl⟩ (fun a _ => ExpCode.emitUnop_holds op follows a) rfl
  | .binop op lhs rhs, .binop _ hl hr, Γ, known => by
    rw [Exp.code, Exp.observed]
    exact ExpCode.ofBinop_walks (lhs.follows passes hl Γ known) (rhs.follows passes hr Γ known) ⟨rfl, rfl⟩ op rfl rfl

theorem Exp.follows_all (passes : w.Passes K) : (exps : List Exp) → (∀ e ∈ exps, e.Shaped D) → ∀ Γ, K Γ →
    List.Forall₂ (ExpCode.Follows D Γ) (exps.map Exp.code) (Exp.observedAll w Γ exps)
  | [], _, _, _ => .nil
  | e :: rest, h, Γ, known =>
    .cons (e.follows passes (h e (.head _)) Γ known)
      (Exp.follows_all passes rest (fun e member => h e (.tail _ member)) Γ known)

theorem Exp.follows? (passes : w.Passes K) : (e? : Option Exp) → (∀ e ∈ e?, e.Shaped D) → ∀ Γ, K Γ →
    Option.Rel (ExpCode.Follows D Γ) (e?.map Exp.code) (Exp.observed? w Γ e?)
  | none, _, _, _ => .none
  | some e, h, Γ, known => .some (e.follows passes (h e rfl) Γ known)

theorem Exp.follows_keys (passes : w.Passes K) : (keys : List (Option Exp)) → (∀ k, some k ∈ keys → k.Shaped D) →
    ∀ Γ, K Γ → List.Forall₂ (Option.Rel (ExpCode.Follows D Γ)) (keys.map (Option.map Exp.code)) (Exp.observedKeys w Γ keys)
  | [], _, _, _ => .nil
  | key :: rest, h, Γ, known =>
    .cons (Exp.follows? passes key (fun e same => h e (same ▸ List.mem_cons_self)) Γ known)
      (Exp.follows_keys passes rest (fun e member => h e (.tail _ member)) Γ known)

theorem StatKind.tracks (passes : w.Passes K) : (kind : StatKind) → kind.Shaped D → ∀ Γ, K Γ →
    StatTracks D Γ (Γ.declare kind.declared) kind.code (kind.observed w Γ)
  | .empty, _, _, _ | .label _, _, _, _ => .stays (SteadyTracks.ofTracks .pure).toStatTracks
  | .goto _, _, _, _ => .stays (SteadyTracks.ofTracks (.get fun _ => .throw)).toStatTracks
  | .breakLoop, _, _, _ => .stays .emitBreak
  | .doBlock body, .doBlock hb, Γ, known =>
    .stays (.inScope (Block.tracks passes body hb Γ known) (Block.scopes_tail Γ body))
  | .whileDo guard body, .whileDo hg hb, Γ, known =>
    .stays (.emitWhile (guard.follows passes hg Γ known) (Block.tracks passes body hb Γ known) (Block.scopes_tail Γ body))
  | .repeatUntil body guard, .repeatUntil hb hg, Γ, known =>
    .stays (.emitRepeat (Block.tracks passes body hb Γ known)
      (guard.follows passes hg _ (Block.scopes_known passes known body)) (Block.scopes_tail Γ body))
  | .ifThen guards blocks, .ifThen _ _ hg hb, Γ, known => by
    rw [StatKind.code, StatKind.observed, Exp.codes_eq, Block.codes_eq]
    exact .stays (.emitIf (Exp.follows_all passes guards hg Γ known) (Block.tracks_all passes blocks hb Γ known))
  | .numericFor var init limit step body, .numericFor identifier hi hl hs hb, Γ, known => by
    rw [StatKind.code, StatKind.observed, show Exp.code? step = step.map Exp.code by cases step <;> rfl]
    refine .stays (.emitNumericFor identifier.visible (init.follows passes hi Γ known) (limit.follows passes hl Γ known)
      (Exp.follows? passes step hs Γ known) (Block.tracks passes body hb _ (passes.declares _ (passes.declares _ known))) ?_)
    rw [Block.scopes_tail, declare_tail, declare_tail]
  | .genericFor names exps body, .genericFor _ identifiers _ he hb, Γ, known => by
    rw [StatKind.code, StatKind.observed, Exp.codes_eq]
    refine .stays (.emitGenericFor (fun x member => (identifiers x member).visible) (Exp.follows_all passes exps he Γ known)
      (Block.tracks passes body hb _ (passes.declares _ (passes.declares _ known))) ?_)
    rw [Block.scopes_tail, declare_tail, declare_tail]
  | .localDecl names exps, .localDecl _ identifiers he, Γ, known => by
    rw [StatKind.code, StatKind.observed, Exp.codes_eq]
    exact (SteadyTracks.emitLocals (fun x member => (identifiers x member).visible)
      (Exp.follows_all passes exps he Γ known)).toStatTracks
  | .localFunction name params isVararg body, .localFunction identifier defined identifiers hb, Γ, known => by
    rw [StatKind.code, StatKind.observed]
    have inside := Block.tracks passes body hb _ (passes.enters params (passes.declares [name] known))
    exact (SteadyTracks.emitLocalFunction identifier.visible defined identifiers hb inside
      (Block.scopes_tail _ body)).toStatTracks
  | .assign targets values, .assign _ _ ht _ hv, Γ, known => by
    rw [StatKind.code, StatKind.observed, Exp.codes_eq, Exp.codes_eq]
    exact .stays (SteadyTracks.emitAssign (Exp.follows_all passes targets ht Γ known)
      (Exp.follows_all passes values hv Γ known)).toStatTracks
  | .call callee args isMethod, .call h, Γ, known => by
    obtain ⟨hc, ha⟩ := h.ofCall
    rw [StatKind.code, StatKind.observed, Exp.codes_eq]
    exact .stays (SteadyTracks.emitCallStatement (callee.follows passes hc Γ known) (Exp.follows_all passes args ha Γ known)
      isMethod).toStatTracks
  | .ret exps, .ret he, Γ, known => by
    rw [StatKind.code, StatKind.observed, Exp.codes_eq]
    exact .stays (SteadyTracks.emitReturn (Exp.follows_all passes exps he Γ known)).toStatTracks

theorem Block.tracks (passes : w.Passes K) : (block : List Stat) → Block.Shaped D block → ∀ Γ, K Γ →
    StatTracks D Γ (Block.scopes Γ block) (Block.code block) (Block.observed w Γ block)
  | [], _, _, _ => (SteadyTracks.ofTracks .pure).toStatTracks
  | .mk line kind :: rest, .cons hk _ hr, Γ, known => by
    have first : StatTracks D Γ (Γ.declare kind.declared) (Stat.code (.mk line kind))
        (Stat.observed w Γ (.mk line kind)) :=
      StatTracks.bind (SteadyTracks.setLine line).toStatTracks (kind.tracks passes hk Γ known)
    exact .bind first (Block.tracks passes rest hr _ (passes.declares _ known))

theorem Block.tracks_all (passes : w.Passes K) : (blocks : List (List Stat)) → (∀ b ∈ blocks, Block.Shaped D b) → ∀ Γ, K Γ →
    StatTracks.Bodies D Γ (blocks.map Block.code) (Block.observedAll w Γ blocks)
  | [], _, _, _ => .nil
  | b :: rest, h, Γ, known =>
    .cons ⟨_, Block.scopes_tail Γ b, Block.tracks passes b (h b (.head _)) Γ known⟩
      (Block.tracks_all passes rest (fun b member => h b (.tail _ member)) Γ known)

end

end

section

variable {D : FunctionDef → Prop}

theorem silent_passes : Observer.silent.Passes fun _ => True := ⟨fun _ => id, fun _ => id, fun _ _ _ _ _ _ => rfl⟩

theorem Exp.code_follows {e : Exp} (h : e.Shaped D) (Γ : Scopes) : e.code.Follows D Γ e.code := by
  have follows := Exp.follows silent_passes e h Γ trivial
  rwa [e.observed_silent Γ] at follows

theorem Exp.codes_follow {exps : List Exp} (h : ∀ e ∈ exps, e.Shaped D) (Γ : Scopes) :
    List.Forall₂ (ExpCode.Follows D Γ) (exps.map Exp.code) (exps.map Exp.code) := by
  rw [List.forall₂_same]
  intro code member
  obtain ⟨e, listed, rfl⟩ := List.mem_map.mp member
  exact Exp.code_follows (h e listed) Γ

theorem StatKind.code_tracks {kind : StatKind} (h : kind.Shaped D) (Γ : Scopes) :
    StatTracks D Γ (Γ.declare kind.declared) kind.code kind.code := by
  have tracks := StatKind.tracks silent_passes kind h Γ trivial
  rwa [kind.observed_silent Γ] at tracks

theorem Block.code_tracks {block : Block} (h : Block.Shaped D block) (Γ : Scopes) :
    StatTracks D Γ (Block.scopes Γ block) (Block.code block) (Block.code block) := by
  have tracks := Block.tracks silent_passes block h Γ trivial
  rwa [Block.observed_silent Γ block] at tracks

theorem Block.bodies_track {blocks : List Block} (h : ∀ b ∈ blocks, Block.Shaped D b) (Γ : Scopes) :
    StatTracks.Bodies D Γ (blocks.map Block.code) (blocks.map Block.code) := by
  refine List.forall₂_same.mpr fun body member => ?_
  obtain ⟨b, listed, rfl⟩ := List.mem_map.mp member
  exact ⟨_, Block.scopes_tail Γ b, Block.code_tracks (h b listed) Γ⟩

end

def Lowering.atLine (s : Lowering) (line : Nat) : Lowering := ⟨{ s.frame with line := line }, s.enclosing⟩

def Block.ArmOpens : List Exp → List Block → Option Nat → Lowering → Block → Lowering → Prop
  | guard :: guards, body :: bodies, skip?, s, b, t =>
    ∃ skip?' u, armHead skip? guard.code s = .ok skip?' u ∧ (b = body ∧ t = u ∨
      ∃ v w leave f, Block.code body u = .ok () v ∧ scopeFoot v = .ok () w ∧ Frame.emitJmp 0 0 w.frame = .ok leave f ∧
        ArmOpens guards bodies skip?' ⟨f, w.enclosing⟩ b t)
  | [], _, _, _, _, _ | _ :: _, [], _, _, _, _ => False

/-- Lowering a statement from `s` opens a scope, in which the body is lowered from `t`. -/
def StatKind.Opens : StatKind → Lowering → Block → Lowering → Prop
  | .doBlock body, s, b, t => b = body ∧ t = s.enter false
  | .whileDo guard body, s, b, t => b = body ∧ ∃ r, whileHead guard.code s = .ok r t
  | .repeatUntil body _, s, b, t => b = body ∧ t = s.enter true
  | .ifThen guards blocks, s, b, t => Block.ArmOpens guards blocks none s b t
  | .numericFor var init limit step body, s, b, t =>
    b = body ∧ ∃ r, numericHead var init.code limit.code (step.map Exp.code) s = .ok r t
  | .genericFor names exps body, s, b, t => b = body ∧ ∃ r, genericHead names (exps.map Exp.code) s = .ok r t
  | .empty, _, _, _ | .label _, _, _, _ | .goto _, _, _, _ | .breakLoop, _, _, _ | .localDecl .., _, _, _
  | .localFunction .., _, _, _ | .assign .., _, _, _ | .call .., _, _, _ | .ret _, _, _, _ => False

/-- Lowering a block from `s` comes to a statement, which may be inside another one, in the state `t`. -/
inductive Block.Visits : Block → Lowering → StatKind → Lowering → Prop
  | here {line : Nat} {kind : StatKind} {rest : Block} {s : Lowering} :
    Visits (.mk line kind :: rest) s kind (s.atLine line)
  | later {line : Nat} {kind visited : StatKind} {rest : Block} {s t u : Lowering} :
    kind.code (s.atLine line) = .ok () t → Visits rest t visited u → Visits (.mk line kind :: rest) s visited u
  | inside {line : Nat} {kind visited : StatKind} {body rest : Block} {s t u : Lowering} :
    kind.Opens (s.atLine line) body t → Visits body t visited u → Visits (.mk line kind :: rest) s visited u

end LuaBytecode
