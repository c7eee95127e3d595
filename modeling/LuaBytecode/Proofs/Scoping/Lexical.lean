import LuaBytecode.Proofs.Grammar.Shape

namespace LuaBytecode

open Lowering

namespace Lowering

variable {Γ : Scopes} {x : String}

def frames (s : Lowering) : List Frame := s.frame :: s.enclosing

def innermost? (x : String) : List Frame → Option (Nat × Nat)
  | [] => none
  | f :: outer =>
    match f.register? x with
    | some r => some (0, r)
    | none => (innermost? x outer).map fun (out, r) => (out + 1, r)

/-- In a state, a name means the innermost variable of that name in scope, which is live, and resolving the name finds
    it: in its register if it belongs to the current function, else through the descriptions of upvalues. A name
    that is not bound is a global. If resolving fails, so does lowering. -/
def resolvesTo (Γ : Scopes) (x : String) (s : Lowering) : Bool :=
  decide (s.frames.map (fun f => f.live.map (·.name)) = Γ) && decide (innermost? x s.frames = Γ.lookup x) &&
    match resolve x s with
    | .ok place? s' => decide (place?.map (Place.origin s') = (Γ.lookup x).map some)
    | .error .. => true

/-- Stops at a name that does not resolve as it should. The environment is never a global. -/
def lexical : Observer := fun Γ x s =>
  if s.resolvesTo Γ x && s.resolvesTo Γ environment && (Γ.lookup environment).isSome then .ok () s
  else .error (.unsupported .assignmentTarget s.frame.line) s

theorem of_agrees {frames : List Frame} (h : Γ.Agrees frames) :
    frames.map (fun f => f.live.map (·.name)) = Γ ∧ ∀ x, innermost? x frames = Γ.lookup x := by
  induction frames generalizing Γ with
  | nil =>
    cases Γ with
    | nil => exact ⟨rfl, fun _ => rfl⟩
    | cons names outer => exact absurd h (by simp [Scopes.Agrees])
  | cons f rest ih =>
    cases Γ with
    | nil => exact absurd h (by simp [Scopes.Agrees])
    | cons names outer =>
      obtain ⟨same, further⟩ := ih h.2.2.2.2
      refine ⟨by rw [List.map_cons, h.1, same], fun x => ?_⟩
      have here := Scopes.register?_of_agrees h x
      cases bound : Scopes.register? names x with
      | some r => simp only [innermost?, Scopes.lookup, here, bound]
      | none => simp only [innermost?, Scopes.lookup, here, bound, further]

theorem resolvesTo_of_ready (visible : Frame.isHidden x = false) {s : Lowering} (ready : Ready Γ s) :
    s.resolvesTo Γ x = true := by
  obtain ⟨names, found⟩ := of_agrees ready
  rw [resolvesTo, Bool.and_eq_true, Bool.and_eq_true]
  refine ⟨⟨decide_eq_true names, decide_eq_true (found x)⟩, ?_⟩
  split
  · rename_i place? s' run
    exact decide_eq_true (resolve_ok visible ready run).place
  · rfl

def HasEnvironment (Γ : Scopes) : Prop := (Γ.lookup environment).isSome

theorem register?_append {current : List String} (names : List String) (h : (Scopes.register? current x).isSome) :
    (Scopes.register? (names ++ current) x).isSome := by
  induction names with
  | nil => exact h
  | cons y rest ih =>
    rw [List.cons_append, Scopes.register?]
    split
    · rfl
    · exact ih

theorem HasEnvironment.declare (names : List String) (h : HasEnvironment Γ) : HasEnvironment (Γ.declare names) := by
  cases Γ with
  | nil => exact h
  | cons current outer =>
    simp only [HasEnvironment, Scopes.declare, Scopes.lookup] at h ⊢
    cases now : Scopes.register? (names.reverse ++ current) environment with
    | some r => rfl
    | none =>
      -- A name that is not bound with more names is not bound with fewer, so it belongs further out.
      have before : Scopes.register? current environment = none := by
        by_contra bound
        have := register?_append names.reverse (Option.isSome_iff_ne_none.mpr bound)
        rw [now] at this
        exact absurd this (by decide)
      rw [before] at h
      exact h

theorem HasEnvironment.enter (params : List String) (h : HasEnvironment Γ) : HasEnvironment (Γ.enter params) := by
  simp only [HasEnvironment, Scopes.enter, Scopes.lookup] at h ⊢
  split
  · rfl
  · rwa [Option.isSome_map]

theorem lexical_passes : lexical.Passes HasEnvironment where
  declares := .declare
  enters := .enter
  quiet Γ x s known h ready := by
    have here := resolvesTo_of_ready h.visible ready
    have environment := resolvesTo_of_ready (x := environment) (by decide) ready
    rw [lexical, here, environment, known]
    rfl

end Lowering

def Block.compileObserved (w : Observer) (block : Block) (name : String) : Except CodeError Prototype := do
  match emitChunk (Block.observed w Scopes.ofChunk block) (← Lowering.ofChunk) with
  | .ok _ s => return s.frame.toPrototype (some name)
  | .error e _ => throw e

/-- Name resolution is lexical scoping: lowering that stops at a name which does not resolve to the variable that it
    means in the source never stops. -/
theorem Block.compile_lexical {source name : String} {block : Block} {p : Prototype}
    (parsed : Chunk.parse source = .ok block) (compiled : block.compile name = .ok p) :
    block.compileObserved lexical name = .ok p := by
  obtain ⟨s, t, start, run, rfl⟩ := Block.compile_eq compiled
  have tracks := Block.tracks lexical_passes block (Chunk.parse_grammatical parsed) Scopes.ofChunk rfl
  obtain ⟨run', _⟩ := emitChunk_lockstep tracks (ofChunk_ok start) () t run
  rw [Block.compileObserved, start]
  simp only [bind, Except.bind, run']
  rfl

theorem Block.compile_lexical_of_shadowing :
    ∃ block p, Chunk.parse "local x; local function f(y) local x = x; return function() x = y end end
        repeat local x = f until x" = .ok block ∧
      block.compile "shadowing" = .ok p ∧ block.compileObserved lexical "shadowing" = .ok p := by
  exact Chunk.exists_compiled (fun _ => true) (by decide +kernel) fun _ _ parsed compiled _ =>
    Block.compile_lexical parsed compiled

end LuaBytecode
