import LuaBytecode.Proofs.Logic.Expressions
import LuaBytecode.Proofs.Lowering.Effect
import LuaBytecode.Proofs.Scoping.Observed

namespace LuaBytecode

variable {α β : Type} {D : FunctionDef → Prop}

namespace Frame

theorem Extends.ofContinued {f g : Frame} (h : f.Continued g) : f.Extends D g := by
  obtain ⟨added, code, tame⟩ := h.code
  have later : ∀ pc i, f.pc ≤ pc → g.code[pc]? = some i → i.IsTame := by
    intro pc i above there
    rw [← Array.getElem?_toList, code, List.getElem?_append_right (by simpa [Frame.pc] using above)] at there
    exact tame i (List.mem_of_getElem? there)
  have live : g.live = f.live := by rw [h.same]
  have functions : g.functions = f.functions := by rw [h.same]
  exact
    { toGains := .ofContinued h
      peak := h.peak
      marked := live ▸ .refl _
      jumps := fun pc i above there => (later pc i above there).1
      closures := fun pc i above there closure => absurd closure (later pc i above there).2
      captured := by
        rintro pc r above ⟨i, _, _, there, closure, _⟩
        exact absurd closure (later pc i above there).2
      prototypes := fun p member => .inl (functions ▸ member) }

theorem Refers.all_trans {outer outer' outer'' : List Frame} (first : List.Forall₂ Refers outer outer')
    (second : List.Forall₂ Refers outer' outer'') : List.Forall₂ Refers outer outer'' :=
  forall₂_trans first second fun _ _ _ => Refers.trans

theorem Refers.all_refl (outer : List Frame) : List.Forall₂ Refers outer outer :=
  List.forall₂_same.mpr fun f _ => .refl f

end Frame

namespace Lowering

theorem Ready.marked {Γ : Scopes} {s : Lowering} (ready : Ready Γ s) {f : Frame} (live : MarkedAll s.frame.live f.live)
    (depth : f.depth = s.frame.depth) (locals : f.locals = s.frame.locals)
    (upvalues : f.upvalues = s.frame.upvalues) : Ready Γ ⟨f, s.enclosing⟩ := by
  obtain ⟨names, outer, rfl⟩ := ready.exists_cons
  exact Scopes.Agrees.marked ready live depth locals upvalues

structure Grows (D : FunctionDef → Prop) (Γ : Scopes) (s s' : Lowering) : Prop where
  ready : Ready Γ s'
  frame : s.frame.Extends D s'.frame
  enclosing : List.Forall₂ Frame.Refers s.enclosing s'.enclosing

namespace Grows

variable {Γ : Scopes} {s t u : Lowering}

theorem refl (ready : Ready Γ s) : Grows D Γ s s := ⟨ready, .refl _, Frame.Refers.all_refl _⟩

theorem trans (first : Grows D Γ s t) (second : Grows D Γ t u) : Grows D Γ s u :=
  ⟨second.ready, first.frame.trans second.frame, Frame.Refers.all_trans first.enclosing second.enclosing⟩

theorem ofFrame (ready : Ready Γ s) {f : Frame} (extended : s.frame.Extends D f)
    (upvalues : f.upvalues = s.frame.upvalues) : Grows D Γ s ⟨f, s.enclosing⟩ := by
  refine ⟨?_, extended, Frame.Refers.all_refl _⟩
  exact ready.marked extended.marked (by rw [extended.same]; rfl) (by rw [extended.same]) upvalues

end Grows

end Lowering

open Lowering

def Tracks (D : FunctionDef → Prop) (Γ : Scopes) (m m' : LowerM α) (change : Nat → Nat → Prop) : Prop :=
  ∀ ⦃s⦄, Ready Γ s → Lockstep m m' s fun _ s' => Grows D Γ s s' ∧ change s.frame.used s'.frame.used

namespace Tracks

variable {Γ : Scopes} {m m' : LowerM α} {P Q R : Nat → Nat → Prop}

theorem bind {k k' : α → LowerM β} (first : Tracks D Γ m m' P)
    (next : ∀ a, Tracks D Γ (k a) (k' a) fun v w => ∀ u, P u v → R u w) : Tracks D Γ (m >>= k) (m' >>= k') R := by
  intro s ready
  refine .bind ((first ready).weaken ?_)
  rintro a t ⟨grows, change⟩
  refine (next a grows.ready).weaken ?_
  rintro b u ⟨grows', change'⟩
  exact ⟨grows.trans grows', change' _ change⟩

theorem pure {a : α} : Tracks D Γ (Pure.pure a) (Pure.pure a) Kept :=
  fun _ ready => .pure ⟨.refl ready, rfl⟩

theorem weaken (h : Tracks D Γ m m' P) (weaker : ∀ u v, P u v → Q u v) : Tracks D Γ m m' Q :=
  fun _ ready => (h ready).weaken fun _ _ ⟨grows, change⟩ => ⟨grows, weaker _ _ change⟩

theorem throw {e : CodeError} : Tracks D Γ (MonadExcept.throw e : LowerM α) (MonadExcept.throw e) P := by
  intro s _ a s' run
  cases run

theorem get {k k' : Lowering → LowerM β} (h : ∀ s, Tracks D Γ (k s) (k' s) P) :
    Tracks D Γ (MonadState.get >>= k) (MonadState.get >>= k') P :=
  fun s ready => .bind (.get (h s ready))

theorem lift {m : FrameM α} (h : Frame.Modest m P) : Tracks D Γ (liftM m) (liftM m) P := by
  intro s ready
  apply Lockstep.lift
  intro a f run
  obtain ⟨_, continued, change⟩ := (h s.frame).of_ok run
  exact ⟨.ofFrame ready (.ofContinued continued) (by rw [continued.same]), change⟩

theorem scratch (h : Tracks D Γ m m' P) : Tracks D Γ (Lowering.scratch m) (Lowering.scratch m') Kept := by
  intro s ready
  refine .bind (.self fun top t read => ?_)
  obtain ⟨rfl, rfl⟩ := used_ok read
  refine .bind ((h ready).weaken ?_)
  rintro a t ⟨grows, _⟩
  refine .bind (.lift fun _ f run => ?_)
  cases Frame.setUsed_ok run
  exact .pure ⟨grows.trans (.ofFrame grows.ready (.ofUsed _) rfl), rfl⟩

theorem resolve {x : String} (visible : Frame.isHidden x = false) :
    Tracks D Γ (Lowering.resolve x) (Lowering.resolve x) Kept := by
  intro s ready
  apply Lockstep.self
  intro place? s' run
  obtain ⟨ready', same, upvalues, enclosing, _⟩ := resolve_ok visible ready run
  refine ⟨⟨ready', ?_, enclosing⟩, by rw [same]⟩
  rw [same]
  exact .ofUpvalues upvalues

theorem logical {m m' k k' : LowerM Nat} (first : Tracks D Γ m m' Kept) (second : Tracks D Γ k k' Kept) (a n : Nat) :
    Tracks D Γ (logicalCode m k a n) (logicalCode m' k' a n) Kept := by
  intro s₀ ready
  refine .bind ((first ready).weaken ?_)
  rintro b s₁ ⟨grows, same⟩
  have tests : Tracks D Γ (Frame.emitAbc .testSet a b n) (Frame.emitAbc .testSet a b n) Kept :=
    .lift (.emitAbc (by decide) (by decide))
  refine .bind ((tests grows.ready).weaken ?_)
  rintro _ s ⟨tested, same'⟩
  have until_ := grows.trans tested
  refine .bind (.lift fun done f emitted => ?_)
  obtain ⟨_, jumpsOver, _⟩ := (Frame.Modest.emitJmp 0 _).of_ok emitted
  obtain ⟨i, made, rfl, rfl⟩ := Frame.emitAsbx_ok emitted
  have start : Grows D Γ s ⟨s.frame.push i, s.enclosing⟩ := .ofFrame until_.ready (.ofContinued jumpsOver) rfl
  refine .bind ((second start.ready).weaken ?_)
  rintro b t ⟨loaded, used⟩
  refine .bind (.lift fun _ g moved => ?_)
  obtain ⟨_, moves, used'⟩ := (Frame.Modest.emitAbc (by decide) (by decide) _).of_ok moved
  have more : t.frame.Extends D g := .ofContinued moves
  have after : Grows D Γ s ⟨g, t.enclosing⟩ :=
    (start.trans loaded).trans (.ofFrame loaded.ready more (by rw [moves.same]))
  have there : g.code[s.frame.pc]? = some i := by
    rw [getElem?_of_prefixed (loaded.frame.trans more).code (by simp [Frame.pc])]
    simp [Frame.pc]
  apply Lockstep.lift
  intro _ h patched
  obtain ⟨i', j, there', changed, rfl⟩ := Frame.patchHere_ok patched
  cases there.symm.trans there'
  have jump := (Instruction.asbx_ok made).1
  have patches := after.frame.patch Nat.le.refl there jump changed
  refine ⟨until_.trans ⟨?_, patches, after.enclosing⟩, ?_⟩
  · exact Ready.marked after.ready (.refl _) rfl rfl rfl
  · exact used'.trans (used.trans (same'.trans same))

end Tracks

def tracking (D : FunctionDef → Prop) (Γ : Scopes) : Logic Weights.none where
  Holds _ P m m' := Tracks D Γ m m' P
  pure _ := .pure
  weaken := .weaken
  bind := .bind
  lift := .lift
  observe _ _ := .get fun _ => .pure
  scratch := .scratch
  environment := .resolve (by decide)
  vararg a n := by
    refine .get fun s => ?_
    dsimp only
    split
    · exact (Tracks.lift (.emitAbc (by decide) (by decide))).bind fun _ => Tracks.pure.weaken fun _ _ same _ => same.trans
    · exact .throw
  noTarget _ _ _ _ _ _ := .get fun _ => .throw
  logical a n first second := .logical first second a n

abbrev ExpCode.Follows (D : FunctionDef → Prop) (Γ : Scopes) : ExpCode → ExpCode → Prop := Walks (tracking D Γ)

theorem ExpCode.follows_name {Γ : Scopes} {look : LowerM Unit} (quiet : ∀ ⦃s⦄, Ready Γ s → look s = .ok () s)
    {x : String} (visible : Frame.isHidden x = false) : Follows D Γ (ofName x) ((ofName x).after look) := by
  have named : Follows D Γ (ofName x) (ofName x) := ofName_walks (.resolve visible)
  have skip : ∀ {α : Type} {m m' : LowerM α} {P : Nat → Nat → Prop}, Tracks D Γ m m' P →
      Tracks D Γ m (do look; m') P := by
    intro α m m' P tracks s ready a s' run
    obtain ⟨run', final⟩ := tracks ready a s' run
    exact ⟨(bind_run (quiet ready)).trans run', final⟩
  have emits : ∀ (a : Nat) (n : Int), Tracks D Γ (emitName x a) (do look; emitName x a) Kept := fun a n =>
    skip (named.emit a n)
  exact
    { named with
      emit := emits
      operands := loadOperands_single emits
      prepare? := .none
      method? := .none
      target := skip named.target
      register? := .inr ⟨rfl, skip (.get fun _ => .pure)⟩
      place? := .inr ⟨rfl, skip (.resolve visible)⟩ }

end LuaBytecode
