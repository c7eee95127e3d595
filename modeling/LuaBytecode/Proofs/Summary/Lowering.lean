import LuaBytecode.Proofs.Logic.Tree
import LuaBytecode.Proofs.Prototype.Origin
import LuaBytecode.Proofs.Summary.Basic

namespace LuaBytecode

open Lowering ExpCode

variable {s t : Lowering} {o : Summary}

def CodeError.Fair (legal assignable : Prop) : CodeError → Prop
  | .breakOutsideLoop _ | .varargOutsideVararg _ | .unsupported .goto _ => ¬ legal
  | .unsupported .assignmentTarget _ => ¬ assignable
  | _ => True

namespace CodeError.Fair

variable {e : CodeError} {legal legal' assignable assignable' : Prop}

theorem weaken (h : e.Fair legal assignable) (weaker : legal' → legal) (weaker' : assignable' → assignable) :
    e.Fair legal' assignable' := by
  unfold Fair at h ⊢
  split at h
  · exact fun now => h (weaker now)
  · exact fun now => h (weaker now)
  · exact fun now => h (weaker now)
  · exact fun now => h (weaker' now)
  · trivial

theorem of_not_static (other : e.isStatic = false) : e.Fair legal assignable := by
  unfold Fair
  split
  · cases other
  · cases other
  · cases other
  · cases other
  · trivial

end CodeError.Fair

namespace Frame

structure Alike (f g : Frame) : Prop where
  params : g.params = f.params
  isVararg : g.isVararg = f.isVararg
  functions : g.functions = f.functions
  loops : g.scopes.map (·.isSome) = f.scopes.map (·.isSome)

namespace Alike

variable {f g h : Frame}

theorem refl (f : Frame) : Alike f f := ⟨rfl, rfl, rfl, rfl⟩

theorem trans (first : Alike f g) (second : Alike g h) : Alike f h :=
  ⟨second.params.trans first.params, second.isVararg.trans first.isVararg, second.functions.trans first.functions,
    second.loops.trans first.loops⟩

theorem setting (h : f.Alike g) : g.setting = f.setting := Setting.ext h.isVararg h.loops

theorem ofAmends {n : Nat} (h : f.Amends n g) : f.Alike g := by
  rw [h.same]
  exact ⟨rfl, rfl, rfl, rfl⟩

end Alike

theorem Mild.alike {α : Type} {m : FrameM α} (h : Mild 0 m) : Blind Alike m := Blind.weaken h fun _ _ => .ofAmends

end Frame

namespace Lowering

def signatures (depth : Nat) (s : Lowering) : List Signature := Prototype.signaturesAll depth s.frame.functions.toList

/-- The functions of the summary have been added to the current frame, and none elsewhere. The innermost scope may have
    been left. -/
structure Yields (leaves : Bool) (o : Summary) (s t : Lowering) : Prop where
  params : t.frame.params = s.frame.params
  setting : t.frame.setting = if leaves then s.frame.setting.leave else s.frame.setting
  signatures : ∀ depth, t.signatures depth = s.signatures depth ++ o.functions depth
  written : ∀ done, Prototype.Lists s.frame.functions.toList done →
    Prototype.Lists t.frame.functions.toList (done ++ o.written)
  around : List.Forall₂ Frame.Alike s.enclosing t.enclosing

theorem alike_refl (frames : List Frame) : List.Forall₂ Frame.Alike frames frames :=
  List.forall₂_same.mpr fun f _ => .refl f

def AllAlike (s t : Lowering) : Prop := List.Forall₂ Frame.Alike (s.frame :: s.enclosing) (t.frame :: t.enclosing)

theorem Yields.trans {leaves : Bool} {o' : Summary} {u : Lowering} (first : Yields false o s t)
    (second : Yields leaves o' t u) : Yields leaves (o * o') s u where
  params := second.params.trans first.params
  setting := by
    have same : t.frame.setting = s.frame.setting := first.setting
    rw [second.setting, same]
  signatures depth := by
    rw [second.signatures, first.signatures, List.append_assoc]
    rfl
  written done lists := by
    have both := second.written _ (first.written done lists)
    rwa [List.append_assoc] at both
  around := forall₂_trans first.around second.around fun _ _ _ => .trans

theorem Yields.ofSame {leaves : Bool} (params : t.frame.params = s.frame.params)
    (setting : t.frame.setting = if leaves then s.frame.setting.leave else s.frame.setting)
    (functions : t.frame.functions = s.frame.functions) (around : List.Forall₂ Frame.Alike s.enclosing t.enclosing) :
    Yields leaves 1 s t := by
  refine ⟨params, setting, fun depth => ?_, fun done lists => ?_, around⟩
  · rw [Lowering.signatures, functions]
    exact (List.append_nil _).symm
  · rw [functions]
    exact (List.append_nil done).symm ▸ lists

theorem Yields.ofAlike (alike : AllAlike s t) : Yields false 1 s t := by
  obtain ⟨frame, around⟩ := List.forall₂_cons.mp alike
  exact .ofSame frame.params frame.setting frame.functions around

theorem Yields.finish {leaves : Bool} {u : Lowering} (first : Yields leaves o s t) (second : Yields false 1 t u) :
    Yields leaves o s u where
  params := second.params.trans first.params
  setting := second.setting.trans first.setting
  signatures depth := by
    rw [second.signatures, first.signatures]
    exact List.append_nil _
  written done lists := by
    have both := second.written _ (first.written done lists)
    rwa [show (1 : Summary).written = [] from rfl, List.append_nil] at both
  around := forall₂_trans first.around second.around fun _ _ _ => .trans

theorem Yields.only (legal : Setting → Prop) (h : Yields false 1 s t) : Yields false (Summary.only legal) s t :=
  ⟨h.params, h.setting, h.signatures, h.written, h.around⟩

theorem Yields.refl (s : Lowering) : Yields false 1 s s := .ofAlike (alike_refl _)

/-- `m'` is `m` without lines, `m` adds the functions of the summary, succeeds only for what is legal, and blames only
    what is not. -/
def Matches {α : Type} (leaves : Bool) (o : Summary) (m m' : LowerM α) : Prop :=
  ∀ s, Parallel unlined m m' s (·.Fair (o.legal s.frame.setting) o.assignable) fun _ t =>
    o.legal s.frame.setting ∧ Yields leaves o s t

end Lowering

theorem Parallel.lift {α : Type} {m m' : FrameM α} {fair : CodeError → Prop} {post : α → Lowering → Prop}
    (h : Parallel Frame.unlined m m' s.frame fair fun a f => post a ⟨f, s.enclosing⟩) :
    Parallel Lowering.unlined (liftM m : LowerM α) (liftM m') s fair post := by
  have frame : s.unlined.frame = s.frame.unlined := rfl
  cases run : m s.frame with
  | ok a f =>
    obtain ⟨run', holds⟩ := h.of_ok run
    have done : Lowering.step m s = .ok a ⟨f, s.enclosing⟩ := by simp only [Lowering.step, run]
    have done' : Lowering.step m' s.unlined = .ok a ⟨f.unlined, s.unlined.enclosing⟩ := by
      simp only [Lowering.step, frame, run']
    exact .ok done done' holds
  | error e f =>
    obtain ⟨⟨f', run'⟩, holds⟩ := h.of_error run
    have done : Lowering.step m s = .error e ⟨f, s.enclosing⟩ := by simp only [Lowering.step, run]
    have done' : Lowering.step m' s.unlined = .error e.unlined ⟨f', s.unlined.enclosing⟩ := by
      simp only [Lowering.step, frame, run']
    exact .error done done' holds

theorem Parallel.get {σ β : Type} {erase : σ → σ} {k k' : σ → EStateM CodeError σ β} {s : σ} {fair : CodeError → Prop}
    {post : β → σ → Prop} (h : Parallel erase (k s) (k' (erase s)) s fair post) :
    Parallel erase (MonadState.get >>= k) (MonadState.get >>= k') s fair post := h

theorem Frame.loopDepth_eq_zero_iff (f : Frame) : f.loopDepth = 0 ↔ f.setting.inLoop = false := by
  unfold loopDepth Setting.inLoop setting
  induction f.scopes with
  | nil => simp
  | cons scope rest ih =>
    cases scope with
    | none => exact ih
    | some pending => simp

theorem Frame.addUpvalue_alike (name : String) (inStack : Bool) (index : Nat) :
    Blind Alike (addUpvalue name inStack index) := by
  intro f
  by_cases full : f.upvalues.size ≥ upvalueLimit
  · exact .error (if_pos full) (if_pos full) rfl
  · have full' : ¬ f.unlined.upvalues.size ≥ upvalueLimit := full
    have found : f.unlined.upvalueIndex? name = f.upvalueIndex? name := rfl
    unfold Parallel Frame.addUpvalue
    rw [if_neg full, if_neg full', found]
    cases f.upvalueIndex? name with
    | some i => exact ⟨rfl, rfl, rfl, rfl, rfl⟩
    | none => exact ⟨rfl, rfl, rfl, rfl, rfl⟩

theorem Lowering.upvalue?_parallel (name : String) (s : Lowering) :
    Parallel unlined (upvalue? name) (upvalue? name) s (·.isStatic = false) fun _ t => AllAlike s t := by
  have added : ∀ inStack index s t, AllAlike s t →
      Parallel unlined (some <$> step (Frame.addUpvalue name inStack index))
        (some <$> step (Frame.addUpvalue name inStack index)) t (·.isStatic = false) fun _ u => AllAlike s u := by
    intro inStack index s t alike
    rw [map_eq_pure_bind]
    have adds := Frame.addUpvalue_alike name inStack index t.frame
    refine .bind (.lift (adds.weaken (fun _ => id) fun _ f more => .pure ?_))
    exact forall₂_trans alike (.cons more (alike_refl _)) fun _ _ _ => .trans
  obtain ⟨frame, enclosing⟩ := s
  induction enclosing generalizing frame with
  | nil => exact .ok rfl rfl (alike_refl _)
  | cons parent outer ih =>
    have known : frame.unlined.upvalueIndex? name = frame.upvalueIndex? name := rfl
    have bound : parent.unlined.register? name = parent.register? name := rfl
    have around := ih parent
    unfold Parallel upvalue? at around ⊢
    simp only [unlined, List.map_cons] at around ⊢
    rw [findUpvalue, findUpvalue, known, bound]
    cases frame.upvalueIndex? name with
    | some i => exact ⟨rfl, alike_refl _⟩
    | none =>
      dsimp only
      cases parent.register? name with
      | some register =>
        let marked := { parent with live := Frame.markCaptured name parent.live }
        exact added true register ⟨frame, parent :: outer⟩ ⟨frame, marked :: outer⟩
          (.cons (.refl _) (.cons ⟨rfl, rfl, rfl, rfl⟩ (alike_refl _)))
      | none =>
        dsimp only
        cases found : findUpvalue name outer parent with
        | error e t =>
          rw [found] at around
          obtain ⟨⟨t', found'⟩, other⟩ := around
          rw [found']
          exact ⟨⟨_, rfl⟩, other⟩
        | ok i? t =>
          rw [found] at around
          obtain ⟨found', alike⟩ := around
          rw [found']
          cases i? with
          | none => exact ⟨rfl, .cons (.refl _) alike⟩
          | some i =>
            exact added false i ⟨frame, parent :: outer⟩ ⟨frame, t.frame :: t.enclosing⟩ (.cons (.refl _) alike)

namespace Lowering.Matches

variable {α β : Type} {leaves : Bool} {o' : Summary} {m m' : LowerM α} {k k' : α → LowerM β}

theorem bind (first : Matches false o m m') (next : ∀ a, Matches leaves o' (k a) (k' a)) :
    Matches leaves (o * o') (m >>= k) (m' >>= k') := by
  intro s
  refine .bind ((first s).weaken (fun e fair => fair.weaken And.left And.left) ?_)
  rintro a t ⟨legal, yields⟩
  have same : t.frame.setting = s.frame.setting := yields.setting
  have rest := next a t
  rw [same] at rest
  refine rest.weaken (fun e fair => fair.weaken And.right And.right) ?_
  rintro b u ⟨legal', more⟩
  exact ⟨⟨legal, legal'⟩, yields.trans more⟩

theorem before (first : Matches false 1 m m') (next : ∀ a, Matches leaves o (k a) (k' a)) :
    Matches leaves o (m >>= k) (m' >>= k') := by
  rw [← one_mul o]
  exact first.bind next

theorem after (first : Matches false o m m') (next : ∀ a, Matches leaves 1 (k a) (k' a)) :
    Matches leaves o (m >>= k) (m' >>= k') := by
  rw [← mul_one o]
  exact first.bind next

theorem pure (a : α) : Matches false 1 (pure a : LowerM α) (pure a) := fun s => .pure ⟨trivial, .refl s⟩

theorem step {m : FrameM α} (h : Frame.Mild 0 m) : Matches false 1 (liftM m : LowerM α) (liftM m) := by
  refine fun s => .lift ((h.alike s.frame).weaken (fun _ => .of_not_static) fun _ f alike => ?_)
  exact ⟨trivial, .ofAlike (.cons alike (alike_refl _))⟩

theorem observe (read : Frame → α) (blind : ∀ f, read f.unlined = read f) :
    Matches false 1 (do return read (← get).frame) (do return read (← get).frame) :=
  fun s => .ok rfl (congrArg (EStateM.Result.ok · s.unlined) (blind s.frame)) ⟨trivial, .refl s⟩

theorem throw {e : Lowering → CodeError} (erased : ∀ s, e s.unlined = (e s).unlined)
    (fair : ∀ s, (e s).Fair (o.legal s.frame.setting) o.assignable) :
    Matches leaves o (do throw (e (← get)) : LowerM α) (do throw (e (← get))) :=
  fun s => .error rfl (congrArg (EStateM.Result.error · s.unlined) (erased s)) (fair s)

theorem scratch (h : Matches false o m m') : Matches false o (scratch m) (Lowering.scratch m') :=
  before (observe (·.used) fun _ => rfl) fun top => h.after fun _ => before (step (.setUsed top)) fun _ => pure _

theorem vararg (a : Nat) (n : Int) : Matches false Summary.weights.vararg (ofVararg.emit a n) (ofVararg.emit a n) := by
  intro s
  by_cases any : s.frame.isVararg = true
  · have emits : Matches false 1 (do let _ ← Frame.emitVararg a n : LowerM Unit) (do let _ ← Frame.emitVararg a n) :=
      before (step (.emit (Instruction.abc .vararg a (Frame.countOperand n) 0))) fun _ => pure ()
    have runs : ∀ t : Lowering, t.frame.isVararg = true →
        ofVararg.emit a n t = (do let _ ← Frame.emitVararg a n : LowerM Unit) t := fun t any => by
      show (if t.frame.isVararg then _ else _ : LowerM Unit) t = _
      rw [if_pos any]
    unfold Parallel
    rw [runs s any, runs s.unlined any]
    exact (emits s).weaken (fun _ fair => fair.weaken (fun _ => trivial) id) fun _ _ post => ⟨any, post.2.only _⟩
  · have stops : ∀ t : Lowering, ¬ t.frame.isVararg = true →
        ofVararg.emit a n t = .error (.varargOutsideVararg t.frame.line) t := fun t none => by
      show (if t.frame.isVararg then _ else _ : LowerM Unit) t = _
      rw [if_neg none]
      rfl
    exact .error (stops s any) (stops s.unlined any) any

theorem upvalue? (name : String) : Matches false 1 (upvalue? name) (Lowering.upvalue? name) := fun s =>
  (upvalue?_parallel name s).weaken (fun _ => .of_not_static) fun _ _ alike => ⟨trivial, .ofAlike alike⟩

theorem resolve (name : String) : Matches false 1 (resolve name) (Lowering.resolve name) := by
  intro s
  have bound : s.unlined.frame.register? name = s.frame.register? name := rfl
  refine .get ?_
  rw [bound]
  cases s.frame.register? name with
  | some register => exact pure _ s
  | none => exact (upvalue? name).before (fun _ => pure _) s

theorem logical {m m' k k' : LowerM Nat} (first : Matches false o m m') (second : Matches false o' k k') (a n : Nat) :
    Matches false (o * o') (logicalCode m k a n) (logicalCode m' k' a n) :=
  first.bind fun _ => before (step (.emit _)) fun _ => before (step (.emitJmp 0 0)) fun done =>
    second.after fun _ => before (step (.emit _)) fun _ => step (.patchHere (Nat.zero_le done))

theorem exit : Matches true 1 (liftM Frame.exitScope : LowerM Unit) (liftM Frame.exitScope) := by
  have later : ∀ {s : Lowering}, ∀ pc ∈ s.frame.breaks, 0 ≤ pc := fun _ _ => Nat.zero_le _
  refine fun s => .lift ((Frame.exitScope_amends later).weaken (fun _ => .of_not_static) fun _ f amends => ?_)
  have alike := Frame.Alike.ofAmends amends
  refine ⟨trivial, .ofSame alike.params ?_ alike.functions (alike_refl _)⟩
  rw [alike.setting]
  simp [Frame.setting, Setting.leave]

theorem settle {m m' k k' : LowerM Unit} (first : Matches true o m m') (next : Matches false 1 k k') :
    Matches true o (do m; k) (do m'; k') := by
  refine fun s => .bind ((first s).weaken (fun _ => id) ?_)
  rintro _ t ⟨legal, yields⟩
  refine (next t).weaken (fun _ fair => fair.weaken (fun _ => trivial) (fun _ => trivial)) ?_
  rintro _ u ⟨-, more⟩
  exact ⟨legal, yields.finish more⟩

theorem scope {m m' : LowerM Unit} (isLoop : Bool) (h : Matches true o m m') :
    Matches false (Summary.weights.scope isLoop o) (do Frame.enterScope isLoop; m)
      (do Frame.enterScope isLoop; m') := by
  intro s
  have inside := h ⟨{ s.frame with scopes := (if isLoop then some #[] else none) :: s.frame.scopes }, s.enclosing⟩
  have setting : ({ s.frame with scopes := (if isLoop then some #[] else none) :: s.frame.scopes } : Frame).setting =
      s.frame.setting.enter isLoop := by cases isLoop <;> rfl
  rw [setting] at inside
  refine .bind (.ok rfl rfl (inside.weaken (fun _ => id) ?_))
  rintro _ t ⟨legal, yields⟩
  refine ⟨legal, yields.params, ?_, yields.signatures, yields.written, yields.around⟩
  have left := yields.setting
  rw [setting] at left
  exact left

theorem line {m m' : LowerM Unit} (line : Nat) (h : Matches false o m m') :
    Matches false o (do Frame.setLine line; m) (do Frame.setLine 0; m') := by
  intro s
  refine .bind (.ok rfl rfl ((h ⟨{ s.frame with line := line }, s.enclosing⟩).weaken (fun _ => id) ?_))
  rintro _ t ⟨legal, yields⟩
  exact ⟨legal, yields.params, yields.setting, yields.signatures, yields.written, yields.around⟩

theorem leave : Matches false Summary.weights.leave emitBreak emitBreak := by
  refine before (step (.emitJmp 0 0)) fun pc s => .lift (.get ?_)
  have depth : s.frame.unlined.loopDepth = s.frame.loopDepth := rfl
  dsimp only
  rw [depth]
  cases found : s.frame.loopDepth with
  | zero => exact .error rfl rfl (Bool.eq_false_iff.mp ((Frame.loopDepth_eq_zero_iff _).mp found))
  | succ n =>
    have inside : s.frame.setting.inLoop = true := by
      rw [← Bool.not_eq_false, ← Frame.loopDepth_eq_zero_iff, found]
      exact Nat.succ_ne_zero n
    have marks : Frame.Blind Frame.Alike (modify fun f => { f with scopes := Frame.pushBreak pc f.scopes }) :=
      .modify (fun _ => rfl) fun f => ⟨rfl, rfl, rfl, (AddsBreaks.pushBreak (P := fun _ => True) trivial _).kinds⟩
    have sets := (Frame.Mild.amend (Nat.zero_le pc) fun i => i.setA (s.frame.closeLevel (n + 1))).alike
    have steps := sets.bind fun _ => marks.weaken fun _ _ rest _ before => Frame.Alike.trans before rest
    refine (steps s.frame).weaken (fun _ => .of_not_static) fun _ f alike => ?_
    have same : Yields false 1 s ⟨f, s.enclosing⟩ := .ofAlike (.cons alike (alike_refl _))
    exact ⟨inside, same.only _⟩

theorem addFunction_yields {f parent : Frame} {outer : List Frame} {fn : FunctionDef}
    (lowered : (f.toPrototype none).LoweredFrom fn t)
    (inside : Yields true o (s.nest fn.params.length fn.isVararg) ⟨f, parent :: outer⟩) :
    Yields false (Summary.weights.function fn o) s
      ⟨{ parent with functions := parent.functions.push (f.toPrototype none) }, outer⟩ := by
  obtain ⟨around, outside⟩ := List.forall₂_cons.mp inside.around
  have header : ∀ depth, (f.toPrototype none).signatures depth =
      ⟨depth, fn.params.length, fn.isVararg⟩ :: o.functions (depth + 1) := by
    intro depth
    have hp : f.params = fn.params.length := inside.params
    have hv : f.isVararg = fn.isVararg := congrArg Setting.isVararg inside.setting
    have nested : Prototype.signaturesAll (depth + 1) f.functions.toList = o.functions (depth + 1) :=
      inside.signatures (depth + 1)
    rw [Frame.toPrototype, Prototype.signatures, nested, hp, hv]
  refine ⟨around.params, around.setting, fun depth => ?_, fun done lists => ?_, outside⟩
  · rw [signatures, signatures, Array.toList_push, Prototype.signaturesAll_append, around.functions,
      Prototype.signaturesAll, Prototype.signaturesAll, header, List.append_nil]
    rfl
  · have one := Prototype.Lists.cons lowered (inside.written [] .nil) .nil
    rw [List.append_nil] at one
    rw [Array.toList_push, around.functions]
    exact lists.append one

theorem function {body' : LowerM Unit} (fn : FunctionDef) (a : Nat) (h : Matches false o (Block.code fn.body) body') :
    Matches false (Summary.weights.function fn o) (emitFunction fn.params fn.isVararg (Block.code fn.body) a)
      (emitFunction fn.params fn.isVararg body' a) := by
  have free : ∀ {legal assignable : Prop} (e : CodeError), e.Fair True True → e.Fair legal assignable :=
    fun e fair => fair.weaken (fun _ => trivial) fun _ => trivial
  refine fun s => .get ?_
  let start := s.nest fn.params.length fn.isVararg
  have declares : Matches false 1 (declare fn.params 0) (declare fn.params 0) := by
    unfold declare
    induction fn.params with
    | nil => exact pure ()
    | cons name rest ih => exact before (before (step (.addLocal name 0)) fun _ => pure ()) fun _ => ih
  have enters : Parallel unlined (enterFunction fn.params fn.isVararg) (enterFunction fn.params fn.isVararg) s
      (·.Fair True True) fun _ t => True ∧ Yields false 1 start t := declares start
  refine .bind (enters.ran.weaken free ?_)
  rintro _ t ⟨enterRun, -, entered⟩
  have body := h t
  rw [show t.frame.setting = ⟨fn.isVararg, [false]⟩ from entered.setting] at body
  refine .bind (body.ran.weaken (fun _ => id) ?_)
  rintro _ u ⟨bodyRun, legal, lowered⟩
  refine .bind ((exit u).ran.weaken free ?_)
  rintro _ v ⟨exitRun, -, left⟩
  refine .bind ((step (.emitReturn 0 0) v).ran.weaken free ?_)
  rintro pc w ⟨returnRun, -, ended⟩
  have inside : Yields true (1 * o * 1) start w := ((entered.trans lowered).trans left).finish ended
  rw [one_mul, mul_one] at inside
  obtain ⟨g, exits, rfl⟩ := lift_ok exitRun
  obtain ⟨f, returns, rfl⟩ := lift_ok returnRun
  have origin : (f.toPrototype none).LoweredFrom fn t :=
    ⟨none, u, pc, f, .function enterRun, bodyRun, (bind_run exits).trans returns, rfl⟩
  obtain ⟨frame, enclosing⟩ := u
  cases enclosing with
  | nil => cases inside.around
  | cons parent outer =>
    -- What is left is done in the function around, which has the prototype of this one already.
    have emits : Matches false 1 (do let _ ← Frame.emitAbx .closure a parent.functions.size : LowerM Unit)
        (do let _ ← Frame.emitAbx .closure a parent.functions.size) := before (step (.emit _)) fun _ => pure ()
    refine (emits ⟨{ parent with functions := parent.functions.push (f.toPrototype none) }, outer⟩).weaken free ?_
    rintro _ x ⟨-, more⟩
    exact ⟨legal, (addFunction_yields origin inside).finish more⟩

end Lowering.Matches

/-- Lowering a tree adds the functions that are written in it, does not look at its lines, and decides whether it is
    legal. -/
def summarizing : StatLogic Summary.weights where
  Holds o _ m m' := Matches false o m m'
  Does n leaves o m m' := n = 0 → Matches leaves o m m'
  pure := .pure
  weaken h _ := h
  bind := .bind
  lift h := .step (.ofModest h)
  observe := .observe
  scratch := .scratch
  environment := .resolve environment
  vararg := .vararg
  noTarget _ _ _ _ _ _ := .throw (fun _ => rfl) fun _ => And.right
  logical a n first second := .logical first second a n
  names := .resolve
  ofHolds h _ := h
  next first rest zero := (first zero).bind fun a => rest a zero
  step h zero := .step (zero ▸ h)
  emit _ _ _ next zero := .before (.step (.emit _)) fun pc => next pc (zero ▸ Nat.zero_le pc) zero
  exit _ := .exit
  settle first mild zero := (first zero).settle (.step (zero ▸ mild))
  scope isLoop h zero := .scope isLoop (h zero)
  line line h zero := .line line (h zero)
  leave _ := .leave
  goto _ _ := .throw (fun _ => rfl) fun _ => id
  function fn a h := .function fn a (h 0 rfl)

abbrev Block.summary (block : Block) : Summary := Block.weigh Summary.weights block

theorem emitChunk_matches {P : List String → Prop} {block : Block} (paired : Block.Paired P block) :
    Matches true block.summary (emitChunk (Block.code block)) (emitChunk (Block.code (Block.atLine 0 block))) := by
  have code : Matches false block.summary (Block.code block) (Block.code (Block.atLine 0 block)) :=
    Block.code_does summarizing block (fun _ => paired) rfl
  have foot : Matches true 1 (do Frame.exitScope; let _ ← Frame.emitReturn 0 0 : LowerM Unit)
      (do Frame.exitScope; let _ ← Frame.emitReturn 0 0) :=
    .settle .exit (.before (.step (.emitReturn 0 0)) fun _ => .pure ())
  exact .before (.upvalue? environment) fun _ => code.after fun _ => foot

end LuaBytecode
