import LuaBytecode.Proofs.Logic.Expressions
import LuaBytecode.Proofs.Printing.Words

namespace LuaBytecode

open Lowering ExpCode

section Values

variable {G : Type} [Monoid G] {w : Weights G} {L : Logic w} {targets targets' values values' : List ExpCode}

def weighTargets (w : Weights G) (es : List ExpCode) : G :=
  (es.map fun e => e.exp.weigh w * if e.exp.isVar then 1 else w.noTarget).prod

theorem resolveTargets_holds (h : List.Forall₂ (Walks L) targets targets') (resolved : Array Target) :
    L.Holds (weighTargets w targets) Raised (resolveTargets targets resolved) (resolveTargets targets' resolved) := by
  induction h generalizing resolved with
  | nil => exact L.weaken (L.pure resolved) fun _ _ _ => by omega
  | cons head _ ih =>
    rw [weighTargets, List.map_cons, List.prod_cons]
    exact L.bind head.target fun _ => L.weaken (ih _) fun _ _ _ _ _ => by omega

theorem emitStores_holds (v : Nat) (targets : List Target) :
    L.Holds 1 Kept (emitStores v targets) (emitStores v targets) := by
  induction targets generalizing v with
  | nil => exact L.pure ()
  | cons target rest ih => exact L.pass (L.emitStore v target) fun _ => ih (v + 1)

theorem emitAssign_holds (ht : List.Forall₂ (Walks L) targets targets') (hv : List.Forall₂ (Walks L) values values') :
    L.Holds (weighTargets w targets * weighAll w values) Kept (emitAssign targets values)
      (emitAssign targets' values') := by
  refine L.scratch (P := Raised) (L.bind (resolveTargets_holds ht #[]) fun resolved => L.pass L.used fun first => ?_)
  exact L.weaken (L.finish (loadTrimmed_holds hv _) fun _ => emitStores_holds first _) fun _ _ _ _ _ => by omega

theorem emitCallStatement_holds {callee callee' : ExpCode} {args args' : List ExpCode}
    (hc : Walks L callee callee') (ha : List.Forall₂ (Walks L) args args') (isMethod : Bool) :
    L.Holds (weighCall w callee args isMethod) Kept (emitCallStatement callee args isMethod)
      (emitCallStatement callee' args' isMethod) := by
  refine L.before L.alloc fun r => L.after (emitCall_holds hc ha r 0) fun _ => L.weaken (L.lift .free) ?_
  intro _ _ _ _ _ _ _
  omega

theorem emitReturnValues_holds (h : List.Forall₂ (Walks L) values values') :
    L.Holds (weighAll w values) Kept (emitReturnValues values) (emitReturnValues values') := by
  unfold emitReturnValues
  rw [countOf_of (fun _ _ h => h.multi) h, ← h.length_eq]
  refine L.after (loadOpen_holds h) fun _ => L.weaken (L.finish (L.lift (.freeN _)) fun _ => ?_) ?_
  · exact L.pass L.used fun _ => L.emitAbc (by decide) (by decide)
  · intro _ _ _ _ _
    omega

theorem emitReturn_holds (h : List.Forall₂ (Walks L) values values') :
    L.Holds (weighAll w values) Kept (emitReturn values) (emitReturn values') := by
  have several := emitReturnValues_holds h
  cases h with
  | nil => exact L.emitAbc (by decide) (by decide)
  | @cons value value' rest _ head tail =>
    cases tail with
    | cons => exact several
    | nil =>
      rw [weighAll_cons, weighAll_nil, mul_one] at several ⊢
      refine head.register?.elim (fun r => L.emitAbc (by decide) (by decide)) ?_
      have prepares := head.prepare?
      revert prepares several
      generalize value.prepare? = prepare?, value'.prepare? = prepare?'
      intro several prepares
      cases prepares with
      | none => exact several
      | some prepare =>
        refine L.before L.alloc fun r => L.after (prepare r) fun count => L.pass (L.lift (.emitAbc ?_ ?_)) fun _ => ?_
        · decide
        · decide
        · refine L.weaken (L.finish (L.lift .free) fun _ => L.emitAbc (by decide) (by decide)) ?_
          intro _ _ _ _ _ _ _
          omega

end Values

namespace Frame

variable {n pc : Nat} {f g h : Frame}

/-- What a step of a statement does to a frame. Variables come and go, and of the instructions that are there, only those
    from `n` on are changed. -/
structure Amends (n : Nat) (f g : Frame) : Prop where
  same : g = { f with
    used := g.used, peak := g.peak, live := g.live, locals := g.locals, slots := g.slots, constants := g.constants,
    code := g.code }
  constants : f.constants.entries.toList <+: g.constants.entries.toList
  pc : f.pc ≤ g.pc
  code : ∀ pc < n, pc < f.pc → g.code[pc]? = f.code[pc]?

namespace Amends

theorem refl (f : Frame) : Amends n f f := ⟨rfl, List.prefix_rfl, Nat.le.refl, fun _ _ _ => rfl⟩

theorem trans (first : Amends n f g) (second : Amends n g h) : Amends n f h where
  same := by rw [second.same, first.same]
  constants := first.constants.trans second.constants
  pc := Nat.le_trans first.pc second.pc
  code pc below inside := by
    rw [second.code pc below (Nat.lt_of_lt_of_le inside first.pc), first.code pc below inside]

theorem ofContinued (h : f.Continued g) : Amends n f g := by
  obtain ⟨added, code, _⟩ := h.code
  have longer : f.code.toList <+: g.code.toList := ⟨added, code.symm⟩
  refine ⟨by rw [h.same], h.constants, by simpa [Frame.pc] using longer.length_le, fun _ _ inside => ?_⟩
  exact getElem?_of_prefixed longer inside

theorem ofPush (i : Instruction) : Amends n f (f.push i) :=
  ⟨rfl, List.prefix_rfl, by simp, fun _ _ inside => getElem?_of_prefixed (by simp) inside⟩

end Amends

def Mild {α : Type} (n : Nat) (m : FrameM α) : Prop := Blind (Amends n) m

namespace Mild

variable {α β : Type} {m : FrameM α}

theorem ofModest {P : Nat → Nat → Prop} (h : Modest m P) : Mild n m := Blind.weaken h fun _ _ change => .ofContinued change.1

theorem bind {k : α → FrameM β} (first : Mild n m) (next : ∀ a, Mild n (k a)) : Mild n (m >>= k) :=
  Blind.bind first fun a => (next a).weaken fun _ _ rest _ before => before.trans rest

theorem pure {a : α} : Mild n (pure a) := fun f => .pure (.refl f)

theorem forM {items : List α} {step : α → FrameM Unit} (h : ∀ a ∈ items, Mild n (step a)) : Mild n (items.forM step) := by
  induction items with
  | nil => exact pure
  | cons a rest ih =>
    obtain ⟨first, others⟩ := List.forall_mem_cons.mp h
    exact first.bind fun _ => ih others

theorem emit (e : Except OperandError Instruction) : Mild n (emit e) := by
  intro f
  cases e with
  | ok i => exact .ok rfl rfl (.ofPush i)
  | error e => exact .error rfl rfl rfl

theorem emitJmp (a : Nat) (sbx : Int) : Mild n (emitJmp a sbx) := emit _

theorem emitReturn (a : Nat) (count : Int) : Mild n (emitReturn a count) := emit _

theorem amend (later : n ≤ pc) (change : Instruction → Except OperandError Instruction) : Mild n (amend pc change) := by
  intro f
  have found : f.unlined.code[pc]? = f.code[pc]? := rfl
  unfold Parallel Frame.amend
  rw [found]
  cases f.code[pc]? with
  | none => exact ⟨⟨_, rfl⟩, rfl⟩
  | some i =>
    dsimp only
    cases change i with
    | ok j =>
      have size : f.pc ≤ (f.replace pc j).pc := by simp [Frame.pc]
      exact ⟨rfl, rfl, List.prefix_rfl, size, fun _ below _ => Array.getElem?_setIfInBounds_ne (by omega)⟩
    | error e => exact ⟨⟨_, rfl⟩, rfl⟩

theorem patch (later : n ≤ pc) (target : Nat) : Mild n (patch pc target) := amend later _

theorem patchHere (later : n ≤ pc) : Mild n (patchHere pc) := .get (fun _ => rfl) fun f => patch later f.pc

theorem setUsed (used : Nat) : Mild n (setUsed used) := .modify (fun _ => rfl) fun f => { Amends.refl f with same := rfl }

theorem addLocal (name : String) (startPc : Nat) : Mild n (addLocal name startPc) :=
  (ofModest .alloc).bind fun _ => bind (.modify (fun _ => rfl) fun f => { Amends.refl f with same := rfl }) fun _ => pure

theorem closeCaptured : Mild n closeCaptured := by
  refine .get (fun _ => rfl) fun f => ?_
  dsimp only
  split
  · exact (emit _).bind fun _ => pure
  · exact pure

theorem landBreak (later : n ≤ pc) (level : Nat) : Mild n (landBreak level pc) :=
  (amend later _).bind fun _ => patchHere later

theorem endRecord (record : Nat) : Mild n (endRecord record) := by
  intro f
  by_cases known : record < f.locals.size
  · exact .ok (if_pos known) (if_pos known) { Amends.refl f with same := rfl }
  · exact .error (if_neg known) (if_neg known) rfl

theorem endLocal (b : Binding) : Mild n (endLocal b) := (ofModest .free).bind fun _ => endRecord b.record

theorem retire (name : String) : Mild n (retire name) :=
  .get (fun _ => rfl) fun _ => (forM fun b _ => endLocal b).bind fun _ =>
    .modify (fun _ => rfl) fun f => { Amends.refl f with same := rfl }

end Mild

theorem exitScope_amends (later : ∀ pc ∈ f.breaks, n ≤ pc) : Parallel unlined exitScope exitScope f (·.isStatic = false)
    fun _ g => Amends n { f with scopes := f.scopes.tail } g := by
  have lands : Mild n (do f.breaks.forM (landBreak f.scopeLevel); (← get).retiring.forM retire : FrameM Unit) :=
    (Mild.forM fun pc member => .landBreak (later pc member) _).bind fun _ =>
      .get (fun _ => rfl) fun _ => Mild.forM fun name _ => .retire name
  unfold Parallel
  rw [exitScope_eq, exitScope_eq]
  exact lands { f with scopes := f.scopes.tail }

end Frame

/-- A logic for statements, too. `Does n leaves g m m'` is what is said about statements `m` that weigh `g` and come
    behind the first `n` instructions, and whether they leave the innermost scope in the end. -/
structure StatLogic {G : Type} [Monoid G] (w : Weights G) extends Logic w where
  Does {α : Type} (n : Nat) (leaves : Bool) (g : G) (m m' : LowerM α) : Prop
  names (x : String) : Holds 1 Kept (resolve x) (resolve x)
  ofHolds {α : Type} {n : Nat} {g : G} {m m' : LowerM α} : Holds g Kept m m' → Does n false g m m'
  next {α β : Type} {n : Nat} {leaves : Bool} {g h : G} {m m' : LowerM α} {k k' : α → LowerM β} :
    Does n false g m m' → (∀ a, Does n leaves h (k a) (k' a)) → Does n leaves (g * h) (m >>= k) (m' >>= k')
  step {α : Type} {n : Nat} {m : FrameM α} : Frame.Mild n m → Does n false 1 (liftM m) (liftM m)
  emit {α : Type} {n : Nat} {leaves : Bool} {g : G} {k k' : Nat → LowerM α} (op : Opcode) (a : Nat) (sbx : Int) :
    (∀ pc, n ≤ pc → Does n leaves g (k pc) (k' pc)) →
    Does n leaves g (liftM (Frame.emitAsbx op a sbx) >>= k) (liftM (Frame.emitAsbx op a sbx) >>= k')
  exit {n : Nat} : Does n true 1 (liftM Frame.exitScope) (liftM Frame.exitScope)
  settle {n : Nat} {g : G} {m m' : LowerM Unit} {k : FrameM Unit} : Does n true g m m' → Frame.Mild n k →
    Does n true g (do m; k) (do m'; k)
  scope {n : Nat} {g : G} {m m' : LowerM Unit} (isLoop : Bool) : Does n true g m m' →
    Does n false (w.scope isLoop g) (do Frame.enterScope isLoop; m) (do Frame.enterScope isLoop; m')
  line {n : Nat} {g : G} {m m' : LowerM Unit} (line : Nat) : Does n false g m m' →
    Does n false g (do Frame.setLine line; m) (do Frame.setLine 0; m')
  leave {n : Nat} : Does n false w.leave emitBreak emitBreak
  goto {n : Nat} (label : String) : Does n false w.goto (StatKind.code (.goto label)) (StatKind.code (.goto label))
  function {g : G} {body' : LowerM Unit} (fn : FunctionDef) (a : Nat) :
    (∀ n, Does n false g (Block.code fn.body) body') →
    Holds (w.function fn g) Kept (emitFunction fn.params fn.isVararg (Block.code fn.body) a)
      (emitFunction fn.params fn.isVararg body' a)

def emitSkip (guard : ExpCode) : LowerM (Option Nat) :=
  if Lowering.isTrue guard.exp then pure none else some <$> emitGuard guard

theorem emitArms_cons [NameOrder] (guard : ExpCode) (guards : List ExpCode) (body : LowerM Unit)
    (bodies : List (LowerM Unit))
    (skip? : Option Nat) (ends : Array Nat) : emitArms (guard :: guards) (body :: bodies) skip? ends = (do
      skip?.forM (Frame.patchHere ·)
      let skip? ← emitSkip guard
      inScope body
      if guards.isEmpty then return skip?.elim ends ends.push
      else
        let leave ← Frame.emitJmp 0 0
        emitArms guards bodies skip? (ends.push leave)) := by
  simp only [emitArms, emitSkip]
  cases Lowering.isTrue guard.exp <;> rfl

namespace StatLogic

variable {G : Type} [Monoid G] {w : Weights G} (S : StatLogic w)

section Rules

variable {α β : Type} {n : Nat} {leaves : Bool} {g : G} {m m' : LowerM α} {k k' : α → LowerM β}

theorem before (first : S.Does n false 1 m m') (next : ∀ a, S.Does n leaves g (k a) (k' a)) :
    S.Does n leaves g (m >>= k) (m' >>= k') := by
  rw [← one_mul g]
  exact S.next first next

theorem after (first : S.Does n false g m m') (next : ∀ a, S.Does n leaves 1 (k a) (k' a)) :
    S.Does n leaves g (m >>= k) (m' >>= k') := by
  rw [← mul_one g]
  exact S.next first next

theorem mild {m : FrameM α} (h : Frame.Mild n m) (next : ∀ a, S.Does n leaves g (k a) (k' a)) :
    S.Does n leaves g (liftM m >>= k) (liftM m >>= k') := S.before (S.step h) next

theorem done (a : α) : S.Does n false 1 (pure a) (pure a) := S.ofHolds (S.pure a)

theorem pc : S.Does n false 1 pc pc := S.ofHolds (S.observe (·.pc) fun _ => rfl)

theorem forM {items : List α} {step : α → LowerM Unit} (h : ∀ a ∈ items, S.Does n false 1 (step a) (step a)) :
    S.Does n false 1 (items.forM step) (items.forM step) := by
  induction items with
  | nil => exact S.done ()
  | cons a rest ih =>
    obtain ⟨first, others⟩ := List.forall_mem_cons.mp h
    exact S.before first fun _ => ih others

end Rules

section Statements

variable {S} {α : Type} {n : Nat} {leaves : Bool} {g : G} {body body' : LowerM Unit} {guard guard' : ExpCode}
  {values values' : List ExpCode}

theorem inScope (hb : S.Does n false g body body') :
    S.Does n false (w.scope false g) (inScope body) (Lowering.inScope body') :=
  S.scope false (S.after hb fun _ => S.mild .closeCaptured fun _ => S.exit)

theorem emitGuard (h : Walks S.toLogic guard guard') {k k' : Nat → LowerM α}
    (next : ∀ pc, n ≤ pc → S.Does n leaves g (k pc) (k' pc)) :
    S.Does n leaves (guard.exp.weigh w * g) (emitGuard guard >>= k) (Lowering.emitGuard guard' >>= k') := by
  simp only [Lowering.emitGuard, bind_assoc]
  exact S.next (S.ofHolds (S.scratch h.toRegister)) fun _ => S.mild (.emit _) fun _ => S.emit .jmp 0 0 next

theorem emitWhile (hg : Walks S.toLogic guard guard') (hb : S.Does n false g body body') :
    S.Does n false (guard.exp.weigh w * w.scope true g) (emitWhile guard body) (Lowering.emitWhile guard' body') := by
  refine S.before S.pc fun start => emitGuard hg fun leave later => S.scope true ?_
  refine S.after hb fun _ => S.mild .closeCaptured fun _ => S.before S.pc fun back => ?_
  exact S.mild (.emit _) fun _ => S.settle S.exit (.patchHere later)

theorem emitRepeat (hb : S.Does n false g body body') (hg : Walks S.toLogic guard guard') :
    S.Does n false (w.scope true (g * guard.exp.weigh w)) (emitRepeat body guard) (Lowering.emitRepeat body' guard') := by
  refine S.scope true (S.before S.pc fun start => S.next hb fun _ => ?_)
  have foot : ∀ level, S.Does n true 1
      (do
        let back ← Lowering.pc
        let _ ← Frame.emitJmp level (Frame.jumpOffset back start)
        Frame.closeCaptured
        Frame.exitScope : LowerM Unit)
      (do
        let back ← Lowering.pc
        let _ ← Frame.emitJmp level (Frame.jumpOffset back start)
        Frame.closeCaptured
        Frame.exitScope) := fun level =>
    S.before S.pc fun back => S.mild (.emitJmp _ _) fun _ => S.mild .closeCaptured fun _ => S.exit
  have jumps := S.before (S.ofHolds (S.observe (·.scopeLevel) fun _ => rfl)) foot
  exact S.after (S.ofHolds (S.scratch hg.toRegister)) fun a => S.mild (.emit _) fun _ => jumps

theorem emitSkip (h : Walks S.toLogic guard guard') {k k' : Option Nat → LowerM α}
    (next : ∀ skip?, (∀ pc ∈ skip?, n ≤ pc) → S.Does n leaves g (k skip?) (k' skip?)) :
    S.Does n leaves (guard.exp.weigh w * g) (emitSkip guard >>= k) (LuaBytecode.emitSkip guard' >>= k') := by
  have alike : Lowering.isTrue guard'.exp = Lowering.isTrue guard.exp := by
    rw [Exp.isTrue_eq, Exp.isTrue_eq, h.literal]
  unfold LuaBytecode.emitSkip
  rw [alike]
  split
  · rename_i always
    rw [Exp.isTrue_eq, decide_eq_true_eq] at always
    rw [Exp.weigh_of_literal (by rw [always]; rfl), one_mul]
    exact next none (fun _ => (Option.not_mem_none _).elim)
  · simp only [map_eq_pure_bind, bind_assoc, pure_bind]
    exact emitGuard h fun pc later => next (some pc) (by simpa using later)

def weighArms (w : Weights G) (guards : List ExpCode) (blocks : List Block) : G :=
  (List.zipWith (fun g b => g * w.scope false b) (guards.map (·.exp.weigh w)) (blocks.map (Block.weigh w))).prod

variable {guards guards' : List ExpCode} {blocks : List Block}

theorem emitArms (hg : List.Forall₂ (Walks S.toLogic) guards guards')
    (hb : ∀ b ∈ blocks, S.Does n false (Block.weigh w b) (Block.code b) (Block.code (Block.atLine 0 b)))
    {skip? : Option Nat} {ends : Array Nat} (skips : ∀ pc ∈ skip?, n ≤ pc) (leaving : ∀ pc ∈ ends, n ≤ pc)
    {k k' : Array Nat → LowerM α} (next : ∀ ends, (∀ pc ∈ ends, n ≤ pc) → S.Does n leaves 1 (k ends) (k' ends)) :
    S.Does n leaves (weighArms w guards blocks) (emitArms guards (blocks.map Block.code) skip? ends >>= k)
      (Lowering.emitArms guards' (blocks.map fun b => Block.code (Block.atLine 0 b)) skip? ends >>= k') := by
  induction hg generalizing blocks skip? ends with
  | nil => exact next ends leaving
  | @cons guard guard' guards guards' head tail ih =>
    cases blocks with
    | nil => exact next ends leaving
    | cons block blocks =>
      obtain ⟨first, others⟩ := List.forall_mem_cons.mp hb
      have lands : S.Does n false 1 (skip?.forM (Frame.patchHere ·) : LowerM Unit) (skip?.forM (Frame.patchHere ·)) := by
        cases skip? with
        | none => exact S.done ()
        | some pc => exact S.step (.patchHere (skips pc rfl))
      have arm : weighArms w (guard :: guards) (block :: blocks) =
          guard.exp.weigh w * (w.scope false (Block.weigh w block) * weighArms w guards blocks) := by
        simp [weighArms, mul_assoc]
      rw [List.map_cons, List.map_cons, emitArms_cons, emitArms_cons, isEmpty_of tail, arm]
      simp only [bind_assoc]
      refine S.before lands fun _ => emitSkip head fun skip? skips => S.next (inScope first) fun _ => ?_
      split
      · rename_i last
        rw [List.isEmpty_iff] at last
        subst last
        refine next _ ?_
        cases skip? with
        | none => exact leaving
        | some pc => simpa [or_imp, forall_and] using ⟨leaving, skips pc rfl⟩
      · rw [bind_assoc, bind_assoc]
        refine S.emit .jmp 0 0 fun leave later => ih others skips ?_
        simpa [or_imp, forall_and] using ⟨leaving, later⟩

theorem emitIf (hg : List.Forall₂ (Walks S.toLogic) guards guards')
    (hb : ∀ b ∈ blocks, S.Does n false (Block.weigh w b) (Block.code b) (Block.code (Block.atLine 0 b))) :
    S.Does n false (weighArms w guards blocks) (emitIf guards (blocks.map Block.code))
      (Lowering.emitIf guards' (blocks.map fun b => Block.code (Block.atLine 0 b))) := by
  refine emitArms hg hb (by simp) (by simp) fun ends later => ?_
  obtain ⟨ends⟩ := ends
  rw [Array.forM_eq_forM, List.forM_toArray]
  exact S.forM fun pc member => S.step (.patchHere (later pc (by simpa using member)))

theorem declare (names : List String) (startPc : Nat) :
    S.Does n false 1 (declare names startPc) (Lowering.declare names startPc) :=
  S.forM fun name _ => S.mild (.addLocal name startPc) fun _ => S.done ()

theorem emitLocals (h : List.Forall₂ (Walks S.toLogic) values values') (names : List String) :
    S.Does n false (weighAll w values) (emitLocals names values) (Lowering.emitLocals names values') :=
  S.after (S.ofHolds (S.scratch (loadTrimmed_holds h _))) fun _ => S.before S.pc fun start =>
    declare names start

theorem emitNumericFor {init init' limit limit' : ExpCode} {step? step?' : Option ExpCode}
    (hi : Walks S.toLogic init init') (hl : Walks S.toLogic limit limit')
    (hs : Option.Rel (Walks S.toLogic) step? step?') (hb : S.Does n false g body body') (var : String) :
    S.Does n false (w.scope true (init.exp.weigh w * (limit.exp.weigh w * step?.elim 1 (·.exp.weigh w)) * g))
      (emitNumericFor var init limit step? body) (Lowering.emitNumericFor var init' limit' step?' body') := by
  let one := ofConstant (.integer 1) (.integer 1)
  have step : Walks S.toLogic (step?.getD one) (step?'.getD one) := by
    cases hs with
    | none => exact ofConstant_walks rfl rfl
    | some h => exact h
  have parts : weighAll w [init, limit, step?.getD one] =
      init.exp.weigh w * (limit.exp.weigh w * step?.elim 1 (·.exp.weigh w)) := by
    have last : (step?.getD one).exp.weigh w = step?.elim 1 (·.exp.weigh w) := by cases step? <;> rfl
    rw [weighAll_cons, weighAll_cons, weighAll_cons, weighAll_nil, mul_one, last]
  rw [← parts]
  refine S.scope true (S.next (emitLocals (.cons hi (.cons hl (.cons step .nil))) _) fun _ => ?_)
  refine S.before S.pc fun start => S.mild (.addLocal var _) fun _ => ?_
  refine S.before (S.ofHolds S.used) fun top => S.mild (.ofModest (.difference _ _)) fun a => ?_
  refine S.emit _ _ _ fun prep later => S.after hb fun _ => S.mild .closeCaptured fun _ => S.emit _ _ _ fun loop last => ?_
  exact S.mild (.patch later loop) fun _ => S.mild (.patch last _) fun _ => S.exit

theorem emitGenericFor (h : List.Forall₂ (Walks S.toLogic) values values') (hb : S.Does n false g body body')
    (names : List String) : S.Does n false (w.scope true (weighAll w values * g)) (emitGenericFor names values body)
      (Lowering.emitGenericFor names values' body') := by
  refine S.scope true (S.next (emitLocals h _) fun _ => S.before S.pc fun start => ?_)
  refine S.before (declare names _) fun _ => S.before (S.ofHolds S.used) fun top => ?_
  refine S.mild (.ofModest (.difference _ _)) fun a => S.emit .jmp 0 0 fun toCall later => S.after hb fun _ => ?_
  refine S.mild .closeCaptured fun _ => S.mild (.patchHere later) fun _ => S.mild (.emit _) fun _ => ?_
  exact S.emit _ _ _ fun loop last => S.mild (.patch last _) fun _ => S.exit

theorem emitLocalFunction (fn : FunctionDef) (hb : ∀ n, S.Does n false g (Block.code fn.body) body') (name : String) :
    S.Does n false (w.function fn g) (emitLocalFunction name fn.params fn.isVararg (Block.code fn.body))
      (Lowering.emitLocalFunction name fn.params fn.isVararg body') :=
  S.before S.pc fun _ => S.mild (.addLocal name _) fun r => S.ofHolds (S.function fn r hb)

end Statements

end StatLogic

end LuaBytecode
