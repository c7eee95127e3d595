import LuaBytecode.Proofs.Frame.Order
import LuaBytecode.Proofs.Frame.Slots
import LuaBytecode.Proofs.Lowering.Reaches
import LuaBytecode.Proofs.Monitor.Expressions
import LuaBytecode.Proofs.Regular.Statements

namespace LuaBytecode

open Lowering

variable {α β : Type} {tight : Prop} {isLoop : Bool} {p q r : Nat} {s t u : Lowering} {w : Monitor}

namespace Lowering

/-- Between statements: variables are in registers in use. If registers are a stack, no others are in use. -/
structure Ordered (tight : Prop) (s : Lowering) : Prop where
  stacked : s.Stacked s.frame.used
  opened : 0 < s.frame.depth
  room : s.frame.used ≤ s.frame.peak
  balanced : tight → s.frame.used = s.frame.live.length

/-- What happens in a scope: variables may be declared, each in a register of its own. Those that are declared next
    start at `p` before and at `q` after. -/
structure Declares (tight : Prop) (p q : Nat) (s t : Lowering) : Prop where
  ordered : t.Ordered tight
  depth : t.frame.depth = s.frame.depth
  locals : s.frame.locals.size ≤ t.frame.locals.size
  live : ∃ new old, t.frame.live = new ++ old ∧ RemainAll s.frame.live old ∧ (∀ b ∈ new, s.frame.depth ≤ b.depth) ∧
    s.frame.used + new.length ≤ t.frame.used
  around : List.Forall₂ Frame.Touched s.enclosing t.enclosing
  slotted : s.frame.SlottedAt tight p → t.frame.SlottedAt tight q

abbrev Proceeds (tight : Prop) (s t : Lowering) : Prop := Declares tight s.frame.pc t.frame.pc s t

theorem Rests.ordered {slack : Nat} {pending : List Nat} (rests : s.Rests slack pending) : s.Ordered tight where
  stacked :=
    { layered := rests.balanced ▸ rests.frame.recorded.stack.layered
      chain := rests.chain
      nested := rests.nested }
  opened := List.length_pos_iff.mpr rests.opened
  room := rests.used_le
  balanced _ := rests.balanced

theorem Ordered.stack (h : s.Ordered tight) (holds : tight) : Stack s.frame.depth s.frame.locals.size s.frame.live := by
  have layered := h.stacked.layered
  rw [h.balanced holds] at layered
  exact layered.stack

theorem Ordered.enter (h : s.Ordered tight) (isLoop : Bool) : (s.enter isLoop).Ordered tight where
  stacked :=
    { layered := h.stacked.layered.mono (Nat.le_succ _) Nat.le.refl Nat.le.refl
      chain := h.stacked.chain.marked (.refl _) rfl
      nested := h.stacked.nested }
  opened := Nat.succ_pos _
  room := h.room
  balanced := h.balanced

namespace Declares

theorem refl (h : s.Ordered tight) : Declares tight p p s s :=
  ⟨h, rfl, Nat.le.refl, ⟨[], s.frame.live, rfl, .refl _, List.forall_mem_nil _, Nat.le.refl⟩, touched_refl _,
    id⟩

theorem trans (first : Declares tight p q s t) (second : Declares tight q r t u) : Declares tight p r s u where
  ordered := second.ordered
  depth := second.depth.trans first.depth
  locals := Nat.le_trans first.locals second.locals
  live := by
    obtain ⟨new, old, shape, same, deep, more⟩ := first.live
    obtain ⟨new', _, shape', same', deep', more'⟩ := second.live
    rw [shape] at same'
    obtain ⟨mid, old', rfl, middle, last⟩ := forall₂_split same'
    refine ⟨new' ++ mid, old', by rw [shape', List.append_assoc], same.trans last, fun b member => ?_, ?_⟩
    · rcases List.mem_append.mp member with member | member
      · exact first.depth ▸ deep' b member
      · obtain ⟨c, member', same⟩ := RemainAll.backward middle member
        rw [same.depth]
        exact deep c member'
    · rw [List.length_append, ← middle.length_eq]
      omega
  around := touched_trans first.around second.around
  slotted slotted := second.slotted (first.slotted slotted)

theorem ofRetains (ordered : s.Ordered tight) (retains : Retains s t) (leaks : Leaks tight s.frame.used t.frame.used)
    (later : p ≤ q) : Declares tight p q s t where
  ordered :=
    { stacked := (retains.stacked ordered.stacked).mono leaks.le
      opened := retains.depth ▸ ordered.opened
      room := retains.room ordered.room
      balanced := fun holds => by rw [leaks.eq holds, ordered.balanced holds, retains.live.length_eq] }
  depth := retains.depth
  locals := Nat.le_of_eq (congrArg Array.size retains.locals.symm)
  live := ⟨[], t.frame.live, rfl, retains.live, List.forall_mem_nil _, leaks.le⟩
  around := retains.around
  slotted slotted := by
    rw [Frame.SlottedAt, retains.locals, retains.slots]
    exact (slotted.later ordered.stacked.layered ordered.stack later).marked retains.live

theorem withLocal (ordered : s.Ordered tight) (name : String) :
    Declares tight p p s ⟨s.frame.withLocal name p, s.enclosing⟩ where
  ordered :=
    { stacked :=
        { layered := by
            have size : (s.frame.withLocal name p).locals.size = s.frame.locals.size + 1 := Array.size_push ..
            rw [size]
            exact ordered.stacked.layered.cons rfl rfl rfl
          chain := ordered.stacked.chain.withFrame ordered.stacked.nested rfl
          nested := ordered.stacked.nested }
      opened := ordered.opened
      room := Nat.le_max_right ..
      balanced := fun holds => congrArg (· + 1) (ordered.balanced holds) }
  depth := rfl
  locals := by
    rw [show (s.frame.withLocal name p).locals.size = s.frame.locals.size + 1 from Array.size_push ..]
    exact Nat.le_succ _
  live := ⟨[_], s.frame.live, rfl, .refl _, fun b member => List.mem_singleton.mp member ▸ Nat.le.refl, Nat.le.refl⟩
  around := touched_refl _
  slotted slotted :=
    slotted.declare (b := ⟨name, s.frame.depth, s.frame.used, false, s.frame.locals.size⟩) rfl name

theorem exit [NameOrder] (ordered : s.Ordered tight) (inside : Proceeds tight (s.enter isLoop) t) {v : Unit} {f : Frame}
    (run : Frame.exitScope t.frame = .ok v f) : Proceeds tight s ⟨f, t.enclosing⟩ := by
  have within := inside.ordered
  have deeper : t.frame.depth = s.frame.depth + 1 := inside.depth
  obtain ⟨ended, used, _⟩ := Frame.exitScope_ends within.opened within.stacked.layered run
  obtain ⟨new, old, shape, same, deep, more⟩ := inside.live
  have outside : ∀ b ∈ old, b.depth < t.frame.depth := by
    intro b member
    obtain ⟨c, member', same⟩ := same.backward member
    have := (ordered.stacked.layered.inside c member').1
    rw [same.depth, deeper]
    omega
  have live : f.live = old := by
    rw [ended, Frame.outside, shape, List.filter_append, List.filter_eq_nil_iff.mpr, List.nil_append,
      List.filter_eq_self.mpr]
    · exact fun b member => decide_eq_true (outside b member)
    · intro b member
      have below : s.frame.depth + 1 ≤ b.depth := deep b member
      simp only [decide_eq_true_eq]
      omega
  rw [live, shape, List.length_append] at used
  have more : s.frame.used + new.length ≤ t.frame.used := more
  have above : s.frame.used ≤ f.used := by omega
  have shallow : f.depth = s.frame.depth := by
    have depth : f.depth + 1 = t.frame.depth := by
      rw [ended]
      exact List.length_tail_add_one _ within.opened
    omega
  have size : s.frame.locals.size ≤ f.locals.size := by
    rw [ended, Frame.outside, Frame.endLocals_size]
    exact inside.locals
  refine ⟨⟨⟨?_, ?_, within.stacked.nested⟩, ?_, ?_, fun holds => ?_⟩, shallow, size, ?_, inside.around,
    fun slotted => ?_⟩
  · show Layered f.depth f.locals.size f.used f.live
    rw [live, shallow]
    exact (ordered.stacked.layered.marked same).mono Nat.le.refl size above
  · exact within.stacked.chain.withFrame within.stacked.nested (by rw [ended])
  · show 0 < f.depth
    rw [shallow]
    exact ordered.opened
  · show f.used ≤ f.peak
    have := within.room
    have peak : f.peak = t.frame.peak := by rw [ended]
    omega
  · show f.used = f.live.length
    have balanced := within.balanced holds
    rw [shape, List.length_append] at balanced
    rw [live]
    omega
  · exact ⟨[], old, live, same, List.forall_mem_nil _, above⟩
  · exact Frame.exitScope_slotted within.opened within.stacked.layered run (inside.slotted slotted)

theorem finished [NameOrder] {count line : Nat} {path : List Nat} {isVararg : Bool} {v : Unit} {w : Lowering}
    (h : Proceeds tight s t) (new : s.frame = Frame.new count isVararg line path)
    (left : (Frame.exitScope : LowerM Unit) t = .ok v u) (returned : (Frame.emitReturn 0 0 : LowerM Nat) u = .ok p w) :
    w.frame.OrdersRegisters ∧ (tight → w.frame.TellsRegisters) := by
  have slotted : s.frame.SlottedAt tight s.frame.pc := by
    rw [new]
    exact .empty
  obtain ⟨f, run, rfl⟩ := lift_ok left
  have final := Frame.exitScope_slotted h.ordered.opened h.ordered.stacked.layered run (h.slotted slotted)
  have none : f.live = [] := by
    obtain ⟨ended, _⟩ := Frame.exitScope_ends h.ordered.opened h.ordered.stacked.layered run
    obtain ⟨new', old, shape, same, deep, _⟩ := h.live
    rw [new] at same
    cases same
    rw [ended, Frame.outside, shape, List.append_nil, List.filter_eq_nil_iff]
    intro b member
    rw [h.depth, decide_eq_true_eq]
    exact Nat.not_lt.mpr (deep b member)
  obtain ⟨g, emitted, rfl⟩ := lift_ok returned
  obtain ⟨i, _, _, rfl⟩ := Frame.emit_ok (show Frame.emit (Instruction.abc .ret 0 1 0) f = _ from emitted)
  rw [Frame.SlottedAt, none] at final
  refine Slotted.finished (f := f.push i) final ?_
  rw [← Frame.pc, Frame.push_pc]
  exact Nat.lt_succ_self _

end Declares

end Lowering

def Begins (tight : Prop) (p : Nat) (m : LowerM α) : Prop :=
  ∀ ⦃s⦄, s.Ordered tight → Agrees m m s fun _ t => Declares tight p p s t ∧ t.frame.pc = s.frame.pc

def KeepsOrder (tight : Prop) (m m' : LowerM α) : Prop :=
  ∀ ⦃s⦄, s.Ordered tight → Agrees m m' s fun _ t => Proceeds tight s t

def Leaves (tight : Prop) (isLoop : Bool) (s : Lowering) (m m' : LowerM α) : Prop :=
  ∀ ⦃t⦄, Proceeds tight (s.enter isLoop) t → Agrees m m' t fun _ u => Proceeds tight s u

section Rules

variable {m m' : LowerM α} {f f' : α → LowerM β}

namespace Begins

theorem addLocal (name : String) : Begins tight p (Frame.addLocal name p : LowerM Nat) := by
  intro s ordered
  refine .lift fun r f run => ?_
  obtain ⟨_, _, rfl⟩ := Frame.addLocal_ok run
  exact ⟨.withLocal ordered name, rfl⟩

theorem declare (names : List String) : Begins tight p (Lowering.declare names p) := by
  induction names with
  | nil => exact fun s ordered => .pure ⟨.refl ordered, rfl⟩
  | cons name rest ih =>
    intro s ordered
    refine .bind (.bind ((addLocal name ordered).weaken ?_))
    rintro _ t ⟨first, pc⟩
    refine .pure ((ih first.ordered).weaken ?_)
    rintro _ u ⟨others, pc'⟩
    exact ⟨first.trans others, pc'.trans pc⟩

theorem proceeds (h : Begins tight s.frame.pc m) (ordered : s.Ordered tight) :
    Agrees m m s fun _ t => Proceeds tight s t := by
  refine (h ordered).weaken ?_
  rintro _ t ⟨declares, pc⟩
  rw [Proceeds, pc]
  exact declares

end Begins

namespace Leaves

theorem after (first : KeepsOrder tight m m') (next : ∀ a, Leaves tight isLoop s (f a) (f' a)) :
    Leaves tight isLoop s (m >>= f) (m' >>= f') := by
  intro t inside
  refine .bind ((first inside.ordered).weaken ?_)
  exact fun a u proceeds => next a (inside.trans proceeds)

theorem andThen (h : Leaves tight isLoop s m m') (next : ∀ a, KeepsOrder tight (f a) (f' a)) :
    Leaves tight isLoop s (m >>= f) (m' >>= f') := by
  intro t inside
  refine .bind ((h inside).weaken fun a u proceeds => ?_)
  exact (next a proceeds.ordered).weaken fun _ _ proceeds' => proceeds.trans proceeds'

theorem exit {E : NameOrder} [D : NameOrder] (ordered : s.Ordered tight) :
    Leaves tight isLoop s (liftM Frame.exitScope : LowerM Unit) (liftM (@Frame.exitScope E)) := by
  refine fun t inside => ⟨.lift (Frame.exitScope_sameResult D E inside.ordered.stacked.layered), fun _ u run => ?_⟩
  obtain ⟨f, inner, rfl⟩ := lift_ok run
  exact inside.exit ordered inner

theorem ahead {γ : Type} {declare : Nat → LowerM γ} {e : Nat → Except OperandError Instruction} {n : Nat}
    {f f' : Nat → Nat → LowerM β} (begins : ∀ p, Begins tight p (declare p))
    (next : ∀ a pc, Leaves tight isLoop s (f a pc) (f' a pc)) :
    Leaves tight isLoop s
      (do let start ← pc; let _ ← declare (start + 1); let top ← used; let a ← Frame.difference top n
          let pc ← Frame.emit (e a); f a pc)
      (do let start ← pc; let _ ← declare (start + 1); let top ← used; let a ← Frame.difference top n
          let pc ← Frame.emit (e a); f' a pc) := by
  intro t inside
  refine .bind (.self fun start _ read => ?_)
  obtain ⟨rfl, rfl⟩ := pc_ok read
  refine .bind ((begins _ inside.ordered).weaken ?_)
  rintro _ u ⟨declares, pc⟩
  refine .bind (.self fun top _ read => ?_)
  obtain ⟨rfl, rfl⟩ := used_ok read
  refine .bind (.lift fun a g run => ?_)
  obtain ⟨_, _, rfl⟩ := Frame.difference_ok run
  refine .bind (.lift fun place h run => ?_)
  obtain ⟨i, _, _, rfl⟩ := Frame.emit_ok run
  refine next a place ((inside.trans ?_).trans (declares.trans ?_))
  · exact .ofRetains inside.ordered (.refl inside.ordered.stacked.chain) (.refl _) (Nat.le_succ _)
  · refine .ofRetains declares.ordered (.ofFrame declares.ordered.stacked.chain (.push _ i)) (.refl _) ?_
    rw [Frame.push_pc, pc]

end Leaves

namespace KeepsOrder

theorem bind (first : KeepsOrder tight m m') (next : ∀ a, KeepsOrder tight (f a) (f' a)) :
    KeepsOrder tight (m >>= f) (m' >>= f') := by
  intro s ordered
  refine .bind ((first ordered).weaken fun a t proceeds => ?_)
  exact (next a proceeds.ordered).weaken fun _ _ proceeds' => proceeds.trans proceeds'

theorem pure (a : α) : KeepsOrder tight (Pure.pure a) (Pure.pure a) := fun _ ordered => .pure (.refl ordered)

theorem throw (e : CodeError) : KeepsOrder tight (MonadExcept.throw e : LowerM α) (MonadExcept.throw e) := by
  refine fun s _ => .self fun a t run => ?_
  cases run

theorem get : KeepsOrder tight (MonadState.get : LowerM Lowering) MonadState.get :=
  fun _ ordered => .get (.refl ordered)

theorem map {g : α → β} (h : KeepsOrder tight m m') : KeepsOrder tight (g <$> m) (g <$> m') :=
  fun _ ordered => .map (h ordered)

theorem ofTracksAt (h : ∀ k, TracksAt k k m m' fun _ => Leaks tight k) : KeepsOrder tight m m' :=
  fun s ordered => (h s.frame.used ordered.stacked rfl).weaken fun _ _ after => .ofRetains ordered after.1 after.2 after.1.pc

theorem lift {m : FrameM α} (h : Frame.Plain m Eq) : KeepsOrder tight (liftM m : LowerM α) (liftM m) :=
  .ofTracksAt fun _ => .leaks ((TracksAt.lift h).weaken fun _ _ => Eq.symm)

theorem scratch (h : ∀ k, TracksAt k k m m' fun _ v => k ≤ v) :
    KeepsOrder tight (Lowering.scratch m) (Lowering.scratch m') :=
  .ofTracksAt fun k => .leaks (.scratch (h k))

theorem pc : KeepsOrder tight Lowering.pc Lowering.pc := get.bind fun _ => pure _

theorem forM {γ : Type} {m m' : γ → LowerM Unit} (h : ∀ x, KeepsOrder tight (m x) (m' x)) (xs : List γ) :
    KeepsOrder tight (xs.forM m) (xs.forM m') := by
  induction xs with
  | nil => exact pure ()
  | cons x rest ih => exact (h x).bind fun _ => ih

theorem declare (names : List String) :
    KeepsOrder tight (Lowering.pc >>= Lowering.declare names) (Lowering.pc >>= Lowering.declare names) := by
  intro s ordered
  refine .bind (.self fun start t read => ?_)
  obtain ⟨rfl, rfl⟩ := pc_ok read
  exact (Begins.declare names).proceeds ordered

theorem enter {f f' : Unit → LowerM β} (h : ∀ s, s.Ordered tight → Leaves tight isLoop s (f ()) (f' ())) :
    KeepsOrder tight (liftM (Frame.enterScope isLoop) >>= f) (liftM (Frame.enterScope isLoop) >>= f') := by
  intro s ordered
  refine .bind (.lift fun _ g run => ?_)
  cases Frame.enterScope_ok run
  exact h s ordered (.refl (ordered.enter isLoop))

end KeepsOrder

end Rules

def ExpCode.MirrorsAll (tight : Prop) (e e' : ExpCode) : Prop := ∀ k, e.Mirrors tight k e'

section Statements

variable {guard guard' : ExpCode} {es es' : List ExpCode} {body body' : LowerM Unit}

theorem mirrors_at (h : List.Forall₂ (ExpCode.MirrorsAll tight) es es') (k : Nat) :
    List.Forall₂ (ExpCode.Mirrors tight k) es es' := h.imp fun _ _ mirrors => mirrors k

theorem trimNils_mirror (h : List.Forall₂ (ExpCode.MirrorsAll tight) es es') (k : Nat) :
    List.Forall₂ (ExpCode.Mirrors tight k) (ExpCode.trimNils es) (ExpCode.trimNils es') :=
  ExpCode.trimNils_of (fun _ _ h => h.isMulti) (fun _ _ h => h.isNil) (mirrors_at h k)

theorem toRegister_keeps (hg : guard.MirrorsAll tight guard') :
    KeepsOrder tight (scratch guard.toRegister) (scratch guard'.toRegister) :=
  .scratch fun k => (hg k).toRegister (Nat.le_refl k)

theorem emitGuard_keeps (hg : guard.MirrorsAll tight guard') : KeepsOrder tight (emitGuard guard) (emitGuard guard') :=
  (toRegister_keeps hg).bind fun _ => (KeepsOrder.lift .emit).bind fun _ => .lift .emitJmp

theorem emitSkip_keeps (hg : guard.MirrorsAll tight guard') : KeepsOrder tight (emitSkip guard) (emitSkip guard') := by
  unfold emitSkip
  rw [(hg 0).exp]
  split
  · exact .pure _
  · exact .map (emitGuard_keeps hg)

theorem emitLocals_keeps (names : List String) (h : List.Forall₂ (ExpCode.MirrorsAll tight) es es') :
    KeepsOrder tight (emitLocals names es) (emitLocals names es') := by
  refine (KeepsOrder.scratch fun k => ?_).bind fun _ => .declare names
  exact ExpCode.mirrors_loadValues (trimNils_mirror h k) (Nat.le_refl k) names.length

theorem emitCallStatement_keeps (allows : ExpCode.AllowsSlots tight w) {callee callee' : ExpCode}
    (hc : callee.MirrorsAll tight callee') (h : List.Forall₂ (ExpCode.MirrorsAll tight) es es') (isMethod : Bool) :
    KeepsOrder tight (emitCallStatement callee es isMethod) (emitMonitoredCall w callee' es' isMethod) := by
  refine .ofTracksAt fun k => TracksAt.alloc.bind ?_
  rintro r _ ⟨rfl, rfl⟩
  refine (ExpCode.mirrors_emitCall allows (hc r) (mirrors_at h r) isMethod (Nat.le_refl r) 0).bind fun _ v leaks => ?_
  refine (TracksAt.lift .free).weaken fun _ u (freed : v = u + 1) => ?_
  subst freed
  exact leaks.of_add

theorem resolveTargets_mirror {k u : Nat} (h : List.Forall₂ (ExpCode.Mirrors tight k) es es') (resolved : Array Target)
    (room : k ≤ u) : TracksAt k u (resolveTargets es resolved) (resolveTargets es' resolved) fun _ v => u ≤ v := by
  induction h generalizing resolved u with
  | nil => exact .pure (Nat.le_refl u)
  | cons head _ ih =>
    refine (head.target u room).bind fun target v above => ?_
    exact (ih _ (by omega)).weaken fun _ _ above' => by omega

theorem emitStores_mirror {k u : Nat} (v : Nat) (targets : List Target) :
    TracksAt k u (emitStores v targets) (emitStores v targets) fun _ w => w = u := by
  induction targets generalizing v with
  | nil => exact .pure rfl
  | cons target rest ih =>
    refine TracksAt.emitStore.bind ?_
    rintro _ _ rfl
    exact ih (v + 1)

theorem emitAssign_keeps {values values' : List ExpCode} (ht : List.Forall₂ (ExpCode.MirrorsAll tight) es es')
    (hv : List.Forall₂ (ExpCode.MirrorsAll tight) values values') :
    KeepsOrder tight (emitAssign es values) (emitAssign es' values') := by
  refine .scratch fun k => ?_
  refine (resolveTargets_mirror (mirrors_at ht k) #[] (Nat.le_refl k)).bind fun targets u above => ?_
  refine TracksAt.used.bind ?_
  rintro first _ ⟨_, rfl⟩
  refine (ExpCode.mirrors_loadValues (trimNils_mirror hv k) above _).bind fun _ v above' => ?_
  exact (emitStores_mirror first _).weaken fun _ _ same => by omega

theorem emitReturnValues_mirror {k : Nat} (h : List.Forall₂ (ExpCode.Mirrors tight k) es es') :
    TracksAt k k (emitReturnValues es) (emitReturnValues es') fun _ => Leaks tight k := by
  unfold emitReturnValues
  have load := ExpCode.mirrors_loadOpen (w := .idle) (fun _ _ _ _ => rfl) h (fun _ => rfl) (Nat.le_refl k)
  rw [ExpCode.inSlots_idle] at load
  rw [ExpCode.countOf_of (fun _ _ h => h.isMulti) h, ← h.length_eq]
  refine load.bind fun _ v leaks => (TracksAt.lift .freeN).bind fun _ u (freed : v = u + _) => ?_
  subst freed
  refine TracksAt.used.bind ?_
  rintro _ _ ⟨_, rfl⟩
  exact TracksAt.emit.weaken fun _ _ same => same ▸ leaks.of_add

theorem emitReturn_keeps (h : List.Forall₂ (ExpCode.MirrorsAll tight) es es') :
    KeepsOrder tight (emitReturn es) (emitReturn es') := by
  refine .ofTracksAt fun k => ?_
  have whole := emitReturnValues_mirror (mirrors_at h k)
  have returns : ∀ u r n, TracksAt k u (do let _ ← Frame.emitReturn r n) (do let _ ← Frame.emitReturn r n)
      fun _ v => v = u := fun _ _ _ => .emit
  cases h with
  | nil => exact .leaks (returns _ _ _)
  | @cons value value' rest _ head tail =>
    cases tail with
    | cons => exact whole
    | nil =>
      refine ((head k).register? k).bind ?_
      rintro r? k rfl
      cases r? with
      | some r => exact .leaks (returns _ _ _)
      | none =>
        have prepares := (head k).prepare?
        revert prepares whole
        generalize value.prepare? = prepare?, value'.prepare? = prepare?'
        intro whole prepares
        cases prepares with
        | none => exact whole
        | some prepare =>
          refine TracksAt.alloc.bind ?_
          rintro r _ ⟨rfl, rfl⟩
          refine (prepare r (Nat.le_refl r)).bind fun count v leaks => ?_
          refine (TracksAt.lift .emit).bind ?_
          rintro _ _ rfl
          refine (TracksAt.lift .free).bind fun _ u (freed : v = u + 1) => ?_
          subst freed
          exact (returns _ _ _).weaken fun _ _ same => same ▸ leaks.of_add

section Scopes

variable {E : NameOrder} [D : NameOrder] {guards guards' : List ExpCode} {bodies bodies' : List (LowerM Unit)}

theorem closeCaptured_keeps :
    KeepsOrder tight (liftM Frame.closeCaptured : LowerM Unit) (liftM (@Frame.closeCaptured E)) := by
  rw [Frame.closeCaptured_order E D]
  exact .lift .closeCaptured

theorem inScope_keeps (hb : KeepsOrder tight body body') : KeepsOrder tight (inScope body) (@inScope E body') :=
  .enter fun _ ordered => .after hb fun _ => .after closeCaptured_keeps fun _ => .exit ordered

theorem emitWhile_keeps (hg : guard.MirrorsAll tight guard') (hb : KeepsOrder tight body body') :
    KeepsOrder tight (emitWhile guard body) (@emitWhile E guard' body') := by
  refine KeepsOrder.pc.bind fun start => (emitGuard_keeps hg).bind fun leave => .enter fun _ ordered => ?_
  refine .after hb fun _ => .after closeCaptured_keeps fun _ => .after .pc fun back => .after (.lift .emitJmp) fun _ => ?_
  exact (Leaves.exit ordered).andThen fun _ => .lift .patchHere

theorem emitRepeat_keeps (hb : KeepsOrder tight body body') (hg : guard.MirrorsAll tight guard') :
    KeepsOrder tight (emitRepeat body guard) (@emitRepeat E body' guard') := by
  unfold emitRepeat
  rw [Frame.scopeLevel_order E D]
  refine .enter fun _ ordered => .after .pc fun start => .after hb fun _ => .after (toRegister_keeps hg) fun a => ?_
  refine .after (.lift .emit) fun _ => .after .get fun _ => .after .pc fun back => .after (.lift .emitJmp) fun _ => ?_
  exact .after closeCaptured_keeps fun _ => .exit ordered

theorem emitArms_keeps (hg : List.Forall₂ (ExpCode.MirrorsAll tight) guards guards')
    (hb : List.Forall₂ (KeepsOrder tight) bodies bodies') (skip? : Option Nat) (ends : Array Nat) :
    KeepsOrder tight (emitArms guards bodies skip? ends) (@emitArms E guards' bodies' skip? ends) := by
  induction hg generalizing bodies bodies' skip? ends with
  | nil =>
    unfold emitArms
    exact .pure _
  | @cons guard guard' guards guards' head tail ih =>
    cases hb with
    | nil =>
      unfold emitArms
      exact .pure _
    | @cons body body' bodies bodies' first rest =>
      have patch : KeepsOrder tight (skip?.forM (Frame.patchHere ·) : LowerM Unit) (skip?.forM (Frame.patchHere ·)) := by
        cases skip? with
        | none => exact .pure ()
        | some pc => exact .lift .patchHere
      rw [emitArms_cons, @emitArms_cons E, ExpCode.isEmpty_of tail]
      refine patch.bind fun _ => (emitSkip_keeps head).bind fun skip?' => (inScope_keeps first).bind fun _ => ?_
      split
      · exact .pure _
      · exact (KeepsOrder.lift .emitJmp).bind fun leave => ih rest _ _

theorem emitIf_keeps (hg : List.Forall₂ (ExpCode.MirrorsAll tight) guards guards')
    (hb : List.Forall₂ (KeepsOrder tight) bodies bodies') :
    KeepsOrder tight (emitIf guards bodies) (@emitIf E guards' bodies') := by
  refine (emitArms_keeps hg hb none #[]).bind fun ends => ?_
  obtain ⟨pcs⟩ := ends
  rw [Array.forM_eq_forM, List.forM_toArray]
  exact .forM (fun pc => .lift .patchHere) pcs

theorem emitNumericFor_keeps {init init' limit limit' : ExpCode} {step? step?' : Option ExpCode}
    (hi : init.MirrorsAll tight init') (hl : limit.MirrorsAll tight limit')
    (hs : Option.Rel (ExpCode.MirrorsAll tight) step? step?') (hb : KeepsOrder tight body body') (var : String) :
    KeepsOrder tight (emitNumericFor var init limit step? body) (@emitNumericFor E var init' limit' step?' body') := by
  have values : List.Forall₂ (ExpCode.MirrorsAll tight) [init, limit, step?.getD (.ofConstant (.integer 1) (.integer 1))]
      [init', limit', step?'.getD (.ofConstant (.integer 1) (.integer 1))] := by
    refine .cons hi (.cons hl (.cons ?_ .nil))
    cases hs with
    | none => exact fun _ => ExpCode.mirrors_constant _ _
    | some mirrors => exact mirrors
  refine .enter fun _ ordered => .after (emitLocals_keeps _ values) fun _ => ?_
  refine .ahead (fun _ => .addLocal var) fun a prep => .after hb fun _ => .after closeCaptured_keeps fun _ => ?_
  refine .after (.lift .emit) fun loop => .after (.lift .patch) fun _ => .after (.lift .patch) fun _ => ?_
  exact .exit ordered

theorem emitGenericFor_keeps (h : List.Forall₂ (ExpCode.MirrorsAll tight) es es') (hb : KeepsOrder tight body body')
    (names : List String) : KeepsOrder tight (emitGenericFor names es body) (@emitGenericFor E names es' body') := by
  refine .enter fun _ ordered => .after (emitLocals_keeps _ h) fun _ => ?_
  refine .ahead (e := fun _ => Instruction.asbx .jmp 0 0) (fun _ => .declare names) fun a toCall => ?_
  refine .after hb fun _ => .after closeCaptured_keeps fun _ => ?_
  refine .after (.lift .patchHere) fun _ => .after (.lift .emit) fun _ => .after (.lift .emit) fun loop => ?_
  exact .after (.lift .patch) fun _ => .exit ordered

theorem emitBreak_keeps : KeepsOrder tight emitBreak (@emitBreak E) := by
  unfold emitBreak
  rw [Frame.addBreak_order E D]
  exact (KeepsOrder.lift .emitJmp).bind fun _ => .lift .addBreak

theorem emitFunction_retains {start finish : Lowering} {a : Nat} {r : Unit}
    (around : List.Forall₂ Frame.Touched (s.frame :: s.enclosing) start.enclosing) (proceeds : Proceeds tight start finish)
    (run : (do
      Frame.exitScope
      let _ ← Frame.emitReturn 0 0
      let child ← ExpCode.leaveFunction s.frame.line
      let index ← Frame.addFunction (child.toPrototype none)
      let _ ← Frame.emitAbx .closure a index : LowerM Unit) finish = .ok r t) :
    Retains s t ∧ t.frame.used = s.frame.used ∧ s.frame.pc < t.frame.pc := by
  obtain ⟨_, f, _, run⟩ := bind_lift_ok run
  obtain ⟨_, g, _, run⟩ := bind_lift_ok run
  have chain := proceeds.ordered.stacked.chain
  obtain ⟨parent, outer, touched, rest, shape⟩ := List.forall₂_cons_left_iff.mp (touched_trans around proceeds.around)
  rw [shape] at chain run
  obtain ⟨_, _, leave, run⟩ := bind_ok run
  cases leave
  obtain ⟨_, _, grown, run⟩ := bind_lift_ok run
  obtain ⟨_, rfl⟩ := Frame.addFunction_ok grown
  obtain ⟨_, made, _⟩ := bind_pure_ok run
  obtain ⟨_, emitted, rfl⟩ := lift_ok made
  obtain ⟨j, _, _, rfl⟩ := Frame.emitAbx_ok emitted
  have same : parent.used = s.frame.used ∧ parent.peak = s.frame.peak ∧ parent.depth = s.frame.depth ∧
      parent.locals = s.frame.locals ∧ parent.slots = s.frame.slots ∧ parent.pc = s.frame.pc := by
    rw [touched.same]
    exact ⟨rfl, rfl, rfl, rfl, rfl, rfl⟩
  obtain ⟨used, peak, depth, locals, slots, pc⟩ := same
  have more : s.frame.pc < (parent.push j).pc := by
    rw [← pc, Frame.push_pc]
    exact Nat.lt_succ_self _
  refine ⟨⟨touched.live, touched.upvalues, depth, locals, slots, Nat.le_of_eq peak.symm, fun fits => ?_,
    Nat.le_of_lt more, chain.2.marked (.refl _) rfl, rest⟩, used, more⟩
  show parent.used ≤ parent.peak
  rwa [used, peak]

/-- The monitor lets a finished function pass whose records order registers, and tell them if registers are a stack. -/
def AllowsFinish (tight : Prop) (w : Monitor) : Prop :=
  ∀ ⦃s⦄, s.frame.OrdersRegisters ∧ (tight → s.frame.TellsRegisters) → w.finish s = .ok () s

theorem emitFunction_agrees (allows : AllowsFinish tight w) (hb : KeepsOrder tight body body') (params : List String)
    (isVararg : Bool) (a : Nat) {k : Nat} (stacked : s.Stacked k) :
    Agrees (ExpCode.emitFunction params isVararg body a) (@ExpCode.emitMonitoredFunction E w params isVararg body' a) s
      fun _ t => Retains s t ∧ t.frame.used = s.frame.used ∧ s.frame.pc < t.frame.pc := by
  let start := s.nest params.length isVararg
  have ordered : start.Ordered tight :=
    (ExpCode.newFunction_rests 0 stacked.chain stacked.records.1 params.length isVararg).ordered
  have enter : Agrees (ExpCode.enterFunction params isVararg) (ExpCode.enterFunction params isVararg) s
      fun _ t => Proceeds tight start t := by
    refine .bind (.self fun _ _ run => ?_)
    cases run
    exact (Begins.declare (p := start.frame.pc) params).proceeds ordered
  refine .bind (.get (.bind (enter.weaken fun _ t entered => ?_)))
  refine .bind ((hb entered.ordered).weaken fun _ finish proceeds => ⟨?_, fun r u run => ?_⟩)
  · have whole := entered.trans proceeds
    refine .bind (.lift (Frame.exitScope_sameResult D E proceeds.ordered.stacked.layered)) fun _ v left => ?_
    refine .bind (.refl _) fun _ x returned => ?_
    rw [bind_run (allows (whole.finished rfl left returned))]
    exact .refl _
  · exact emitFunction_retains (touched_refl _) (entered.trans proceeds) run

theorem mirrors_emitFunction (allows : AllowsFinish tight w) (hb : KeepsOrder tight body body') (params : List String)
    (isVararg : Bool) {k u : Nat} (a : Nat) :
    TracksAt k u (ExpCode.emitFunction params isVararg body a) (@ExpCode.emitMonitoredFunction E w params isVararg body' a)
      fun _ v => v = u := by
  rintro s stacked rfl
  exact (emitFunction_agrees allows hb params isVararg a stacked).weaken fun _ _ after => ⟨after.1, after.2.1⟩

theorem emitLocalFunction_keeps (allows : AllowsFinish tight w) (hb : KeepsOrder tight body body') (name : String)
    (params : List String) (isVararg : Bool) :
    KeepsOrder tight (emitLocalFunction name params isVararg body)
      (@emitMonitoredLocalFunction E w name params isVararg body') := by
  intro s ordered
  refine .bind (.self fun start _ read => ?_)
  obtain ⟨rfl, rfl⟩ := pc_ok read
  refine .bind ((Begins.addLocal name ordered).weaken ?_)
  rintro r t ⟨declares, pc⟩
  refine (emitFunction_agrees allows hb params isVararg r declares.ordered.stacked).weaken ?_
  rintro _ u ⟨retains, used, more⟩
  -- The variable starts only behind the instruction that makes the function.
  have first : Declares tight s.frame.pc (s.frame.pc + 1) s s :=
    .ofRetains ordered (.refl ordered.stacked.chain) (.refl _) (Nat.le_succ _)
  exact (first.trans declares).trans (.ofRetains declares.ordered retains (.of_eq used) (pc ▸ more))

end Scopes

end Statements

end LuaBytecode
