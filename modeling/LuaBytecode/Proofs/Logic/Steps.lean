import LuaBytecode.Proofs.Frame.Locals
import LuaBytecode.Proofs.Logic.Weights

namespace LuaBytecode

namespace ExpCode

/-! Lists of expressions that are lowered alike. All that a list is asked for before its members are lowered is which
    of them are `nil` and which have any number of values. -/

variable {R : ExpCode → ExpCode → Prop} {es es' : List ExpCode}

section

variable (multi : ∀ e e', R e e' → e'.isMulti = e.isMulti)

include multi

theorem isMulti_head_of (h : List.Forall₂ R es es') : es'.head?.any ExpCode.isMulti = es.head?.any ExpCode.isMulti := by
  cases h with
  | nil => rfl
  | cons head _ => exact multi _ _ head

theorem dropNils_of (isNil : ∀ e e', R e e' → e'.isNil = e.isNil) (h : List.Forall₂ R es es') :
    List.Forall₂ R (dropNils es) (dropNils es') := by
  induction h with
  | nil => exact .nil
  | cons head tail ih =>
    rw [dropNils, dropNils, isNil _ _ head, isMulti_head_of multi tail]
    split
    · exact ih
    · exact .cons head tail

theorem trimNils_of (isNil : ∀ e e', R e e' → e'.isNil = e.isNil) (h : List.Forall₂ R es es') :
    List.Forall₂ R (trimNils es) (trimNils es') :=
  List.forall₂_reverse_iff.mpr (dropNils_of multi isNil (List.forall₂_reverse_iff.mpr h))

theorem isOpen_of (h : List.Forall₂ R es es') : isOpen es' = isOpen es := by
  rw [isOpen, isOpen, ← List.head?_reverse, ← List.head?_reverse,
    isMulti_head_of multi (List.forall₂_reverse_iff.mpr h)]

theorem countOf_of (h : List.Forall₂ R es es') : countOf es' = countOf es := by
  rw [countOf, countOf, isOpen_of multi h, h.length_eq]

end

theorem isEmpty_of (h : List.Forall₂ R es es') : es'.isEmpty = es.isEmpty := by
  cases h <;> rfl

variable {keys keys' : List (Option ExpCode)}

theorem countP_isNone_of (h : List.Forall₂ (Option.Rel R) keys keys') :
    keys'.countP (·.isNone) = keys.countP (·.isNone) := by
  induction h with
  | nil => rfl
  | cons head _ ih => cases head <;> simp [ih]

theorem getLast_isNone_of (h : List.Forall₂ (Option.Rel R) keys keys') :
    keys'.getLast?.any (·.isNone) = keys.getLast?.any (·.isNone) := by
  rw [← List.head?_reverse, ← List.head?_reverse]
  have last := List.forall₂_reverse_iff.mpr h
  generalize keys.reverse = l, keys'.reverse = l' at last
  cases last with
  | nil => rfl
  | cons head _ => cases head <;> rfl

theorem rel_imp {α β : Type} {R S : α → β → Prop} {a? : Option α} {b? : Option β} (h : Option.Rel R a? b?)
    (step : ∀ a b, R a b → S a b) : Option.Rel S a? b? := by
  cases h with
  | none => exact .none
  | some related => exact .some (step _ _ related)

theorem loadOperands_append (xs ys : List (Nat → Int → LowerM Unit)) :
    loadOperands (xs ++ ys) = (do loadOperands xs; loadOperands ys) := by
  induction xs with
  | nil => simp [loadOperands]
  | cons emit rest ih => simp [loadOperands, ih]

end ExpCode

def CodeError.unlined : CodeError → CodeError
  | tooManyRegisters _ => tooManyRegisters 0
  | registerUnderflow _ => registerUnderflow 0
  | operandOverflow error _ => operandOverflow error 0
  | tooManyUpvalues _ => tooManyUpvalues 0
  | breakOutsideLoop _ => breakOutsideLoop 0
  | varargOutsideVararg _ => varargOutsideVararg 0
  | unsupported what _ => unsupported what 0
  | functionStackUnderflow _ => functionStackUnderflow 0
  | noInstruction pc _ => noInstruction pc 0
  | countUnderflow _ => countUnderflow 0
  | noLocal record _ => noLocal record 0

def CodeError.isStatic : CodeError → Bool
  | breakOutsideLoop _ | varargOutsideVararg _ | unsupported _ _ => true
  | _ => false

def Frame.unlined (f : Frame) : Frame := { f with line := 0 }

def Lowering.unlined (s : Lowering) : Lowering := ⟨s.frame.unlined, s.enclosing.map Frame.unlined⟩

abbrev Kept (u v : Nat) : Prop := v = u

abbrev Raised (u v : Nat) : Prop := u ≤ v

abbrev RaisedBy (n u v : Nat) : Prop := v = u + n

abbrev LoweredBy (n u v : Nat) : Prop := v + n = u

def Instruction.IsTame (i : Instruction) : Prop := (i.opcode? = some .jmp → i.a = 0) ∧ i.opcode? ≠ some .closure

/-- `m'` does without lines what `m` does from `s`. If they fail, `fair` says with which errors. -/
def Parallel {σ α : Type} (erase : σ → σ) (m m' : EStateM CodeError σ α) (s : σ) (fair : CodeError → Prop)
    (post : α → σ → Prop) : Prop :=
  match m s with
  | .ok a t => m' (erase s) = .ok a (erase t) ∧ post a t
  | .error e _ => (∃ t, m' (erase s) = .error e.unlined t) ∧ fair e

namespace Parallel

variable {σ α β : Type} {erase : σ → σ} {m m' : EStateM CodeError σ α} {s : σ} {fair fair' : CodeError → Prop}
  {post post' : α → σ → Prop}

theorem ok {a : α} {t : σ} (run : m s = .ok a t) (run' : m' (erase s) = .ok a (erase t)) (h : post a t) :
    Parallel erase m m' s fair post := by
  unfold Parallel
  rw [run]
  exact ⟨run', h⟩

theorem error {e : CodeError} {t t' : σ} (run : m s = .error e t) (run' : m' (erase s) = .error e.unlined t')
    (h : fair e) : Parallel erase m m' s fair post := by
  unfold Parallel
  rw [run]
  exact ⟨⟨t', run'⟩, h⟩

section

variable (h : Parallel erase m m' s fair post)

include h

theorem of_ok {a : α} {t : σ} (run : m s = .ok a t) : m' (erase s) = .ok a (erase t) ∧ post a t := by
  unfold Parallel at h
  rwa [run] at h

theorem of_error {e : CodeError} {t : σ} (run : m s = .error e t) :
    (∃ t, m' (erase s) = .error e.unlined t) ∧ fair e := by
  unfold Parallel at h
  rwa [run] at h

theorem weaken (fairer : ∀ e, fair e → fair' e) (weaker : ∀ a t, post a t → post' a t) :
    Parallel erase m m' s fair' post' := by
  cases run : m s with
  | ok a t =>
    obtain ⟨run', holds⟩ := h.of_ok run
    exact ok run run' (weaker a t holds)
  | error e t =>
    obtain ⟨⟨_, run'⟩, holds⟩ := h.of_error run
    exact error run run' (fairer e holds)

theorem ran : Parallel erase m m' s fair fun a t => m s = .ok a t ∧ post a t := by
  cases run : m s with
  | ok a t =>
    obtain ⟨run', holds⟩ := h.of_ok run
    exact ok run run' ⟨rfl, holds⟩
  | error e t =>
    obtain ⟨⟨_, run'⟩, holds⟩ := h.of_error run
    exact error run run' holds

end

theorem bind {k k' : α → EStateM CodeError σ β} {post : β → σ → Prop}
    (h : Parallel erase m m' s fair fun a t => Parallel erase (k a) (k' a) t fair post) :
    Parallel erase (m >>= k) (m' >>= k') s fair post := by
  cases run : m s with
  | error e t =>
    obtain ⟨⟨t', run'⟩, holds⟩ := h.of_error run
    have stops : (m >>= k) s = .error e t := by simp only [Bind.bind, EStateM.bind, run]
    have stops' : (m' >>= k') (erase s) = .error e.unlined t' := by simp only [Bind.bind, EStateM.bind, run']
    exact error stops stops' holds
  | ok a t =>
    obtain ⟨run', rest⟩ := h.of_ok run
    unfold Parallel at rest ⊢
    simp only [Bind.bind, EStateM.bind, run, run']
    exact rest

theorem pure {a : α} (h : post a s) : Parallel erase (pure a) (pure a) s fair post := ok rfl rfl h

end Parallel

namespace Frame

/-- A step that does not look at lines, does not fail by what the program may not do, and changes a frame as `R`
    says. -/
def Blind {α : Type} (R : Frame → Frame → Prop) (m : FrameM α) : Prop :=
  ∀ f, Parallel unlined m m f (·.isStatic = false) fun _ g => R f g

namespace Blind

variable {α β : Type} {m : FrameM α} {R S : Frame → Frame → Prop}

theorem weaken (h : Blind R m) (weaker : ∀ f g, R f g → S f g) : Blind S m :=
  fun f => (h f).weaken (fun _ => id) fun _ g => weaker f g

theorem bind {k : α → FrameM β} (first : Blind R m) (next : ∀ a, Blind (fun g h => ∀ f, R f g → S f h) (k a)) :
    Blind S (m >>= k) := by
  refine fun f => .bind ((first f).weaken (fun _ => id) fun a g change => ?_)
  exact (next a g).weaken (fun _ => id) fun _ h more => more f change

theorem get {k : Frame → FrameM β} (blind : ∀ f, k f.unlined = k f) (h : ∀ f, Blind R (k f)) :
    Blind R (MonadState.get >>= k) := by
  intro f
  have rest := h f f
  have here : (MonadState.get >>= k) f = k f f := rfl
  have unlined : (MonadState.get >>= k) f.unlined = k f f.unlined := congrFun (blind f) f.unlined
  unfold Parallel at rest ⊢
  rw [here, unlined]
  exact rest

theorem modify {change : Frame → Frame} (blind : ∀ f, change f.unlined = (change f).unlined) (h : ∀ f, R f (change f)) :
    Blind R (modify change : FrameM Unit) :=
  fun f => .ok rfl (congrArg (EStateM.Result.ok ()) (blind f)) (h f)

end Blind

/-- Registers were taken or given back, and constants and tame instructions came behind those that were there. -/
structure Continued (f g : Frame) : Prop where
  same : g = { f with used := g.used, peak := g.peak, constants := g.constants, code := g.code }
  peak : f.peak ≤ g.peak
  constants : f.constants.entries.toList <+: g.constants.entries.toList
  code : ∃ added, g.code.toList = f.code.toList ++ added ∧ ∀ i ∈ added, i.IsTame

theorem Continued.refl (f : Frame) : Continued f f := ⟨rfl, Nat.le.refl, List.prefix_rfl, [], by simp⟩

theorem Continued.trans {f g h : Frame} (first : Continued f g) (second : Continued g h) : Continued f h := by
  obtain ⟨added, code, tame⟩ := first.code
  obtain ⟨added', code', tame'⟩ := second.code
  refine ⟨by rw [second.same, first.same], Nat.le_trans first.peak second.peak,
    first.constants.trans second.constants, added ++ added', ?_, List.forall_mem_append.mpr ⟨tame, tame'⟩⟩
  rw [code', code, List.append_assoc]

theorem Continued.ofUsed {f : Frame} (used : Nat) {peak : Nat} (more : f.peak ≤ peak) :
    Continued f { f with used := used, peak := peak } := { refl f with same := rfl, peak := more }

theorem Continued.ofPush {f : Frame} {i : Instruction} (tame : i.IsTame) : Continued f (f.push i) :=
  { refl f with same := rfl, code := ⟨[i], by simp, by simpa using tame⟩ }

/-- What lowering an expression does to a frame: instructions, constants, upvalues and functions come behind those that
    are there. Variables stay where they are, and nested functions may have captured them. -/
structure Gains (f g : Frame) : Prop extends Collects f g where
  same : g = { f with
    used := g.used, peak := g.peak, live := g.live, constants := g.constants, upvalues := g.upvalues, code := g.code,
    functions := g.functions }
  live : RemainAll f.live g.live
  code : f.code.toList <+: g.code.toList

namespace Gains

variable {f g h : Frame}

theorem refl (f : Frame) : Gains f f := ⟨.refl f, rfl, .refl _, List.prefix_rfl⟩

theorem trans (first : Gains f g) (second : Gains g h) : Gains f h where
  toCollects := first.toCollects.trans second.toCollects
  same := by rw [second.same, first.same]
  live := first.live.trans second.live
  code := first.code.trans second.code

theorem pc_le (h : Gains f g) : f.pc ≤ g.pc := by simpa [Frame.pc] using h.code.length_le

theorem ofUsed {used peak : Nat} : Gains f { f with used := used, peak := peak } := { refl f with same := rfl }

theorem ofPush (i : Instruction) : Gains f (f.push i) := { refl f with same := rfl, code := by simp }

theorem ofFunction (p : Prototype) : Gains f { f with functions := f.functions.push p } :=
  { refl f with same := rfl, functions := by simp }

theorem ofContinued (h : f.Continued g) : Gains f g := by
  obtain ⟨added, code, _⟩ := h.code
  have live : g.live = f.live := by rw [h.same]
  have upvalues : g.upvalues = f.upvalues := by rw [h.same]
  have functions : g.functions = f.functions := by rw [h.same]
  exact ⟨⟨h.constants, upvalues ▸ List.prefix_rfl, functions ▸ List.prefix_rfl⟩, by rw [h.same], live ▸ .refl _,
    ⟨added, code.symm⟩⟩

theorem replace (h : Gains f g) {pc : Nat} (later : f.pc ≤ pc) (i : Instruction) : Gains f (g.replace pc i) :=
  { h with same := by rw [Frame.replace, h.same], code := prefixed_set h.code later i }

end Gains

def Modest {α : Type} (m : FrameM α) (change : Nat → Nat → Prop) : Prop :=
  Blind (fun f g => f.Continued g ∧ change f.used g.used) m

namespace Modest

variable {α β : Type} {m : FrameM α} {P R : Nat → Nat → Prop} {k : α → FrameM β} {op : Opcode}

theorem pure {a : α} : Modest (pure a) Kept := fun f => .pure ⟨.refl f, rfl⟩

theorem bind (first : Modest m P) (next : ∀ a, Modest (k a) fun v w => ∀ u, P u v → R u w) : Modest (m >>= k) R :=
  Blind.bind first fun a => (next a).weaken fun _ _ rest _ before => ⟨before.1.trans rest.1, rest.2 _ before.2⟩

theorem weaken {Q : Nat → Nat → Prop} (h : Modest m P) (weaker : ∀ u v, P u v → Q u v) : Modest m Q :=
  Blind.weaken h fun _ _ change => ⟨change.1, weaker _ _ change.2⟩

theorem andThen (first : Modest m Kept) (next : ∀ a, Modest (k a) R) : Modest (m >>= k) R :=
  first.bind fun a => (next a).weaken fun _ _ holds _ same => same ▸ holds

theorem alloc : Modest alloc (RaisedBy 1) := by
  intro f
  by_cases room : f.used + 1 < registerLimit
  · exact .ok (if_pos room) (if_pos room) ⟨.ofUsed _ (Nat.le_max_left ..), rfl⟩
  · exact .error (if_neg room) (if_neg room) rfl

theorem allocAll (n : Nat) : Modest (allocAll n) (RaisedBy n) := by
  induction n with
  | zero => exact pure
  | succ n ih => exact alloc.bind fun _ => ih.weaken fun _ _ _ _ => by omega

theorem allocN (n : Nat) : Modest (allocN n) (RaisedBy n) :=
  .get (fun _ => rfl) fun _ => (allocAll n).bind fun _ => pure.weaken fun _ _ same _ taken => same ▸ taken

theorem free : Modest free (LoweredBy 1) := by
  intro f
  unfold Parallel Frame.free
  cases used : f.used with
  | zero => exact ⟨⟨f.unlined, by simp only [unlined, used]; rfl⟩, rfl⟩
  | succ n => exact ⟨by simp only [unlined, used], .ofUsed _ Nat.le.refl, used.symm⟩

theorem freeN (n : Nat) : Modest (freeN n) (LoweredBy n) := by
  induction n with
  | zero => exact pure
  | succ n ih => exact free.bind fun _ => ih.weaken fun _ _ _ _ => by omega

theorem difference (a b : Nat) : Modest (difference a b) Kept := by
  intro f
  by_cases fits : b ≤ a
  · exact .ok (if_pos fits) (if_pos fits) ⟨.refl f, rfl⟩
  · exact .error (if_neg fits) (if_neg fits) rfl

theorem constantIndex (k : Constant) : Modest (constantIndex k) Kept :=
  fun f => .ok rfl rfl ⟨{ Continued.refl f with same := rfl, constants := (f.constants.insert_spec k).2 }, rfl⟩

theorem emit {e : Except OperandError Instruction} (tame : ∀ i, e = .ok i → i.IsTame) : Modest (emit e) Kept := by
  intro f
  cases e with
  | ok i => exact .ok rfl rfl ⟨.ofPush (tame i rfl), rfl⟩
  | error e => exact .error rfl rfl rfl

theorem tame_of_opcode {i : Instruction} (coded : i.opcode? = some op) (jump : op ≠ .jmp) (closure : op ≠ .closure) :
    i.IsTame := by
  rw [Instruction.IsTame, coded]
  exact ⟨fun same => absurd (Option.some.inj same) jump, fun same => closure (Option.some.inj same)⟩

theorem emitAbc {a b c : Nat} (jump : op ≠ .jmp) (closure : op ≠ .closure) :
    Modest (emitAbc op a b c) Kept := emit fun _ made => tame_of_opcode (Instruction.abc_ok made).1 jump closure

theorem emitAx {ax : Nat} : Modest (emitAx .extraArg ax) Kept :=
  emit fun _ made => tame_of_opcode (Instruction.ax_ok made).1 (by decide) (by decide)

theorem emitJmp (sbx : Int) : Modest (emitJmp 0 sbx) Kept := by
  refine emit fun i made => ?_
  obtain ⟨coded, level, _⟩ := Instruction.asbx_ok made
  exact ⟨fun _ => level, by simp [coded]⟩

theorem emitLoadK (a : Nat) (k : Constant) : Modest (emitLoadK a k) Kept := by
  have loads : ∀ {op : Opcode} {index : Nat}, op ≠ .jmp → op ≠ .closure → Modest (emitAbx op a index) Kept :=
    fun jump closure => emit fun _ made => tame_of_opcode (Instruction.abx_ok made).1 jump closure
  refine (constantIndex k).andThen fun index => ?_
  split
  · exact loads (by decide) (by decide)
  · exact (loads (by decide) (by decide)).andThen fun _ => emitAx.andThen fun _ => pure

theorem emitSetList (a n batch : Nat) : Modest (emitSetList a n batch) Kept := by
  unfold Frame.emitSetList
  split
  · exact emitAbc (by decide) (by decide)
  · exact (emitAbc (by decide) (by decide)).andThen fun _ => emitAx.andThen fun _ => pure

end Modest

end Frame

open Lowering

def logicalCode (m k : LowerM Nat) (a n : Nat) : LowerM Unit := do
  let b ← m
  let _ ← Frame.emitAbc .testSet a b n
  let done ← Frame.emitJmp 0 0
  let b ← k
  let _ ← Frame.emitMove a b
  Frame.patchHere done

/-- A way to reason about lowering step by step. `Holds g P m m'` is what is said about steps `m` that weigh `g` and
    take or give back registers as `P` says. It may compare them to other steps `m'`. -/
structure Logic {G : Type} [Monoid G] (w : Weights G) where
  Holds {α : Type} (g : G) (P : Nat → Nat → Prop) (m m' : LowerM α) : Prop
  pure {α : Type} (a : α) : Holds 1 Kept (pure a) (pure a)
  weaken {α : Type} {g : G} {P Q : Nat → Nat → Prop} {m m' : LowerM α} :
    Holds g P m m' → (∀ u v, P u v → Q u v) → Holds g Q m m'
  bind {α β : Type} {g h : G} {P R : Nat → Nat → Prop} {m m' : LowerM α} {k k' : α → LowerM β} :
    Holds g P m m' → (∀ a, Holds h (fun v w => ∀ u, P u v → R u w) (k a) (k' a)) → Holds (g * h) R (m >>= k) (m' >>= k')
  lift {α : Type} {P : Nat → Nat → Prop} {m : FrameM α} : Frame.Modest m P → Holds 1 P (liftM m) (liftM m)
  observe {α : Type} (read : Frame → α) : (∀ f, read f.unlined = read f) →
    Holds 1 Kept (do return read (← get).frame) (do return read (← get).frame)
  scratch {α : Type} {g : G} {P : Nat → Nat → Prop} {m m' : LowerM α} :
    Holds g P m m' → Holds g Kept (scratch m) (scratch m')
  environment : Holds 1 Kept (resolve environment) (resolve environment)
  vararg (a : Nat) (n : Int) : Holds w.vararg Kept (ExpCode.ofVararg.emit a n) (ExpCode.ofVararg.emit a n)
  noTarget (g : G) (P : Nat → Nat → Prop) (e e' : Exp) (emit emit' : Nat → Int → LowerM Unit) :
    Holds (g * w.noTarget) P (ExpCode.plain e emit).target (ExpCode.plain e' emit').target
  logical {g h : G} {m m' k k' : LowerM Nat} (a n : Nat) : Holds g Kept m m' → Holds h Kept k k' →
    Holds (g * h) Kept (logicalCode m k a n) (logicalCode m' k' a n)

namespace Logic

def Counts {G : Type} [Monoid G] {w : Weights G} (L : Logic w) : Prop :=
  ¬∀ (α : Type) (g : G) (P Q : Nat → Nat → Prop) (m m' : LowerM α), L.Holds g P m m' → L.Holds g Q m m'

variable {G : Type} [Monoid G] {w : Weights G} (L : Logic w) {α β : Type} {g h : G} {P R : Nat → Nat → Prop}
  {m m' : LowerM α} {k k' : α → LowerM β}

variable {L} in
theorem congr (holds : L.Holds g P m m') (same : g = h) : L.Holds h P m m' := same ▸ holds

theorem before (first : L.Holds 1 P m m') (next : ∀ a, L.Holds g (fun v w => ∀ u, P u v → R u w) (k a) (k' a)) :
    L.Holds g R (m >>= k) (m' >>= k') := congr (L.bind first next) (one_mul g)

theorem pass (first : L.Holds 1 Kept m m') (next : ∀ a, L.Holds g R (k a) (k' a)) :
    L.Holds g R (m >>= k) (m' >>= k') :=
  L.before first fun a => L.weaken (next a) fun _ _ holds _ same => same ▸ holds

theorem andThen (first : L.Holds g Kept m m') (next : ∀ a, L.Holds h R (k a) (k' a)) :
    L.Holds (g * h) R (m >>= k) (m' >>= k') :=
  L.bind first fun a => L.weaken (next a) fun _ _ holds _ same => same ▸ holds

theorem after (first : L.Holds g P m m') (next : ∀ a, L.Holds 1 (fun v w => ∀ u, P u v → R u w) (k a) (k' a)) :
    L.Holds g R (m >>= k) (m' >>= k') := congr (L.bind first next) (mul_one g)

theorem finish (first : L.Holds g P m m') (next : ∀ a, L.Holds 1 Kept (k a) (k' a)) :
    L.Holds g P (m >>= k) (m' >>= k') :=
  L.after first fun a => L.weaken (next a) fun _ _ same _ holds => same ▸ holds

theorem used : L.Holds 1 Kept used used := L.observe (·.used) fun _ => rfl

theorem emitAbc {op : Opcode} {a b c : Nat} (jump : op ≠ .jmp) (closure : op ≠ .closure) :
    L.Holds 1 Kept (do let _ ← Frame.emitAbc op a b c) (do let _ ← Frame.emitAbc op a b c) :=
  L.pass (L.lift (.emitAbc jump closure)) fun _ => L.pure ()

theorem alloc : L.Holds 1 (RaisedBy 1) (liftM Frame.alloc) (liftM Frame.alloc) := L.lift .alloc

/-- Steps that may find what spares the steps after them. If they may, those have no weight. -/
def Spares (g : G) (m m' : LowerM (Option α)) : Prop :=
  m = Pure.pure none ∧ m' = Pure.pure none ∨ g = 1 ∧ L.Holds 1 Kept m m'

variable {L} in
theorem Spares.elim {m m' : LowerM (Option α)} {k k' : Option α → LowerM β} (spares : L.Spares g m m')
    (found : ∀ a, L.Holds 1 R (k (some a)) (k' (some a))) (missing : L.Holds g R (k none) (k' none)) :
    L.Holds g R (m >>= k) (m' >>= k') := by
  obtain ⟨rfl, rfl⟩ | ⟨rfl, holds⟩ := spares
  · simpa using missing
  · refine L.pass holds fun a? => ?_
    cases a? with
    | none => exact missing
    | some a => exact found a

section Names

theorem resolveEnvironment : L.Holds 1 Kept resolveEnvironment resolveEnvironment :=
  L.pass L.environment fun _ => L.pure _

theorem nameKey (x : String) : L.Holds 1 Raised (nameKey x) (nameKey x) := by
  refine L.pass (L.lift (.constantIndex _)) fun index => ?_
  split
  · exact L.weaken (L.pure _) fun _ _ => Nat.le_of_eq ∘ Eq.symm
  · refine L.before L.alloc fun r => L.pass (L.lift (.emitLoadK _ _)) fun _ => L.weaken (L.pure _) ?_
    intro _ _ same _ taken
    omega

theorem emitGetField (a : Nat) (table : Place) (key : Nat) :
    L.Holds 1 Kept (emitGetField a table key) (emitGetField a table key) := by
  cases table with
  | register t => exact L.emitAbc (by decide) (by decide)
  | upvalue t => exact L.emitAbc (by decide) (by decide)

theorem emitStore (v : Nat) (target : Target) : L.Holds 1 Kept (emitStore v target) (emitStore v target) := by
  obtain (r | i) | ⟨t | t, key⟩ := target
  all_goals exact L.emitAbc (by decide) (by decide)

variable {L} {x : String} (known : L.Holds 1 Kept (resolve x) (resolve x))

include known

theorem emitName (a : Nat) : L.Holds 1 Kept (emitName x a) (emitName x a) := by
  refine L.pass known fun place? => ?_
  obtain _ | (r | i) := place?
  · refine L.scratch (P := Raised) (L.before (L.nameKey x) fun key => L.pass L.resolveEnvironment fun place => ?_)
    exact L.weaken (L.emitGetField a place key) fun _ _ same _ => same ▸ id
  · exact L.emitAbc (by decide) (by decide)
  · exact L.emitAbc (by decide) (by decide)

theorem nameTarget : L.Holds 1 Raised (nameTarget x) (nameTarget x) := by
  refine L.pass known fun place? => ?_
  cases place? with
  | some place => exact L.weaken (L.pure _) fun _ _ => Nat.le_of_eq ∘ Eq.symm
  | none => exact L.finish (L.nameKey x) fun key => L.pass L.resolveEnvironment fun _ => L.pure _

end Names

end Logic

end LuaBytecode
