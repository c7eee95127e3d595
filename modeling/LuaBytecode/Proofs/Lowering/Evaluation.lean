import LuaBytecode.Proofs.Lowering.Regular

namespace LuaBytecode

open Instruction

/-- The operation can stand on its own if these are its operands, and they are listed. -/
def Opcode.isPlain (op : Opcode) (b c : Nat) : Bool :=
  op.listsAll b c && match op with
  | jmp | forPrep | forLoop | tforLoop | tforCall | closure | extraArg | loadKx | eq | lt | le | test | testSet
  | tailCall => false
  | call => b != 0 && c != 0
  | ret | vararg => b != 0
  | setList => b != 0 && c != 0
  | _ => true

namespace Instruction

variable {i : Instruction} {op : Opcode}

theorem starts_of_isPlain (hop : i.opcode? = some op) (plain : op.isPlain i.b i.c = true) : i.Starts := by
  refine ⟨?_, ?_, ?_⟩ <;> cases op <;> simp_all [takesOpen, Opcode.isPlain]

theorem alone_of_isPlain (hop : i.opcode? = some op) (plain : op.isPlain i.b i.c = true) : i.binds = false := by
  rw [binds_eq_false]
  cases op <;> simp_all [isTest, Opcode.isTest, hasExtra, isOpen, Opcode.isPlain]

end Instruction

structure Frame.Recounted (f g : Frame) : Prop where
  code : g.code = f.code
  live : g.live = f.live
  locals : g.locals = f.locals

theorem Frame.Settled.recounted {f g : Frame} (settled : f.Settled) (same : f.Recounted g) : g.Settled := by
  unfold Settled Alone Frame.pc
  rwa [same.code, same.live, same.locals]

namespace Lowering

/-- What holds at all times of the function being lowered. Instructions name registers that have been in use, up to
    `slack` more, or registers below `reach`. -/
structure Regular (slack reach : Nat) (pending : List Nat) (s : Lowering) : Prop where
  frame : s.frame.Regular (max (s.frame.peak + slack) reach) pending
  chain : Chain s.frame s.enclosing
  nested : s.enclosing ≠ []
  functions : ∀ p ∈ s.frame.functions, p.Regular slack

structure Expands (s t : Lowering) : Prop where
  grown : s.frame.Grown t.frame
  around : List.Forall₂ Frame.Touched s.enclosing t.enclosing
  depth : t.frame.depth = s.frame.depth
  live : t.frame.live.length = s.frame.live.length

/-- What lowering an expression does: `n` registers are in use then. -/
structure Evals (slack reach : Nat) (pending : List Nat) (n : Nat) (s t : Lowering) : Prop extends Expands s t where
  regular : Regular slack reach pending t
  used : t.frame.used = n

/-- A function between instructions: the last one asks nothing of the next. -/
structure Poised (slack : Nat) (pending : List Nat) (s : Lowering) : Prop extends Regular slack 0 pending s where
  settled : s.frame.Settled

structure Leads (slack : Nat) (pending : List Nat) (s t : Lowering) : Prop extends Poised slack pending t, Expands s t

def Lowers {α : Type} (slack : Nat) (pending : List Nat) (m : LowerM α) (s : Lowering) (post : α → Lowering → Prop) :
    Prop := Gives m s fun a t => post a t ∧ Leads slack pending s t

abbrev Restores {α : Type} (slack : Nat) (pending : List Nat) (m : LowerM α) (s : Lowering) : Prop :=
  Lowers slack pending m s fun _ t => t.frame.used = s.frame.used

variable {slack reach n : Nat} {pending : List Nat} {s t u : Lowering}

theorem touched_refl (outer : List Frame) : List.Forall₂ Frame.Touched outer outer :=
  List.forall₂_same.mpr fun f _ => .refl f

theorem touched_trans {outer outer' outer'' : List Frame} (first : List.Forall₂ Frame.Touched outer outer')
    (second : List.Forall₂ Frame.Touched outer' outer'') : List.Forall₂ Frame.Touched outer outer'' :=
  forall₂_trans first second fun _ _ _ => Frame.Touched.trans

namespace Regular

theorem limit (h : s.Regular slack reach pending) : s.frame.peak < 255 := h.frame.peak

theorem used_le (h : s.Regular slack reach pending) : s.frame.used ≤ s.frame.peak := h.frame.used

theorem settle (h : s.Regular slack reach pending) (enough : reach ≤ s.frame.peak + slack) :
    s.Regular slack 0 pending := by
  refine { h with frame := h.frame.mono ?_ }
  omega

theorem extend (h : s.Regular slack 0 pending) (reach : Nat) : s.Regular slack reach pending := by
  refine { h with frame := h.frame.mono ?_ }
  omega

end Regular

theorem Expands.refl (s : Lowering) : Expands s s := ⟨.refl _, touched_refl _, rfl, rfl⟩

theorem Expands.trans (first : Expands s t) (second : Expands t u) : Expands s u where
  grown := first.grown.trans second.grown
  around := touched_trans first.around second.around
  depth := second.depth.trans first.depth
  live := second.live.trans first.live

namespace Evals

theorem refl (h : s.Regular slack reach pending) : Evals slack reach pending s.frame.used s s := ⟨.refl s, h, rfl⟩

theorem trans {reach' m : Nat} (first : Evals slack reach' pending m s t) (second : Evals slack reach pending n t u) :
    Evals slack reach pending n s u := ⟨first.toExpands.trans second.toExpands, second.regular, second.used⟩

theorem settle (h : Evals slack reach pending n s t) (enough : reach ≤ t.frame.peak + slack) :
    Evals slack 0 pending n s t := { h with regular := h.regular.settle enough }

theorem extend (h : Evals slack 0 pending n s t) (reach : Nat) : Evals slack reach pending n s t :=
  { h with regular := h.regular.extend reach }

theorem cast (h : Evals slack reach pending n s t) {m : Nat} (same : n = m) : Evals slack reach pending m s t := same ▸ h

theorem ofFrame (h : s.Regular slack reach pending) {f : Frame}
    (regular : f.Regular (max (f.peak + slack) reach) pending) (grown : s.frame.Grown f) (live : f.live = s.frame.live)
    (upvalues : f.upvalues = s.frame.upvalues) (functions : f.functions = s.frame.functions)
    (depth : f.depth = s.frame.depth) : Evals slack reach pending f.used s ⟨f, s.enclosing⟩ where
  toExpands := ⟨grown, touched_refl _, depth, by rw [live]⟩
  regular :=
    { frame := regular
      chain := h.chain.marked (by rw [live]; exact .refl _) upvalues
      nested := h.nested
      functions := fun p member => h.functions p (functions ▸ member) }
  used := rfl

theorem leads (h : Evals slack 0 pending n s t) (settled : t.frame.Settled) : Leads slack pending s t :=
  ⟨⟨h.regular, settled⟩, h.toExpands⟩

end Evals

theorem Regular.bounds (h : s.Regular slack reach pending) :
    s.frame.live.length ≤ s.frame.used ∧ s.frame.used ≤ s.frame.peak ∧ s.frame.peak < 255 :=
  ⟨h.frame.room, h.frame.used, h.frame.peak⟩

namespace Leads

theorem evals (h : Leads slack pending s t) (used : t.frame.used = n) : Evals slack 0 pending n s t :=
  ⟨h.toExpands, h.toRegular, used⟩

theorem bounds (h : Leads slack pending s t) : t.frame.live.length = s.frame.live.length ∧
    s.frame.peak ≤ t.frame.peak ∧ t.frame.live.length ≤ t.frame.used ∧ t.frame.used ≤ t.frame.peak ∧
      t.frame.peak < 255 := ⟨h.live, h.grown.peak, h.toRegular.bounds⟩

theorem trans (first : Leads slack pending s t) (second : Leads slack pending t u) : Leads slack pending s u :=
  ⟨second.toPoised, first.toExpands.trans second.toExpands⟩

theorem before (first : Leads slack pending s t) (second : Evals slack reach pending n t u) :
    Evals slack reach pending n s u := ⟨first.toExpands.trans second.toExpands, second.regular, second.used⟩

end Leads

namespace Lowers

variable {α β : Type} {m : LowerM α} {k : α → LowerM β} {post post' : α → Lowering → Prop} {final : β → Lowering → Prop}

theorem weaken (h : Lowers slack pending m s post) (weaker : ∀ a t, post a t → post' a t) :
    Lowers slack pending m s post' := Gives.weaken h fun a t given => ⟨weaker a t given.1, given.2⟩

theorem after (h : Gives m s fun a t => post a t ∧ Evals slack reach pending n s t)
    (next : ∀ a t, post a t → Evals slack reach pending n s t → Lowers slack pending (k a) t final) :
    Lowers slack pending (m >>= k) s final := by
  refine Gives.bind (h.weaken ?_)
  rintro a t ⟨given, evals⟩
  refine Gives.weaken (next a t given evals) ?_
  rintro b u ⟨done, leads⟩
  exact ⟨done, leads.toPoised, evals.toExpands.trans leads.toExpands⟩

theorem before (h : Lowers slack pending m s post)
    (next : ∀ a t, post a t → Leads slack pending s t → Gives (k a) t final) : Gives (m >>= k) s final :=
  .bind (Gives.weaken h fun a t given => next a t given.1 given.2)

theorem bind (h : Lowers slack pending m s post)
    (next : ∀ a t, post a t → Leads slack pending s t → Lowers slack pending (k a) t final) :
    Lowers slack pending (m >>= k) s final := by
  refine h.before fun a t given first => ?_
  refine Gives.weaken (next a t given first) ?_
  rintro b u ⟨done, second⟩
  exact ⟨done, first.trans second⟩

theorem pure {a : α} (h : s.Poised slack pending) (given : post a s) : Lowers slack pending (Pure.pure a) s post :=
  ⟨given, h, .refl s⟩

theorem done {post : Lowering → Prop} (h : Lowers slack pending m s fun _ => post) :
    Lowers slack pending (do let _ ← m) s fun _ => post := h.bind fun _ _ given leads => .pure leads.toPoised given

theorem used {k : Nat → LowerM β} (h : Lowers slack pending (k s.frame.used) s final) :
    Lowers slack pending (Lowering.used >>= k) s final := h

theorem difference {a b : Nat} {k : Nat → LowerM β} (fits : b ≤ a) (h : Lowers slack pending (k (a - b)) s final) :
    Lowers slack pending (liftM (Frame.difference a b) >>= k) s final :=
  Gives.bind (difference_gives fits h)

end Lowers

section Registers

theorem evals_registers (h : s.Regular slack reach pending) {used peak : Nat} (room : s.frame.live.length ≤ used)
    (fits : used ≤ peak) (more : s.frame.peak ≤ peak) (limit : peak < Frame.registerLimit) :
    Evals slack reach pending used s ⟨{ s.frame with used := used, peak := peak }, s.enclosing⟩ := by
  refine .ofFrame h (f := { s.frame with used := used, peak := peak }) ?_ ?_ rfl rfl rfl rfl
  · refine (h.frame.mono ?_).withRegisters room fits limit
    show max (s.frame.peak + slack) reach ≤ max (peak + slack) reach
    omega
  · exact ⟨more, Nat.le.refl, List.prefix_rfl, (Frame.Grown.refl s.frame).code, rfl⟩

theorem Poised.alloc (h : s.Poised slack pending) : Lowers slack pending (Frame.alloc : LowerM Nat) s fun r t =>
    r = s.frame.used ∧ t.frame.used = s.frame.used + 1 := by
  apply Gives.lift
  unfold Gives Frame.alloc
  by_cases room : s.frame.used + 1 < Frame.registerLimit
  · rw [if_pos room]
    have := h.frame.room
    refine ⟨⟨rfl, rfl⟩, (evals_registers h.toRegular (by omega) (Nat.le_max_right ..) (Nat.le_max_left ..) ?_).leads
      h.settled⟩
    exact Nat.max_lt.mpr ⟨h.frame.peak, room⟩
  · rw [if_neg room]
    trivial

theorem allocAll_gives {f : Frame} (peak : f.peak < Frame.registerLimit) (used : f.used ≤ f.peak) (n : Nat) :
    Gives (Frame.allocAll n) f fun _ g => g = { f with used := f.used + n, peak := g.peak } ∧ f.peak ≤ g.peak ∧
      f.used + n ≤ g.peak ∧ g.peak < Frame.registerLimit := by
  induction n generalizing f with
  | zero => exact .pure ⟨rfl, Nat.le.refl, used, peak⟩
  | succ n ih =>
    refine .bind ?_
    unfold Gives Frame.alloc
    by_cases room : f.used + 1 < Frame.registerLimit
    · rw [if_pos room]
      refine (ih (f := { f with used := f.used + 1, peak := max f.peak (f.used + 1) }) (Nat.max_lt.mpr ⟨peak, room⟩)
        (Nat.le_max_right ..)).weaken ?_
      rintro _ g ⟨same, more, fits, limit⟩
      simp only at more fits
      refine ⟨?_, by omega, by omega, limit⟩
      rw [same, show f.used + 1 + n = f.used + (n + 1) by omega]
    · rw [if_neg room]
      trivial

theorem allocN_gives (h : s.Regular slack reach pending) (n : Nat) :
    Gives (Frame.allocN n : LowerM Nat) s fun r t =>
      r = s.frame.used ∧ s.frame.Recounted t.frame ∧ Evals slack reach pending (s.frame.used + n) s t := by
  refine .lift (.bind (.get (.bind ((allocAll_gives h.frame.peak h.frame.used n).weaken ?_))))
  rintro _ g ⟨same, more, fits, limit⟩
  have := h.frame.room
  rw [same]
  exact .pure ⟨rfl, ⟨rfl, rfl, rfl⟩, evals_registers h (by omega) fits more limit⟩

theorem Poised.allocN (h : s.Poised slack pending) (n : Nat) :
    Lowers slack pending (Frame.allocN n : LowerM Nat) s fun r t =>
      r = s.frame.used ∧ t.frame.used = s.frame.used + n := by
  refine (allocN_gives h.toRegular n).weaken ?_
  rintro r t ⟨first, same, evals⟩
  exact ⟨⟨first, evals.used⟩, evals.leads (h.settled.recounted same)⟩

theorem free_gives (h : s.Regular slack reach pending) (enough : s.frame.live.length < s.frame.used) :
    Gives (Frame.free : LowerM Unit) s fun _ t =>
      s.frame.Recounted t.frame ∧ Evals slack reach pending (s.frame.used - 1) s t := by
  apply Gives.lift
  unfold Gives Frame.free
  have fits := h.frame.used
  cases used : s.frame.used with
  | zero => omega
  | succ n => exact ⟨⟨rfl, rfl, rfl⟩, evals_registers h (by omega) (by omega) Nat.le.refl h.frame.peak⟩

theorem freeN_gives (h : s.Regular slack reach pending) (enough : s.frame.live.length + n ≤ s.frame.used) :
    Gives (Frame.freeN n : LowerM Unit) s fun _ t =>
      s.frame.Recounted t.frame ∧ Evals slack reach pending (s.frame.used - n) s t := by
  have run : ∀ {f : Frame}, n ≤ f.used → Frame.freeN n f = .ok () { f with used := f.used - n } := by
    clear enough
    induction n with
    | zero => exact fun _ => rfl
    | succ n ih =>
      intro f enough
      cases used : f.used with
      | zero => omega
      | succ m =>
        have first : Frame.free f = .ok () { f with used := m } := by simp only [Frame.free, used]
        refine (bind_run first).trans ?_
        rw [ih (by simp only; omega), show m + 1 - (n + 1) = m - n by omega]
  apply Gives.lift
  unfold Gives
  rw [run (by omega)]
  have fits := h.frame.used
  exact ⟨⟨rfl, rfl, rfl⟩, evals_registers h (by omega) (by omega) Nat.le.refl h.frame.peak⟩

variable (h : s.Poised slack pending)

include h

theorem Poised.free (enough : s.frame.live.length < s.frame.used) :
    Lowers slack pending (Frame.free : LowerM Unit) s fun _ t => t.frame.used = s.frame.used - 1 := by
  refine (free_gives h.toRegular enough).weaken ?_
  rintro _ t ⟨same, evals⟩
  exact ⟨evals.used, evals.leads (h.settled.recounted same)⟩

theorem Poised.freeN (enough : s.frame.live.length + n ≤ s.frame.used) :
    Lowers slack pending (Frame.freeN n : LowerM Unit) s fun _ t => t.frame.used = s.frame.used - n := by
  refine (freeN_gives h.toRegular enough).weaken ?_
  rintro _ t ⟨same, evals⟩
  exact ⟨evals.used, evals.leads (h.settled.recounted same)⟩

theorem Lowers.scratch {α : Type} {m : LowerM α} {post : α → Lowering → Prop} (inner : Lowers slack pending m s post)
    (stable : ∀ a t u, post a t → t.frame.Grown u.frame → post a u) :
    Lowers slack pending (Lowering.scratch m) s fun a t => post a t ∧ t.frame.used = s.frame.used := by
  refine .used (Gives.bind (Gives.weaken inner ?_))
  rintro a t ⟨given, leads⟩
  have := h.bounds
  have := leads.bounds
  have room : t.frame.live.length ≤ s.frame.used := by omega
  have evals := evals_registers leads.toRegular room (by omega) Nat.le.refl leads.frame.peak
  exact ⟨⟨stable a t _ given evals.grown, rfl⟩, leads.trans (evals.leads leads.settled)⟩

theorem Restores.scratch {α : Type} {m : LowerM α} (inner : Lowers slack pending m s fun _ _ => True) :
    Restores slack pending (Lowering.scratch m) s :=
  (Lowers.scratch h inner fun _ _ _ _ _ => trivial).weaken fun _ _ given => given.2

end Registers

section Constants

theorem Poised.constantIndex (h : s.Poised slack pending) (k : Constant) :
    Lowers slack pending (Frame.constantIndex k : LowerM Nat) s fun i t =>
      i < t.frame.constants.entries.size ∧ t.frame.used = s.frame.used := by
  refine .lift (.intro (fun i f run => ?_) fun e f run => ?_)
  · obtain ⟨there, more, same⟩ := Frame.constantIndex_ok run
    rw [same]
    have grown : s.frame.Grown { s.frame with constants := f.constants } :=
      ⟨Nat.le.refl, by simpa using more.length_le, List.prefix_rfl, (Frame.Grown.refl s.frame).code, rfl⟩
    exact ⟨⟨lt_of_getElem? there, rfl⟩, (Evals.ofFrame h.toRegular
      (f := { s.frame with constants := f.constants }) (h.frame.withConstants more) grown rfl rfl rfl rfl).leads h.settled⟩
  · cases run

end Constants

section Emission

variable {op : Opcode} {a b c : Nat} {i : Instruction}

theorem evals_push (h : s.Regular slack reach pending)
    (regular : (s.frame.push i).Regular (max (s.frame.peak + slack) reach) pending) :
    Evals slack reach pending s.frame.used s (s.push i) := .ofFrame h regular .ofPush rfl rfl rfl rfl

theorem emitStart_gives (h : s.Regular slack reach pending) (settled : s.frame.Settled)
    (starts : ∀ i : Instruction, i.opcode? = some op → i.b = b → i.c = c → i.Starts) (jump : op.isJump = false)
    (closure : op ≠ .closure) (small : a ≤ 255)
    (registers : ∀ r, op.Accesses a b c r → r < max (s.frame.peak + slack) reach)
    (constants : ∀ {bx k}, op.UsesConstant b c bx k → k < s.frame.constants.entries.size)
    (upvalues : ∀ {u}, op.UsesUpvalue a b u → u < s.frame.upvalues.size) (listed : op.listsAll b c = true) :
    Gives (Frame.emitAbc op a b c : LowerM Nat) s fun _ t => (∃ i, i.opcode? = some op ∧ i.a = a ∧ i.b = b ∧
      i.c = c ∧ t = s.push i) ∧ Evals slack reach pending s.frame.used s t := by
  refine .lift (Frame.emitAbc_gives small fun i hop ha hb hc => ⟨⟨i, hop, ha, hb, hc, rfl⟩, evals_push h ?_⟩)
  have fits : i.Fits (max (s.frame.peak + slack) reach) s.frame.constants.entries.size s.frame.upvalues.size := by
    subst ha hb hc
    exact .intro hop (registers _) listed constants upvalues
  exact h.frame.emit settled hop (starts i hop hb hc) jump closure fits

theorem Poised.emitAbc (h : s.Poised slack pending) (registers : ∀ r, op.Accesses a b c r → r < s.frame.peak)
    (plain : op.isPlain b c = true) (small : a ≤ 255)
    (constants : ∀ {bx k}, op.UsesConstant b c bx k → k < s.frame.constants.entries.size)
    (upvalues : ∀ {u}, op.UsesUpvalue a b u → u < s.frame.upvalues.size) :
    Restores slack pending (Frame.emitAbc op a b c : LowerM Nat) s := by
  have jump : op.isJump = false := by
    cases op <;> first
      | rfl
      | cases plain
  have closure : op ≠ .closure := by
    rintro rfl
    cases plain
  refine (emitStart_gives h.toRegular h.settled (fun i hop hb hc => ?_) jump closure small ?_ constants upvalues
    (Bool.and_eq_true _ _ ▸ plain).1).weaken ?_
  · exact Instruction.starts_of_isPlain hop (by rwa [hb, hc])
  · intro r accesses
    have := registers r accesses
    omega
  · rintro _ _ ⟨⟨i, hop, _, hb, hc, rfl⟩, evals⟩
    exact ⟨evals.used, evals.leads (.ofPush h.frame.recorded (Instruction.alone_of_isPlain hop (by rwa [hb, hc])))⟩

theorem Poised.emitLoadK (h : s.Poised slack pending) (k : Constant) (inside : a < s.frame.peak) :
    Restores slack pending (Frame.emitLoadK a k : LowerM Nat) s := by
  have numbered : Gives (Frame.constantIndex k) s.frame fun index f => index < f.constants.entries.size ∧
      f.used = s.frame.used ∧ Leads slack pending s ⟨f, s.enclosing⟩ := by
    refine .intro (fun index f run => ?_) fun e f run => by cases run
    obtain ⟨⟨known, used⟩, leads⟩ := (h.constantIndex k).ok (lift_run run)
    exact ⟨known, used, leads⟩
  refine .lift (.bind (numbered.weaken ?_))
  rintro index f ⟨known, used, leads⟩
  have bounds : s.frame.peak ≤ f.peak ∧ f.peak < 255 := ⟨leads.grown.peak, leads.frame.peak⟩
  have regular := leads.toRegular
  split
  · refine Frame.emitAbx_gives (by omega) fun i hop ha hbx => ?_
    have fits : i.Fits (max (f.peak + slack) 0) f.constants.entries.size f.upvalues.size := by
      refine .intro hop ?_ rfl ?_ False.elim
      · rintro r rfl
        omega
      · rintro k rfl
        omega
    have starts : i.Starts := ⟨by simp [hop], by simp [takesOpen, hop], by simp [hop]⟩
    have alone : i.binds = false := by
      simp [binds, isTest, hasExtra, isOpen, hop, Opcode.isTest]
    have pushed := evals_push regular (regular.frame.emit leads.settled hop starts rfl (by decide) fits)
    exact ⟨used, leads.trans (pushed.leads (.ofPush leads.frame.recorded alone))⟩
  · refine .bind (Frame.emitAbx_gives (by omega) fun i hop ha hbx => .bind (Frame.emitAx_gives fun j hop' hax => .pure ?_))
    have fits : i.Fits (max (f.peak + slack) 0) f.constants.entries.size f.upvalues.size := by
      have empty := i.bx_eq
      obtain ⟨hb, hc⟩ : i.b = 0 ∧ i.c = 0 := by omega
      refine .intro hop ?_ (by rw [hb, hc]; rfl) False.elim False.elim
      rintro r rfl
      omega
    have fits' : j.Fits (max (f.peak + slack) 0) f.constants.entries.size f.upvalues.size :=
      .intro hop' False.elim rfl False.elim False.elim
    have starts : i.Starts := ⟨by simp [hop], by simp [takesOpen, hop], by simp [hop]⟩
    have alone : j.binds = false := by
      simp [binds, isTest, hasExtra, isOpen, hop', Opcode.isTest]
    have first := evals_push regular (regular.frame.emit leads.settled hop starts rfl (by decide) fits)
    have second : ((f.push i).push j).Regular (max (f.peak + slack) 0) pending := by
      refine first.regular.frame.push (by simp [hop']) (fun empty => by simp at empty) ?_ ?_ ?_ fits' ?_ ?_
      · intro l last
        rw [push_frame, Frame.push_code, Array.back?_push] at last
        cases last
        exact
          { test := by simp [isTest, hop, Opcode.isTest]
            extra := by simp [hasExtra, hop, hop']
            results := by simp [isOpen, takesOpen, hop, hop']
            taken := by simp [isOpen, hop]
            generic := by simp [hop, hop']
            control := by simp [hop] }
      · intro jump
        simp [isJump, hop', Opcode.isJump] at jump
      · intro prep
        cases hop'.symm.trans prep
      · intro l _ _
        show j.axField < f.constants.entries.size
        omega
      · intro closure
        cases hop'.symm.trans closure
    have settled : ((f.push i).push j).Settled := .ofPush first.regular.frame.recorded alone
    exact ⟨used, leads.trans ((first.trans (evals_push first.regular second)).leads settled)⟩

end Emission

end Lowering

end LuaBytecode
