import LuaBytecode.Proofs.Appending.Steps
import LuaBytecode.Proofs.Logic.Tree
import LuaBytecode.Proofs.Lowering.Compound

namespace LuaBytecode

open Lowering ExpCode

/-- What statements leave in place that come behind the first `n` instructions: these, the constants, upvalues and
    functions, and the jumps that wait at a scope. The innermost scope may have been left. -/
structure Lowering.Prolongs (n : Nat) (leaves : Bool) (s t : Lowering) : Prop extends s.frame.Collects t.frame where
  pc : n ≤ t.frame.pc
  code : ∀ pc < n, t.frame.code[pc]? = s.frame.code[pc]?
  scopes : AddsBreaks (n ≤ ·) (if leaves then s.frame.scopes.tail else s.frame.scopes) t.frame.scopes
  around : List.Forall₂ Frame.Touched s.enclosing t.enclosing

namespace Lowering.Prolongs

variable {n : Nat} {leaves : Bool} {s t u : Lowering}

theorem ofGains (behind : n ≤ s.frame.pc) (h : s.Gains t) : Prolongs n false s t where
  toCollects := h.frame.toCollects
  pc := Nat.le_trans behind h.frame.pc_le
  code _ below := getElem?_of_prefixed h.frame.code (Nat.lt_of_lt_of_le below behind)
  scopes := by rw [h.frame.same]; exact .refl _
  around := h.around

theorem refl (behind : n ≤ s.frame.pc) : Prolongs n false s s := ofGains behind (.refl s)

theorem trans (first : Prolongs n false s t) (second : Prolongs n leaves t u) : Prolongs n leaves s u where
  toCollects := first.toCollects.trans second.toCollects
  pc := second.pc
  code pc below := (second.code pc below).trans (first.code pc below)
  scopes := by
    cases leaves with
    | false => exact first.scopes.trans second.scopes fun _ => id
    | true => exact first.scopes.tail.trans second.scopes fun _ => id
  around := touched_trans first.around second.around

theorem amended (h : Prolongs n leaves s t) {f : Frame} (amends : t.frame.Amends n f) :
    Prolongs n leaves s ⟨f, t.enclosing⟩ where
  pc := Nat.le_trans h.pc amends.pc
  code pc below := (amends.code pc below (Nat.lt_of_lt_of_le below h.pc)).trans (h.code pc below)
  constants := h.constants.trans amends.constants
  upvalues := by rw [amends.same]; exact h.upvalues
  functions := by rw [amends.same]; exact h.functions
  scopes := by rw [amends.same]; exact h.scopes
  around := h.around

end Lowering.Prolongs

def Prolonging {α : Type} (n : Nat) (leaves : Bool) (m : LowerM α) : Prop :=
  ∀ s a t, m s = .ok a t → n ≤ s.frame.pc → (leaves = true → ∀ pc ∈ s.frame.breaks, n ≤ pc) → s.Prolongs n leaves t

namespace Prolonging

variable {α β : Type} {n : Nat} {leaves : Bool} {m : LowerM α} {k : α → LowerM β} {steps : LowerM Unit}

theorem ofAdding {change : Nat → α → Nat → Prop} (h : Adding m change) : Prolonging n false m :=
  fun s a t run behind _ => .ofGains behind (h s a t run).1

theorem bind (h : Prolonging n false m) (rest : ∀ a, Prolonging n leaves (k a)) : Prolonging n leaves (m >>= k) := by
  intro s b u run behind fresh
  obtain ⟨a, t, first, run⟩ := bind_ok run
  have prolongs := h s a t first behind nofun
  exact prolongs.trans (rest a t b u run prolongs.pc fun leaves => prolongs.scopes.breaks (fresh leaves))

theorem step {m : FrameM α} (h : Frame.Mild n m) : Prolonging n false (liftM m : LowerM α) := by
  intro s a t run behind _
  obtain ⟨f, stepped, rfl⟩ := lift_ok run
  exact (Prolongs.refl behind).amended ((h s.frame).of_ok stepped).2

theorem emit {k : Nat → LowerM α} (next : ∀ pc, n ≤ pc → Prolonging n leaves (k pc)) (op : Opcode) (a : Nat) (sbx : Int) :
    Prolonging n leaves (liftM (Frame.emitAsbx op a sbx) >>= k) := by
  intro s b u run behind fresh
  obtain ⟨pc, t, emitted, run⟩ := bind_ok run
  obtain ⟨i, rfl, rfl, _⟩ := emitAsbx_lower emitted
  have pushed := (Prolongs.refl behind).amended (.ofPush i)
  exact pushed.trans (next _ behind _ b u run pushed.pc fresh)

theorem pure {a : α} : Prolonging n false (Pure.pure a : LowerM α) :=
  ofAdding (show Adding _ Balanced from .pure fun _ => rfl)

theorem declare (names : List String) (startPc : Nat) : Prolonging n false (Lowering.declare names startPc) := by
  unfold Lowering.declare
  induction names with
  | nil => exact .pure
  | cons name rest ih => exact ((step (.addLocal name startPc)).bind fun _ => .pure).bind fun _ => ih

theorem exit : Prolonging n true (Frame.exitScope : LowerM Unit) := by
  intro s _ t run behind fresh
  obtain ⟨f, left, rfl⟩ := lift_ok run
  have popped : s.Prolongs n true ⟨{ s.frame with scopes := s.frame.scopes.tail }, s.enclosing⟩ :=
    { Prolongs.refl behind with scopes := .refl _ }
  exact popped.amended ((Frame.exitScope_amends (fresh rfl)).of_ok left).2

theorem settle (first : Prolonging n true steps) {k : FrameM Unit} (h : Frame.Mild n k) :
    Prolonging n true (do steps; k) := by
  intro s _ u run behind fresh
  obtain ⟨_, t, done, run⟩ := bind_ok run
  obtain ⟨f, stepped, rfl⟩ := lift_ok run
  exact (first s _ t done behind fresh).amended ((h t.frame).of_ok stepped).2

theorem scope (isLoop : Bool) (h : Prolonging n true steps) : Prolonging n false (do Frame.enterScope isLoop; steps) := by
  intro s _ u run behind _
  obtain ⟨_, t, entered, run⟩ := bind_ok run
  obtain rfl := enterScope_lower entered
  have none : (s.enter isLoop).frame.breaks = [] := by cases isLoop <;> rfl
  have inside := h _ _ u run behind fun _ => none ▸ List.forall_mem_nil _
  exact { inside with scopes := inside.scopes }

theorem line (line : Nat) (h : Prolonging n false steps) : Prolonging n false (do Frame.setLine line; steps) := by
  intro s _ u run behind _
  obtain ⟨_, t, set, run⟩ := bind_ok run
  obtain ⟨f, set, rfl⟩ := lift_ok set
  cases set
  have inside := h _ _ u run behind nofun
  exact { inside with scopes := inside.scopes }

theorem leave : Prolonging n false emitBreak := by
  intro s _ t run behind _
  obtain ⟨_, i, _, _, rfl⟩ := emitBreak_lower run
  exact { (Prolongs.refl behind).amended (.ofPush i) with scopes := .pushBreak behind _ }

end Prolonging

section Functions

variable {body : LowerM Unit}

theorem enterFunction_around {params : List String} {isVararg : Bool} {s t : Lowering} {u : Unit}
    (run : enterFunction params isVararg s = .ok u t) :
    List.Forall₂ Frame.Touched (s.frame :: s.enclosing) t.enclosing := by
  obtain ⟨_, start, entered, run⟩ := bind_ok run
  cases entered
  exact (Prolonging.declare params 0 _ _ _ run (Nat.zero_le _) nofun).around

theorem emitFunction_adds (h : Prolonging 0 false body) (params : List String) (isVararg : Bool) (a : Nat) :
    Adding (emitFunction params isVararg body a) Balanced := by
  intro s u t run
  replace run := bind_get_ok run
  obtain ⟨_, s₁, entered, run⟩ := bind_ok run
  obtain ⟨_, s₂, lowered, run⟩ := bind_ok run
  obtain ⟨_, s₃, left, run⟩ := bind_ok run
  obtain ⟨_, s₄, returned, run⟩ := bind_ok run
  have inner := touched_trans (enterFunction_around entered) (h _ _ _ lowered (Nat.zero_le _) nofun).around
  -- The function around is the first of those that were touched meanwhile.
  obtain ⟨parent, outer, touched, around, shape⟩ := List.forall₂_cons_left_iff.mp inner
  obtain ⟨_, _, rfl⟩ := lift_ok left
  obtain ⟨child, _, rfl⟩ := lift_ok returned
  obtain ⟨_, s₅, back, run⟩ := bind_ok run
  rw [shape] at back
  cases back
  have makes := (Adding.addFunction (child.toPrototype none)).andThen fun index =>
    Adding.emitted (Instruction.abx .closure a index)
  obtain ⟨adds, used⟩ := makes _ _ _ run
  refine ⟨⟨(Frame.Gains.ofTouched touched).trans adds.frame, touched_trans around adds.around⟩, used.trans ?_⟩
  rw [touched.same]

end Functions

theorem Adding.logical {counted : Prop} {m k : LowerM Nat} (hl : Adding m fun u _ v => counted → v = u)
    (hr : Adding k fun u _ v => counted → v = u) (a n : Nat) :
    Adding (logicalCode m k a n) fun u _ v => counted → v = u := by
  intro s u t run
  obtain ⟨b, s₁, first, run⟩ := bind_ok run
  obtain ⟨adds, used⟩ := hl _ _ _ first
  obtain ⟨_, s₂, tested, run⟩ := bind_ok run
  obtain ⟨adds', used'⟩ := Adding.emit _ _ _ _ tested
  obtain ⟨done, s₃, jumped, run⟩ := bind_ok run
  obtain ⟨jump, rfl, rfl, _⟩ := emitJmp_lower jumped
  obtain ⟨c, s₄, second, run⟩ := bind_ok run
  obtain ⟨adds'', used''⟩ := hr _ _ _ second
  obtain ⟨_, s₅, moved, run⟩ := bind_ok run
  obtain ⟨move, rfl, _⟩ := emitAbc_lower moved
  obtain ⟨f, patched, rfl⟩ := lift_ok run
  obtain ⟨_, j, _, _, rfl⟩ := Frame.patchHere_ok patched
  have before := adds.trans adds'
  have between : s₂.frame.Gains (s₄.push move).frame :=
    ((Frame.Gains.ofPush jump).trans adds''.frame).trans (.ofPush move)
  have around : List.Forall₂ Frame.Touched s₂.enclosing s₄.enclosing := adds''.around
  refine ⟨⟨(before.frame.trans between).replace before.frame.pc_le j, touched_trans before.around around⟩, ?_⟩
  exact fun c => (used'' c).trans (used'.trans (used c))

/-- Lowering an expression adds to the frame, and if registers are `counted`, those in use change as the logic tells. -/
def appending (counted : Prop) : StatLogic Weights.none where
  Holds _ P m _ := Adding m fun u _ v => counted → P u v
  Does n leaves _ m _ := Prolonging n leaves m
  pure _ := .pure fun _ _ => rfl
  weaken h weaker := h.weaken fun u _ v given c => weaker u v (given c)
  bind h rest := h.bind fun a => (rest a).weaken fun _ _ _ given u before c => given c u (before c)
  lift h := (Adding.modest h).always
  observe _ _ := (Adding.get.andThen fun _ => .pure fun _ => rfl).always
  scratch h := (Adding.scratch (h.weaken fun _ _ _ _ => trivial)).always
  environment := (Adding.resolve environment).always
  vararg a n := by
    refine (Adding.get.andThen fun s => ?_).always
    dsimp only
    split
    · exact Adding.emitted _
    · intro _ _ _ run
      cases run
  noTarget _ _ _ _ _ _ := .throw
  logical a n first second := .logical first second a n
  names x := (Adding.resolve x).always
  ofHolds := .ofAdding
  next := .bind
  step := .step
  emit op a sbx next := .emit next op a sbx
  exit := .exit
  settle h mild := h.settle mild
  scope := .scope
  line := .line
  leave := .leave
  goto _ := .ofAdding (show Adding _ Balanced from .throw)
  function fn a h := (emitFunction_adds (h 0) fn.params fn.isVararg a).always

theorem not_counts_appending : ¬(appending False).Counts := by
  refine not_not_intro fun _ _ P Q m _ h => ?_
  have adds : Adding m fun u _ v => False → P u v := h
  show Adding m fun u _ v => False → Q u v
  exact adds.weaken fun _ _ _ _ => False.elim

namespace ExpCode

def Tidy (e : ExpCode) : Prop := ∃ e', Walks (appending True).toLogic e e'

variable {e lhs rhs : ExpCode} {exps : List ExpCode}

theorem Tidy.emit (h : e.Tidy) (a : Nat) (n : Int) : Adding (e.emit a n) Balanced := by
  obtain ⟨_, walks⟩ := h
  exact .now (walks.emit a n)

theorem Tidy.toRk (h : e.Tidy) : Adding e.toRk fun u _ v => u ≤ v := by
  obtain ⟨_, walks⟩ := h
  exact .now walks.toRk

theorem toRks_adds (hl : lhs.Tidy) (hr : rhs.Tidy) : Adding (toRks lhs rhs) Balanced := by
  obtain ⟨_, left⟩ := hl
  obtain ⟨_, right⟩ := hr
  exact .now (toRks_holds left right)

theorem loadValues_adds (h : ∀ e ∈ exps, e.Tidy) (want : Nat) : Adding (loadValues exps want) fun u _ v => u ≤ v := by
  have walk : ∃ exps', List.Forall₂ (Walks (appending True).toLogic) exps exps' := by
    induction exps with
    | nil => exact ⟨[], .nil⟩
    | cons e rest ih =>
      obtain ⟨⟨e', first⟩, others⟩ := List.forall_mem_cons.mp h
      obtain ⟨rest', walks⟩ := ih others
      exact ⟨e' :: rest', .cons first walks⟩
  obtain ⟨_, walks⟩ := walk
  exact .now (loadValues_holds walks want)

theorem constantRk?_adds (e : ExpCode) : Adding e.constantRk? Balanced := by
  unfold constantRk?
  split
  · exact .pure fun _ => rfl
  · exact (Adding.modest (.constantIndex _)).andThen fun _ => .pure fun _ => rfl

end ExpCode

section Tree

variable {P : List String → Prop}

theorem Exp.code_tidy (e : Exp) (paired : e.Paired P) : e.code.Tidy :=
  ⟨_, e.code_walks (appending True) fun _ => paired⟩

theorem Exp.codes_tidy (exps : List Exp) (paired : Exp.AllPaired P exps) : ∀ e ∈ Exp.codes exps [], e.Tidy := by
  intro e member
  obtain ⟨_, _, walks⟩ := exists_of_forall₂_left (Exp.codes_walk (appending True) exps fun _ => paired) member
  exact ⟨_, walks⟩

end Tree

/-- What has been lowered stays in place, unchanged, and what is new comes behind it. The functions around the current
    one may only get upvalues and marks on their variables. -/
structure Lowering.OnlyAppends (s t : Lowering) : Prop extends s.frame.Collects t.frame where
  code : s.frame.code.toList <+: t.frame.code.toList
  depth : t.frame.depth = s.frame.depth
  breaks : List.Forall₂ (Option.Rel fun pending pending' : Array Nat => pending.toList <+: pending'.toList)
    s.frame.scopes t.frame.scopes
  around : List.Forall₂ Frame.Touched s.enclosing t.enclosing

theorem Lowering.Prolongs.onlyAppends {s t : Lowering} (h : Prolongs s.frame.pc false s t) : s.OnlyAppends t where
  toCollects := h.toCollects
  code := by
    rw [List.prefix_iff_getElem?]
    intro pc inside
    rw [Array.length_toList] at inside
    rw [Array.getElem?_toList, h.code pc inside, Array.getElem?_eq_getElem inside, Array.getElem_toList]
  depth := h.scopes.length_eq
  breaks := h.scopes.prefixed
  around := h.around

/-- Lowering an expression or a statement only appends, whatever was lowered before. -/
theorem Lowering.code_appends :
    (∀ (e : Exp) (a : Nat) (n : Int) (s t : Lowering), e.code.emit a n s = .ok () t → s.OnlyAppends t) ∧
      ∀ (stat : Stat) (s t : Lowering), stat.code s = .ok () t → s.OnlyAppends t := by
  constructor
  · intro e a n s t run
    have walks := e.code_walks (P := fun _ => True) (appending False) fun counts => (not_counts_appending counts).elim
    exact (Prolongs.ofGains Nat.le.refl (walks.emit a n s () t run).1).onlyAppends
  · rintro ⟨line, kind⟩ s t run
    have does := StatKind.code_does (P := fun _ => True) (appending False) kind (n := s.frame.pc)
      fun counts => (not_counts_appending counts).elim
    exact (Prolonging.line line does s () t run Nat.le.refl nofun).onlyAppends

theorem Lowering.code_appends_of_break :
    ∃ s t u : Lowering, (Exp.function [] false []).code.emit 0 1 s = .ok () t ∧ (Stat.mk 2 .breakLoop).code t = .ok () u ∧
      s.frame.scopes = [some #[0]] ∧ u.frame.scopes = [some #[0, 2]] ∧ u.frame.functions.size = 1 ∧
      s.OnlyAppends t ∧ t.OnlyAppends u := by
  have ran : ∃ s t u : Lowering, (Exp.function [] false []).code.emit 0 1 s = .ok () t ∧
      (Stat.mk 2 .breakLoop).code t = .ok () u ∧ s.frame.scopes = [some #[0]] ∧ u.frame.scopes = [some #[0, 2]] ∧
      u.frame.functions.size = 1 :=
    ⟨⟨{ Frame.new 0 false 1 with used := 1, scopes := [some #[0]], code := #[⟨0⟩] }, []⟩, _, _, rfl, rfl, rfl, rfl, rfl⟩
  obtain ⟨s, t, u, made, left, waited, waits, one⟩ := ran
  obtain ⟨exps, stats⟩ := code_appends
  exact ⟨s, t, u, made, left, waited, waits, one, exps _ _ _ _ _ made, stats _ _ _ left⟩

end LuaBytecode
