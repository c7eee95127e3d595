import LuaBytecode.Proofs.Frame.Spares

namespace LuaBytecode

namespace Frame

inductive Op where
  | alloc
  | allocN (n : Nat)
  | free
  | freeN (n : Nat)
  | setUsed (n : Nat)
  | setLine (line : Nat)
  | constantIndex (k : Constant)
  | addUpvalue (name : String) (inStack : Bool) (index : Nat)
  | addFunction (p : Prototype)
  | emit (i : Except OperandError Instruction)
  | emitLoadK (a : Nat) (k : Constant)
  | emitSetList (a n batch : Nat)
  | patch (pc target : Nat)
  | patchHere (pc : Nat)
  | closeCaptured
  | addBreak (pc : Nat)
  | capture (name : String)
  | addLocal (name : String) (startPc : Nat)
  | enterScope (isLoop : Bool)
  | exitScope

namespace Op

def isPlain : Op → Bool
  | capture _ | addLocal .. | enterScope _ | exitScope => false
  | _ => true

/-- Where a variable comes or a scope begins or ends, no register is in use but those of the variables. -/
def isTidy (f : Frame) : Op → Bool
  | addLocal .. | enterScope _ | exitScope => f.used == f.live.length
  | _ => true

def run [NameOrder] : Op → FrameM Unit
  | alloc => do let _ ← Frame.alloc
  | allocN n => do let _ ← Frame.allocN n
  | free => Frame.free
  | freeN n => Frame.freeN n
  | setUsed n => Frame.setUsed n
  | setLine line => Frame.setLine line
  | constantIndex k => do let _ ← Frame.constantIndex k
  | addUpvalue name inStack index => do let _ ← Frame.addUpvalue name inStack index
  | addFunction p => do let _ ← Frame.addFunction p
  | emit i => do let _ ← Frame.emit i
  | emitLoadK a k => do let _ ← Frame.emitLoadK a k
  | emitSetList a n batch => do let _ ← Frame.emitSetList a n batch
  | patch pc target => Frame.patch pc target
  | patchHere pc => Frame.patchHere pc
  | closeCaptured => Frame.closeCaptured
  | addBreak pc => Frame.addBreak pc
  | capture name => do let _ ← Frame.capture name
  | addLocal name startPc => do let _ ← Frame.addLocal name startPc
  | enterScope isLoop => Frame.enterScope isLoop
  | exitScope => Frame.exitScope

end Op

variable [NameOrder] {f g h : Frame} {op : Op} {ops : List Op}

structure Step (f : Frame) (op : Op) (g : Frame) : Prop where
  tidy : op.isTidy f = true
  run : op.run f = .ok () g

/-- The frame after steps that all succeed where registers are used as a stack. -/
def perform? (f : Frame) : List Op → Option Frame
  | [] => some f
  | op :: ops =>
    match op.isTidy f, op.run f with
    | true, .ok () g => g.perform? ops
    | _, _ => none

theorem perform?_cons : f.perform? (op :: ops) = some h ↔ ∃ g, Step f op g ∧ g.perform? ops = some h := by
  rw [perform?]
  constructor
  · intro done
    split at done
    · rename_i g tidy run
      exact ⟨g, ⟨tidy, run⟩, done⟩
    · cases done
  · rintro ⟨g, step, rest⟩
    rw [step.tidy, step.run]
    exact rest

theorem perform?_append {more : List Op} :
    f.perform? (ops ++ more) = some h ↔ ∃ g, f.perform? ops = some g ∧ g.perform? more = some h := by
  induction ops generalizing f with
  | nil => simp [perform?]
  | cons op ops ih =>
    simp only [List.cons_append, perform?_cons, ih]
    constructor
    · rintro ⟨k, step, g, first, rest⟩
      exact ⟨g, ⟨k, step, first⟩, rest⟩
    · rintro ⟨g, ⟨k, step, first⟩, rest⟩
      exact ⟨k, step, g, first, rest⟩

def Reached (f : Frame) : Prop :=
  ∃ params isVararg line path ops, (Frame.new params isVararg line path).perform? ops = some f

def Stacked (f : Frame) : Prop := Stack f.depth f.locals.size f.live

omit [NameOrder] in
theorem Stacked.depth_le (stacked : f.Stacked) {b : Binding} (member : b ∈ f.live) : b.depth ≤ f.depth :=
  Stack.depth_le stacked member

/-- What a step does to variables and scopes. At the outermost level there is no scope to leave. -/
inductive Effect (f g : Frame) : Op → Prop where
  | keep {op : Op} (plain : op.isPlain = true) (live : g.live = f.live) (locals : g.locals = f.locals)
    (slots : g.slots = f.slots) (depth : g.depth = f.depth) : Effect f g op
  | capture {name : String} (same : g = { f with live := markCaptured name f.live }) : Effect f g (.capture name)
  | addLocal {name : String} {startPc : Nat} (tidy : f.used = f.live.length) (same : g = f.withLocal name startPc) :
    Effect f g (.addLocal name startPc)
  | enterScope {isLoop : Bool} (tidy : f.used = f.live.length) (same : g = f.enter isLoop) :
    Effect f g (.enterScope isLoop)
  | exitScope (depth : g.depth = f.depth - 1) (live : g.live = f.live.filter fun b => b.depth ≤ f.depth - 1)
    (locals : g.locals = endLocals f.locals (f.live.filter fun b => f.depth - 1 < b.depth) f.pc)
    (slots : g.slots = f.slots) (used : g.used = g.live.length) : Effect f g .exitScope

namespace Effect

variable {α : Type} {m : FrameM α} {P : Nat → Nat → Prop}

omit [NameOrder]

theorem ofPlain {a : α} (h : Plain m P) (plain : op.isPlain = true) (run : m f = .ok a g) : Effect f g op :=
  have spares := (h run).1
  .keep plain spares.live spares.locals spares.slots spares.depth

theorem ofPlainThen {u : Unit} (h : Plain m P) (plain : op.isPlain = true)
    (run : (do let _ ← m : FrameM Unit) f = .ok u g) : Effect f g op := by
  obtain ⟨a, g', first, rest⟩ := bind_ok run
  cases rest
  exact .ofPlain h plain first

end Effect

theorem exitScope_outermost {u : Unit} (closed : f.scopes = []) (shallow : ∀ b ∈ f.live, b.depth ≤ 0)
    (run : Frame.exitScope f = .ok u g) : g = { f with scopes := [] } := by
  obtain ⟨k, landed, retired⟩ := exitScope_steps run
  have breaks : f.breaks = [] := by rw [breaks, closed]; rfl
  rw [breaks, closed] at landed
  cases landed
  have none : ({ f with scopes := [] } : Frame).retiring = [] := by
    rw [retiring, List.filter_eq_nil_iff]
    intro x _ deep
    cases found : ({ f with scopes := [] } : Frame).binding? x with
    | none => simp [found] at deep
    | some b =>
      have := shallow b (List.mem_of_find?_eq_some found)
      simp only [found, Option.any_some, decide_eq_true_eq] at deep
      omega
  rw [List.tail_nil, none] at retired
  cases retired
  rfl

theorem exitScope_effect {u : Unit} (stacked : f.Stacked) (tidy : f.used = f.live.length)
    (run : Frame.exitScope f = .ok u g) : Effect f g .exitScope := by
  rcases Nat.eq_zero_or_pos f.depth with outermost | opened
  · have closed : f.scopes = [] := List.length_eq_zero_iff.mp outermost
    have shallow : ∀ b ∈ f.live, b.depth ≤ 0 := fun b member => outermost ▸ stacked.depth_le member
    have same := exitScope_outermost closed shallow run
    subst same
    have all : (f.live.filter fun b => b.depth ≤ f.depth - 1) = f.live := by
      rw [List.filter_eq_self]
      intro b member
      simpa [outermost] using shallow b member
    have none : (f.live.filter fun b => f.depth - 1 < b.depth) = [] := by
      rw [List.filter_eq_nil_iff]
      intro b member
      have := shallow b member
      simp only [decide_eq_true_eq]
      omega
    exact .exitScope (by rw [outermost]; rfl) all.symm (by rw [none]; rfl) rfl tidy
  · obtain ⟨same, given, _⟩ := exitScope_ends opened stacked.layered run
    have live : g.live = f.live.filter fun b => b.depth ≤ f.depth - 1 := by
      rw [same]
      apply List.filter_congr
      intro b _
      rw [decide_eq_decide]
      omega
    have gone : ∀ b, b ∈ f.leaving f.depth ↔ b ∈ f.live.filter fun b => f.depth - 1 < b.depth := by
      intro b
      rw [mem_leaving (Stack.layered stacked), List.mem_filter, decide_eq_true_eq]
      exact and_congr_right fun _ => by omega
    have depth : g.depth = f.depth - 1 := by
      rw [same]
      exact List.length_tail
    refine .exitScope depth live ?_ (by rw [same]) (by omega)
    rw [← endLocals_congr gone, same]

/-- Where registers are used as a stack, all that can go wrong with leaving a scope is landing the jumps out of it. -/
theorem exitScope_succeeds (stacked : f.Stacked) (tidy : f.used = f.live.length)
    (landed : f.breaks.forM (landBreak f.scopeLevel) { f with scopes := f.scopes.tail } = .ok () h) :
    ∃ g, Frame.exitScope f = .ok () g := by
  obtain ⟨same, _⟩ := forM_landBreak_code landed
  have room : h.live.length ≤ h.used := by
    rw [same]
    exact Nat.le_of_eq tidy.symm
  have known : ∀ b ∈ h.live, b.record < h.locals.size := by
    rw [same]
    exact fun _ => Stack.record_lt stacked
  obtain ⟨g, retired⟩ := forM_retire_room h.retiring room known
  refine ⟨g, ?_⟩
  rw [exitScope_eq]
  exact (bind_run landed).trans retired

theorem Step.effect (step : Step f op g) (stacked : f.Stacked) : Effect f g op := by
  obtain ⟨tidy, run⟩ := step
  cases op with
  | alloc => exact .ofPlainThen .alloc rfl run
  | allocN n => exact .ofPlainThen .allocN rfl run
  | free => exact .ofPlain .free rfl run
  | freeN n => exact .ofPlain .freeN rfl run
  | setUsed n =>
    cases run
    exact .keep rfl rfl rfl rfl rfl
  | setLine line => exact .ofPlain .setLine rfl run
  | constantIndex k => exact .ofPlainThen .constantIndex rfl run
  | addUpvalue name inStack index =>
    obtain ⟨_, _, first, rest⟩ := bind_ok run
    cases rest
    unfold Frame.addUpvalue at first
    split at first
    · cases first
    · split at first
      · cases first
        exact .keep rfl rfl rfl rfl rfl
      · cases first
        exact .keep rfl rfl rfl rfl rfl
  | addFunction p =>
    cases run
    exact .keep rfl rfl rfl rfl rfl
  | emit i => exact .ofPlainThen .emit rfl run
  | emitLoadK a k => exact .ofPlainThen .emitLoadK rfl run
  | emitSetList a n batch => exact .ofPlainThen .emitSetList rfl run
  | patch pc target => exact .ofPlain .patch rfl run
  | patchHere pc => exact .ofPlain .patchHere rfl run
  | closeCaptured => exact .ofPlain .closeCaptured rfl run
  | addBreak pc => exact .ofPlain .addBreak rfl run
  | capture name =>
    cases run
    exact .capture rfl
  | addLocal name startPc =>
    obtain ⟨r, _, first, rest⟩ := bind_ok run
    cases rest
    exact .addLocal (beq_iff_eq.mp tidy) (addLocal_ok first).2.2
  | enterScope isLoop => exact .enterScope (beq_iff_eq.mp tidy) (enterScope_ok run)
  | exitScope => exact exitScope_effect stacked (beq_iff_eq.mp tidy) run

omit [NameOrder] in
theorem Effect.stacked (effect : Effect f g op) (stacked : f.Stacked) : g.Stacked := by
  cases effect with
  | keep _ live locals _ depth => rwa [Stacked, live, locals, depth]
  | capture same =>
    subst same
    exact (RemainAll.ofMarkCaptured _ f.live).stack stacked
  | @addLocal name startPc tidy same =>
    subst same
    have size : (f.withLocal name startPc).locals.size = f.locals.size + 1 := Array.size_push ..
    rw [Stacked, size]
    exact ⟨Nat.le.refl, Nat.lt_succ_self _, tidy, stacked⟩
  | enterScope _ same =>
    subst same
    exact Stack.mono stacked (Nat.le_succ _) Nat.le.refl
  | exitScope depth live locals _ _ =>
    rw [Stacked, live, locals, endLocals_size, depth]
    simpa only [Nat.lt_succ_iff] using Stack.outer stacked (f.depth - 1)

theorem perform?_stacked (run : f.perform? ops = some g) (stacked : f.Stacked) : g.Stacked := by
  induction ops generalizing f with
  | nil =>
    cases run
    exact stacked
  | cons op ops ih =>
    obtain ⟨k, step, rest⟩ := perform?_cons.mp run
    exact ih rest ((step.effect stacked).stacked stacked)

theorem Reached.stacked (reached : f.Reached) : f.Stacked := by
  obtain ⟨params, isVararg, line, path, ops, run⟩ := reached
  exact perform?_stacked run trivial

end Frame

end LuaBytecode
