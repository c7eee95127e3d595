import LuaBytecode.Proofs.Frame.Operations
import LuaBytecode.Proofs.Lowering.Regular

namespace LuaBytecode

theorem RemainAll.filter {live live' : List Binding} (h : RemainAll live live') (p : Nat → Bool) :
    RemainAll (live.filter (p ·.record)) (live'.filter (p ·.record)) := by
  induction h with
  | nil => exact .nil
  | @cons b b' _ _ head _ ih =>
    rw [List.filter_cons, List.filter_cons, head.record]
    split
    · exact .cons head ih
    · exact ih

namespace Frame

/-- The scopes that are open after a step, if `n` have been before. None is left that has not been entered. -/
def Op.nest : Op → Nat → Option Nat
  | enterScope _, n => some (n + 1)
  | exitScope, 0 => none
  | exitScope, n + 1 => some n
  | _, n => some n

def nesting (n : Nat) (ops : List Op) : Option Nat := ops.foldlM (fun n op => op.nest n) n

def Op.Balanced (ops : List Op) : Prop := nesting 0 ops = some 0

section Nesting

variable {n m : Nat} {op : Op} {ops more : List Op}

theorem nesting_cons : nesting n (op :: ops) = some m ↔ ∃ k, op.nest n = some k ∧ nesting k ops = some m := by
  rw [nesting, List.foldlM_cons]
  exact Option.bind_eq_some_iff

theorem nesting_append : nesting n (ops ++ more) = some m ↔ ∃ k, nesting n ops = some k ∧ nesting k more = some m := by
  rw [nesting, List.foldlM_append]
  exact Option.bind_eq_some_iff

theorem Op.nest_succ {k : Nat} (h : op.nest n = some k) : op.nest (n + 1) = some (k + 1) := by
  cases op with
  | exitScope =>
    cases n with
    | zero => cases h
    | succ n =>
      cases h
      rfl
  | _ =>
    cases h
    rfl

theorem nesting_succ (h : nesting n ops = some m) : nesting (n + 1) ops = some (m + 1) := by
  induction ops generalizing n with
  | nil =>
    cases h
    rfl
  | cons op ops ih =>
    obtain ⟨k, first, rest⟩ := nesting_cons.mp h
    exact nesting_cons.mpr ⟨k + 1, op.nest_succ first, ih rest⟩

theorem exists_exit {k : Nat} (h : nesting (n + 1 + k) ops = some m) (out : m ≤ n) : ∃ inner after,
    ops = inner ++ .exitScope :: after ∧ nesting k inner = some 0 ∧ nesting n after = some m := by
  induction ops generalizing k with
  | nil =>
    cases h
    omega
  | cons op ops ih =>
    obtain ⟨j, first, rest⟩ := nesting_cons.mp h
    by_cases leaves : op = .exitScope ∧ k = 0
    · obtain ⟨rfl, rfl⟩ := leaves
      cases first
      exact ⟨[], ops, rfl, rfl, rest⟩
    · have inside : ∃ i, op.nest k = some i ∧ j = n + 1 + i := by
        cases op with
        | enterScope isLoop =>
          cases first
          exact ⟨k + 1, rfl, rfl⟩
        | exitScope =>
          cases k with
          | zero => exact absurd ⟨rfl, rfl⟩ leaves
          | succ k =>
            cases first
            exact ⟨k, rfl, rfl⟩
        | _ =>
          cases first
          exact ⟨k, rfl, rfl⟩
      obtain ⟨i, nest, rfl⟩ := inside
      obtain ⟨inner, after, rfl, balanced, outside⟩ := ih rest
      exact ⟨op :: inner, after, rfl, nesting_cons.mpr ⟨i, nest, balanced⟩, outside⟩

end Nesting

/-- What becomes of a frame in scopes above it. The newer bindings are those with newer records. -/
structure Within (f g : Frame) (n : Nat) : Prop where
  depth : g.depth = f.depth + n
  live : RemainAll f.live (g.live.filter fun b => b.record < f.locals.size)
  deep : ∀ b ∈ g.live, f.locals.size ≤ b.record → f.depth ≤ b.depth
  size : f.locals.size ≤ g.locals.size
  locals : ∀ r < f.locals.size, g.locals[r]? = f.locals[r]?
  slots : f.slots.toList <+: g.slots.toList

namespace Within

variable {f g g' : Frame} {n m : Nat} {op : Op}

theorem refl (stacked : f.Stacked) : Within f f 0 := by
  refine ⟨rfl, ?_, fun b member newer => ?_, Nat.le.refl, fun _ _ => rfl, List.prefix_rfl⟩
  · rw [List.filter_eq_self.mpr fun b member => decide_eq_true (Stack.record_lt stacked member)]
    exact .refl _
  · have := Stack.record_lt stacked member
    omega

theorem depth_le (h : Within f g n) (stacked : f.Stacked) {b : Binding} (member : b ∈ g.live)
    (older : b.record < f.locals.size) : b.depth ≤ f.depth := by
  obtain ⟨c, member', same⟩ := h.live.backward (List.mem_filter.mpr ⟨member, decide_eq_true older⟩)
  rw [same.depth]
  exact stacked.depth_le member'

theorem capture (h : Within f g n) (name : String) : Within f { g with live := markCaptured name g.live } n := by
  have marked := RemainAll.ofMarkCaptured name g.live
  refine { h with live := h.live.trans (marked.filter (· < f.locals.size)), deep := fun b member newer => ?_ }
  obtain ⟨c, member', same⟩ := marked.backward member
  rw [same.depth]
  exact h.deep c member' (same.record ▸ newer)

theorem addLocal (h : Within f g n) (name : String) (startPc : Nat) : Within f (g.withLocal name startPc) n := by
  have size := h.size
  refine ⟨h.depth, ?_, ?_, ?_, fun r older => ?_, ?_⟩
  · have newer : ¬g.locals.size < f.locals.size := by omega
    rw [withLocal, List.filter_cons_of_neg (by simpa using newer)]
    exact h.live
  · refine List.forall_mem_cons.mpr ⟨fun _ => ?_, h.deep⟩
    have := h.depth
    show f.depth ≤ g.depth
    omega
  · rw [withLocal, Array.size_push]
    omega
  · rw [withLocal, Array.getElem?_push_lt (by omega)]
    rw [← Array.getElem?_eq_getElem (by omega)]
    exact h.locals r older
  · rw [withLocal, Array.toList_push]
    exact h.slots.trans (List.prefix_append ..)

theorem exitScope (h : Within f g (n + 1)) (stacked : f.Stacked) (depth : g'.depth = g.depth - 1)
    (live : g'.live = g.live.filter fun b => b.depth ≤ g.depth - 1)
    (locals : g'.locals = endLocals g.locals (g.live.filter fun b => g.depth - 1 < b.depth) g.pc)
    (slots : g'.slots = g.slots) : Within f g' n := by
  have deeper := h.depth
  have older : ∀ b ∈ g.live, b.record < f.locals.size → b.depth ≤ g.depth - 1 := fun b member old => by
    have := h.depth_le stacked member old
    omega
  refine ⟨by omega, ?_, ?_, ?_, fun r old => ?_, slots ▸ h.slots⟩
  · rw [live, List.filter_filter]
    have same : (g.live.filter fun b => decide (b.record < f.locals.size) && decide (b.depth ≤ g.depth - 1)) =
        g.live.filter fun b => decide (b.record < f.locals.size) := by
      apply List.filter_congr
      intro b member
      by_cases old : b.record < f.locals.size
      · simp [old, older b member old]
      · simp [old]
    rw [same]
    exact h.live
  · rw [live]
    exact fun b member => h.deep b (List.mem_of_mem_filter member)
  · rw [locals, endLocals_size]
    exact h.size
  · rw [locals, getElem?_endLocals_other, h.locals r old]
    rintro b member rfl
    obtain ⟨member, gone⟩ := List.mem_filter.mp member
    have := older b member old
    rw [decide_eq_true_eq] at gone
    omega

theorem step (h : Within f g n) (stacked : f.Stacked) (effect : Effect g g' op) (nest : op.nest n = some m) :
    Within f g' m := by
  cases effect with
  | keep plain live locals slots depth =>
    have same : op.nest n = some n := by
      cases op with
      | enterScope | exitScope => cases plain
      | _ => rfl
    rw [same] at nest
    cases nest
    exact ⟨depth ▸ h.depth, live ▸ h.live, live ▸ h.deep, locals ▸ h.size, locals ▸ h.locals, slots ▸ h.slots⟩
  | capture same =>
    subst same
    cases nest
    exact h.capture _
  | addLocal _ same =>
    subst same
    cases nest
    exact h.addLocal _ _
  | enterScope _ same =>
    subst same
    cases nest
    exact { h with depth := by rw [enter_depth, h.depth]; rfl }
  | exitScope depth live locals slots _ =>
    cases n with
    | zero => cases nest
    | succ n =>
      cases nest
      exact h.exitScope stacked depth live locals slots

end Within

section Runs

variable [NameOrder] {f g h : Frame} {n m r : Nat} {op : Op} {ops : List Op}

theorem Within.perform? (within : Within f g n) (stacked : f.Stacked) (run : g.perform? ops = some h) (there : g.Stacked)
    (nest : nesting n ops = some m) : Within f h m := by
  induction ops generalizing g n with
  | nil =>
    cases run
    cases nest
    exact within
  | cons op ops ih =>
    obtain ⟨k, step, rest⟩ := perform?_cons.mp run
    obtain ⟨i, first, nest⟩ := nesting_cons.mp nest
    have effect := step.effect there
    exact ih (within.step stacked effect first) rest (effect.stacked there) nest

section Records

omit [NameOrder]

def Retired (f : Frame) (r : Nat) : Prop := r < f.locals.size ∧ ∀ b ∈ f.live, b.record ≠ r

theorem Effect.retired (effect : Effect f g op) (retired : f.Retired r) :
    g.Retired r ∧ g.locals[r]? = f.locals[r]? := by
  obtain ⟨made, gone⟩ := retired
  cases effect with
  | keep _ live locals _ _ => exact ⟨⟨locals ▸ made, live ▸ gone⟩, by rw [locals]⟩
  | @capture name same =>
    subst same
    refine ⟨⟨made, fun b member => ?_⟩, rfl⟩
    obtain ⟨c, member', same⟩ := (RemainAll.ofMarkCaptured name f.live).backward member
    rw [same.record]
    exact gone c member'
  | addLocal _ same =>
    subst same
    refine ⟨⟨?_, List.forall_mem_cons.mpr ⟨Nat.ne_of_gt made, gone⟩⟩, ?_⟩
    · rw [withLocal, Array.size_push]
      omega
    · rw [withLocal, Array.getElem?_push_lt made, Array.getElem?_eq_getElem made]
  | enterScope _ same =>
    subst same
    exact ⟨⟨made, gone⟩, rfl⟩
  | exitScope _ live locals _ _ =>
    rw [Retired, live, locals, endLocals_size]
    refine ⟨⟨made, fun b member => gone b (List.mem_of_mem_filter member)⟩, ?_⟩
    exact getElem?_endLocals_other fun b member => gone b (List.mem_of_mem_filter member)

theorem Effect.ends (effect : Effect f g .exitScope) (stacked : f.Stacked) (opened : 0 < f.depth) {b : Binding}
    (member : b ∈ f.live) (depth : b.depth = f.depth) :
    g.Retired b.record ∧ g.locals[b.record]? = (f.locals[b.record]?).map fun v => { v with endPc := f.pc } := by
  cases effect with
  | keep plain => cases plain
  | exitScope _ live locals _ _ =>
    have gone : ∃ c ∈ f.live.filter (fun c => f.depth - 1 < c.depth), c.record = b.record :=
      ⟨b, List.mem_filter.mpr ⟨member, decide_eq_true (by omega)⟩, rfl⟩
    refine ⟨⟨?_, fun c kept record => ?_⟩, ?_⟩
    · rw [locals, endLocals_size]
      exact Stack.record_lt stacked member
    · rw [live, List.mem_filter, decide_eq_true_eq] at kept
      obtain rfl := Stack.eq_of_record stacked kept.1 member record
      omega
    · simp only [locals, getElem?_endLocals, if_pos gone]

theorem Effect.locals_size (effect : Effect f g op) : g.locals.size = f.locals.size ∨
    ∃ name startPc, op = .addLocal name startPc ∧ g.locals.size = f.locals.size + 1 := by
  cases effect with
  | keep _ _ locals _ _ => exact .inl (by rw [locals])
  | capture same => exact .inl (by rw [same])
  | enterScope _ same => exact .inl (by rw [same]; rfl)
  | addLocal _ same =>
    subst same
    exact .inr ⟨_, _, rfl, Array.size_push ..⟩
  | exitScope _ _ locals _ _ => exact .inl (by rw [locals, endLocals_size])

end Records

theorem perform?_retired (run : f.perform? ops = some g) (stacked : f.Stacked) (retired : f.Retired r) :
    g.locals[r]? = f.locals[r]? := by
  induction ops generalizing f with
  | nil =>
    cases run
    rfl
  | cons op ops ih =>
    obtain ⟨k, step, rest⟩ := perform?_cons.mp run
    have effect := step.effect stacked
    obtain ⟨still, same⟩ := effect.retired retired
    rw [ih rest (effect.stacked stacked) still, same]

theorem exists_addLocal (run : f.perform? ops = some g) (stacked : f.Stacked) (later : f.locals.size ≤ r)
    (made : r < g.locals.size) : ∃ before name startPc after h,
      ops = before ++ .addLocal name startPc :: after ∧ f.perform? before = some h ∧ h.locals.size = r := by
  induction ops generalizing f with
  | nil =>
    cases run
    omega
  | cons op ops ih =>
    obtain ⟨k, step, rest⟩ := perform?_cons.mp run
    have effect := step.effect stacked
    by_cases before : k.locals.size ≤ r
    · obtain ⟨before, name, startPc, after, h, rfl, first, size⟩ := ih rest (effect.stacked stacked) before
      exact ⟨op :: before, name, startPc, after, h, rfl, perform?_cons.mpr ⟨k, step, first⟩, size⟩
    · rcases effect.locals_size with same | ⟨name, startPc, rfl, more⟩
      · omega
      · exact ⟨[], name, startPc, ops, f, rfl, rfl, by omega⟩

/-- The life of a variable that is added after the steps `before`. The steps `inner` are done while its scope is open, and
    `after` when it has been left. -/
structure Lifetime (f : Frame) (r : Nat) (name : String) (startPc : Nat) (before inner after : List Op) : Prop where
  balanced : Op.Balanced inner
  added : ∃ g, f.perform? before = some g ∧ g.locals.size = r
  running : ∀ done rest, inner = done ++ rest → ∃ g,
    f.perform? (before ++ .addLocal name startPc :: done) = some g ∧ g.locals[r]? = some ⟨name, startPc, 0⟩
  ended : ∃ g, f.perform? (before ++ .addLocal name startPc :: inner) = some g ∧
    ∀ done rest, after = done ++ rest → ∃ h,
      f.perform? (before ++ .addLocal name startPc :: (inner ++ .exitScope :: done)) = some h ∧
        h.locals[r]? = some ⟨name, startPc, g.pc⟩

theorem lifetime {name : String} {startPc : Nat} {before inner after : List Op} (first : f.perform? before = some g)
    (rest : g.perform? (.addLocal name startPc :: (inner ++ .exitScope :: after)) = some h) (stacked : g.Stacked)
    (balanced : Op.Balanced inner) (opened : 0 < g.depth) :
    Lifetime f g.locals.size name startPc before inner after := by
  obtain ⟨base, added, rest⟩ := perform?_cons.mp rest
  obtain ⟨top, through, rest⟩ := perform?_append.mp rest
  obtain ⟨out, left, rest⟩ := perform?_cons.mp rest
  have path : ∀ {done : List Op} {k : Frame}, base.perform? done = some k →
      f.perform? (before ++ .addLocal name startPc :: done) = some k := fun run =>
    perform?_append.mpr ⟨g, first, perform?_cons.mpr ⟨base, added, run⟩⟩
  have baseStacked := (added.effect stacked).stacked stacked
  have made : base = g.withLocal name startPc := by
    cases added.effect stacked with
    | keep plain => cases plain
    | addLocal _ same => exact same
  have record : base.locals[g.locals.size]? = some ⟨name, startPc, 0⟩ := by
    rw [made]
    exact Array.getElem?_push_size
  have inside : g.locals.size < base.locals.size := by
    rw [made, withLocal, Array.size_push]
    exact Nat.lt_succ_self _
  refine ⟨balanced, ⟨g, first, rfl⟩, ?_, top, path through, ?_⟩
  · rintro done more rfl
    obtain ⟨k, run, _⟩ := perform?_append.mp through
    obtain ⟨n, nest, _⟩ := nesting_append.mp balanced
    refine ⟨k, path run, ?_⟩
    rw [((Within.refl baseStacked).perform? baseStacked run baseStacked nest).locals _ inside]
    exact record
  · have within := (Within.refl baseStacked).perform? baseStacked through baseStacked balanced
    have topStacked := perform?_stacked through baseStacked
    -- The binding is still there when its scope is left, and it is of that scope.
    have newest : (⟨name, g.depth, g.used, false, g.locals.size⟩ : Binding) ∈ base.live := made ▸ List.mem_cons_self
    obtain ⟨b, member, same⟩ := within.live.forward newest
    have live := List.mem_of_mem_filter member
    have outermost : top.depth = g.depth := by
      rw [within.depth, made]
      rfl
    have effect := left.effect topStacked
    obtain ⟨retired, ended⟩ := effect.ends topStacked (outermost ▸ opened) live (same.depth.trans outermost.symm)
    rw [same.record] at retired ended
    rintro done more rfl
    obtain ⟨k, run, _⟩ := perform?_append.mp rest
    refine ⟨k, path (perform?_append.mpr ⟨top, through, perform?_cons.mpr ⟨out, left, run⟩⟩), ?_⟩
    rw [perform?_retired run (effect.stacked topStacked) retired, ended, within.locals _ inside, record]
    rfl

section Scope

variable {isLoop : Bool}

theorem exists_lifetime (stacked : f.Stacked) (balanced : Op.Balanced ops)
    (run : f.perform? (.enterScope isLoop :: (ops ++ [.exitScope])) = some g) (later : f.locals.size ≤ r)
    (made : r < g.locals.size) : ∃ name startPc before inner after,
      .enterScope isLoop :: (ops ++ [.exitScope]) = before ++ .addLocal name startPc :: (inner ++ .exitScope :: after) ∧
      Lifetime f r name startPc before inner after := by
  obtain ⟨base, entered, rest⟩ := perform?_cons.mp run
  obtain ⟨top, through, left⟩ := perform?_append.mp rest
  have baseStacked := (entered.effect stacked).stacked stacked
  have size : g.locals.size = top.locals.size := by
    obtain ⟨_, left, done⟩ := perform?_cons.mp left
    cases done
    rcases (left.effect (perform?_stacked through baseStacked)).locals_size with same | ⟨_, _, other, _⟩
    · exact same
    · cases other
  cases enterScope_ok entered.run
  obtain ⟨before, name, startPc, after, h, rfl, first, record⟩ := exists_addLocal through baseStacked later (size ▸ made)
  obtain ⟨n, opened, nest⟩ := nesting_append.mp balanced
  obtain ⟨_, same, nest⟩ := nesting_cons.mp nest
  cases same
  have leads : nesting (n + 1 + 0) (after ++ [.exitScope]) = some 0 := nesting_append.mpr ⟨1, nesting_succ nest, rfl⟩
  obtain ⟨inner, outer, split, inside, _⟩ := exists_exit leads (Nat.zero_le n)
  have parts : before ++ .addLocal name startPc :: after ++ [.exitScope] =
      before ++ .addLocal name startPc :: (inner ++ .exitScope :: outer) := by
    rw [List.append_assoc, List.cons_append, split]
  refine ⟨name, startPc, .enterScope isLoop :: before, inner, outer, congrArg _ parts, ?_⟩
  rw [parts] at rest
  obtain ⟨_, first', rest⟩ := perform?_append.mp rest
  cases first'.symm.trans first
  rw [← record]
  refine lifetime (perform?_cons.mpr ⟨_, entered, first⟩) rest (perform?_stacked first baseStacked) inside ?_
  have deeper := ((Within.refl baseStacked).perform? baseStacked first baseStacked opened).depth
  rw [enter_depth] at deeper
  omega

theorem scope_within (stacked : f.Stacked) (balanced : Op.Balanced ops)
    (run : f.perform? (.enterScope isLoop :: (ops ++ [.exitScope])) = some g) :
    Within f g 0 ∧ RemainAll f.live g.live ∧ g.used = f.used := by
  have whole := (Within.refl stacked).perform? stacked run stacked
    (nesting_cons.mpr ⟨1, rfl, nesting_append.mpr ⟨1, nesting_succ balanced, rfl⟩⟩)
  obtain ⟨base, entered, rest⟩ := perform?_cons.mp run
  obtain ⟨top, through, left⟩ := perform?_append.mp rest
  obtain ⟨_, left, done⟩ := perform?_cons.mp left
  cases done
  have baseStacked := (entered.effect stacked).stacked stacked
  cases enterScope_ok entered.run
  have within := (Within.refl baseStacked).perform? baseStacked through baseStacked balanced
  have depth := within.depth
  rw [enter_depth] at depth
  cases left.effect (perform?_stacked through baseStacked) with
  | keep plain => cases plain
  | exitScope _ kept _ _ used =>
    have all : (g.live.filter fun b => b.record < f.locals.size) = g.live := by
      rw [List.filter_eq_self]
      intro b member
      rw [kept, List.mem_filter, decide_eq_true_eq] at member
      by_contra newer
      rw [decide_eq_true_eq, Nat.not_lt] at newer
      have := within.deep b member.1 newer
      rw [enter_depth] at this
      omega
    have remain : RemainAll f.live g.live := all ▸ whole.live
    exact ⟨whole, remain, by rw [used, ← remain.length_eq, beq_iff_eq.mp entered.tidy]⟩

/-- Leaving a scope restores what was there when it was entered. A variable that was added since has ended once, where its
    own scope was left, and of those that were there before some may have come to be referred to. If the jumps out of the
    scope can be landed, it can be left. -/
theorem exitScope_restores (reached : f.Reached) (balanced : Op.Balanced ops) :
    (∀ top landed, f.perform? (.enterScope isLoop :: ops) = some top → top.used = top.live.length →
      top.breaks.forM (landBreak top.scopeLevel) { top with scopes := top.scopes.tail } = .ok () landed →
      ∃ g, f.perform? (.enterScope isLoop :: (ops ++ [.exitScope])) = some g) ∧
    ∀ g, f.perform? (.enterScope isLoop :: (ops ++ [.exitScope])) = some g →
      (∀ name, g.register? name = f.register? name) ∧ g.used = f.used ∧ g.depth = f.depth ∧
        (∀ r, f.locals.size ≤ r → r < g.locals.size → ∃ name startPc before inner after,
          .enterScope isLoop :: (ops ++ [.exitScope]) =
            before ++ .addLocal name startPc :: (inner ++ .exitScope :: after) ∧
          Lifetime f r name startPc before inner after) ∧
        (∀ r < f.locals.size, g.locals[r]? = f.locals[r]?) ∧ f.slots.toList <+: g.slots.toList ∧
        RemainAll f.live g.live := by
  have stacked := reached.stacked
  constructor
  · intro top landed run tidy lands
    obtain ⟨g, left⟩ := exitScope_succeeds (perform?_stacked run stacked) tidy lands
    have step : Step top .exitScope g := ⟨beq_iff_eq.mpr tidy, left⟩
    exact ⟨g, perform?_append.mpr ⟨top, run, perform?_cons.mpr ⟨g, step, rfl⟩⟩⟩
  · intro g run
    obtain ⟨within, remain, used⟩ := scope_within stacked balanced run
    refine ⟨register?_marked remain, used, within.depth, ?_, within.locals, within.slots, remain⟩
    exact fun r later made => exists_lifetime stacked balanced run later made

end Scope

end Runs

theorem exitScope_restores_hidden : ∃ (f g : Frame) (ops : List Op), f.Reached ∧ Op.Balanced ops ∧
    f.perform? (.enterScope true :: (ops ++ [.exitScope])) = some g ∧ g.locals.toList.map (·.name) =
      ["x", "y", "x", "x", "x"] ∧ (∀ name, g.register? name = f.register? name) ∧ g.used = f.used ∧
      RemainAll f.live g.live := by
  let ops : List Op := [.addLocal "x" 0, .addLocal "x" 1, .capture "y", .alloc, .emit (Instruction.asbx .jmp 0 0),
    .free, .addBreak 0, .enterScope false, .addLocal "x" 1, .emit (Instruction.abc .move 0 1 0), .exitScope]
  have names : ((Frame.new 0 false 0).perform?
      ([.addLocal "x" 0, .addLocal "y" 0] ++ .enterScope true :: (ops ++ [.exitScope]))).map
        (·.locals.toList.map (·.name)) = some ["x", "y", "x", "x", "x"] := by decide +kernel
  obtain ⟨g, run, names⟩ := Option.map_eq_some_iff.mp names
  obtain ⟨f, first, run⟩ := perform?_append.mp run
  have reached : f.Reached := ⟨0, false, 0, [], _, first⟩
  have balanced : Op.Balanced ops := rfl
  obtain ⟨registers, used, _, _, _, _, remain⟩ := (exitScope_restores reached balanced).2 g run
  exact ⟨f, g, ops, reached, balanced, run, names, registers, used, remain⟩

end Frame

end LuaBytecode
