import LuaBytecode.Proofs.Frame.Scope

namespace LuaBytecode

def Binding.Remains (b b' : Binding) : Prop := b' = b ∨ b' = { b with captured := true }

abbrev RemainAll : List Binding → List Binding → Prop := List.Forall₂ Binding.Remains

namespace Binding.Remains

variable {b b' b'' : Binding}

theorem trans (first : Remains b b') (second : Remains b' b'') : Remains b b'' := by
  rcases first with rfl | rfl
  · exact second
  · rcases second with rfl | rfl
    · exact .inr rfl
    · exact .inr rfl

theorem name (h : Remains b b') : b'.name = b.name := by rcases h with rfl | rfl <;> rfl

theorem depth (h : Remains b b') : b'.depth = b.depth := by rcases h with rfl | rfl <;> rfl

theorem register (h : Remains b b') : b'.register = b.register := by rcases h with rfl | rfl <;> rfl

theorem record (h : Remains b b') : b'.record = b.record := by rcases h with rfl | rfl <;> rfl

end Binding.Remains

namespace RemainAll

variable {live live' live'' : List Binding}

theorem refl (live : List Binding) : RemainAll live live := List.forall₂_same.mpr fun _ _ => .inl rfl

theorem trans (first : RemainAll live live') (second : RemainAll live' live'') : RemainAll live live'' :=
  forall₂_trans first second fun _ _ _ => Binding.Remains.trans

theorem forward (h : RemainAll live live') {b : Binding} (member : b ∈ live) : ∃ b' ∈ live', b.Remains b' :=
  exists_of_forall₂_left h member

theorem backward (h : RemainAll live live') {b' : Binding} (member : b' ∈ live') : ∃ b ∈ live, b.Remains b' :=
  exists_of_forall₂_right h member

theorem stack (h : RemainAll live live') {depth size : Nat} (stack : Stack depth size live) : Stack depth size live' := by
  induction h generalizing depth size with
  | nil => trivial
  | cons head tail ih =>
    obtain ⟨shallow, record, register, rest⟩ := stack
    rw [← head.depth, ← head.record] at rest
    exact ⟨head.depth ▸ shallow, head.record ▸ record, by rw [head.register, register, tail.length_eq], ih rest⟩

theorem ofMarkCaptured (x : String) (live : List Binding) : RemainAll live (Frame.markCaptured x live) := by
  induction live with
  | nil => exact .nil
  | cons b rest ih =>
    unfold Frame.markCaptured
    split
    · exact .cons (.inr rfl) (refl rest)
    · exact .cons (.inl rfl) ih

theorem exists_record (h : RemainAll live live') {j : Nat} :
    (∃ b ∈ live', b.record = j) ↔ ∃ b ∈ live, b.record = j := by
  constructor
  · rintro ⟨b', member', record⟩
    obtain ⟨b, member, same⟩ := h.backward member'
    exact ⟨b, member, same.record ▸ record⟩
  · rintro ⟨b, member, record⟩
    obtain ⟨b', member', same⟩ := h.forward member
    exact ⟨b', member', same.record.trans record⟩

end RemainAll

theorem Layered.marked {depth size top : Nat} {live live' : List Binding} (h : Layered depth size top live)
    (same : RemainAll live live') : Layered depth size top live' := by
  induction same generalizing depth size top with
  | nil => exact .nil
  | @cons b b' _ _ head _ ih =>
    have rest := ih h.tail
    rw [← head.depth, ← head.record, ← head.register] at rest
    obtain ⟨shallow, record, register⟩ := h.inside b (.head _)
    rw [← head.depth, ← head.record, ← head.register] at *
    refine ⟨List.forall_mem_cons.mpr ⟨⟨shallow, record, register⟩, ?_⟩, .cons rest.inside rest.order⟩
    exact (rest.mono shallow (Nat.le_of_lt record) (Nat.le_of_lt register)).inside

variable {depth pc pc' a startPc : Nat} {locals : Array LocalVar} {live now : List Binding}

theorem Frame.endLocals_size (locals : Array LocalVar) (bindings : List Binding) (pc : Nat) :
    (endLocals locals bindings pc).size = locals.size := by
  induction bindings generalizing locals with
  | nil => rfl
  | cons b rest ih => rw [endLocals, List.foldl_cons, ← endLocals, ih, Array.size_modify]

/-- Every live binding has a record that starts by now, and all other records have ended. -/
structure Recorded (depth pc : Nat) (locals : Array LocalVar) (live : List Binding) : Prop where
  stack : Stack depth locals.size live
  known : ∀ b ∈ live, ∃ v, locals[b.record]? = some v ∧ v.name = b.name ∧ v.startPc ≤ pc + 1
  retired : ∀ (j : Nat) (v : LocalVar), locals[j]? = some v → (¬∃ b ∈ live, b.record = j) → v.endPc ≤ pc

/-- A function that is made at `pc` in register `a` can refer to the variable. A local function starts with the next
    instruction, and can refer to itself. -/
def LocalVar.SeenAt (pc a : Nat) (v : LocalVar) (register : Nat) : Prop :=
  v.startPc ≤ pc ∨ v.startPc = pc + 1 ∧ register = a

/-- The bindings that were live when a function was made at `pc` in register `a`, told from the records: they have not
    ended since, or ended later. -/
structure Recalls (locals : Array LocalVar) (now : List Binding) (pc a : Nat) (live : List Binding) : Prop where
  known : ∀ b ∈ live, ∃ v, locals[b.record]? = some v ∧ v.name = b.name ∧ v.SeenAt pc a b.register ∧
    ((∃ c ∈ now, c.record = b.record) ∨ pc < v.endPc)
  all : ∀ (j : Nat) (v : LocalVar), locals[j]? = some v → v.startPc ≤ pc → ((∃ c ∈ now, c.record = j) ∨ pc < v.endPc) →
    ∃ b ∈ live, b.record = j

namespace Recorded

theorem empty : Recorded depth pc #[] [] where
  stack := trivial
  known := nofun
  retired := nofun

variable (h : Recorded depth pc locals live)

include h

theorem later (later : pc ≤ pc') : Recorded depth pc' locals live where
  stack := h.stack
  known b member := by
    obtain ⟨v, there, name, start⟩ := h.known b member
    exact ⟨v, there, name, by omega⟩
  retired j v there gone := Nat.le_trans (h.retired j v there gone) later

theorem deeper : Recorded (depth + 1) pc locals live :=
  { h with stack := h.stack.mono (Nat.le_succ _) Nat.le.refl }

theorem marked {live' : List Binding} (same : RemainAll live live') : Recorded depth pc locals live' where
  stack := same.stack h.stack
  known b' member' := by
    obtain ⟨b, member, same⟩ := same.backward member'
    rw [same.record, same.name]
    exact h.known b member
  retired j v there gone := h.retired j v there (same.exists_record.not.mp gone)

theorem declare (start : startPc ≤ pc + 1) {b : Binding} (deep : b.depth = depth) (register : b.register = live.length)
    (record : b.record = locals.size) : Recorded depth pc (locals.push ⟨b.name, startPc, 0⟩) (b :: live) where
  stack := by
    refine ⟨Nat.le_of_eq deep, by rw [record, Array.size_push]; omega, register, ?_⟩
    rw [deep, record]
    exact h.stack
  known c member := by
    rcases List.mem_cons.mp member with rfl | member
    · refine ⟨⟨c.name, startPc, 0⟩, ?_, rfl, start⟩
      rw [record, Array.getElem?_push_size]
    · obtain ⟨v, there, rest⟩ := h.known c member
      have inside := lt_of_getElem? there
      refine ⟨v, ?_, rest⟩
      rw [Array.getElem?_push, if_neg (Nat.ne_of_lt inside), there]
  retired j v there gone := by
    rw [Array.getElem?_push] at there
    split at there
    · rename_i last
      exact absurd ⟨b, .head _, record.trans last.symm⟩ gone
    · exact h.retired j v there fun ⟨c, member, same⟩ => gone ⟨c, .tail _ member, same⟩

theorem leave {leaving kept : List Binding} {depth' : Nat} (stack : Stack depth' locals.size kept)
    (part : ∀ b, b ∈ live ↔ b ∈ leaving ∨ b ∈ kept) (apart : ∀ b ∈ leaving, ∀ c ∈ kept, b.record ≠ c.record) :
    Recorded depth' pc (Frame.endLocals locals leaving pc) kept := by
  refine ⟨by rwa [Frame.endLocals_size], ?_, ?_⟩
  · intro b member
    obtain ⟨v, there, name, start⟩ := h.known b ((part b).mpr (.inr member))
    refine ⟨v, ?_, name, start⟩
    rwa [Frame.getElem?_endLocals_other fun c gone => apart c gone b member]
  · intro j v there gone
    rw [Frame.getElem?_endLocals] at there
    obtain ⟨w, found, rfl⟩ := Option.map_eq_some_iff.mp there
    split
    · exact Nat.le.refl
    · rename_i stays
      apply h.retired j w found
      rintro ⟨b, member, same⟩
      rcases (part b).mp member with left | right
      · exact stays ⟨b, left, same⟩
      · exact gone ⟨b, right, same⟩

end Recorded

section Room

open LuaBytecode.Frame

variable {f : Frame}

theorem Frame.innermost_sublist (f : Frame) (x : String) : (f.innermost x).Sublist f.live := by
  have chain : (f.chain x).Sublist f.live := List.filter_sublist
  unfold innermost
  split
  · exact List.nil_sublist _
  · rename_i newest older shape
    rw [shape] at chain
    exact ((List.takeWhile_sublist _).cons_cons newest).trans chain

theorem Frame.forM_endLocal_room {bindings : List Binding} (room : bindings.length ≤ f.used)
    (known : ∀ b ∈ bindings, b.record < f.locals.size) :
    ∃ f', bindings.forM endLocal f = .ok () f' := by
  induction bindings generalizing f with
  | nil => exact ⟨f, rfl⟩
  | cons b rest ih =>
    cases used : f.used with
    | zero => simp [used] at room
    | succ n =>
      have first : endLocal b f = .ok () { f with
          used := n
          locals := f.locals.modify b.record fun v => { v with endPc := f.code.size } } := by
        unfold endLocal
        rw [bind_run (a := ()) (t := { f with used := n })]
        · exact if_pos (known b (.head _))
        · simp only [free, used]
      obtain ⟨f', others⟩ := ih (f := { f with
        used := n
        locals := f.locals.modify b.record fun v => { v with endPc := f.code.size } }) (by simp at room ⊢; omega) (by
          intro b' member
          rw [Array.size_modify]
          exact known b' (.tail _ member))
      exact ⟨f', (bind_run first).trans others⟩

theorem Frame.retire_succeeds {x : String} (known : ∀ b ∈ f.live, b.record < f.locals.size)
    (room : (f.innermost x).length ≤ f.used) : ∃ g, retire x f = .ok () g := by
  obtain ⟨g, ended⟩ := forM_endLocal_room room fun b member => known b ((f.innermost_sublist x).subset member)
  refine ⟨{ g with live := g.live.filter fun b => (f.innermost x).all (·.record != b.record) }, ?_⟩
  exact (bind_run (m := MonadState.get) (a := f) (t := f) rfl).trans ((bind_run ended).trans rfl)

theorem Frame.retire_room {x : String} (room : f.live.length ≤ f.used)
    (known : ∀ b ∈ f.live, b.record < f.locals.size) :
    ∃ f', retire x f = .ok () f' ∧ f'.live.length ≤ f'.used ∧ ∀ b ∈ f'.live, b.record < f'.locals.size := by
  have part := f.innermost_sublist x
  obtain ⟨g, run⟩ := retire_succeeds (x := x) known (Nat.le_trans part.length_le room)
  obtain ⟨used, same⟩ := retire_ok run
  have live : g.live = f.live.filter fun b => (f.innermost x).all (·.record != b.record) := by rw [same]
  refine ⟨g, run, ?_, fun b member => ?_⟩
  · -- What ends is among the live bindings that are not kept.
    have gone : (f.innermost x).Sublist (f.live.filter fun b => !(f.innermost x).all (·.record != b.record)) := by
      have all : (f.innermost x).filter (fun b => !(f.innermost x).all (·.record != b.record)) = f.innermost x := by
        rw [List.filter_eq_self]
        intro b member
        simp only [Bool.not_eq_true', List.all_eq_false]
        exact ⟨b, member, by simp⟩
      have kept := part.filter fun b => !(f.innermost x).all (·.record != b.record)
      rwa [all] at kept
    have total := List.length_eq_length_filter_add (l := f.live) fun b => (f.innermost x).all (·.record != b.record)
    have := gone.length_le
    rw [live]
    omega
  · rw [same, endLocals_size]
    rw [live] at member
    exact known b (List.mem_of_mem_filter member)

theorem Frame.forM_retire_room (names : List String) (room : f.live.length ≤ f.used)
    (known : ∀ b ∈ f.live, b.record < f.locals.size) :
    ∃ f', names.forM retire f = .ok () f' := by
  induction names generalizing f with
  | nil => exact ⟨f, rfl⟩
  | cons x rest ih =>
    obtain ⟨g, first, room', known'⟩ := retire_room (x := x) room known
    obtain ⟨f', others⟩ := ih room' known'
    exact ⟨f', (bind_run first).trans others⟩

end Room

namespace Recalls

theorem here (h : Recorded depth pc locals live)
    (started : ∀ b ∈ live, ∀ v ∈ locals[b.record]?, v.startPc ≤ pc ∨ b.register = a) : Recalls locals live pc a live where
  known b member := by
    obtain ⟨v, there, name, start⟩ := h.known b member
    have seen : v.SeenAt pc a b.register := by
      rcases started b member v there with early | here
      · exact .inl early
      · by_cases early : v.startPc ≤ pc
        · exact .inl early
        · exact .inr ⟨by omega, here⟩
    exact ⟨v, there, name, seen, .inl ⟨b, member, rfl⟩⟩
  all j v there _ since := by
    by_contra gone
    rcases since with there' | ended
    · exact gone there'
    · have := h.retired j v there gone
      omega

variable (h : Recalls locals now pc a live)

include h

theorem marked {now' : List Binding} (same : RemainAll now now') : Recalls locals now' pc a live where
  known b member := by
    obtain ⟨v, there, name, start, since⟩ := h.known b member
    exact ⟨v, there, name, start, since.imp_left same.exists_record.mpr⟩
  all j v there start since := h.all j v there start (since.imp_left same.exists_record.mp)

theorem declare {b : Binding} (start : pc < startPc) (record : b.record = locals.size) :
    Recalls (locals.push ⟨b.name, startPc, 0⟩) (b :: now) pc a live where
  known c member := by
    obtain ⟨v, there, name, start, since⟩ := h.known c member
    refine ⟨v, ?_, name, start, since.imp_left fun ⟨d, member, same⟩ => ⟨d, .tail _ member, same⟩⟩
    rw [Array.getElem?_push, if_neg (Nat.ne_of_lt (lt_of_getElem? there)), there]
  all j v there start' since := by
    rw [Array.getElem?_push] at there
    split at there
    · cases there
      exact absurd start' (Nat.not_le.mpr start)
    · rename_i other
      refine h.all j v there start' (since.imp_left ?_)
      rintro ⟨c, member, same⟩
      rcases List.mem_cons.mp member with rfl | member
      · exact absurd (same.symm.trans record) other
      · exact ⟨c, member, same⟩

theorem leave {leaving kept : List Binding} (later : pc < pc') (part : ∀ b, b ∈ now ↔ b ∈ leaving ∨ b ∈ kept) :
    Recalls (Frame.endLocals locals leaving pc') kept pc a live where
  known b member := by
    obtain ⟨v, there, name, start, since⟩ := h.known b member
    by_cases gone : ∃ c ∈ leaving, c.record = b.record
    · refine ⟨{ v with endPc := pc' }, ?_, name, start, .inr later⟩
      rw [Frame.getElem?_endLocals, there, Option.map_some, if_pos gone]
    · refine ⟨v, ?_, name, start, since.imp_left ?_⟩
      · rw [Frame.getElem?_endLocals, there, Option.map_some, if_neg gone]
      · rintro ⟨c, member, same⟩
        rcases (part c).mp member with left | right
        · exact absurd ⟨c, left, same⟩ gone
        · exact ⟨c, right, same⟩
  all j v there start since := by
    rw [Frame.getElem?_endLocals] at there
    obtain ⟨w, found, rfl⟩ := Option.map_eq_some_iff.mp there
    split at start
    · rename_i gone
      obtain ⟨c, left, same⟩ := gone
      exact h.all j w found start (.inl ⟨c, (part c).mpr (.inl left), same⟩)
    · rename_i stays
      rw [if_neg stays] at since
      refine h.all j w found start (since.imp_left fun ⟨c, right, same⟩ => ⟨c, (part c).mpr (.inr right), same⟩)

end Recalls

end LuaBytecode
