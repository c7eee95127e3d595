import LuaBytecode.Proofs.Frame.Locals
import Mathlib.Data.List.Sort

namespace LuaBytecode

/-- The records of the variables that there are at `pc`, in the order of their declaration: those that have started
    and are live or end later. -/
def recordsAt (locals : Array LocalVar) (live : List Binding) (pc : Nat) : List Nat :=
  (List.range locals.size).filter fun k =>
    locals[k]?.any fun v => v.startPc ≤ pc && (live.any (·.record == k) || pc < v.endPc)

/-- Of variables with these records, the later ones are in higher registers. If registers are a stack, the `j`-th
    variable is in register `j`. -/
structure Placed (tight : Prop) (slots : Array Nat) (records : List Nat) : Prop where
  order : (records.filterMap (slots[·]?)).Pairwise (· < ·)
  place : tight → ∀ j k : Nat, records[j]? = some k → slots[k]? = some j

/-- Live bindings have started and have the registers that were noted for them, all others have ended, and wherever
    there is code the variables that there are have their places. -/
structure Slotted (tight : Prop) (pc : Nat) (locals : Array LocalVar) (slots : Array Nat) (live : List Binding) :
    Prop where
  size : slots.size = locals.size
  known : ∀ b ∈ live, slots[b.record]? = some b.register ∧ ∃ v, locals[b.record]? = some v ∧ v.startPc ≤ pc
  ended : ∀ (k : Nat) (v : LocalVar), locals[k]? = some v → (¬∃ b ∈ live, b.record = k) →
    v.startPc ≤ v.endPc ∧ v.endPc ≤ pc
  active : ∀ before < pc, Placed tight slots (recordsAt locals live before)

variable {tight : Prop} {depth size top pc pc' : Nat} {locals : Array LocalVar} {slots : Array Nat}
  {live live' : List Binding}

theorem mem_recordsAt {k : Nat} : k ∈ recordsAt locals live pc ↔
    ∃ v, locals[k]? = some v ∧ v.startPc ≤ pc ∧ ((∃ b ∈ live, b.record = k) ∨ pc < v.endPc) := by
  rw [recordsAt, List.mem_filter, List.mem_range, Option.any_eq_true]
  constructor
  · rintro ⟨_, v, there, holds⟩
    simp only [Bool.and_eq_true, Bool.or_eq_true, List.any_eq_true, decide_eq_true_eq, beq_iff_eq] at holds
    exact ⟨v, there, holds⟩
  · rintro ⟨v, there, holds⟩
    refine ⟨lt_of_getElem? there, v, there, ?_⟩
    simp only [Bool.and_eq_true, Bool.or_eq_true, List.any_eq_true, decide_eq_true_eq, beq_iff_eq]
    exact holds

theorem recordsAt_sorted (locals : Array LocalVar) (live : List Binding) (pc : Nat) :
    (recordsAt locals live pc).Pairwise (· < ·) := List.pairwise_lt_range.filter _

theorem recordsAt_eq {records : List Nat} (sorted : records.Pairwise (· < ·))
    (same : ∀ k, k ∈ recordsAt locals live pc ↔ k ∈ records) : recordsAt locals live pc = records :=
  (recordsAt_sorted locals live pc).eq_of_mem_iff sorted @same

theorem recordsAt_now (layered : Layered depth size top live)
    (known : ∀ b ∈ live, ∃ v, locals[b.record]? = some v ∧ v.startPc ≤ pc)
    (ended : ∀ (k : Nat) (v : LocalVar), locals[k]? = some v → (¬∃ b ∈ live, b.record = k) → v.endPc ≤ pc) :
    recordsAt locals live pc = live.reverse.map (·.record) := by
  refine recordsAt_eq layered.records fun k => ?_
  simp only [mem_recordsAt, List.mem_map, List.mem_reverse]
  constructor
  · rintro ⟨v, there, _, since⟩
    by_contra gone
    have := ended k v there gone
    rcases since with known | later
    · exact gone known
    · omega
  · rintro ⟨b, member, rfl⟩
    obtain ⟨v, there, start⟩ := known b member
    exact ⟨v, there, start, .inl ⟨b, member, rfl⟩⟩

namespace Placed

theorem nil : Placed tight slots [] := ⟨.nil, fun _ _ _ there => by simp at there⟩

theorem ofLive (layered : Layered depth size top live) (stack : tight → Stack depth size live)
    (known : ∀ b ∈ live, slots[b.record]? = some b.register) : Placed tight slots (live.reverse.map (·.record)) where
  order := by
    have registers : (live.reverse.map (·.record)).filterMap (slots[·]?) = live.reverse.map (·.register) := by
      rw [List.filterMap_map, ← List.filterMap_eq_map]
      exact List.filterMap_congr fun b member => known b (List.mem_reverse.mp member)
    rw [registers]
    exact layered.registers
  place holds j k there := by
    rw [List.getElem?_map, Option.map_eq_some_iff] at there
    obtain ⟨b, place, rfl⟩ := there
    have register : (live.reverse.map (·.register))[j]? = some b.register := by
      rw [List.getElem?_map, place, Option.map_some]
    rw [(stack holds).registers, List.getElem?_eq_some_iff] at register
    obtain ⟨_, register⟩ := register
    rw [List.getElem_range] at register
    rw [register]
    exact known b (List.mem_reverse.mp (List.mem_of_getElem? place))

theorem push {records : List Nat} (h : Placed tight slots records) (inside : ∀ k ∈ records, k < slots.size)
    (r : Nat) : Placed tight (slots.push r) records := by
  have same : ∀ k ∈ records, (slots.push r)[k]? = slots[k]? := fun k member => by
    rw [Array.getElem?_push, if_neg (Nat.ne_of_lt (inside k member))]
  refine ⟨?_, fun holds j k there => ?_⟩
  · rw [List.filterMap_congr same]
    exact h.order
  · rw [same k (List.mem_of_getElem? there)]
    exact h.place holds j k there

end Placed

namespace Slotted

theorem empty : Slotted tight pc #[] #[] [] where
  size := rfl
  known := List.forall_mem_nil _
  ended _ _ there := by simp at there
  active _ _ := .nil

variable (h : Slotted tight pc locals slots live)

include h

theorem of_recordsAt {locals' : Array LocalVar}
    (same : ∀ before < pc, ∀ k, k ∈ recordsAt locals' live' before ↔ k ∈ recordsAt locals live before) :
    ∀ before < pc, Placed tight slots (recordsAt locals' live' before) := by
  intro before early
  rw [recordsAt_eq (recordsAt_sorted ..) (same before early)]
  exact h.active before early

theorem marked (same : RemainAll live live') : Slotted tight pc locals slots live' where
  size := h.size
  known b' member' := by
    obtain ⟨b, member, same⟩ := same.backward member'
    rw [same.record, same.register]
    exact h.known b member
  ended k v there gone := h.ended k v there (same.exists_record.not.mp gone)
  active := h.of_recordsAt fun before _ k => by rw [mem_recordsAt, mem_recordsAt, same.exists_record]

theorem later (layered : Layered depth size top live) (stack : tight → Stack depth size live) (le : pc ≤ pc') :
    Slotted tight pc' locals slots live where
  size := h.size
  known b member := by
    obtain ⟨slot, v, there, start⟩ := h.known b member
    exact ⟨slot, v, there, Nat.le_trans start le⟩
  ended k v there gone := by
    obtain ⟨order, past⟩ := h.ended k v there gone
    exact ⟨order, Nat.le_trans past le⟩
  active before early := by
    by_cases new : pc ≤ before
    · rw [recordsAt_now layered]
      · exact .ofLive layered stack fun b member => (h.known b member).1
      · intro b member
        obtain ⟨_, v, there, start⟩ := h.known b member
        exact ⟨v, there, Nat.le_trans start new⟩
      · exact fun k v there gone => Nat.le_trans (h.ended k v there gone).2 new
    · exact h.active before (Nat.not_le.mp new)

theorem declare {b : Binding} (record : b.record = locals.size) (name : String) :
    Slotted tight pc (locals.push ⟨name, pc, 0⟩) (slots.push b.register) (b :: live) := by
  have inside : ∀ {k : Nat} {v : LocalVar}, locals[k]? = some v → k < locals.size := fun there =>
    (lt_of_getElem? there)
  have old : ∀ {k : Nat} {v : LocalVar}, locals[k]? = some v → (locals.push ⟨name, pc, 0⟩)[k]? = some v := by
    intro k v there
    rw [Array.getElem?_push, if_neg (Nat.ne_of_lt (inside there)), there]
  have slot : ∀ {k r : Nat}, slots[k]? = some r → (slots.push b.register)[k]? = some r := by
    intro k r there
    rw [Array.getElem?_push, if_neg (Nat.ne_of_lt (lt_of_getElem? there)), there]
  have known : ∀ {k : Nat} {v : LocalVar}, locals[k]? = some v →
      ((∃ c ∈ b :: live, c.record = k) ↔ ∃ c ∈ live, c.record = k) := by
    intro k v there
    have other : b.record ≠ k := record ▸ (Nat.ne_of_lt (inside there)).symm
    simp [other]
  refine ⟨by rw [Array.size_push, Array.size_push, h.size], fun c member => ?_, fun k v there gone => ?_, ?_⟩
  · rcases List.mem_cons.mp member with rfl | member
    · refine ⟨?_, ⟨name, pc, 0⟩, ?_, Nat.le.refl⟩
      · rw [record, ← h.size, Array.getElem?_push_size]
      · rw [record, Array.getElem?_push_size]
    · obtain ⟨there, v, there', start⟩ := h.known c member
      exact ⟨slot there, v, old there', start⟩
  · rw [Array.getElem?_push] at there
    split at there
    · rename_i last
      exact absurd ⟨b, .head _, record.trans last.symm⟩ gone
    · exact h.ended k v there ((known there).not.mp gone)
  · intro before early
    have same : recordsAt (locals.push ⟨name, pc, 0⟩) (b :: live) before = recordsAt locals live before := by
      refine recordsAt_eq (recordsAt_sorted ..) fun k => ?_
      rw [mem_recordsAt, mem_recordsAt]
      constructor
      · rintro ⟨v, there, start, since⟩
        rw [Array.getElem?_push] at there
        split at there
        · cases there
          exact absurd start (Nat.not_le.mpr early)
        · exact ⟨v, there, start, since.imp_left (known there).mp⟩
      · rintro ⟨v, there, start, since⟩
        exact ⟨v, old there, start, since.imp_left (known there).mpr⟩
    rw [same]
    refine (h.active before early).push (fun k member => ?_) b.register
    obtain ⟨v, there, _⟩ := mem_recordsAt.mp member
    rw [h.size]
    exact inside there

theorem leave {leaving kept : List Binding} (part : ∀ b, b ∈ live ↔ b ∈ leaving ∨ b ∈ kept)
    (apart : ∀ b ∈ leaving, ∀ c ∈ kept, b.record ≠ c.record) :
    Slotted tight pc (Frame.endLocals locals leaving pc) slots kept := by
  refine ⟨by rw [Frame.endLocals_size, h.size], fun b member => ?_, fun k v there gone => ?_, ?_⟩
  · obtain ⟨slot, v, there, start⟩ := h.known b ((part b).mpr (.inr member))
    refine ⟨slot, v, ?_, start⟩
    rwa [Frame.getElem?_endLocals_other fun c left => apart c left b member]
  · rw [Frame.getElem?_endLocals] at there
    obtain ⟨w, found, rfl⟩ := Option.map_eq_some_iff.mp there
    split
    · rename_i left
      obtain ⟨b, left, rfl⟩ := left
      obtain ⟨_, v, there, start⟩ := h.known b ((part b).mpr (.inl left))
      cases found.symm.trans there
      exact ⟨start, Nat.le.refl⟩
    · rename_i stays
      refine h.ended k w found ?_
      rintro ⟨b, member, same⟩
      rcases (part b).mp member with left | right
      · exact stays ⟨b, left, same⟩
      · exact gone ⟨b, right, same⟩
  · refine h.of_recordsAt fun before early k => ?_
    have known : (∃ b ∈ live, b.record = k) ↔ (∃ b ∈ leaving, b.record = k) ∨ ∃ b ∈ kept, b.record = k := by
      simp only [part, or_and_right, exists_or]
    rw [mem_recordsAt, mem_recordsAt, known, Frame.getElem?_endLocals]
    constructor
    · rintro ⟨v, there, start, since⟩
      obtain ⟨w, found, rfl⟩ := Option.map_eq_some_iff.mp there
      split at start
      · rename_i left
        exact ⟨w, found, start, .inl (.inl left)⟩
      · rename_i stays
        rw [if_neg stays] at since
        exact ⟨w, found, start, since.imp_left .inr⟩
    · rintro ⟨w, found, start, since⟩
      rw [found, Option.map_some]
      by_cases left : ∃ b ∈ leaving, b.record = k
      · rw [if_pos left]
        exact ⟨_, rfl, start, .inr early⟩
      · rw [if_neg left]
        exact ⟨w, rfl, start, since.imp_left fun known => known.resolve_left left⟩

end Slotted

namespace Frame

variable {f f' : Frame} {u : Unit}

abbrev SlottedAt (tight : Prop) (f : Frame) (pc : Nat) : Prop := Slotted tight pc f.locals f.slots f.live

theorem exitScope_slotted [NameOrder] (opened : 0 < f.depth) (layered : Layered f.depth size top f.live)
    (h : exitScope f = .ok u f') (slotted : f.SlottedAt tight f.pc) : f'.SlottedAt tight f'.pc := by
  obtain ⟨same, _, pc, _⟩ := exitScope_ends opened layered h
  rw [pc, same]
  exact slotted.leave (mem_live_iff layered) (leaving_apart layered)

def activeAt (f : Frame) (pc : Nat) : List Nat :=
  (List.range f.locals.size).filter fun k => f.locals[k]?.any fun v => v.startPc ≤ pc && pc < v.endPc

def EndsLocals (f : Frame) : Prop := ∀ v ∈ f.locals, v.startPc ≤ v.endPc ∧ v.endPc ≤ f.code.size - 1

/-- The records of a finished function tell registers: wherever there are variables, the `j`-th of them is in
    register `j`. -/
structure TellsRegisters (f : Frame) : Prop where
  ends : f.EndsLocals
  slots : ∀ pc j k : Nat, (f.activeAt pc)[j]? = some k → f.slots[k]? = some j

/-- The records of a finished function order registers: each has one, and wherever there are variables, the later ones
    are in higher registers. -/
structure OrdersRegisters (f : Frame) : Prop where
  ends : f.EndsLocals
  each : f.slots.size = f.locals.size
  order : ∀ pc, ((f.activeAt pc).filterMap (f.slots[·]?)).Pairwise (· < ·)

instance : DecidablePred EndsLocals := fun _ => inferInstanceAs (Decidable (∀ _ ∈ _, _))

theorem activeAt_eq (f : Frame) (pc : Nat) : f.activeAt pc = recordsAt f.locals [] pc := by simp [activeAt, recordsAt]

theorem mem_activeAt {k : Nat} : k ∈ f.activeAt pc ↔
    ∃ v, f.locals[k]? = some v ∧ v.startPc ≤ pc ∧ pc < v.endPc := by
  rw [activeAt_eq, mem_recordsAt]
  simp

theorem activeAt_eq_nil (ended : ∀ v ∈ f.locals, v.endPc ≤ pc) : f.activeAt pc = [] := by
  rw [List.eq_nil_iff_forall_not_mem]
  intro k member
  obtain ⟨v, found, _, before⟩ := mem_activeAt.mp member
  exact Nat.not_le.mpr before (ended v (Array.mem_of_getElem? found))

theorem EndsLocals.activeAt_eq_nil (ends : f.EndsLocals) (outside : ¬pc < f.code.size) : f.activeAt pc = [] :=
  Frame.activeAt_eq_nil fun v member => by
    have := (ends v member).2
    omega

theorem tellsRegisters_iff : f.TellsRegisters ↔
    f.EndsLocals ∧ ∀ pc < f.code.size, ∀ r ∈ (f.activeAt pc).zipIdx, f.slots[r.1]? = some r.2 := by
  constructor
  · exact fun h => ⟨h.ends, fun pc _ r member => h.slots pc r.2 r.1 (List.mem_zipIdx_iff_getElem?.mp member)⟩
  · rintro ⟨ends, slots⟩
    refine ⟨ends, fun pc j k there => ?_⟩
    by_cases within : pc < f.code.size
    · exact slots pc within (k, j) (List.mem_zipIdx_iff_getElem?.mpr there)
    · simp [ends.activeAt_eq_nil within] at there

theorem ordersRegisters_iff : f.OrdersRegisters ↔
    f.EndsLocals ∧ f.slots.size = f.locals.size ∧
      ∀ pc < f.code.size, ((f.activeAt pc).filterMap (f.slots[·]?)).Pairwise (· < ·) := by
  constructor
  · exact fun h => ⟨h.ends, h.each, fun pc _ => h.order pc⟩
  · rintro ⟨ends, each, order⟩
    refine ⟨ends, each, fun pc => ?_⟩
    by_cases within : pc < f.code.size
    · exact order pc within
    · rw [ends.activeAt_eq_nil within]
      exact .nil

instance : DecidablePred TellsRegisters := fun _ => decidable_of_iff' _ tellsRegisters_iff

instance : DecidablePred OrdersRegisters := fun _ => decidable_of_iff' _ ordersRegisters_iff

end Frame

theorem Slotted.finished {f : Frame} (h : Slotted tight pc f.locals f.slots []) (finished : pc < f.code.size) :
    f.OrdersRegisters ∧ (tight → f.TellsRegisters) := by
  have ended : ∀ v ∈ f.locals, v.startPc ≤ v.endPc ∧ v.endPc ≤ pc := by
    intro v member
    obtain ⟨k, there⟩ := Array.getElem?_of_mem member
    exact h.ended k v there (by simp)
  have ends : f.EndsLocals := fun v member => by
    have := ended v member
    omega
  have placed : ∀ place, Placed tight f.slots (f.activeAt place) := by
    intro place
    by_cases early : place < pc
    · rw [Frame.activeAt_eq]
      exact h.active place early
    · rw [Frame.activeAt_eq_nil fun v member => Nat.le_trans (ended v member).2 (Nat.not_lt.mp early)]
      exact .nil
  refine ⟨⟨ends, h.size, fun place => (placed place).order⟩, fun holds => ⟨ends, fun place => ?_⟩⟩
  exact (placed place).place holds

end LuaBytecode
