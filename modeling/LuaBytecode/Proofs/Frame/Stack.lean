import LuaBytecode.Proofs.Frame.Layered
import Mathlib.Data.List.Forall2

namespace LuaBytecode

section Forall₂

variable {α β : Type} {R S T : α → α → Prop} {U : α → β → Prop} {xs ys zs : List α} {bs : List β}

theorem forall₂_trans (first : List.Forall₂ R xs ys) (second : List.Forall₂ S ys zs)
    (both : ∀ a b c, R a b → S b c → T a c) : List.Forall₂ T xs zs := by
  induction first generalizing zs with
  | nil =>
    cases second
    exact .nil
  | cons head _ ih =>
    cases second with
    | cons head' tail' => exact .cons (both _ _ _ head head') (ih tail')

theorem exists_of_forall₂_left (h : List.Forall₂ U xs bs) {a : α} (member : a ∈ xs) : ∃ b ∈ bs, U a b := by
  induction h with
  | nil => cases member
  | cons head _ ih =>
    rcases List.mem_cons.mp member with rfl | member
    · exact ⟨_, .head _, head⟩
    · obtain ⟨b, member', related⟩ := ih member
      exact ⟨b, .tail _ member', related⟩

theorem exists_of_forall₂_right (h : List.Forall₂ U xs bs) {b : β} (member : b ∈ bs) : ∃ a ∈ xs, U a b :=
  exists_of_forall₂_left (.flip h) member

end Forall₂

/-- Live bindings lie on top of each other: an older one has a lower register, an earlier record and no deeper scope. -/
def Stack : (depth size : Nat) → List Binding → Prop
  | _, _, [] => True
  | depth, size, b :: rest => b.depth ≤ depth ∧ b.record < size ∧ b.register = rest.length ∧ Stack b.depth b.record rest

namespace Stack

variable {depth depth' size size' : Nat} {live : List Binding}

theorem mono (h : Stack depth size live) (deeper : depth ≤ depth') (more : size ≤ size') : Stack depth' size' live := by
  cases live with
  | nil => trivial
  | cons b rest => exact ⟨Nat.le_trans h.1 deeper, Nat.lt_of_lt_of_le h.2.1 more, h.2.2⟩

theorem tail {b : Binding} {rest : List Binding} (h : Stack depth size (b :: rest)) : Stack depth size rest :=
  h.2.2.2.mono h.1 (Nat.le_of_lt h.2.1)

section

variable (h : Stack depth size live) {b c : Binding}

include h

theorem layered : Layered depth size live.length live := by
  induction live generalizing depth size with
  | nil => exact .nil
  | cons b rest ih =>
    obtain ⟨shallow, record, register, tail⟩ := h
    have layered := ih tail
    rw [← register] at layered
    refine ⟨List.forall_mem_cons.mpr ⟨⟨shallow, record, ?_⟩, ?_⟩, .cons layered.inside layered.order⟩
    · rw [register]
      exact Nat.lt_succ_self _
    · refine (layered.mono shallow (Nat.le_of_lt record) ?_).inside
      rw [register]
      exact Nat.le_succ _

theorem depth_le (member : b ∈ live) : b.depth ≤ depth :=
  (h.layered.inside b member).1

theorem record_lt (member : b ∈ live) : b.record < size :=
  (h.layered.inside b member).2.1

theorem register_lt (member : b ∈ live) : b.register < live.length :=
  (h.layered.inside b member).2.2

theorem eq_of_record (hb : b ∈ live) (hc : c ∈ live) (same : b.record = c.record) :
    b = c := h.layered.eq_of_record hb hc same

theorem eq_of_register (hb : b ∈ live) (hc : c ∈ live) (same : b.register = c.register) :
    b = c := h.layered.eq_of_register hb hc same

end

theorem ofAppend {new old : List Binding} (h : Stack depth size (new ++ old)) : Stack depth size old := by
  induction new with
  | nil => exact h
  | cons b new ih => exact ih h.tail

theorem split (h : Stack depth size live) (d : Nat) :
    live = live.filter (fun b => d ≤ b.depth) ++ live.filter (fun b => b.depth < d) := by
  induction live with
  | nil => rfl
  | cons b rest ih =>
    by_cases deep : d ≤ b.depth
    · rw [List.filter_cons_of_pos (by simpa using deep), List.filter_cons_of_neg (by simpa using deep),
        List.cons_append, ← ih h.tail]
    · have none : rest.filter (fun b => d ≤ b.depth) = [] := by
        rw [List.filter_eq_nil_iff]
        intro c member
        have := h.2.2.2.depth_le member
        simp only [decide_eq_true_eq]
        omega
      have all : rest.filter (fun b => b.depth < d) = rest := by
        rw [List.filter_eq_self]
        intro c member
        have := h.2.2.2.depth_le member
        simp only [decide_eq_true_eq]
        omega
      rw [List.filter_cons_of_neg (by simpa using deep), List.filter_cons_of_pos (by simpa using deep), none, all,
        List.nil_append]

theorem outer (h : Stack depth size live) (d : Nat) : Stack d size (live.filter fun b => b.depth < d + 1) := by
  have rest : Stack depth size (live.filter fun b => b.depth < d + 1) := by
    rw [h.split (d + 1)] at h
    exact h.ofAppend
  cases shape : live.filter fun b => b.depth < d + 1 with
  | nil => trivial
  | cons b older =>
    rw [shape] at rest
    have member : b ∈ live.filter fun b => b.depth < d + 1 := shape ▸ List.mem_cons_self
    have shallow : b.depth < d + 1 := of_decide_eq_true (List.mem_filter.mp member).2
    exact ⟨Nat.le_of_lt_succ shallow, rest.2⟩

theorem register_lt_outer_iff (h : Stack depth size live) (d : Nat) {b : Binding} (member : b ∈ live) :
    b.register < (live.filter fun b => b.depth < d).length ↔ b.depth < d := by
  induction live with
  | nil => cases member
  | cons c rest ih =>
    by_cases shallow : c.depth < d
    · have all : (c :: rest).filter (fun b => b.depth < d) = c :: rest := by
        rw [List.filter_eq_self]
        intro b member
        rcases List.mem_cons.mp member with rfl | member
        · simpa using shallow
        · have := h.2.2.2.depth_le member
          simp only [decide_eq_true_eq]
          omega
      rw [all]
      have inside := h.register_lt member
      have : b.depth ≤ c.depth := by
        rcases List.mem_cons.mp member with rfl | member
        · exact Nat.le.refl
        · exact h.2.2.2.depth_le member
      omega
    · rw [List.filter_cons_of_neg (by simpa using shallow)]
      rcases List.mem_cons.mp member with rfl | member
      · have := List.length_filter_le (fun b : Binding => decide (b.depth < d)) rest
        have := h.2.2.1
        omega
      · exact ih h.tail member

theorem registers (stack : Stack depth size live) :
    live.reverse.map (·.register) = List.range live.length := by
  induction live generalizing depth size with
  | nil => rfl
  | cons b rest ih =>
    rw [List.reverse_cons, List.map_append, ih stack.tail, List.length_cons, List.range_succ, List.map_singleton,
      stack.2.2.1]

end Stack

theorem Layered.stack {depth size : Nat} {live : List Binding} (h : Layered depth size live.length live) :
    Stack depth size live := by
  induction live generalizing depth size with
  | nil => trivial
  | cons b rest ih =>
    obtain ⟨shallow, record, register⟩ := h.inside b (.head _)
    have tail := h.tail
    have least := tail.length_le
    have place : b.register = rest.length := Nat.le_antisymm (Nat.le_of_lt_succ register) least
    rw [place] at tail
    exact ⟨shallow, record, place, ih tail⟩

end LuaBytecode
