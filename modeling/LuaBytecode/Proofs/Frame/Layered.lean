import LuaBytecode.Frame.Scope
import Mathlib.Data.List.Nodup

namespace LuaBytecode

/-- Live bindings lie above each other in registers below `top`, but there may be registers between them that no binding
    has. -/
structure Layered (depth size top : Nat) (live : List Binding) : Prop where
  inside : ∀ b ∈ live, b.depth ≤ depth ∧ b.record < size ∧ b.register < top
  order : live.Pairwise fun newer older =>
    older.depth ≤ newer.depth ∧ older.record < newer.record ∧ older.register < newer.register

namespace Layered

variable {depth depth' size size' top top' : Nat} {live live' : List Binding} {b c : Binding}

theorem nil : Layered depth size top [] := ⟨List.forall_mem_nil _, .nil⟩

theorem mono (h : Layered depth size top live) (deeper : depth ≤ depth') (more : size ≤ size') (above : top ≤ top') :
    Layered depth' size' top' live := by
  refine ⟨fun b member => ?_, h.order⟩
  obtain ⟨shallow, record, register⟩ := h.inside b member
  exact ⟨Nat.le_trans shallow deeper, Nat.lt_of_lt_of_le record more, Nat.lt_of_lt_of_le register above⟩

theorem cons (h : Layered depth size top live) (deep : b.depth = depth) (record : b.record = size)
    (register : b.register = top) : Layered depth (size + 1) (top + 1) (b :: live) := by
  refine ⟨List.forall_mem_cons.mpr ⟨by omega, ?_⟩, .cons (fun c member => ?_) h.order⟩
  · exact (h.mono Nat.le.refl (Nat.le_succ _) (Nat.le_succ _)).inside
  · rw [deep, record, register]
    exact h.inside c member

theorem tail (h : Layered depth size top (b :: live)) : Layered b.depth b.record b.register live :=
  ⟨fun _ member => List.rel_of_pairwise_cons h.order member, h.order.of_cons⟩

variable (h : Layered depth size top live)

include h

theorem ofSublist (part : live'.Sublist live) : Layered depth size top live' :=
  ⟨fun b member => h.inside b (part.subset member), h.order.sublist part⟩

theorem sorted : live.Pairwise fun newer older => older.depth ≤ newer.depth :=
  h.order.imp And.left

theorem records : (live.reverse.map (·.record)).Pairwise (· < ·) :=
  List.pairwise_map.mpr (List.pairwise_reverse.mpr (h.order.imp fun apart => apart.2.1))

theorem registers : (live.reverse.map (·.register)).Pairwise (· < ·) :=
  List.pairwise_map.mpr (List.pairwise_reverse.mpr (h.order.imp fun apart => apart.2.2))

theorem eq_of_record (hb : b ∈ live) (hc : c ∈ live) (same : b.record = c.record) : b = c := by
  have distinct : (live.map (·.record)).Nodup := by
    refine List.pairwise_map.mpr (h.order.imp fun apart => ?_)
    omega
  exact List.inj_on_of_nodup_map distinct hb hc same

theorem eq_of_register (hb : b ∈ live) (hc : c ∈ live) (same : b.register = c.register) : b = c := by
  have distinct : (live.map (·.register)).Nodup := by
    refine List.pairwise_map.mpr (h.order.imp fun apart => ?_)
    omega
  exact List.inj_on_of_nodup_map distinct hb hc same

theorem length_le : live.length ≤ top := by
  induction live generalizing depth size top with
  | nil => exact Nat.zero_le _
  | cons b rest ih => exact Nat.lt_of_le_of_lt (ih h.tail) (h.inside b (.head _)).2.2

end Layered

end LuaBytecode
