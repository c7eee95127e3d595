import LuaBytecode.Prototype.Constant
import Std.Data.HashMap

namespace LuaBytecode

/-- Constants numbered in the order of their first insertion, with an index for looking them up. It is a set that keeps
    the order of insertion: inserting gives the index of an equal entry, or else adds one behind all others. -/
structure ConstantPool where
  entries : Array Constant
  index : Std.HashMap Constant Nat
  index_iff : ∀ (k : Constant) (i : Nat), index[k]? = some i ↔ entries[i]? = some k

namespace ConstantPool

def empty : ConstantPool where
  entries := #[]
  index := ∅
  index_iff := by simp

def insert (pool : ConstantPool) (k : Constant) : Nat × ConstantPool :=
  match h : pool.index[k]? with
  | some i => (i, pool)
  | none =>
    (pool.entries.size,
      { entries := pool.entries.push k
        index := pool.index.insert k pool.entries.size
        index_iff := by
          intro k' i
          have old := pool.index_iff k'
          rw [Std.HashMap.getElem?_insert, Array.getElem?_push]
          by_cases same : k = k'
          · subst same
            have fresh : ∀ i, pool.entries[i]? ≠ some k := fun i found => by
              rw [(old i).mpr found] at h
              cases h
            by_cases last : i = pool.entries.size
            · simp [last]
            · simp only [beq_self_eq_true, if_true, Option.some.injEq, last, if_false]
              exact ⟨fun eq => absurd eq.symm last, fun found => absurd found (fresh i)⟩
          · by_cases last : i = pool.entries.size
            · subst last
              simp [same, old]
            · simp [same, old, last] })

end ConstantPool

end LuaBytecode
