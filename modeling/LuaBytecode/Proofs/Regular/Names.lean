import LuaBytecode.Proofs.Regular.Emission

namespace LuaBytecode

namespace Lowering

variable {slack : Nat} {pending : List Nat} {s t : Lowering} {name : String} {a : Nat}

variable (h : s.Poised slack pending)

include h

theorem upvalue?_lowers (name : String) :
    Lowers slack pending (upvalue? name) s fun i? t => (∀ i, i? = some i → i < t.frame.upvalues.size) ∧
      (name = environment → i? ≠ none) ∧ t.frame.used = s.frame.used := by
  refine Gives.congr (n := fun s : Lowering => findUpvalue name s.enclosing s.frame)
    (u := ⟨s.frame, s.enclosing⟩) rfl ((findUpvalue_gives name s.enclosing s.frame h.chain).weaken ?_)
  rintro i? t ⟨chain, same, more, around, found, absent⟩
  have touched : s.frame.Touched t.frame := ⟨by rw [same], by rw [same]; exact .refl _, more⟩
  have code : t.frame.code = s.frame.code := by rw [same]
  have peak : t.frame.peak = s.frame.peak := by rw [same]
  refine ⟨⟨?_, ?_, by rw [same]⟩, ⟨⟨?_, chain, ?_, ?_⟩,
    h.settled.recounted ⟨code, by rw [same], by rw [same]⟩⟩, ?_, around, by rw [same]; rfl, by rw [same]⟩
  · intro i known
    obtain ⟨u, there, _⟩ := found i known
    exact lt_of_getElem? there
  · rintro rfl none
    obtain ⟨g, member, r, bound⟩ := h.chain.environment h.nested
    cases (absent none g member).symm.trans bound
  · rw [peak]
    exact h.frame.touched touched
  · intro empty
    have := around.length_eq
    rw [empty] at this
    exact h.nested (List.eq_nil_of_length_eq_zero this)
  · intro p member
    rw [same] at member
    exact h.functions p member
  · have kept := (Frame.Grown.refl s.frame).code
    refine ⟨Nat.le_of_eq peak.symm, Nat.le_of_eq (by rw [same]), more, ?_, by rw [same]⟩
    rwa [code]

theorem register?_lt {r : Nat} (bound : s.frame.register? name = some r) : r < s.frame.peak := by
  obtain ⟨b, member, _, rfl⟩ := Frame.exists_of_register? bound
  have := h.frame.recorded.stack.register_lt member
  have := h.bounds
  omega

theorem resolve_lowers (name : String) :
    Lowers slack pending (resolve name) s fun place? t => (∀ place, place? = some place → place.Fits t.frame) ∧
      (name = environment → place? ≠ none) ∧ t.frame.used = s.frame.used := by
  refine Gives.bind (.get ?_)
  split
  · rename_i r bound
    refine Lowers.pure h ⟨?_, fun _ => by simp, rfl⟩
    rintro _ ⟨⟩
    exact register?_lt h bound
  · refine (upvalue?_lowers h name).bind ?_
    rintro i? t ⟨inside, found, used⟩ leads
    refine .pure leads.toPoised ⟨?_, ?_, used⟩
    · intro place same
      obtain ⟨i, known, rfl⟩ := Option.map_eq_some_iff.mp same
      exact inside i known
    · intro environment none
      exact found environment (Option.map_eq_none_iff.mp none)

theorem resolveEnvironment_lowers :
    Lowers slack pending resolveEnvironment s fun place t => place.Fits t.frame ∧ t.frame.used = s.frame.used := by
  refine (resolve_lowers h environment).bind ?_
  rintro place? t ⟨fits, found, used⟩ leads
  cases place? with
  | none => exact absurd rfl (found rfl)
  | some place => exact .pure leads.toPoised ⟨fits place rfl, used⟩

theorem nameKey_lowers (name : String) : Lowers slack pending (nameKey name) s fun key t => t.frame.HasRk key := by
  refine (h.constantIndex (.string name)).bind ?_
  rintro index t ⟨known, _⟩ leads
  split
  · rename_i small
    exact .pure leads.toPoised (.inr ⟨index, rfl, small, known⟩)
  · refine leads.alloc.bind ?_
    rintro _ u ⟨rfl, used⟩ leads'
    have := leads'.bounds
    refine (leads'.emitLoadK _ (by omega)).bind ?_
    intro _ v _ leads''
    have := leads''.bounds
    exact .pure leads''.toPoised (.inl (by omega))

theorem emitGetField_lowers (inside : a < s.frame.peak) {table : Place} {key : Nat} (fits : table.Fits s.frame)
    (known : s.frame.HasRk key) : Restores slack pending (emitGetField a table key) s := by
  have := h.bounds
  have keys : ∀ k, NamesConstant key k → k < s.frame.constants.entries.size := fun _ => known.constant h.frame.peak
  cases table with
  | register r =>
    refine .done (h.emitAbc ?_ rfl (by omega) (keys _) False.elim)
    rintro r' (rfl | rfl | names)
    · exact inside
    · exact fits
    · exact known.register names
  | upvalue i =>
    refine .done (h.emitAbc ?_ rfl (by omega) (keys _) ?_)
    · rintro r' (rfl | names)
      · exact inside
      · exact known.register names
    · rintro u rfl
      exact fits

theorem Poised.emitMove {b : Nat} (inside : a < s.frame.peak) (inside' : b < s.frame.peak) :
    Restores slack pending (Frame.emitMove a b : LowerM Nat) s := by
  have := h.bounds
  refine h.emitAbc ?_ rfl (by omega) False.elim False.elim
  rintro r (rfl | rfl) <;> assumption

theorem upvalue_le {u : Nat} (inside : u < s.frame.upvalues.size) : u ≤ 255 := by
  obtain ⟨f, enclosing⟩ := s
  cases enclosing with
  | nil => exact absurd rfl h.nested
  | cons parent outer =>
    have few : f.upvalues.size ≤ 255 := h.chain.1.few
    have inside : u < f.upvalues.size := inside
    omega

theorem emitStore_lowers {v : Nat} (inside : v < s.frame.peak) {target : Target} (fits : target.Fits s.frame) :
    Restores slack pending (emitStore v target) s := by
  have := h.bounds
  have value : s.frame.HasRk v := .inl inside
  cases target with
  | place place =>
    cases place with
    | register r => exact (h.emitMove fits inside).done
    | upvalue i =>
      refine .done (h.emitAbc ?_ rfl (by omega) False.elim ?_)
      · rintro r rfl
        exact inside
      · rintro u rfl
        exact fits
  | field table key =>
    obtain ⟨fits, known⟩ := fits
    have keys : ∀ k, NamesConstant key k ∨ NamesConstant v k → k < s.frame.constants.entries.size := by
      rintro k (names | names)
      · exact known.constant h.frame.peak names
      · exact value.constant h.frame.peak names
    cases table with
    | register r =>
      have fits : r < s.frame.peak := fits
      refine .done (h.emitAbc ?_ rfl (by omega) (keys _) False.elim)
      rintro r' (rfl | names | names)
      · exact fits
      · exact known.register names
      · exact value.register names
    | upvalue i =>
      refine .done (h.emitAbc ?_ rfl (upvalue_le h fits) (keys _) ?_)
      · rintro r' (names | names)
        · exact known.register names
        · exact value.register names
      · rintro u rfl
        exact fits

theorem emitName_lowers (name : String) (inside : a < s.frame.peak) : Restores slack pending (emitName name a) s := by
  refine (resolve_lowers h name).bind ?_
  rintro place? t ⟨fits, _, used⟩ leads
  have := leads.bounds
  rw [← used]
  split
  · exact (leads.emitMove (by omega) (fits _ rfl)).done
  · refine .done (leads.emitAbc ?_ rfl (by omega) False.elim ?_)
    · rintro r rfl
      omega
    · rintro u rfl
      exact fits _ rfl
  · refine Restores.scratch leads.toPoised ((nameKey_lowers leads.toPoised name).bind ?_)
    intro key u known leads'
    refine (resolveEnvironment_lowers leads'.toPoised).bind ?_
    rintro table v ⟨fits', _⟩ leads''
    have := leads'.bounds
    have := leads''.bounds
    exact (emitGetField_lowers leads''.toPoised (by omega) fits' (known.grow leads''.grown)).weaken fun _ _ _ => trivial

theorem nameTarget_lowers (name : String) :
    Lowers slack pending (nameTarget name) s fun target t => target.Fits t.frame := by
  refine (resolve_lowers h name).bind ?_
  rintro place? t ⟨fits, _⟩ leads
  cases place? with
  | some place => exact .pure leads.toPoised (fits place rfl)
  | none =>
    refine (nameKey_lowers leads.toPoised name).bind ?_
    intro key u known leads'
    refine (resolveEnvironment_lowers leads'.toPoised).bind ?_
    rintro table v ⟨fits', _⟩ leads''
    exact .pure leads''.toPoised ⟨fits', known.grow leads''.grown⟩

end Lowering

end LuaBytecode
