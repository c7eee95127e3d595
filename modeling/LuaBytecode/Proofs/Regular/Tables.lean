import LuaBytecode.Proofs.Logic.Expressions
import LuaBytecode.Proofs.Regular.Operators

namespace LuaBytecode

open Lowering Instruction

theorem Instruction.Linked.ofExtra {i j : Instruction} (hop : i.opcode? = some .setList) (wide : i.c = 0)
    (extra : j.opcode? = some .extraArg) : i.Linked j where
  test := by simp [isTest, hop, Opcode.isTest]
  extra := by simp [hasExtra, hop, wide, extra]
  results := by simp [Instruction.isOpen, takesOpen, hop, extra]
  taken := by simp [Instruction.isOpen, hop]
  generic := by simp [hop, extra]
  control := by simp [hop]

namespace ExpCode

variable {slack : Nat} {pending : List Nat} {s t : Lowering} {a : Nat} {exp : Exp} {keys : List (Option ExpCode)}
  {values : List ExpCode}

theorem emitExtra_lowers {i : Instruction} (last : s.frame.code.back? = some i) (hop : i.opcode? = some .setList)
    (wide : i.c = 0) (regular : s.Regular slack 0 pending) (n : Nat) :
    Restores slack pending (Frame.emitAx .extraArg n : LowerM Nat) s := by
  refine .lift (Frame.emitAx_gives fun j hop' _ => ⟨rfl, (evals_push regular ?_).leads (.ofPush regular.frame.recorded ?_)⟩)
  · refine regular.frame.push (by simp [hop']) ?_ ?_ ?_ ?_ ?_ ?_ ?_
    · intro empty
      rw [Array.back?_eq_getElem?, ← Frame.pc, empty] at last
      have inside := lt_of_getElem? last
      rw [← Frame.pc, empty] at inside
      omega
    · intro k last'
      cases last.symm.trans last'
      exact .ofExtra hop wide hop'
    · intro jump
      simp [isJump, hop', Opcode.isJump] at jump
    · intro prep
      cases hop'.symm.trans prep
    · exact .intro hop' False.elim rfl False.elim False.elim
    · intro k last' load
      cases last.symm.trans last'
      cases hop.symm.trans load
    · intro closure
      cases hop'.symm.trans closure
  · simp [binds, isTest, hasExtra, Instruction.isOpen, hop', Opcode.isTest]

theorem emitSetList_lowers {n batch : Nat} (regular : s.Regular slack 0 pending) (positive : batch ≠ 0)
    (inside : a + n < s.frame.peak)
    (supplied : n ≠ 0 ∧ s.frame.Settled ∨ n = 0 ∧ ∃ r, s.frame.Opened r ∧ a + 1 ≤ r) :
    Restores slack pending (Frame.emitSetList a n batch : LowerM Nat) s := by
  have limit := regular.limit
  have store : ∀ c, Gives (Frame.emitAbc .setList a n c : LowerM Nat) s fun _ t => (∃ i : Instruction,
      i.opcode? = some .setList ∧ i.a = a ∧ i.b = n ∧ i.c = c ∧ t = s.push i) ∧
        Evals slack 0 pending s.frame.used s t := by
    intro c
    refine emitTaker_gives regular (.inr (.inr (.inr rfl))) (by omega) (by simpa using supplied) ?_
    rintro r ⟨_, below⟩
    omega
  unfold Frame.emitSetList
  split
  · refine (store batch).weaken ?_
    rintro _ _ ⟨⟨i, hop, _, _, hc, rfl⟩, evals⟩
    refine ⟨rfl, evals.leads (.ofPush regular.frame.recorded (binds_eq_false.mpr ?_))⟩
    simp [isTest, hasExtra, Instruction.isOpen, hop, Opcode.isTest, hc, positive]
  · refine .lift (.bind ((store 0).ofLift.weaken ?_))
    rintro _ f ⟨⟨i, hop, _, _, hc, same⟩, evals⟩
    have pushed : f = s.frame.push i := congrArg Lowering.frame same
    have last : f.code.back? = some i := by
      rw [pushed]
      exact Array.back?_push
    refine .bind ((Gives.ofLift (emitExtra_lowers (s := ⟨f, s.enclosing⟩) last hop hc evals.regular batch)).weaken ?_)
    rintro _ g ⟨used, leads⟩
    exact .pure ⟨used.trans evals.used, leads.toPoised, evals.toExpands.trans leads.toExpands⟩

theorem flushFields_lowers {base stored : Nat} {toTop : Bool} (regular : s.Regular slack 0 pending)
    (below : a < base) (room : s.frame.live.length ≤ base) (used : s.frame.used = base + (stored % batchSize + 1))
    (supplied : if toTop = true then ∃ r, s.frame.Opened r ∧ a + 1 ≤ r else s.frame.Settled) :
    Lowers slack pending (flushFields a (stored + 1) toTop) s fun _ t => t.frame.used = base := by
  have waiting : (if (stored + 1) % batchSize = 0 then batchSize else (stored + 1) % batchSize) =
      stored % batchSize + 1 := by
    unfold batchSize
    split <;> omega
  have fits := regular.used_le
  unfold flushFields
  simp only [waiting]
  refine .after (freeN_gives regular (by omega)) fun _ t same evals => ?_
  have peak := evals.grown.peak
  have used' := evals.used
  rw [show base = t.frame.used by omega]
  refine .done (emitSetList_lowers evals.regular (Nat.succ_ne_zero _) ?_ ?_)
  · split <;> omega
  · cases toTop with
    | true =>
      obtain ⟨r, opened, above⟩ := supplied
      exact .inr ⟨rfl, r, opened.recounted same, above⟩
    | false => exact .inl ⟨Nat.succ_ne_zero _, Frame.Settled.recounted supplied same⟩

theorem emitFields_lowers {base positional stored : Nat} {openTail : Bool}
    (hk : ∀ key, some key ∈ keys → key.Regular slack) (hv : ∀ value ∈ values, value.Regular slack)
    (paired : keys.length ≤ values.length) (total : stored + keys.countP (·.isNone) = positional)
    (tail : values ≠ [] → openTail = true → isOpen values = true) (poised : s.Poised slack pending) (below : a < base)
    (room : s.frame.live.length ≤ base) (used : s.frame.used = base + waiting positional stored) :
    Lowers slack pending (emitFields a positional openTail stored keys values) s fun _ t => t.frame.used = base := by
  induction keys generalizing s stored values with
  | nil =>
    have done : waiting positional stored = 0 := if_pos (by simpa using total)
    unfold emitFields
    exact .pure poised (by omega)
  | cons key keys ih =>
    cases values with
    | nil => simp at paired
    | cons value values =>
      have hk' : ∀ key, some key ∈ keys → key.Regular slack := fun key member => hk key (.tail _ member)
      have hv' : ∀ value ∈ values, value.Regular slack := fun value member => hv value (.tail _ member)
      have value_regular := hv value (.head _)
      have paired' : keys.length ≤ values.length := by simpa using paired
      -- Values after this one are open if those from this one on are.
      have tail' : values ≠ [] → openTail = true → isOpen values = true := by
        intro more open'
        have whole := tail (List.cons_ne_nil _ _) open'
        unfold isOpen at whole ⊢
        rwa [List.getLast?_cons_of_ne_nil more] at whole
      cases key with
      | none =>
        have left : stored + 1 + keys.countP (·.isNone) = positional := by
          simp only [List.countP_cons, Option.isNone_none, if_true] at total
          omega
        have here : waiting positional stored = stored % batchSize := if_neg (by omega)
        unfold emitFields
        refine poised.alloc.bind ?_
        rintro _ t ⟨rfl, used'⟩ leads
        have := leads.bounds
        -- What the value leaves, whether it is the open one or not.
        have emitted : Gives (value.emit s.frame.used (if (openTail && values.isEmpty) = true then -1 else 1)) t
            fun _ u => (if (openTail && values.isEmpty) = true then u.frame.Opened s.frame.used else u.frame.Settled) ∧
              Evals slack 0 pending t.frame.used t u := by
          split
          · rename_i toTop
            obtain ⟨open', empty⟩ := Bool.and_eq_true_iff.mp toTop
            have multi : value.isMulti = true := by
              have whole := tail (List.cons_ne_nil _ _) open'
              rw [List.isEmpty_iff.mp empty] at whole
              simpa [isOpen] using whole
            exact value_regular.emitOpen multi leads.toPoised (by omega)
          · exact Gives.weaken (value_regular.emits leads.toPoised (by omega)) fun _ u given =>
              ⟨given.2.settled, given.2.evals given.1⟩
        refine .after emitted fun _ u leaves evals => ?_
        have used'' := evals.used
        have live := evals.live
        by_cases full : (stored + 1) % batchSize = 0 ∨ stored + 1 = positional
        · rw [if_pos full]
          refine (flushFields_lowers evals.regular below (by omega) (by omega) ?_).bind fun _ v used₃ leads' => ?_
          · split
            · rename_i toTop
              rw [if_pos toTop] at leaves
              exact ⟨_, leaves, by omega⟩
            · rename_i counted
              rwa [if_neg counted] at leaves
          have live' := leads'.live
          have none' : waiting positional (stored + 1) = 0 := by
            unfold waiting
            split <;> omega
          exact ih hk' hv' paired' left tail' leads'.toPoised (by omega) (by omega)
        · rw [if_neg full]
          have more : values ≠ [] := by
            rintro rfl
            obtain rfl : keys = [] := List.eq_nil_of_length_eq_zero (by simpa using paired')
            simp only [List.countP_nil] at left
            omega
          have counted : ¬(openTail && values.isEmpty) = true := by simp [more]
          rw [if_neg counted] at leaves
          have next := waiting_succ (by omega) full
          exact ih hk' hv' paired' left tail' ⟨evals.regular, leaves⟩ (by omega) (by omega)
      | some key =>
        have left : stored + keys.countP (·.isNone) = positional := by simpa using total
        unfold emitFields
        refine (toRks_lowers (hk key (.head _)) value_regular poised).bind ?_
        rintro ⟨b, c⟩ t ⟨⟨hb, hc⟩, used'⟩ leads
        have := leads.bounds
        refine (leads.emitAbc ?_ rfl (by omega) ?_ False.elim).bind fun _ u used'' leads' => ?_
        · rintro r (rfl | names | names)
          · omega
          · exact hb.register names
          · exact hc.register names
        · rintro _ k (names | names)
          · exact hb.constant leads.frame.peak names
          · exact hc.constant leads.frame.peak names
        have := leads'.bounds
        exact ih hk' hv' paired' left tail' leads'.toPoised (by omega) (by omega)

theorem emitTable_lowers (hk : ∀ key, some key ∈ keys → key.Regular slack) (hv : ∀ value ∈ values, value.Regular slack)
    (paired : keys.length ≤ values.length) : Emits slack fun a _ => emitTable keys values a := by
  intro pending s a poised inside
  have := poised.bounds
  refine .difference (Nat.le_trans List.countP_le_length paired)
    ((poised.emitAbc ?_ rfl (by omega) False.elim False.elim).bind fun _ t used leads => ?_)
  · rintro r rfl
    omega
  have := leads.bounds
  refine emitFields_lowers hk hv paired (Nat.zero_add _) ?_ leads.toPoised inside (by omega) ?_
  · intro _ tail
    exact (Bool.and_eq_true_iff.mp tail).2
  · unfold waiting
    split <;> simp [used]

end ExpCode

end LuaBytecode
