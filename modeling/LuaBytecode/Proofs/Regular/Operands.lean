import LuaBytecode.Proofs.Regular.Names

namespace LuaBytecode

open Lowering

def Emits (slack : Nat) (emit : Nat → Int → LowerM Unit) : Prop :=
  ∀ ⦃pending : List Nat⦄ ⦃s : Lowering⦄ ⦃a : Nat⦄, s.Poised slack pending → a < s.frame.used →
    Restores slack pending (emit a 1) s

/-- What has been loaded for a call: the values up to the top, or a number of arguments. -/
def Frame.Prepared (f : Frame) (a : Nat) (count : Int) : Prop :=
  count = -1 ∧ (∃ r, a < r ∧ f.Opened r) ∨ 0 ≤ count ∧ f.Settled ∧ a + count.toNat < f.peak

/-- Lowering the expression keeps functions regular. Only calls and `...` are asked for other than one value, and they
    leave their results open if they are asked for all. -/
structure ExpCode.Regular (slack : Nat) (e : ExpCode) : Prop where
  emit : ∀ ⦃pending : List Nat⦄ ⦃s : Lowering⦄ ⦃a : Nat⦄ ⦃n : Int⦄, s.Poised slack pending → a < s.frame.used →
    (n = 1 ∨ e.isMulti = true ∧ -1 ≤ n) → Gives (e.emit a n) s fun _ t =>
      (if e.isMulti = true ∧ Frame.countOperand n = 0 then t.frame.Opened a else t.frame.Settled) ∧
        Evals slack (a + n.toNat) pending s.frame.used s t
  operands : e.operands ≠ [] ∧ ∀ emit ∈ e.operands, Emits slack emit
  prepare : ∀ prepare, e.prepare? = some prepare → ∀ ⦃pending : List Nat⦄ ⦃s : Lowering⦄ ⦃a : Nat⦄,
    s.Poised slack pending → a < s.frame.used → Gives (prepare a) s fun count t =>
      t.frame.Prepared a count ∧ Evals slack 0 pending s.frame.used s t
  method : ∀ load, e.method? = some load → ∀ ⦃pending : List Nat⦄ ⦃s : Lowering⦄ ⦃a : Nat⦄,
    s.Poised slack pending → a < s.frame.used →
      Lowers slack pending (load a) s fun _ t => t.frame.used = s.frame.used + 1
  target : ∀ ⦃pending : List Nat⦄ ⦃s : Lowering⦄, s.Poised slack pending →
    Lowers slack pending e.target s fun target t => target.Fits t.frame
  register : ∀ ⦃pending : List Nat⦄ ⦃s : Lowering⦄, s.Poised slack pending →
    Lowers slack pending e.register? s fun r? t => t = s ∧ ∀ r, r? = some r → r < s.frame.peak
  place : ∀ ⦃pending : List Nat⦄ ⦃s : Lowering⦄, s.Poised slack pending →
    Lowers slack pending e.place? s fun place? t => ∀ place, place? = some place → place.Fits t.frame

theorem Frame.countOperand_le {n : Int} (least : -1 ≤ n) : (countOperand n : Int) ≤ n + 1 := by
  unfold countOperand
  omega

theorem Frame.countOperand_natCast {n : Nat} (small : n < 4294967295) : countOperand n = n + 1 := by
  unfold countOperand
  omega

namespace ExpCode

variable {slack : Nat} {pending : List Nat} {s t : Lowering} {a : Nat} {e : ExpCode} {exps : List ExpCode}

namespace Regular

theorem emits (h : e.Regular slack) : Emits slack e.emit := by
  intro pending s a poised inside
  refine (h.emit poised inside (.inl rfl)).weaken ?_
  rintro _ t ⟨leaves, evals⟩
  rw [if_neg (by rintro ⟨_, zero⟩; simp [Frame.countOperand] at zero)] at leaves
  have := evals.regular.used_le
  have used := evals.used
  exact ⟨used, (evals.settle (by simp only [Int.toNat_one]; omega)).leads leaves⟩

theorem emitOpen (h : e.Regular slack) (multi : e.isMulti = true) (poised : s.Poised slack pending)
    (inside : a < s.frame.used) : Gives (e.emit a (-1)) s fun _ t =>
      t.frame.Opened a ∧ Evals slack 0 pending s.frame.used s t := by
  refine (h.emit poised inside (.inr ⟨multi, by omega⟩)).weaken ?_
  rintro _ t ⟨leaves, evals⟩
  have := evals.regular.used_le
  have := evals.used
  rw [if_pos ⟨multi, rfl⟩] at leaves
  exact ⟨leaves, evals.settle (by rw [show (-1 : Int).toNat = 0 from rfl]; omega)⟩

theorem next {β : Type} {k : Nat → LowerM β} {final : β → Lowering → Prop} {emit : Nat → Int → LowerM Unit}
    (h : Emits slack emit) (poised : s.Poised slack pending)
    (rest : ∀ t, t.frame.used = s.frame.used + 1 → Leads slack pending s t →
      Lowers slack pending (k s.frame.used) t final) :
    Lowers slack pending (do
      let a ← Frame.alloc
      emit a 1
      k a) s final := by
  refine poised.alloc.bind ?_
  rintro _ t ⟨rfl, used⟩ leads
  refine (h leads.toPoised (by omega)).bind ?_
  intro _ u used' leads'
  exact rest u (used'.trans used) (leads.trans leads')

variable (h : e.Regular slack) (poised : s.Poised slack pending)

include h poised

theorem toNewRegister :
    Lowers slack pending e.toNewRegister s fun r t => r = s.frame.used ∧ t.frame.used = s.frame.used + 1 :=
  next h.emits poised fun _ used leads => .pure leads.toPoised ⟨rfl, used⟩

theorem toRegister : Lowers slack pending e.toRegister s fun r t => r < t.frame.peak := by
  refine (h.register poised).bind ?_
  rintro r? t ⟨rfl, inside⟩ _
  cases r? with
  | some r => exact .pure poised (inside r rfl)
  | none =>
    refine next h.emits poised fun u used leads => .pure leads.toPoised ?_
    have := leads.bounds
    omega

omit h in
theorem constantRk? :
    Lowers slack pending e.constantRk? s fun rk? t => ∀ rk, rk? = some rk → t.frame.HasRk rk := by
  unfold ExpCode.constantRk?
  split
  · exact .pure poised (by rintro _ ⟨⟩)
  · rename_i k _
    refine (poised.constantIndex k).bind ?_
    rintro index t ⟨known, _⟩ leads
    refine .pure leads.toPoised ?_
    intro rk same
    split at same
    · cases same
      exact .inr ⟨index, rfl, ‹_›, known⟩
    · cases same

theorem toRk : Lowers slack pending e.toRk s fun rk t => t.frame.HasRk rk := by
  refine (constantRk? poised).bind ?_
  intro rk? t known leads
  cases rk? with
  | some rk => exact .pure leads.toPoised (known rk rfl)
  | none => exact (h.toRegister leads.toPoised).weaken fun _ _ => .inl

theorem toTable : Lowers slack pending e.toTable s fun place t => place.Fits t.frame := by
  refine (h.place poised).bind ?_
  intro place? t fits leads
  cases place? with
  | some place => exact .pure leads.toPoised (fits place rfl)
  | none =>
    refine (h.toNewRegister leads.toPoised).bind ?_
    rintro _ u ⟨rfl, used⟩ leads'
    have := leads'.bounds
    exact .pure leads'.toPoised (show t.frame.used < u.frame.peak by omega)

end Regular

theorem padNils_lowers (poised : s.Poised slack pending) (n : Nat) :
    Lowers slack pending (padNils n) s fun _ t => t.frame.used = s.frame.used + n := by
  cases n with
  | zero => exact .pure poised rfl
  | succ n =>
    refine (poised.allocN (n + 1)).bind ?_
    rintro _ t ⟨rfl, used⟩ leads
    have := leads.bounds
    rw [← used]
    refine .done (leads.emitAbc ?_ rfl (by omega) False.elim False.elim)
    rintro r ⟨_, below⟩
    omega

theorem loadValues_lowers (h : ∀ e ∈ exps, e.Regular slack) (want : Nat) (poised : s.Poised slack pending) :
    Lowers slack pending (loadValues exps want) s fun _ t => t.frame.used = s.frame.used + max want exps.length := by
  induction exps generalizing want s with
  | nil => simpa [loadValues] using padNils_lowers poised want
  | cons e rest ih =>
    have he := h e (.head _)
    have hr := fun e member => h e (.tail _ member)
    cases rest with
    | nil =>
      refine poised.alloc.bind ?_
      rintro _ t ⟨rfl, used⟩ leads
      simp only [List.length_cons, List.length_nil]
      split
      · rename_i multi
        refine Gives.bind ((he.emit leads.toPoised (by omega) (.inr ⟨multi, by omega⟩)).weaken ?_)
        rintro _ u ⟨leaves, evals⟩
        refine .bind ((allocN_gives evals.regular (want - 1)).weaken ?_)
        rintro _ v ⟨_, same, evals'⟩
        have limit := evals'.regular.limit
        have fits := evals'.regular.used_le
        have used' := evals.used
        have used'' := evals'.used
        -- The registers of the results are taken only now, and then their number is known to be small.
        have counted : Frame.countOperand want ≠ 0 := by
          rw [Frame.countOperand_natCast (by omega)]
          omega
        rw [if_neg (by rintro ⟨_, zero⟩; exact counted zero)] at leaves
        refine .pure ⟨by omega, (evals.trans (evals'.settle ?_)).leads (leaves.recounted same)⟩
        simp only [Int.toNat_natCast]
        omega
      · refine (he.emits leads.toPoised (by omega)).bind ?_
        intro _ u used' leads'
        refine (padNils_lowers leads'.toPoised (want - 1)).weaken ?_
        intro _ v used''
        omega
    | cons next rest =>
      refine Regular.next he.emits poised fun t used leads => (ih hr (want - 1) leads.toPoised).weaken ?_
      intro _ u used'
      simp only [List.length_cons] at used' ⊢
      omega

theorem loadOpen_gives (h : ∀ e ∈ exps, e.Regular slack) (poised : s.Poised slack pending) :
    Gives (loadOpen exps) s fun _ t =>
      (if isOpen exps = true then t.frame.Opened (s.frame.used + exps.length - 1) else t.frame.Settled) ∧
        Evals slack 0 pending (s.frame.used + exps.length) s t := by
  induction exps generalizing s with
  | nil => exact .pure ⟨by simpa [isOpen] using poised.settled, .refl poised.toRegular⟩
  | cons e rest ih =>
    have he := h e (.head _)
    have hr := fun e member => h e (.tail _ member)
    cases rest with
    | nil =>
      refine poised.alloc.before ?_
      rintro _ t ⟨rfl, used⟩ leads
      by_cases multi : e.isMulti = true
      · rw [if_pos multi]
        refine (he.emitOpen multi leads.toPoised (by omega)).weaken ?_
        rintro _ u ⟨opened, evals⟩
        exact ⟨by rwa [if_pos (by simpa [isOpen] using multi)], (leads.before evals).cast used⟩
      · rw [if_neg multi]
        refine Gives.weaken (he.emits leads.toPoised (by omega)) ?_
        rintro _ u ⟨used', leads'⟩
        refine ⟨?_, (leads.trans leads').evals (used'.trans used)⟩
        rw [if_neg (by simpa [isOpen] using multi)]
        exact leads'.settled
    | cons next rest =>
      refine poised.alloc.before ?_
      rintro _ t ⟨rfl, used⟩ leads
      refine (he.emits leads.toPoised (by omega)).before ?_
      intro _ u used' leads'
      refine (ih hr leads'.toPoised).weaken ?_
      rintro _ v ⟨leaves, evals⟩
      have same : isOpen (e :: next :: rest) = isOpen (next :: rest) := by simp [isOpen]
      refine ⟨?_, ((leads.trans leads').before evals).cast (by simp only [List.length_cons]; omega)⟩
      rw [same]
      simp only [List.length_cons] at leaves ⊢
      rwa [show s.frame.used + (rest.length + 1 + 1) - 1 = u.frame.used + (rest.length + 1) - 1 by omega]

end ExpCode

end LuaBytecode
