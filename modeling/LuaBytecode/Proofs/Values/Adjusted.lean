import LuaBytecode.Proofs.Values.Tracer
import Mathlib.Data.List.Induction

namespace LuaBytecode

open Lowering ExpCode

section Load

variable {V W : Type} {I : Interpreter V W} {s₀ s s' : Lowering} {M : Meaning I.nil W s₀.frame.used} {u : Unit}
  {want n a : Nat} {f f' : Frame} {e : Exp}

theorem padNils_executes (run : padNils want s = .ok u s') (m : Process V W) :
    I.Executes s.frame s'.frame m fun m' => m'.world = m.world ∧
      (∀ r < s.frame.used, m'.registers r = m.registers r) ∧ ∀ k < want, m'.registers (s.frame.used + k) = I.nil := by
  cases want with
  | zero =>
    obtain ⟨_, rfl⟩ := pure_ok run
    exact .nothing rfl ⟨rfl, fun _ _ => rfl, fun k below => absurd below (Nat.not_lt_zero k)⟩
  | succ n =>
    obtain ⟨a, f, alloc, run⟩ := bind_lift_ok run
    obtain ⟨rfl, _, _, same⟩ := Frame.allocN_ok alloc
    obtain ⟨_, emit, _⟩ := bind_pure_ok run
    obtain ⟨i, rfl, _, opcode, ha, hb, _⟩ := emitAbc_lower emit
    have pc : s.frame.pc = f.pc := by rw [same]; rfl
    refine .after pc (.push fun p found start => ⟨_, I.fills p m i (start ▸ found) opcode, by rw [start], rfl, ?_, ?_⟩)
    · intro r below
      exact if_neg (by omega)
    · intro k below
      exact if_pos (by omega)

theorem allocAll_fits (fits : f.used < Frame.registerLimit) (run : Frame.allocAll n f = .ok u f') :
    f'.used < Frame.registerLimit := by
  induction n generalizing f with
  | zero =>
    cases run
    exact fits
  | succ n ih =>
    obtain ⟨_, g, first, rest⟩ := bind_ok run
    obtain ⟨_, room, rfl⟩ := Frame.alloc_ok first
    exact ih room rest

theorem allocN_fits {r : Nat} (fits : f.used < Frame.registerLimit) (run : Frame.allocN n f = .ok r f') :
    f'.used < Frame.registerLimit := by
  have rest := bind_get_ok run
  obtain ⟨_, all, _⟩ := bind_pure_ok rest
  exact allocAll_fits fits all

variable {m : Process V W} {vs : List V} {σ : Scene V W s₀.frame.used}

theorem Exp.Delivers.inNewRegister (given : e.Delivers I s₀ M) (tidy : e.code.Tidy) (adds : s₀.Gains s)
    (above : s₀.frame.used ≤ s.frame.used) {t : Lowering} (asked : n = 1 ∨ e.isMulti = true)
    (evaluated : M.evaluate e (m.scene _) = some (vs, σ)) (taken : (Frame.alloc : LowerM Nat) s = .ok a t)
    (emit : e.code.emit a n t = .ok u s') :
    s.frame.used + 1 < Frame.registerLimit ∧ s.Gains s' ∧ s'.frame.used = s.frame.used + 1 ∧
      (s.frame.used + n < Frame.registerLimit → I.Executes s.frame s'.frame m fun m' => m'.scene _ = σ ∧
        (∀ r, s₀.frame.used ≤ r → r < s.frame.used → m'.registers r = m.registers r) ∧
        ∀ k < n, m'.registers (s.frame.used + k) = vs[k]?.getD I.nil) := by
  obtain ⟨allocated, _⟩ := Adding.alloc _ _ _ taken
  obtain ⟨f, alloc, rfl⟩ := lift_ok taken
  obtain ⟨rfl, room, rfl⟩ := Frame.alloc_ok alloc
  obtain ⟨added, used⟩ := tidy.emit _ _ _ _ _ emit
  refine ⟨room, allocated.trans added, used, fun fits => ?_⟩
  exact given _ _ _ n (adds.trans allocated) above rfl fits asked emit m vs σ evaluated

/-- A call or `...` at the end gives all the values that are still wanted. Their registers are taken afterwards. -/
theorem Exp.Delivers.atEnd (given : e.Delivers I s₀ M) (tidy : e.code.Tidy) (adds : s₀.Gains s)
    (above : s₀.frame.used ≤ s.frame.used) (multi : e.isMulti = true)
    (evaluated : M.evaluate e (m.scene _) = some (vs, σ)) (run : loadValues [e.code] want s = .ok u s') :
    I.Executes s.frame s'.frame m fun m' => m'.scene _ = σ ∧
      (∀ r, s₀.frame.used ≤ r → r < s.frame.used → m'.registers r = m.registers r) ∧
      ∀ k < want, m'.registers (s.frame.used + k) = vs[k]?.getD I.nil := by
  obtain ⟨a, t, taken, run⟩ := bind_ok run
  rw [if_pos (by rwa [ExpCode.isMulti, Exp.code_exp])] at run
  obtain ⟨_, t, emit, run⟩ := bind_ok run
  obtain ⟨room, added, used, loads⟩ := given.inNewRegister tidy adds above (.inr multi) evaluated taken emit
  obtain ⟨_, kept, _⟩ := bind_pure_ok run
  obtain ⟨g, reserved, rfl⟩ := lift_ok kept
  obtain ⟨_, more, _, same⟩ := Frame.allocN_ok reserved
  have fits := allocN_fits (by omega) reserved
  have pc : g.pc = t.frame.pc := by
    rw [same]
    rfl
  exact (loads (by omega)).trans added.frame (same ▸ .ofUsed) fun m' done => .nothing pc done

theorem registers_cons {registers : Nat → V} {nil : V} {ws : List V} (here : registers a = vs[0]?.getD nil)
    (more : ∀ k < want - 1, registers (a + 1 + k) = ws[k]?.getD nil) :
    ∀ k < want, registers (a + k) = (vs.headD nil :: ws)[k]?.getD nil := by
  intro k below
  cases k with
  | zero => rw [Nat.add_zero, here, List.getElem?_cons_zero, Option.getD_some, List.headD_eq_head?_getD,
      List.head?_eq_getElem?]
  | succ k => rw [List.getElem?_cons_succ, ← more k (by omega), Nat.add_right_comm, Nat.add_assoc]

theorem loadValues_executes {exps : List Exp} (tidy : ∀ e ∈ exps, e.code.Tidy)
    (delivers : ∀ e ∈ exps, e.Delivers I s₀ M) (adds : s₀.Gains s) (above : s₀.frame.used ≤ s.frame.used)
    (run : loadValues (exps.map Exp.code) want s = .ok u s') (values : M.values exps (m.scene _) = some (vs, σ)) :
    I.Executes s.frame s'.frame m fun m' => m'.scene _ = σ ∧
      (∀ r, s₀.frame.used ≤ r → r < s.frame.used → m'.registers r = m.registers r) ∧
      ∀ k < want, m'.registers (s.frame.used + k) = vs[k]?.getD I.nil := by
  induction exps generalizing s want m vs with
  | nil =>
    cases values
    refine (padNils_executes run m).weaken ?_
    rintro m' ⟨world, same, nils⟩
    refine ⟨?_, fun r _ => same r, nils⟩
    exact Process.scene_eq (fun r below => same r (Nat.lt_of_lt_of_le below above)) world
  | cons e rest ih =>
    obtain ⟨first, others⟩ := List.forall_mem_cons.mp tidy
    obtain ⟨given, remaining⟩ := List.forall_mem_cons.mp delivers
    cases one : rest.isEmpty && e.isMulti with
    | true =>
      rw [Bool.and_eq_true, List.isEmpty_iff] at one
      obtain ⟨rfl, multi⟩ := one
      rw [Meaning.values_multi multi] at values
      exact given.atEnd first adds above multi values run
    | false =>
      rw [Meaning.values_cons one, Option.bind_eq_some_iff] at values
      obtain ⟨⟨ws, τ⟩, evaluated, values⟩ := values
      rw [Option.map_eq_some_iff] at values
      obtain ⟨⟨_, _⟩, values, same⟩ := values
      cases same
      rw [List.map_cons, loadValues_cons (by simpa [ExpCode.isMulti] using one)] at run
      obtain ⟨a, t, taken, run⟩ := bind_ok run
      obtain ⟨_, t, emit, run⟩ := bind_ok run
      obtain ⟨room, added, used, loads⟩ := given.inNewRegister first adds above (n := 1) (.inl rfl) evaluated taken emit
      have after := (loadValues_adds (List.forall_mem_map.mpr others) (want - 1) _ _ _ run).1
      refine (loads room).trans added.frame after.frame ?_
      rintro m' ⟨scene, same, here⟩
      refine (ih others remaining (adds.trans added) (by omega) run (scene ▸ values)).weaken ?_
      rintro m'' ⟨scene', same', more⟩
      rw [used] at same' more
      refine ⟨scene', fun r above below => ?_, registers_cons ?_ more⟩
      · rw [same' r above (by omega), same r above below]
      · rw [same' _ above (by omega)]
        exact here 0 Nat.one_pos

end Load

section Trim

variable {V W : Type}

theorem trimNils_concat (codes : List ExpCode) (e : ExpCode) : trimNils (codes ++ [e]) =
    if e.isNil && !codes.getLast?.any isMulti then trimNils codes else codes ++ [e] := by
  rw [trimNils, List.reverse_append, List.reverse_singleton, List.singleton_append, dropNils, List.head?_reverse]
  split
  · rfl
  · rw [List.reverse_cons, List.reverse_reverse]

theorem exists_trimmed (exps : List Exp) : ∃ kept nils, exps = kept ++ List.replicate nils .nil ∧
    trimNils (exps.map Exp.code) = kept.map Exp.code ∧ ∀ {V W : Type} {nil : V} {top : Nat} (M : Meaning nil W top) σ,
      M.values exps σ = (M.values kept σ).map fun r => (r.1 ++ List.replicate nils nil, r.2) := by
  induction exps using List.reverseRecOn with
  | nil => exact ⟨[], 0, rfl, rfl, fun M σ => rfl⟩
  | append_singleton before e ih =>
    rw [List.map_append, List.map_singleton, trimNils_concat]
    split
    · rename_i dropped
      simp only [ExpCode.isNil, Exp.code_exp, Bool.and_eq_true, Bool.not_eq_true', List.getLast?_map, Option.any_map]
        at dropped
      obtain ⟨isNil, single⟩ := dropped
      have single : before.getLast?.any Exp.isMulti = false := by
        simpa [Function.comp_def, ExpCode.isMulti] using single
      obtain rfl : e = .nil := by cases e <;> first | rfl | cases isNil
      obtain ⟨kept, nils, split, trimmed, values⟩ := ih
      refine ⟨kept, nils + 1, ?_, trimmed, fun M σ => ?_⟩
      · rw [split, List.append_assoc, List.replicate_succ']
      · rw [M.values_concat_nil single, values, Option.map_map, List.replicate_succ']
        simp only [Function.comp_def, List.append_assoc]
    · exact ⟨before ++ [e], 0, by simp, by simp, fun M σ => by simp⟩

theorem getD_append_nils (vs : List V) (nils : Nat) (nil : V) (k : Nat) :
    (vs ++ List.replicate nils nil)[k]?.getD nil = vs[k]?.getD nil := by
  rw [List.getElem?_append]
  split
  · rfl
  · rename_i outside
    rw [List.getElem?_eq_none (Nat.le_of_not_lt outside), List.getElem?_replicate]
    split <;> rfl

end Trim

/-- If every key of a table has a value, value lists are adjusted as the language says, and what is taken off their end
    are `nil`s. -/
theorem Exp.loadsAdjusted_of_paired {exps : List Exp} (paired : Exp.AllPaired (fun _ => True) exps) (want : Nat) :
    (∃ kept nils, exps = kept ++ List.replicate nils .nil ∧ trimNils (exps.map Exp.code) = kept.map Exp.code) ∧
      Exp.LoadsAdjusted exps want := by
  obtain ⟨kept, nils, split, trimmed, values⟩ := exists_trimmed exps
  refine ⟨⟨kept, nils, split, trimmed⟩, ?_⟩
  intro V W I s s' M trim delivers run m vs σ given
  have tidy := Exp.codes_tidy exps paired
  rw [Exp.codes_eq, List.reverse_nil, List.nil_append, List.forall_mem_map] at tidy
  cases trim with
  | false =>
    refine (loadValues_executes tidy delivers (.refl s) Nat.le.refl run given).weaken ?_
    exact fun m' ⟨scene, _, loaded⟩ => ⟨scene, loaded⟩
  | true =>
    rw [if_pos rfl, trimmed] at run
    rw [values, Option.map_eq_some_iff] at given
    obtain ⟨⟨ws, τ⟩, given, same⟩ := given
    cases same
    have member : ∀ e ∈ kept, e ∈ exps := fun e there => split ▸ List.mem_append_left _ there
    refine (loadValues_executes (fun e there => tidy e (member e there)) (fun e there => delivers e (member e there))
      (.refl s) Nat.le.refl run given).weaken ?_
    rintro m' ⟨scene, _, loaded⟩
    refine ⟨scene, fun k below => (loaded k below).trans ?_⟩
    rw [getD_append_nils]

def Exp.nilsAfterVararg : List Exp := [.table [] [], .vararg, .nil, .nil]

theorem Exp.nilsAfterVararg_loadsAdjusted : Exp.AllPaired (fun _ => True) nilsAfterVararg ∧
    ∀ trim : Bool, ∃ s' m', loadValues (if trim then trimNils (nilsAfterVararg.map Exp.code)
        else nilsAfterVararg.map Exp.code) 3 ⟨Frame.new 0 true 0, []⟩ = .ok () s' ∧
      tracer.Runs (s'.frame.toPrototype none) ⟨0, fun _ => some .move, []⟩ m' ∧
      m'.registers 0 = some .newTable ∧ m'.registers 1 = some .vararg ∧ m'.registers 2 = none ∧
      m'.world = [.vararg, .newTable] := by
  have paired : Exp.AllPaired (fun _ => True) nilsAfterVararg := by
    simp [nilsAfterVararg, Exp.AllPaired, Exp.Paired, Exp.KeysPaired]
  refine ⟨paired, fun trim => ?_⟩
  obtain ⟨_, s', run⟩ := exists_of_succeeds (show succeeds (loadValues (if trim then
      trimNils (nilsAfterVararg.map Exp.code) else nilsAfterVararg.map Exp.code) 3 ⟨Frame.new 0 true 0, []⟩) = true by
    revert trim
    decide +kernel)
  have nils : ∀ e ∈ [Exp.nil, .nil], e.Delivers tracer ⟨Frame.new 0 true 0, []⟩ (traced _) :=
    List.forall_mem_cons.mpr ⟨Exp.nil_delivers, List.forall_mem_singleton.mpr Exp.nil_delivers⟩
  have delivers : ∀ e ∈ nilsAfterVararg, e.Delivers tracer ⟨Frame.new 0 true 0, []⟩ (traced _) :=
    List.forall_mem_cons.mpr ⟨emptyTable_delivers, List.forall_mem_cons.mpr ⟨vararg_delivers, nils⟩⟩
  obtain ⟨m', runs, _, scene, loaded⟩ := (Exp.loadsAdjusted_of_paired paired 3).2 tracer _ s' (traced _) trim delivers run
    ⟨0, fun _ => some .move, []⟩ _ _ rfl _ (.ofFrame s'.frame none) rfl
  exact ⟨s', m', run, runs, loaded 0 (by decide), loaded 1 (by decide), loaded 2 (by decide), congrArg Scene.world scene⟩

/-- A table with more keys than values may keep a register, and the next value comes one register too late. -/
theorem Exp.not_loadsAdjusted_leaking : ¬ Exp.LoadsAdjusted [.leaking, .bool true] 2 := by
  intro adjusted
  -- No instruction loads a boolean into register 1, where the second value should be.
  obtain ⟨s', run, absent⟩ := exists_of_avoids (show avoids .loadBool 1
      (loadValues ([.leaking, .bool true].map Exp.code) 2 ⟨Frame.new 0 false 0, []⟩) = true by decide +kernel)
  have delivers : ∀ e ∈ ([.leaking, .bool true] : List Exp),
      e.Delivers tracer ⟨Frame.new 0 false 0, []⟩ (traced _) :=
    List.forall_mem_cons.mpr ⟨leaking_delivers, List.forall_mem_singleton.mpr (bool_delivers true)⟩
  obtain ⟨m', runs, _, _, loaded⟩ := adjusted tracer _ s' (traced _) false delivers run ⟨0, fun _ => none, []⟩ _ _ rfl _
    (.ofFrame s'.frame none) rfl
  exact tracer_avoids absent (by decide) runs (by decide) (loaded 1 (by decide))

end LuaBytecode
