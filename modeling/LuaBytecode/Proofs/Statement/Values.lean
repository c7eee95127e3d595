import LuaBytecode.Proofs.Statement.Execution

namespace LuaBytecode

open Lowering ExpCode

variable {V : Type} {ops : Operators V} {vars : String → V} {live : List Binding} {s s' : Lowering} {u : Unit}
  {names : List String} {p : Program} {exps : List Exp} {e : Exp} {cs : List ExpCode} {vs : List V}

section Load

structure ExpCode.Single (ops : Operators V) (vars : String → V) (live : List Binding) (c : ExpCode) (v : V) : Prop where
  emit : Evaluates ops vars live c.emit v
  closed : c.isMulti = false
  nil : c.isNil = true → v = ops.constant .nil

theorem padNils_ok {n : Nat} (run : padNils n s = .ok u s') : s.Appends s' ∧
    s.frame.Executes ops vars s'.frame s.frame.used fun _ R => ∀ k < n, R (s.frame.used + k) = ops.constant .nil := by
  cases n with
  | zero =>
    obtain ⟨_, rfl⟩ := pure_ok run
    exact ⟨.refl _, .nothing rfl fun _ _ _ _ k below => absurd below (Nat.not_lt_zero k)⟩
  | succ n =>
    obtain ⟨a, f, alloc, run⟩ := bind_lift_ok run
    obtain ⟨rfl, _, _, same⟩ := Frame.allocN_ok alloc
    obtain ⟨_, emit, _⟩ := bind_pure_ok run
    obtain ⟨i, rfl, _, hop, ha, hb, _⟩ := emitAbc_lower emit
    have appends : s.frame.Appends f := by
      rw [same]
      exact .ofUsed
    have pc : f.pc = s.frame.pc := by rw [same]; rfl
    refine ⟨⟨appends.trans (.ofPush i), rfl⟩, ?_⟩
    have start : s.frame.Executes ops vars f s.frame.used fun _ _ => True := .nothing pc fun _ _ _ _ => trivial
    refine start.push appends Nat.le.refl fun p _ found R _ => ?_
    refine ⟨fun r => if i.a ≤ r ∧ r ≤ i.a + i.b then ops.constant .nil else R r, ?_, fun k below => ?_, fun r below => ?_⟩
    · rw [Program.step_eq found hop]
      rfl
    · exact if_pos (by omega)
    · exact if_neg (by omega)

variable (h : List.Forall₂ (Single ops vars live) cs vs)

include h

theorem loadValues_ok {want : Nat} (hlive : s.frame.live = live) (below : ∀ b ∈ live, b.register < s.frame.used)
    (run : loadValues cs want s = .ok u s') : s.Appends s' ∧
      s.frame.Executes ops vars s'.frame s.frame.used fun _ R =>
        ∀ k < want, R (s.frame.used + k) = (vs[k]?).getD (ops.constant .nil) := by
  induction h generalizing s want with
  | nil =>
    exact padNils_ok run
  | @cons c v cs vs head _ ih =>
    rw [loadValues_cons (by rw [head.closed, Bool.and_false])] at run
    obtain ⟨a, f, alloc, run⟩ := bind_lift_ok run
    obtain ⟨_, t, emit, more⟩ := bind_ok run
    obtain ⟨before, rfl, used, _, first⟩ := head.emit.inNewRegister hlive below alloc emit
    have hlive' : t.frame.live = live := before.frame.live.trans hlive
    have below' : ∀ b ∈ live, b.register < t.frame.used := fun b member => by
      have := below b member
      omega
    obtain ⟨after, rest⟩ := ih hlive' below' more
    refine ⟨before.trans after, first.andThen rest before.frame after.frame (hlive ▸ below) (by omega) ?_⟩
    intro _ R R' here same more k inside
    cases k with
    | zero =>
      rw [Nat.add_zero, same _ (by omega), here]
      rfl
    | succ k =>
      have next := more k (by omega)
      rw [used] at next
      rw [List.getElem?_cons_succ, ← next]
      congr 1
      omega

theorem dropNils_single : ∃ ws : List V, List.Forall₂ (Single ops vars live) (dropNils cs) ws ∧
      ∀ k : Nat, (ws.reverse[k]?).getD (ops.constant .nil) = (vs.reverse[k]?).getD (ops.constant .nil) := by
  induction h with
  | nil => exact ⟨[], .nil, fun _ => rfl⟩
  | @cons c v cs vs head tail ih =>
    rw [dropNils]
    split
    · rename_i dropped
      rw [Bool.and_eq_true] at dropped
      obtain ⟨ws, kept, same⟩ := ih
      refine ⟨ws, kept, fun k => (same k).trans ?_⟩
      rw [List.reverse_cons, head.nil dropped.1]
      rcases Nat.lt_trichotomy k vs.reverse.length with inside | rfl | outside
      · rw [List.getElem?_append_left inside]
      · rw [List.getElem?_eq_none Nat.le.refl, List.getElem?_concat_length]
        rfl
      · rw [List.getElem?_eq_none (Nat.le_of_lt outside), List.getElem?_eq_none (by simp at outside ⊢; omega)]
    · exact ⟨v :: vs, .cons head tail, fun _ => rfl⟩

theorem trimNils_single : ∃ ws : List V, List.Forall₂ (Single ops vars live) (trimNils cs) ws ∧
      ∀ k : Nat, (ws[k]?).getD (ops.constant .nil) = (vs[k]?).getD (ops.constant .nil) := by
  obtain ⟨ws, kept, same⟩ := dropNils_single (List.rel_reverse h)
  refine ⟨ws.reverse, List.rel_reverse kept, fun k => ?_⟩
  rw [same, List.reverse_reverse]

end Load

section Fragment

theorem Exp.Pure.mono {bound bound' : String → Prop} (more : ∀ x, bound x → bound' x) :
    (e : Exp) → e.Pure bound → e.Pure bound'
  | .nil, _ | .bool _, _ | .integer _, _ | .float _, _ | .string _, _ => trivial
  | .name x, h => more x h
  | .index object key, h => ⟨Exp.Pure.mono more object h.1, Exp.Pure.mono more key h.2⟩
  | .paren inner, h => Exp.Pure.mono more inner h
  | .unop _ operand, h => Exp.Pure.mono more operand h
  | .binop _ lhs rhs, h => ⟨Exp.Pure.mono more lhs h.1, Exp.Pure.mono more rhs h.2⟩

theorem Frame.binds_of_mem {f : Frame} {x : String} (h : x ∈ f.live.map (·.name)) : f.Binds x := by
  obtain ⟨b, member, rfl⟩ := List.mem_map.mp h
  unfold Frame.Binds Frame.register? Frame.binding?
  rw [Option.isSome_map, List.find?_isSome]
  exact ⟨b, member, by simp⟩

variable {f : Frame} {σ : Store V}

theorem Exp.computes (pure : e.Pure (· ∈ f.live.map (·.name))) (shape : e.Grammatical) :
    e.code.Computes ops vars f.live (e.value ops vars) :=
  Exp.code_computes f e (Exp.Pure.mono (fun _ member => Frame.binds_of_mem member) e pure) shape

theorem Exp.single (pure : e.Pure (· ∈ f.live.map (·.name))) (shape : e.Grammatical) :
    Single ops vars f.live e.code (e.value ops vars) where
  emit := (Exp.computes pure shape).emit
  closed := by
    rw [ExpCode.isMulti, Exp.code_exp]
    cases e <;> first | rfl | exact pure.elim
  nil isNil := by
    rw [ExpCode.isNil, Exp.code_exp] at isNil
    cases e <;> first | rfl | cases isNil

theorem Exp.singles (pure : ∀ e ∈ exps, e.Pure (· ∈ f.live.map (·.name))) (shape : ∀ e ∈ exps, e.Grammatical) :
    List.Forall₂ (Single ops vars f.live) (exps.map Exp.code) (exps.map (·.value ops vars)) := by
  induction exps with
  | nil => exact .nil
  | cons e rest ih =>
    refine .cons (Exp.single (pure e (.head _)) (shape e (.head _))) (ih ?_ ?_)
    · exact fun e member => pure e (.tail _ member)
    · exact fun e member => shape e (.tail _ member)

end Fragment

section Store

variable {R : Nat → V} {σ : Store V} {startPc depth size : Nat}

theorem declare_same (run : declare names startPc s = .ok u s') :
    s'.frame.code = s.frame.code ∧ s'.frame.constants = s.frame.constants := by
  induction names generalizing s with
  | nil =>
    obtain ⟨_, rfl⟩ := pure_ok run
    exact ⟨rfl, rfl⟩
  | cons x names ih =>
    obtain ⟨_, t, first, run⟩ := bind_ok run
    obtain ⟨_, added, _⟩ := bind_pure_ok first
    obtain ⟨f, add, rfl⟩ := lift_ok added
    obtain ⟨_, _, rfl⟩ := Frame.addLocal_ok add
    obtain ⟨code, constants⟩ := ih run
    exact ⟨code, constants⟩

theorem declare_held {values : List V} (run : declare names startPc s = .ok u s') (held : Held s.frame.live σ R)
    (loaded : ∀ k < names.length, R (s.frame.used + k) = (values[k]?).getD (ops.constant .nil)) :
    Held s'.frame.live (σ.declare (ops.constant .nil) names values) R := by
  induction names generalizing s σ values with
  | nil =>
    obtain ⟨_, rfl⟩ := pure_ok run
    exact held
  | cons x names ih =>
    obtain ⟨_, t, first, run⟩ := bind_ok run
    obtain ⟨_, added, _⟩ := bind_pure_ok first
    obtain ⟨f, add, rfl⟩ := lift_ok added
    obtain ⟨_, _, rfl⟩ := Frame.addLocal_ok add
    have here := loaded 0 (Nat.zero_lt_succ _)
    have value : (values[0]?).getD (ops.constant .nil) = values.headD (ops.constant .nil) := by cases values <;> rfl
    refine ih run (.cons ⟨rfl, here.trans value⟩ held) fun k inside => ?_
    have next := loaded (k + 1) (Nat.succ_lt_succ inside)
    rw [List.getElem?_tail, ← next, Frame.withLocal_used]
    congr 1
    omega

theorem Held.set {x : String} {r : Nat} {v : V} (held : Held live σ R) (stack : Stack depth size live)
    (found : (live.find? (·.name == x)).map (·.register) = some r) : Held live (σ.set x v) (Function.update R r v) := by
  induction held generalizing depth size with
  | nil => cases found
  | @cons b cell rest older here held ih =>
    obtain ⟨y, w⟩ := cell
    obtain ⟨name, value⟩ := here
    rw [Store.set]
    by_cases same : b.name = x
    · rw [List.find?_cons_of_pos (by simpa using same)] at found
      cases found
      rw [if_pos (name.symm.trans same)]
      refine .cons ⟨name, Function.update_self ..⟩ (Held.kept held fun c member => Function.update_of_ne ?_ ..)
      have lower := stack.tail.register_lt member
      have := stack.2.2.1
      exact Nat.ne_of_lt (show c.register < b.register by omega)
    · rw [List.find?_cons_of_neg (by simpa using same)] at found
      rw [if_neg fun equal => same (name.trans equal)]
      obtain ⟨c, first, rfl⟩ := Option.map_eq_some_iff.mp found
      have lower := stack.tail.register_lt (List.mem_of_find?_eq_some first)
      refine .cons ⟨name, ?_⟩ (ih stack.tail found)
      rw [Function.update_of_ne, value]
      have := stack.2.2.1
      omega

def Places (live : List Binding) : List String → List Target → Prop :=
  List.Forall₂ fun x target => ∃ r, (live.find? (·.name == x)).map (·.register) = some r ∧ target = .place (.register r)

theorem resolveTargets_ok (bound : ∀ x ∈ names, s.frame.Binds x) {done targets : Array Target}
    (run : resolveTargets (names.map fun x => (Exp.name x).code) done s = .ok targets s') :
    s' = s ∧ ∃ more, targets.toList = done.toList ++ more ∧ Places s.frame.live names more := by
  induction names generalizing done with
  | nil =>
    obtain ⟨rfl, rfl⟩ := pure_ok run
    exact ⟨rfl, [], by simp, .nil⟩
  | cons x names ih =>
    obtain ⟨r, found⟩ := Option.isSome_iff_exists.mp (bound x (.head _))
    obtain ⟨target, t, resolved, run⟩ := bind_ok run
    have known : (Exp.name x).code.target s = .ok (.place (.register r)) s := by
      show nameTarget x s = _
      rw [nameTarget, bind_run (resolve_local found)]
      rfl
    cases known.symm.trans resolved
    obtain ⟨rfl, more, whole, places⟩ := ih (fun y member => bound y (.tail _ member)) run
    exact ⟨rfl, .place (.register r) :: more, by rw [whole]; simp, .cons ⟨r, found, rfl⟩ places⟩

theorem emitStores_ok {targets : List Target} {v : Nat} (places : Places live names targets)
    (stack : Stack depth size live) (below : ∀ b ∈ live, b.register < v) (run : emitStores v targets s = .ok u s') :
    s.Appends s' ∧
      ∀ p : Program, p.Includes s'.frame s.frame.pc s'.frame.pc → ∀ (values : List V) σ R, Held live σ R →
        (∀ k < names.length, R (v + k) = (values[k]?).getD (ops.constant .nil)) →
        ∃ R', p.Runs ops s.frame.pc s'.frame.pc ⟨s.frame.pc, R⟩ ⟨s'.frame.pc, R'⟩ ∧
          Held live (σ.assign (ops.constant .nil) names values) R' := by
  unfold Places at places
  induction places generalizing s v with
  | nil =>
    obtain ⟨_, rfl⟩ := pure_ok run
    exact ⟨.refl _, fun p _ _ σ R held _ => ⟨R, .refl _, held⟩⟩
  | @cons x target names targets head tail ih =>
    obtain ⟨r, found, rfl⟩ := head
    obtain ⟨_, t, moved, run⟩ := bind_ok run
    obtain ⟨_, emit, _⟩ := bind_pure_ok moved
    obtain ⟨i, rfl, _, hop, ha, hb, _⟩ := emitAbc_lower emit
    obtain ⟨after, rest⟩ := ih (v := v + 1) (fun b member => Nat.lt_succ_of_lt (below b member)) run
    refine ⟨((Appends.refl s).push i).trans after, fun p includes values σ R held loaded => ?_⟩
    have one : (s.push i).frame.pc = s.frame.pc + 1 := Frame.push_pc ..
    have later := after.frame.pc_le
    have there : p.code[s.frame.pc]? = some i :=
      ((includes.narrow Nat.le.refl later).earlier after.frame Nat.le.refl).pushed rfl Nat.le.refl (by omega)
    have here := loaded 0 (Nat.zero_lt_succ _)
    have value : (values[0]?).getD (ops.constant .nil) = values.headD (ops.constant .nil) := by cases values <;> rfl
    obtain ⟨b, first, register⟩ := Option.map_eq_some_iff.mp found
    have lower := below b (List.mem_of_find?_eq_some first)
    have stored : Held live (σ.set x (values.headD (ops.constant .nil)))
        (Function.update R r (values.headD (ops.constant .nil))) := held.set stack found
    obtain ⟨R', runs, final⟩ := rest p (includes.narrow (by omega) Nat.le.refl) values.tail _ _ stored fun k inside => by
      have next := loaded (k + 1) (Nat.succ_lt_succ inside)
      rw [Function.update_of_ne (by omega), List.getElem?_tail, ← next]
      congr 1
      omega
    refine ⟨R', .cons Nat.le.refl (by omega) ?_ (runs.mono (by omega) Nat.le.refl), final⟩
    rw [Program.step_eq there hop, one]
    show some (Machine.load ⟨s.frame.pc, R⟩ i.a (R i.b)) = _
    rw [Machine.load, ha, hb, ← value, ← here]
    rfl

end Store

section Plain

variable {Γ : Scopes} {t : Lowering} {a : Nat} {σ : Store V} {R : Nat → V}

theorem Lowering.Sound.below (sound : Sound Γ s) : ∀ b ∈ s.frame.live, b.register < s.frame.used := fun b member => by
  rw [sound.frame.balanced]
  exact sound.ready.stack.register_lt member

theorem Lowering.Sound.small (sound : Sound Γ s) : ∀ b ∈ s.frame.live, b.register < 256 := fun b member => by
  have inside := sound.ready.stack.register_lt member
  have few := sound.frame.small
  unfold Frame.registerLimit at few
  omega

theorem Frame.Executes.held {kept : Nat} {post : Array Constant → (Nat → V) → Prop} {f : Frame}
    (exec : s.frame.Executes ops (σ.value (ops.constant .nil)) f kept post) (sound : Lowering.Sound Γ s)
    (locals : s.frame.used ≤ kept) (includes : p.Includes f s.frame.pc f.pc) (held : Held s.frame.live σ R) :
    ∃ R', p.Runs ops s.frame.pc f.pc ⟨s.frame.pc, R⟩ ⟨f.pc, R'⟩ ∧ post p.constants R' ∧ Held s.frame.live σ R' := by
  obtain ⟨R', runs, final, same⟩ := exec sound.small p includes R (held.holds _)
  refine ⟨R', runs, final, held.kept fun b member => same _ ?_⟩
  exact Nat.lt_of_lt_of_le (sound.below b member) locals

theorem loadExps_runs {want : Nat} (sound : Sound Γ s) (pure : ∀ e ∈ exps, e.Pure (· ∈ s.frame.live.map (·.name)))
    (shape : ∀ e ∈ exps, e.Grammatical) (run : loadValues (trimNils (exps.map Exp.code)) want s = .ok u t)
    (includes : p.Includes t.frame s.frame.pc t.frame.pc) (held : Held s.frame.live σ R) :
    s.Appends t ∧ ∃ R', p.Runs ops s.frame.pc t.frame.pc ⟨s.frame.pc, R⟩ ⟨t.frame.pc, R'⟩ ∧
      (∀ k < want, R' (s.frame.used + k) = ((exps.map (·.valueIn ops σ))[k]?).getD (ops.constant .nil)) ∧
      Held s.frame.live σ R' := by
  have singles : List.Forall₂ (Single ops (σ.value (ops.constant .nil)) s.frame.live) (exps.map Exp.code)
    (exps.map (·.valueIn ops σ)) := Exp.singles pure shape
  obtain ⟨ws, kept, same⟩ := trimNils_single singles
  obtain ⟨appends, exec⟩ := loadValues_ok kept rfl sound.below run
  obtain ⟨R', runs, loaded, held'⟩ := exec.held sound Nat.le.refl includes held
  exact ⟨appends, R', runs, fun k inside => (loaded k inside).trans (same k), held'⟩

theorem emitLocals_runs (sound : Sound Γ s) (pure : ∀ e ∈ exps, e.Pure (· ∈ s.frame.live.map (·.name)))
    (shape : ∀ e ∈ exps, e.Grammatical) (run : emitLocals names (exps.map Exp.code) s = .ok u t)
    (includes : p.Includes t.frame s.frame.pc t.frame.pc) (held : Held s.frame.live σ R) :
    ∃ R', p.Runs ops s.frame.pc t.frame.pc ⟨s.frame.pc, R⟩ ⟨t.frame.pc, R'⟩ ∧
      Held t.frame.live (σ.declare (ops.constant .nil) names (exps.map (·.valueIn ops σ))) R' := by
  obtain ⟨_, _, scratched, run⟩ := bind_ok run
  obtain ⟨t₁, load, rfl⟩ := scratch_ok scratched
  replace run := bind_pc_ok run
  obtain ⟨code, constants⟩ := declare_same run
  have inner : p.Includes t₁.frame s.frame.pc t₁.frame.pc := by
    refine ⟨fun pc least most => ?_, ?_⟩
    · rw [includes.code pc least (by rwa [Frame.pc, code]), code]
      rfl
    · exact constants ▸ includes.constants
  obtain ⟨appends, R', runs, loaded, held'⟩ := loadExps_runs sound pure shape load inner held
  have pc : t.frame.pc = t₁.frame.pc := by rw [Frame.pc, code]; rfl
  have before : Held (t₁.withUsed s.frame.used).frame.live σ R' := by
    rwa [withUsed_frame, Frame.withUsed_live, appends.frame.live]
  rw [pc]
  exact ⟨R', runs, declare_held run before loaded⟩

theorem Exp.names_of_variables {targets : List Exp} (h : targets.mapM Exp.variable? = some names) :
    targets = names.map Exp.name := by
  induction targets generalizing names with
  | nil =>
    cases h
    rfl
  | cons target rest ih =>
    rw [List.mapM_cons] at h
    obtain ⟨x, first, h⟩ := Option.bind_eq_some_iff.mp h
    obtain ⟨more, later, same⟩ := Option.bind_eq_some_iff.mp h
    cases same
    rw [List.map_cons, ← ih later]
    cases target <;> cases first
    rfl

theorem emitAssign_runs (sound : Sound Γ s) (bound : ∀ x ∈ names, x ∈ s.frame.live.map (·.name))
    (pure : ∀ e ∈ exps, e.Pure (· ∈ s.frame.live.map (·.name))) (shape : ∀ e ∈ exps, e.Grammatical)
    (run : emitAssign (names.map fun x => (Exp.name x).code) (exps.map Exp.code) s = .ok u t)
    (includes : p.Includes t.frame s.frame.pc t.frame.pc) (held : Held s.frame.live σ R) :
    ∃ R', p.Runs ops s.frame.pc t.frame.pc ⟨s.frame.pc, R⟩ ⟨t.frame.pc, R'⟩ ∧
      Held s.frame.live (σ.assign (ops.constant .nil) names (exps.map (·.valueIn ops σ))) R' := by
  obtain ⟨t₂, inner, rfl⟩ := scratch_ok run
  obtain ⟨targets, _, resolve, rest⟩ := bind_ok inner
  obtain ⟨same, more, whole, places⟩ := resolveTargets_ok (fun x member => Frame.binds_of_mem (bound x member)) resolve
  rw [same] at rest
  replace rest := bind_used_ok rest
  obtain ⟨_, t₁, load, store⟩ := bind_ok rest
  rw [whole, List.nil_append] at store
  have count : targets.size = names.length := by rw [← Array.length_toList, whole, List.nil_append, places.length_eq]
  rw [count] at load
  obtain ⟨after, stores⟩ := emitStores_ok places sound.ready.stack sound.below store
  have last := after.frame.pc_le
  have whole' : p.Includes t₂.frame s.frame.pc t₂.frame.pc := ⟨includes.code, includes.constants⟩
  obtain ⟨before, R₁, loads, loaded, held₁⟩ := loadExps_runs sound pure shape load
    ((whole'.narrow Nat.le.refl last).earlier after.frame Nat.le.refl) held
  have first := before.frame.pc_le
  obtain ⟨R₂, moves, held₂⟩ := stores p (whole'.narrow first Nat.le.refl) _ σ R₁ held₁ loaded
  exact ⟨R₂, (loads.mono Nat.le.refl last).trans (moves.mono first Nat.le.refl), held₂⟩

theorem test_runs {i : Instruction} (sound : Sound Γ s) (pure : e.Pure (· ∈ s.frame.live.map (·.name)))
    (shape : e.Grammatical) (load : scratch e.code.toRegister s = .ok a t) (test : i.opcode? = some .test)
    (ha : i.a = a) (hc : i.c = 0) (includes : p.Includes (t.frame.push i) s.frame.pc (t.frame.pc + 1))
    (held : Held s.frame.live σ R) : ∃ R', p.Runs ops s.frame.pc (t.frame.pc + 1) ⟨s.frame.pc, R⟩
      ⟨if e.holdsIn ops σ then t.frame.pc + 2 else t.frame.pc + 1, R'⟩ ∧ Held s.frame.live σ R' := by
  obtain ⟨t₁, run, rfl⟩ := scratch_ok load
  have computes : e.code.Computes ops (σ.value (ops.constant .nil)) s.frame.live (e.valueIn ops σ) := Exp.computes pure shape
  obtain ⟨appends, _, _, _, exec⟩ := computes.toRegister rfl sound.below run
  have least := appends.frame.pc_le
  have there : p.code[t₁.frame.pc]? = some i := includes.pushed rfl least (Nat.lt_succ_self _)
  have before := (includes.narrow Nat.le.refl (Nat.le_succ _)).earlier (.ofPush i) Nat.le.refl
  obtain ⟨R', runs, value, held'⟩ := exec.held sound Nat.le.refl ⟨before.code, before.constants⟩ held
  refine ⟨R', (runs.mono Nat.le.refl (Nat.le_succ _)).trans (.one least (Nat.lt_succ_self _) ?_), held'⟩
  have tested : ops.truthy (R' i.a) = e.holdsIn ops σ := by
    rw [ha, value]
    rfl
  refine (Program.step_eq there test).trans ?_
  simp only [Program.execute, hc, tested, Machine.next]
  cases e.holdsIn ops σ <;> rfl

end Plain

end LuaBytecode
