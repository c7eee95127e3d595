import LuaBytecode.Proofs.Frame.Regular
import LuaBytecode.Proofs.Lowering.Outcome
import LuaBytecode.Proofs.Machine.Emission

namespace LuaBytecode

open Lowering

def Frame.HasRecords (f : Frame) : Prop := ∀ b ∈ f.live, b.record < f.locals.size

instance : DecidablePred Frame.HasRecords := fun f => inferInstanceAs (Decidable (∀ b ∈ f.live, b.record < f.locals.size))

structure Frame.Attached (f parent : Frame) : Prop where
  distinct : (f.upvalues.toList.map (·.name)).Nodup
  few : f.upvalues.size ≤ upvalueLimit
  names : ∀ u ∈ f.upvalues, u.Names parent.live parent.upvalues
  records : parent.HasRecords

def Chain : Frame → List Frame → Prop
  | f, [] => f.upvalues = #[] ∧ ∃ r, f.register? environment = some r
  | f, parent :: outer => f.Attached parent ∧ Chain parent outer

section Upvalues

variable {f f' parent : Frame} {outer : List Frame} {live live' : List Binding} {name : String}

theorem Upvalue.Names.marked {u : Upvalue} {upvalues : Array Upvalue} (h : u.Names live upvalues)
    (same : RemainAll live live') : u.Names live' upvalues := by
  unfold Upvalue.Names at *
  split
  · rename_i inStack
    rw [if_pos inStack] at h
    obtain ⟨b, member, name, register⟩ := h
    obtain ⟨b', member', marked⟩ := same.forward member
    exact ⟨b', member', marked.name.trans name, marked.register.trans register⟩
  · rename_i outside
    rwa [if_neg outside] at h

theorem Frame.exists_of_register? {r : Nat} (h : f.register? name = some r) :
    ∃ b ∈ f.live, b.name = name ∧ b.register = r := by
  obtain ⟨b, found, rfl⟩ := Option.map_eq_some_iff.mp h
  exact ⟨b, List.mem_of_find?_eq_some found, by simpa using List.find?_some found, rfl⟩

theorem Frame.register?_marked (same : RemainAll f.live f'.live) (name : String) :
    f'.register? name = f.register? name := by
  unfold register? binding?
  generalize f.live = live, f'.live = live' at same
  induction same with
  | nil => rfl
  | cons head _ ih =>
    rw [List.find?_cons, List.find?_cons, head.name]
    split
    · exact congrArg some head.register
    · exact ih

theorem Frame.Attached.marked (h : f.Attached parent) {parent' : Frame} (same : RemainAll parent.live parent'.live)
    (locals : parent'.locals = parent.locals) (more : parent.upvalues.toList <+: parent'.upvalues.toList) :
    f.Attached parent' where
  distinct := h.distinct
  few := h.few
  names u member := ((h.names u member).grow more).marked same
  records b' member := by
    obtain ⟨b, old, remains⟩ := same.backward member
    rw [remains.record, locals]
    exact h.records b old

theorem Chain.marked (h : Chain f outer) (same : RemainAll f.live f'.live) (upvalues : f'.upvalues = f.upvalues) :
    Chain f' outer := by
  cases outer with
  | nil =>
    obtain ⟨none, r, bound⟩ := h
    exact ⟨upvalues.trans none, r, (Frame.register?_marked same environment).trans bound⟩
  | cons parent outer =>
    obtain ⟨⟨distinct, few, names, records⟩, rest⟩ := h
    exact ⟨⟨upvalues ▸ distinct, upvalues ▸ few, upvalues ▸ names, records⟩, rest⟩

theorem Frame.exists_of_upvalueIndex? {i : Nat} (h : f.upvalueIndex? name = some i) :
    ∃ u, f.upvalues[i]? = some u ∧ u.name = name := by
  obtain ⟨inside, found, _⟩ := Array.findIdx?_eq_some_iff_getElem.mp h
  exact ⟨_, Array.getElem?_eq_getElem inside, by simpa using found⟩

theorem Frame.Attached.addUpvalue (h : f.Attached parent) (fresh : f.upvalueIndex? name = none) {inStack : Bool}
    {index : Nat} (refers : Upvalue.Names ⟨name, inStack, index⟩ parent.live parent.upvalues) :
    Gives (Frame.addUpvalue name inStack index) f fun i g => g = { f with upvalues := g.upvalues } ∧
      f.upvalues.toList <+: g.upvalues.toList ∧ g.Attached parent ∧ ∃ u, g.upvalues[i]? = some u ∧ u.name = name := by
  unfold Gives Frame.addUpvalue
  rw [fresh]
  by_cases full : f.upvalues.size ≥ upvalueLimit
  · rw [if_pos full]
    trivial
  · rw [if_neg full]
    refine ⟨rfl, by simp, ⟨?_, ?_, ?_, h.records⟩, ⟨name, inStack, index⟩, by simp, rfl⟩
    · have absent : ∀ u ∈ f.upvalues, u.name ≠ name := by
        have none := Array.findIdx?_eq_none_iff.mp fresh
        intro u member
        simpa using none u member
      simp only [Array.toList_push, List.map_append, List.map_cons, List.map_nil]
      rw [List.nodup_append]
      refine ⟨h.distinct, by simp, ?_⟩
      rintro x member y last rfl
      obtain ⟨u, listed, rfl⟩ := List.mem_map.mp member
      exact absent u (by simpa using listed) (List.mem_singleton.mp last)
    · simp only [Array.size_push]
      omega
    · intro u member
      rcases Array.mem_push.mp member with old | rfl
      · exact h.names u old
      · exact refers

theorem findUpvalue_gives (name : String) (outer : List Frame) (f : Frame) (chain : Chain f outer) :
    Gives (fun s : Lowering => findUpvalue name s.enclosing s.frame) ⟨f, outer⟩ fun i? t =>
      Chain t.frame t.enclosing ∧ t.frame = { f with upvalues := t.frame.upvalues } ∧
      f.upvalues.toList <+: t.frame.upvalues.toList ∧ List.Forall₂ Frame.Touched outer t.enclosing ∧
      (∀ i, i? = some i → ∃ u, t.frame.upvalues[i]? = some u ∧ u.name = name) ∧
      (i? = none → ∀ g ∈ outer, g.register? name = none) := by
  induction outer generalizing f with
  | nil =>
    unfold Gives findUpvalue
    refine ⟨chain, rfl, List.prefix_rfl, .nil, fun i found => ?_, by rintro _ _ ⟨⟩⟩
    exact Frame.exists_of_upvalueIndex? found
  | cons parent outer ih =>
    obtain ⟨attached, rest⟩ := chain
    have untouched : List.Forall₂ Frame.Touched (parent :: outer) (parent :: outer) :=
      List.forall₂_same.mpr fun g _ => .refl g
    cases fresh : f.upvalueIndex? name with
    | some i =>
      refine Gives.congr (n := pure (some i)) (u := ⟨f, parent :: outer⟩) ?_ (.pure ?_)
      · show findUpvalue name (parent :: outer) f = _
        rw [findUpvalue, fresh]
        rfl
      · refine ⟨⟨attached, rest⟩, rfl, List.prefix_rfl, untouched, ?_, by rintro ⟨⟩⟩
        rintro _ ⟨⟩
        exact Frame.exists_of_upvalueIndex? fresh
    | none =>
      cases bound : parent.register? name with
      | some r =>
        have marks := RemainAll.ofMarkCaptured name parent.live
        let parent' : Frame := { parent with live := Frame.markCaptured name parent.live }
        have attached' : f.Attached parent' := attached.marked marks rfl List.prefix_rfl
        have refers : Upvalue.Names ⟨name, true, r⟩ parent'.live parent'.upvalues := by
          obtain ⟨b, member, named, register⟩ := Frame.exists_of_register? bound
          obtain ⟨b', member', same⟩ := marks.forward member
          exact ⟨b', member', same.name.trans named, same.register.trans register⟩
        refine Gives.congr (n := some <$> liftM (Frame.addUpvalue name true r)) (u := ⟨f, parent' :: outer⟩) ?_
          (.map (.lift ((attached'.addUpvalue fresh refers).weaken ?_)))
        · show findUpvalue name (parent :: outer) f = _
          rw [findUpvalue]
          simp only [fresh, bound]
          rfl
        · rintro i g ⟨same, more, attached'', found⟩
          refine ⟨⟨attached'', rest.marked marks rfl⟩, same, more, ?_, ?_, by rintro ⟨⟩⟩
          · exact .cons ⟨rfl, marks, List.prefix_rfl⟩ (List.forall₂_same.mpr fun g _ => .refl g)
          · rintro _ ⟨⟩
            exact found
      | none =>
        have above := ih parent rest
        cases run : findUpvalue name outer parent with
        | error e t =>
          refine Gives.congr (n := throw e) (u := ⟨f, t.frame :: t.enclosing⟩) ?_ (.throw (above.error run))
          show findUpvalue name (parent :: outer) f = _
          rw [findUpvalue]
          simp only [fresh, bound, run]
          rfl
        | ok i? t =>
          obtain ⟨chain', same, more, touched, found, absent⟩ := above.ok run
          obtain ⟨parent', outer'⟩ := t
          have same : parent' = { parent with upvalues := parent'.upvalues } := same
          have live : RemainAll parent.live parent'.live := by
            rw [same]
            exact .refl _
          have around : List.Forall₂ Frame.Touched (parent :: outer) (parent' :: outer') :=
            .cons ⟨by rw [same], live, more⟩ touched
          have attached' : f.Attached parent' := attached.marked live (by rw [same]) more
          cases i? with
          | none =>
            refine Gives.congr (n := pure none) (u := ⟨f, parent' :: outer'⟩) ?_ (.pure ?_)
            · show findUpvalue name (parent :: outer) f = _
              rw [findUpvalue]
              simp only [fresh, bound, run]
              rfl
            · refine ⟨⟨attached', chain'⟩, rfl, List.prefix_rfl, around, by rintro _ ⟨⟩, fun _ g member => ?_⟩
              rcases List.mem_cons.mp member with rfl | member
              · exact bound
              · exact absent rfl g member
          | some i =>
            have refers : Upvalue.Names ⟨name, false, i⟩ parent'.live parent'.upvalues := found i rfl
            refine Gives.congr (n := some <$> liftM (Frame.addUpvalue name false i)) (u := ⟨f, parent' :: outer'⟩) ?_
              (.map (.lift ((attached'.addUpvalue fresh refers).weaken ?_)))
            · show findUpvalue name (parent :: outer) f = _
              rw [findUpvalue]
              simp only [fresh, bound, run]
              rfl
            · rintro i g ⟨same', more', attached'', found'⟩
              refine ⟨⟨attached'', chain'⟩, same', more', around, ?_, by rintro ⟨⟩⟩
              rintro _ ⟨⟩
              exact found'

theorem Chain.records (h : Chain f outer) : ∀ g ∈ outer, g.HasRecords := by
  induction outer generalizing f with
  | nil => exact List.forall_mem_nil _
  | cons parent outer ih => exact List.forall_mem_cons.mpr ⟨h.1.records, ih h.2⟩

theorem Chain.environment (h : Chain f outer) (inner : outer ≠ []) :
    ∃ g ∈ outer, ∃ r, g.register? Lowering.environment = some r := by
  induction outer generalizing f with
  | nil => exact absurd rfl inner
  | cons parent outer ih =>
    cases outer with
    | nil => exact ⟨parent, .head _, h.2.2⟩
    | cons next rest =>
      obtain ⟨g, member, bound⟩ := ih h.2 (List.cons_ne_nil _ _)
      exact ⟨g, .tail _ member, bound⟩

end Upvalues

structure Frame.Finishes (slack : Nat) (f : Frame) (p : Prototype) : Prop where
  regular : f.Regular (f.peak + slack) []
  settled : f.Settled
  retired : f.live = []
  params : f.params ≤ f.peak
  distinct : (f.upvalues.toList.map (·.name)).Nodup
  few : f.upvalues.size ≤ upvalueLimit
  returns : ∃ i source, Instruction.abc .ret 0 1 0 = .ok i ∧ p = (f.push i).toPrototype source

/-- The prototype comes from a regular frame, and so do those inside it. -/
inductive Prototype.Regular (slack : Nat) : Prototype → Prop
  | mk {f : Frame} {p : Prototype} : f.Finishes slack p → (∀ q ∈ p.functions, Regular slack q) → Regular slack p

/-- What a later state of a frame has in common with an earlier one: only plain jumps change. -/
structure Frame.Grown (f f' : Frame) : Prop where
  peak : f.peak ≤ f'.peak
  constants : f.constants.entries.size ≤ f'.constants.entries.size
  upvalues : f.upvalues.toList <+: f'.upvalues.toList
  code : ∀ (pc : Nat) (i : Instruction), f.code[pc]? = some i →
    ∃ j, f'.code[pc]? = some j ∧ j.opcode? = i.opcode? ∧ (i.opcode? ≠ some .jmp → j = i)
  params : f'.params = f.params

namespace Frame.Grown

variable {f g h : Frame} {pc t : Nat} {i j : Instruction}

theorem refl (f : Frame) : Grown f f where
  peak := Nat.le.refl
  constants := Nat.le.refl
  upvalues := List.prefix_rfl
  code _ i there := ⟨i, there, rfl, fun _ => rfl⟩
  params := rfl

theorem trans (first : Grown f g) (second : Grown g h) : Grown f h where
  peak := Nat.le_trans first.peak second.peak
  constants := Nat.le_trans first.constants second.constants
  upvalues := first.upvalues.trans second.upvalues
  code pc i there := by
    obtain ⟨j, there', same, kept⟩ := first.code pc i there
    obtain ⟨k, there'', same', kept'⟩ := second.code pc j there'
    refine ⟨k, there'', same'.trans same, fun loop => ?_⟩
    rw [kept' (same ▸ loop), kept loop]
  params := second.params.trans first.params

theorem upvalues_size (h : Grown f g) : f.upvalues.size ≤ g.upvalues.size := by simpa using h.upvalues.length_le

theorem pc_le (h : Grown f g) : f.pc ≤ g.pc := by
  by_contra less
  have inside : g.pc < f.code.size := Nat.not_le.mp less
  obtain ⟨j, there, _⟩ := h.code g.pc _ (Array.getElem?_eq_getElem inside)
  exact absurd (lt_of_getElem? there) (Nat.lt_irrefl _)

theorem landing (h : Grown f g) (landing : Landing f.code t) : Landing g.code t where
  inside := Nat.le_trans landing.inside h.pc_le
  alone k j same there := by
    have inside : k < f.code.size := by
      have := landing.inside
      omega
    obtain ⟨j', there', opcode, kept⟩ := h.code k _ (Array.getElem?_eq_getElem inside)
    cases there.symm.trans there'
    by_cases jump : (f.code[k]).opcode? = some .jmp
    · exact Instruction.binds_of_isJump (by rw [Instruction.isJump, opcode, jump]; rfl)
    · rw [kept jump]
      exact landing.alone k _ same (Array.getElem?_eq_getElem inside)

theorem ofPush : Grown f (f.push i) where
  peak := Nat.le.refl
  constants := Nat.le.refl
  upvalues := List.prefix_rfl
  code _ j there := ⟨j, getElem?_push_of_some there, rfl, fun _ => rfl⟩
  params := rfl

theorem replace (h : Grown f g) (there : g.code[pc]? = some i) (opcode : j.opcode? = i.opcode?)
    (allowed : i.opcode? = some .jmp ∨ f.pc ≤ pc) : Grown f (g.replace pc j) where
  peak := h.peak
  constants := h.constants
  upvalues := h.upvalues
  params := h.params
  code k l found := by
    obtain ⟨m, found', same, kept⟩ := h.code k l found
    by_cases here : pc = k
    · subst here
      cases there.symm.trans found'
      refine ⟨j, replace_self (lt_of_getElem? there), opcode.trans same, fun loop => ?_⟩
      rcases allowed with jump | later
      · exact absurd (same.symm.trans jump) loop
      · have inside : pc < f.pc := lt_of_getElem? found
        omega
    · exact ⟨m, (replace_other here).trans found', same, kept⟩

end Frame.Grown

def Frame.HasRk (f : Frame) (x : Nat) : Prop :=
  x < f.peak ∨ ∃ k, x = rkConstant k ∧ k ≤ maxRkIndex ∧ k < f.constants.entries.size

def Place.Fits (f : Frame) : Place → Prop
  | .register r => r < f.peak
  | .upvalue i => i < f.upvalues.size

def Target.Fits (f : Frame) : Target → Prop
  | .place p => p.Fits f
  | .field table key => table.Fits f ∧ f.HasRk key

section Fits

variable {f g : Frame}

theorem Frame.HasRk.register {x r : Nat} (h : f.HasRk x) (names : NamesRegister x r) :
    r < f.peak := by
  obtain ⟨register, rfl⟩ := names
  rcases h with inside | ⟨k, rfl, _⟩
  · exact inside
  · rw [isRkConstant_rkConstant] at register
    cases register

theorem Frame.HasRk.constant (limit : f.peak < Frame.registerLimit) {x k : Nat} (h : f.HasRk x) (names : NamesConstant x k) :
    k < f.constants.entries.size := by
  obtain ⟨constant, rfl⟩ := names
  rcases h with inside | ⟨k, rfl, small, there⟩
  · unfold Frame.registerLimit at limit
    rw [isRkConstant_of_lt (by omega)] at constant
    cases constant
  · rwa [rkConstant_mod small]

theorem Frame.HasRk.grow {x : Nat} (h : f.HasRk x) (grown : f.Grown g) : g.HasRk x := by
  rcases h with inside | ⟨k, same, small, there⟩
  · exact .inl (Nat.lt_of_lt_of_le inside grown.peak)
  · exact .inr ⟨k, same, small, Nat.lt_of_lt_of_le there grown.constants⟩

theorem Place.Fits.grow {place : Place} (h : place.Fits f) (grown : f.Grown g) : place.Fits g := by
  cases place with
  | register r => exact Nat.lt_of_lt_of_le h grown.peak
  | upvalue i => exact Nat.lt_of_lt_of_le h grown.upvalues_size

theorem Target.Fits.grow {target : Target} (h : target.Fits f) (grown : f.Grown g) : target.Fits g := by
  cases target with
  | place place => exact Place.Fits.grow h grown
  | field table key => exact ⟨h.1.grow grown, h.2.grow grown⟩

end Fits

end LuaBytecode
