import LuaBytecode.Proofs.Frame.Stack
import LuaBytecode.Proofs.Frame.Steps

namespace LuaBytecode

namespace Frame

variable {pc : Nat} {x : String} {b : Binding}

theorem takeWhile_congr {α : Type} {p q : α → Bool} {l : List α} (h : ∀ x ∈ l, p x = q x) :
    l.takeWhile p = l.takeWhile q := by
  induction l with
  | nil => rfl
  | cons x rest ih =>
    simp only [List.takeWhile_cons, h x (.head _), ih fun y member => h y (.tail _ member)]

section CloseLevel

theorem takeWhile_eq_filter {l : List Binding} (sorted : l.Pairwise fun newer older => older.depth ≤ newer.depth)
    (d : Nat) : l.takeWhile (fun b => d ≤ b.depth) = l.filter (fun b => d ≤ b.depth) := by
  induction l with
  | nil => rfl
  | cons b rest ih =>
    by_cases deep : d ≤ b.depth
    · rw [List.takeWhile_cons_of_pos (by simpa using deep), List.filter_cons_of_pos (by simpa using deep),
        ih sorted.of_cons]
    · have none : rest.filter (fun b => d ≤ b.depth) = [] := by
        rw [List.filter_eq_nil_iff]
        intro c member
        have := List.rel_of_pairwise_cons sorted member
        simp only [decide_eq_true_eq]
        omega
      rw [List.takeWhile_cons_of_neg (by simpa using deep), List.filter_cons_of_neg (by simpa using deep), none]

variable {f : Frame} {depth size top d : Nat}

theorem chain_takeWhile (layered : Layered depth size top f.live) (x : String) (d : Nat) :
    (f.chain x).takeWhile (fun b => d ≤ b.depth) = f.live.filter fun b => d ≤ b.depth ∧ b.name = x := by
  rw [chain, takeWhile_eq_filter (layered.sorted.filter _), List.filter_filter]
  congr 1
  funext b
  rw [Bool.eq_iff_iff]
  simp

theorem nodup_eraseDups (l : List String) : l.eraseDups.Nodup := by
  generalize size : l.length = n
  induction n using Nat.strongRecOn generalizing l with
  | _ n ih =>
    cases l with
    | nil => simp
    | cons x rest =>
      rw [List.eraseDups_cons, List.nodup_cons]
      constructor
      · simp [List.mem_eraseDups]
      · have shorter := List.length_filter_le (fun b => !b == x) rest
        exact ih _ (by rw [← size, List.length_cons]; omega) _ rfl

theorem foldl_min_le (l : List Binding) (init : Nat) :
    l.foldl (fun least b => min least b.register) init ≤ init ∧
      (∀ b ∈ l, l.foldl (fun least b => min least b.register) init ≤ b.register) ∧
      (l.foldl (fun least b => min least b.register) init = init ∨
        ∃ b ∈ l, l.foldl (fun least b => min least b.register) init = b.register) := by
  induction l generalizing init with
  | nil => exact ⟨Nat.le.refl, by simp, .inl rfl⟩
  | cons c rest ih =>
    obtain ⟨below, all, attained⟩ := ih (min init c.register)
    rw [List.foldl_cons]
    refine ⟨by omega, fun b member => ?_, ?_⟩
    · rcases List.mem_cons.mp member with rfl | member
      · omega
      · exact all b member
    · rcases attained with same | ⟨b, member, same⟩
      · rcases Nat.le_total init c.register with less | more
        · exact .inl (by omega)
        · exact .inr ⟨c, .head _, by omega⟩
      · exact .inr ⟨b, .tail _ member, same⟩

variable [NameOrder]

theorem mem_walk : x ∈ NameOrder.walk f ↔ ∃ b ∈ f.live, b.name = x := by
  rw [(NameOrder.perm f).mem_iff, names, List.mem_eraseDups, List.mem_map]

theorem nodup_walk (f : Frame) : (NameOrder.walk f).Nodup := (NameOrder.perm f).nodup_iff.mpr (nodup_eraseDups _)

def leaving (f : Frame) (d : Nat) : List Binding :=
  (NameOrder.walk f).flatMap fun x => (f.chain x).takeWhile fun b => d ≤ b.depth

theorem closeLevel_eq : f.closeLevel d =
    if (f.leaving d).any (·.captured) then
      ((f.leaving d).filter fun b => !isHidden b.name).foldl (fun least b => min least b.register) f.peak + 1
    else 0 := rfl

section

variable (layered : Layered depth size top f.live)

include layered

theorem mem_leaving : b ∈ f.leaving d ↔ b ∈ f.live ∧ d ≤ b.depth := by
  simp only [leaving, List.mem_flatMap, chain_takeWhile layered, mem_walk, List.mem_filter, decide_eq_true_eq]
  constructor
  · rintro ⟨x, _, member, deep, _⟩
    exact ⟨member, deep⟩
  · rintro ⟨member, deep⟩
    exact ⟨b.name, ⟨b, member, rfl⟩, member, deep, rfl⟩

theorem mem_live_iff (b : Binding) : b ∈ f.live ↔ b ∈ f.leaving d ∨ b ∈ f.live.filter fun b => b.depth < d := by
  rw [mem_leaving layered, List.mem_filter, decide_eq_true_eq]
  by_cases deep : d ≤ b.depth
  · simp [deep, Nat.not_lt.mpr deep]
  · simp [deep, Nat.not_le.mp deep]

theorem leaving_apart : ∀ b ∈ f.leaving d, ∀ c ∈ f.live.filter (fun b => b.depth < d), b.record ≠ c.record := by
  intro b leaving c stays same
  obtain ⟨hb, deep⟩ := (mem_leaving layered).mp leaving
  obtain ⟨hc, shallow⟩ := List.mem_filter.mp stays
  cases layered.eq_of_record hb hc same
  rw [decide_eq_true_eq] at shallow
  omega

end

variable (stack : Stack depth size f.live)

include stack

/-- A jump out of the scopes from `d` inwards closes nothing iff no nested function refers to their variables. -/
theorem closeLevel_eq_zero_iff : f.closeLevel d = 0 ↔ ∀ b ∈ f.live, d ≤ b.depth → b.captured = false := by
  have any : (f.leaving d).any (·.captured) = true ↔ ∃ b ∈ f.live, d ≤ b.depth ∧ b.captured = true := by
    simp only [List.any_eq_true, mem_leaving stack.layered, and_assoc]
  rw [closeLevel_eq]
  split
  · rename_i some
    obtain ⟨b, member, deep, captured⟩ := any.mp some
    simp only [Nat.add_eq_zero_iff, Nat.one_ne_zero, and_false, false_iff]
    intro none
    rw [none b member deep] at captured
    cases captured
  · rename_i none
    simp only [true_iff]
    intro b member deep
    by_contra captured
    exact none (any.mpr ⟨b, member, deep, by simpa using captured⟩)

theorem closeLevel_le (member : b ∈ f.live) (deep : d ≤ b.depth) (visible : isHidden b.name = false) :
    f.closeLevel d ≤ b.register + 1 := by
  rw [closeLevel_eq]
  split
  · apply Nat.succ_le_succ
    apply (foldl_min_le _ _).2.1
    simp only [List.mem_filter, mem_leaving stack.layered]
    exact ⟨⟨member, deep⟩, by simp [visible]⟩
  · exact Nat.zero_le _

theorem exists_closeLevel (visible : ∀ b ∈ f.live, b.captured → isHidden b.name = false) (room : f.live.length ≤ f.peak)
    (closes : f.closeLevel d ≠ 0) :
    ∃ b ∈ f.live, d ≤ b.depth ∧ isHidden b.name = false ∧ f.closeLevel d = b.register + 1 := by
  have some : ∃ b ∈ f.live, d ≤ b.depth ∧ b.captured = true := by
    by_contra none
    refine closes ((closeLevel_eq_zero_iff stack).mpr fun b member deep => ?_)
    by_contra captured
    exact none ⟨b, member, deep, by simpa using captured⟩
  obtain ⟨c, member, deep, captured⟩ := some
  have below : f.closeLevel d ≤ c.register + 1 := closeLevel_le stack member deep (visible c member captured)
  have inside := stack.register_lt member
  rw [closeLevel_eq] at closes below ⊢
  split at closes
  · rename_i any
    rw [if_pos any] at below ⊢
    rcases (foldl_min_le _ _).2.2 with same | ⟨b, found, same⟩
    · rw [same] at below
      omega
    · simp only [List.mem_filter, mem_leaving stack.layered] at found
      exact ⟨b, found.1.1, found.1.2, by simpa using found.2, by rw [same]⟩
  · exact absurd rfl closes

end CloseLevel

section ExitScope

variable {f f' : Frame} {u : Unit} {level depth size top d : Nat} {pcs : List Nat} {bindings : List Binding}

theorem lowerLevel_idem (a level : Nat) : lowerLevel (lowerLevel a level) level = lowerLevel a level := by
  cases a with
  | zero => cases level <;> simp [lowerLevel]
  | succ a => cases level <;> simp [lowerLevel]

theorem landBreak_code (h : landBreak level pc f = .ok u f') : f' = { f with code := f'.code } ∧ f'.pc = f.pc := by
  obtain ⟨_, g, amended, rest⟩ := bind_ok h
  obtain ⟨_, _, _, _, rfl⟩ := amend_ok amended
  obtain ⟨_, _, _, _, rfl⟩ := patchHere_ok rest
  exact ⟨rfl, by rw [replace_pc, replace_pc]⟩

theorem forM_landBreak_code (h : pcs.forM (landBreak level) f = .ok u f') :
    f' = { f with code := f'.code } ∧ f'.pc = f.pc := by
  induction pcs generalizing f with
  | nil =>
    cases h
    exact ⟨rfl, rfl⟩
  | cons pc pcs ih =>
    obtain ⟨_, g, first, rest⟩ := bind_ok h
    obtain ⟨same, size⟩ := ih rest
    obtain ⟨same', size'⟩ := landBreak_code first
    rw [same, same']
    exact ⟨rfl, size.trans size'⟩

theorem landBreak_ok {i : Instruction} (found : f.code[pc]? = some i) (jump : i.opcode? = some .jmp)
    (h : landBreak level pc f = .ok u f') :
    ∃ j, f' = f.replace pc j ∧ j.opcode? = some .jmp ∧ j.a = lowerLevel i.a level ∧ j.sbx = jumpOffset pc f.pc := by
  obtain ⟨_, g, amended, rest⟩ := bind_ok h
  obtain ⟨i', j, found', changed, rfl⟩ := amend_ok amended
  cases found.symm.trans found'
  obtain ⟨hop, ha, _⟩ := Instruction.setA_ok jump changed
  obtain ⟨j', k, again, changed', rfl⟩ := patchHere_ok rest
  have inside := lt_of_getElem? found
  rw [replace_code, Array.getElem?_setIfInBounds_self_of_lt inside] at again
  cases again
  obtain ⟨hop', ha', hsbx⟩ := Instruction.setSbx_ok hop changed'
  refine ⟨k, ?_, hop', ha'.trans ha, by rw [hsbx, replace_pc]⟩
  simp only [replace, Array.setIfInBounds_setIfInBounds]

theorem landBreaks_ok (jumps : ∀ pc ∈ pcs, ∃ i, f.code[pc]? = some i ∧ i.opcode? = some .jmp)
    (h : pcs.forM (landBreak level) f = .ok u f') :
    f' = { f with code := f'.code } ∧ f'.pc = f.pc ∧ (∀ pc, pc ∉ pcs → f'.code[pc]? = f.code[pc]?) ∧
      ∀ pc ∈ pcs, ∀ i, f.code[pc]? = some i → ∃ j, f'.code[pc]? = some j ∧ j.opcode? = some .jmp ∧
        j.a = lowerLevel i.a level ∧ j.sbx = jumpOffset pc f.pc := by
  induction pcs generalizing f with
  | nil =>
    cases h
    exact ⟨rfl, rfl, fun _ _ => rfl, by simp⟩
  | cons pc pcs ih =>
    obtain ⟨_, g, first, rest⟩ := bind_ok h
    obtain ⟨i, found, jump⟩ := jumps pc (.head _)
    obtain ⟨j, rfl, hop, ha, hsbx⟩ := landBreak_ok found jump first
    have inside := lt_of_getElem? found
    have here : (f.replace pc j).code[pc]? = some j := Array.getElem?_setIfInBounds_self_of_lt inside
    have other : ∀ pc', pc' ≠ pc → (f.replace pc j).code[pc']? = f.code[pc']? := fun pc' ne =>
      Array.getElem?_setIfInBounds_ne (Ne.symm ne)
    obtain ⟨same, size, untouched, landed⟩ := ih (f := f.replace pc j) (fun pc' member => by
      by_cases eq : pc' = pc
      · exact ⟨j, eq ▸ here, hop⟩
      · rw [other pc' eq]
        exact jumps pc' (.tail _ member)) rest
    rw [replace_pc] at size landed
    refine ⟨by rw [same]; rfl, size, fun pc' none => ?_, fun pc' member i' found' => ?_⟩
    · rw [untouched pc' fun member => none (.tail _ member),
        other pc' fun eq => none (eq ▸ List.mem_cons_self)]
    · by_cases eq : pc' = pc
      · subst eq
        cases found.symm.trans found'
        by_cases again : pc' ∈ pcs
        · obtain ⟨k, at', hop', ha', hsbx'⟩ := landed pc' again j here
          exact ⟨k, at', hop', by rw [ha', ha, lowerLevel_idem], hsbx'⟩
        · exact ⟨j, by rw [untouched pc' again, here], hop, ha, hsbx⟩
      · have member : pc' ∈ pcs := by
          rcases List.mem_cons.mp member with same | member
          · exact absurd same eq
          · exact member
        exact landed pc' member i' (by rw [other pc' eq, found'])

theorem endRecord_ok {record : Nat} (h : endRecord record f = .ok u f') :
    f' = { f with locals := f.locals.modify record fun v => { v with endPc := f.code.size } } := by
  unfold endRecord at h
  split at h
  · cases h
    rfl
  · cases h

theorem endLocal_ok (h : endLocal b f = .ok u f') : f.used = f'.used + 1 ∧
      f' = { f with
        used := f'.used
        locals := f.locals.modify b.record fun v => { v with endPc := f.code.size } } := by
  obtain ⟨_, g, freed, rest⟩ := bind_ok h
  obtain ⟨used, same⟩ := free_ok freed
  cases endRecord_ok rest
  refine ⟨used, ?_⟩
  rw [same]
  rfl

def endLocals (locals : Array LocalVar) (bindings : List Binding) (pc : Nat) : Array LocalVar :=
  bindings.foldl (fun locals b => locals.modify b.record fun v => { v with endPc := pc }) locals

theorem getElem?_endLocals (locals : Array LocalVar) (bindings : List Binding) (pc k : Nat) :
    (endLocals locals bindings pc)[k]? =
      (locals[k]?).map fun v => if ∃ b ∈ bindings, b.record = k then { v with endPc := pc } else v := by
  induction bindings generalizing locals with
  | nil => simp [endLocals]
  | cons b rest ih =>
    rw [endLocals, List.foldl_cons, ← endLocals, ih, Array.getElem?_modify]
    cases locals[k]? with
    | none => simp
    | some v =>
      by_cases here : b.record = k
      · by_cases again : ∃ c ∈ rest, c.record = k
        · simp [here, again]
        · simp [here, again]
      · simp [here]

theorem getElem?_endLocals_other {locals : Array LocalVar} {k : Nat} (none : ∀ b ∈ bindings, b.record ≠ k) :
    (endLocals locals bindings pc)[k]? = locals[k]? := by
  have absent : ¬∃ b ∈ bindings, b.record = k := fun ⟨b, member, same⟩ => none b member same
  simp only [getElem?_endLocals, if_neg absent]
  exact Option.map_id'

theorem endLocals_congr {leaving leaving' : List Binding} (same : ∀ b, b ∈ leaving ↔ b ∈ leaving')
    (locals : Array LocalVar) (pc : Nat) : endLocals locals leaving pc = endLocals locals leaving' pc := by
  apply Array.ext_getElem?
  intro k
  simp only [getElem?_endLocals, same]

theorem forM_endLocal_ok (h : bindings.forM endLocal f = .ok u f') : f.used = f'.used + bindings.length ∧
      f' = { f with used := f'.used, locals := endLocals f.locals bindings f.pc } := by
  induction bindings generalizing f with
  | nil =>
    cases h
    exact ⟨rfl, rfl⟩
  | cons b rest ih =>
    obtain ⟨_, g, first, others⟩ := bind_ok h
    obtain ⟨used, same⟩ := endLocal_ok first
    obtain ⟨used', same'⟩ := ih others
    refine ⟨by rw [List.length_cons]; omega, ?_⟩
    rw [same', same]
    rfl

theorem retire_ok (h : retire x f = .ok u f') : f.used = f'.used + (f.innermost x).length ∧
      f' = { f with
        used := f'.used
        live := f.live.filter fun b => (f.innermost x).all (·.record != b.record)
        locals := endLocals f.locals (f.innermost x) f.pc } := by
  have rest := bind_get_ok h
  obtain ⟨_, g, ended, rest⟩ := bind_ok rest
  obtain ⟨used, same⟩ := forM_endLocal_ok ended
  cases rest
  refine ⟨used, ?_⟩
  rw [same]

theorem innermost_eq (layered : Layered d size top f.live) (bound : ∃ b ∈ f.live, d ≤ b.depth ∧ b.name = x) :
    f.innermost x = f.live.filter fun b => d ≤ b.depth ∧ b.name = x := by
  rw [← chain_takeWhile layered x d]
  have chain : Layered d size top (f.chain x) := layered.ofSublist List.filter_sublist
  obtain ⟨b, member, deep, name⟩ := bound
  have mem : b ∈ f.chain x := List.mem_filter.mpr ⟨member, by simpa using name⟩
  unfold innermost
  cases shape : f.chain x with
  | nil =>
    rw [shape] at mem
    cases mem
  | cons newest older =>
    rw [shape] at mem chain
    have top : newest.depth = d := by
      apply Nat.le_antisymm (chain.inside newest (.head _)).1
      rcases List.mem_cons.mp mem with rfl | mem
      · exact deep
      · exact Nat.le_trans deep (chain.tail.inside b mem).1
    rw [List.takeWhile_cons_of_pos (by simp [top])]
    have agree : older.takeWhile (fun b => b.depth == newest.depth) = older.takeWhile fun b => d ≤ b.depth := by
      apply takeWhile_congr
      intro c member
      have least := (chain.inside c (.tail _ member)).1
      rw [Bool.eq_iff_iff]
      simp only [beq_iff_eq, decide_eq_true_eq, top]
      omega
    exact congrArg (newest :: ·) agree

theorem retire_bound (layered : Layered d size top f.live) (bound : ∃ b ∈ f.live, d ≤ b.depth ∧ b.name = x)
    (h : retire x f = .ok u f') : f.used + f'.live.length = f'.used + f.live.length ∧
      f' = { f with
        used := f'.used
        live := f.live.filter fun b => ¬(d ≤ b.depth ∧ b.name = x)
        locals := endLocals f.locals (f.live.filter fun b => d ≤ b.depth ∧ b.name = x) f.pc } := by
  obtain ⟨used, same⟩ := retire_ok h
  rw [innermost_eq layered bound] at used same
  have left : (f.live.filter fun b => (f.live.filter fun b => d ≤ b.depth ∧ b.name = x).all (·.record != b.record)) =
      f.live.filter fun b => ¬(d ≤ b.depth ∧ b.name = x) := by
    apply List.filter_congr
    intro b member
    rw [Bool.eq_iff_iff]
    simp only [List.all_eq_true, List.mem_filter, decide_eq_true_eq, bne_iff_ne]
    constructor
    · intro apart mine
      exact apart b ⟨member, mine⟩ rfl
    · rintro others c ⟨member', mine⟩ same
      exact others (layered.eq_of_record member' member same ▸ mine)
  rw [left] at same
  have live : f'.live = f.live.filter fun b => ¬(d ≤ b.depth ∧ b.name = x) := by rw [same]
  have total : f.live.length = (f.live.filter fun b => d ≤ b.depth ∧ b.name = x).length + f'.live.length := by
    rw [live, List.length_eq_length_filter_add fun b => decide (d ≤ b.depth ∧ b.name = x)]
    simp only [decide_not]
  exact ⟨by omega, same⟩

theorem forM_retire_ok {names : List String} (nodup : names.Nodup) (layered : Layered d size top f.live)
    (bound : ∀ x ∈ names, ∃ b ∈ f.live, d ≤ b.depth ∧ b.name = x) (h : names.forM retire f = .ok u f') :
    f.used + f'.live.length = f'.used + f.live.length ∧
      f' = { f with
        used := f'.used
        live := f.live.filter fun b => ¬(d ≤ b.depth ∧ b.name ∈ names)
        locals := endLocals f.locals (names.flatMap fun x => f.live.filter fun b => d ≤ b.depth ∧ b.name = x) f.pc } := by
  induction names generalizing f with
  | nil =>
    cases h
    refine ⟨rfl, ?_⟩
    simp [endLocals]
  | cons x names ih =>
    obtain ⟨_, g, first, rest⟩ := bind_ok h
    obtain ⟨used, same⟩ := retire_bound layered (bound x (.head _)) first
    have live : g.live = f.live.filter fun b => ¬(d ≤ b.depth ∧ b.name = x) := by rw [same]
    have absent : x ∉ names := (List.nodup_cons.mp nodup).1
    have still : ∀ y ∈ names, ∃ b ∈ g.live, d ≤ b.depth ∧ b.name = y := by
      intro y member
      obtain ⟨b, member', deep, name⟩ := bound y (.tail _ member)
      refine ⟨b, ?_, deep, name⟩
      rw [live]
      refine List.mem_filter.mpr ⟨member', ?_⟩
      simp only [decide_eq_true_eq, not_and]
      exact fun _ same => absent (same ▸ name ▸ member)
    have others : ∀ y ∈ names, (g.live.filter fun b => d ≤ b.depth ∧ b.name = y) =
        f.live.filter fun b => d ≤ b.depth ∧ b.name = y := by
      intro y member
      rw [live, List.filter_filter]
      apply List.filter_congr
      intro b _
      rw [Bool.eq_iff_iff]
      simp only [Bool.and_eq_true, decide_eq_true_eq]
      refine ⟨fun both => both.1, fun mine => ⟨mine, fun also => absent ?_⟩⟩
      rw [← also.2, mine.2]
      exact member
    have left : (g.live.filter fun b => ¬(d ≤ b.depth ∧ b.name ∈ names)) =
        f.live.filter fun b => ¬(d ≤ b.depth ∧ b.name ∈ x :: names) := by
      rw [live, List.filter_filter]
      apply List.filter_congr
      intro b _
      rw [Bool.eq_iff_iff]
      simp only [Bool.and_eq_true, decide_eq_true_eq, List.mem_cons]
      tauto
    obtain ⟨used', same'⟩ :=
      ih (List.nodup_cons.mp nodup).2 (live ▸ layered.ofSublist List.filter_sublist) still rest
    refine ⟨by omega, ?_⟩
    rw [left, List.flatMap_congr others] at same'
    rw [same', List.flatMap_cons, endLocals, endLocals, List.foldl_append, same]
    rfl

theorem exists_binding_of_mem {live : List Binding}
    (sorted : live.Pairwise fun newer older => older.depth ≤ newer.depth) (member : b ∈ live) :
    ∃ c, live.find? (·.name == b.name) = some c ∧ b.depth ≤ c.depth := by
  induction live with
  | nil => cases member
  | cons c rest ih =>
    by_cases same : c.name = b.name
    · refine ⟨c, List.find?_cons_of_pos (by simpa using same), ?_⟩
      rcases List.mem_cons.mp member with rfl | member
      · exact Nat.le.refl
      · exact List.rel_of_pairwise_cons sorted member
    · rw [List.find?_cons_of_neg (by simpa using same)]
      rcases List.mem_cons.mp member with rfl | member
      · exact absurd rfl same
      · exact ih sorted.of_cons member

def breaks (f : Frame) : List Nat := (f.scopes.head?.join.getD #[]).toList

theorem exists_of_mem_breaks (h : pc ∈ f.breaks) : ∃ pcs outer, f.scopes = some pcs :: outer ∧ pc ∈ pcs := by
  rw [breaks] at h
  cases scopes : f.scopes with
  | nil => simp [scopes] at h
  | cons top outer =>
    cases top with
    | none => simp [scopes] at h
    | some pcs => exact ⟨pcs, outer, rfl, by simpa [scopes] using h⟩

section Retiring

variable [NameOrder]

theorem mem_retiring (layered : Layered depth size top f.live) :
    x ∈ f.retiring ↔ ∃ b ∈ f.live, f.depth + 1 ≤ b.depth ∧ b.name = x := by
  rw [retiring, List.mem_filter, binding?]
  constructor
  · rintro ⟨_, deep⟩
    cases found : f.live.find? (·.name == x) with
    | none => simp [found] at deep
    | some b =>
      have name : b.name = x := by simpa using List.find?_some found
      have deep : f.depth < b.depth := by simpa [found] using deep
      exact ⟨b, List.mem_of_find?_eq_some found, deep, name⟩
  · rintro ⟨b, member, deep, rfl⟩
    obtain ⟨c, found, newer⟩ := exists_binding_of_mem layered.sorted member
    refine ⟨mem_walk.mpr ⟨b, member, rfl⟩, ?_⟩
    rw [found, Option.any_some, decide_eq_true_eq]
    omega

theorem forM_retiring_ok (layered : Layered (f.depth + 1) size top f.live) (h : f.retiring.forM retire f = .ok u f') :
    f.used + f'.live.length = f'.used + f.live.length ∧
      f' = { f with
        used := f'.used
        live := f.live.filter fun b => b.depth < f.depth + 1
        locals := endLocals f.locals (f.leaving (f.depth + 1)) f.pc } := by
  have nodup : f.retiring.Nodup := (nodup_walk f).filter _
  obtain ⟨used, same⟩ := forM_retire_ok nodup layered (fun x => (mem_retiring layered).mp) h
  have kept : (f.live.filter fun b => ¬(f.depth + 1 ≤ b.depth ∧ b.name ∈ f.retiring)) =
      f.live.filter fun b => b.depth < f.depth + 1 := by
    apply List.filter_congr
    intro b member
    rw [Bool.eq_iff_iff]
    simp only [decide_eq_true_eq, mem_retiring layered]
    refine ⟨fun none => ?_, fun shallow both => by omega⟩
    by_contra deep
    exact none ⟨by omega, b, member, by omega, rfl⟩
  have gone : ∀ b, b ∈ (f.retiring.flatMap fun x => f.live.filter fun b => f.depth + 1 ≤ b.depth ∧ b.name = x) ↔
      b ∈ f.leaving (f.depth + 1) := by
    intro b
    simp only [mem_leaving layered, List.mem_flatMap, List.mem_filter, mem_retiring layered, decide_eq_true_eq]
    constructor
    · rintro ⟨_, _, member, deep, _⟩
      exact ⟨member, deep⟩
    · rintro ⟨member, deep⟩
      exact ⟨b.name, ⟨b, member, deep, rfl⟩, member, deep, rfl⟩
  rw [kept, endLocals_congr gone] at same
  exact ⟨used, same⟩

theorem exitScope_eq (f : Frame) : exitScope f =
    (do f.breaks.forM (landBreak f.scopeLevel); (← get).retiring.forM retire : FrameM Unit)
      { f with scopes := f.scopes.tail } := by
  rw [← List.forM_toArray, breaks, Array.toArray_toList]
  rfl

theorem exitScope_steps (h : exitScope f = .ok u f') :
    ∃ g, f.breaks.forM (landBreak f.scopeLevel) { f with scopes := f.scopes.tail } = .ok () g ∧
      g.retiring.forM retire g = .ok u f' := by
  rw [exitScope_eq] at h
  obtain ⟨_, g, landed, rest⟩ := bind_ok h
  exact ⟨g, landed, rest⟩

abbrev outside (f : Frame) (used : Nat) (code : Array Instruction) : Frame :=
  { f with
    used
    scopes := f.scopes.tail
    live := f.live.filter fun b => b.depth < f.depth
    locals := endLocals f.locals (f.leaving f.depth) f.pc
    code }

theorem retiring_ends {g : Frame} (landed : g = { f with scopes := f.scopes.tail, code := g.code }) (here : g.pc = f.pc)
    (opened : 0 < f.depth) (layered : Layered f.depth size top f.live) (h : g.retiring.forM retire g = .ok u f') :
    f' = f.outside f'.used g.code ∧ f.used + f'.live.length = f'.used + f.live.length := by
  have below : g.depth + 1 = f.depth := by
    rw [landed]
    exact List.length_tail_add_one _ opened
  have live : g.live = f.live := by rw [landed]
  have same_used : g.used = f.used := by rw [landed]
  have layered' : Layered (g.depth + 1) size top g.live := by rwa [below, live]
  obtain ⟨used, ended⟩ := forM_retiring_ok layered' h
  have gone : ∀ b, b ∈ g.leaving f.depth ↔ b ∈ f.leaving f.depth := fun b => by
    rw [mem_leaving layered', mem_leaving layered, live]
  rw [below, endLocals_congr gone, live, here] at ended
  constructor
  · rw [ended, landed]
  · rw [← same_used, ← live]
    exact used

theorem exitScope_ends (opened : 0 < f.depth) (layered : Layered f.depth size top f.live)
    (h : exitScope f = .ok u f') :
    f' = f.outside f'.used f'.code ∧ f.used + f'.live.length = f'.used + f.live.length ∧ f'.pc = f.pc ∧
      ∃ g, f.breaks.forM (landBreak f.scopeLevel) { f with scopes := f.scopes.tail } = .ok () g ∧ f'.code = g.code := by
  obtain ⟨g, landing, retired⟩ := exitScope_steps h
  obtain ⟨same, size⟩ := forM_landBreak_code landing
  obtain ⟨ended, used⟩ := retiring_ends (f := f) same size opened layered retired
  have code : f'.code = g.code := by rw [ended]
  refine ⟨?_, used, ?_, g, landing, code⟩
  · rw [code]
    exact ended
  · rw [Frame.pc, code, ← Frame.pc, size]
    rfl

theorem exitScope_ok (opened : f.scopes ≠ []) (stack : Stack f.depth size f.live)
    (jumps : ∀ pc ∈ f.breaks, ∃ i, f.code[pc]? = some i ∧ i.opcode? = some .jmp) (h : exitScope f = .ok u f') :
    f' = f.outside f'.used f'.code ∧ f.used + f'.live.length = f'.used + f.live.length ∧ f'.pc = f.pc ∧
      (∀ pc, pc ∉ f.breaks → f'.code[pc]? = f.code[pc]?) ∧
      ∀ pc ∈ f.breaks, ∀ i, f.code[pc]? = some i → ∃ j, f'.code[pc]? = some j ∧ j.opcode? = some .jmp ∧
        j.a = lowerLevel i.a f.scopeLevel ∧ j.sbx = jumpOffset pc f.pc := by
  obtain ⟨ended, used, size, g, landing, code⟩ := exitScope_ends (List.length_pos_iff.mpr opened) stack.layered h
  obtain ⟨_, _, untouched, moved⟩ := landBreaks_ok (f := { f with scopes := f.scopes.tail }) jumps landing
  rw [← code] at untouched moved
  exact ⟨ended, used, size, untouched, moved⟩

end Retiring

end ExitScope

def withBreak (f : Frame) (pc : Nat) : Frame := { f with scopes := pushBreak pc f.scopes }

theorem addBreak_ok [NameOrder] {f f' : Frame} {u : Unit} (h : addBreak pc f = .ok u f') :
    0 < f.loopDepth ∧ ∃ i j, f.code[pc]? = some i ∧ i.setA (f.closeLevel f.loopDepth) = .ok j ∧
      f' = (f.replace pc j).withBreak pc := by
  replace h := bind_get_ok h
  cases inLoop : f.loopDepth with
  | zero =>
    simp only [inLoop] at h
    cases h
  | succ depth =>
    simp only [inLoop] at h
    obtain ⟨_, g, amended, h⟩ := bind_ok h
    obtain ⟨i, j, there, changed, rfl⟩ := amend_ok amended
    cases h
    exact ⟨Nat.succ_pos depth, i, j, there, changed, rfl⟩

end Frame

/-- Jumps of which `P` holds wait at the innermost loop, behind those that did before. -/
inductive AddsBreaks (P : Nat → Prop) : List (Option (Array Nat)) → List (Option (Array Nat)) → Prop
  | nil : AddsBreaks P [] []
  | block {rest rest' : List (Option (Array Nat))} : AddsBreaks P rest rest' → AddsBreaks P (none :: rest) (none :: rest')
  | loop {pcs new : Array Nat} {rest : List (Option (Array Nat))} : (∀ pc ∈ new, P pc) →
    AddsBreaks P (some pcs :: rest) (some (pcs ++ new) :: rest)

namespace AddsBreaks

variable {P Q : Nat → Prop} {pc : Nat} {pcs : Array Nat} {a b c : List (Option (Array Nat))}

theorem refl (a : List (Option (Array Nat))) : AddsBreaks P a a := by
  induction a with
  | nil => exact .nil
  | cons scope rest ih =>
    cases scope with
    | none => exact .block ih
    | some pcs =>
      have same : AddsBreaks P (some pcs :: rest) (some (pcs ++ #[]) :: rest) := .loop fun _ => (Array.not_mem_empty _).elim
      rwa [Array.append_empty] at same

theorem trans (first : AddsBreaks P a b) (second : AddsBreaks Q b c) (weaker : ∀ pc, Q pc → P pc) : AddsBreaks P a c := by
  induction first generalizing c with
  | nil => cases second; exact .nil
  | block _ ih =>
    cases second with
    | block rest => exact .block (ih rest)
  | loop new =>
    cases second with
    | loop new' =>
      rw [Array.append_assoc]
      exact .loop fun pc member => (Array.mem_append.mp member).elim (new pc) fun later => weaker pc (new' pc later)

theorem pushBreak (new : P pc) (a : List (Option (Array Nat))) : AddsBreaks P a (Frame.pushBreak pc a) := by
  induction a with
  | nil => exact .nil
  | cons scope rest ih =>
    cases scope with
    | none => exact .block ih
    | some pcs =>
      rw [Frame.pushBreak, Array.push_eq_append]
      exact .loop (by simpa using new)

theorem kinds (h : AddsBreaks P a b) : b.map (·.isSome) = a.map (·.isSome) := by
  induction h with
  | nil => rfl
  | block _ ih => rw [List.map_cons, List.map_cons, ih]
  | loop => rfl

theorem length_eq (h : AddsBreaks P a b) : b.length = a.length := by simpa using congrArg List.length h.kinds

theorem tail (h : AddsBreaks P a b) : AddsBreaks P a.tail b.tail := by
  cases h with
  | nil => exact .nil
  | block rest => exact rest
  | loop => exact .refl _

theorem member (h : AddsBreaks P a b) (scope : some pcs ∈ b) (member : pc ∈ pcs) :
    P pc ∨ ∃ pcs', some pcs' ∈ a ∧ pc ∈ pcs' := by
  induction h with
  | nil => cases scope
  | block _ ih =>
    rcases ih (by simpa using scope) with new | ⟨pcs', scope', member'⟩
    · exact .inl new
    · exact .inr ⟨pcs', .tail _ scope', member'⟩
  | loop new =>
    rcases List.mem_cons.mp scope with same | outer
    · cases same
      rcases Array.mem_append.mp member with old | added
      · exact .inr ⟨_, .head _, old⟩
      · exact .inl (new pc added)
    · exact .inr ⟨pcs, .tail _ outer, member⟩

theorem split (h : AddsBreaks P (a ++ b) c) : ∃ a' b', c = a' ++ b' ∧ AddsBreaks P a a' ∧ AddsBreaks P b b' := by
  induction a generalizing c with
  | nil => exact ⟨[], c, rfl, .nil, h⟩
  | cons scope a ih =>
    cases h with
    | block rest =>
      obtain ⟨a', b', rfl, left, right⟩ := ih rest
      exact ⟨none :: a', b', rfl, .block left, right⟩
    | loop new => exact ⟨_ :: a, b, rfl, .loop new, .refl b⟩

theorem ofBlock (h : AddsBreaks P (none :: a) b) : ∃ b', b = none :: b' ∧ AddsBreaks P a b' := by
  cases h with
  | block rest => exact ⟨_, rfl, rest⟩

theorem ofLoop (h : AddsBreaks P (some #[] :: a) b) : ∃ pcs, b = some pcs :: a ∧ ∀ pc ∈ pcs, P pc := by
  cases h with
  | loop new => exact ⟨_, rfl, by simpa using new⟩

theorem breaks {f g : Frame} (h : AddsBreaks P f.scopes g.scopes) (old : ∀ pc ∈ f.breaks, P pc) : ∀ pc ∈ g.breaks, P pc := by
  unfold Frame.breaks at *
  generalize f.scopes = a, g.scopes = b at h old
  cases h with
  | nil => exact old
  | block => exact old
  | loop new => simpa [or_imp, forall_and] using ⟨by simpa using old, new⟩

theorem prefixed (h : AddsBreaks P a b) :
    List.Forall₂ (Option.Rel fun pcs pcs' : Array Nat => pcs.toList <+: pcs'.toList) a b := by
  induction h with
  | nil => exact .nil
  | block _ ih => exact .cons .none ih
  | loop =>
    refine .cons (.some (by simp)) (List.forall₂_same.mpr fun scope _ => ?_)
    cases scope with
    | none => exact .none
    | some pcs => exact .some List.prefix_rfl

end AddsBreaks

theorem Frame.withBreak_depth (f : Frame) (pc : Nat) : (f.withBreak pc).depth = f.depth :=
  (AddsBreaks.pushBreak (P := fun _ => True) trivial _).length_eq

end LuaBytecode
