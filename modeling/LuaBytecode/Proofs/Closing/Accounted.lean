import LuaBytecode.Proofs.Closing.Exit

namespace LuaBytecode

open Lowering

variable {inner outer : List (Option (Array Nat))} {pcs : Array Nat}

namespace Frame

def Keeps (d : Nat) (f g : Frame) : Prop := ∀ b ∈ f.live, b.depth ≤ d → ∃ b' ∈ g.live, b.Marked b'

namespace Keeps

variable {d : Nat} {f g h : Frame}

theorem refl (d : Nat) (f : Frame) : Keeps d f f := fun b member _ => ⟨b, member, .refl b⟩

theorem trans (first : Keeps d f g) (second : Keeps d g h) : Keeps d f h := by
  intro b member shallow
  obtain ⟨b', member', marked⟩ := first b member shallow
  obtain ⟨b'', member'', marked'⟩ := second b' member' (marked.depth ▸ shallow)
  exact ⟨b'', member'', marked.trans marked'⟩

theorem ofReaches {D : FunctionDef → Prop} (reaches : f.Reaches D g) : Keeps d f g := by
  intro b member _
  obtain ⟨new, old, whole, marks, _⟩ := reaches.live
  obtain ⟨b', member', marked⟩ := marks.forward member
  exact ⟨b', by rw [whole]; exact List.mem_append_right _ member', marked⟩

end Keeps

theorem Sound.spares {g : Frame} {size d : Nat} {e : Exit} (sound : g.Sound) (stack : Stack g.depth size g.live)
    (keeps : Keeps e.depth e.frame g) (shallow : e.depth ≤ d) (closes : g.closeLevel d ≠ 0) :
    e.Spares (g.closeLevel d) := by
  obtain ⟨c, leaves, deep, visible, level⟩ := exists_closeLevel stack sound.visible sound.room closes
  intro b member stays
  have shallow' : b.depth ≤ e.depth := by omega
  obtain ⟨b', member', marked⟩ := keeps b member shallow'
  rw [level, Nat.add_sub_cancel, ← marked.register]
  by_contra above
  -- A binding that is not older than `c` lies at least as deep, so it must be one of the loop's own.
  have ordered : c.depth ≤ b'.depth := by
    by_contra outside
    have below := (stack.register_lt_outer_iff c.depth member').mpr (Nat.not_le.mp outside)
    have := mt (stack.register_lt_outer_iff c.depth leaves).mp (Nat.lt_irrefl _)
    omega
  rw [marked.depth] at ordered
  rcases stays with outer | ⟨same, hidden⟩
  · omega
  · rw [← marked.name] at hidden
    have different : c.register ≠ b'.register := by
      intro equal
      rw [stack.eq_of_register leaves member' equal, hidden] at visible
      cases visible
    have := sound.hidden b' member' hidden c leaves (by rw [marked.depth]; omega) (by omega)
    rw [visible] at this
    cases this

/-- What the exits so far say about a frame. A jump from `lo` on that closes something is at an exit, and a jump out of
    a loop that is still open stays one. -/
structure Accounted (X : Exit → Prop) (lo : Nat) (g : Frame) : Prop where
  exits : ∀ e, X e → e.frame.pc ≤ g.pc ∧ e.Closes g.code g.functions.toList
  jumps : ∀ (pc : Nat) (j : Instruction), lo ≤ pc → g.code[pc]? = some j → j.opcode? = some .jmp → j.a ≠ 0 →
    ∃ e, X e ∧ e.frame.pc = pc ∧ e.Spares j.a
  pending : ∀ inner pcs outer, g.scopes = inner ++ some pcs :: outer → ∀ pc ∈ pcs, lo ≤ pc →
    ∃ e, X e ∧ e.frame.pc = pc ∧ e.depth ≤ outer.length + 1 ∧ Keeps e.depth e.frame g ∧
      ∀ j, g.code[pc]? = some j → j.a ≠ 0 → e.Spares j.a

end Frame

theorem Exit.Closes.mono {e : Exit} {code code' : Array Instruction} {functions functions' : List Prototype}
    (h : e.Closes code functions)
    (made : ∀ pc r, pc < e.frame.pc → Captures code' functions' pc r → Captures code functions pc r)
    (kept : ∀ j, code[e.frame.pc]? = some j → j.opcode? = some .jmp → j.a ≠ 0 →
      ∃ j', code'[e.frame.pc]? = some j' ∧ j'.opcode? = some .jmp ∧ j'.a ≠ 0 ∧ j'.a ≤ j.a) :
    e.Closes code' functions' := by
  rintro b ⟨member, deep, pc, earlier, captures, started⟩
  obtain ⟨j, there, jump, closes, level⟩ := h b ⟨member, deep, pc, earlier, made pc _ earlier captures, started⟩
  obtain ⟨j', there', jump', closes', lower⟩ := kept j there jump closes
  exact ⟨j', there', jump', closes', by omega⟩

theorem AddsBreaks.earlier {P : Nat → Prop} {scopes : List (Option (Array Nat))} {pc : Nat} (member : pc ∈ pcs)
    (old : ¬P pc) (h : AddsBreaks P scopes (inner ++ some pcs :: outer)) :
    ∃ inner' pcs' outer', scopes = inner' ++ some pcs' :: outer' ∧ outer'.length = outer.length ∧ pc ∈ pcs' := by
  induction inner generalizing scopes with
  | nil =>
    cases h with
    | loop new => exact ⟨[], _, outer, rfl, rfl, (Array.mem_append.mp member).resolve_right fun late => old (new pc late)⟩
  | cons top inner ih =>
    cases h with
    | block rest =>
      obtain ⟨inner', pcs', outer', rfl, facts⟩ := ih rest
      exact ⟨none :: inner', pcs', outer', rfl, facts⟩
    | loop => exact ⟨_ :: inner, pcs, outer, rfl, rfl, member⟩

theorem Frame.Reaches.pending_earlier {D : FunctionDef → Prop} {f g : Frame} (reaches : f.Reaches D g)
    (scopes : g.scopes = inner ++ some pcs :: outer) {pc : Nat} (member : pc ∈ pcs) (early : pc < f.pc) :
    ∃ inner' pcs' outer', f.scopes = inner' ++ some pcs' :: outer' ∧ outer'.length = outer.length ∧ pc ∈ pcs' := by
  obtain ⟨new, old, whole, pending, late⟩ := reaches.scopes
  have kept : ∃ between, old = between ++ some pcs :: outer := by
    rcases List.append_eq_append_iff.mp (whole.symm.trans scopes) with ⟨between, _, same⟩ | ⟨between, extra, same⟩
    · exact ⟨between, same⟩
    · cases between with
      | nil => exact ⟨[], same.symm⟩
      | cons top more =>
        rw [List.cons_append, List.cons.injEq] at same
        have := late pcs (by simp [extra, ← same.1]) pc member
        omega
  obtain ⟨between, rfl⟩ := kept
  exact pending.earlier member (Nat.not_le.mpr early)

namespace Frame.Accounted

variable {D : FunctionDef → Prop} {X X' : Exit → Prop} {lo : Nat} {f g h : Frame}

theorem congr (a : Accounted X lo f) (same : ∀ e, X e ↔ X' e) : Accounted X' lo f := by
  rwa [show X' = X from funext fun e => propext (same e).symm]

theorem reached (a : Accounted X lo f) (sound : f.Sound) (reaches : f.Reaches D g) (new : Accounted X' f.pc g) :
    Accounted (fun e => X e ∨ X' e) lo g where
  exits e exit := by
    rcases exit with old | exit
    · obtain ⟨before, closes⟩ := a.exits e old
      refine ⟨Nat.le_trans before reaches.pc_le, closes.mono (fun pc r earlier captures => ?_) fun j there jump level => ?_⟩
      · exact captures.earlier (Nat.lt_of_lt_of_le earlier before) reaches.code
          (fun i there closure => by simpa using sound.closures pc i there closure) reaches.functions
      · refine ⟨j, ?_, jump, level, Nat.le.refl⟩
        rw [getElem?_of_prefixed reaches.code (lt_of_getElem? there), there]
    · exact new.exits e exit
  jumps pc j above there jump level := by
    by_cases inside : pc < f.pc
    · rw [getElem?_of_prefixed reaches.code inside] at there
      obtain ⟨e, exit, spares⟩ := a.jumps pc j above there jump level
      exact ⟨e, .inl exit, spares⟩
    · obtain ⟨e, exit, spares⟩ := new.jumps pc j (Nat.not_lt.mp inside) there jump level
      exact ⟨e, .inr exit, spares⟩
  pending inner pcs outer scopes pc member above := by
    by_cases inside : pc < f.pc
    · obtain ⟨inner', pcs', outer', scopes', size, member'⟩ := reaches.pending_earlier scopes member inside
      obtain ⟨e, exit, here, shallow, keeps, spares⟩ := a.pending inner' pcs' outer' scopes' pc member' above
      refine ⟨e, .inl exit, here, by omega, keeps.trans (.ofReaches reaches), fun j there => spares j ?_⟩
      rwa [getElem?_of_prefixed reaches.code inside] at there
    · obtain ⟨e, exit, spares⟩ := new.pending inner pcs outer scopes pc member (Nat.not_lt.mp inside)
      exact ⟨e, .inr exit, spares⟩

theorem pending_lt (sound : f.Sound) (scopes : f.scopes = inner ++ some pcs :: outer) {pc : Nat} (member : pc ∈ pcs) :
    pc < f.pc := by
  obtain ⟨i, there, _⟩ := sound.breaks pcs (by simp [scopes]) pc member
  exact lt_of_getElem? there

theorem steady {Γ Γ' : Scopes} {s t : Lowering} (sound : Lowering.Sound Γ s) (steady : Steady D Γ' s t) :
    Accounted (fun _ => False) s.frame.pc t.frame where
  exits _ exit := exit.elim
  jumps pc j above there jump level := absurd (steady.jumps pc j above there jump) level
  pending inner pcs outer scopes pc member above := by
    rw [steady.scopes] at scopes
    exact absurd (pending_lt sound.frame scopes member) (Nat.not_lt.mpr above)

theorem entered (a : Accounted X lo f) (isLoop : Bool) : Accounted X lo (f.enter isLoop) where
  exits := a.exits
  jumps := a.jumps
  pending inner pcs outer scopes pc member above := by
    cases inner with
    | nil =>
      cases isLoop with
      | false =>
        rw [List.nil_append] at scopes
        cases scopes
      | true =>
        rw [List.nil_append] at scopes
        cases scopes
        exact absurd member (Array.not_mem_empty pc)
    | cons top inner =>
      exact a.pending inner pcs outer (List.cons.inj scopes).2 pc member above

theorem replaced (a : Accounted X lo f) {pc : Nat} {i j : Instruction} (there : f.code[pc]? = some i)
    (plain : i.opcode? ≠ some .closure) (kind : j.opcode? = i.opcode?) (same : j.a = i.a) :
    Accounted X lo (f.replace pc j) := by
  have inside : pc < f.code.size := lt_of_getElem? there
  have before : ∀ {q : Nat} {k : Instruction}, (f.replace pc j).code[q]? = some k →
      ∃ k', f.code[q]? = some k' ∧ k'.opcode? = k.opcode? ∧ k'.a = k.a := by
    intro q k found
    by_cases here : pc = q
    · subst here
      rw [Frame.replace_self inside] at found
      cases found
      exact ⟨i, there, kind.symm, same.symm⟩
    · rw [Frame.replace_other here] at found
      exact ⟨k, found, rfl, rfl⟩
  refine ⟨fun e exit => ?_, fun q k above found jump level => ?_, fun inner pcs outer scopes q member above => ?_⟩
  · obtain ⟨early, closes⟩ := a.exits e exit
    refine ⟨by simpa using early, closes.mono ?_ fun k found jump level => ?_⟩
    · rintro q r _ ⟨k, child, u, found, closure, rest⟩
      by_cases here : pc = q
      · subst here
        rw [Frame.replace_self inside] at found
        cases found
        exact absurd (kind.symm.trans closure) plain
      · rw [Frame.replace_other here] at found
        exact ⟨k, child, u, found, closure, rest⟩
    · by_cases here : pc = e.frame.pc
      · subst here
        cases there.symm.trans found
        exact ⟨j, Frame.replace_self inside, kind.trans jump, by rwa [same], Nat.le_of_eq same⟩
      · exact ⟨k, (Frame.replace_other here).trans found, jump, level, Nat.le.refl⟩
  · obtain ⟨k', found', kind', same'⟩ := before found
    rw [← same'] at level ⊢
    exact a.jumps q k' above found' (kind'.trans jump) level
  · obtain ⟨e, exit, here, shallow, keeps, spares⟩ := a.pending inner pcs outer scopes q member above
    refine ⟨e, exit, here, shallow, keeps, fun k found level => ?_⟩
    obtain ⟨k', found', _, same'⟩ := before found
    rw [← same'] at level ⊢
    exact spares k' found' level

end Frame.Accounted

section Leaving

variable {D : FunctionDef → Prop} {X : Exit → Prop} {lo d : Nat} {f g h : Frame} {j : Instruction}

theorem Exit.closes_of_level (sound : f.Sound) (stack : Stack f.depth f.locals.size f.live)
    (made : ∀ pc r, pc < f.pc → Captures g.code g.functions.toList pc r → Captures f.code f.functions.toList pc r)
    (jump : f.closeLevel d ≠ 0 → ∃ j, g.code[f.pc]? = some j ∧ j.opcode? = some .jmp ∧ j.a = f.closeLevel d) :
    Exit.Closes ⟨f, d⟩ g.code g.functions.toList := by
  rintro b ⟨member, deep, pc, earlier, captures, started⟩
  have captured := sound.captured pc _ (made pc _ earlier captures) b member rfl fun v there => by
    obtain early | ⟨late, _⟩ := started v there _ (Array.getElem?_eq_getElem earlier)
    · exact Nat.le_succ_of_le early
    · exact Nat.le_of_eq late
  have closes : f.closeLevel d ≠ 0 := by
    intro none
    have free := (Frame.closeLevel_eq_zero_iff stack).mp none b member deep
    rw [captured] at free
    cases free
  obtain ⟨j, there, jump, level⟩ := jump closes
  have low := Frame.closeLevel_le stack member deep (sound.visible b member captured)
  exact ⟨j, there, jump, by rwa [level], by rw [level]; exact Nat.sub_le_of_le_add low⟩

namespace Frame.Accounted

theorem leaves (sound : f.Sound) (stack : Stack f.depth f.locals.size f.live) (jump : j.opcode? = some .jmp)
    (level : j.a = f.closeLevel d) : Accounted (· = ⟨f, d⟩) f.pc (f.push j) where
  exits := by
    rintro e rfl
    refine ⟨by simp, Exit.closes_of_level sound stack (fun pc r earlier captures => ?_) fun _ => ?_⟩
    · exact captures.earlier earlier (by simp) (fun i there closure => by simpa using sound.closures pc i there closure)
        List.prefix_rfl
    · exact ⟨j, Frame.push_last, jump, level⟩
  jumps pc i above there _ closes := by
    obtain ⟨rfl, rfl⟩ := Frame.push_above above there
    rw [level] at closes ⊢
    exact ⟨_, rfl, rfl, sound.spares stack (.refl _ _) Nat.le.refl closes⟩
  pending inner pcs outer scopes pc member above := absurd (pending_lt sound scopes member) (Nat.not_lt.mpr above)

theorem passes (sound : f.Sound) (stack : Stack f.depth f.locals.size f.live) (level : f.scopeLevel = 0) :
    Accounted (· = .ofScope f) f.pc f where
  exits := by
    rintro e rfl
    exact ⟨Nat.le.refl, Exit.closes_of_level sound stack (fun _ _ _ captures => captures) fun closes => absurd level closes⟩
  jumps pc i above there _ _ := nomatch (Array.getElem?_eq_none above).symm.trans there
  pending inner pcs outer scopes pc member above := absurd (pending_lt sound scopes member) (Nat.not_lt.mpr above)

theorem pushBreak_append {pc x : Nat} {scopes : List (Option (Array Nat))}
    (whole : pushBreak pc scopes = inner ++ some pcs :: outer) (member : x ∈ pcs) :
    (∃ inner' pcs', scopes = inner' ++ some pcs' :: outer ∧ x ∈ pcs') ∨
      x = pc ∧ (scopes.dropWhile (·.isNone)).length = outer.length + 1 := by
  induction scopes generalizing inner with
  | nil => simp [pushBreak] at whole
  | cons scope rest ih =>
    cases scope with
    | none =>
      cases inner with
      | nil => cases whole
      | cons top inner =>
        rcases ih (List.cons.inj whole).2 with ⟨inner', pcs', rfl, member'⟩ | size
        · exact .inl ⟨none :: inner', pcs', rfl, member'⟩
        · exact .inr size
    | some pending =>
      cases inner with
      | nil =>
        cases whole
        rcases Array.mem_push.mp member with old | rfl
        · exact .inl ⟨[], pending, rfl, old⟩
        · exact .inr ⟨rfl, rfl⟩
      | cons top inner => exact .inl ⟨some pending :: inner, pcs, congrArg _ (List.cons.inj whole).2, member⟩

theorem broke (sound : f.Sound) (stack : Stack f.depth f.locals.size f.live) (jump : j.opcode? = some .jmp)
    (level : j.a = f.closeLevel f.loopDepth) : Accounted (· = .ofLoop f) f.pc ((f.push j).withBreak f.pc) := by
  have left : Accounted (· = .ofLoop f) f.pc (f.push j) := leaves sound stack jump level
  refine ⟨left.exits, left.jumps, fun inner pcs outer scopes pc member above => ?_⟩
  rcases pushBreak_append scopes member with ⟨inner', pcs', scopes', member'⟩ | ⟨rfl, size⟩
  · exact absurd (pending_lt sound scopes' member') (Nat.not_lt.mpr above)
  · refine ⟨.ofLoop f, rfl, rfl, Nat.le_of_eq size, .refl _ _, fun i there closes => ?_⟩
    cases Frame.push_last.symm.trans there
    rw [level] at closes ⊢
    exact sound.spares stack (.refl _ _) Nat.le.refl closes

end Frame.Accounted

theorem Frame.lowerLevel_le {a : Nat} (closes : a ≠ 0) (level : Nat) :
    lowerLevel a level ≠ 0 ∧ lowerLevel a level ≤ a := by
  cases a with
  | zero => exact absurd rfl closes
  | succ a =>
    cases level with
    | zero => exact ⟨Nat.succ_ne_zero a, Nat.le.refl⟩
    | succ level =>
      simp only [lowerLevel]
      omega

theorem Exit.Spares.lowered {e : Exit} (sound : g.Sound) (stack : Stack g.depth g.locals.size g.live)
    (keeps : Frame.Keeps e.depth e.frame g) (shallow : e.depth ≤ g.depth) {a : Nat} (spares : a ≠ 0 → e.Spares a)
    (closes : Frame.lowerLevel a g.scopeLevel ≠ 0) : e.Spares (Frame.lowerLevel a g.scopeLevel) := by
  have level : g.scopeLevel ≠ 0 → e.Spares g.scopeLevel := sound.spares stack keeps shallow
  revert level closes
  generalize g.scopeLevel = level
  intro closes lands
  cases a with
  | zero => exact lands closes
  | succ a =>
    cases level with
    | zero => exact spares closes
    | succ level => exact (spares (Nat.succ_ne_zero a)).min (lands (Nat.succ_ne_zero level))

theorem Frame.exitScope_code (sound : g.Sound) (stack : Stack g.depth g.locals.size g.live) (opened : g.scopes ≠ [])
    {u : Unit} (exit : exitScope g = .ok u h) {pc : Nat} {k : Instruction} (there : h.code[pc]? = some k) :
    ∃ i, g.code[pc]? = some i ∧ i.opcode? = k.opcode? ∧
      (k = i ∨ i.opcode? = some .jmp ∧ k.a = lowerLevel i.a g.scopeLevel) := by
  obtain ⟨_, _, _, untouched, landed⟩ := exitScope_ok opened stack sound.jumps_of_breaks exit
  by_cases lands : pc ∈ g.breaks
  · obtain ⟨i, there', jump⟩ := sound.jumps_of_breaks pc lands
    obtain ⟨k', there'', jump', level, _⟩ := landed pc lands i there'
    cases there.symm.trans there''
    exact ⟨i, there', jump.trans jump'.symm, .inr ⟨jump, level⟩⟩
  · exact ⟨k, (untouched pc lands).symm.trans there, rfl, .inl rfl⟩

theorem Frame.Accounted.left (a : Frame.Accounted X lo g) (sound : g.Sound) (stack : Stack g.depth g.locals.size g.live)
    (opened : g.scopes ≠ []) {u : Unit} (exit : Frame.exitScope g = .ok u h) : Frame.Accounted X lo h := by
  obtain ⟨same, _, size, untouched, landed⟩ := Frame.exitScope_ok opened stack sound.jumps_of_breaks exit
  have functions : h.functions = g.functions := by rw [same]
  have depth : h.depth + 1 = g.depth := by
    rw [same]
    exact List.length_tail_add_one _ (List.length_pos_iff.mpr opened)
  -- The level that an exit had is only lowered by what closes nothing that stays after it.
  have spares : ∀ {e : Exit} {pc : Nat}, Frame.Keeps e.depth e.frame g → e.depth ≤ g.depth →
      (∀ i, g.code[pc]? = some i → i.a ≠ 0 → e.Spares i.a) → ∀ k, h.code[pc]? = some k → k.a ≠ 0 → e.Spares k.a := by
    intro e pc keeps shallow old k there closes
    obtain ⟨i, there', _, rfl | ⟨_, level⟩⟩ := Frame.exitScope_code sound stack opened exit there
    · exact old k there' closes
    · rw [level] at closes ⊢
      exact .lowered sound stack keeps shallow (old i there') closes
  refine ⟨fun e leaves => ?_, fun pc k above there jump closes => ?_, fun inner pcs outer scopes pc member above => ?_⟩
  · obtain ⟨early, closes⟩ := a.exits e leaves
    refine ⟨by omega, closes.mono ?_ fun i there jump level => ?_⟩
    · rintro pc r _ ⟨k, child, v, there, closure, rest⟩
      obtain ⟨i, there', kind, rfl | ⟨jump, _⟩⟩ := Frame.exitScope_code sound stack opened exit there
      · exact ⟨k, child, v, there', closure, by rwa [functions] at rest⟩
      · cases (jump.symm.trans kind).trans closure
    · by_cases lands : e.frame.pc ∈ g.breaks
      · obtain ⟨k, there', jump', lowered, _⟩ := landed _ lands i there
        have lower := Frame.lowerLevel_le level g.scopeLevel
        exact ⟨k, there', jump', by rw [lowered]; exact lower.1, by rw [lowered]; exact lower.2⟩
      · exact ⟨i, (untouched _ lands).trans there, jump, level, Nat.le.refl⟩
  · by_cases lands : pc ∈ g.breaks
    · obtain ⟨pcs, outer, scopes, member⟩ := Frame.exists_of_mem_breaks lands
      obtain ⟨e, leaves, here, shallow, keeps, old⟩ := a.pending [] pcs outer scopes pc member above
      have shallow' : e.depth ≤ g.depth := by rwa [Frame.depth, scopes, List.length_cons]
      exact ⟨e, leaves, here, spares keeps shallow' old k there closes⟩
    · rw [untouched pc lands] at there
      exact a.jumps pc k above there jump closes
  · have around : g.scopes = (g.scopes.head opened :: inner) ++ some pcs :: outer := by
      rw [List.cons_append, ← scopes, same]
      exact (List.cons_head_tail opened).symm
    obtain ⟨e, leaves, here, shallow, keeps, old⟩ := a.pending _ pcs outer around pc member above
    have outside : outer.length + 1 ≤ h.depth := by
      rw [Frame.depth, scopes]
      simp
    refine ⟨e, leaves, here, shallow, fun b member' deep => ?_, spares keeps (by omega) old⟩
    obtain ⟨b', member'', marked⟩ := keeps b member' deep
    refine ⟨b', ?_, marked⟩
    rw [same, List.mem_filter, decide_eq_true_eq, marked.depth]
    exact ⟨member'', by omega⟩

end Leaving

end LuaBytecode
