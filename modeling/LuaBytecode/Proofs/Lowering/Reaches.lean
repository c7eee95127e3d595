import LuaBytecode.Proofs.Lowering.Sound

namespace LuaBytecode

variable {lo pc : Nat} {isLoop : Bool}

theorem forall₂_split {α β : Type} {R : α → β → Prop} {a b : List α} {c : List β} (h : List.Forall₂ R (a ++ b) c) :
    ∃ a' b', c = a' ++ b' ∧ List.Forall₂ R a a' ∧ List.Forall₂ R b b' := by
  induction a generalizing c with
  | nil => exact ⟨[], c, rfl, .nil, h⟩
  | cons x a ih =>
    cases h with
    | cons head tail =>
      obtain ⟨a', b', rfl, left, right⟩ := ih tail
      exact ⟨_ :: a', b', rfl, .cons head left, right⟩

/-- How a frame can come from an earlier one while statements are lowered: scopes may have been opened, and what is
    there stays, apart from marks and jumps that are still to be landed. -/
structure Frame.Reaches (D : FunctionDef → Prop) (f f' : Frame) : Prop extends Collects f f' where
  params : f'.params = f.params
  isVararg : f'.isVararg = f.isVararg
  peak : f.peak ≤ f'.peak
  scopes : ∃ inner outer, f'.scopes = inner ++ outer ∧ AddsBreaks (f.pc ≤ ·) f.scopes outer ∧
    ∀ pcs, some pcs ∈ inner → ∀ pc ∈ pcs, f.pc ≤ pc
  live : ∃ new old, f'.live = new ++ old ∧ MarkedAll f.live old ∧ ∀ b ∈ new, f.depth ≤ b.depth
  locals : ∀ (k : Nat) (v : LocalVar), f.locals[k]? = some v → ∃ v', f'.locals[k]? = some v' ∧ v'.startPc = v.startPc
  code : f.code.toList <+: f'.code.toList
  prototypes : ∀ p ∈ f'.functions, p ∈ f.functions ∨ p.Lowered D

namespace Frame.Reaches

variable {D : FunctionDef → Prop} {f g h : Frame}

theorem pc_le (r : Reaches D f g) : f.pc ≤ g.pc := by
  simpa [Frame.pc] using r.code.length_le

theorem depth_le (r : Reaches D f g) : f.depth ≤ g.depth := by
  obtain ⟨inner, outer, whole, pending, _⟩ := r.scopes
  rw [depth, depth, whole, List.length_append, pending.length_eq]
  omega

theorem locals_size_le (r : Reaches D f g) : f.locals.size ≤ g.locals.size := by
  by_contra fewer
  have inside : g.locals.size < f.locals.size := Nat.not_le.mp fewer
  obtain ⟨v, found, _⟩ := r.locals g.locals.size _ (Array.getElem?_eq_getElem inside)
  have := lt_of_getElem? found
  omega

theorem ofExtends (e : f.Extends D g) : Reaches D f g where
  toCollects := e.toCollects
  params := by rw [e.same]
  isVararg := by rw [e.same]
  peak := e.peak
  scopes := ⟨[], f.scopes, by rw [e.same]; rfl, .refl _, nofun⟩
  live := ⟨[], g.live, rfl, e.marked, nofun⟩
  locals k v found := ⟨v, by rw [e.same]; exact found, rfl⟩
  code := e.code
  prototypes := e.prototypes

theorem refl (f : Frame) : Reaches D f f := ofExtends (.refl f)

theorem trans (first : Reaches D f g) (second : Reaches D g h) : Reaches D f h where
  toCollects := first.toCollects.trans second.toCollects
  params := second.params.trans first.params
  isVararg := second.isVararg.trans first.isVararg
  peak := Nat.le_trans first.peak second.peak
  scopes := by
    obtain ⟨inner, outer, whole, pending, new⟩ := first.scopes
    obtain ⟨inner', outer', whole', pending', new'⟩ := second.scopes
    rw [whole] at pending'
    obtain ⟨middle, last, rfl, opened, kept⟩ := pending'.split
    refine ⟨inner' ++ middle, last, by rw [whole', List.append_assoc],
      pending.trans kept fun _ => Nat.le_trans first.pc_le, ?_⟩
    intro pcs member pc there
    rcases List.mem_append.mp member with inside | between
    · exact Nat.le_trans first.pc_le (new' pcs inside pc there)
    · rcases opened.member between there with added | ⟨pcs', member', old⟩
      · exact Nat.le_trans first.pc_le added
      · exact new pcs' member' pc old
  live := by
    obtain ⟨new, old, whole, marked, deep⟩ := first.live
    obtain ⟨new', old', whole', marked', deep'⟩ := second.live
    rw [whole] at marked'
    obtain ⟨middle, last, rfl, between, kept⟩ := forall₂_split marked'
    refine ⟨new' ++ middle, last, by rw [whole', List.append_assoc], marked.trans kept, fun b member => ?_⟩
    rcases List.mem_append.mp member with inside | between'
    · exact Nat.le_trans first.depth_le (deep' b inside)
    · obtain ⟨c, member', mark⟩ := exists_of_forall₂_right between between'
      rw [mark.depth]
      exact deep c member'
  locals k v found := by
    obtain ⟨v', found', start⟩ := first.locals k v found
    obtain ⟨v'', found'', start'⟩ := second.locals k v' found'
    exact ⟨v'', found'', start'.trans start⟩
  code := first.code.trans second.code
  prototypes p member := by
    rcases second.prototypes p member with old | new
    · exact first.prototypes p old
    · exact .inr new

theorem ofLocal {name : String} {startPc : Nat} : Reaches D f (f.withLocal name startPc) :=
  { refl (D := D) f with
    peak := Nat.le_max_left ..
    live := ⟨[_], f.live, rfl, .refl _, fun b member => by
      rw [List.mem_singleton] at member
      subst member
      exact Nat.le.refl⟩
    locals := fun k v found => ⟨v, by
      rw [← found]
      exact getElem?_of_prefixed (by simp [withLocal]) (lt_of_getElem? found), rfl⟩ }

theorem recoded (r : Reaches D f g) {code : Array Instruction} (kept : f.code.toList <+: code.toList) :
    Reaches D f { g with code := code } :=
  { r with code := kept }

theorem pushed (r : Reaches D f g) (i : Instruction) : Reaches D f (g.push i) :=
  r.recoded (r.code.trans (by simp))

theorem replaced (r : Reaches D f g) (later : f.pc ≤ pc) (i : Instruction) : Reaches D f (g.replace pc i) :=
  r.recoded (prefixed_set r.code later i)

theorem broke (r : Reaches D f g) (later : f.pc ≤ pc) : Reaches D f (g.withBreak pc) := by
  refine { r with scopes := ?_ }
  obtain ⟨inner, outer, whole, pending, new⟩ := r.scopes
  have pushes := AddsBreaks.pushBreak (P := (f.pc ≤ ·)) later g.scopes
  rw [whole] at pushes
  obtain ⟨inner', outer', whole', inside, outside⟩ := pushes.split
  refine ⟨inner', outer', by rw [← whole', withBreak, whole], pending.trans outside fun _ => id, ?_⟩
  intro pcs member x there
  rcases inside.member member there with added | ⟨pcs', member', old⟩
  · exact added
  · exact new pcs' member' x old

variable (r : Reaches D (f.enter isLoop) g)

include r

theorem opened (level : g.depth = f.depth + 1) :
    ∃ top rest, g.scopes = top :: rest ∧ AddsBreaks (f.pc ≤ ·) f.scopes rest ∧ ∀ pc ∈ g.breaks, f.pc ≤ pc := by
  obtain ⟨inner, outer, whole, pending, _⟩ := r.scopes
  have count := congrArg List.length whole
  have same := pending.length_eq
  simp only [depth] at level
  simp only [List.length_append, enter, List.length_cons] at count same
  have none : inner = [] := List.eq_nil_of_length_eq_zero (by omega)
  rw [none, List.nil_append] at whole
  rw [breaks, whole]
  cases isLoop with
  | false =>
    obtain ⟨rest, rfl, adds⟩ := pending.ofBlock
    exact ⟨_, rest, rfl, adds, by simp⟩
  | true =>
    obtain ⟨pcs, rfl, new⟩ := pending.ofLoop
    exact ⟨_, f.scopes, rfl, .refl _, by simpa using new⟩

theorem outer_live (level : g.depth = f.depth + 1) (stack : Stack f.depth f.locals.size f.live) :
    MarkedAll f.live (g.live.filter fun b => b.depth < g.depth) := by
  obtain ⟨new, old, whole, marked, deep⟩ := r.live
  have gone : new.filter (fun b => b.depth < g.depth) = [] := by
    rw [List.filter_eq_nil_iff]
    intro b member
    have : f.depth + 1 ≤ b.depth := deep b member
    simp only [decide_eq_true_eq]
    omega
  have kept : old.filter (fun b => b.depth < g.depth) = old := by
    rw [List.filter_eq_self]
    intro b member
    obtain ⟨c, member', mark⟩ := marked.backward member
    have := stack.depth_le member'
    simp only [mark.depth, decide_eq_true_eq]
    omega
  rw [whole, List.filter_append, gone, kept, List.nil_append]
  exact marked

theorem left (level : g.depth = f.depth + 1) (stack : Stack f.depth f.locals.size f.live) (sound : g.Sound)
    (stack' : Stack g.depth g.locals.size g.live) {u : Unit} (exit : exitScope g = .ok u h) :
    Reaches D f h ∧ h.depth = f.depth ∧ MarkedAll f.live h.live := by
  obtain ⟨top, rest, whole, pending, above⟩ := r.opened level
  have some : g.scopes ≠ [] := by
    rw [whole]
    exact List.cons_ne_nil _ _
  obtain ⟨same, _, _, untouched, _⟩ := exitScope_ok some stack' sound.jumps_of_breaks exit
  have scopes : h.scopes = rest := by rw [same, outside, whole, List.tail_cons]
  have live : MarkedAll f.live h.live := by
    rw [same]
    exact r.outer_live level stack
  have code : f.code.toList <+: h.code.toList := by
    rw [List.prefix_iff_getElem?]
    intro pc inside
    rw [Array.length_toList] at inside
    have early : pc ∉ g.breaks := fun there => Nat.not_lt.mpr (above pc there) inside
    rw [Array.getElem?_toList, untouched pc early, getElem?_of_prefixed r.code inside, enter_code,
      Array.getElem?_eq_getElem inside, Array.getElem_toList]
  refine ⟨⟨?_, ?_, ?_, ?_, ⟨[], rest, scopes, pending, nofun⟩, ⟨[], h.live, rfl, live, nofun⟩, ?_, code, ?_⟩, ?_, live⟩
  · rw [same]
    exact ⟨r.constants, r.upvalues, r.functions⟩
  · rw [same]
    exact r.params
  · rw [same]
    exact r.isVararg
  · rw [same]
    exact r.peak
  · intro k v found
    obtain ⟨v', found', start⟩ := r.locals k v found
    obtain ⟨v'', found'', start'⟩ := endLocals_startPc (g.leaving g.depth) g.pc found'
    refine ⟨v'', ?_, start'.trans start⟩
    rw [same]
    exact found''
  · rw [same]
    exact r.prototypes
  · rw [depth, scopes, depth, pending.length_eq]

end Frame.Reaches

end LuaBytecode
