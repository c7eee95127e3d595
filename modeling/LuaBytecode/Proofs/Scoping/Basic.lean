import LuaBytecode.Proofs.Frame.Locals

namespace LuaBytecode

/-- The names of the local variables in scope, for the current function and those around it, innermost first. Newer
    names come first, and a variable has as its register the number of those older than it. -/
abbrev Scopes := List (List String)

namespace Scopes

def register? : List String → String → Option Nat
  | [], _ => none
  | y :: older, x => if y = x then some older.length else register? older x

/-- The variable that a name means: how many functions out it belongs, and its register there. -/
def lookup : Scopes → String → Option (Nat × Nat)
  | [], _ => none
  | names :: outer, x =>
    match register? names x with
    | some r => some (0, r)
    | none => (lookup outer x).map fun (out, r) => (out + 1, r)

end Scopes

/-- The variable that an upvalue of a function refers to, if its descriptions are followed through the functions
    around. -/
def Upvalue.origin : List Frame → Upvalue → Option (Nat × Nat)
  | [], _ => none
  | parent :: outer, u =>
    if u.inStack then some (1, u.index)
    else ((parent.upvalues[u.index]?).bind (origin outer)).map fun (out, r) => (out + 1, r)

/-- The same binding, to which a nested function may refer now if it has a name of the program. -/
def Binding.Marked (b b' : Binding) : Prop :=
  b' = b ∨ Frame.isHidden b.name = false ∧ b' = { b with captured := true }

namespace Binding.Marked

variable {b b' b'' : Binding}

theorem refl (b : Binding) : Marked b b := .inl rfl

theorem trans (first : Marked b b') (second : Marked b' b'') : Marked b b'' := by
  rcases first with rfl | ⟨visible, rfl⟩
  · exact second
  · rcases second with rfl | ⟨_, rfl⟩
    · exact .inr ⟨visible, rfl⟩
    · exact .inr ⟨visible, rfl⟩

variable (h : Marked b b')

include h

theorem remains : b.Remains b' := h.imp_right And.right

theorem name : b'.name = b.name := h.remains.name

theorem depth : b'.depth = b.depth := h.remains.depth

theorem register : b'.register = b.register := h.remains.register

theorem captured (captured : b.captured = true) : b'.captured = true := by
  rcases h with rfl | ⟨_, rfl⟩
  · exact captured
  · rfl

end Binding.Marked

abbrev MarkedAll : List Binding → List Binding → Prop := List.Forall₂ Binding.Marked

namespace MarkedAll

variable {live live' : List Binding}

theorem refl (live : List Binding) : MarkedAll live live := List.forall₂_same.mpr fun b _ => .refl b

theorem trans {live'' : List Binding} (first : MarkedAll live live') (second : MarkedAll live' live'') :
    MarkedAll live live'' :=
  forall₂_trans first second fun _ _ _ => Binding.Marked.trans

section

variable (h : MarkedAll live live')

include h

theorem names : live'.map (·.name) = live.map (·.name) := by
  induction h with
  | nil => rfl
  | cons head _ ih => rw [List.map_cons, List.map_cons, head.name, ih]

theorem remain : RemainAll live live' := h.imp fun _ _ => Binding.Marked.remains

theorem stack {depth size : Nat} (stack : Stack depth size live) : Stack depth size live' :=
  h.remain.stack stack

theorem forward {b : Binding} (member : b ∈ live) : ∃ b' ∈ live', b.Marked b' :=
  exists_of_forall₂_left h member

theorem backward {b' : Binding} (member : b' ∈ live') : ∃ b ∈ live, b.Marked b' :=
  exists_of_forall₂_right h member

end

theorem ofMarkCaptured {x : String} (visible : Frame.isHidden x = false) (live : List Binding) :
    MarkedAll live (Frame.markCaptured x live) := by
  induction live with
  | nil => exact .nil
  | cons b rest ih =>
    unfold Frame.markCaptured
    split
    · rename_i same
      rw [← beq_iff_eq.mp same] at visible
      exact .cons (.inr ⟨visible, rfl⟩) (MarkedAll.refl rest)
    · exact .cons (.refl b) ih

end MarkedAll

structure Frame.Refers (f f' : Frame) : Prop where
  same : f' = { f with live := f'.live, upvalues := f'.upvalues }
  live : MarkedAll f.live f'.live
  upvalues : f.upvalues.toList <+: f'.upvalues.toList

namespace Frame.Refers

variable {f g h : Frame}

theorem refl (f : Frame) : Refers f f := ⟨rfl, .refl _, List.prefix_rfl⟩

theorem trans (first : Refers f g) (second : Refers g h) : Refers f h := by
  refine ⟨?_, first.live.trans second.live, first.upvalues.trans second.upvalues⟩
  rw [second.same, first.same]

end Frame.Refers

end LuaBytecode
