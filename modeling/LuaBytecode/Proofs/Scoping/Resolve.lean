import LuaBytecode.Proofs.Ast.Shape
import LuaBytecode.Proofs.Machine.Emission
import LuaBytecode.Proofs.Scoping.Basic

namespace LuaBytecode

variable {x : String} {enclosing' : List Frame} {u : Upvalue} {s' : Lowering} {enclosing : List Frame} {outer : Scopes}
  {f : Frame} {i : Nat} {names : List String}

theorem IsIdentifier.visible (h : IsIdentifier x) : Frame.isHidden x = false := by
  obtain ⟨b, rest, start, _, rfl, _⟩ := h
  have front : (ofAscii (b :: rest)).front = Char.ofNat b.toNat := by
    rw [String.front_eq, String.front?_eq, ofAscii, String.toList_ofList]
    rfl
  have other : b.toNat ≠ 40 := by
    intro same
    have : b = 40 := UInt8.toNat_inj.mp same
    subst this
    revert start
    decide
  rw [Frame.isHidden, front, beq_eq_false_iff_ne]
  intro same
  have small : b.toNat.isValidChar := .inl (by have := b.toNat_lt; omega)
  have value := congrArg Char.toNat same
  rw [Char.ofNat, dif_pos small] at value
  exact other value

/-- An upvalue of a function refers to the variable that its name means in the functions around. If that belongs to the
    nearest of them, it is marked there. -/
structure Upvalue.Agrees (outer : Scopes) (enclosing : List Frame) (u : Upvalue) : Prop where
  origin : ∃ out r, outer.lookup u.name = some (out, r) ∧ u.origin enclosing = some (out + 1, r)
  captured : u.inStack = true → ∀ parent ∈ enclosing.head?,
    ∃ b ∈ parent.live, b.name = u.name ∧ b.register = u.index ∧ b.captured = true

def Scopes.Agrees : Scopes → List Frame → Prop
  | [], [] => True
  | names :: outer, f :: enclosing =>
    f.live.map (·.name) = names ∧ Stack f.depth f.locals.size f.live ∧ f.scopes ≠ [] ∧
      (∀ u ∈ f.upvalues, u.Agrees outer enclosing) ∧ Agrees outer enclosing
  | _, _ => False

namespace Scopes

theorem register?_eq {depth size : Nat} {live : List Binding} (stack : Stack depth size live) (x : String) :
    (live.find? (·.name == x)).map (·.register) = register? (live.map (·.name)) x := by
  induction live with
  | nil => rfl
  | cons b rest ih =>
    rw [List.map_cons, register?]
    by_cases same : b.name = x
    · rw [List.find?_cons_of_pos (by simpa using same), if_pos same, List.length_map, ← stack.2.2.1]
      rfl
    · rw [List.find?_cons_of_neg (by simpa using same), if_neg same]
      exact ih stack.tail

theorem register?_of_agrees (h : Agrees (names :: outer) (f :: enclosing)) (x : String) :
    f.register? x = register? names x := by
  rw [← h.1, ← register?_eq h.2.1]
  rfl

end Scopes

theorem Upvalue.origin_mono (h : List.Forall₂ Frame.Refers enclosing enclosing') {v : Nat × Nat}
    (found : u.origin enclosing = some v) : u.origin enclosing' = some v := by
  induction h generalizing u v with
  | nil => cases found
  | @cons parent parent' outer outer' head _ ih =>
    unfold origin at found ⊢
    split
    · rename_i inStack
      rwa [if_pos inStack] at found
    · rename_i passed
      rw [if_neg passed] at found
      obtain ⟨w, bound, rfl⟩ := Option.map_eq_some_iff.mp found
      obtain ⟨next, there, inner⟩ := Option.bind_eq_some_iff.mp bound
      have inside := lt_of_getElem? there
      rw [getElem?_of_prefixed head.upvalues inside, there, Option.bind_some, ih inner]
      rfl

theorem Upvalue.Agrees.mono (h : u.Agrees outer enclosing) (later : List.Forall₂ Frame.Refers enclosing enclosing') :
    u.Agrees outer enclosing' := by
  obtain ⟨out, r, lookup, origin⟩ := h.origin
  refine ⟨⟨out, r, lookup, u.origin_mono later origin⟩, fun inStack parent' head' => ?_⟩
  cases later with
  | nil => cases head'
  | cons head _ =>
    cases head'
    obtain ⟨b, member, name, register, captured⟩ := h.captured inStack _ rfl
    obtain ⟨b', member', marked⟩ := head.live.forward member
    exact ⟨b', member', marked.name.trans name, marked.register.trans register, marked.captured captured⟩

namespace Scopes.Agrees

variable {names : List String} {outer : Scopes} {f f' : Frame} {enclosing : List Frame}

variable (h : Agrees (names :: outer) (f :: enclosing))

include h

theorem marked (live : MarkedAll f.live f'.live) (depth : f'.depth = f.depth) (locals : f'.locals = f.locals)
    (upvalues : f'.upvalues = f.upvalues) : Agrees (names :: outer) (f' :: enclosing) := by
  obtain ⟨same, stack, opened, ups, rest⟩ := h
  refine ⟨live.names.trans same, ?_, ?_, upvalues ▸ ups, rest⟩
  · rw [depth, locals]
    exact live.stack stack
  · intro none
    have empty : f'.depth = 0 := by rw [Frame.depth, none, List.length_nil]
    exact opened (List.eq_nil_of_length_eq_zero (depth.symm.trans empty))

theorem addUpvalue (new : u.Agrees outer enclosing) :
    Agrees (names :: outer) ({ f with upvalues := f.upvalues.push u } :: enclosing) := by
  obtain ⟨same, stack, opened, ups, rest⟩ := h
  refine ⟨same, stack, opened, fun v member => ?_, rest⟩
  rcases Array.mem_push.mp member with old | rfl
  · exact ups v old
  · exact new

theorem referred (later : List.Forall₂ Frame.Refers enclosing enclosing') (rest : Agrees outer enclosing') :
    Agrees (names :: outer) (f :: enclosing') :=
  ⟨h.1, h.2.1, h.2.2.1, fun u member => (h.2.2.2.1 u member).mono later, rest⟩

theorem upvalue (member : u ∈ f.upvalues) : u.Agrees outer enclosing := h.2.2.2.1 u member

end Scopes.Agrees

theorem Frame.markCaptured_captured {live : List Binding} {b : Binding} (found : live.find? (·.name == x) = some b) :
    ∃ b' ∈ markCaptured x live, b'.name = x ∧ b'.register = b.register ∧ b'.captured = true := by
  induction live with
  | nil => cases found
  | cons c rest ih =>
    unfold markCaptured
    by_cases same : c.name = x
    · rw [List.find?_cons_of_pos (by simpa using same)] at found
      cases found
      rw [if_pos (by simpa using same)]
      exact ⟨_, .head _, same, rfl, rfl⟩
    · rw [List.find?_cons_of_neg (by simpa using same)] at found
      rw [if_neg (by simpa using same)]
      obtain ⟨b', member, facts⟩ := ih found
      exact ⟨b', .tail _ member, facts⟩

theorem Frame.upvalueIndex?_some (h : f.upvalueIndex? x = some i) : ∃ u, f.upvalues[i]? = some u ∧ u.name = x := by
  obtain ⟨inside, named, _⟩ := Array.findIdx?_eq_some_iff_getElem.mp h
  exact ⟨f.upvalues[i], Array.getElem?_eq_getElem inside, by simpa using named⟩

/-- What looking for an upvalue does: it may add descriptions and marks, and what it finds has the name. -/
structure Lowering.Finds (Γ : Scopes) (x : String) (f : Frame) (enclosing : List Frame) (i? : Option Nat)
    (s' : Lowering) : Prop where
  agrees : Γ.Agrees (s'.frame :: s'.enclosing)
  same : s'.frame = { f with upvalues := s'.frame.upvalues }
  upvalues : f.upvalues.toList <+: s'.frame.upvalues.toList
  enclosing : List.Forall₂ Frame.Refers enclosing s'.enclosing
  absent : i? = none → Scopes.lookup Γ.tail x = none
  found : ∀ i, i? = some i → ∃ u, s'.frame.upvalues[i]? = some u ∧ u.name = x

theorem Lowering.Finds.known (h : Scopes.Agrees (names :: outer) (f :: enclosing))
    (known : f.upvalueIndex? x = some i) : Finds (names :: outer) x f enclosing (some i) ⟨f, enclosing⟩ where
  agrees := h
  same := rfl
  upvalues := List.prefix_rfl
  enclosing := List.forall₂_same.mpr fun f _ => .refl f
  absent := nofun
  found := fun j same => by
    cases same
    exact Frame.upvalueIndex?_some known

theorem Lowering.Finds.new {inStack : Bool} {index : Nat} {i? : Option Nat}
    (h : Scopes.Agrees (names :: outer) (f :: enclosing)) (fresh : f.upvalueIndex? x = none)
    (later : List.Forall₂ Frame.Refers enclosing enclosing') (rest : outer.Agrees enclosing')
    (agrees : Upvalue.Agrees outer enclosing' ⟨x, inStack, index⟩)
    (run : (some <$> step (Frame.addUpvalue x inStack index)) ⟨f, enclosing'⟩ = .ok i? s') :
    Finds (names :: outer) x f enclosing i? s' := by
  obtain ⟨i, added, rfl⟩ := map_ok run
  obtain ⟨g, add, rfl⟩ := lift_ok added
  obtain ⟨rfl, rfl⟩ := Frame.addUpvalue_ok fresh add
  refine ⟨(h.referred later rest).addUpvalue agrees, rfl, by simp, later, nofun, fun i same => ?_⟩
  cases same
  exact ⟨⟨x, inStack, index⟩, by simp, rfl⟩

theorem Lowering.findUpvalue_ok (visible : Frame.isHidden x = false)
    (h : Scopes.Agrees (names :: outer) (f :: enclosing)) {i? : Option Nat}
    (run : findUpvalue x enclosing f = .ok i? s') : Finds (names :: outer) x f enclosing i? s' := by
  induction enclosing generalizing names outer f i? s' with
  | nil =>
    unfold findUpvalue at run
    cases run
    cases outer with
    | cons _ _ => exact absurd h.2.2.2.2 (by simp [Scopes.Agrees])
    | nil =>
      exact ⟨h, rfl, List.prefix_rfl, .nil, fun _ => rfl, fun i found => Frame.upvalueIndex?_some found⟩
  | cons parent rest ih =>
    cases outer with
    | nil => exact absurd h.2.2.2.2 (by simp [Scopes.Agrees])
    | cons above outer =>
      have around : Scopes.Agrees (above :: outer) (parent :: rest) := h.2.2.2.2
      have local? := Scopes.register?_of_agrees around x
      unfold findUpvalue at run
      split at run
      · rename_i i known
        cases run
        exact .known h known
      rename_i fresh
      split at run
      · -- a local variable of the nearest function
        rename_i r bound
        rw [bound] at local?
        obtain ⟨b, first, register⟩ := Option.map_eq_some_iff.mp bound
        have marks := MarkedAll.ofMarkCaptured visible parent.live
        have refers : Frame.Refers parent { parent with live := Frame.markCaptured x parent.live } :=
          ⟨rfl, marks, List.prefix_rfl⟩
        refine .new h fresh (.cons refers (List.forall₂_same.mpr fun f _ => .refl f))
          (around.marked refers.live rfl rfl rfl) ⟨⟨0, r, ?_, ?_⟩, fun _ parent' head => ?_⟩ run
        · simp only [Scopes.lookup, ← local?]
        · simp only [Upvalue.origin, if_true]
        · cases head
          obtain ⟨b', member, name, same, captured⟩ := Frame.markCaptured_captured first
          exact ⟨b', member, name, same.trans register, captured⟩
      · rename_i unbound
        rw [unbound] at local?
        split at run
        · -- an upvalue of the nearest function
          rename_i i parent' rest' found
          obtain ⟨agrees, same, upvalues, later, _, named⟩ := ih around found
          obtain ⟨u, at', name⟩ := named i rfl
          obtain ⟨out, r, lookup, origin⟩ := (agrees.upvalue (Array.mem_of_getElem? at')).origin
          rw [name] at lookup
          have refers : Frame.Refers parent parent' := by
            simp only at same upvalues
            exact ⟨by rw [same], by rw [same]; exact .refl _, upvalues⟩
          have new : Upvalue.Agrees (above :: outer) (parent' :: rest') ⟨x, false, i⟩ :=
            ⟨⟨out + 1, r, ?_, ?_⟩, nofun⟩
          · exact .new h fresh (.cons refers later) agrees new run
          · simp only [Scopes.lookup, ← local?, lookup, Option.map_some]
          · simp only [Upvalue.origin, Bool.false_eq_true, if_false, at', Option.bind_some, origin, Option.map_some]
        · rename_i parent' rest' missing
          cases run
          obtain ⟨agrees, same, upvalues, later, absent, _⟩ := ih around missing
          have refers : Frame.Refers parent parent' := by
            simp only at same upvalues
            exact ⟨by rw [same], by rw [same]; exact .refl _, upvalues⟩
          refine ⟨h.referred (.cons refers later) agrees, rfl, List.prefix_rfl, .cons refers later, fun _ => ?_,
            fun i absurd => (nomatch absurd)⟩
          have none : Scopes.lookup outer x = none := absent rfl
          simp only [List.tail_cons, Scopes.lookup, ← local?, none, Option.map_none]
        · cases run

def Place.origin (s : Lowering) : Place → Option (Nat × Nat)
  | .register r => some (0, r)
  | .upvalue i => (s.frame.upvalues[i]?).bind (Upvalue.origin s.enclosing)

namespace Lowering

abbrev Ready (Γ : Scopes) (s : Lowering) : Prop := Γ.Agrees (s.frame :: s.enclosing)

theorem Ready.exists_cons {Γ : Scopes} {s : Lowering} (h : Ready Γ s) : ∃ names outer, Γ = names :: outer := by
  cases Γ with
  | nil => exact absurd h (by simp [Ready, Scopes.Agrees])
  | cons names outer => exact ⟨names, outer, rfl⟩

/-- What resolving a name does: the place that it finds holds the variable that the name means. -/
structure Resolves (Γ : Scopes) (x : String) (s : Lowering) (place? : Option Place) (s' : Lowering) : Prop where
  ready : Ready Γ s'
  same : s'.frame = { s.frame with upvalues := s'.frame.upvalues }
  upvalues : s.frame.upvalues.toList <+: s'.frame.upvalues.toList
  enclosing : List.Forall₂ Frame.Refers s.enclosing s'.enclosing
  place : place?.map (Place.origin s') = (Γ.lookup x).map some

theorem resolve_ok {Γ : Scopes} (visible : Frame.isHidden x = false) {s : Lowering} (ready : Ready Γ s)
    {place? : Option Place} (run : resolve x s = .ok place? s') : Resolves Γ x s place? s' := by
  obtain ⟨frame, enclosing⟩ := s
  obtain ⟨names, outer, rfl⟩ := ready.exists_cons
  have local? := Scopes.register?_of_agrees ready x
  replace run := bind_get_ok run
  cases bound : frame.register? x with
  | some r =>
    simp only [bound] at run
    obtain ⟨rfl, rfl⟩ := pure_ok run
    rw [bound] at local?
    refine ⟨ready, rfl, List.prefix_rfl, List.forall₂_same.mpr fun f _ => .refl f, ?_⟩
    simp only [Scopes.lookup, ← local?, Option.map_some, Place.origin]
  | none =>
    simp only [bound] at run
    obtain ⟨i?, looked, rfl⟩ := bind_pure_ok run
    rw [bound] at local?
    obtain ⟨agrees, same, upvalues, later, absent, found⟩ := findUpvalue_ok visible ready looked
    refine ⟨agrees, same, upvalues, later, ?_⟩
    simp only [Scopes.lookup, ← local?]
    cases i? with
    | none =>
      have unbound : Scopes.lookup outer x = none := absent rfl
      rw [unbound]
      rfl
    | some i =>
      obtain ⟨u, there, named⟩ := found i rfl
      have outside := Scopes.Agrees.upvalue agrees (Array.mem_of_getElem? there)
      obtain ⟨out, r, lookup, origin⟩ := outside.origin
      rw [named] at lookup
      simp only [lookup, Option.map_some, Place.origin, there, Option.bind_some, origin]

end Lowering

end LuaBytecode
