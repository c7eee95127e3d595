import LuaBytecode.Proofs.Ast.Shape
import LuaBytecode.Proofs.Expression.Execution
import Mathlib.Data.List.Forall2

namespace LuaBytecode

open Lowering

variable {s s' : Lowering} {f : Frame} {r : Nat} {u : Unit}

def Operators.concatAll {V : Type} (ops : Operators V) : V → List V → V
  | v, [] => v
  | v, w :: more => ops.concat v (concatAll ops w more)

section

variable {V : Type} (ops : Operators V) (vars : String → V) (live : List Binding)

/-- An emitter computes a value into the register in use that comes last, where the variables lie below. -/
def Evaluates (emit : Nat → Int → LowerM Unit) (v : V) : Prop :=
  ∀ ⦃a u s s'⦄, emit a 1 s = .ok u s' → s.frame.live = live → s.frame.used = a + 1 → (∀ b ∈ live, b.register < a) →
    s.Appends s' ∧ s'.frame.used = a + 1 ∧ a ≤ 255 ∧ s.frame.Executes ops vars s'.frame a fun _ R => R a = v

structure ExpCode.Computes (c : ExpCode) (v : V) : Prop where
  emit : Evaluates ops vars live c.emit v
  literal : ∀ k, c.exp.literal? = some k → ops.constant k = v
  register? : ∀ s, s.frame.live = live →
    ∃ r?, c.register? s = .ok r? s ∧ ∀ r, r? = some r → ∃ x, s.frame.register? x = some r ∧ vars x = v
  place? : ∀ s, s.frame.live = live → ∃ r? : Option Nat, c.place? s = .ok (r?.map .register) s ∧
    ∀ r, r? = some r → ∃ x, s.frame.register? x = some r ∧ vars x = v
  operands : ∃ w ws, List.Forall₂ (Evaluates ops vars live) c.operands (w :: ws) ∧ ops.concatAll w ws = v ∧
    (c.exp.isConcat = false → ws = [])

end

theorem Frame.register?_lt {x : String} {limit : Nat} (found : f.register? x = some r)
    (below : ∀ b ∈ f.live, b.register < limit) : r < limit := by
  obtain ⟨b, first, rfl⟩ := Option.map_eq_some_iff.mp found
  exact below b (List.mem_of_find?_eq_some first)

theorem scratch_ok {α : Type} {m : LowerM α} {a : α} (h : scratch m s = .ok a s') :
    ∃ t, m s = .ok a t ∧ s' = t.withUsed s.frame.used := by
  have rest := bind_used_ok h
  obtain ⟨b, t, inner, rest⟩ := bind_ok rest
  obtain ⟨_, f, run, done⟩ := bind_lift_ok rest
  obtain ⟨rfl, rfl⟩ := pure_ok done
  rw [Frame.setUsed_ok run]
  exact ⟨t, inner, rfl⟩

theorem freeN_lower {n : Nat} (h : (Frame.freeN n : LowerM Unit) s = .ok u s') :
    ∃ used, s.frame.used = used + n ∧ s' = s.withUsed used := by
  obtain ⟨f, free, rfl⟩ := lift_ok h
  obtain ⟨less, same⟩ := Frame.freeN_ok free
  exact ⟨f.used, less, by rw [withUsed, ← same]⟩

theorem Evaluates.inNewRegister {V : Type} {ops : Operators V} {vars : String → V} {live : List Binding}
    {emit : Nat → Int → LowerM Unit} {v : V} (h : Evaluates ops vars live emit v) (hlive : s.frame.live = live)
    (below : ∀ b ∈ live, b.register < s.frame.used) (taken : Frame.alloc s.frame = .ok r f)
    (run : emit r 1 ⟨f, s.enclosing⟩ = .ok u s') :
    s.Appends s' ∧ r = s.frame.used ∧ s'.frame.used = s.frame.used + 1 ∧ r < 254 ∧
      s.frame.Executes ops vars s'.frame s.frame.used fun _ R => R r = v := by
  obtain ⟨rfl, room, rfl⟩ := Frame.alloc_ok taken
  obtain ⟨appends, used, _, exec⟩ := h run hlive rfl below
  refine ⟨⟨Frame.Appends.ofUsed.trans appends.frame, appends.enclosing⟩, rfl, used, ?_, exec⟩
  unfold Frame.registerLimit at room
  omega

namespace ExpCode.Computes

variable {V : Type} {ops : Operators V} {vars : String → V} {live : List Binding} {c : ExpCode} {v : V}
  {s s' : Lowering}

theorem toNewRegister (h : Evaluates ops vars live c.emit v) (hlive : s.frame.live = live)
    (below : ∀ b ∈ live, b.register < s.frame.used) (run : c.toNewRegister s = .ok r s') :
    s.Appends s' ∧ r = s.frame.used ∧ s'.frame.used = s.frame.used + 1 ∧ r < 254 ∧
      s.frame.Executes ops vars s'.frame s.frame.used fun _ R => R r = v := by
  obtain ⟨_, f, alloc, rest⟩ := bind_lift_ok run
  obtain ⟨_, emit, rfl⟩ := bind_pure_ok rest
  exact h.inNewRegister hlive below alloc emit

variable (h : c.Computes ops vars live v)

include h

theorem toRegister (hlive : s.frame.live = live) (below : ∀ b ∈ live, b.register < s.frame.used)
    (run : c.toRegister s = .ok r s') :
    s.Appends s' ∧ s.frame.used ≤ s'.frame.used ∧ r < s'.frame.used ∧ (r < 254 ∨ ∃ b ∈ live, b.register = r) ∧
      s.frame.Executes ops vars s'.frame s.frame.used fun _ R => R r = v := by
  obtain ⟨r?, same, held⟩ := h.register? s hlive
  obtain ⟨_, t, got, rest⟩ := bind_ok run
  rw [same] at got
  cases got
  cases r? with
  | some r₀ =>
    obtain ⟨rfl, rfl⟩ := pure_ok rest
    obtain ⟨x, found, value⟩ := held _ rfl
    have inside := Frame.register?_lt found (by rwa [hlive])
    obtain ⟨b, first, register⟩ := Option.map_eq_some_iff.mp found
    have member : b ∈ live := hlive ▸ List.mem_of_find?_eq_some first
    refine ⟨.refl _, Nat.le.refl, inside, .inr ⟨b, member, register⟩, ?_⟩
    exact .nothing rfl fun p _ registers holds => (holds x _ found).trans value
  | none =>
    obtain ⟨appends, rfl, used, small, exec⟩ := toNewRegister h.emit hlive below rest
    exact ⟨appends, by omega, by omega, .inl small, exec⟩

theorem constantRk? {o? : Option Nat} (run : c.constantRk? s = .ok o? s') :
    s.Appends s' ∧ s'.frame.used = s.frame.used ∧ s'.frame.pc = s.frame.pc ∧
      ∀ o, o? = some o → isRkConstant o = true ∧
        ∀ p : Program, p.Includes s'.frame s.frame.pc s.frame.pc → ∀ R, Machine.operand ops p.constants R o = some v := by
  unfold ExpCode.constantRk? at run
  cases literal : c.exp.literal? with
  | none =>
    simp only [literal] at run
    obtain ⟨rfl, rfl⟩ := pure_ok run
    exact ⟨.refl _, rfl, rfl, fun o chosen => nomatch chosen⟩
  | some k =>
    simp only [literal] at run
    obtain ⟨index, f, insert, rest⟩ := bind_lift_ok run
    obtain ⟨found, before, same⟩ := Frame.constantIndex_ok insert
    obtain ⟨rfl, rfl⟩ := pure_ok rest
    have code : f.code = s.frame.code := by rw [same]
    have appends : s.frame.Appends f := by
      refine ⟨?_, code ▸ List.prefix_rfl, before⟩
      rw [same]
    refine ⟨⟨appends, rfl⟩, by rw [same], by rw [Frame.pc, code, Frame.pc], fun o chosen => ?_⟩
    split at chosen
    · rename_i fits
      cases chosen
      refine ⟨isRkConstant_rkConstant index, fun p includes R => ?_⟩
      rw [operand_constant fits (includes.constant found), h.literal k literal]
    · cases chosen

theorem toRk {o : Nat} (hlive : s.frame.live = live) (below : ∀ b ∈ live, b.register < s.frame.used)
    (run : c.toRk s = .ok o s') :
    s.Appends s' ∧ s.frame.used ≤ s'.frame.used ∧ (isRkConstant o = false → o < s'.frame.used) ∧
      s.frame.Executes ops vars s'.frame s.frame.used fun constants R =>
        Machine.operand ops constants R o = some v := by
  obtain ⟨o?, t, constant, rest⟩ := bind_ok run
  obtain ⟨before, used, pc, read⟩ := h.constantRk? constant
  cases o? with
  | some o₀ =>
    obtain ⟨rfl, rfl⟩ := pure_ok rest
    obtain ⟨isConstant, value⟩ := read _ rfl
    refine ⟨before, by omega, fun register => absurd isConstant (by simp [register]), ?_⟩
    exact .nothing pc fun p includes registers _ => value p includes registers
  | none =>
    have hlive' : t.frame.live = live := before.frame.live.trans hlive
    obtain ⟨after, more, inside, place, exec⟩ := h.toRegister hlive' (by rwa [used]) rest
    refine ⟨before.trans after, by omega, fun _ => inside, ?_⟩
    have start : s.frame.Executes ops vars t.frame s.frame.used fun _ _ => True := .nothing pc fun _ _ _ _ => trivial
    refine .ofSmall fun small => ?_
    have fits : o < 256 := by
      rcases place with new | ⟨b, member, rfl⟩
      · omega
      · exact small b (hlive ▸ member)
    refine start.andThen exec before.frame after.frame (by rwa [hlive]) (by omega) ?_
    intro constants R R' _ _ value
    rw [operand_register fits, value]

theorem toTable {place : Place} (hlive : s.frame.live = live) (below : ∀ b ∈ live, b.register < s.frame.used)
    (run : c.toTable s = .ok place s') :
    ∃ r, place = .register r ∧ s.Appends s' ∧ s.frame.used ≤ s'.frame.used ∧ r < s'.frame.used ∧
      s.frame.Executes ops vars s'.frame s.frame.used fun _ R => R r = v := by
  obtain ⟨r?, same, held⟩ := h.place? s hlive
  obtain ⟨_, t, got, rest⟩ := bind_ok run
  rw [same] at got
  cases got
  cases r? with
  | some r₀ =>
    obtain ⟨rfl, rfl⟩ := pure_ok rest
    obtain ⟨x, found, value⟩ := held _ rfl
    refine ⟨r₀, rfl, .refl _, Nat.le.refl, Frame.register?_lt found (by rwa [hlive]), ?_⟩
    exact .nothing rfl fun p _ registers holds => (holds x _ found).trans value
  | none =>
    obtain ⟨r, inner, rfl⟩ := bind_pure_ok rest
    obtain ⟨appends, rfl, used, _, exec⟩ := toNewRegister h.emit hlive below inner
    exact ⟨_, rfl, appends, by omega, by omega, exec⟩

end ExpCode.Computes

end LuaBytecode
