import LuaBytecode.Proofs.Expression.Simulation
import LuaBytecode.Proofs.Statement.Semantics

namespace LuaBytecode

open Lowering

section Registers

variable {V : Type} {live live' new old : List Binding} {σ : Store V} {R R' : Nat → V}

def Held (live : List Binding) (σ : Store V) (R : Nat → V) : Prop :=
  List.Forall₂ (fun b cell => b.name = cell.1 ∧ R b.register = cell.2) live σ

namespace Held

theorem marked (h : Held live' σ R) (same : MarkedAll live live') : Held live σ R := by
  induction same generalizing σ with
  | nil => exact h
  | cons head _ ih =>
    cases h with
    | cons cell rest => exact .cons ⟨head.name ▸ cell.1, head.register ▸ cell.2⟩ (ih rest)

theorem remarked (h : Held live σ R) (same : MarkedAll live live') : Held live' σ R := by
  induction same generalizing σ with
  | nil => exact h
  | cons head _ ih =>
    cases h with
    | cons cell rest => exact .cons ⟨head.name.trans cell.1, head.register.symm ▸ cell.2⟩ (ih rest)

theorem kept (h : Held live σ R) (same : ∀ b ∈ live, R' b.register = R b.register) : Held live σ R' := by
  induction h with
  | nil => exact .nil
  | cons cell _ ih =>
    refine .cons ⟨cell.1, (same _ (.head _)).trans cell.2⟩ (ih fun b member => ?_)
    exact same b (.tail _ member)

theorem split (h : Held (new ++ old) σ R) : ∃ inner outer, σ = inner ++ outer ∧ Held new inner R ∧ Held old outer R := by
  obtain ⟨inner, outer, same, first, rest⟩ := forall₂_split h
  exact ⟨inner, outer, same, first, rest⟩

theorem holds {f : Frame} (h : Held f.live σ R) (nil : V) : f.Holds (σ.value nil) R := by
  intro x r found
  unfold Frame.register? Frame.binding? at found
  unfold Store.value
  generalize f.live = live at h found
  induction h with
  | nil => cases found
  | @cons b cell _ _ here _ ih =>
    obtain ⟨name, value⟩ := here
    by_cases same : b.name = x
    · rw [List.find?_cons_of_pos (by simpa using same)] at found
      cases found
      rw [List.lookup_cons, ← name, same, beq_self_eq_true]
      exact value
    · rw [List.find?_cons_of_neg (by simpa using same)] at found
      have other : (x == b.name) = false := by simpa using Ne.symm same
      rw [List.lookup_cons, ← name, other]
      exact ih found

theorem length_eq (h : Held live σ R) : live.length = σ.length := List.Forall₂.length_eq h

end Held

theorem Store.keep_append (inner outer : Store V) : (inner ++ outer).keep outer.length = outer := by
  rw [Store.keep, List.length_append, Nat.add_sub_cancel, List.drop_left]

end Registers

section Breaks

variable {scopes : List (Option (Array Nat))}

def loopBreaks : List (Option (Array Nat)) → List Nat
  | [] => []
  | none :: rest => loopBreaks rest
  | some pcs :: _ => pcs.toList

namespace AddsBreaks

variable {Q : Nat → Prop} {pc : Nat} {a b : List (Option (Array Nat))}

theorem forward (h : AddsBreaks Q a b) (member : pc ∈ loopBreaks a) : pc ∈ loopBreaks b := by
  induction h with
  | nil => exact member
  | block _ ih => exact ih member
  | loop => exact Array.mem_toList_iff.mpr (Array.mem_append_left _ (Array.mem_toList_iff.mp member))

theorem backward (h : AddsBreaks Q a b) (member : pc ∈ loopBreaks b) : pc ∈ loopBreaks a ∨ Q pc := by
  induction h with
  | nil => exact .inl member
  | block _ ih => exact ih member
  | loop new =>
    exact (Array.mem_append.mp (Array.mem_toList_iff.mp member)).imp Array.mem_toList_iff.mpr (new pc)

theorem loops (h : AddsBreaks Q a b) : (b.dropWhile (·.isNone)).length = (a.dropWhile (·.isNone)).length := by
  induction h with
  | nil => rfl
  | block _ ih => exact ih
  | loop => rfl

end AddsBreaks

theorem mem_loopBreaks_pushBreak (inLoop : 0 < (scopes.dropWhile (·.isNone)).length) (pc : Nat) :
    pc ∈ loopBreaks (Frame.pushBreak pc scopes) := by
  induction scopes with
  | nil => cases inLoop
  | cons scope rest ih =>
    cases scope with
    | none => exact ih inLoop
    | some pcs => exact Array.mem_toList_iff.mpr (Array.mem_push.mpr (.inr rfl))

theorem mem_scope_of_loopBreaks {pc : Nat} (member : pc ∈ loopBreaks scopes) : ∃ pcs, some pcs ∈ scopes ∧ pc ∈ pcs := by
  induction scopes with
  | nil => cases member
  | cons scope rest ih =>
    cases scope with
    | none =>
      obtain ⟨pcs, inside, listed⟩ := ih member
      exact ⟨pcs, .tail _ inside, listed⟩
    | some pcs => exact ⟨pcs, .head _, Array.mem_toList_iff.mp member⟩

theorem Frame.Sound.loopBreaks_lt {f : Frame} (sound : f.Sound) {pc : Nat} (member : pc ∈ loopBreaks f.scopes) :
    pc < f.pc := by
  obtain ⟨pcs, inside, listed⟩ := mem_scope_of_loopBreaks member
  obtain ⟨i, there, _⟩ := sound.breaks pcs inside pc listed
  exact lt_of_getElem? there

end Breaks

namespace Program

variable {p : Program} {pc target exit lo lo' : Nat} {f g : Frame} {i : Instruction}

def JumpsTo (p : Program) (pc target : Nat) : Prop :=
  ∃ i, p.code[pc]? = some i ∧ i.opcode? = some .jmp ∧ i.sbx = Frame.jumpOffset pc target

/-- The program has the instructions of the frame from `lo` on. The jumps of which `hanging` tells lead where it says, and
    those out of the innermost loop lead to `exit`. -/
structure Serves (p : Program) (exit : Nat) (hanging : Nat → Nat → Prop) (lo : Nat) (f : Frame) : Prop where
  code : ∀ pc, lo ≤ pc → pc < f.pc → pc ∉ loopBreaks f.scopes → (∀ target, ¬hanging pc target) →
    p.code[pc]? = f.code[pc]?
  breaks : ∀ pc ∈ loopBreaks f.scopes, lo ≤ pc → p.JumpsTo pc exit
  lands : ∀ pc target, hanging pc target → lo ≤ pc → p.JumpsTo pc target
  constants : f.constants.entries.toList <+: p.constants.toList

def settled (_ _ : Nat) : Prop := False

namespace Serves

variable {hanging hanging' : Nat → Nat → Prop}

theorem narrow (h : p.Serves exit hanging lo f) (above : lo ≤ lo') : p.Serves exit hanging lo' f where
  code pc least := h.code pc (Nat.le_trans above least)
  breaks pc member least := h.breaks pc member (Nat.le_trans above least)
  lands pc target hangs least := h.lands pc target hangs (Nat.le_trans above least)
  constants := h.constants

theorem earlier (h : p.Serves exit hanging lo g) (code : f.code.toList <+: g.code.toList)
    (constants : f.constants.entries.toList <+: g.constants.entries.toList)
    (adds : AddsBreaks (f.pc ≤ ·) f.scopes g.scopes) (fewer : ∀ pc target, hanging pc target → pc < f.pc → hanging' pc target)
    (known : ∀ pc target, hanging' pc target → hanging pc target) : p.Serves exit hanging' lo f where
  code pc least most calm still := by
    have longer : f.pc ≤ g.pc := by simpa [Frame.pc] using code.length_le
    rw [h.code pc least (Nat.lt_of_lt_of_le most longer) ?_ fun target hangs => still target (fewer pc target hangs most)]
    · exact getElem?_of_prefixed code most
    · intro member
      rcases adds.backward member with old | new
      · exact calm old
      · omega
  breaks pc member least := h.breaks pc (adds.forward member) least
  lands pc target hangs least := h.lands pc target (known pc target hangs) least
  constants := constants.trans h.constants

theorem includes (h : p.Serves exit hanging lo f) (above : ∀ pc ∈ loopBreaks f.scopes, pc < lo)
    (calm : ∀ pc target, hanging pc target → pc < lo) : p.Includes f lo f.pc where
  code pc least most := by
    refine h.code pc least most (fun member => ?_) fun target hangs => ?_
    · have := above pc member
      omega
    · have := calm pc target hangs
      omega
  constants := h.constants

theorem pushed (h : p.Serves exit hanging lo (f.push i)) (least : lo ≤ f.pc) (sound : f.Sound)
    (calm : ∀ target, ¬hanging f.pc target) : p.code[f.pc]? = some i := by
  have last : f.pc < (f.push i).pc := by
    rw [Frame.push_pc]
    exact Nat.lt_succ_self _
  rw [h.code f.pc least last (fun member => Nat.lt_irrefl _ (sound.loopBreaks_lt member)) calm]
  exact Frame.push_last

end Serves

section Runs

variable {V : Type} (ops : Operators V) (P : Ending V → Machine V → Prop)

/-- A run in which statements end one after another, each in a state of which `P` holds. -/
inductive Passes (p : Program) : Machine V → List (Ending V) → Machine V → Prop
  | refl (m : Machine V) : Passes p m [] m
  | step {m m' m'' : Machine V} {endings : List (Ending V)} : p.step ops m = some m' → Passes p m' endings m'' →
    Passes p m endings m''
  | note {m m' : Machine V} {e : Ending V} {endings : List (Ending V)} : P e m → Passes p m endings m' →
    Passes p m (e :: endings) m'

namespace Passes

variable {ops P} {m m' m'' : Machine V} {endings endings' : List (Ending V)} {R : Nat → V}

theorem trans (first : p.Passes ops P m endings m') (second : p.Passes ops P m' endings' m'') :
    p.Passes ops P m (endings ++ endings') m'' := by
  induction first with
  | refl => exact second
  | step one _ ih => exact .step one (ih second)
  | note holds _ ih => exact .note holds (ih second)

theorem unlessBroken {broke : Bool} {mid last : Nat} (first : p.Passes ops P m endings ⟨if broke then exit else mid, R⟩)
    (rest : p.Passes ops P ⟨mid, R⟩ [] ⟨last, R⟩) : p.Passes ops P m endings ⟨if broke then exit else last, R⟩ := by
  cases broke with
  | true => exact first
  | false =>
    have whole := first.trans rest
    rwa [List.append_nil] at whole

theorem ofRuns {hi : Nat} (h : p.Runs ops lo hi m m') : p.Passes ops P m [] m' := by
  induction h with
  | refl => exact .refl _
  | step _ _ one _ ih => exact .step one ih

theorem ofJump (h : p.JumpsTo pc target) : p.Passes ops P ⟨pc, R⟩ [] ⟨target, R⟩ := by
  obtain ⟨i, found, hop, hsbx⟩ := h
  have inside : (0 : Int) ≤ pc + 1 + i.sbx := by
    rw [hsbx, Frame.jumpOffset]
    omega
  have there : ((pc : Int) + 1 + i.sbx).toNat = target := by
    rw [hsbx, Frame.jumpOffset]
    omega
  refine .step ?_ (.refl _)
  rw [step_eq found hop]
  simp only [execute, Machine.jump, if_pos inside, there]

end Passes

end Runs

end Program

end LuaBytecode
