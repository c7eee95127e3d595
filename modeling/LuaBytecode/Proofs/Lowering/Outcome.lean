import LuaBytecode.Proofs.Frame.Steps
import LuaBytecode.Proofs.Instruction.Usage

namespace LuaBytecode

open Instruction

/-- Errors for which the program is to blame. Registers and functions are given back only if there are some, only
    instructions and records that exist are changed, no count is below zero, and A always fits. -/
def CodeError.Expected : CodeError → Prop
  | .registerUnderflow _ | .functionStackUnderflow _ | .noInstruction _ _ | .countUnderflow _ | .noLocal _ _ => False
  | .operandOverflow e _ => e.field ≠ .a
  | _ => True

/-- What a step gives is as `post` says, and if it fails, it fails as expected. -/
def Gives {σ α : Type} (m : EStateM CodeError σ α) (s : σ) (post : α → σ → Prop) : Prop :=
  match m s with
  | .ok a t => post a t
  | .error e _ => e.Expected

namespace Gives

variable {σ α β : Type} {m : EStateM CodeError σ α} {s : σ} {post post' : α → σ → Prop}

theorem intro (ok : ∀ a t, m s = .ok a t → post a t) (error : ∀ e t, m s = .error e t → e.Expected) :
    Gives m s post := by
  unfold Gives
  cases run : m s with
  | ok a t => exact ok a t run
  | error e t => exact error e t run

theorem ok (h : Gives m s post) {a : α} {t : σ} (run : m s = .ok a t) : post a t := by
  unfold Gives at h
  rwa [run] at h

theorem error (h : Gives m s post) {e : CodeError} {t : σ} (run : m s = .error e t) : e.Expected := by
  unfold Gives at h
  rwa [run] at h

theorem bind {k : α → EStateM CodeError σ β} {post : β → σ → Prop}
    (h : Gives m s fun a t => Gives (k a) t post) : Gives (m >>= k) s post := by
  unfold Gives at h ⊢
  simp only [Bind.bind, EStateM.bind]
  cases run : m s with
  | ok a t =>
    rw [run] at h
    exact h
  | error e t =>
    rw [run] at h
    exact h

theorem pure {a : α} (h : post a s) : Gives (pure a) s post := h

theorem map {f : α → β} {post : β → σ → Prop} (h : Gives m s fun a t => post (f a) t) : Gives (f <$> m) s post := by
  unfold Gives at h ⊢
  simp only [Functor.map, EStateM.map]
  cases run : m s with
  | ok a t =>
    rw [run] at h
    exact h
  | error e t =>
    rw [run] at h
    exact h

theorem throw {e : CodeError} (expected : e.Expected) :
    Gives (MonadExcept.throw e : EStateM CodeError σ α) s post := expected

theorem get {post : σ → σ → Prop} (h : post s s) : Gives (MonadState.get : EStateM CodeError σ σ) s post := h

theorem weaken (h : Gives m s post) (weaker : ∀ a t, post a t → post' a t) : Gives m s post' :=
  intro (fun a t run => weaker a t (h.ok run)) fun _ _ run => h.error run

theorem congr {n : EStateM CodeError σ α} {u : σ} (same : m s = n u) (h : Gives n u post) : Gives m s post := by
  unfold Gives
  rw [same]
  exact h

theorem lift {s : Lowering} {m : FrameM α} {post : α → Lowering → Prop}
    (h : Gives m s.frame fun a f => post a ⟨f, s.enclosing⟩) : Gives (liftM m : LowerM α) s post := by
  show Gives (Lowering.step m) s post
  unfold Gives Lowering.step at *
  cases run : m s.frame with
  | ok a f =>
    simp only [run] at h ⊢
    exact h
  | error e f =>
    simp only [run] at h ⊢
    exact h

end Gives

theorem Lowering.difference_gives {a b : Nat} {s : Lowering} {post : Nat → Lowering → Prop} (fits : b ≤ a)
    (h : post (a - b) s) : Gives (Frame.difference a b : LowerM Nat) s post := by
  apply Gives.lift
  unfold Gives Frame.difference
  rw [if_pos fits]
  exact h

namespace Frame

variable {f : Frame} {op : Opcode} {a b c bx n pc target : Nat} {sbx : Int} {i : Instruction}
  {post : Nat → Frame → Prop}

theorem emit_gives {e : Except OperandError Instruction} (fits : ∀ error, e = .error error → error.field ≠ .a)
    (h : ∀ i, e = .ok i → post f.pc (f.push i)) : Gives (emit e) f post := by
  unfold Gives emit
  cases e with
  | ok i => exact h i rfl
  | error error => exact fits error rfl

theorem emitAbc_gives (fits : a ≤ 255)
    (h : ∀ i, i.opcode? = some op → i.a = a → i.b = b → i.c = c → post f.pc (f.push i)) :
    Gives (emitAbc op a b c) f post := by
  refine emit_gives (fun error => abc_error fits) fun i built => ?_
  obtain ⟨hop, ha, hb, hc, _⟩ := abc_ok built
  exact h i hop ha hb hc

theorem emitAbx_gives (fits : a ≤ 255) (h : ∀ i, i.opcode? = some op → i.a = a → i.bx = bx → post f.pc (f.push i)) :
    Gives (emitAbx op a bx) f post := by
  refine emit_gives (fun error => abx_error fits) fun i built => ?_
  obtain ⟨hop, ha, hbx, _⟩ := abx_ok built
  exact h i hop ha hbx

theorem emitAsbx_gives (fits : a ≤ 255) (h : ∀ i, i.opcode? = some op → i.a = a → i.sbx = sbx → post f.pc (f.push i)) :
    Gives (emitAsbx op a sbx) f post := by
  refine emit_gives (fun error => asbx_error fits) fun i built => ?_
  obtain ⟨hop, ha, hsbx, _⟩ := asbx_ok built
  exact h i hop ha hsbx

theorem emitAx_gives (h : ∀ i, i.opcode? = some op → i.axField = n → post f.pc (f.push i)) :
    Gives (emitAx op n) f post := by
  refine emit_gives (fun error => ax_error) fun i built => ?_
  obtain ⟨hop, hax⟩ := ax_ok built
  exact h i hop hax

theorem patch_gives {post : Unit → Frame → Prop} (there : f.code[pc]? = some i) (hop : i.opcode? = some op)
    (h : ∀ j, j.opcode? = some op → j.a = i.a → j.sbx = jumpOffset pc target → post () (f.replace pc j)) :
    Gives (patch pc target) f post := by
  unfold Gives patch amend
  simp only [there]
  cases change : i.setSbx (jumpOffset pc target) with
  | ok j =>
    obtain ⟨hop', ha, hsbx⟩ := setSbx_ok hop change
    exact h j hop' ha hsbx
  | error e => exact setSbx_error hop change

theorem patchHere_gives {post : Unit → Frame → Prop} (there : f.code[pc]? = some i) (hop : i.opcode? = some op)
    (h : ∀ j, j.opcode? = some op → j.a = i.a → j.sbx = jumpOffset pc f.pc → post () (f.replace pc j)) :
    Gives (patchHere pc) f post :=
  .bind (.get (patch_gives there hop h))

theorem amend_gives {post : Unit → Frame → Prop} (there : f.code[pc]? = some i) (hop : i.opcode? = some op)
    (level : Instruction → Nat) (fits : level i ≤ 255)
    (h : ∀ j, j.opcode? = some op → j.a = level i → j.sbx = i.sbx → post () (f.replace pc j)) :
    Gives (amend pc fun i => i.setA (level i)) f post := by
  unfold Gives amend
  simp only [there]
  cases change : i.setA (level i) with
  | ok j =>
    obtain ⟨hop', ha, hbx, _⟩ := setA_ok hop change
    exact h j hop' ha (by rw [sbx, sbx, hbx])
  | error e => exact absurd change (setA_error fits hop)

end Frame

end LuaBytecode
