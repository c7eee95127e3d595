import LuaBytecode.Proofs.Appending.Tree
import Mathlib.Logic.Relation

namespace LuaBytecode

open Lowering ExpCode

/-- A function that runs: the next instruction, the registers, and all that is outside of them. -/
structure Process (V W : Type) where
  pc : Nat
  registers : Nat → V
  world : W

/-- An interpreter takes a running function from one instruction to the next. A call is one instruction to the caller.
    Only the instruction that fills registers with `nil` is fixed here. -/
structure Interpreter (V W : Type) where
  nil : V
  step : Prototype → Process V W → Option (Process V W)
  fills : ∀ (p : Prototype) (m : Process V W) (i : Instruction), p.code[m.pc]? = some i → i.opcode? = some .loadNil →
    step p m = some ⟨m.pc + 1, fun r => if i.a ≤ r ∧ r ≤ i.a + i.b then nil else m.registers r, m.world⟩

/-- What an expression sees and may change: the variables, which are in the registers below `top`, and the world. -/
structure Scene (V W : Type) (top : Nat) where
  vars : Fin top → V
  world : W

/-- What expressions mean. An evaluation that ends well gives any number of values. -/
structure Meaning {V : Type} (nil : V) (W : Type) (top : Nat) where
  evaluate : Exp → Scene V W top → Option (List V × Scene V W top)
  ofNil : ∀ σ, evaluate .nil σ = some ([nil], σ)

variable {V W : Type} {top : Nat}

def Process.scene (m : Process V W) (top : Nat) : Scene V W top := ⟨fun r => m.registers r, m.world⟩

theorem Process.scene_eq {m m' : Process V W} {w : W} (same : ∀ r < top, m'.registers r = m.registers r)
    (world : m'.world = w) : m'.scene top = ⟨(m.scene top).vars, w⟩ := by
  rw [scene, world]
  congr 1
  funext r
  exact same r r.isLt

namespace Meaning

variable {nil : V} (M : Meaning nil W top)

/-- The values of a list, evaluated left to right. Each expression has one value in the list, but a call or `...` at the
    end has all of its values there. -/
def values : List Exp → Scene V W top → Option (List V × Scene V W top)
  | [], σ => some ([], σ)
  | e :: rest, σ => do
    let (vs, σ) ← M.evaluate e σ
    if rest.isEmpty && e.isMulti then return (vs, σ)
    else
      let (ws, σ) ← values rest σ
      return (vs.headD nil :: ws, σ)

variable {M} {e : Exp} {rest : List Exp} {σ : Scene V W top}

theorem values_multi (multi : e.isMulti = true) : M.values [e] σ = M.evaluate e σ := by
  rw [values]
  cases M.evaluate e σ with
  | none => rfl
  | some r => simp [multi]

theorem values_cons (one : (rest.isEmpty && e.isMulti) = false) : M.values (e :: rest) σ =
    (M.evaluate e σ).bind fun r => (M.values rest r.2).map fun q => (r.1.headD nil :: q.1, q.2) := by
  simp only [values, one, Bool.false_eq_true, if_false, Option.map_eq_bind]
  rfl

theorem values_concat_nil {exps : List Exp} (single : exps.getLast?.any Exp.isMulti = false) (σ : Scene V W top) :
    M.values (exps ++ [.nil]) σ = (M.values exps σ).map fun r => (r.1 ++ [nil], r.2) := by
  induction exps generalizing σ with
  | nil =>
    rw [List.nil_append, values_cons rfl, M.ofNil]
    rfl
  | cons e rest ih =>
    have one : (rest.isEmpty && e.isMulti) = false := by
      cases rest with
      | nil => simpa using single
      | cons _ _ => rfl
    have others : rest.getLast?.any Exp.isMulti = false := by
      cases rest with
      | nil => rfl
      | cons _ _ => simpa using single
    rw [List.cons_append, values_cons (by simp), values_cons one]
    cases M.evaluate e σ with
    | none => rfl
    | some r => simp [ih others, Option.map_map, Function.comp_def]

end Meaning

/-- The program has the instructions of the frame from `lo` on and before `hi`, and all that they refer to. -/
structure Prototype.Holds (p : Prototype) (f : Frame) (lo hi : Nat) : Prop where
  code : ∀ pc, lo ≤ pc → pc < hi → p.code[pc]? = f.code[pc]?
  constants : f.constants.entries.toList <+: p.constants.toList
  upvalues : f.upvalues.toList <+: p.upvalues.toList
  functions : f.functions.toList <+: p.functions

namespace Prototype.Holds

variable {p : Prototype} {f g : Frame} {lo hi : Nat}

theorem narrow {lo' hi' : Nat} (h : p.Holds f lo hi) (above : lo ≤ lo') (below : hi' ≤ hi) : p.Holds f lo' hi' :=
  { h with code := fun pc hlo hhi => h.code pc (Nat.le_trans above hlo) (Nat.lt_of_lt_of_le hhi below) }

theorem earlier (h : p.Holds g lo hi) (adds : f.Gains g) (below : hi ≤ f.pc) : p.Holds f lo hi where
  code pc hlo hhi := by
    rw [h.code pc hlo hhi]
    exact getElem?_of_prefixed adds.code (Nat.lt_of_lt_of_le hhi below)
  constants := adds.constants.trans h.constants
  upvalues := adds.upvalues.trans h.upvalues
  functions := adds.functions.trans h.functions

theorem pushed {i : Instruction} (h : p.Holds (f.push i) lo hi) (above : lo ≤ f.pc) (below : f.pc < hi) :
    p.code[f.pc]? = some i := by
  rw [h.code f.pc above below]
  simp [Frame.pc]

theorem ofFrame (f : Frame) (source : Option String) : (f.toPrototype source).Holds f lo hi :=
  ⟨fun _ _ _ => rfl, List.prefix_rfl, List.prefix_rfl, List.prefix_rfl⟩

end Prototype.Holds

namespace Interpreter

variable (I : Interpreter V W)

def Runs (p : Prototype) : Process V W → Process V W → Prop :=
  Relation.ReflTransGen fun m m' => I.step p m = some m'

def Executes (f g : Frame) (m : Process V W) (post : Process V W → Prop) : Prop :=
  ∀ p : Prototype, p.Holds g f.pc g.pc → m.pc = f.pc → ∃ m', I.Runs p m m' ∧ m'.pc = g.pc ∧ post m'

namespace Executes

variable {I} {f g h : Frame} {m : Process V W} {post : Process V W → Prop}

theorem nothing (same : g.pc = f.pc) (done : post m) : I.Executes f g m post :=
  fun _ _ start => ⟨m, .refl, start.trans same.symm, done⟩

theorem weaken {post' : Process V W → Prop} (h : I.Executes f g m post) (weaker : ∀ m', post m' → post' m') :
    I.Executes f g m post' := by
  intro p holds start
  obtain ⟨m', run, finish, done⟩ := h p holds start
  exact ⟨m', run, finish, weaker m' done⟩

theorem after {f' : Frame} (same : f'.pc = f.pc) (h : I.Executes f g m post) : I.Executes f' g m post := by
  unfold Executes
  rw [same]
  exact h

theorem trans {final : Process V W → Prop} (first : I.Executes f g m post) (before : f.Gains g) (after : g.Gains h)
    (second : ∀ m', post m' → I.Executes g h m' final) : I.Executes f h m final := by
  intro p holds start
  obtain ⟨m', run, middle, done⟩ :=
    first p ((holds.narrow Nat.le.refl after.pc_le).earlier after Nat.le.refl) start
  obtain ⟨m'', run', finish, final⟩ := second m' done p (holds.narrow before.pc_le Nat.le.refl) middle
  exact ⟨m'', run.trans run', finish, final⟩

theorem push {i : Instruction} (does : ∀ p : Prototype, p.code[f.pc]? = some i → m.pc = f.pc →
    ∃ m', I.step p m = some m' ∧ m'.pc = f.pc + 1 ∧ post m') : I.Executes f (f.push i) m post := by
  intro p holds start
  have pc : (f.push i).pc = f.pc + 1 := by simp [Frame.pc]
  obtain ⟨m', step, next, done⟩ := does p (holds.pushed Nat.le.refl (by omega)) start
  exact ⟨m', .single step, next.trans pc.symm, done⟩

end Executes

end Interpreter

/-- If the evaluation of an expression succeeds, its code leaves the values where they are asked for: the value of an
    expression with one value in register `a`, and the first `n` values of a call or of `...`, with `nil`s behind them,
    from register `a` on. What evaluation changes is changed, and registers between the variables and `a` are as they
    were. All this wherever code is added that evaluates expressions, if there are so many registers. -/
def Exp.Delivers (I : Interpreter V W) (s₀ : Lowering) (M : Meaning I.nil W s₀.frame.used) (e : Exp) : Prop :=
  ∀ (s s' : Lowering) (a n : Nat), s₀.Gains s → s₀.frame.used ≤ a → s.frame.used = a + 1 →
    a + n < Frame.registerLimit → n = 1 ∨ e.isMulti = true → e.code.emit a n s = .ok () s' →
    ∀ (m : Process V W) (vs : List V) (σ : Scene V W s₀.frame.used), M.evaluate e (m.scene _) = some (vs, σ) →
      I.Executes s.frame s'.frame m fun m' =>
        m'.scene _ = σ ∧ (∀ r, s₀.frame.used ≤ r → r < a → m'.registers r = m.registers r) ∧
        ∀ k < n, m'.registers (a + k) = vs[k]?.getD I.nil

theorem Exp.nil_delivers {I : Interpreter V W} {s₀ : Lowering} {M : Meaning I.nil W s₀.frame.used} :
    Exp.nil.Delivers I s₀ M := by
  intro s s' a n _ above _ _ single run m vs σ evaluated
  obtain rfl : n = 1 := single.resolve_right (by decide)
  rw [M.ofNil] at evaluated
  cases evaluated
  obtain ⟨_, emit, _⟩ := bind_pure_ok run
  obtain ⟨i, rfl, _, opcode, ha, hb, _⟩ := emitAbc_lower emit
  have hb : i.b = 0 := hb
  refine .push fun p found start => ⟨_, I.fills p m i (start ▸ found) opcode, by rw [start], ?_, ?_, ?_⟩
  · exact Process.scene_eq (fun r below => if_neg (by omega)) rfl
  · intro r _ below
    exact if_neg (by omega)
  · intro k below
    obtain rfl : k = 0 := Nat.lt_one_iff.mp below
    exact if_pos (by omega)

/-- Code that loads `want` values of the list, with `nil`s taken off its end or not, leaves the first `want` values of
    the list in the registers after those in use, with `nil`s behind them. It changes what evaluating each expression of
    the list once changes, from left to right. -/
def Exp.LoadsAdjusted (exps : List Exp) (want : Nat) : Prop :=
  ∀ {V W : Type} (I : Interpreter V W) (s s' : Lowering) (M : Meaning I.nil W s.frame.used) (trim : Bool),
    (∀ e ∈ exps, e.Delivers I s M) →
    loadValues (if trim then trimNils (exps.map Exp.code) else exps.map Exp.code) want s = .ok () s' →
      ∀ (m : Process V W) (vs : List V) (σ : Scene V W s.frame.used), M.values exps (m.scene _) = some (vs, σ) →
        I.Executes s.frame s'.frame m fun m' =>
          m'.scene _ = σ ∧ ∀ k < want, m'.registers (s.frame.used + k) = vs[k]?.getD I.nil

end LuaBytecode
