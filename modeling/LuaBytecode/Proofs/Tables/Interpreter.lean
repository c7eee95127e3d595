import LuaBytecode.Proofs.Tables.Layout
import LuaBytecode.Proofs.Values.Interpreter

namespace LuaBytecode

open Lowering FieldStep

variable {V W : Type} {a : Nat}

/-- What comes into a table at a time: values at integer keys in a row, or one value under its key. -/
inductive TableStore (V : Type) where
  | items (first : Nat) (values : List V)
  | field (key value : V)

namespace TableStore

def positions : TableStore V → List (V × Nat)
  | items first values => values.zipIdx first
  | field _ _ => []

def isField : TableStore V → Bool
  | items _ _ => false
  | field _ _ => true

end TableStore

def row (registers : Nat → V) (first count : Nat) : List V := (List.range' first count).map registers

section Row

variable {registers registers' : Nat → V} {first count : Nat}

theorem row_succ : row registers first (count + 1) = registers first :: row registers (first + 1) count := rfl

theorem row_concat : row registers first (count + 1) = row registers first count ++ [registers (first + count)] := by
  rw [row, List.range'_1_concat, List.map_append]
  rfl

theorem row_add {more : Nat} : row registers first (count + more) =
    row registers first count ++ row registers (first + count) more := by
  rw [row, row, row, ← List.map_append, List.range'_append_1]

theorem row_congr (same : ∀ r, first ≤ r → r < first + count → registers' r = registers r) :
    row registers' first count = row registers first count :=
  List.map_congr_left fun r inside => same r (List.mem_range'_1.mp inside).1 (List.mem_range'_1.mp inside).2

end Row

/-- The batch in which an instruction stores, and the instruction after it. A batch number that is 0 stands for the one
    in the extra word. -/
def Prototype.batch? (p : Prototype) (pc : Nat) (i : Instruction) : Option (Nat × Nat) :=
  if i.c ≠ 0 then some (i.c, pc + 1)
  else p.code[pc + 1]?.bind fun extra =>
    if extra.opcode? = some .extraArg then some (extra.axField, pc + 2) else none

/-- An interpreter that has tables. Behind its world is the top: the register after the last one of an open list of
    values. The three instructions that make and fill tables are those of the Lua 5.3 machine. -/
structure TableInterpreter (V W : Type) extends Interpreter V (W × Nat) where
  ops : Operators V
  create : W → V × W
  store : V → TableStore V → W → Option W
  makes : ∀ (p : Prototype) (m : Process V (W × Nat)) (i : Instruction), p.code[m.pc]? = some i →
    i.opcode? = some .newTable → ∃ top, step p m =
      some ⟨m.pc + 1, Function.update m.registers i.a (create m.world.1).1, (create m.world.1).2, top⟩
  storesField : ∀ (p : Prototype) (m : Process V (W × Nat)) (i : Instruction) (key value : V) (w : W),
    p.code[m.pc]? = some i → i.opcode? = some .setTable →
    Machine.operand ops p.constants m.registers i.b = some key →
    Machine.operand ops p.constants m.registers i.c = some value →
    store (m.registers i.a) (.field key value) m.world.1 = some w →
      ∃ top, step p m = some ⟨m.pc + 1, m.registers, w, top⟩
  storesItems : ∀ (p : Prototype) (m : Process V (W × Nat)) (i : Instruction) (batch next : Nat) (w : W),
    p.code[m.pc]? = some i → i.opcode? = some .setList → p.batch? m.pc i = some (batch, next) →
    store (m.registers i.a) (.items ((batch - 1) * 50 + 1)
      (row m.registers (i.a + 1) (if i.b = 0 then m.world.2 - (i.a + 1) else i.b))) m.world.1 = some w →
      ∃ top, step p m = some ⟨next, m.registers, w, top⟩

/-- What expressions see of a process while a table is built. The variables are in the registers below it. -/
def Process.view (m : Process V (W × Nat)) (a : Nat) : Scene V W a := ⟨fun r => m.registers r, m.world.1⟩

theorem Process.view_eq {m m' : Process V (W × Nat)} {w : W} (same : ∀ r < a, m'.registers r = m.registers r)
    (world : m'.world.1 = w) : m'.view a = ⟨(m.view a).vars, w⟩ := by
  rw [view, world]
  congr 1
  funext r
  exact same r r.isLt

def Scene.read (nil : V) (σ : Scene V W a) (r : Nat) : V := if below : r < a then σ.vars ⟨r, below⟩ else nil

theorem Process.view_read {m : Process V (W × Nat)} {nil : V} {r : Nat} (below : r < a) :
    (m.view a).read nil r = m.registers r := dif_pos below

def Frame.local? (f : Frame) : Exp → Option Nat
  | .name x => f.register? x
  | _ => none

namespace Meaning

variable {nil : V} (M : Meaning nil W a)

def ReadsLiterals (ops : Operators V) : Prop :=
  ∀ (e : Exp) (k : Constant) (σ : Scene V W a), e.literal? = some k → M.evaluate e σ = some ([ops.constant k], σ)

/-- What the operand of an instruction stands for. A local variable is read when the instruction is executed, and any
    other expression is evaluated before. -/
def operand (f : Frame) (e : Exp) (σ : Scene V W a) : Option ((Scene V W a → V) × Scene V W a) :=
  match f.local? e with
  | some r => some (fun τ => τ.read nil r, σ)
  | none => (M.evaluate e σ).map fun result => (fun _ => result.1.headD nil, result.2)

end Meaning

/-- If the evaluation of an expression succeeds, its code leaves one value in register `r`, or all values of a call or
    of `...` from register `r` on with the top behind them, and changes what evaluation changes. Registers between the
    variables and `r` are as they were. All this wherever code is added behind a table in register `a`. -/
def Exp.Supplies (I : TableInterpreter V W) (s₀ : Lowering) (M : Meaning I.nil W a) (e : Exp) : Prop :=
  ∀ (s s' : Lowering) (r : Nat) (n : Int), s₀.Gains s → a < r → s.frame.used = r + 1 →
    n = 1 ∨ n = -1 ∧ e.isMulti = true → e.code.emit r n s = .ok () s' →
    ∀ (m : Process V (W × Nat)) (vs : List V) (σ : Scene V W a), M.evaluate e (m.view a) = some (vs, σ) →
      I.Executes s.frame s'.frame m fun m' =>
        m'.view a = σ ∧ (∀ x, a ≤ x → x < r → m'.registers x = m.registers x) ∧
        (n = 1 → m'.registers r = vs.headD I.nil) ∧
        (n = -1 → row m'.registers r vs.length = vs ∧ m'.world.2 = r + vs.length)

/-- The steps succeed if the keys up to `stored` are filled and the values that wait come after them. Evaluated are
    `items`, one for each positional field, and `more`, all values of the last field. All that is stored is in `log`. -/
inductive TableInterpreter.Performs (I : TableInterpreter V W) (M : Meaning I.nil W a) (f : Frame) (table : V) :
    List FieldStep → (stored : Nat) → (waiting : List V) → Scene V W a → (items more : List V) →
      (log : List (TableStore V)) → Scene V W a → Prop
  | done {stored : Nat} {waiting : List V} {σ : Scene V W a} : Performs I M f table [] stored waiting σ [] [] [] σ
  | item {value : Exp} {steps : List FieldStep} {stored : Nat} {waiting vs items more : List V}
    {log : List (TableStore V)} {σ σ₁ σ' : Scene V W a} : M.evaluate value σ = some (vs, σ₁) →
    Performs I M f table steps stored (waiting ++ [vs.headD I.nil]) σ₁ items more log σ' →
    Performs I M f table (.item value :: steps) stored waiting σ (vs.headD I.nil :: items) more log σ'
  | store {steps : List FieldStep} {stored : Nat} {waiting items more : List V} {log : List (TableStore V)}
    {σ σ' : Scene V W a} {w : W} : I.store table (.items (stored + 1) waiting) σ.world = some w →
    Performs I M f table steps (stored + waiting.length) [] ⟨σ.vars, w⟩ items more log σ' →
    Performs I M f table (.store :: steps) stored waiting σ items more (.items (stored + 1) waiting :: log) σ'
  | tail {value : Exp} {stored : Nat} {waiting vs : List V} {σ σ₁ : Scene V W a} {w : W} :
    M.evaluate value σ = some (vs, σ₁) → I.store table (.items (stored + 1) (waiting ++ vs)) σ₁.world = some w →
    Performs I M f table [.tail value] stored waiting σ [] vs [.items (stored + 1) (waiting ++ vs)] ⟨σ₁.vars, w⟩
  | field {key value : Exp} {steps : List FieldStep} {stored : Nat} {waiting items more : List V}
    {log : List (TableStore V)} {σ σ₁ σ₂ σ' : Scene V W a} {k v : Scene V W a → V} {w : W} :
    M.operand f key σ = some (k, σ₁) → M.operand f value σ₁ = some (v, σ₂) →
    I.store table (.field (k σ₂) (v σ₂)) σ₂.world = some w →
    Performs I M f table steps stored waiting ⟨σ₂.vars, w⟩ items more log σ' →
    Performs I M f table (.field key value :: steps) stored waiting σ items more (.field (k σ₂) (v σ₂) :: log) σ'

def isOpenField (field : Option Exp × Exp) : Bool := field.1.isNone && field.2.isMulti

/-- The stores fill the keys from 1 on with the values of the positional fields, each key once and in order, and store
    one value for each field that has a key. A positional field has one value, and all of its values if it comes last
    and may have any number of them. -/
structure Numbered (fields : List (Option Exp × Exp)) (items more : List V) (log : List (TableStore V)) : Prop where
  positions : log.flatMap TableStore.positions = (items ++ more).zipIdx 1
  keyed : log.countP TableStore.isField = fields.countP (·.1.isSome)
  items : items.length + (fields.getLast?.any isOpenField).toNat = fields.countP (·.1.isNone)
  closed : fields.getLast?.any isOpenField = false → more = []

theorem any_last_cons {α : Type} {p : α → Bool} {x : α} {xs : List α} (single : xs = [] → p x = false) :
    (x :: xs).getLast?.any p = xs.getLast?.any p := by
  cases xs with
  | nil => simpa using single rfl
  | cons y ys => rw [List.getLast?_cons_cons]

namespace TableInterpreter.Performs

variable {I : TableInterpreter V W} {M : Meaning I.nil W a} {f : Frame} {table : V} {steps : List FieldStep}
  {stored : Nat} {waiting items more : List V} {log : List (TableStore V)} {σ σ' : Scene V W a}

section

variable (performs : I.Performs M f table steps stored waiting σ items more log σ')

include performs

theorem positions (orderly : Orderly waiting.length steps) :
    log.flatMap TableStore.positions = (waiting ++ items ++ more).zipIdx (stored + 1) := by
  induction performs with
  | done =>
    obtain rfl := List.eq_nil_of_length_eq_zero orderly
    rfl
  | item _ _ ih =>
    obtain ⟨-, -, rest⟩ := orderly
    rw [ih (by simpa using rest)]
    simp
  | store _ _ ih =>
    rw [List.append_assoc, List.zipIdx_append, List.flatMap_cons, ih orderly.2, TableStore.positions, List.nil_append,
      Nat.add_right_comm]
  | tail => simp [TableStore.positions]
  | field _ _ _ _ ih => exact ih orderly

theorem keyed : log.countP TableStore.isField = (fields steps).countP (·.1.isSome) := by
  induction performs with
  | done => rfl
  | item _ _ ih => simpa using ih
  | store _ _ ih => simpa [TableStore.isField] using ih
  | tail => rfl
  | field _ _ _ _ ih => simpa [List.countP_cons, TableStore.isField] using ih

theorem items_length (orderly : Orderly waiting.length steps) :
    items.length + ((fields steps).getLast?.any isOpenField).toNat =
        (fields steps).countP (·.1.isNone) ∧
      ((fields steps).getLast?.any isOpenField = false → more = []) := by
  induction performs with
  | done => exact ⟨rfl, fun _ => rfl⟩
  | item _ _ ih =>
    obtain ⟨-, followed, rest⟩ := orderly
    rw [fields_item, any_last_cons, List.countP_cons_of_pos rfl, ← (ih (by simpa using rest)).1,
      List.length_cons, Nat.add_right_comm]
    · exact ⟨rfl, (ih (by simpa using rest)).2⟩
    · intro last
      simpa [isOpenField] using fun multi => followed multi last
  | store _ _ ih => exact ih orderly.2
  | tail =>
    obtain ⟨-, multi, -⟩ := orderly
    simp [fields, field?, isOpenField, multi]
  | field _ _ _ _ ih =>
    rw [fields_field, any_last_cons fun _ => rfl, List.countP_cons_of_neg (by simp)]
    exact ih orderly

end

theorem numbered (performs : I.Performs M f table steps 0 [] σ items more log σ') (orderly : Orderly 0 steps) :
    Numbered (fields steps) items more log where
  positions := performs.positions orderly
  keyed := performs.keyed
  items := (performs.items_length orderly).1
  closed := (performs.items_length orderly).2

end TableInterpreter.Performs

end LuaBytecode
