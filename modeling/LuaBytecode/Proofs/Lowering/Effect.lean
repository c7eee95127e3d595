import LuaBytecode.Proofs.Logic.Steps
import LuaBytecode.Proofs.Scoping.Resolve

namespace LuaBytecode

/-- The instruction at a position makes a function that refers to a register of the function around it. -/
def Captures (code : Array Instruction) (functions : List Prototype) (pc r : Nat) : Prop :=
  ∃ i child u, code[pc]? = some i ∧ i.opcode? = some .closure ∧ functions[i.bx]? = some child ∧
    u ∈ child.upvalues ∧ u.inStack = true ∧ u.index = r

/-- The prototype comes from a function among `D`, and so do those inside it. -/
inductive Prototype.Lowered (D : FunctionDef → Prop) : Prototype → Prop
  | mk {fn : FunctionDef} {Γ : Scopes} {s start finish : Lowering} {pc : Nat} {f : Frame} :
    D fn → (∀ x ∈ fn.params, IsIdentifier x) → Block.Shaped D fn.body → Lowering.Ready Γ s →
    ExpCode.enterFunction fn.params fn.isVararg s = .ok () start → Block.code fn.body start = .ok () finish →
    (do Frame.exitScope; Frame.emitReturn 0 0) finish.frame = .ok pc f →
    (∀ p ∈ f.functions, Lowered D p) → Lowered D (f.toPrototype none)

/-- What lowering an expression does to the frame. Its jumps close nothing, and its functions refer only to variables
    that are marked. -/
structure Frame.Extends (D : FunctionDef → Prop) (f f' : Frame) : Prop extends Gains f f' where
  peak : f.peak ≤ f'.peak
  marked : MarkedAll f.live f'.live
  jumps : ∀ pc i, f.pc ≤ pc → f'.code[pc]? = some i → i.opcode? = some .jmp → i.a = 0
  closures : ∀ pc i, f.pc ≤ pc → f'.code[pc]? = some i → i.opcode? = some .closure → i.bx < f'.functions.size
  captured : ∀ pc r, f.pc ≤ pc → Captures f'.code f'.functions.toList pc r →
    ∃ b ∈ f'.live, b.register = r ∧ b.captured = true
  prototypes : ∀ p ∈ f'.functions, p ∈ f.functions ∨ p.Lowered D

theorem Captures.earlier {code code' : Array Instruction} {functions functions' : List Prototype} {pc r : Nat}
    (h : Captures code' functions' pc r) (inside : pc < code.size) (prefixed : code.toList <+: code'.toList)
    (known : ∀ i, code[pc]? = some i → i.opcode? = some .closure → i.bx < functions.length)
    (more : functions <+: functions') : Captures code functions pc r := by
  obtain ⟨i, child, u, there, closure, found, facts⟩ := h
  rw [getElem?_of_prefixed prefixed inside] at there
  refine ⟨i, child, u, there, closure, ?_, facts⟩
  obtain ⟨rest, rfl⟩ := more
  rwa [List.getElem?_append_left (known i there closure)] at found

theorem Frame.push_above {f : Frame} {i j : Instruction} {pc : Nat} (above : f.pc ≤ pc)
    (there : (f.push i).code[pc]? = some j) : pc = f.pc ∧ i = j := by
  rw [Frame.push_code, Array.getElem?_push] at there
  split at there
  · exact ⟨‹_›, Option.some.inj there⟩
  · cases (Array.getElem?_eq_none above).symm.trans there

namespace Frame.Extends

variable {D : FunctionDef → Prop} {f g h : Frame}

theorem refl (f : Frame) : Extends D f f where
  toGains := .refl f
  peak := Nat.le.refl
  marked := .refl _
  jumps _ _ above there := nomatch (Array.getElem?_eq_none above).symm.trans there
  closures _ _ above there := nomatch (Array.getElem?_eq_none above).symm.trans there
  captured _ _ above := fun ⟨_, _, _, there, _⟩ => nomatch (Array.getElem?_eq_none above).symm.trans there
  prototypes _ member := .inl member

theorem trans (first : Extends D f g) (second : Extends D g h) : Extends D f h where
  toGains := first.toGains.trans second.toGains
  peak := Nat.le_trans first.peak second.peak
  marked := first.marked.trans second.marked
  jumps pc i above there jump := by
    by_cases inside : pc < g.pc
    · rw [getElem?_of_prefixed second.code inside] at there
      exact first.jumps pc i above there jump
    · exact second.jumps pc i (Nat.not_lt.mp inside) there jump
  closures pc i above there closure := by
    by_cases inside : pc < g.pc
    · rw [getElem?_of_prefixed second.code inside] at there
      have more := second.functions.length_le
      simp only [Array.length_toList] at more
      exact Nat.lt_of_lt_of_le (first.closures pc i above there closure) more
    · exact second.closures pc i (Nat.not_lt.mp inside) there closure
  captured pc r above captures := by
    by_cases inside : pc < g.pc
    · have known := captures.earlier inside second.code
        (fun i there closure => by simpa using first.closures pc i above there closure) second.functions
      obtain ⟨b, member, register, captured⟩ := first.captured pc r above known
      obtain ⟨b', member', marked⟩ := second.marked.forward member
      exact ⟨b', member', marked.register.trans register, marked.captured captured⟩
    · exact second.captured pc r (Nat.not_lt.mp inside) captures
  prototypes p member := by
    rcases second.prototypes p member with old | new
    · exact first.prototypes p old
    · exact .inr new

theorem ofRegisters {used peak : Nat} {constants : ConstantPool} (more : f.peak ≤ peak)
    (kept : f.constants.entries.toList <+: constants.entries.toList) :
    Extends D f { f with used := used, peak := peak, constants := constants } :=
  { refl (D := D) f with same := rfl, peak := more, constants := kept }

theorem ofUsed (used : Nat) : Extends D f (f.withUsed used) :=
  ofRegisters Nat.le.refl List.prefix_rfl

theorem ofUpvalues {upvalues : Array Upvalue} (more : f.upvalues.toList <+: upvalues.toList) :
    Extends D f { f with upvalues := upvalues } :=
  { refl (D := D) f with same := rfl, upvalues := more }

theorem ofRefers (refers : f.Refers g) : Extends D f g := by
  rw [refers.same]
  exact
    { refl (D := D) f with
      same := rfl
      live := refers.live.remain
      upvalues := refers.upvalues
      marked := refers.live
      captured := fun _ _ above ⟨_, _, _, there, _⟩ => nomatch (Array.getElem?_eq_none above).symm.trans there }

theorem patch (e : Extends D f g) {pc : Nat} {i j : Instruction} {n : Int} (later : f.pc ≤ pc)
    (there : g.code[pc]? = some i) (jump : i.opcode? = some .jmp) (changed : i.setSbx n = .ok j) :
    Extends D f (g.replace pc j) := by
  obtain ⟨hop, ha, _⟩ := Instruction.setSbx_ok jump changed
  have inside := lt_of_getElem? there
  have closes : i.a = 0 := e.jumps pc i later there jump
  have cases' : ∀ at' k, (g.replace pc j).code[at']? = some k → g.code[at']? = some k ∨ at' = pc ∧ k = j := by
    intro at' k found
    rw [Frame.replace_code] at found
    by_cases same : pc = at'
    · subst same
      rw [Array.getElem?_setIfInBounds_self_of_lt inside] at found
      exact .inr ⟨rfl, (Option.some.inj found).symm⟩
    · rw [Array.getElem?_setIfInBounds_ne same] at found
      exact .inl found
  refine { e.toGains.replace later j, e with jumps := ?_, closures := ?_, captured := ?_ }
  · intro at' k above found isJump
    rcases cases' at' k found with old | ⟨rfl, rfl⟩
    · exact e.jumps at' k above old isJump
    · rw [ha, closes]
  · intro at' k above found closure
    rcases cases' at' k found with old | ⟨rfl, rfl⟩
    · exact e.closures at' k above old closure
    · rw [hop] at closure
      cases closure
  · rintro at' r above ⟨k, child, u, found, closure, facts⟩
    rcases cases' at' k found with old | ⟨rfl, rfl⟩
    · exact e.captured at' r above ⟨k, child, u, old, closure, facts⟩
    · rw [hop] at closure
      cases closure

theorem ofClosure {p : Prototype} {i : Instruction} (lowered : p.Lowered D) (closure : i.opcode? = some .closure)
    (index : i.bx = f.functions.size)
    (marked : ∀ u ∈ p.upvalues, u.inStack = true → ∃ b ∈ f.live, b.register = u.index ∧ b.captured = true) :
    Extends D f (Frame.push { f with functions := f.functions.push p } i) where
  toGains := (Gains.ofFunction p).trans (.ofPush i)
  peak := Nat.le.refl
  marked := .refl _
  jumps pc j above there isJump := by
    rcases push_above above there with ⟨_, rfl⟩
    rw [closure] at isJump
    cases isJump
  closures pc j above there _ := by
    rcases push_above above there with ⟨_, rfl⟩
    simp [Frame.push, index]
  captured pc r above := by
    rintro ⟨j, child, u, there, _, found, member, inStack, rfl⟩
    rcases push_above above there with ⟨_, rfl⟩
    have same : child = p := by simpa [Frame.push, index] using found.symm
    subst same
    exact marked u member inStack
  prototypes q member := by
    rcases Array.mem_push.mp member with old | rfl
    · exact .inl old
    · exact .inr lowered

end Frame.Extends

end LuaBytecode
