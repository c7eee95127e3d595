import LuaBytecode.Proofs.Lowering.Tree

namespace LuaBytecode

open Lowering

/-- Control leaves scopes at the next instruction of a frame. Those from a depth inwards are left. -/
structure Exit where
  frame : Frame
  depth : Nat

variable {e : Exit} {s : Lowering} {bodies : List Block} {skip? : Option Nat}

namespace Exit

def ofScope (f : Frame) : Exit := ⟨f, f.depth⟩

def ofLoop (f : Frame) : Exit := ⟨f, f.loopDepth⟩

/-- The variable is left, and a function that was made earlier and could refer to it does so. -/
def Captured (e : Exit) (code : Array Instruction) (functions : List Prototype) (b : Binding) : Prop :=
  b ∈ e.frame.live ∧ e.depth ≤ b.depth ∧
    ∃ pc < e.frame.pc, Captures code functions pc b.register ∧
      ∀ v ∈ e.frame.locals[b.record]?, ∀ i ∈ e.frame.code[pc]?, v.SeenAt pc i.a b.register

def Closes (e : Exit) (code : Array Instruction) (functions : List Prototype) : Prop :=
  ∀ b, e.Captured code functions b →
    ∃ j, code[e.frame.pc]? = some j ∧ j.opcode? = some .jmp ∧ j.a ≠ 0 ∧ j.a - 1 ≤ b.register

/-- A jump of this level closes no variable that stays, nor those that a loop itself needs to go on. -/
def Spares (e : Exit) (level : Nat) : Prop :=
  ∀ b ∈ e.frame.live, b.depth < e.depth ∨ b.depth = e.depth ∧ Frame.isHidden b.name = true → b.register < level - 1

theorem Spares.min {a b : Nat} (ha : e.Spares a) (hb : e.Spares b) : e.Spares (min a b) := by
  intro c member stays
  have := ha c member stays
  have := hb c member stays
  omega

end Exit

def Block.Falls (body : Block) (t : Lowering) (e : Exit) : Prop :=
  ∃ u, Block.code body t = .ok () u ∧ e = .ofScope u.frame

def Block.Repeats (body : Block) (guard : ExpCode) (t : Lowering) (e : Exit) : Prop :=
  ∃ u v, Block.code body t = .ok () u ∧ repeatTest guard u = .ok () v ∧
    (e = .ofScope v.frame ∨ ∃ pc w,
      Frame.emitJmp v.frame.scopeLevel (Frame.jumpOffset v.frame.pc t.frame.pc) v.frame = .ok pc w ∧ e = .ofScope w)

/-- The places where control leaves the scopes that a statement opens, or a loop by a `break`. -/
def StatKind.Leaves : StatKind → Lowering → Exit → Prop
  | .breakLoop, s, e => e = .ofLoop s.frame
  | .repeatUntil body guard, s, e => Block.Repeats body guard.code (s.enter true) e
  | kind, s, e => ∃ body t, kind.Opens s body t ∧ Block.Falls body t e

def Block.Exits (block : Block) (s : Lowering) (e : Exit) : Prop :=
  ∃ kind t, Block.Visits block s kind t ∧ kind.Leaves t e

def StatKind.Exits (kind : StatKind) (s : Lowering) (e : Exit) : Prop :=
  kind.Leaves s e ∨ ∃ body t, kind.Opens s body t ∧ Block.Exits body t e

def Block.ArmExits (guards : List Exp) (bodies : List Block) (skip? : Option Nat) (s : Lowering) (e : Exit) : Prop :=
  ∃ body t, Block.ArmOpens guards bodies skip? s body t ∧ (Block.Exits body t e ∨ Block.Falls body t e)

theorem Block.not_exits_nil : ¬Block.Exits [] s e := fun ⟨_, _, visits, _⟩ => nomatch visits

theorem Block.exits_cons_iff {line : Nat} {kind : StatKind} {rest : Block} : Block.Exits (.mk line kind :: rest) s e ↔
      kind.Exits (s.atLine line) e ∨ ∃ t, kind.code (s.atLine line) = .ok () t ∧ Block.Exits rest t e := by
  constructor
  · rintro ⟨visited, t, visits, leaves⟩
    cases visits with
    | here => exact .inl (.inl leaves)
    | later run later => exact .inr ⟨_, run, visited, t, later, leaves⟩
    | inside opens inner => exact .inl (.inr ⟨_, _, opens, visited, t, inner, leaves⟩)
  · rintro ((leaves | ⟨body, t, opens, visited, u, inner, leaves⟩) | ⟨t, run, visited, u, later, leaves⟩)
    · exact ⟨kind, _, .here, leaves⟩
    · exact ⟨visited, u, .inside opens inner, leaves⟩
    · exact ⟨visited, u, .later run later, leaves⟩

theorem StatKind.exits_iff (kind : StatKind) {body : Block} {t : Lowering} (e : Exit)
    (opens : ∀ b u, kind.Opens s b u ↔ b = body ∧ u = t)
    (leaves : kind.Leaves s e = ∃ body t, kind.Opens s body t ∧ Block.Falls body t e) :
    kind.Exits s e ↔ Block.Exits body t e ∨ Block.Falls body t e := by
  rw [StatKind.Exits, leaves]
  constructor
  · rintro (⟨b, u, opened, falls⟩ | ⟨b, u, opened, exits⟩)
    · obtain ⟨rfl, rfl⟩ := (opens b u).mp opened
      exact .inr falls
    · obtain ⟨rfl, rfl⟩ := (opens b u).mp opened
      exact .inl exits
  · rintro (exits | falls)
    · exact .inr ⟨body, t, (opens body t).mpr ⟨rfl, rfl⟩, exits⟩
    · exact .inl ⟨body, t, (opens body t).mpr ⟨rfl, rfl⟩, falls⟩

theorem Block.not_armExits_nil : ¬Block.ArmExits [] bodies skip? s e := fun ⟨_, _, opens, _⟩ => opens

theorem Block.armExits_cons_iff {guard : Exp} {guards : List Exp} {body : Block} :
    Block.ArmExits (guard :: guards) (body :: bodies) skip? s e ↔
      ∃ skip?' t, armHead skip? guard.code s = .ok skip?' t ∧ ((Block.Exits body t e ∨ Block.Falls body t e) ∨
        ∃ u v leave w, Block.code body t = .ok () u ∧ scopeFoot u = .ok () v ∧ Frame.emitJmp 0 0 v.frame = .ok leave w ∧
          Block.ArmExits guards bodies skip?' ⟨w, v.enclosing⟩ e) := by
  constructor
  · rintro ⟨b, t, ⟨skip?', u, head, ⟨rfl, rfl⟩ | ⟨v, w, leave, f, lowered, foot, jump, opens⟩⟩, exits⟩
    · exact ⟨skip?', t, head, .inl exits⟩
    · exact ⟨skip?', u, head, .inr ⟨v, w, leave, f, lowered, foot, jump, b, t, opens, exits⟩⟩
  · rintro ⟨skip?', u, head, exits | ⟨v, w, leave, f, lowered, foot, jump, b, t, opens, exits⟩⟩
    · exact ⟨body, u, ⟨skip?', u, head, .inl ⟨rfl, rfl⟩⟩, exits⟩
    · exact ⟨b, t, ⟨skip?', u, head, .inr ⟨v, w, leave, f, lowered, foot, jump, opens⟩⟩, exits⟩

end LuaBytecode
