import LuaBytecode.Proofs.Monitor.Tree

namespace LuaBytecode

open Lowering

namespace Frame

def isOrderly (f : Frame) : Bool :=
  f.live.reverse.map (·.register) = List.range f.live.length && (f.live.reverse.map (·.record)).Pairwise (· < ·) &&
    f.used = f.live.length && f.used ≤ f.peak

def isTop (f : Frame) (a : Nat) : Bool := f.used = a + 1 && f.live.all (·.register < a)

end Frame

namespace Lowering

/-- Registers are a stack: an expression goes into the last register in use and leaves no other one in use, between
    statements only variables are in registers, and arguments and fields come behind the function or the table. -/
def stackDiscipline : Monitor where
  exp _ emit a n := do
    ensure (·.frame.isTop a)
    emit a n
    ensure (·.frame.isTop a)
  stat _ m := do
    ensure (·.frame.isOrderly)
    m
    ensure (·.frame.isOrderly)
  slot expected actual := ensure fun _ => expected = actual

end Lowering

theorem Lowering.Ordered.isOrderly {s : Lowering} (ordered : s.Ordered True) : s.frame.isOrderly = true := by
  have stack := ordered.stack trivial
  rw [Frame.isOrderly, Bool.and_eq_true, Bool.and_eq_true, Bool.and_eq_true]
  exact ⟨⟨⟨decide_eq_true stack.registers, decide_eq_true stack.layered.records⟩,
    decide_eq_true (ordered.balanced trivial)⟩, decide_eq_true ordered.room⟩

theorem Lowering.Stacked.isTop {s : Lowering} {a : Nat} (stacked : s.Stacked a) (used : s.frame.used = a + 1) :
    s.frame.isTop a = true := by
  rw [Frame.isTop, Bool.and_eq_true, List.all_eq_true]
  exact ⟨decide_eq_true used, fun b member => decide_eq_true (stacked.layered.inside b member).2.2⟩

theorem stackDiscipline_passes : stackDiscipline.Passes True where
  slot r a s place := if_pos (decide_eq_true (place trivial))
  exp e emit a n s stacked used fills := by
    refine ensure_around (stacked.isTop used) fun t run => ?_
    obtain ⟨retains, leaks⟩ := fills t run
    exact (retains.stacked stacked).isTop (leaks.eq trivial)
  stat kind m s ordered proceeds :=
    ensure_around ordered.isOrderly fun t run => (proceeds t run).2.ordered.isOrderly
  finish _ _ := rfl

/-- Where every key of a table has a value, registers are a stack throughout: lowering that stops where they are not
    never stops. -/
theorem Block.compile_stack_discipline {block : Block} {name : String} {p : Prototype}
    (paired : Block.Paired (fun _ => True) block) (compiled : block.compile name = .ok p) :
    block.compileMonitored stackDiscipline name = .ok p :=
  stackDiscipline_passes.compile (fun _ => paired) compiled

theorem Block.compile_stack_discipline_of_calls :
    ∃ block p, block = [.mk 1 (.localDecl ["f", "x"] [.vararg]), .mk 2 (.whileDo (.name "x")
        [.mk 3 (.localFunction "g" ["y"] true [.mk 4 (.ret [.call (.name "f")
          [.binop .concat (.name "x") (.name "y"), .table [none, none] [.name "x", .vararg]] false])])])] ∧
      Block.Paired (fun _ => True) block ∧ Block.compile block "calls" = .ok p ∧
      Block.compileMonitored stackDiscipline block "calls" = .ok p := by
  refine Block.exists_compiled "calls" (by decide +kernel) fun p compiled => ?_
  refine ⟨?paired, compiled, Block.compile_stack_discipline ?paired compiled⟩
  simp [Block.Paired, StatKind.Paired, Exp.AllPaired, Exp.Paired, Exp.KeysPaired, Exp.Paired?]

/-- A table with more keys than values leaves a register in use, and what comes next is put behind it. -/
theorem Block.compile_leaks_register :
    ∃ block p, block = [.mk 1 (.localDecl ["f"] []), .mk 2 (.call (.name "f")
        [.table [some .vararg, none, none] [.vararg, .vararg], .vararg] false), .mk 3 (.localDecl ["x"] [])] ∧
      Block.compile block "t" = .ok p ∧ Block.compileMonitored stackDiscipline block "t" ≠ .ok p := by
  exact Block.exists_compiled "t" (by decide +kernel) fun p compiled => ⟨compiled, ne_ok (by decide +kernel) p⟩

end LuaBytecode
