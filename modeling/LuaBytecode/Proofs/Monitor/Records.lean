import LuaBytecode.Proofs.Monitor.Tree

namespace LuaBytecode

open Lowering

def Lowering.finishing (P : Frame → Prop) [DecidablePred P] : Monitor where
  exp _ emit := emit
  stat _ m := m
  slot _ _ := pure ()
  finish := ensure (P ·.frame)

theorem finishing_passes {tight : Prop} {P : Frame → Prop} [DecidablePred P]
    (allows : ∀ f : Frame, f.OrdersRegisters → (tight → f.TellsRegisters) → P f) : (finishing P).Passes tight where
  slot _ _ _ _ := rfl
  exp _ _ _ _ _ _ _ _ := .refl _
  stat _ _ _ _ _ := .refl _
  finish s records := if_pos (decide_eq_true (allows s.frame records.1 records.2))

namespace Lowering

def hasRecords (s : Lowering) : Bool := s.frame.HasRecords ∧ ∀ f ∈ s.enclosing, f.HasRecords

/-- Whenever an expression or a statement begins or ends, each variable in scope has its record, in the function that is
    lowered and in those around it. -/
def recordKeeping : Monitor where
  exp _ emit a n := do
    ensure hasRecords
    emit a n
    ensure hasRecords
  stat _ m := do
    ensure hasRecords
    m
    ensure hasRecords
  slot _ _ := pure ()

end Lowering

theorem recordKeeping_passes : recordKeeping.Passes False where
  slot _ _ _ _ := rfl
  exp _ _ _ _ _ stacked _ fills := ensure_around (decide_eq_true stacked.records) fun t run =>
    decide_eq_true ((fills t run).1.stacked stacked).records
  stat _ _ _ ordered proceeds := ensure_around (decide_eq_true ordered.stacked.records) fun t run =>
    decide_eq_true (proceeds t run).2.ordered.stacked.records
  finish _ _ := rfl

/-- The records of every function order registers, and where every key of a table has a value, they tell them:
    lowering that stops at a function whose records do not never stops. -/
theorem Block.compile_tells_registers {block : Block} {name : String} {p : Prototype}
    (compiled : block.compile name = .ok p) :
    block.compileMonitored (finishing Frame.OrdersRegisters) name = .ok p ∧
      (Block.Paired (fun _ => True) block → block.compileMonitored (finishing Frame.TellsRegisters) name = .ok p) := by
  have always : (finishing Frame.OrdersRegisters).Passes False := finishing_passes fun _ orders _ => orders
  have stacked : (finishing Frame.TellsRegisters).Passes True := finishing_passes fun _ _ tells => tells trivial
  exact ⟨always.compile False.elim compiled, fun paired => stacked.compile (fun _ => paired) compiled⟩

theorem Block.compile_tells_registers_of_loops :
    ∃ block p, block = [
        .mk 1 (.localFunction "f" ["n", "n"] true [
          .mk 2 (.numericFor "i" (.name "n") .vararg (some .nil) [
            .mk 3 (.localDecl ["x", "y"] [.vararg]),
            .mk 4 (.localFunction "g" [] false [.mk 5 (.ret [.name "g", .name "x"])])])]),
        .mk 6 (.genericFor ["k", "v"] [.call (.name "f") [.table [none, some (.name "f")] [.nil, .vararg]] false] [
          .mk 7 (.doBlock [.mk 8 (.localDecl ["k"] [.name "k"])]),
          .mk 9 .breakLoop])] ∧
      Block.Paired (fun _ => True) block ∧ Block.compile block "loops" = .ok p ∧
      Block.compileMonitored (finishing Frame.OrdersRegisters) block "loops" = .ok p ∧
      Block.compileMonitored (finishing Frame.TellsRegisters) block "loops" = .ok p := by
  refine Block.exists_compiled "loops" (by decide +kernel) fun p compiled => ?_
  obtain ⟨orders, tells⟩ := Block.compile_tells_registers compiled
  refine ⟨?paired, compiled, orders, tells ?paired⟩
  simp [Block.Paired, StatKind.Paired, Exp.AllPaired, Exp.Paired, Exp.KeysPaired, Exp.Paired?]

/-- A table with more keys than values leaves a register in use, which the records do not show. -/
theorem Block.compile_misses_register :
    ∃ block p, block = [.mk 1 (.localDecl ["f"] []), .mk 2 (.call (.name "f")
        [.table [some .vararg, none, none] [.vararg, .vararg], .vararg] false), .mk 3 (.localDecl ["x"] []),
        .mk 4 (.localDecl ["y"] [])] ∧
      Block.compile block "t" = .ok p ∧
      Block.compileMonitored (finishing Frame.TellsRegisters) block "t" ≠ .ok p := by
  exact Block.exists_compiled "t" (by decide +kernel) fun p compiled => ⟨compiled, ne_ok (by decide +kernel) p⟩

end LuaBytecode
