import LuaBytecode.Proofs.Monitor.Tree

namespace LuaBytecode

namespace NameOrder

theorem compile_eq (E E' : NameOrder) (block : Block) (name : String) :
    @Block.compile E block name = @Block.compile E' block name := by
  have same : @Block.compileMonitored E .idle block name = @Block.compile E' block name :=
    Monitor.Passes.compile_eq (@idle_passes E') False.elim name
  exact (@Block.compileMonitored_idle E block name).symm.trans same

/-- The order in which names are gone through never shows. Where registers are used as a stack, a jump closes the same
    registers and a scope is left in the same state or with the same error, so a block has one prototype. -/
theorem never_shows (E E' : NameOrder) :
    (∀ (D : NameOrder) (f : Frame), @Frame.Reached D f →
      (∀ depth, @Frame.closeLevel E f depth = @Frame.closeLevel E' f depth) ∧
      @Frame.scopeLevel E f = @Frame.scopeLevel E' f ∧
      SameResult (@Frame.exitScope E f) (@Frame.exitScope E' f)) ∧
    ∀ (block : Block) (name : String), @Block.compile E block name = @Block.compile E' block name := by
  refine ⟨fun D f reached => ⟨fun depth => ?_, ?_, ?_⟩, compile_eq E E'⟩
  · rw [Frame.closeLevel_order E E']
  · rw [Frame.scopeLevel_order E E']
  · exact Frame.exitScope_sameResult E E' (@Frame.Reached.stacked D f reached).layered

abbrev oldestFirst : NameOrder where
  walk f := f.names.reverse
  perm _ := List.reverse_perm _

theorem never_shows_of_reverse : ∃ f : Frame, f.Reached ∧ newestFirst.walk f = ["x", "y"] ∧
    oldestFirst.walk f = ["y", "x"] ∧ @Frame.scopeLevel newestFirst f = @Frame.scopeLevel oldestFirst f ∧
    SameResult (@Frame.exitScope newestFirst f) (@Frame.exitScope oldestFirst f) := by
  have names : ((Frame.new 0 false 0).perform? [.enterScope true, .addLocal "x" 0, .capture "x", .addLocal "y" 0,
      .addLocal "x" 0, .emit (Instruction.asbx .jmp 0 0), .addBreak 0]).map (·.names) = some ["x", "y"] := by
    decide +kernel
  obtain ⟨f, run, names⟩ := Option.map_eq_some_iff.mp names
  have reached : f.Reached := ⟨0, false, 0, [], _, run⟩
  refine ⟨f, reached, names, ?_, ((never_shows newestFirst oldestFirst).1 newestFirst f reached).2⟩
  show f.names.reverse = _
  rw [names]
  rfl

end NameOrder

end LuaBytecode
