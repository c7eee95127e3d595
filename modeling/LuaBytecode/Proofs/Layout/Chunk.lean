import LuaBytecode.Proofs.Layout.Parser
import LuaBytecode.Proofs.Summary.Lowering
import LuaBytecode.Proofs.Regular.Program

namespace LuaBytecode

variable {s : TokenStream} {source : String} {ts : List Token} {P : List String → Prop} {block : Block}

theorem Block.parse_bare (ends : s.Ends) :
    SameOutcome (fun block block' => Block.atLine 0 block = block') (Block.parse s) (Block.parse s.bare) := by
  have fuel : Parser.fuelFor s.bare = Parser.fuelFor s := by rw [Parser.fuelFor, TokenStream.bare, List.length_map]; rfl
  unfold Block.parse
  rw [fuel]
  have body : SameOutcome _ (Parser.block _ [] s) (Parser.block _ [] s.bare) :=
    (Parser.agreement (Parser.fuelFor s)).block [] ends
  generalize Parser.block (Parser.fuelFor s) [] s = r, Parser.block (Parser.fuelFor s) [] s.bare = r' at body
  cases body with
  | error same => exact .error same
  | @ok b _ both =>
    obtain ⟨rfl, ends'⟩ := both
    have done : Parser.Steady (pure () : Parser Unit) := .pure rfl
    have last : SameOutcome _ ((Parser.expect .eof b.2).bind fun r => .ok ((), r.2))
      ((Parser.expect .eof b.2.bare).bind fun r => .ok ((), r.2)) := Parser.expect_then done ends'
    simp only [Bind.bind, Except.bind] at last ⊢
    generalize Parser.expect .eof b.2 = r, Parser.expect .eof b.2.bare = r' at last ⊢
    cases r <;> cases r' <;> cases last
    · rename_i same
      exact .error same
    · exact .ok rfl

theorem Block.parse_agrees {s' : TokenStream} (alike : s.Alike s') :
    SameOutcome (fun block block' => Block.atLine 0 block = Block.atLine 0 block') (Block.parse s) (Block.parse s') := by
  have first := Block.parse_bare alike.ends
  have second := Block.parse_bare alike.ends'
  rw [alike.bare] at first
  generalize Block.parse s = r, Block.parse s' = r', Block.parse s'.bare = r'' at first second
  cases first with
  | ok same =>
    cases second with
    | ok same' => exact .ok (same.trans same'.symm)
  | error same =>
    cases second with
    | error same' => exact .error (same.trans same'.symm)

theorem Chunk.tokens_ok (read : Chunk.tokens source = .ok ts) :
    (TokenStream.ofSource source).tokens = ts ∧ ∃ line, (TokenStream.ofSource source).ending = .ok line := by
  unfold Chunk.tokens TokenStream.toExcept at read
  split at read
  · rename_i line ending
    cases read
    exact ⟨rfl, line, ending⟩
  · cases read

theorem TokenStream.alike_of_tokens {source' : String} {ts' : List Token} (read : Chunk.tokens source = .ok ts)
    (read' : Chunk.tokens source' = .ok ts')
    (same : ts.map (fun t => (t.kind, t.text)) = ts'.map (fun t => (t.kind, t.text))) :
    (TokenStream.ofSource source).Alike (TokenStream.ofSource source') := by
  obtain ⟨rfl, ending⟩ := Chunk.tokens_ok read
  obtain ⟨rfl, ending'⟩ := Chunk.tokens_ok read'
  refine ⟨ending, ending', ?_⟩
  have bare : ∀ ts : List Token, ts.map (fun t => (⟨t.kind, 0, some t.text⟩ : Token)) =
      (ts.map fun t => (t.kind, t.text)).map fun r => ⟨r.1, 0, some r.2⟩ := fun ts => by rw [List.map_map]; rfl
  rw [TokenStream.bare, TokenStream.bare, bare, bare, same]

theorem Block.compile_atLine (paired : Block.Paired P block) (name : String) :
    Block.compile (Block.atLine 0 block) name = (Block.compile block name).mapError CodeError.unlined := by
  unfold Block.compile
  rw [ofChunk_eq]
  have parallel := emitChunk_matches paired Lowering.chunkStart
  cases run : Lowering.emitChunk (Block.code block) Lowering.chunkStart with
  | ok v t =>
    obtain ⟨run', _⟩ := parallel.of_ok run
    simp only [bind, Except.bind, run]
    rw [show Lowering.emitChunk (Block.code (Block.atLine 0 block)) Lowering.chunkStart = _ from run']
    rfl
  | error e t =>
    obtain ⟨⟨_, run'⟩, _⟩ := parallel.of_error run
    simp only [bind, Except.bind, run]
    rw [show Lowering.emitChunk (Block.code (Block.atLine 0 block)) Lowering.chunkStart = _ from run']
    rfl

theorem Block.compile_agrees {block' : Block} (paired : Block.Paired P block) (paired' : Block.Paired P block')
    (same : Block.atLine 0 block = Block.atLine 0 block') (name : String) :
    SameOutcome Eq ((block.compile name).mapError .code) ((block'.compile name).mapError .code) := by
  have erased : (block.compile name).mapError CodeError.unlined = (block'.compile name).mapError CodeError.unlined := by
    rw [← Block.compile_atLine paired, ← Block.compile_atLine paired', same]
  cases first : block.compile name with
  | ok p =>
    cases second : block'.compile name with
    | ok p' =>
      rw [first, second] at erased
      cases erased
      exact .ok rfl
    | error e' =>
      rw [first, second] at erased
      cases erased
  | error e =>
    cases second : block'.compile name with
    | ok p' =>
      rw [first, second] at erased
      cases erased
    | error e' =>
      rw [first, second] at erased
      exact .error (congrArg CompileError.code (Except.error.inj erased))

namespace Chunk

/-- Only the kinds and texts of tokens matter, not how they are laid out: sources that agree in them are read as the
    same tree but for its lines, and compile to the same prototype, or fail with errors of the same kind. A source with
    text that is no token is not read. -/
theorem compile_ignores_layout (source source' : String) :
    (∀ ts ts', tokens source = .ok ts → tokens source' = .ok ts' →
      ts.map (fun t => (t.kind, t.text)) = ts'.map (fun t => (t.kind, t.text)) →
      SameOutcome (fun block block' => Block.atLine 0 block = Block.atLine 0 block') (parse source) (parse source') ∧
        ∀ name, SameOutcome Eq (compile source name) (compile source' name)) ∧
      ∀ e, tokens source = .error e → ∃ e', parse source = .error e' := by
  constructor
  · intro ts ts' read read' same
    have trees := Block.parse_agrees (TokenStream.alike_of_tokens read read' same)
    refine ⟨trees, fun name => ?_⟩
    unfold compile parse
    generalize parsed : Block.parse (.ofSource source) = r, parsed' : Block.parse (.ofSource source') = r' at trees
    cases trees with
    | error kind => exact .error kind
    | @ok block block' same =>
      have paired := (parse_grammatical parsed).paired
      have paired' := (parse_grammatical parsed').paired
      exact Block.compile_agrees paired paired' same name
  · intro e fails
    cases parsed : parse source with
    | error e' => exact ⟨e', rfl⟩
    | ok block =>
      obtain ⟨⟨line, ending⟩, _⟩ := Block.parse_spelt (TokenStream.ofSource_kind source) parsed
      rw [tokens, TokenStream.toExcept, ending] at fails
      cases fails

theorem compile_ignores_layout_of_comments :
    ∃ ts ts', tokens "local s = 'ab' return f(s, 0x10)" = .ok ts ∧
      tokens "local s--[[ text ]] = [[ab]]\nreturn f -- call\n  ( s,0x10 )" = .ok ts' ∧
      ts.map (fun t => (t.kind, t.text)) = ts'.map (fun t => (t.kind, t.text)) ∧ ts.map (·.line) ≠ ts'.map (·.line) ∧
      SameOutcome Eq (compile "local s = 'ab' return f(s, 0x10)" "t")
        (compile "local s--[[ text ]] = [[ab]]\nreturn f -- call\n  ( s,0x10 )" "t") := by
  have checked : (tokens "local s = 'ab' return f(s, 0x10)").toOption.any (fun ts =>
      (tokens "local s--[[ text ]] = [[ab]]\nreturn f -- call\n  ( s,0x10 )").toOption.any fun ts' =>
        decide (ts.map (fun t => (t.kind, t.text)) = ts'.map (fun t => (t.kind, t.text)) ∧
          ts.map (·.line) ≠ ts'.map (·.line))) = true := by
    decide +kernel
  obtain ⟨ts, read, checked⟩ := exists_ok _ checked fun _ _ => id
  obtain ⟨ts', read', checked⟩ := exists_ok _ checked fun _ _ => id
  obtain ⟨same, lines⟩ := of_decide_eq_true checked
  exact ⟨ts, ts', read, read', same, lines, ((compile_ignores_layout _ _).1 ts ts' read read' same).2 "t"⟩

end Chunk

end LuaBytecode
