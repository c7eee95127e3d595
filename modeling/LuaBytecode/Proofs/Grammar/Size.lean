import LuaBytecode.Proofs.Ast.Nodes
import LuaBytecode.Proofs.Grammar.Complete
import LuaBytecode.Proofs.Grammar.Shape
import LuaBytecode.Proofs.Token.Spaced

namespace LuaBytecode

/-- How many expressions `n` tokens can spell, where the receiver of a method call counts once. Where a repetition builds
    on what stands before it, that has been counted already. -/
def Phrase.Fits (n : Nat) : Phrase → Prop
  | .exp _ e | .simpleExp e | .primaryExp e | .table e => (e.nodes false).length + 1 ≤ 2 * n
  | .operators _ head e | .suffixes head e | .fieldNames head e =>
    (e.nodes false).length ≤ (head.nodes false).length + 2 * n
  | .args exps | .expList exps => (Exp.nodesOf false exps).length + 1 ≤ 2 * n
  | .moreExps exps | .moreTargets exps => (Exp.nodesOf false exps).length ≤ 2 * n
  | .fields keys values => (Exp.keyNodes false keys).length + (Exp.nodesOf false values).length ≤ 2 * n
  | .field key value => (Exp.nodes? false key).length + (value.nodes false).length ≤ 2 * n
  | .moreNames _ | .params _ _ => True
  | .funcBody _ _ body | .block body => (Block.nodes false body).length ≤ 2 * n
  | .returnStat s | .stat s => (s.kind.nodes false).length ≤ 2 * n
  | .moreArms guards blocks => (Exp.nodesOf false guards).length + (Block.nodesOf false blocks).length ≤ 2 * n

theorem Exp.parts_ofNumber (n : Number) (copies : Bool) : (Exp.ofNumber n).parts copies = [] := by
  cases n <;> rw [Exp.ofNumber, Exp.parts]

theorem Derives.fits {p : Phrase} {ts : List Token} {next : TokenKind} (h : Derives p ts next) : p.Fits ts.length := by
  induction h <;> simp only [Phrase.Fits, Exp.nodes, Exp.parts, Exp.parts_ofNumber, Exp.nodesOf, Exp.nodes?, Exp.keyNodes,
    Exp.argNodes_skip, Exp.argNodes_keep, Block.nodes_cons, Block.nodes, Block.nodesOf, Stat.kind_mk, StatKind.nodes,
    Bool.not_false, Bool.and_true, List.length_cons, List.length_append, List.length_nil] at * <;> omega

/-- Where the receiver of a method call counts once, a source has at most twice as many expressions as tokens. Counted as
    they are stored there are more by a power of two, if method calls are in the receivers of others. -/
theorem Chunk.parse_nodes {source : String} {block : Block} (parsed : Chunk.parse source = .ok block) :
    ∃ ts, Chunk.tokens source = .ok ts ∧ (Block.nodes false block).length ≤ 2 * ts.length ∧
      (Block.nodes true block).length ≤ 2 ^ Block.receiverDepth block * (Block.nodes false block).length := by
  obtain ⟨⟨line, ending⟩, spelt⟩ := Block.parse_spelt (TokenStream.ofSource_kind source) parsed
  refine ⟨(TokenStream.ofSource source).tokens, ?_, spelt.fits, ?_⟩
  · rw [Chunk.tokens, TokenStream.toExcept, ending]
  · exact (Chunk.parse_grammatical parsed).doubled Nat.le.refl

theorem Chunk.parse_nodes_of_methods :
    ∃ block ts, Chunk.parse "a:b(1):c\x7bx\x7d.d = function(x) return x:y(#x:z()).z end" = .ok block ∧
      Block.receiverDepth block = 2 ∧
      Chunk.tokens "a:b(1):c\x7bx\x7d.d = function(x) return x:y(#x:z()).z end" = .ok ts ∧
      (Block.nodes false block).length ≤ 2 * ts.length ∧
      (Block.nodes true block).length ≤ 2 ^ 2 * (Block.nodes false block).length := by
  simp only [exists_and_left]
  refine exists_ok (fun block => decide (Block.receiverDepth block = 2)) (by decide +kernel) fun block parsed checked => ?_
  have deep : Block.receiverDepth block = 2 := of_decide_eq_true checked
  obtain ⟨ts, tokens, written, stored⟩ := Chunk.parse_nodes parsed
  rw [deep] at stored
  exact ⟨deep, ts, tokens, written, stored⟩

def Exp.methodChain : Nat → Exp
  | 0 => .name "a"
  | n + 1 => .call (.index (methodChain n) (.string "m")) [methodChain n] true

namespace Token

def methodCalls : Nat → List Token
  | 0 => []
  | n + 1 => .ofKind .colon :: .ofName "m" :: .ofKind .lparen :: .ofKind .rparen :: methodCalls n

def methodChain (n : Nat) : List Token := .ofKind .kwReturn :: .ofName "a" :: methodCalls n

theorem length_methodCalls (n : Nat) : (methodCalls n).length = 4 * n := by
  induction n with
  | zero => rfl
  | succ n ih =>
    simp only [methodCalls, List.length_cons, ih]
    omega

theorem derives_methodCalls (k n : Nat) :
    Derives (.suffixes (.methodChain k) (.methodChain (k + n))) (methodCalls n) .eof := by
  induction n generalizing k with
  | zero => exact .head rfl
  | succ n ih =>
    have rest := ih (k + 1)
    rw [Nat.add_right_comm] at rest
    exact .method rfl rfl (.noArgs rfl rfl) rest

theorem derives_methodChain (n : Nat) :
    Derives (.block [.mk 1 (.ret [.methodChain n])]) (methodChain n) .eof := by
  have calls := derives_methodCalls 0 n
  rw [Nat.zero_add] at calls
  have chain : Derives (.primaryExp (.methodChain n)) (.ofName "a" :: methodCalls n) .eof := .name rfl calls
  have exp : Derives (.exp 0 (.methodChain n)) ((.ofName "a" :: methodCalls n) ++ []) .eof :=
    .simple (.primary chain) (.operand (by decide))
  have exps : Derives (.expList [.methodChain n]) (((.ofName "a" :: methodCalls n) ++ []) ++ []) .eof :=
    .expList exp (.lastExp (by decide))
  rw [List.append_nil, List.append_nil] at exps
  exact .blockReturn (.retExps (r := .ofKind .kwReturn) rfl exps (by decide))

theorem lexes_methodChain (n : Nat) : ∀ t ∈ methodChain n, Lexes t := by
  have calls : ∀ t ∈ methodCalls n, Lexes t := by
    induction n with
    | zero => exact fun _ member => absurd member List.not_mem_nil
    | succ n ih =>
      simp only [methodCalls, List.forall_mem_cons]
      exact ⟨lexes_kind (by decide), lexes_name ⟨109, [], by decide, by simp, rfl, by decide⟩, lexes_kind (by decide),
        lexes_kind (by decide), ih⟩
  simp only [methodChain, List.forall_mem_cons]
  exact ⟨lexes_kind (by decide), lexes_name ⟨97, [], by decide, by simp, rfl, by decide⟩, calls⟩

end Token

namespace Exp

theorem length_nodes_methodChain (n : Nat) : ((methodChain n).nodes true).length + 3 = 2 ^ (n + 2) := by
  induction n with
  | zero => rfl
  | succ n ih =>
    rw [Nat.add_right_comm, Nat.pow_succ]
    simp only [nodes, methodChain, parts, Bool.not_true, Bool.and_false, argNodes_keep, nodesOf, List.length_cons,
      List.length_append, List.length_nil] at ih ⊢
    omega

end Exp

theorem Chunk.parse_methodChain (n : Nat) :
    Chunk.tokens (Token.spaced (Token.methodChain n)) = .ok (Token.methodChain n) ∧
      Chunk.parse (Token.spaced (Token.methodChain n)) = .ok [.mk 1 (.ret [.methodChain n])] ∧
      (Token.methodChain n).length = 4 * n + 2 ∧
      (Block.nodes true [.mk 1 (.ret [.methodChain n])]).length + 3 = 2 ^ (n + 2) := by
  have source := Token.ofSource_spaced (Token.lexes_methodChain n)
  refine ⟨?_, ?_, ?_, ?_⟩
  · rw [Chunk.tokens, source]
    rfl
  · rw [Chunk.parse, source]
    exact Block.parse_of_derives (Token.derives_methodChain n)
  · simp only [Token.methodChain, List.length_cons, Token.length_methodCalls]
  · have nodes := Exp.length_nodes_methodChain n
    rw [Exp.nodes] at nodes
    simpa only [Block.nodes, StatKind.nodes, Exp.nodesOf, List.append_nil] using nodes

theorem Chunk.parse_copies_receivers :
    ∃ block ts, Chunk.parse "return a : m ( ) : m ( ) : m ( )" = .ok block ∧
      Chunk.tokens "return a : m ( ) : m ( ) : m ( )" = .ok ts ∧ 2 * ts.length < (Block.nodes true block).length := by
  obtain ⟨tokens, parsed, short, long⟩ := Chunk.parse_methodChain 3
  have text : Token.spaced (Token.methodChain 3) = "return a : m ( ) : m ( ) : m ( )" := by decide +kernel
  rw [text] at tokens parsed
  refine ⟨_, _, parsed, tokens, ?_⟩
  rw [short]
  omega

end LuaBytecode
