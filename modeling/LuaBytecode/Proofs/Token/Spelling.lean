import LuaBytecode.Chunk
import LuaBytecode.Proofs.Token.Numeral

namespace LuaBytecode

namespace Token

theorem lexes_numeral {x : String} (h : IsNumeral (utf8 x)) : Lexes ⟨.number, 1, some x⟩ := by
  have written : utf8 (written ⟨.number, 1, some x⟩) = utf8 x := rfl
  obtain ⟨b, tail, bytes⟩ := List.exists_cons_of_ne_nil (l := utf8 x) fun empty => by
    have starts := h.startsNumeral []
    rw [empty] at starts
    cases starts
  have visible : Byte.isBlank b = false := by
    have starts := h.startsNumeral []
    rw [bytes] at starts
    simp only [NumeralWord.startsNumeral, Bool.or_eq_true, Bool.and_eq_true, beq_iff_eq, List.cons_append] at starts
    obtain digit | ⟨rfl, -⟩ := starts
    · exact (Byte.classes b).name (by simp [Byte.isName, digit])
    · decide
  refine ⟨by simp, ⟨b, tail, written.trans bytes, visible, h.second_ne bytes⟩, fun {rest} gap => ?_⟩
  obtain ⟨text, left, wellFormed⟩ := h.read gap
  have starts := h.startsNumeral rest
  rw [written]
  rw [bytes, List.cons_append] at starts text left wellFormed ⊢
  simp only [Cursor.lexeme, starts, if_true, Cursor.numeral, wellFormed, text, left]
  rw [← bytes, ofAscii_utf8 h.ascii]

inductive Spellable : Token → Prop
  | kind {k : TokenKind} (line : Nat) : k ∈ TokenKind.symbols ++ TokenKind.keywords →
    Spellable ⟨k, line, some k.spelling⟩
  | name {x : String} (line : Nat) : IsIdentifier x → Spellable ⟨.identifier, line, some x⟩
  | numeral {x : String} (line : Nat) : IsNumeral (utf8 x) → Spellable ⟨.number, line, some x⟩
  | string (line : Nat) (contents : String) : Spellable ⟨.string, line, some contents⟩

theorem Spellable.lexes {t : Token} (h : Spellable t) : Lexes { t with line := 1 } := by
  cases h with
  | kind line listed => exact lexes_kind listed
  | name line identifier => exact lexes_name identifier
  | numeral line numeral => exact lexes_numeral numeral
  | string line contents => exact lexes_string contents

theorem spaced_map_line (ts : List Token) (line : Nat) : spaced (ts.map ({ · with line := line })) = spaced ts := by
  fun_induction spaced ts with
  | case1 => rfl
  | case2 t => rfl
  | case3 t rest more ih =>
    obtain ⟨next, rest, rfl⟩ := List.exists_cons_of_ne_nil more
    rw [← ih]
    rfl

end Token

/-- Tokens that are written with one space between them are read back with the same kinds and texts, on the first
    line. -/
theorem Chunk.tokens_spaced {ts : List Token} (h : ∀ t ∈ ts, t.Spellable) :
    Chunk.tokens (Token.spaced ts) = .ok (ts.map ({ · with line := 1 })) := by
  have lexes : ∀ t ∈ ts.map ({ · with line := 1 } : Token → Token), t.Lexes := by
    intro t member
    obtain ⟨t, listed, rfl⟩ := List.mem_map.mp member
    exact (h t listed).lexes
  rw [Chunk.tokens, ← Token.spaced_map_line ts 1, Token.ofSource_spaced lexes]
  rfl

theorem Chunk.tokens_spaced_of_points :
    Token.spaced [⟨.vararg, 1, some "..."⟩, ⟨.dotDot, 2, some ".."⟩, ⟨.dot, 3, some "."⟩, ⟨.number, 4, some ".5"⟩,
      ⟨.lbracket, 5, some "["⟩, ⟨.lbracket, 6, some "["⟩, ⟨.minus, 7, some "-"⟩, ⟨.minus, 8, some "-"⟩,
      ⟨.number, 9, some "0xA.p-3"⟩, ⟨.string, 10, some "é\n"⟩] = "... .. . .5 [ [ - - 0xA.p-3 \"\\195\\169\\010\"" ∧
    Chunk.tokens "... .. . .5 [ [ - - 0xA.p-3 \"\\195\\169\\010\"" =
      .ok [⟨.vararg, 1, some "..."⟩, ⟨.dotDot, 1, some ".."⟩, ⟨.dot, 1, some "."⟩, ⟨.number, 1, some ".5"⟩,
        ⟨.lbracket, 1, some "["⟩, ⟨.lbracket, 1, some "["⟩, ⟨.minus, 1, some "-"⟩, ⟨.minus, 1, some "-"⟩,
        ⟨.number, 1, some "0xA.p-3"⟩, ⟨.string, 1, some "é\n"⟩] := by
  have fraction : IsNumeral [46, 53] :=
    @IsNumeral.decimal [46, 53] []
      (@Numeral.IsMantissa.point Byte.isDigit [] [53] (by decide +kernel) (by decide +kernel)) .none
  have hexadecimal : IsNumeral [48, 120, 65, 46, 112, 45, 51] :=
    @IsNumeral.hexadecimal 120 [65, 46] [112, 45, 51] (by decide +kernel)
      (@Numeral.IsMantissa.point Byte.isHexDigit [65] [] (by decide +kernel) (by decide +kernel))
      (@Numeral.IsExponent.power true 112 [45] [51] (by decide +kernel) (by decide +kernel) (by decide +kernel)
        (by decide +kernel))
  have both : ∀ {p q : Prop}, p → (p → q) → p ∧ q := fun first second => ⟨first, second first⟩
  refine both (by decide +kernel) fun spelt => ?_
  rw [← spelt]
  refine Chunk.tokens_spaced ?_
  simp only [List.mem_cons, List.not_mem_nil, or_false, forall_eq_or_imp, forall_eq]
  exact ⟨.kind (k := .vararg) 1 (by decide), .kind (k := .dotDot) 2 (by decide), .kind (k := .dot) 3 (by decide),
    .numeral 4 fraction, .kind (k := .lbracket) 5 (by decide), .kind (k := .lbracket) 6 (by decide),
    .kind (k := .minus) 7 (by decide), .kind (k := .minus) 8 (by decide), .numeral 9 hexadecimal, .string 10 _⟩

end LuaBytecode
