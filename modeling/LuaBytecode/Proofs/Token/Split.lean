import LuaBytecode.Proofs.Layout.Chunk
import LuaBytecode.Proofs.Token.Numeral
import LuaBytecode.Proofs.Token.Strings

namespace LuaBytecode

variable {t : Token} {c next : Cursor} {rest : List UInt8}

/-- Blanks, comments up to the end of their line and complete long comments, in front of `rest`. -/
inductive IsTrivia (rest : List UInt8) : List UInt8 → Prop
  | nil : IsTrivia rest []
  | blank {b : UInt8} {more : List UInt8} : Byte.isBlank b = true → IsTrivia rest more → IsTrivia rest (b :: more)
  | comment {text more : List UInt8} : (∀ b ∈ text, Byte.isBreak b = false) →
    (∀ level, ¬ LongBracket.opener level <+: text) → (more ++ rest).head?.all Byte.isBreak = true →
    IsTrivia rest more → IsTrivia rest (45 :: 45 :: (text ++ more))
  | longComment {level : Nat} {body bracket more : List UInt8} : LongBracket.Encloses level body bracket →
    IsTrivia rest more → IsTrivia rest (45 :: 45 :: (bracket ++ more))

namespace Token

/-- The bytes that a token stands for, in front of `rest`: symbols, words and numerals as they are, strings in quotes
    or in long brackets. -/
inductive IsLexeme (rest : List UInt8) : Token → List UInt8 → Prop
  | symbol {k : TokenKind} {line : Nat} : k ∈ TokenKind.symbols →
    (∀ other ∈ TokenKind.symbols, utf8 other.spelling <+: utf8 k.spelling ++ rest →
      (utf8 other.spelling).length ≤ (utf8 k.spelling).length) →
    IsLexeme rest ⟨k, line, some k.spelling⟩ (utf8 k.spelling)
  | keyword {k : TokenKind} {line : Nat} : k ∈ TokenKind.keywords → rest.head?.any Byte.isName = false →
    IsLexeme rest ⟨k, line, some k.spelling⟩ (utf8 k.spelling)
  | identifier {x : String} {line : Nat} : IsIdentifier x → rest.head?.any Byte.isName = false →
    IsLexeme rest ⟨.identifier, line, some x⟩ (utf8 x)
  | number {x : String} {line : Nat} : IsNumeral (utf8 x) → rest.head?.any Byte.isName = false →
    IsLexeme rest ⟨.number, line, some x⟩ (utf8 x)
  | shortString {quote : UInt8} {quoted : List UInt8} {contents : String} {line : Nat} : quote ∈ [34, 39] →
    ShortString.IsQuoted quote quoted (utf8 contents) →
    IsLexeme rest ⟨.string, line, some contents⟩ (quote :: quoted)
  | longString {level : Nat} {body bracket : List UInt8} {contents : String} {line : Nat} :
    LongBracket.Encloses level body bracket → utf8 contents = unifyBreaks (dropBreak body) →
    IsLexeme rest ⟨.string, line, some contents⟩ bracket

/-- The bytes are what the tokens stand for, in their order, with trivia in front of each and behind the last one. -/
inductive Split : List Token → List UInt8 → Prop
  | nil {trivia : List UInt8} : IsTrivia [] trivia → Split [] trivia
  | cons {t : Token} {ts : List Token} {trivia lexeme rest : List UInt8} : IsTrivia (lexeme ++ rest) trivia →
    lexeme ≠ [] → (∀ more, lexeme ++ rest ≠ 45 :: 45 :: more) → IsLexeme rest t lexeme → Split ts rest →
    Split (t :: ts) (trivia ++ (lexeme ++ rest))

end Token

theorem Token.IsLexeme.kind_ne_eof {lexeme : List UInt8} (h : t.IsLexeme rest lexeme) : t.kind ≠ .eof := by
  have real : ∀ k ∈ TokenKind.symbols ++ TokenKind.keywords, k ≠ .eof := by decide
  cases h with
  | symbol listed => exact real _ (List.mem_append_left _ listed)
  | keyword listed => exact real _ (List.mem_append_right _ listed)
  | identifier => simp
  | number => simp
  | shortString => simp
  | longString => simp

theorem IsTrivia.blanks {blanks more : List UInt8} (all : ∀ b ∈ blanks, Byte.isBlank b = true)
    (h : IsTrivia rest more) : IsTrivia rest (blanks ++ more) := by
  induction blanks with
  | nil => exact h
  | cons b blanks ih =>
    obtain ⟨blank, others⟩ := List.forall_mem_cons.mp all
    exact .blank blank (ih others)

namespace Cursor

theorem skipGap_eq_ok (h : c.skipGap = .ok () next) :
    ∃ trivia, c.rest = trivia ++ next.rest ∧ IsTrivia next.rest trivia ∧ ∀ more, next.rest ≠ 45 :: 45 :: more := by
  fun_induction skipGap c with
  | case1 c _ rest start level inside opened _ after skipped _ ih =>
    obtain ⟨blanks, front, all⟩ := skipBlanks_rest c
    obtain ⟨body, closed, ends, -⟩ := LongBracket.body_eq_ok skipped
    obtain ⟨trivia, behind, isTrivia, code⟩ := ih h
    refine ⟨_, ?_, (@IsTrivia.longComment _ level _ _ _ ⟨rfl, ends⟩ isTrivia).blanks all, code⟩
    rw [front, start, LongBracket.opener?_eq_some opened, closed, behind]
    simp
  | case2 => cases h
  | case3 c _ rest start unopened _ ih =>
    obtain ⟨blanks, front, all⟩ := skipBlanks_rest c
    obtain ⟨trivia, behind, isTrivia, code⟩ := ih h
    have split := List.takeWhile_append_dropWhile (p := fun b => !Byte.isBreak b) (l := rest)
    refine ⟨_, ?_, (@IsTrivia.comment _ (rest.takeWhile fun b => !Byte.isBreak b) _ ?_ ?_ ?_ isTrivia).blanks all, code⟩
    · rw [front, start]
      simp only [List.append_assoc, List.cons_append, ← behind, split]
    · intro b member
      simpa using List.all_eq_true.mp List.all_takeWhile b member
    · rintro level ⟨more, same⟩
      rw [← split, ← same, List.append_assoc, LongBracket.opener?_opener] at unopened
      cases unopened
    · have stop := List.head?_dropWhile_not (fun b => !Byte.isBreak b) rest
      rw [← behind]
      cases first : (rest.dropWhile fun b => !Byte.isBreak b).head? with
      | none => rfl
      | some b => simpa [first] using stop
  | case4 c _ other =>
    cases h
    obtain ⟨blanks, behind, all⟩ := skipBlanks_rest c
    refine ⟨blanks, behind, ?_, other⟩
    simpa using IsTrivia.nil.blanks all

end Cursor

theorem TokenKind.symbol?_eq_some {bytes : List UInt8} {k : TokenKind} (h : symbol? bytes = some (k, rest)) :
    k ∈ symbols ∧ bytes = utf8 k.spelling ++ rest ∧ ∀ other ∈ symbols, utf8 other.spelling <+: bytes →
      (utf8 other.spelling).length ≤ (utf8 k.spelling).length := by
  have longerFirst := symbolBytes_apart.2
  obtain ⟨before, entry, behind, listed, found, none⟩ := List.findSome?_eq_some_iff.mp h
  obtain ⟨left, taken, same⟩ := Option.map_eq_some_iff.mp found
  cases same
  have member : entry ∈ symbolBytes := by simp [listed]
  obtain ⟨k, symbol, rfl⟩ := List.mem_map.mp member
  have spelt := append_of_isPrefixOf? taken
  refine ⟨symbol, spelt.symm, ?_⟩
  rintro other known ⟨more, start⟩
  have place : (utf8 other.spelling, other) ∈ before ++ (utf8 k.spelling, k) :: behind :=
    listed ▸ List.mem_map_of_mem known
  obtain front | same | back := by simpa using place
  · have absent := none _ front
    simp only [← start, isPrefixOf?_append] at absent
    cases absent
  · simp [same.2]
  · -- Of two symbols that both start here, the one that stands first in the list is not the start of the other.
    have apart := longerFirst
    rw [listed] at apart
    have notStart := (List.pairwise_cons.mp (List.pairwise_append.mp apart).2.1).1 _ back
    refine Nat.le_of_not_lt fun longer => ?_
    have starts : utf8 k.spelling <+: utf8 other.spelling :=
      List.prefix_of_prefix_length_le ⟨_, spelt⟩ ⟨_, start⟩ (Nat.le_of_lt longer)
    rw [List.isPrefixOf_iff_prefix.mpr starts] at notStart
    cases notStart

theorem utf8_of_ofUtf8? {bytes : List UInt8} {text : String} (h : ofUtf8? bytes = some text) : utf8 text = bytes := by
  unfold ofUtf8? String.fromUTF8? at h
  split at h
  · cases h
    rfl
  · cases h

namespace Cursor

theorem name_eq_ok {b : UInt8} (start : c.rest = b :: rest) (letter : Byte.isNameStart b = true)
    (h : c.name = .ok t next) : ∃ lexeme, c.rest = lexeme ++ next.rest ∧ t.IsLexeme next.rest lexeme := by
  cases h
  have names : ∀ d ∈ c.rest.takeWhile Byte.isName, Byte.isName d = true := List.all_eq_true.mp List.all_takeWhile
  have bytes : utf8 (ofAscii (c.rest.takeWhile Byte.isName)) = c.rest.takeWhile Byte.isName :=
    utf8_ofAscii fun d member => Token.name_ascii d (names d member)
  have stop : (c.rest.dropWhile Byte.isName).head?.any Byte.isName = false := by
    have behind := List.head?_dropWhile_not Byte.isName c.rest
    cases first : (c.rest.dropWhile Byte.isName).head? with
    | none => rfl
    | some d => simpa [first] using behind
  have split : c.rest = utf8 (ofAscii (c.rest.takeWhile Byte.isName)) ++ c.rest.dropWhile Byte.isName := by
    rw [bytes, List.takeWhile_append_dropWhile]
  refine ⟨_, split, ?_⟩
  cases known : TokenKind.keyword? (ofAscii (c.rest.takeWhile Byte.isName)) with
  | some k =>
    have listed := List.mem_of_find?_eq_some known
    have spelt := List.find?_some known
    rw [← eq_of_beq spelt]
    exact .keyword listed stop
  | none =>
    refine .identifier ⟨b, rest.takeWhile Byte.isName, letter, ?_, ?_, known⟩ stop
    · exact List.all_eq_true.mp List.all_takeWhile
    · have first : Byte.isName b = true := by simp [Byte.isName, letter]
      rw [start, List.takeWhile_cons_of_pos first]

theorem lexeme_eq_ok (h : c.lexeme = .ok t next) :
    c.rest = [] ∧ t.kind = .eof ∨ ∃ lexeme, c.rest = lexeme ++ next.rest ∧ t.IsLexeme next.rest lexeme := by
  cases lexeme_scans h with
  | eof empty => exact .inl ⟨empty, rfl⟩
  | numeral wellFormed =>
    obtain ⟨numeral, stop⟩ := NumeralWord.isNumeral_read wellFormed
    have text := utf8_ofAscii numeral.ascii
    refine .inr ⟨utf8 (ofAscii (NumeralWord.read c.rest).text), ?_, .number ?_ stop⟩
    · rw [text, NumeralWord.text_append_rest]
    · rwa [text]
  | @longString level _ _ _ _ opened read decoded =>
    rw [← utf8_of_ofUtf8? decoded] at read
    obtain ⟨body, closed, ends, unified⟩ := LongBracket.body_eq_ok read
    refine .inr ⟨_, ?_, @Token.IsLexeme.longString _ level body _ _ _ ⟨rfl, ends⟩ unified⟩
    rw [LongBracket.opener?_eq_some opened, closed]
    simp
  | @shortString quote rest _ _ _ start mark read decoded =>
    obtain ⟨text, _, behind, quoted, rfl⟩ := ShortString.contents_eq_ok read
    have tail : rest = text ++ next.rest := behind
    refine .inr ⟨quote :: text, by rw [start, tail, List.cons_append], .shortString (by simpa using mark) ?_⟩
    rwa [utf8_of_ofUtf8? decoded]
  | name start letter read => exact .inr (name_eq_ok start letter read)
  | symbol found =>
    obtain ⟨symbol, spelt, longest⟩ := TokenKind.symbol?_eq_some found
    exact .inr ⟨_, spelt, .symbol symbol (spelt ▸ longest)⟩

theorem token_eq_ok (h : c.token = .ok t next) :
    IsTrivia [] c.rest ∧ t.kind = .eof ∨ ∃ trivia lexeme, c.rest = trivia ++ (lexeme ++ next.rest) ∧
      IsTrivia (lexeme ++ next.rest) trivia ∧ lexeme ≠ [] ∧ (∀ more, lexeme ++ next.rest ≠ 45 :: 45 :: more) ∧
      t.IsLexeme next.rest lexeme := by
  obtain ⟨start, skipped, h⟩ := token_ok h
  obtain ⟨trivia, behind, isTrivia, code⟩ := skipGap_eq_ok skipped
  obtain ⟨empty, last⟩ | ⟨lexeme, spelt, isLexeme⟩ := lexeme_eq_ok h
  · rw [empty] at behind isTrivia
    rw [behind, List.append_nil]
    exact .inl ⟨isTrivia, last⟩
  · have shorter := lexeme_length h isLexeme.kind_ne_eof
    rw [spelt] at behind isTrivia code shorter
    refine .inr ⟨trivia, lexeme, behind, isTrivia, fun empty => ?_, code, isLexeme⟩
    simp [empty] at shorter

end Cursor

namespace TokenStream

theorem readFrom_split {read : List Token} {line : Nat} (h : (readFrom c read).ending = .ok line) :
    ∃ ts, (readFrom c read).tokens = read.reverse ++ ts ∧ Token.Split ts c.rest := by
  fun_induction readFrom c read with
  | case1 => cases h
  | case2 c read t next found last =>
    obtain ⟨trivia, -⟩ | ⟨_, _, -, -, -, -, isLexeme⟩ := Cursor.token_eq_ok found
    · exact ⟨[], by simp, .nil trivia⟩
    · exact absurd last isLexeme.kind_ne_eof
  | case3 c read t next found real _ ih =>
    obtain ⟨ts, tokens, split⟩ := ih h
    obtain ⟨-, last⟩ | ⟨trivia, lexeme, bytes, isTrivia, some_byte, code, isLexeme⟩ := Cursor.token_eq_ok found
    · exact absurd last real
    · refine ⟨t :: ts, by simp [tokens], ?_⟩
      rw [bytes]
      exact .cons isTrivia some_byte code isLexeme split

end TokenStream

/-- Nothing is lost and nothing invented: the bytes of a source are those that its tokens stand for, and trivia
    between them. -/
theorem Chunk.tokens_split {source : String} {ts : List Token} (h : Chunk.tokens source = .ok ts) :
    Token.Split ts (utf8 source) := by
  obtain ⟨rfl, line, ending⟩ := Chunk.tokens_ok h
  obtain ⟨ts, tokens, split⟩ := TokenStream.readFrom_split ending
  rw [List.reverse_nil, List.nil_append] at tokens
  have same : (TokenStream.ofSource source).tokens = ts := tokens
  rwa [same]

theorem Chunk.tokens_split_of_comments : ∃ ts, Chunk.tokens "x=3..--[==[]=]]==]'\\65\\z\n '--" = .ok ts ∧
    ts = [⟨.identifier, 1, some "x"⟩, ⟨.assign, 1, some "="⟩, ⟨.number, 1, some "3"⟩, ⟨.dotDot, 1, some ".."⟩,
      ⟨.string, 1, some "A"⟩] ∧
    Token.Split ts (utf8 "x=3..--[==[]=]]==]'\\65\\z\n '--") := by
  refine exists_ok (fun ts => decide (ts = [⟨.identifier, 1, some "x"⟩, ⟨.assign, 1, some "="⟩, ⟨.number, 1, some "3"⟩,
    ⟨.dotDot, 1, some ".."⟩, ⟨.string, 1, some "A"⟩])) (by decide +kernel) fun ts read same => ?_
  exact ⟨of_decide_eq_true same, Chunk.tokens_split read⟩

end LuaBytecode
