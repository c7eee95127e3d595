import LuaBytecode.Proofs.Ast.Shape
import LuaBytecode.Proofs.Numeral.Digits
import LuaBytecode.Proofs.Printing.Words
import LuaBytecode.Proofs.Text.Utf8
import LuaBytecode.Token.Stream
import Mathlib.Tactic.MkIffOfInductiveProp

namespace LuaBytecode

variable {p : UInt8 → Bool} {k : TokenKind} {digits lead : List UInt8} {c : Cursor}

namespace Byte

variable {b : UInt8}

theorem eq_of_isBreak (h : isBreak b = true) : b = 10 ∨ b = 13 := by simpa [isBreak] using h

theorem isBlank_of_isBreak (h : isBreak b = true) : isBlank b = true := by
  obtain rfl | rfl := eq_of_isBreak h <;> rfl

@[mk_iff] structure Classes (b : UInt8) : Prop where
  blank : isBlank b = true → b.toNat < 128
  name : isName b = true → isBlank b = false
  hexDigit : isHexDigit b = true → isName b = true
  digit : isDigit b = true → isHexDigit b = true ∧ ShortString.simple? b = none
  simple : ShortString.simple? b ≠ none → b.toNat < 128 ∧ isBreak b = false

instance decidableClasses (b : UInt8) : Decidable (Classes b) := decidable_of_iff' _ (classes_iff b)

theorem classes : ∀ b : UInt8, Classes b := forall_uint8 (by decide +kernel)

theorem solid_of_visible (h : isBlank b = false) : isBreak b = false :=
  Bool.eq_false_iff.mpr fun breaks => by cases h.symm.trans (isBlank_of_isBreak breaks)

theorem solid_of_isName (h : isName b = true) : isBreak b = false := solid_of_visible ((classes b).name h)

end Byte

def Gap (rest : List UInt8) : Prop := rest = [] ∨ ∃ more, rest = 32 :: more

theorem Gap.head_append {rest tail : List UInt8} (gap : Gap rest) (h : p 32 = false)
    (first : tail.head?.any p = false) : (tail ++ rest).head?.any p = false := by
  cases tail with
  | cons b tail => exact first
  | nil =>
    obtain rfl | ⟨more, rfl⟩ := gap
    · rfl
    · exact h

theorem Gap.takeWhile {rest : List UInt8} (gap : Gap rest) (h : p 32 = false) :
    rest.takeWhile p = [] ∧ rest.dropWhile p = rest := by
  obtain rfl | ⟨more, rfl⟩ := gap
  · exact ⟨rfl, rfl⟩
  · simp [h]

theorem Gap.run {rest bytes : List UInt8} (gap : Gap rest) (h : p 32 = false) (all : ∀ b ∈ bytes, p b = true) :
    (bytes ++ rest).takeWhile p = bytes ∧ (bytes ++ rest).dropWhile p = rest := by
  obtain ⟨none_taken, all_left⟩ := gap.takeWhile h
  constructor
  · rw [List.takeWhile_append_of_pos all, none_taken, List.append_nil]
  · rw [List.dropWhile_append_of_pos all, all_left]

namespace Cursor

theorem skipBlanks_visible {b : UInt8} {rest : List UInt8} {line : Nat} (h : Byte.isBlank b = false) :
    skipBlanks ⟨b :: rest, line⟩ = ⟨b :: rest, line⟩ := by
  have step : Cursor.step ⟨b :: rest, line⟩ = some (b, ⟨rest, line⟩) := by simp [Cursor.step, Byte.solid_of_visible h]
  rw [skipBlanks]
  split
  · rename_i b' next same
    rw [step] at same
    cases same
    simp [h]
  · rfl

theorem skipBlanks_space {rest : List UInt8} {line : Nat} : skipBlanks ⟨32 :: rest, line⟩ = skipBlanks ⟨rest, line⟩ := by
  rw [skipBlanks]
  rfl

theorem skipGap_eq {start : Cursor} (blanks : c.skipBlanks = start) (code : ∀ more, start.rest ≠ 45 :: 45 :: more) :
    c.skipGap = .ok () start := by
  subst blanks
  rw [skipGap]
  split
  · rename_i rest comment
    exact absurd comment (code rest)
  · rfl

end Cursor

namespace TokenKind

theorem isPrefixOf_of_gap {start spelling rest left : List UInt8} (gap : Gap rest) (solid : (32 : UInt8) ∉ start)
    (h : start.isPrefixOf? (spelling ++ rest) = some left) : start.isPrefixOf spelling = true := by
  induction start generalizing spelling with
  | nil => rfl
  | cons b start ih =>
    rw [List.mem_cons, not_or] at solid
    cases spelling with
    | nil =>
      obtain rfl | ⟨more, rfl⟩ := gap
      · cases h
      · change (if b == 32 then start.isPrefixOf? more else none) = some left at h
        rw [if_neg (by simpa using Ne.symm solid.1)] at h
        cases h
    | cons c spelling =>
      change (if b == c then start.isPrefixOf? (spelling ++ rest) else none) = some left at h
      by_cases same : (b == c) = true
      · rw [if_pos same] at h
        change (b == c && start.isPrefixOf spelling) = true
        rw [same, ih solid.2 h]
        rfl
      · rw [if_neg same] at h
        cases h

theorem isPrefixOf?_append (start rest : List UInt8) : start.isPrefixOf? (start ++ rest) = some rest := by
  induction start with
  | nil => rfl
  | cons b start ih =>
    change (if b == b then start.isPrefixOf? (start ++ rest) else none) = some rest
    rw [if_pos (beq_self_eq_true b), ih]

theorem symbolBytes_apart : (∀ entry ∈ symbolBytes, (32 : UInt8) ∉ entry.1) ∧
    symbolBytes.Pairwise fun a b => a.1.isPrefixOf b.1 = false := by decide +kernel

/-- In front of a gap a symbol is read as itself: those that stand before it in the list are no part of it. -/
theorem symbol?_spelling {kind : TokenKind} {rest : List UInt8} (symbol : kind ∈ symbols) (gap : Gap rest) :
    symbol? (utf8 kind.spelling ++ rest) = some (kind, rest) := by
  obtain ⟨solid, longerFirst⟩ := symbolBytes_apart
  have listed : (utf8 kind.spelling, kind) ∈ symbolBytes := List.mem_map_of_mem symbol
  obtain ⟨before, behind, split⟩ := List.append_of_mem listed
  rw [symbol?, List.findSome?_eq_some_iff]
  refine ⟨before, _, behind, split, ?_, ?_⟩
  · simp [isPrefixOf?_append]
  · intro entry member
    rw [split] at solid longerFirst
    have other := (List.pairwise_append.mp longerFirst).2.2 entry member _ (.head _)
    simp only [Option.map_eq_none_iff]
    rw [Option.eq_none_iff_forall_not_mem]
    intro left found
    rw [isPrefixOf_of_gap gap (solid entry (List.mem_append_left _ member)) found] at other
    cases other

end TokenKind

namespace Token

structure Lexes (t : Token) : Prop where
  kind : t.kind ≠ .eof
  visible : ∃ b tail, utf8 t.written = b :: tail ∧ Byte.isBlank b = false ∧ tail.head? ≠ some 45
  lexeme : ∀ {rest}, Gap rest → Cursor.lexeme ⟨utf8 t.written ++ rest, 1⟩ = .ok t ⟨rest, 1⟩

def isSymbolic : List UInt8 → Bool
  | [] => false
  | b :: tail => !Byte.isBlank b && !Byte.isDigit b && !Byte.isNameStart b && !(b == 34 || b == 39) &&
    !(tail.head?.any Byte.isDigit) && !(tail.head?.any (· == 45)) && (b != 91 || tail.isEmpty)

theorem lexes_symbol (symbol : k ∈ TokenKind.symbols) : Lexes (ofKind k) := by
  have text : (ofKind k).written = k.spelling := by
    have other : ∀ k ∈ TokenKind.symbols, k ≠ .string := by decide
    simp [written, ofKind, Token.text, other k symbol]
  have listed : (utf8 k.spelling, k) ∈ TokenKind.symbolBytes := List.mem_map_of_mem symbol
  have symbolic : ∀ entry ∈ TokenKind.symbolBytes, isSymbolic entry.1 = true := by decide +kernel
  have plain := symbolic _ listed
  cases bytes : utf8 k.spelling with
  | nil =>
    rw [bytes] at plain
    cases plain
  | cons b tail =>
    rw [bytes] at plain
    simp only [isSymbolic, Bool.and_eq_true, Bool.not_eq_true'] at plain
    obtain ⟨⟨⟨⟨⟨⟨visible, notDigit⟩, notName⟩, notQuote⟩, digit⟩, dash⟩, bracket⟩ := plain
    constructor
    · have real : ∀ k ∈ TokenKind.symbols, k ≠ .eof := by decide
      exact real k symbol
    · refine ⟨b, tail, by rw [text, bytes], visible, fun same => ?_⟩
      rw [same] at dash
      cases dash
    · intro rest gap
      have read := TokenKind.symbol?_spelling symbol gap
      rw [bytes, List.cons_append] at read
      have notNumeral : NumeralWord.startsNumeral (b :: (tail ++ rest)) = false := by
        rw [NumeralWord.startsNumeral, notDigit, gap.head_append (by decide) digit, Bool.and_false]
        rfl
      -- `[` is a symbol of one byte, so that what follows it is the gap and opens no long string.
      have notBracket : (b == 91 && ((tail ++ rest).head? == some 91 || (tail ++ rest).head? == some 61)) = false := by
        by_cases same : (b == 91) = true
        · have alone : tail = [] := by simpa [eq_of_beq same] using bracket
          subst alone
          obtain rfl | ⟨more, rfl⟩ := gap <;> simp
        · simp [same]
      rw [text, bytes, List.cons_append, Cursor.lexeme]
      simp only [notNumeral, notBracket, notQuote, notName, Bool.false_eq_true, if_false]
      rw [Cursor.symbol, read]
      rfl

theorem nameStart_plain (b : UInt8) (start : Byte.isNameStart b = true) : Byte.isDigit b = false ∧
    Byte.isBlank b = false ∧ b ≠ 46 ∧ b ≠ 91 ∧ b ≠ 34 ∧ b ≠ 39 := by
  simp only [Byte.isNameStart, Byte.isLetter, Byte.isDigit, Byte.isBlank, Bool.or_eq_true, Bool.or_eq_false_iff,
    Bool.and_eq_true, Bool.and_eq_false_iff, decide_eq_true_eq, decide_eq_false_iff_not, beq_iff_eq, beq_eq_false_iff_ne,
    UInt8.le_iff_toNat_le, ← UInt8.toNat_inj, UInt8.reduceToNat, ne_eq] at start ⊢
  omega

theorem name_ascii (b : UInt8) (name : Byte.isName b = true) : b.toNat < 128 := by
  simp only [Byte.isName, Byte.isNameStart, Byte.isLetter, Byte.isDigit, Bool.or_eq_true, Bool.and_eq_true,
    decide_eq_true_eq, beq_iff_eq, UInt8.le_iff_toNat_le, ← UInt8.toNat_inj, UInt8.reduceToNat] at name
  omega

theorem lexes_word {b : UInt8} {tail : List UInt8} (start : Byte.isNameStart b = true)
    (names : ∀ c ∈ tail, Byte.isName c = true) (found : (TokenKind.keyword? (ofAscii (b :: tail))).getD .identifier = k)
    (real : k ≠ .eof) (other : k ≠ .string) : Lexes ⟨k, 1, some (ofAscii (b :: tail))⟩ := by
  have all : ∀ c ∈ b :: tail, Byte.isName c = true :=
    List.forall_mem_cons.mpr ⟨by simp [Byte.isName, start], names⟩
  have text : utf8 (written ⟨k, 1, some (ofAscii (b :: tail))⟩) = b :: tail := by
    simp only [written, other, if_false]
    exact utf8_ofAscii fun c member => name_ascii c (all c member)
  obtain ⟨notDigit, visible, notPoint, notBracket, notQuote, notTick⟩ := nameStart_plain b start
  refine ⟨real, ⟨b, tail, text, visible, fun dash => ?_⟩, fun {rest} gap => ?_⟩
  · have name := names 45 (List.mem_of_mem_head? dash)
    cases name
  · obtain ⟨taken, left⟩ := gap.run (p := Byte.isName) (by decide) all
    rw [text, List.cons_append, Cursor.lexeme]
    have notNumeral : NumeralWord.startsNumeral (b :: (tail ++ rest)) = false := by
      simp [NumeralWord.startsNumeral, notDigit, notPoint]
    rw [List.cons_append] at taken left
    simp only [notNumeral, beq_eq_false_iff_ne.mpr notBracket, beq_eq_false_iff_ne.mpr notQuote,
      beq_eq_false_iff_ne.mpr notTick, start, Bool.false_and, Bool.or_false, Bool.false_eq_true, if_false, if_true]
    simp only [Cursor.name, taken, left, found]

theorem lexes_keyword (keyword : k ∈ TokenKind.keywords) : Lexes (ofKind k) := by
  have spelt : ∀ k ∈ TokenKind.keywords, (match utf8 k.spelling with
      | [] => false
      | b :: tail => Byte.isNameStart b && tail.all Byte.isName && decide (k.spelling = ofAscii (b :: tail)) &&
        decide (TokenKind.keyword? k.spelling = some k)) = true := by decide +kernel
  have plain := spelt k keyword
  split at plain
  · cases plain
  · rename_i b tail bytes
    simp only [Bool.and_eq_true, decide_eq_true_eq, List.all_eq_true] at plain
    obtain ⟨⟨⟨start, names⟩, text⟩, found⟩ := plain
    have real : ∀ k ∈ TokenKind.keywords, k ≠ .eof ∧ k ≠ .string := by decide
    rw [ofKind, text]
    rw [text] at found
    exact lexes_word start names (by rw [found]; rfl) (real k keyword).1 (real k keyword).2

theorem lexes_kind (h : k ∈ TokenKind.symbols ++ TokenKind.keywords) : Lexes (ofKind k) := by
  obtain symbol | keyword := List.mem_append.mp h
  · exact lexes_symbol symbol
  · exact lexes_keyword keyword

theorem lexes_name {x : String} (h : IsIdentifier x) : Lexes (ofName x) := by
  obtain ⟨b, tail, start, names, rfl, other⟩ := h
  exact lexes_word start names (by rw [other]; rfl) (by decide) (by decide)

theorem read_hexadecimal {rest : List UInt8} (gap : Gap rest) (hex : ∀ b ∈ digits, Byte.isHexDigit b = true) :
    NumeralWord.read (48 :: 120 :: (digits ++ rest)) =
      ⟨[48, 120], digits, [], [], [], [], [], [], rest⟩ := by
  obtain ⟨taken, left⟩ := gap.run (p := Byte.isHexDigit) (by decide) hex
  have run : NumeralWord.runOf true Byte.isHexDigit (digits ++ rest) = (digits, rest) := by
    simp [NumeralWord.runOf, taken, left]
  rw [NumeralWord.read]
  simp only [NumeralWord.leadOf, List.isEmpty_cons, Bool.not_false, if_true, run]
  obtain rfl | ⟨more, rfl⟩ := gap <;> rfl

theorem lexes_integer (v : Int64) : Lexes (ofInteger v) := by
  have each : ∀ d : Fin 16, Byte.isHexDigit (UInt8.ofNat (Nat.digitChar d).toNat) = true ∧
      UInt8.toNat (UInt8.ofNat (Nat.digitChar d).toNat) < 128 ∧
      Char.ofNat (UInt8.ofNat (Nat.digitChar d).toNat).toNat = Nat.digitChar d := by decide
  obtain ⟨digits, same⟩ : ∃ digits, digits =
      (Nat.toDigits 16 v.toUInt64.toNat).map fun c => UInt8.ofNat c.toNat := ⟨_, rfl⟩
  have hex : ∀ b ∈ digits, Byte.isHexDigit b = true ∧ b.toNat < 128 := by
    intro b member
    rw [same] at member
    obtain ⟨c, listed, rfl⟩ := List.mem_map.mp member
    obtain ⟨d, small, rfl⟩ := Numeral.mem_toDigits listed
    exact ⟨(each ⟨d, small⟩).1, (each ⟨d, small⟩).2.1⟩
  have some_digit : digits.isEmpty = false := by simp [same, Nat.toDigits_ne_nil]
  have back : digits.map (fun b => Char.ofNat b.toNat) = Nat.toDigits 16 v.toUInt64.toNat := by
    rw [same, List.map_map, ← List.map_id (Nat.toDigits 16 v.toUInt64.toNat), List.map_map]
    apply List.map_congr_left
    intro c listed
    obtain ⟨d, small, rfl⟩ := Numeral.mem_toDigits listed
    exact (each ⟨d, small⟩).2.2
  have text : ofInteger v = ⟨.number, 1, some (ofAscii (48 :: 120 :: digits))⟩ := by
    have lead : "0x" = String.ofList ['0', 'x'] := rfl
    rw [ofInteger, ofAscii, List.map_cons, List.map_cons, back, lead, ← String.ofList_append]
    rfl
  have bytes : utf8 (ofInteger v).written = 48 :: 120 :: digits := by
    rw [text]
    apply utf8_ofAscii
    simpa using fun b member => (hex b member).2
  refine ⟨by simp [ofInteger], ⟨48, 120 :: digits, bytes, by decide, by simp⟩, fun {rest} gap => ?_⟩
  have read := read_hexadecimal gap fun b member => (hex b member).1
  rw [bytes, List.cons_append, List.cons_append, Cursor.lexeme]
  have numeral : NumeralWord.startsNumeral (48 :: 120 :: (digits ++ rest)) = true := rfl
  simp only [numeral, if_true]
  simp [Cursor.numeral, read, NumeralWord.isWellFormed, some_digit, NumeralWord.text, text]

end Token

namespace ShortString

theorem digit_plain (b : UInt8) (digit : Byte.isDigit b = true) :
    (b == 120) = false ∧ (b == 117) = false ∧ (b == 122) = false := by
  simp only [beq_eq_false_iff_ne]
  refine ⟨?_, ?_, ?_⟩ <;> rintro rfl <;> cases digit

def decimalValue (digits : List UInt8) : Nat := Numeral.value 10 (digits.map (·.toNat - 48))

section Decimal

variable {next : List UInt8} {line : Nat}

theorem takeWhile_take_append {n : Nat} (all : ∀ d ∈ digits, p d = true) (short : digits.length ≤ n)
    (stop : digits.length < n → next.head?.any p = false) : ((digits ++ next).take n).takeWhile p = digits := by
  induction digits generalizing n with
  | nil =>
    cases n with
    | zero => rfl
    | succ n =>
      cases next with
      | nil => rfl
      | cons b next => exact List.takeWhile_cons_of_neg (by simpa using stop (Nat.zero_lt_succ n))
  | cons d digits ih =>
    obtain ⟨first, others⟩ := List.forall_mem_cons.mp all
    cases n with
    | zero => cases short
    | succ n =>
      rw [List.cons_append, List.take_succ_cons, List.takeWhile_cons_of_pos first]
      rw [ih others (Nat.le_of_succ_le_succ short) fun less => stop (Nat.succ_lt_succ less)]

theorem decimal_digits (short : digits.length ≤ 3) (all : ∀ d ∈ digits, Byte.isDigit d = true)
    (small : decimalValue digits ≤ 255) (stop : digits.length < 3 → next.head?.any Byte.isDigit = false) :
    decimal ⟨digits ++ next, line⟩ = .ok ([UInt8.ofNat (decimalValue digits)], ⟨next, line⟩) := by
  have value : digits.foldl (fun n d => 10 * n + (d.toNat - 48)) 0 = decimalValue digits := by
    rw [decimalValue, Numeral.value_eq_foldl, List.foldl_map]
  simp only [decimal, takeWhile_take_append all short stop, value, List.drop_left]
  rw [if_pos (Nat.lt_succ_of_le small)]

theorem escape_digit {d : UInt8} (digit : Byte.isDigit d = true) :
    escape ⟨d :: next, line⟩ = decimal ⟨d :: next, line⟩ := by
  have notSimple := ((Byte.classes d).digit digit).2
  have noBreak : Byte.isBreak d = false := Byte.solid_of_isName (by simp [Byte.isName, digit])
  obtain ⟨notHex, notUnicode, notSkip⟩ := digit_plain d digit
  simp only [escape, notSimple, noBreak, notHex, notUnicode, notSkip, digit, Bool.false_eq_true, if_false, if_true]

theorem escape_decimal (some_digit : digits ≠ []) (short : digits.length ≤ 3)
    (all : ∀ d ∈ digits, Byte.isDigit d = true) (small : decimalValue digits ≤ 255)
    (stop : digits.length < 3 → next.head?.any Byte.isDigit = false) :
    escape ⟨digits ++ next, line⟩ = .ok ([UInt8.ofNat (decimalValue digits)], ⟨next, line⟩) := by
  rw [← decimal_digits short all small stop]
  cases digits with
  | nil => exact absurd rfl some_digit
  | cons d digits => exact escape_digit (all d (.head _))

end Decimal

section Contents

variable {quote : UInt8} {opening bytes rest read : List UInt8} {line lineNow : Nat} {next : Cursor}

theorem contents_close (solid : Byte.isBreak quote = false) :
    contents quote opening line ⟨quote :: rest, lineNow⟩ read = .ok read.reverse ⟨rest, lineNow⟩ := by
  rw [contents]
  split
  · rename_i none
    cases none
  · rename_i same
    cases same
    simp [solid]

theorem contents_escape (open_ : quote ≠ 92) (escaped : escape ⟨rest, lineNow⟩ = .ok (bytes, next)) :
    contents quote opening line ⟨92 :: rest, lineNow⟩ read =
      contents quote opening line next (bytes.reverse ++ read) := by
  rw [contents]
  split
  · rename_i none
    cases none
  · rename_i same
    cases same
    rw [if_neg (by decide), if_neg (by simpa using open_.symm), if_pos (by decide)]
    split
    · rename_i found
      cases found.symm.trans escaped
      rfl
    · rename_i found
      cases found.symm.trans escaped
    · rename_i found
      cases found.symm.trans escaped

end Contents

end ShortString

namespace Token

theorem digit_of_lt (d : UInt8) (small : d < 10) : Byte.isDigit (48 + d) = true ∧ (48 + d).toNat - 48 = d.toNat := by
  simp only [Byte.isDigit, Bool.and_eq_true, decide_eq_true_eq, UInt8.le_iff_toNat_le, UInt8.lt_iff_toNat_lt,
    UInt8.toNat_add, UInt8.reduceToNat] at small ⊢
  omega

theorem escape_digits (b : UInt8) :
    (∀ d ∈ (escape b).tail, Byte.isDigit d = true) ∧ ShortString.decimalValue (escape b).tail = b.toNat := by
  have below := b.toNat_lt
  have hundreds : b / 100 < 10 := by simp only [UInt8.lt_iff_toNat_lt, UInt8.toNat_div, UInt8.reduceToNat]; omega
  have tens : b / 10 % 10 < 10 := by simp only [UInt8.lt_iff_toNat_lt, UInt8.toNat_mod, UInt8.reduceToNat]; omega
  have ones : b % 10 < 10 := by simp only [UInt8.lt_iff_toNat_lt, UInt8.toNat_mod, UInt8.reduceToNat]; omega
  obtain ⟨first, firstValue⟩ := digit_of_lt _ hundreds
  obtain ⟨second, secondValue⟩ := digit_of_lt _ tens
  obtain ⟨third, thirdValue⟩ := digit_of_lt _ ones
  refine ⟨by simp [escape, first, second, third], ?_⟩
  simp only [escape, List.tail_cons, ShortString.decimalValue, Numeral.value_eq_foldl, List.map_cons, List.map_nil,
    List.foldl_cons,
    List.foldl_nil, firstValue, secondValue, thirdValue, UInt8.toNat_div, UInt8.toNat_mod, UInt8.reduceToNat]
  omega

theorem contents_escapes (bytes opening rest read : List UInt8) (line : Nat) :
    ShortString.contents 34 opening line ⟨bytes.flatMap escape ++ 34 :: rest, line⟩ read =
      .ok (read.reverse ++ bytes) ⟨rest, line⟩ := by
  induction bytes generalizing read with
  | nil => simpa using ShortString.contents_close rfl
  | cons b bytes ih =>
    obtain ⟨digits, value⟩ := escape_digits b
    have escaped : ShortString.escape ⟨(escape b).tail ++ (bytes.flatMap escape ++ 34 :: rest), line⟩ = _ :=
      ShortString.escape_decimal (by simp [escape]) (Nat.le_refl 3) digits (by have := b.toNat_lt; omega)
        (fun fewer => absurd fewer (Nat.lt_irrefl 3))
    rw [value, UInt8.ofNat_toNat] at escaped
    have whole : ShortString.contents 34 opening line _ read = _ := ShortString.contents_escape (by decide) escaped
    rw [ih] at whole
    simpa [escape] using whole

theorem lexes_string (text : String) : Lexes (ofString text) := by
  have ascii : ∀ b, ∀ c ∈ escape b, c.toNat < 128 := by
    intro b c member
    obtain rfl | digit := List.mem_cons.mp member
    · decide
    · exact name_ascii c (by simp [Byte.isName, (escape_digits b).1 c digit])
  have bytes : utf8 (ofString text).written = 34 :: ((utf8 text).flatMap escape ++ [34]) := by
    apply utf8_ofAscii
    intro c member
    simp only [List.mem_cons, List.mem_append, List.mem_flatMap, List.not_mem_nil, or_false] at member
    obtain rfl | ⟨b, _, inside⟩ | rfl := member
    · decide
    · exact ascii b c inside
    · decide
  refine ⟨by simp [ofString], ⟨34, _, bytes, by decide, ?_⟩, fun {rest} gap => ?_⟩
  · cases utf8 text <;> simp [escape]
  · have contents := contents_escapes (utf8 text) (34 :: ((utf8 text).flatMap escape ++ 34 :: rest)) rest [] 1
    have whole : 34 :: ((utf8 text).flatMap escape ++ [34]) ++ rest = 34 :: ((utf8 text).flatMap escape ++ 34 :: rest) := by
      simp
    rw [bytes, whole, Cursor.lexeme]
    have notNumeral : ∀ tail, NumeralWord.startsNumeral (34 :: tail) = false := fun _ => rfl
    simp only [notNumeral, Bool.false_eq_true, if_false]
    rw [if_neg (by simp), if_pos (by decide), Cursor.shortString]
    simp only [contents, Cursor.stringToken, List.reverse_nil, List.nil_append, ofUtf8?_utf8]
    rfl

end Token

namespace TokenStream

theorem readFrom_token {next : Cursor} {t : Token} (read : List Token) (found : c.token = .ok t next)
    (real : t.kind ≠ .eof) : readFrom c read = readFrom next (t :: read) := by
  rw [readFrom]
  split
  · rename_i e c' failed
    cases found.symm.trans failed
  · rename_i t' next' same
    cases found.symm.trans same
    rw [dif_neg real]

theorem readFrom_end {next : Cursor} {line : Nat} (read : List Token) (found : c.token = .ok (.eof line) next) :
    readFrom c read = ⟨read.reverse, .ok line⟩ := by
  rw [readFrom]
  split
  · rename_i e c' failed
    cases found.symm.trans failed
  · rename_i t' next' same
    cases found.symm.trans same
    rfl

end TokenStream

namespace Token

theorem Lexes.token {t : Token} (h : Lexes t) {rest : List UInt8} (blank : lead = [] ∨ lead = [32]) (gap : Gap rest) :
    Cursor.token ⟨lead ++ (utf8 t.written ++ rest), 1⟩ = .ok t ⟨rest, 1⟩ := by
  obtain ⟨b, tail, bytes, visible, dash⟩ := h.visible
  have lexeme := h.lexeme gap
  rw [bytes, List.cons_append] at lexeme ⊢
  have start : Cursor.skipBlanks ⟨lead ++ b :: (tail ++ rest), 1⟩ = ⟨b :: (tail ++ rest), 1⟩ := by
    obtain rfl | rfl := blank
    · exact Cursor.skipBlanks_visible visible
    · exact .trans Cursor.skipBlanks_space (Cursor.skipBlanks_visible visible)
  -- No comment starts here: a dash is not followed by another one, in the token or behind it.
  have code : ∀ more, b :: (tail ++ rest) ≠ 45 :: 45 :: more := by
    intro more same
    obtain ⟨rfl, second⟩ := List.cons.inj same
    cases tail with
    | cons c tail =>
      obtain ⟨rfl, _⟩ := List.cons.inj second
      exact dash rfl
    | nil =>
      obtain rfl | ⟨more, rfl⟩ := gap
      · cases second
      · cases (List.cons.inj second).1
  rw [Cursor.token, Cursor.skipGap_eq start code]
  exact lexeme

theorem token_end (blank : lead = [] ∨ lead = [32]) : Cursor.token ⟨lead, 1⟩ = .ok (.eof 1) ⟨[], 1⟩ := by
  have last : Cursor.skipBlanks ⟨[], 1⟩ = ⟨[], 1⟩ := by rw [Cursor.skipBlanks]; rfl
  have start : Cursor.skipBlanks ⟨lead, 1⟩ = ⟨[], 1⟩ := by
    obtain rfl | rfl := blank
    · exact last
    · exact .trans Cursor.skipBlanks_space last
  rw [Cursor.token, Cursor.skipGap_eq start nofun]
  rfl

theorem readFrom_spaced {ts : List Token} (h : ∀ t ∈ ts, Lexes t) (blank : lead = [] ∨ lead = [32])
    (read : List Token) : TokenStream.readFrom ⟨lead ++ utf8 (spaced ts), 1⟩ read = ⟨read.reverse ++ ts, .ok 1⟩ := by
  fun_induction spaced ts generalizing lead read with
  | case1 =>
    rw [show utf8 "" = [] by rfl, List.append_nil, TokenStream.readFrom_end read (token_end blank), List.append_nil]
  | case2 t =>
    have lexes := h t (.head _)
    have token := lexes.token blank (.inl rfl)
    rw [List.append_nil] at token
    rw [TokenStream.readFrom_token read token lexes.kind, TokenStream.readFrom_end _ (token_end (.inl rfl)),
      List.reverse_cons]
  | case3 t rest more ih =>
    have lexes := h t (.head _)
    have token := lexes.token blank (.inr ⟨utf8 (spaced rest), rfl⟩)
    have rest_read := ih (fun t' mem => h t' (.tail _ mem)) (.inr rfl) (t :: read)
    rw [utf8_append, utf8_append, List.append_assoc, show utf8 " " = [32] by rfl, List.singleton_append,
      TokenStream.readFrom_token read token lexes.kind]
    rw [List.singleton_append, List.reverse_cons, List.append_assoc] at rest_read
    exact rest_read

/-- Written with one space between them, tokens are read back as they are. -/
theorem ofSource_spaced {ts : List Token} (h : ∀ t ∈ ts, Lexes t) :
    TokenStream.ofSource (spaced ts) = ⟨ts, .ok 1⟩ :=
  readFrom_spaced h (.inl rfl) []

end Token

end LuaBytecode
