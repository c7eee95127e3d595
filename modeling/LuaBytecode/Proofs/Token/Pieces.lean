import LuaBytecode.Proofs.Token.LongBracket

namespace LuaBytecode

namespace ShortString

/-- What a quoted text is made of: characters that stand for themselves, and escape sequences. -/
inductive Piece where
  | plain (c : Char)
  | simple (letter byte : UInt8)
  | hexadecimal (high low : UInt8)
  | decimal (digits : List UInt8)
  | unicode (digits : List UInt8)
  | skip (blanks : List UInt8)
  | lineBreak (bytes : List UInt8)
  deriving DecidableEq, Repr

def simpleEscapes : List (UInt8 × UInt8) :=
  [(97, 7), (98, 8), (102, 12), (110, 10), (114, 13), (116, 9), (118, 11), (92, 92), (34, 34), (39, 39)]

def hexDigit (b : UInt8) : Nat := (Byte.hexValue? b).getD 0

def hexadecimalValue (digits : List UInt8) : Nat := Numeral.value 16 (digits.map hexDigit)

namespace Piece

def spelling : Piece → List UInt8
  | plain c => String.utf8EncodeChar c
  | simple letter _ => [92, letter]
  | hexadecimal high low => [92, 120, high, low]
  | decimal digits => 92 :: digits
  | unicode digits => 92 :: 117 :: 123 :: (digits ++ [125])
  | skip blanks => 92 :: 122 :: blanks
  | lineBreak bytes => 92 :: bytes

def value : Piece → List UInt8
  | plain c => String.utf8EncodeChar c
  | simple _ byte => [byte]
  | hexadecimal high low => [UInt8.ofNat (hexadecimalValue [high, low])]
  | decimal digits => [UInt8.ofNat (decimalValue digits)]
  | unicode digits => String.utf8EncodeChar (Char.ofNat (hexadecimalValue digits))
  | skip _ => []
  | lineBreak _ => [10]

/-- The piece can stand between the quotes where `next?` is the byte behind it. Digits and blanks that are not all that
    there are would go on in it. -/
def Fits (quote : UInt8) (next? : Option UInt8) : Piece → Prop
  | plain c => c.toNat ≠ quote.toNat ∧ c ≠ '\\' ∧ c ≠ '\n' ∧ c ≠ '\r'
  | simple letter byte => (letter, byte) ∈ simpleEscapes
  | hexadecimal high low => Byte.isHexDigit high = true ∧ Byte.isHexDigit low = true
  | decimal digits => digits ≠ [] ∧ digits.length ≤ 3 ∧ (∀ d ∈ digits, Byte.isDigit d = true) ∧
    decimalValue digits ≤ 255 ∧ (digits.length < 3 → next?.any Byte.isDigit = false)
  | unicode digits => digits ≠ [] ∧ (∀ d ∈ digits, Byte.isHexDigit d = true) ∧ (hexadecimalValue digits).isValidChar
  | skip blanks => (∀ b ∈ blanks, Byte.isBlank b = true) ∧ next?.any Byte.isBlank = false
  | lineBreak bytes => bytes ∈ [[10], [13], [13, 10], [10, 13]]

instance (quote : UInt8) (next? : Option UInt8) : (p : Piece) → Decidable (p.Fits quote next?)
  | plain _ => inferInstanceAs (Decidable (_ ∧ _))
  | simple _ _ => inferInstanceAs (Decidable (_ ∈ _))
  | hexadecimal _ _ => inferInstanceAs (Decidable (_ ∧ _))
  | decimal _ => inferInstanceAs (Decidable (_ ∧ _))
  | unicode _ => inferInstanceAs (Decidable (_ ∧ _))
  | skip _ => inferInstanceAs (Decidable (_ ∧ _))
  | lineBreak _ => inferInstanceAs (Decidable (_ ∈ _))

end Piece

def spelling (pieces : List Piece) : List UInt8 := pieces.flatMap Piece.spelling

def value (pieces : List Piece) : List UInt8 := pieces.flatMap Piece.value

def Fit (quote : UInt8) : List Piece → Prop
  | [] => True
  | p :: pieces => p.Fits quote (spelling pieces ++ [quote]).head? ∧ Fit quote pieces

instance (quote : UInt8) : (pieces : List Piece) → Decidable (Fit quote pieces)
  | [] => inferInstanceAs (Decidable True)
  | _ :: pieces =>
    have : Decidable (Fit quote pieces) := instDecidableFit quote pieces
    inferInstanceAs (Decidable (_ ∧ _))

section Escape

variable {next : List UInt8} {line : Nat}

theorem escape_simple {letter byte : UInt8} (listed : (letter, byte) ∈ simpleEscapes) :
    escape ⟨letter :: next, line⟩ = .ok ([byte], ⟨next, line⟩) := by
  have all : simpleEscapes.all (fun entry => simple? entry.1 == some entry.2) = true := by decide
  have known : simple? letter = some byte := eq_of_beq (List.all_eq_true.mp all _ listed)
  simp only [escape, known]

theorem hexValue?_of_isHexDigit {b : UInt8} (h : Byte.isHexDigit b = true) : Byte.hexValue? b = some (hexDigit b) := by
  obtain ⟨d, digit⟩ := Option.isSome_iff_exists.mp h
  rw [hexDigit, digit, Option.getD_some]

theorem hexadecimalValue_pair (high low : UInt8) :
    hexadecimalValue [high, low] = 16 * hexDigit high + hexDigit low := by
  simp [hexadecimalValue, Numeral.value_eq_foldl]

theorem escape_hexadecimal {high low : UInt8} (first : Byte.isHexDigit high = true)
    (second : Byte.isHexDigit low = true) : escape ⟨120 :: high :: low :: next, line⟩ =
      .ok ([UInt8.ofNat (hexadecimalValue [high, low])], ⟨next, line⟩) := by
  have read : hexadecimal ⟨high :: low :: next, line⟩ =
      .ok ([UInt8.ofNat (16 * hexDigit high + hexDigit low)], ⟨next, line⟩) := by
    simp only [hexadecimal, hexValue?_of_isHexDigit first, hexValue?_of_isHexDigit second]
  rw [hexadecimalValue_pair, ← read]
  rfl

theorem le_foldl_digits (code : Nat) (values : List Nat) : code ≤ values.foldl (fun n d => 16 * n + d) code := by
  induction values generalizing code with
  | nil => exact Nat.le.refl
  | cons d values ih => exact Nat.le_trans (by omega) (ih (16 * code + d))

theorem codePoint_digits {digits : List UInt8} {code count : Nat} (all : ∀ d ∈ digits, Byte.isHexDigit d = true)
    (some_digit : 0 < count ∨ digits ≠ [])
    (valid : ((digits.map hexDigit).foldl (fun n d => 16 * n + d) code).isValidChar) :
    codePoint line code count (digits ++ 125 :: next) =
      .ok (String.utf8EncodeChar (Char.ofNat ((digits.map hexDigit).foldl (fun n d => 16 * n + d) code)),
        ⟨next, line⟩) := by
  induction digits generalizing code count with
  | nil =>
    have counted : 0 < count := some_digit.resolve_right fun none => none rfl
    simp only [List.map_nil, List.foldl_nil] at valid ⊢
    simp [codePoint, counted, valid]
  | cons d digits ih =>
    obtain ⟨first, others⟩ := List.forall_mem_cons.mp all
    have other : (d == 125) = false := by
      refine beq_eq_false_iff_ne.mpr ?_
      rintro rfl
      cases first
    rw [List.map_cons, List.foldl_cons] at valid ⊢
    have bound : 16 * code + hexDigit d ≤ 0x10ffff := by
      have below : ∀ n, Nat.isValidChar n → n ≤ 0x10ffff := by
        rintro n (small | large) <;> omega
      exact Nat.le_trans (le_foldl_digits _ _) (below _ valid)
    rw [List.cons_append, codePoint, other, Bool.false_and, if_neg Bool.false_ne_true, hexValue?_of_isHexDigit first]
    simp only [if_neg (Nat.not_lt_of_le bound)]
    exact ih others (.inl (Nat.succ_pos count)) valid

theorem escape_unicode {digits : List UInt8} (some_digit : digits ≠ []) (all : ∀ d ∈ digits, Byte.isHexDigit d = true)
    (valid : (hexadecimalValue digits).isValidChar) : escape ⟨117 :: 123 :: (digits ++ 125 :: next), line⟩ =
      .ok (String.utf8EncodeChar (Char.ofNat (hexadecimalValue digits)), ⟨next, line⟩) := by
  rw [hexadecimalValue, Numeral.value_eq_foldl] at valid ⊢
  exact codePoint_digits all (.inr some_digit) valid

theorem skipBlanks_eq_dropWhile (c : Cursor) : c.skipBlanks.rest = c.rest.dropWhile Byte.isBlank := by
  fun_induction Cursor.skipBlanks c with
  | case1 c b next taken _ first ih =>
    obtain ⟨rest, start, left, -⟩ := Cursor.step_eq_some taken
    rw [ih, left, start, List.dropWhile_cons_of_pos first]
    obtain same | ⟨d, pair, -, second, -⟩ := Cursor.afterByte_cases b rest
    · rw [same]
    · conv => rhs; rw [pair, List.dropWhile_cons_of_pos (Byte.isBlank_of_isBreak second)]
  | case2 c b next taken _ other =>
    obtain ⟨rest, start, -⟩ := Cursor.step_eq_some taken
    rw [start, List.dropWhile_cons_of_neg other]
  | case3 c none => rw [Cursor.rest_of_step_none none, List.dropWhile_nil]

theorem escape_skip {blanks : List UInt8} (all : ∀ b ∈ blanks, Byte.isBlank b = true)
    (stop : next.head?.any Byte.isBlank = false) :
    ∃ lineNow, escape ⟨122 :: (blanks ++ next), line⟩ = .ok ([], ⟨next, lineNow⟩) := by
  have behind : (Cursor.skipBlanks ⟨blanks ++ next, line⟩).rest = next := by
    rw [skipBlanks_eq_dropWhile, List.dropWhile_append_of_pos all]
    cases next with
    | nil => rfl
    | cons b next => exact List.dropWhile_cons_of_neg (by simpa using stop)
  have read : escape ⟨122 :: (blanks ++ next), line⟩ = .ok ([], Cursor.skipBlanks ⟨blanks ++ next, line⟩) := rfl
  generalize Cursor.skipBlanks ⟨blanks ++ next, line⟩ = after at read behind
  subst behind
  exact ⟨after.line, read⟩

theorem escape_lineBreak {bytes : List UInt8} (listed : bytes ∈ [[10], [13], [13, 10], [10, 13]])
    (stop : next.head?.any Byte.isBreak = false) :
    ∃ lineNow, escape ⟨bytes ++ next, line⟩ = .ok ([10], ⟨next, lineNow⟩) := by
  have alone : ∀ b, Cursor.afterBreak b next = next := by
    intro b
    cases next with
    | nil => rfl
    | cons c next => simp [Cursor.afterBreak, show Byte.isBreak c = false by simpa using stop]
  have behind : (Cursor.skipBreak ⟨bytes ++ next, line⟩).rest = next := by
    rw [Cursor.skipBreak_rest]
    simp only [List.mem_cons, List.not_mem_nil, or_false] at listed
    rcases listed with rfl | rfl | rfl | rfl
    · exact (dropBreak_cons 10 next).trans (alone 10)
    · exact (dropBreak_cons 13 next).trans (alone 13)
    · rfl
    · rfl
  have read : escape ⟨bytes ++ next, line⟩ = .ok ([10], Cursor.skipBreak ⟨bytes ++ next, line⟩) := by
    simp only [List.mem_cons, List.not_mem_nil, or_false] at listed
    rcases listed with rfl | rfl | rfl | rfl <;> rfl
  generalize Cursor.skipBreak ⟨bytes ++ next, line⟩ = after at read behind
  subst behind
  exact ⟨after.line, read⟩

end Escape

section Contents

variable {quote b : UInt8} {opening bytes rest read : List UInt8} {line lineNow : Nat} {next : Cursor}

theorem contents_plain (solid : Byte.isBreak b = false) (open_ : b ≠ quote) (unescaped : b ≠ 92) :
    contents quote opening line ⟨b :: rest, lineNow⟩ read =
      contents quote opening line ⟨rest, lineNow⟩ (b :: read) := by
  rw [contents]
  split
  · rename_i none
    cases none
  · rename_i same
    cases same
    simp [solid, open_, unescaped]

theorem contents_plains (plain : ∀ b ∈ bytes, Byte.isBreak b = false ∧ b ≠ quote ∧ b ≠ 92) :
    contents quote opening line ⟨bytes ++ rest, lineNow⟩ read =
      contents quote opening line ⟨rest, lineNow⟩ (bytes.reverse ++ read) := by
  induction bytes generalizing read with
  | nil => rfl
  | cons b bytes ih =>
    obtain ⟨⟨solid, open_, unescaped⟩, others⟩ := List.forall_mem_cons.mp plain
    rw [List.cons_append, contents_plain solid open_ unescaped, ih others]
    simp

end Contents

section Pieces

variable {quote : UInt8} {next rest : List UInt8} {p : Piece} {pieces : List Piece}

section

variable (mark : quote = 34 ∨ quote = 39)

include mark

theorem quote_plain :
    Byte.isBreak quote = false ∧ quote ≠ 92 ∧ (Char.ofNat quote.toNat).toNat = quote.toNat ∧ quote.toNat < 128 := by
  obtain rfl | rfl := mark <;> decide

theorem Piece.Fits.plain_bytes {c : Char} {next? : Option UInt8} (fits : (Piece.plain c).Fits quote next?) :
    ∀ b ∈ String.utf8EncodeChar c, Byte.isBreak b = false ∧ b ≠ quote ∧ b ≠ 92 := by
  obtain ⟨notQuote, notBackslash, notFeed, notReturn⟩ := fits
  obtain ⟨-, -, code, ascii⟩ := quote_plain mark
  intro b member
  refine ⟨Bool.eq_false_iff.mpr fun lineBreak => ?_, ?_, ?_⟩
  · obtain same | same := Bool.or_eq_true_iff.mp lineBreak
    · cases eq_of_beq same
      exact notFeed (eq_of_mem_utf8EncodeChar member (by decide))
    · cases eq_of_beq same
      exact notReturn (eq_of_mem_utf8EncodeChar member (by decide))
  · rintro rfl
    rw [eq_of_mem_utf8EncodeChar member ascii] at notQuote
    exact notQuote code
  · rintro rfl
    exact notBackslash (eq_of_mem_utf8EncodeChar member (by decide))

theorem contents_piece (fits : p.Fits quote next.head?) (solid : next.head?.any Byte.isBreak = false)
    (opening read : List UInt8) (line lineNow : Nat) :
    ∃ lineAfter, contents quote opening line ⟨p.spelling ++ next, lineNow⟩ read =
      contents quote opening line ⟨next, lineAfter⟩ (p.value.reverse ++ read) := by
  obtain ⟨-, open_, -⟩ := quote_plain mark
  cases p with
  | plain c => exact ⟨lineNow, contents_plains (fits.plain_bytes mark)⟩
  | simple letter byte => exact ⟨lineNow, contents_escape open_ (escape_simple fits)⟩
  | hexadecimal high low => exact ⟨lineNow, contents_escape open_ (escape_hexadecimal fits.1 fits.2)⟩
  | decimal digits =>
    obtain ⟨some_digit, short, all, small, stop⟩ := fits
    exact ⟨lineNow, contents_escape open_ (escape_decimal some_digit short all small stop)⟩
  | unicode digits =>
    obtain ⟨some_digit, all, valid⟩ := fits
    have spelt : (Piece.unicode digits).spelling ++ next = 92 :: 117 :: 123 :: (digits ++ 125 :: next) := by
      simp [Piece.spelling]
    rw [spelt]
    exact ⟨lineNow, contents_escape open_ (escape_unicode some_digit all valid)⟩
  | skip blanks =>
    obtain ⟨lineAfter, escaped⟩ := escape_skip fits.1 fits.2
    exact ⟨lineAfter, contents_escape open_ escaped⟩
  | lineBreak bytes =>
    obtain ⟨lineAfter, escaped⟩ := escape_lineBreak fits solid
    exact ⟨lineAfter, contents_escape open_ escaped⟩

theorem Piece.Fits.head_solid {next? : Option UInt8} (fits : p.Fits quote next?) :
    ∃ b others, p.spelling = b :: others ∧ Byte.isBreak b = false := by
  cases p with
  | plain c =>
    obtain ⟨b, others, encoded⟩ := List.exists_cons_of_ne_nil (String.utf8EncodeChar_ne_nil (c := c))
    exact ⟨b, others, encoded, (fits.plain_bytes mark b (encoded ▸ List.mem_cons_self)).1⟩
  | simple | hexadecimal | decimal | unicode | skip | lineBreak => exact ⟨_, _, rfl, rfl⟩

theorem Fit.head_solid (fit : Fit quote pieces) :
    (spelling pieces ++ quote :: rest).head?.any Byte.isBreak = false := by
  cases pieces with
  | nil => simpa [spelling] using (quote_plain mark).1
  | cons p pieces =>
    obtain ⟨b, others, spelt, solid⟩ := fit.1.head_solid mark
    simpa [spelling, spelt] using solid

end

theorem Fit.head (fit : Fit quote (p :: pieces)) (rest : List UInt8) :
    p.Fits quote (spelling pieces ++ quote :: rest).head? := by
  have same : (spelling pieces ++ quote :: rest).head? = (spelling pieces ++ [quote]).head? := by simp
  rw [same]
  exact fit.1

theorem contents_pieces (mark : quote = 34 ∨ quote = 39) (fit : Fit quote pieces) (opening rest read : List UInt8)
    (line lineNow : Nat) : ∃ lineAfter, contents quote opening line ⟨spelling pieces ++ quote :: rest, lineNow⟩ read =
      .ok (read.reverse ++ value pieces) ⟨rest, lineAfter⟩ := by
  induction pieces generalizing lineNow read with
  | nil => exact ⟨lineNow, by simpa [spelling, value] using contents_close (quote_plain mark).1⟩
  | cons p pieces ih =>
    obtain ⟨lineAfter, first⟩ :=
      contents_piece mark (fit.head rest) (Fit.head_solid mark fit.2) opening read line lineNow
    obtain ⟨lineLast, others⟩ := ih fit.2 (p.value.reverse ++ read) lineAfter
    refine ⟨lineLast, ?_⟩
    have spelt : spelling (p :: pieces) ++ quote :: rest = p.spelling ++ (spelling pieces ++ quote :: rest) := by
      simp [spelling]
    have decoded : (p.value.reverse ++ read).reverse ++ value pieces = read.reverse ++ value (p :: pieces) := by
      simp [value]
    rw [spelt, first, others, decoded]

end Pieces

section Converse

variable {quote : UInt8} {rest bytes : List UInt8} {line : Nat} {next : Cursor} {opening read digits : List UInt8}
  {c : Cursor} {lineNow : Nat}

theorem head_drop_takeWhile {p : UInt8 → Bool} {n : Nat} (short : ((rest.take n).takeWhile p).length < n) :
    (rest.drop ((rest.take n).takeWhile p).length).head?.any p = false := by
  induction rest generalizing n with
  | nil => simp
  | cons b rest ih =>
    cases n with
    | zero => cases short
    | succ n =>
      cases first : p b with
      | true =>
        rw [List.take_succ_cons, List.takeWhile_cons_of_pos first] at short ⊢
        exact ih (Nat.lt_of_succ_lt_succ short)
      | false =>
        rw [List.take_succ_cons, List.takeWhile_cons_of_neg (by simpa using first)]
        simpa using first

theorem decimal_maximal (h : decimal c = .ok (bytes, next)) (split : c.rest = digits ++ next.rest)
    (short : digits.length < 3) : next.rest.head?.any Byte.isDigit = false := by
  simp only [decimal] at h
  split at h
  · cases h
    have within : ((c.rest.take 3).takeWhile Byte.isDigit).length ≤ c.rest.length :=
      ((List.takeWhile_prefix _).trans (List.take_prefix 3 c.rest)).length_le
    have lengths := congrArg List.length split
    simp only [List.length_append, List.length_drop] at lengths
    exact head_drop_takeWhile (by omega)
  · cases h

theorem hexDigits_of_mapM {values : List Nat} (h : digits.mapM Byte.hexValue? = some values) :
    (∀ d ∈ digits, Byte.isHexDigit d = true) ∧ values = digits.map hexDigit := by
  induction digits generalizing values with
  | nil =>
    cases h
    exact ⟨by simp, rfl⟩
  | cons d digits ih =>
    simp only [List.mapM_cons, Option.bind_eq_bind, Option.bind_eq_some_iff, Option.pure_def, Option.some.injEq] at h
    obtain ⟨v, first, vs, others, rfl⟩ := h
    obtain ⟨all, rfl⟩ := ih others
    refine ⟨List.forall_mem_cons.mpr ⟨by simp [Byte.isHexDigit, first], all⟩, ?_⟩
    rw [List.map_cons, hexDigit, first, Option.getD_some]

theorem IsEscape.ascii {text value : List UInt8} (h : IsEscape text value) : ∀ b ∈ text, b.toNat < 128 := by
  have ofHexDigit (b : UInt8) (digit : Byte.isHexDigit b = true) : b.toNat < 128 :=
    Token.name_ascii b (Numeral.isName_of_isHexDigit b digit)
  cases h with
  | simple known => simpa using ((Byte.classes _).simple (by simp [known])).1
  | lineBreak isBreak =>
    cases isBreak with
    | one first => simpa using ascii_of_isBreak _ first
    | pair first second => simpa using ⟨ascii_of_isBreak _ first, ascii_of_isBreak _ second⟩
  | hexadecimal first second =>
    simpa using ⟨ofHexDigit _ (by simp [Byte.isHexDigit, first]), ofHexDigit _ (by simp [Byte.isHexDigit, second])⟩
  | unicode _ read =>
    intro b member
    simp only [List.mem_cons, List.mem_append, List.not_mem_nil, or_false] at member
    obtain rfl | rfl | digit | rfl := member
    · decide
    · decide
    · exact ofHexDigit b ((hexDigits_of_mapM read).1 b digit)
    · decide
  | skip all => simpa using fun b member => (Byte.classes b).blank (all b member)
  | decimal _ _ all => exact fun b member => Token.name_ascii b (by simp [Byte.isName, all b member])

theorem exists_piece_of_escape (quote : UInt8) (h : escape ⟨rest, line⟩ = .ok (bytes, next)) :
    ∃ (p : Piece) (text : List UInt8), p.spelling = 92 :: text ∧ rest = text ++ next.rest ∧
      p.Fits quote next.rest.head? ∧ ∀ b ∈ text, b.toNat < 128 := by
  obtain ⟨text, split, isEscape⟩ := escape_eq_ok h
  have parts : rest = text ++ next.rest := split
  have ascii := isEscape.ascii
  cases isEscape with
  | @simple letter byte known =>
    have listed : ∀ b, (simple? b).all (fun byte => (b, byte) ∈ simpleEscapes) = true :=
      forall_uint8 (by decide +kernel)
    have entry : (letter, byte) ∈ simpleEscapes := by simpa [known] using listed letter
    exact ⟨.simple letter byte, _, rfl, parts, entry, ascii⟩
  | lineBreak isBreak =>
    refine ⟨.lineBreak text, _, rfl, parts, ?_, ascii⟩
    cases isBreak with
    | one first => obtain rfl | rfl := Byte.eq_of_isBreak first <;> simp [Piece.Fits]
    | pair first second other =>
      obtain rfl | rfl := Byte.eq_of_isBreak first <;> obtain rfl | rfl := Byte.eq_of_isBreak second <;>
        simp [Piece.Fits] at other ⊢
  | @hexadecimal high low _ _ first second =>
    have digits : Byte.isHexDigit high = true ∧ Byte.isHexDigit low = true := by simp [Byte.isHexDigit, first, second]
    exact ⟨.hexadecimal high low, _, rfl, parts, digits, ascii⟩
  | @unicode digits values some_digit read valid =>
    obtain ⟨all, rfl⟩ := hexDigits_of_mapM read
    exact ⟨.unicode digits, _, rfl, parts, ⟨some_digit, all, valid⟩, ascii⟩
  | @skip blanks all =>
    refine ⟨.skip blanks, _, rfl, parts, ⟨all, ?_⟩, ascii⟩
    have read : escape ⟨122 :: (blanks ++ next.rest), line⟩ =
        .ok ([], Cursor.skipBlanks ⟨blanks ++ next.rest, line⟩) := rfl
    rw [parts] at h
    have after : next = Cursor.skipBlanks ⟨blanks ++ next.rest, line⟩ :=
      (Prod.mk.inj (Except.ok.inj (h.symm.trans read))).2
    rw [after, skipBlanks_eq_dropWhile]
    cases left : ((blanks ++ next.rest).dropWhile Byte.isBlank).head? with
    | none => rfl
    | some b => simpa [left] using List.head?_dropWhile_not Byte.isBlank (blanks ++ next.rest)
  | @decimal _ some_digit short all small =>
    refine ⟨.decimal text, _, rfl, parts, ⟨some_digit, short, all, Nat.le_of_lt_succ small, fun fewer => ?_⟩, ascii⟩
    cases text with
    | nil => exact absurd rfl some_digit
    | cons d digits =>
      rw [parts, List.cons_append, escape_digit (all d (.head _))] at h
      exact decimal_maximal h rfl fewer

theorem contents_break {b : UInt8} (lineBreak : Byte.isBreak b = true) :
    contents quote opening line ⟨b :: rest, lineNow⟩ read ≠ .ok bytes next := by
  intro h
  rw [contents] at h
  split at h
  · cases h
  · rename_i same
    cases same
    rw [if_pos lineBreak] at h
    cases h

theorem contents_backslash (open_ : quote ≠ 92)
    (h : contents quote opening line ⟨92 :: rest, lineNow⟩ read = .ok bytes next) :
    ∃ value after, escape ⟨rest, lineNow⟩ = .ok (value, after) ∧
      contents quote opening line after (value.reverse ++ read) = .ok bytes next := by
  cases escaped : escape ⟨rest, lineNow⟩ with
  | ok r =>
    rw [contents_escape open_ escaped] at h
    exact ⟨r.1, r.2, rfl, h⟩
  | error fault =>
    rw [contents] at h
    split at h
    · cases h
    · rename_i same
      cases same
      rw [if_neg (by decide), if_neg (by simpa using open_.symm), if_pos (by decide)] at h
      split at h
      · rename_i found
        cases found.symm.trans escaped
      · cases h
      · cases h

theorem exists_pieces_of_contents (mark : quote = 34 ∨ quote = 39) (isText : IsText rest)
    (h : contents quote opening line ⟨rest, lineNow⟩ read = .ok bytes next) :
    ∃ pieces, Fit quote pieces ∧ rest = spelling pieces ++ quote :: next.rest := by
  obtain ⟨solid, open_, code, small⟩ := quote_plain mark
  induction size : rest.length using Nat.strongRecOn generalizing rest read lineNow with
  | ind n ih =>
    obtain rfl | ⟨c, more, rfl, behind⟩ := isText.cases
    · rw [contents] at h
      cases h
    -- A piece in front of pieces: the closing quote is behind it in any case.
    have cons {p : Piece} {after : List UInt8} (fits : p.Fits quote after.head?)
        (others : ∃ pieces, Fit quote pieces ∧ after = spelling pieces ++ quote :: next.rest) :
        ∃ pieces, Fit quote pieces ∧ p.spelling ++ after = spelling pieces ++ quote :: next.rest := by
      obtain ⟨pieces, fit, rfl⟩ := others
      refine ⟨p :: pieces, ⟨?_, fit⟩, by simp [spelling]⟩
      simpa using fits
    by_cases closes : c.toNat = quote.toNat
    · have same : c = Char.ofNat quote.toNat := by rw [← closes, Char.ofNat_toNat]
      rw [same, utf8EncodeChar_ofNat small, List.singleton_append] at h ⊢
      rw [contents_close solid] at h
      cases h
      exact ⟨[], trivial, rfl⟩
    by_cases backslash : c = '\\'
    · have encoded : String.utf8EncodeChar c = [92] := by
        rw [backslash]
        decide +kernel
      rw [encoded, List.singleton_append] at h size ⊢
      obtain ⟨value, after, escaped, others⟩ := contents_backslash open_ h
      obtain ⟨p, text, spelt, rfl, fits, ascii⟩ := exists_piece_of_escape quote escaped
      have shorter : after.rest.length < n := by
        rw [← size, List.length_cons, List.length_append]
        omega
      have whole := cons fits (ih _ shorter (IsText.drop ascii behind) others rfl)
      rwa [spelt] at whole
    by_cases lineBreak : c = '\n' ∨ c = '\r'
    · obtain ⟨b, encoded, isBreak⟩ : ∃ b, String.utf8EncodeChar c = [b] ∧ Byte.isBreak b = true := by
        obtain rfl | rfl := lineBreak
        · exact ⟨10, by decide +kernel, rfl⟩
        · exact ⟨13, by decide +kernel, rfl⟩
      rw [encoded] at h
      exact absurd h (contents_break isBreak)
    · obtain ⟨notFeed, notReturn⟩ := not_or.mp lineBreak
      have fits : (Piece.plain c).Fits quote more.head? := ⟨closes, backslash, notFeed, notReturn⟩
      rw [contents_plains (fits.plain_bytes mark)] at h
      have some_byte := List.length_pos_iff.mpr (String.utf8EncodeChar_ne_nil (c := c))
      have shorter : more.length < n := by
        rw [← size, List.length_append]
        omega
      exact cons fits (ih _ shorter behind h rfl)

theorem contents_ne_malformed {e : Nat} : contents quote opening line c read ≠ .error (.malformedString e) next := by
  intro h
  fun_induction contents quote opening line c read with
  | case1 => cases h
  | case2 => cases h
  | case3 => cases h
  | case4 _ _ _ _ _ _ _ _ _ _ _ _ ih => exact ih h
  | case5 => cases h
  | case6 => cases h
  | case7 _ _ _ _ _ _ _ _ _ ih => exact ih h

end Converse

section Token

variable {quote : UInt8} {pieces : List Piece}

theorem token_quote (mark : quote = 34 ∨ quote = 39) (rest : List UInt8) (line : Nat) :
    Cursor.token ⟨quote :: rest, line⟩ =
      Cursor.stringToken line (contents quote (quote :: rest) line ⟨rest, line⟩ []) := by
  have visible : Cursor.skipBlanks ⟨quote :: rest, line⟩ = ⟨quote :: rest, line⟩ := by
    obtain rfl | rfl := mark <;> exact Cursor.skipBlanks_visible rfl
  have code : ∀ more, quote :: rest ≠ 45 :: 45 :: more := by
    obtain rfl | rfl := mark <;> simp
  rw [Cursor.token, Cursor.skipGap_eq visible code]
  obtain rfl | rfl := mark <;> rfl

theorem contents_pieces_lines (mark : quote = 34 ∨ quote = 39) (fit : Fit quote pieces) (opening rest : List UInt8)
    (line : Nat) : contents quote opening line ⟨spelling pieces ++ quote :: rest, line⟩ [] =
      .ok (value pieces) ⟨rest, line + lineBreaks (spelling pieces)⟩ := by
  obtain ⟨lineAfter, read⟩ := contents_pieces mark fit opening rest [] line line
  have solid := (quote_plain mark).1
  have passed : spelling pieces ++ quote :: rest = spelling pieces ++ [quote] ++ rest := by simp
  have counted := (contents_steps read).line_eq passed
  have none : lineBreaks [quote] = 0 := by simp [lineBreaks, solid]
  rw [lineBreaks_append_cons solid, none, Nat.add_zero] at counted
  rw [read, ← counted]
  rfl

/-- A quoted text is read piece by piece: pieces between quotes are read as the text that they stand for together, if it
    is one, and what is read is made of pieces. -/
theorem token_pieces (mark : quote = 34 ∨ quote = 39) :
    (∀ pieces, Fit quote pieces → ∀ rest line,
      (∀ text, utf8 text = value pieces → Cursor.token ⟨quote :: (spelling pieces ++ quote :: rest), line⟩ =
        .ok ⟨.string, line, some text⟩ ⟨rest, line + lineBreaks (spelling pieces)⟩) ∧
      (¬ IsText (value pieces) → Cursor.token ⟨quote :: (spelling pieces ++ quote :: rest), line⟩ =
        .error (.malformedString line) ⟨rest, line + lineBreaks (spelling pieces)⟩)) ∧
    ∀ (text : String) line next, (∃ t, Cursor.token ⟨quote :: utf8 text, line⟩ = .ok t next) ∨
        (∃ e, Cursor.token ⟨quote :: utf8 text, line⟩ = .error (.malformedString e) next) →
      ∃ pieces, Fit quote pieces ∧ utf8 text = spelling pieces ++ quote :: next.rest := by
  constructor
  · intro pieces fit rest line
    rw [token_quote mark, contents_pieces_lines mark fit, Cursor.stringToken]
    constructor
    · intro text same
      rw [← same, ofUtf8?_utf8]
    · intro other
      cases decoded : ofUtf8? (value pieces) with
      | none => rfl
      | some text => exact absurd ⟨text, utf8_of_ofUtf8? decoded⟩ other
  · intro text line next read
    rw [token_quote mark] at read
    have whole : ∃ bytes, contents quote (quote :: utf8 text) line ⟨utf8 text, line⟩ [] = .ok bytes next := by
      obtain ⟨t, ok⟩ | ⟨e, malformed⟩ := read
      · obtain ⟨bytes, _, contents, -⟩ := Cursor.stringToken_ok ok
        exact ⟨_, contents⟩
      · cases contents : contents quote (quote :: utf8 text) line ⟨utf8 text, line⟩ [] with
        | ok bytes after =>
          rw [contents, Cursor.stringToken] at malformed
          split at malformed
          · cases malformed
          · cases malformed
            exact ⟨bytes, rfl⟩
        | error e' after =>
          rw [contents, Cursor.stringToken] at malformed
          cases malformed
          exact absurd contents contents_ne_malformed
    obtain ⟨bytes, contents⟩ := whole
    exact exists_pieces_of_contents mark ⟨text, rfl⟩ contents

theorem token_pieces_mixed :
    (∃ pieces, pieces = [.plain 'é', .simple 110 10, .hexadecimal 52 97, .decimal [54, 53], .plain 'a',
        .decimal [48, 48, 57], .plain '1', .unicode [48, 48, 100, 55, 70, 70], .skip [32, 13, 10, 9],
        .lineBreak [10, 13], .plain '\'', .skip [], .hexadecimal 67 51, .decimal [49, 54, 57]] ∧
      Fit 34 pieces ∧ utf8 "é\nJAa\t1\ud7ff\n'é" = value pieces ∧
      Cursor.token ⟨34 :: (spelling pieces ++ 34 :: utf8 "1"), 1⟩ =
        .ok ⟨.string, 1, some "é\nJAa\t1\ud7ff\n'é"⟩ ⟨utf8 "1", 3⟩) ∧
    (Fit 39 [.hexadecimal 102 102] ∧ ¬ IsText (value [.hexadecimal 102 102]) ∧
      Cursor.token ⟨39 :: (spelling [.hexadecimal 102 102] ++ [39]), 1⟩ = .error (.malformedString 1) ⟨[], 1⟩) ∧
    ∃ next pieces, Cursor.token ⟨34 :: utf8 "\\0651\"2", 1⟩ = .ok ⟨.string, 1, some "A1"⟩ next ∧ Fit 34 pieces ∧
      utf8 "\\0651\"2" = spelling pieces ++ 34 :: next.rest := by
  refine ⟨⟨_, rfl, ?_⟩, ?_, ?_⟩
  · generalize same : [Piece.plain 'é', _, _, _, _, _, _, _, _, _, _, _, _, _] = pieces
    have fit : Fit 34 pieces := by subst same; decide +kernel
    have text : utf8 "é\nJAa\t1\ud7ff\n'é" = value pieces := by subst same; decide +kernel
    have breaks : lineBreaks (spelling pieces) = 2 := by subst same; decide +kernel
    have read := ((token_pieces (.inl rfl)).1 pieces fit (utf8 "1") 1).1 _ text
    rw [breaks] at read
    exact ⟨fit, text, read⟩
  · have fit : Fit 39 [.hexadecimal 102 102] := by decide
    have noText : ¬ IsText (value [.hexadecimal 102 102]) := by
      rintro ⟨text, same⟩
      have undecoded : ofUtf8? (value [.hexadecimal 102 102]) = none := by decide +kernel
      rw [← same, ofUtf8?_utf8] at undecoded
      cases undecoded
    exact ⟨fit, noText, ((token_pieces (.inr rfl)).1 _ fit [] 1).2 noText⟩
  · have fit : Fit 34 [.decimal [48, 54, 53], .plain '1'] := by decide +kernel
    have read := ((token_pieces (.inl rfl)).1 _ fit [50] 1).1 "A1" (by decide +kernel)
    have spelt : utf8 "\\0651\"2" = spelling [.decimal [48, 54, 53], .plain '1'] ++ 34 :: [50] := by decide +kernel
    rw [← spelt] at read
    obtain ⟨pieces, fit, whole⟩ := (token_pieces (.inl rfl)).2 _ 1 _ (.inl ⟨_, read⟩)
    exact ⟨_, pieces, read, fit, whole⟩

end Token

end ShortString

end LuaBytecode
