import LuaBytecode.Proofs.Token.Lines

namespace LuaBytecode

variable {source after : List UInt8} {t : Token}

namespace Numeral

def chars (bytes : List UInt8) : List Char := bytes.map fun b => Char.ofNat b.toNat

theorem chars_append (front rest : List UInt8) : chars (front ++ rest) = chars front ++ chars rest := List.map_append

theorem chars_nil : chars [] = [] := rfl

theorem chars_cons (b : UInt8) (rest : List UInt8) : chars (b :: rest) = Char.ofNat b.toNat :: chars rest := rfl

theorem forall_mem_chars {P : Char → Prop} {bytes : List UInt8} (h : ∀ b ∈ bytes, P (Char.ofNat b.toNat)) :
    ∀ c ∈ chars bytes, P c :=
  List.forall_mem_map.mpr h

inductive IsWhole : List UInt8 → Prop
  | decimal {digits : List UInt8} : (∀ d ∈ digits, Byte.isDigit d = true) → digits ≠ [] → IsWhole digits
  | hexadecimal {x : UInt8} {digits : List UInt8} : x ∈ [120, 88] → (∀ d ∈ digits, Byte.isHexDigit d = true) →
    digits ≠ [] → IsWhole (48 :: x :: digits)

theorem exists_digits? {digit : Char → Option Nat} {cs : List Char} (h : ∀ c ∈ cs, (digit c).isSome = true) :
    ∃ ds, digits? digit cs = some ds := by
  induction cs with
  | nil => exact ⟨[], rfl⟩
  | cons c cs ih =>
    obtain ⟨first, others⟩ := List.forall_mem_cons.mp h
    obtain ⟨d, digit⟩ := Option.isSome_iff_exists.mp first
    obtain ⟨ds, digits⟩ := ih others
    exact ⟨d :: ds, by rw [digits?_cons, digit, digits]; rfl⟩

/-- How a kind of numeral is read from characters: the digits, and the marks of an exponent. -/
structure Reads (hex : Bool) (digit : UInt8 → Bool) (digit? : Char → Option Nat) (marks : List Char) : Prop where
  digit : ∀ b, digit b = true → (digit? (Char.ofNat b.toNat)).isSome = true ∧ Char.ofNat b.toNat ∉ '.' :: marks
  mark : ∀ b, NumeralWord.isMark hex b = true → Char.ofNat b.toNat ∈ marks
  point : '.' ∉ marks

theorem digit_classes : ∀ b : UInt8,
    (Byte.isDigit b = true → (digit? (Char.ofNat b.toNat)).isSome = true ∧ Char.ofNat b.toNat ∉ ['.', 'e', 'E'] ∧
      Char.ofNat b.toNat ∈ decimalStart) ∧
    (Byte.isHexDigit b = true → (hexDigit? (Char.ofNat b.toNat)).isSome = true ∧ Char.ofNat b.toNat ∉ ['.', 'p', 'P'] ∧
      Char.ofNat b.toNat ∉ ['x', 'X']) :=
  forall_uint8 (by decide +kernel)

theorem mark_classes : ∀ b : UInt8,
    (NumeralWord.isMark false b = true → Char.ofNat b.toNat ∈ ['e', 'E'] ∧ Byte.isHexDigit b = true) ∧
    (NumeralWord.isMark true b = true → Char.ofNat b.toNat ∈ ['p', 'P']) :=
  forall_uint8 (by decide +kernel)

theorem reads_decimal : Reads false Byte.isDigit digit? ['e', 'E'] where
  digit b isDigit :=
    have digit := (digit_classes b).1 isDigit
    ⟨digit.1, digit.2.1⟩
  mark b isMark := ((mark_classes b).1 isMark).1
  point := by decide

theorem reads_hexadecimal : Reads true Byte.isHexDigit hexDigit? ['p', 'P'] where
  digit b isDigit :=
    have digit := (digit_classes b).2 isDigit
    ⟨digit.1, digit.2.1⟩
  mark b isMark := (mark_classes b).2 isMark
  point := by decide

theorem IsExponent.signedDigits? {hex : Bool} {exponent : List UInt8} (power : IsExponent hex exponent) :
    exponent = [] ∨ ∃ signed, Numeral.signedDigits? (chars exponent.tail) = some signed := by
  cases power with
  | none => exact .inl rfl
  | @power mark sign digits _ signed all some_digit =>
    have unsigned : Numeral.sign (chars digits) = (false, chars digits) := by
      obtain ⟨d, rest, rfl⟩ := List.exists_cons_of_ne_nil some_digit
      exact sign_cons ((digit_classes d).1 (all d (.head _))).2.2
    have unempty : chars digits ≠ [] := by simpa [chars] using some_digit
    obtain ⟨ds, read⟩ := exists_digits? (forall_mem_chars fun b member => (reads_decimal.digit b (all b member)).1)
    rw [List.tail_cons, chars_append]
    obtain rfl | rfl | rfl : sign = [] ∨ sign = [43] ∨ sign = [45] := by simpa using signed
    · exact .inr ⟨_, signedDigits?_of_sign unsigned unempty read⟩
    · exact .inr ⟨_, signedDigits?_of_sign rfl unempty read⟩
    · exact .inr ⟨_, signedDigits?_of_sign rfl unempty read⟩

section

variable {hex : Bool} {digit : UInt8 → Bool} {digit? : Char → Option Nat} {marks : List Char}
  {mantissa exponent : List UInt8}

variable (reads : Reads hex digit digit? marks)

include reads

theorem IsExponent.breakAt (whole : IsMantissa digit mantissa) (power : IsExponent hex exponent) :
    breakAt marks (chars (mantissa ++ exponent)) = (chars mantissa, chars exponent) := by
  rw [chars_append]
  apply breakAt_append
  · refine forall_mem_chars fun b member => ?_
    obtain isDigit | rfl := whole.mem b member
    · exact fun mark => (reads.digit b isDigit).2 (.tail _ mark)
    · exact reads.point
  · cases power with
    | none => simp [chars]
    | @power mark _ _ marked =>
      rintro _ ⟨⟩
      exact reads.mark mark marked

theorem IsMantissa.breakAt (whole : IsMantissa digit mantissa) :
    ∃ front rest, Numeral.breakAt ['.'] (chars mantissa) = (front, rest) ∧
      (front.isEmpty && rest.tail.isEmpty) = false ∧ ∀ c ∈ front ++ rest.tail, (digit? c).isSome = true := by
  have free (bytes : List UInt8) (digits : ∀ b ∈ bytes, digit b = true) : ∀ c ∈ chars bytes, c ∉ ['.'] :=
    forall_mem_chars fun b member => by
      have other := (reads.digit b (digits b member)).2
      simp_all
  cases whole with
  | whole digits some_digit =>
    refine ⟨chars mantissa, [], breakAt_of_free (free _ digits), by simpa [chars] using some_digit, ?_⟩
    simpa using forall_mem_chars fun b member => (reads.digit b (digits b member)).1
  | @point front fraction digits some_digit =>
    have before : ∀ d ∈ front, digit d = true := fun d member => digits d (List.mem_append_left _ member)
    refine ⟨chars front, '.' :: chars fraction, ?_, ?_, ?_⟩
    · have point : chars (46 :: fraction) = '.' :: chars fraction := rfl
      rw [chars_append, point]
      exact breakAt_append (free _ before) (by simp)
    · cases front <;> cases fraction <;> simp [chars] at some_digit ⊢
    · rw [List.tail_cons, ← chars_append]
      exact forall_mem_chars fun b member => (reads.digit b (digits b member)).1

theorem exists_parts? {α : Type} {exponent? : List Char → Option α} (absent : α)
    (converts : ∀ cs signed, signedDigits? cs = some signed → ∃ e, exponent? cs = some e)
    (whole : IsMantissa digit mantissa) (power : IsExponent hex exponent) :
    ∃ parts, parts? digit? marks exponent? absent (chars (mantissa ++ exponent)) = some parts := by
  obtain ⟨front, rest, split, some_digit, digits⟩ := whole.breakAt reads
  obtain ⟨before, behind⟩ := List.forall_mem_append.mp digits
  obtain ⟨ds, units⟩ := exists_digits? before
  obtain ⟨fs, fraction⟩ := exists_digits? behind
  have marked := power.breakAt reads whole
  cases exponent with
  | nil => exact ⟨⟨ds, fs, absent⟩, by rw [parts?, marked, chars_nil]; simp [split, some_digit, units, fraction]⟩
  | cons mark tail =>
    obtain empty | ⟨signed, read⟩ := power.signedDigits?
    · cases empty
    · obtain ⟨e, powered⟩ := converts (chars tail) signed read
      exact ⟨⟨ds, fs, e⟩, by rw [parts?, marked, chars_cons]; simp [powered, split, some_digit, units, fraction]⟩

theorem IsMantissa.digits_or_marked (whole : IsMantissa digit mantissa) (power : IsExponent hex exponent) :
    (exponent = [] ∧ ∀ d ∈ mantissa, digit d = true) ∨ ∃ c ∈ chars (mantissa ++ exponent), c ∈ '.' :: marks := by
  cases power with
  | none =>
    cases whole with
    | whole digits => exact .inl ⟨rfl, digits⟩
    | point => exact .inr ⟨'.', by simp [chars], by simp⟩
  | @power mark _ _ marked =>
    exact .inr ⟨Char.ofNat mark.toNat, by simp [chars], .tail _ (reads.mark mark marked)⟩

end

section

variable {mantissa exponent : List UInt8}

theorem exists_hexFloat? (whole : IsMantissa Byte.isHexDigit mantissa) (power : IsExponent true exponent) :
    ∃ x, hexFloat? (chars (mantissa ++ exponent)) = some x := by
  have converts : ∀ cs signed, signedDigits? cs = some signed → ∃ e, binaryExponent? cs = some e :=
    fun cs signed read => ⟨_, by rw [binaryExponent?, read]; rfl⟩
  obtain ⟨parts, taken⟩ := exists_parts? reads_hexadecimal 0 converts whole power
  exact ⟨_, by rw [hexFloat?, taken]; rfl⟩

theorem exists_float? (whole : IsMantissa Byte.isDigit mantissa) (power : IsExponent false exponent) :
    ∃ x, float? (chars (mantissa ++ exponent)) = some x := by
  have converts : ∀ cs signed, signedDigits? cs = some signed → ∃ e, decimalExponent? cs = some e :=
    fun cs signed read => ⟨_, by rw [decimalExponent?, read]; rfl⟩
  obtain ⟨parts, taken⟩ := exists_parts? reads_decimal 0 converts whole power
  have magnitude : ∃ x, decimalMagnitude? (chars (mantissa ++ exponent)) = some x :=
    ⟨_, by rw [decimalMagnitude?, taken]; rfl⟩
  obtain ⟨x, read⟩ := magnitude
  obtain ⟨b, rest, rfl⟩ := List.exists_cons_of_ne_nil whole.ne_nil
  have start : Char.ofNat b.toNat ∈ decimalStart := by
    obtain digit | rfl := whole.mem b (.head _)
    · exact ((digit_classes b).1 digit).2.2
    · exact .head _
  rw [List.cons_append, chars_cons] at read ⊢
  exact ⟨_, by rw [float?_cons start, read]; rfl⟩

theorem exists_hexadecimal? (whole : IsMantissa Byte.isHexDigit mantissa) (power : IsExponent true exponent) :
    ∃ n, hexadecimal? (chars (mantissa ++ exponent)) = some n ∧
      ∀ v, n = .integer v → exponent = [] ∧ ∀ d ∈ mantissa, Byte.isHexDigit d = true := by
  unfold hexadecimal?
  split
  · obtain ⟨x, read⟩ := exists_hexFloat? whole power
    exact ⟨.float x, by rw [read]; rfl, by simp⟩
  · rename_i unmarked
    obtain ⟨rfl, digits⟩ | ⟨c, member, marked⟩ := whole.digits_or_marked reads_hexadecimal power
    · obtain ⟨ds, read⟩ := exists_digits? (forall_mem_chars fun b member => (reads_hexadecimal.digit b (digits b member)).1)
      have unempty : (chars mantissa).isEmpty = false := by simpa [chars] using whole.ne_nil
      rw [List.append_nil, unempty, read]
      exact ⟨_, rfl, fun _ _ => ⟨rfl, digits⟩⟩
    · exact absurd (List.any_eq_true.mpr ⟨c, member, List.contains_iff_mem.mpr marked⟩) unmarked

theorem exists_decimal? (whole : IsMantissa Byte.isDigit mantissa) (power : IsExponent false exponent) :
    ∃ n, decimal? (chars (mantissa ++ exponent)) = some n ∧
      ∀ v, n = .integer v → exponent = [] ∧ ∀ d ∈ mantissa, Byte.isDigit d = true := by
  obtain ⟨x, read⟩ := exists_float? whole power
  unfold decimal?
  split
  · exact ⟨.float x, by rw [read]; rfl, by simp⟩
  · rename_i unmarked
    obtain alone | ⟨c, member, marked⟩ := whole.digits_or_marked reads_decimal power
    · split
      · exact ⟨_, rfl, fun _ _ => alone⟩
      · exact ⟨.float x, by rw [read]; rfl, by simp⟩
    · exact absurd (List.any_eq_true.mpr ⟨c, member, List.contains_iff_mem.mpr marked⟩) unmarked

theorem IsMantissa.unled (whole : IsMantissa Byte.isDigit mantissa) (power : IsExponent false exponent) :
    ∀ c ∈ chars (mantissa ++ exponent), c ∉ ['x', 'X'] := by
  have other (b : UInt8) (h : Byte.isHexDigit b = true ∨ b ∈ [43, 45, 46]) : Char.ofNat b.toNat ∉ ['x', 'X'] := by
    obtain digit | sign := h
    · exact ((digit_classes b).2 digit).2.2
    · obtain rfl | rfl | rfl : b = 43 ∨ b = 45 ∨ b = 46 := by simpa using sign
      all_goals decide
  refine forall_mem_chars fun b member => other b ?_
  obtain inMantissa | inExponent := List.mem_append.mp member
  · obtain digit | rfl := whole.mem b inMantissa
    · exact .inl (isHexDigit_of_isDigit b digit)
    · exact .inr (by simp)
  -- the marks of decimal exponents are hexadecimal digits
  · exact power.mem_of (fun b mark => ((mark_classes b).1 mark).2) isHexDigit_of_isDigit b inExponent

end

end Numeral

theorem IsNumeral.exists_read? {text : List UInt8} (h : IsNumeral text) :
    ∃ n, Numeral.read? (ofAscii text) = some n ∧ ∀ v, n = .integer v → Numeral.IsWhole text := by
  cases h with
  | @decimal mantissa exponent whole power =>
    obtain ⟨n, read, integer⟩ := Numeral.exists_decimal? whole power
    refine ⟨n, (Numeral.read?_decimal (whole.unled power)).trans read, fun v same => ?_⟩
    obtain ⟨rfl, digits⟩ := integer v same
    rw [List.append_nil]
    exact .decimal digits whole.ne_nil
  | @hexadecimal x mantissa exponent mark whole power =>
    obtain ⟨n, read, integer⟩ := Numeral.exists_hexadecimal? whole power
    have marks : ∀ x ∈ [(120 : UInt8), 88], Char.ofNat x.toNat ∈ ['x', 'X'] := by simp
    refine ⟨n, (Numeral.read?_hexadecimal (marks x mark) _).trans read, fun v same => ?_⟩
    obtain ⟨rfl, digits⟩ := integer v same
    rw [List.append_nil]
    exact .hexadecimal mark digits whole.ne_nil

theorem Token.Placed.numeral (h : t.Placed source after) (kind : t.kind = .number) :
    (∃ before, source = before ++ (utf8 t.text ++ after)) ∧ after.head?.any Byte.isName = false ∧
      IsNumeral (utf8 t.text) := by
  have other : ∀ k ∈ TokenKind.symbols ++ TokenKind.keywords, k ≠ .number := by decide
  obtain ⟨lexeme, ⟨before, split, -⟩, spelt | ⟨last, -⟩⟩ := h
  · cases spelt with
    | number numeral stop => exact ⟨⟨before, split⟩, stop, numeral⟩
    | symbol listed => exact absurd kind (other _ (List.mem_append_left _ listed))
    | keyword listed => exact absurd kind (other _ (List.mem_append_right _ listed))
    | identifier => cases kind
    | shortString => cases kind
    | longString => cases kind
  · rw [last] at kind
    cases kind

theorem Token.Placed.exists_read? (h : t.Placed source after) (kind : t.kind = .number) :
    ∃ n, Numeral.read? t.text = some n ∧ ∀ v, n = .integer v → Numeral.IsWhole (utf8 t.text) := by
  obtain ⟨-, -, numeral⟩ := h.numeral kind
  have text : ofAscii (utf8 t.text) = t.text := ofAscii_utf8 numeral.ascii
  have read := numeral.exists_read?
  rwa [text] at read

/-- Every number token, also in front of a lexical error, is a numeral with no letter, digit or underscore right behind
    it, and is converted; it is an integer only without a point and an exponent. So there is no lexical error but where
    the tokens end. -/
theorem Chunk.numerals_convert (source : String) :
    (∀ t ∈ (TokenStream.ofSource source).tokens, t.kind = .number →
      (∃ before after, t.Placed (utf8 source) after ∧ utf8 source = before ++ (utf8 t.text ++ after) ∧
        after.head?.any Byte.isName = false) ∧
      IsNumeral (utf8 t.text) ∧
      ∃ n, Numeral.read? t.text = some n ∧ (∀ v, n = .integer v → Numeral.IsWhole (utf8 t.text)) ∧
        ∀ s, Parser.numeral t s = .ok (.ofNumber n, s)) ∧
    ∀ e, Chunk.parse source = .error (.lex e) → Chunk.tokens source = .error e := by
  refine ⟨fun t member kind => ?_, fun e failed => ?_⟩
  · obtain ⟨after, placed⟩ := Reader.exists_placed member
    obtain ⟨⟨before, split⟩, stop, numeral⟩ := placed.numeral kind
    obtain ⟨n, read, integer⟩ := placed.exists_read? kind
    refine ⟨⟨before, after, placed, split, stop⟩, numeral, n, read, integer, fun s => ?_⟩
    rw [Parser.numeral, read]
    rfl
  · obtain ending | ⟨t, member, kind, unread, -⟩ := (Block.parse_blames failed).lexical e rfl
    · rw [Chunk.tokens, TokenStream.toExcept, ending]
    · obtain ⟨after, placed⟩ := Reader.exists_placed member
      obtain ⟨n, read, -⟩ := placed.exists_read? kind
      rw [read] at unread
      cases unread

theorem Chunk.numerals_convert_mixed : ∃ source, source = "x = 0x1e5 .. 3..0X.8P+1 y = 4e-" ∧
    (∃ t ∈ (TokenStream.ofSource source).tokens, t.kind = .number ∧ t.text = "0X.8P+1" ∧ IsNumeral (utf8 t.text) ∧
      ∃ n, Numeral.read? t.text = some n ∧ ∀ s, Parser.numeral t s = .ok (.ofNumber n, s)) ∧
    Chunk.parse source = .error (.lex (.malformedNumber "4e-" 1)) ∧
    Chunk.tokens source = .error (.malformedNumber "4e-" 1) := by
  refine ⟨_, rfl, ?_, ?_⟩
  · have found : ((TokenStream.ofSource "x = 0x1e5 .. 3..0X.8P+1 y = 4e-").tokens.any fun t =>
        decide (t.kind = .number ∧ t.text = "0X.8P+1")) = true := by
      decide +kernel
    obtain ⟨t, member, checked⟩ := List.any_eq_true.mp found
    obtain ⟨kind, text⟩ := of_decide_eq_true checked
    obtain ⟨-, numeral, n, read, -, converts⟩ := (Chunk.numerals_convert _).1 t member kind
    exact ⟨t, member, kind, text, numeral, n, read, converts⟩
  · have fails : (Chunk.parse "x = 0x1e5 .. 3..0X.8P+1 y = 4e-").map (fun _ => ()) =
        .error (.lex (.malformedNumber "4e-" 1)) := by
      decide +kernel
    cases parsed : Chunk.parse "x = 0x1e5 .. 3..0X.8P+1 y = 4e-" with
    | ok block =>
      rw [parsed] at fails
      cases fails
    | error e =>
      rw [parsed] at fails
      cases fails
      exact ⟨rfl, (Chunk.numerals_convert _).2 _ parsed⟩

end LuaBytecode
