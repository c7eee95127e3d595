import LuaBytecode.Proofs.Token.Lines

namespace LuaBytecode

variable {text : String} {quote : UInt8} {rest : List UInt8}

namespace Cursor

variable {c next : Cursor} {line e : Nat}

theorem stringToken_malformed {r : Scanned (List UInt8)} (h : stringToken line r = .error (.malformedString e) next)
    (other : ∀ e after, r ≠ .error (.malformedString e) after) : ∃ bytes, r = .ok bytes next ∧ ¬ IsText bytes := by
  cases r with
  | error e after =>
    rw [stringToken] at h
    cases h
    exact absurd rfl (other _ _)
  | ok bytes after =>
    simp only [stringToken] at h
    split at h
    · cases h
    · rename_i none
      cases h
      refine ⟨bytes, rfl, ?_⟩
      rintro ⟨text, rfl⟩
      rw [ofUtf8?_utf8] at none
      cases none

theorem longString_ne_malformed (isText : IsText c.rest) : c.longString ≠ .error (.malformedString e) next := by
  intro h
  unfold longString at h
  split at h
  · rename_i level inside opened
    obtain ⟨bytes, read, noText⟩ := stringToken_malformed h fun e after failed => by
      cases (LongBracket.body_eq_error failed).2.1
    obtain ⟨body, closed, ends, rfl⟩ := LongBracket.body_eq_ok read
    rw [LongBracket.opener?_eq_some opened, closed, ← List.append_assoc, ← List.append_assoc] at isText
    exact noText (LongBracket.Encloses.isText ⟨List.append_assoc _ _ _, ends⟩ isText).1.dropBreak.unifyBreaks
  · cases h

end Cursor

namespace ShortString

def Piece.isByte : Piece → Bool
  | hexadecimal _ _ | decimal _ => true
  | _ => false

theorem Piece.Fits.isText_value {next? : Option UInt8} {p : Piece} (h : p.Fits quote next?) (other : p.isByte = false) :
    IsText p.value := by
  cases p with
  | plain c => exact .char c
  | unicode digits => exact .char _
  | simple letter byte =>
    have ascii : simpleEscapes.all (fun entry => entry.2.toNat < 128) = true := by decide
    exact IsText.cons (of_decide_eq_true (List.all_eq_true.mp ascii _ h)) .nil
  | hexadecimal => cases other
  | decimal => cases other
  | skip => exact .nil
  | lineBreak => exact .cons (by decide) .nil

theorem Fit.isText_value {pieces : List Piece} (h : Fit quote pieces) (other : ∀ p ∈ pieces, p.isByte = false) :
    IsText (value pieces) := by
  induction pieces with
  | nil => exact .nil
  | cons p pieces ih =>
    obtain ⟨first, others⟩ := List.forall_mem_cons.mp other
    exact (h.1.isText_value first).append (ih h.2 others)

theorem shortString_malformed {c next : Cursor} {e : Nat} (mark : quote = 34 ∨ quote = 39) (isText : IsText rest)
    (h : c.shortString quote rest = .error (.malformedString e) next) :
    ∃ pieces, Fit quote pieces ∧ rest = spelling pieces ++ quote :: next.rest ∧ ∃ p ∈ pieces, p.isByte = true := by
  obtain ⟨bytes, read, noText⟩ := Cursor.stringToken_malformed h fun _ _ => contents_ne_malformed
  obtain ⟨pieces, fit, rfl⟩ := exists_pieces_of_contents mark isText read
  refine ⟨pieces, fit, rfl, ?_⟩
  by_contra none
  have whole := contents_pieces_lines mark fit c.rest next.rest c.line
  rw [← (EStateM.Result.ok.inj (whole.symm.trans read)).1] at noText
  exact noText (fit.isText_value fun p member => by simpa using fun byte => none ⟨p, member, byte⟩)

end ShortString

namespace NumeralWord

theorem read_ascii (bytes : List UInt8) : ∀ b ∈ (read bytes).text, b.toNat < 128 := by
  have run {condition : Bool} {p : UInt8 → Bool} {bytes : List UInt8} (h : ∀ b, p b = true → Byte.isName b || b == 46) :
      ∀ b ∈ (runOf condition p bytes).1, b.toNat < 128 := by
    intro b member
    obtain name | point := by simpa using h b (runOf_all _ _ _ b member)
    · exact Token.name_ascii b name
    · simp [point]
  have digits (hex : Bool) : ∀ b, (if hex then Byte.isHexDigit else Byte.isDigit) b = true → Byte.isName b || b == 46 := by
    intro b digit
    cases hex with
    | true => simp [Numeral.isName_of_isHexDigit b digit]
    | false => simp [Byte.isName, show Byte.isDigit b = true from digit]
  obtain ⟨lead, whole, point, fraction, mark, sign, power, glued, leads, rfl, points, rfl, marks, signs, rfl, rfl, parts⟩ :=
    read_stages bytes
  rw [parts]
  simp only [text, List.forall_mem_append]
  refine ⟨?_, run (digits _), ?_, run (digits _), ?_, ?_, run (digits false), run fun b glued => glued⟩
  · obtain none | ⟨x, listed, found⟩ := leads ▸ leadOf_cases bytes
    · simp [none]
    · obtain rfl | rfl : x = 120 ∨ x = 88 := by simpa using listed
      all_goals simp [found]
  · obtain found | ⟨none, -⟩ := points ▸ pointOf_cases _
    · simp [found]
    · simp [none]
  · obtain none | ⟨b, isMark, found⟩ := marks ▸ markOf_cases _ _
    · simp [none]
    · simpa [found] using Token.name_ascii b (Numeral.isMark_classes b _ isMark).2
  · have listed : sign.1 ∈ [[], [43], [45]] := signs ▸ signOf_mem _ _
    obtain none | found | found : sign.1 = [] ∨ sign.1 = [43] ∨ sign.1 = [45] := by simpa using listed
    · simp [none]
    all_goals simp [found]

end NumeralWord

theorem utf8Width_ofNat {n : Nat} (small : n < 256) :
    utf8Width (UInt8.ofNat n) = if n < 128 then 1 else if n < 224 then 2 else if n < 240 then 3 else 4 := by
  simp only [utf8Width, UInt8.lt_iff_toNat_lt, UInt8.toNat_ofNat', Nat.mod_eq_of_lt small]
  rfl

theorem take_utf8Width (ch : Char) (more : List UInt8) : ∃ lead others, String.utf8EncodeChar ch = lead :: others ∧
    (lead :: (others ++ more)).take (utf8Width lead) = String.utf8EncodeChar ch := by
  rw [String.utf8EncodeChar]
  generalize ch.val.toNat = v
  split
  · refine ⟨_, _, rfl, ?_⟩
    rw [utf8Width_ofNat (by omega), if_pos (by omega)]
    simp
  split
  · refine ⟨_, _, rfl, ?_⟩
    rw [utf8Width_ofNat (by omega), if_neg (by omega), if_pos (by omega)]
    simp
  split
  · refine ⟨_, _, rfl, ?_⟩
    rw [utf8Width_ofNat (by omega), if_neg (by omega), if_neg (by omega), if_pos (by omega)]
    simp
  · refine ⟨_, _, rfl, ?_⟩
    rw [utf8Width_ofNat (by omega), if_neg (by omega), if_neg (by omega), if_neg (by omega)]
    simp

theorem exists_append_of_ascii {slice : List UInt8} (ascii : ∀ b ∈ slice, b.toNat < 128)
    (split : utf8 text = slice ++ rest) : ∃ more, text = ofAscii slice ++ more ∧ utf8 more = rest := by
  have whole : IsText (slice ++ rest) := ⟨text, split⟩
  obtain ⟨more, rfl⟩ := whole.drop ascii
  exact ⟨more, utf8_injective (by rw [split, utf8_append, utf8_ofAscii ascii]), rfl⟩

theorem Cursor.symbol_unexpected {c next : Cursor} {near : String} {line : Nat} (same : utf8 text = c.rest)
    (some_byte : c.rest ≠ []) (h : c.symbol = .error (.unexpectedChar near line) next) :
    ∃ ch more, near = String.singleton ch ∧ text = near ++ more := by
  have isText : IsText c.rest := ⟨text, same⟩
  obtain none | ⟨ch, more, split, behind⟩ := isText.cases
  · exact absurd none some_byte
  obtain ⟨lead, others, encoded, whole⟩ := take_utf8Width ch more
  obtain ⟨after, rfl⟩ := behind
  have bytes : utf8 (String.singleton ch) = String.utf8EncodeChar ch := by
    rw [String.singleton_eq_ofList, utf8_ofList, List.flatMap_singleton]
  have width : c.rest.take (c.rest.head?.elim 0 utf8Width) = utf8 (String.singleton ch) := by
    rw [bytes, ← whole, split, encoded]
    rfl
  unfold symbol at h
  split at h
  · cases h
  · simp only [width, ofUtf8Start, ofUtf8?_utf8] at h
    cases h
    exact ⟨ch, after, rfl, utf8_injective (by rw [same, split, utf8_append, bytes])⟩

/-- What is cut out of the source where a token starts is made of whole characters, and only a byte that is given by its
    number makes a string that is none. -/
structure Cursor.Whole (start : Cursor) (text : String) : Prop where
  name : ∀ t next, start.name = .ok t next → ∃ word more, t.text? = some word ∧ text = word ++ more ∧ utf8 more = next.rest
  numeral : ∀ t next, start.numeral = .ok t next →
    ∃ word more, t.text? = some word ∧ text = word ++ more ∧ utf8 more = next.rest
  malformedNumber : ∀ near line next, start.numeral = .error (.malformedNumber near line) next →
    ∃ more, text = near ++ more ∧ utf8 more = next.rest
  unexpectedChar : ∀ near line next, start.rest ≠ [] → start.symbol = .error (.unexpectedChar near line) next →
    ∃ ch more, near = String.singleton ch ∧ text = near ++ more
  longString : ∀ line next, start.longString ≠ .error (.malformedString line) next
  shortString : ∀ quote rest line next, start.rest = quote :: rest → quote = 34 ∨ quote = 39 →
    start.shortString quote rest = .error (.malformedString line) next →
    ∃ pieces, ShortString.Fit quote pieces ∧ rest = ShortString.spelling pieces ++ quote :: next.rest ∧
      ∃ p ∈ pieces, p.isByte = true
  plainString : ∀ quote pieces more, start.rest = quote :: (ShortString.spelling pieces ++ quote :: more) →
    quote = 34 ∨ quote = 39 → ShortString.Fit quote pieces → (∀ p ∈ pieces, p.isByte = false) →
    ∃ contents, utf8 contents = ShortString.value pieces ∧
      start.shortString quote (ShortString.spelling pieces ++ quote :: more) =
        .ok ⟨.string, start.line, some contents⟩ ⟨more, start.line + lineBreaks (ShortString.spelling pieces)⟩

theorem Cursor.numeral_whole {c : Cursor} (same : utf8 text = c.rest) :
    ∃ more, text = ofAscii (NumeralWord.read c.rest).text ++ more ∧ utf8 more = (NumeralWord.read c.rest).rest :=
  exists_append_of_ascii (NumeralWord.read_ascii _) (same.trans (NumeralWord.text_append_rest _).symm)

theorem Cursor.whole {start : Cursor} (same : utf8 text = start.rest) : start.Whole text where
  name t next read := by
    cases read
    have split := same.trans (List.takeWhile_append_dropWhile (p := Byte.isName)).symm
    obtain ⟨more, divided⟩ := exists_append_of_ascii
      (fun b member => Token.name_ascii b (List.all_eq_true.mp List.all_takeWhile b member)) split
    exact ⟨_, more, rfl, divided⟩
  numeral t next read := by
    obtain ⟨more, split⟩ := numeral_whole same
    simp only [Cursor.numeral] at read
    split at read <;> cases read
    exact ⟨_, more, rfl, split⟩
  malformedNumber near line next read := by
    simp only [Cursor.numeral] at read
    split at read <;> cases read
    exact numeral_whole same
  unexpectedChar near line next some_byte := symbol_unexpected same some_byte
  longString line next := longString_ne_malformed ⟨text, same⟩
  shortString quote rest line next start mark := by
    have isText : IsText (quote :: rest) := ⟨text, same.trans start⟩
    exact ShortString.shortString_malformed mark (isText.tail (ShortString.quote_plain mark).2.2.2)
  plainString quote pieces more _ mark fit other := by
    obtain ⟨contents, value⟩ := fit.isText_value other
    refine ⟨contents, value, ?_⟩
    rw [Cursor.shortString, ShortString.contents_pieces_lines mark fit, ← value, stringToken, ofUtf8?_utf8]

/-- Wherever a token starts, the source is divided into texts. -/
theorem Reader.reached_whole {source : String} {r : Reader} {start : Cursor} (reached : Reached source r)
    (gap : r.cursor.skipGap = .ok () start) :
    ∃ front back, source = front ++ back ∧ utf8 back = start.rest ∧ start.Whole back := by
  obtain ⟨before, split, -⟩ := (reached.exact.steps.trans (Cursor.skipGap_steps gap)).startsOnLine
  obtain ⟨front, back, divided, -, same⟩ :=
    (Cursor.skipGap_isText gap reached.exact.isText).exists_append split
  exact ⟨front, back, divided, same, Cursor.whole same⟩

theorem Reader.reached_whole_section : ∃ source r start front, source = "--é\n'ü'§" ∧ Reached source r ∧
    r.cursor.skipGap = .ok () start ∧ utf8 "§" = start.rest ∧ source = front ++ "§" ∧ start.Whole "§" := by
  obtain ⟨_, r, first, checked⟩ := Request.exists_run .next (.ofSource "--é\n'ü'§")
    (fun _ r => decide (r.cursor.rest = utf8 "§")) (by decide +kernel)
  have rest := of_decide_eq_true checked
  have gap : r.cursor.skipGap = .ok () r.cursor := by
    obtain ⟨⟨bytes, line⟩, held⟩ := r
    cases rest
    exact Cursor.skipGap_eq (Cursor.skipBlanks_visible rfl) (by simp)
  have reached := Reached.answered .start first
  obtain ⟨front, back, divided, same, whole⟩ := reached_whole reached gap
  cases utf8_injective (same.trans rest)
  exact ⟨_, r, r.cursor, front, rfl, reached, gap, same, divided, whole⟩

end LuaBytecode
