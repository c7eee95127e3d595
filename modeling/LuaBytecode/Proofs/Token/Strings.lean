import LuaBytecode.Proofs.Token.Spaced

namespace LuaBytecode

variable {next c : Cursor} {bytes rest : List UInt8} {b : UInt8} {level line : Nat}

inductive IsLineBreak : List UInt8 → Prop
  | one {b : UInt8} : Byte.isBreak b = true → IsLineBreak [b]
  | pair {b c : UInt8} : Byte.isBreak b = true → Byte.isBreak c = true → c ≠ b → IsLineBreak [b, c]

/-- Every line break as a line feed; breaks are paired from the left. -/
def unifyBreaks : List UInt8 → List UInt8
  | [] => []
  | [b] => [if Byte.isBreak b then 10 else b]
  | b :: c :: rest =>
    if Byte.isBreak b && Byte.isBreak c && c != b then 10 :: unifyBreaks rest
    else (if Byte.isBreak b then 10 else b) :: unifyBreaks (c :: rest)

def dropBreak : List UInt8 → List UInt8
  | [] => []
  | [b] => if Byte.isBreak b then [] else [b]
  | b :: c :: rest =>
    if Byte.isBreak b && Byte.isBreak c && c != b then rest
    else if Byte.isBreak b then c :: rest else b :: c :: rest

namespace Cursor

def afterByte (b : UInt8) (rest : List UInt8) : List UInt8 := if Byte.isBreak b then afterBreak b rest else rest

theorem step_eq_some (h : c.step = some (b, next)) : ∃ rest, c.rest = b :: rest ∧ next.rest = afterByte b rest ∧
    next.line = c.line + if Byte.isBreak b then 1 else 0 := by
  unfold step at h
  split at h
  · cases h
  · rename_i b' rest bytes
    split at h
    all_goals
      rename_i kind
      cases h
      exact ⟨rest, bytes, by simp [afterByte, kind], by simp [kind]⟩

theorem rest_of_step_none (h : c.step = none) : c.rest = [] := by
  unfold step at h
  split at h
  · assumption
  · split at h <;> cases h

theorem afterByte_cases (b : UInt8) (rest : List UInt8) : afterByte b rest = rest ∨
    ∃ c, rest = c :: afterByte b rest ∧ Byte.isBreak b = true ∧ Byte.isBreak c = true ∧ c ≠ b := by
  unfold afterByte
  split
  · rename_i first
    cases rest with
    | nil => exact .inl rfl
    | cons c rest =>
      simp only [afterBreak]
      split
      · rename_i second
        simp only [Bool.and_eq_true, bne_iff_ne] at second
        exact .inr ⟨c, rfl, first, second.1, second.2⟩
      · exact .inl rfl
  · exact .inl rfl

theorem afterByte_append {stop : UInt8} {body more : List UInt8} (h : afterByte b rest = body ++ stop :: more) :
    ∃ tail, rest = tail ++ stop :: more ∧ afterByte b tail = body := by
  obtain same | ⟨c, pair, first, second, other⟩ := afterByte_cases b rest
  · rw [same] at h
    subst h
    refine ⟨body, rfl, ?_⟩
    cases body with
    | nil => simp [afterByte, afterBreak]
    | cons c body =>
      by_cases first : Byte.isBreak b = true
      · simp only [afterByte, first, if_true, List.cons_append, afterBreak] at same ⊢
        split at same
        · have shorter := congrArg List.length same
          simp at shorter
        · rename_i alone
          rw [if_neg alone]
      · simp [afterByte, first]
  · refine ⟨c :: body, ?_, ?_⟩
    · rw [pair, h, List.cons_append]
    · simp [afterByte, afterBreak, first, second, other]

end Cursor

theorem unifyBreaks_cons (b : UInt8) (rest : List UInt8) :
    unifyBreaks (b :: rest) = (if Byte.isBreak b then 10 else b) :: unifyBreaks (Cursor.afterByte b rest) := by
  cases rest with
  | nil => simp [unifyBreaks, Cursor.afterByte, Cursor.afterBreak]
  | cons c rest =>
    rw [unifyBreaks, Cursor.afterByte, Cursor.afterBreak]
    cases first : Byte.isBreak b with
    | false => simp
    | true => cases pair : (Byte.isBreak c && c != b) <;> simp [pair]

theorem dropBreak_cons (b : UInt8) (rest : List UInt8) :
    dropBreak (b :: rest) = if Byte.isBreak b then Cursor.afterByte b rest else b :: rest := by
  cases rest with
  | nil => simp [dropBreak, Cursor.afterByte, Cursor.afterBreak]
  | cons c rest =>
    rw [dropBreak, Cursor.afterByte, Cursor.afterBreak]
    cases first : Byte.isBreak b with
    | false => simp
    | true => cases pair : (Byte.isBreak c && c != b) <;> simp [pair]

theorem Cursor.skipBreak_rest (c : Cursor) : c.skipBreak.rest = dropBreak c.rest := by
  unfold skipBreak
  split
  · rename_i b next taken
    obtain ⟨rest, start, left, -⟩ := step_eq_some taken
    rw [start, dropBreak_cons]
    split
    · exact left
    · exact start
  · rename_i none
    rw [rest_of_step_none none]
    rfl

namespace LongBracket

/-- A closer of the level comes at the end of the body and nowhere in front of it. -/
def Ends (level : Nat) (body : List UInt8) : Prop :=
  ∀ before after, body ++ closer level = before ++ (closer level ++ after) → after = []

/-- The bytes are an opener, the body and the first closer of the same level. -/
structure Encloses (level : Nat) (body bytes : List UInt8) : Prop where
  parts : bytes = opener level ++ (body ++ closer level)
  first : Ends level body

theorem opener?_opener (level : Nat) (rest : List UInt8) : opener? (opener level ++ rest) = some (level, rest) := by
  have equals : ∀ b ∈ List.replicate level (61 : UInt8), (b == 61) = true := by simp
  have taken : (List.replicate level 61 ++ 91 :: rest).takeWhile (· == (61 : UInt8)) = List.replicate level 61 := by
    rw [List.takeWhile_append_of_pos equals]
    simp
  have left : (List.replicate level 61 ++ 91 :: rest).dropWhile (· == (61 : UInt8)) = 91 :: rest := by
    rw [List.dropWhile_append_of_pos equals]
    simp
  have parts : opener level ++ rest = 91 :: (List.replicate level 61 ++ 91 :: rest) := by simp [opener]
  rw [parts]
  simp [opener?, taken, left]

theorem ends_nil (level : Nat) : Ends level [] := by
  intro before after same
  have lengths := congrArg List.length same
  simp only [List.nil_append, List.length_append] at lengths
  exact List.eq_nil_of_length_eq_zero (by omega)

theorem Ends.cons {body : List UInt8} (h : Ends level body) (other : ¬ closer level <+: b :: (body ++ closer level)) :
    Ends level (b :: body) := by
  intro before after same
  cases before with
  | nil => exact absurd ⟨after, same.symm⟩ other
  | cons c before => exact h before after (List.cons.inj same).2

theorem not_closer_within (lineBreak : Byte.isBreak b = true) (rest : List UInt8) : ¬ closer level <+: b :: rest := by
  rintro ⟨more, same⟩
  obtain ⟨rfl, -⟩ := List.cons.inj same
  cases lineBreak

theorem Ends.of_afterByte {tail : List UInt8} (h : Ends level (Cursor.afterByte b tail)) : Ends level tail := by
  obtain same | ⟨c, pair, -, second, -⟩ := Cursor.afterByte_cases b tail
  · rwa [same] at h
  · rw [pair]
    exact h.cons (not_closer_within second _)

theorem contents_eq_ok {what : LongBracket} {read : List UInt8}
    (h : contents what (closer level) c read = .ok bytes next) :
    ∃ body, c.rest = body ++ (closer level ++ next.rest) ∧ Ends level body ∧
      bytes = read.reverse ++ unifyBreaks body := by
  fun_induction contents what (closer level) c read with
  | case1 c read rest found =>
    cases h
    exact ⟨[], (append_of_isPrefixOf? found).symm, ends_nil level, by simp [unifyBreaks]⟩
  | case2 c read none b step taken _ ih =>
    obtain ⟨rest, start, left, -⟩ := Cursor.step_eq_some taken
    obtain ⟨body, behind, ends, rfl⟩ := ih h
    obtain ⟨tail, whole, after⟩ := Cursor.afterByte_append (left.symm.trans behind)
    have spelt : c.rest = b :: (tail ++ (closer level ++ next.rest)) := start.trans (congrArg (b :: ·) whole)
    refine ⟨b :: tail, spelt, Ends.cons ?_ ?_, by simp [unifyBreaks_cons, after]⟩
    · exact Ends.of_afterByte (after.symm ▸ ends)
    · rintro ⟨more, same⟩
      have found := TokenKind.isPrefixOf?_append (closer level) (more ++ next.rest)
      rw [← List.append_assoc, same, List.cons_append, List.append_assoc, ← spelt, none] at found
      cases found
  | case3 => cases h

theorem body_eq_ok {what : LongBracket} (h : body what level rest line = .ok bytes next) :
    ∃ inside, rest = inside ++ (closer level ++ next.rest) ∧
      Ends level inside ∧ bytes = unifyBreaks (dropBreak inside) := by
  obtain ⟨inside, behind, ends, rfl⟩ := contents_eq_ok h
  rw [Cursor.skipBreak_rest] at behind
  cases rest with
  | nil =>
    have lengths := congrArg List.length behind
    simp [dropBreak, closer] at lengths
  | cons b rest =>
    rw [dropBreak_cons] at behind
    split at behind
    · rename_i lineBreak
      obtain ⟨tail, whole, after⟩ := Cursor.afterByte_append behind
      refine ⟨b :: tail, by rw [whole]; rfl, Ends.cons ?_ (not_closer_within lineBreak _), ?_⟩
      · exact Ends.of_afterByte (after.symm ▸ ends)
      · rw [dropBreak_cons, if_pos lineBreak, after]
        rfl
    · rename_i other
      refine ⟨inside, behind, ends, ?_⟩
      cases inside with
      | nil => rfl
      | cons c inside =>
        obtain ⟨rfl, -⟩ := List.cons.inj behind
        rw [dropBreak_cons, if_neg other]
        rfl

end LongBracket

namespace Cursor

theorem skipBlanks_rest (c : Cursor) :
    ∃ blanks, c.rest = blanks ++ c.skipBlanks.rest ∧ ∀ b ∈ blanks, Byte.isBlank b = true := by
  fun_induction skipBlanks c with
  | case1 c b next taken _ blank ih =>
    obtain ⟨rest, start, left, -⟩ := step_eq_some taken
    obtain ⟨blanks, behind, all⟩ := ih
    obtain same | ⟨d, pair, -, second, -⟩ := afterByte_cases b rest
    · refine ⟨b :: blanks, ?_, List.forall_mem_cons.mpr ⟨blank, all⟩⟩
      rw [start, ← same, ← left, behind, List.cons_append]
    · have blank' := Byte.isBlank_of_isBreak second
      refine ⟨b :: d :: blanks, ?_, List.forall_mem_cons.mpr ⟨blank, List.forall_mem_cons.mpr ⟨blank', all⟩⟩⟩
      rw [start, pair, ← left, behind, List.cons_append, List.cons_append]
  | case2 => exact ⟨[], rfl, by simp⟩
  | case3 => exact ⟨[], rfl, by simp⟩

end Cursor

namespace ShortString

/-- Escape sequences without their backslash, and the bytes that they stand for. -/
inductive IsEscape : List UInt8 → List UInt8 → Prop
  | simple {b byte : UInt8} : simple? b = some byte → IsEscape [b] [byte]
  | lineBreak {bytes : List UInt8} : IsLineBreak bytes → IsEscape bytes [10]
  | hexadecimal {high low : UInt8} {h l : Nat} : Byte.hexValue? high = some h → Byte.hexValue? low = some l →
    IsEscape [120, high, low] [UInt8.ofNat (16 * h + l)]
  | unicode {digits : List UInt8} {values : List Nat} : digits ≠ [] → digits.mapM Byte.hexValue? = some values →
    (Numeral.value 16 values).isValidChar →
    IsEscape (117 :: 123 :: (digits ++ [125])) (String.utf8EncodeChar (Char.ofNat (Numeral.value 16 values)))
  | skip {blanks : List UInt8} : (∀ b ∈ blanks, Byte.isBlank b = true) → IsEscape (122 :: blanks) []
  | decimal {digits : List UInt8} : digits ≠ [] → digits.length ≤ 3 → (∀ d ∈ digits, Byte.isDigit d = true) →
    Numeral.value 10 (digits.map (·.toNat - 48)) < 256 →
    IsEscape digits [UInt8.ofNat (Numeral.value 10 (digits.map (·.toNat - 48)))]

/-- What follows an opening quote up to the closing one, and the bytes that it stands for. -/
inductive IsQuoted (quote : UInt8) : List UInt8 → List UInt8 → Prop
  | close : IsQuoted quote [quote] []
  | plain {b : UInt8} {more decoded : List UInt8} : b ≠ quote → b ≠ 92 → Byte.isBreak b = false →
    IsQuoted quote more decoded → IsQuoted quote (b :: more) (b :: decoded)
  | escaped {bytes value more decoded : List UInt8} : IsEscape bytes value → IsQuoted quote more decoded →
    IsQuoted quote (92 :: (bytes ++ more)) (value ++ decoded)

theorem unicode_eq_ok (h : unicode c = .ok (bytes, next)) :
    ∃ digits values rest, c.rest = 123 :: (digits ++ 125 :: rest) ∧ digits ≠ [] ∧
      digits.mapM Byte.hexValue? = some values ∧ (Numeral.value 16 values).isValidChar ∧
      bytes = String.utf8EncodeChar (Char.ofNat (Numeral.value 16 values)) ∧ next = ⟨rest, c.line⟩ := by
  unfold unicode at h
  split at h
  · rename_i rest start
    obtain ⟨digits, values, behind, rfl, some_digit, read, valid, rfl, rfl⟩ := codePoint_eq_ok h
    simp only [Nat.lt_irrefl, false_or] at some_digit
    rw [← Numeral.value_eq_foldl] at valid ⊢
    exact ⟨digits, values, behind, start, some_digit, read, valid, rfl, rfl⟩
  · exact absurd h (spoiled_ne_ok _ _)

theorem decimal_eq_ok (start : c.rest = b :: rest) (digit : Byte.isDigit b = true) (h : decimal c = .ok (bytes, next)) :
    ∃ digits behind, c.rest = digits ++ behind ∧ digits ≠ [] ∧ digits.length ≤ 3 ∧
      (∀ d ∈ digits, Byte.isDigit d = true) ∧ Numeral.value 10 (digits.map (·.toNat - 48)) < 256 ∧
      bytes = [UInt8.ofNat (Numeral.value 10 (digits.map (·.toNat - 48)))] ∧ next = ⟨behind, c.line⟩ := by
  have value : ∀ digits : List UInt8, digits.foldl (fun n d => 10 * n + (d.toNat - 48)) 0 =
      Numeral.value 10 (digits.map (·.toNat - 48)) := by
    intro digits
    rw [Numeral.value_eq_foldl, List.foldl_map]
  have taken : (c.rest.take 3).takeWhile Byte.isDigit <+: c.rest :=
    (List.takeWhile_prefix _).trans (List.take_prefix 3 c.rest)
  simp only [decimal, value] at h
  split at h
  · rename_i small
    cases h
    refine ⟨_, _, (List.prefix_iff_eq_append.mp taken).symm, ?_, ?_, List.all_eq_true.mp List.all_takeWhile, small,
      rfl, rfl⟩
    · simp [start, digit]
    · exact Nat.le_trans (List.takeWhile_prefix _).length_le (List.length_take_le 3 c.rest)
  · cases h

theorem escape_eq_ok (h : escape c = .ok (bytes, next)) : ∃ text, c.rest = text ++ next.rest ∧ IsEscape text bytes := by
  obtain ⟨b, rest, start, kinds⟩ := escape_cases h
  obtain ⟨byte, known, rfl, rfl⟩ | ⟨lineBreak, rfl, rfl⟩ | ⟨rfl, read⟩ | ⟨rfl, read⟩ | ⟨rfl, rfl, rfl⟩ |
    ⟨digit, read⟩ := kinds
  · exact ⟨[b], start, .simple known⟩
  · obtain same | ⟨d, pair, first, second, other⟩ := Cursor.afterByte_cases b rest
    · refine ⟨[b], ?_, .lineBreak (.one lineBreak)⟩
      rw [Cursor.skipBreak_rest, start, dropBreak_cons, if_pos lineBreak, same]
      rfl
    · refine ⟨[b, d], ?_, .lineBreak (.pair first second other)⟩
      rw [Cursor.skipBreak_rest, start, dropBreak_cons, if_pos lineBreak]
      exact congrArg (b :: ·) pair
  · obtain ⟨high, low, x, y, rest', behind, first, second, rfl, rfl⟩ := hexadecimal_eq_ok read
    exact ⟨[120, high, low], start.trans (congrArg (120 :: ·) behind), .hexadecimal first second⟩
  · obtain ⟨digits, values, rest', behind, some_digit, hex, valid, rfl, rfl⟩ := unicode_eq_ok read
    refine ⟨117 :: 123 :: (digits ++ [125]), ?_, .unicode some_digit hex valid⟩
    rw [start, show rest = _ from behind]
    simp
  · obtain ⟨blanks, behind, all⟩ := Cursor.skipBlanks_rest ⟨rest, c.line⟩
    exact ⟨122 :: blanks, start.trans (congrArg (122 :: ·) behind), .skip all⟩
  · obtain ⟨digits, behind, whole, some_digit, short, all, small, rfl, rfl⟩ := decimal_eq_ok start digit read
    exact ⟨digits, whole, .decimal some_digit short all small⟩

theorem contents_eq_ok {quote : UInt8} {opening read : List UInt8}
    (h : contents quote opening line c read = .ok bytes next) :
    ∃ text decoded, c.rest = text ++ next.rest ∧ IsQuoted quote text decoded ∧ bytes = read.reverse ++ decoded := by
  fun_induction contents quote opening line c read with
  | case1 => cases h
  | case2 => cases h
  | case3 c read b rest start _ closes =>
    cases h
    exact ⟨[b], [], start, eq_of_beq closes ▸ .close, by simp⟩
  | case4 c read b rest start _ _ backslash value after escaped _ ih =>
    obtain ⟨text, decoded, behind, quoted, rfl⟩ := ih h
    obtain ⟨sequence, whole, escape⟩ := escape_eq_ok escaped
    have tail : rest = sequence ++ after.rest := whole
    refine ⟨92 :: (sequence ++ text), value ++ decoded, ?_, .escaped escape quoted, by simp⟩
    rw [start, tail, behind, eq_of_beq backslash, List.cons_append, List.append_assoc]
  | case5 => cases h
  | case6 => cases h
  | case7 c read b rest start unbroken open_ plain _ ih =>
    obtain ⟨text, decoded, behind, quoted, rfl⟩ := ih h
    have tail : rest = text ++ next.rest := behind
    refine ⟨b :: text, b :: decoded, by rw [start, tail, List.cons_append], .plain ?_ ?_ ?_ quoted, by simp⟩
    · simpa using open_
    · simpa using plain
    · simpa using unbroken

end ShortString

end LuaBytecode
