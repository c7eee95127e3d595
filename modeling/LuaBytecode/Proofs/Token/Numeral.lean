import LuaBytecode.Proofs.Token.Spaced

namespace LuaBytecode

variable {rest mantissa exponent text bytes : List UInt8} {hex : Bool} {digit p : UInt8 → Bool}

namespace Numeral

inductive IsMantissa (digit : UInt8 → Bool) : List UInt8 → Prop
  | whole {digits : List UInt8} : (∀ d ∈ digits, digit d = true) → digits ≠ [] → IsMantissa digit digits
  | point {digits fraction : List UInt8} : (∀ d ∈ digits ++ fraction, digit d = true) → digits ++ fraction ≠ [] →
    IsMantissa digit (digits ++ 46 :: fraction)

/-- Nothing, or a mark, a sign if there is one, and decimal digits. -/
inductive IsExponent (hex : Bool) : List UInt8 → Prop
  | none : IsExponent hex []
  | power {mark : UInt8} {sign digits : List UInt8} : NumeralWord.isMark hex mark = true →
    sign ∈ [[], [43], [45]] → (∀ d ∈ digits, Byte.isDigit d = true) → digits ≠ [] →
    IsExponent hex (mark :: (sign ++ digits))

end Numeral

inductive IsNumeral : List UInt8 → Prop
  | decimal {mantissa exponent : List UInt8} : Numeral.IsMantissa Byte.isDigit mantissa →
    Numeral.IsExponent false exponent → IsNumeral (mantissa ++ exponent)
  | hexadecimal {x : UInt8} {mantissa exponent : List UInt8} : x ∈ [120, 88] →
    Numeral.IsMantissa Byte.isHexDigit mantissa → Numeral.IsExponent true exponent →
    IsNumeral (48 :: x :: (mantissa ++ exponent))

namespace NumeralWord

theorem runOf_all (condition : Bool) (p : UInt8 → Bool) (bytes : List UInt8) :
    ∀ b ∈ (runOf condition p bytes).1, p b = true := by
  unfold runOf
  split
  · exact List.all_eq_true.mp List.all_takeWhile
  · simp

theorem runOf_stop (all : ∀ b ∈ bytes, p b = true) (stop : rest.head?.any p = false) :
    runOf true p (bytes ++ rest) = (bytes, rest) := by
  have ends : rest.takeWhile p = [] ∧ rest.dropWhile p = rest := by
    cases rest with
    | nil => exact ⟨rfl, rfl⟩
    | cons b rest =>
      have other : p b = false := stop
      simp [other]
  rw [runOf, if_pos rfl, List.takeWhile_append_of_pos all, List.dropWhile_append_of_pos all, ends.1, ends.2,
    List.append_nil]

theorem pointOf_cases (bytes : List UInt8) :
    (pointOf bytes).1 = [46] ∨ (pointOf bytes).1 = [] ∧ (pointOf bytes).2 = bytes := by
  unfold pointOf
  split
  · exact .inr ⟨rfl, rfl⟩
  · exact .inl rfl
  · exact .inr ⟨rfl, rfl⟩

theorem pointOf_point (alone : rest.head? ≠ some 46) : pointOf (46 :: rest) = ([46], rest) := by
  cases rest with
  | nil => rfl
  | cons b rest =>
    have other : b ≠ 46 := by simpa using alone
    unfold pointOf
    split
    · rename_i same
      cases same
      exact absurd rfl other
    · rename_i same
      cases same
      rfl
    · rename_i none
      exact absurd rfl (none _)

theorem pointOf_other (none : rest.head? ≠ some 46) : pointOf rest = ([], rest) := by
  cases rest with
  | nil => rfl
  | cons b rest =>
    have other : b ≠ 46 := by simpa using none
    unfold pointOf
    split
    · rename_i same
      cases same
      exact absurd rfl other
    · rename_i same
      cases same
      exact absurd rfl other
    · rfl

theorem leadOf_other (lower : ∀ more, rest ≠ 48 :: 120 :: more) (upper : ∀ more, rest ≠ 48 :: 88 :: more) :
    leadOf rest = ([], rest) := by
  unfold leadOf
  split
  · exact absurd rfl (lower _)
  · exact absurd rfl (upper _)
  · rfl

end NumeralWord

open NumeralWord

namespace Numeral

section

variable (h : IsMantissa digit mantissa)

include h

theorem IsMantissa.mem : ∀ b ∈ mantissa, digit b = true ∨ b = 46 := by
  cases h with
  | whole digits => exact fun b member => .inl (digits b member)
  | point digits =>
    intro b member
    obtain before | rfl | behind := by simpa using member
    · exact .inl (digits b (List.mem_append_left _ before))
    · exact .inr rfl
    · exact .inl (digits b (List.mem_append_right _ behind))

theorem IsMantissa.ne_nil : mantissa ≠ [] := by
  cases h with
  | whole _ some_digit => exact some_digit
  | point => simp

theorem IsMantissa.second {more : List UInt8} {b c : UInt8} (same : mantissa ++ rest = b :: c :: more) :
    digit c = true ∨ c = 46 ∨ rest.head? = some c := by
  obtain ⟨first, tail, rfl⟩ := List.exists_cons_of_ne_nil h.ne_nil
  have behind : tail ++ rest = c :: more := (List.cons.inj same).2
  cases tail with
  | nil =>
    rw [List.nil_append] at behind
    exact .inr (.inr (by rw [behind, List.head?_cons]))
  | cons d tail =>
    obtain ⟨rfl, -⟩ := List.cons.inj behind
    obtain digit | point := h.mem d (by simp)
    · exact .inl digit
    · exact .inr (.inl point)

theorem IsMantissa.read (notPoint : digit 46 = false) (stop : rest.head?.any digit = false)
    (alone : rest.head? ≠ some 46) :
    ∃ whole point fraction, runOf true digit (mantissa ++ rest) = (whole, point ++ (fraction ++ rest)) ∧
      pointOf (point ++ (fraction ++ rest)) = (point, fraction ++ rest) ∧
      runOf (!point.isEmpty) digit (fraction ++ rest) = (fraction, rest) ∧
      whole ++ (point ++ fraction) = mantissa ∧ (whole.isEmpty && fraction.isEmpty) = false := by
  cases h with
  | whole digits some_digit =>
    refine ⟨mantissa, [], [], runOf_stop digits stop, pointOf_other alone, rfl, by simp, ?_⟩
    simp [some_digit]
  | @point whole fraction digits some_digit =>
    have before : ∀ d ∈ whole, digit d = true := fun d member => digits d (List.mem_append_left _ member)
    have behind : ∀ d ∈ fraction, digit d = true := fun d member => digits d (List.mem_append_right _ member)
    refine ⟨whole, [46], fraction, ?_, pointOf_point ?_, runOf_stop behind stop, by simp, ?_⟩
    · rw [List.append_assoc]
      exact runOf_stop before notPoint
    · cases fraction with
      | nil => exact alone
      | cons d fraction =>
        rintro ⟨⟩
        exact absurd (behind 46 (.head _)) (by simp [notPoint])
    · cases whole <;> cases fraction <;> simp at some_digit ⊢

end

theorem IsExponent.read (h : IsExponent hex exponent) (gap : Gap rest) :
    ∃ mark sign power, markOf hex (exponent ++ rest) = (mark, sign ++ (power ++ rest)) ∧
      signOf (!mark.isEmpty) (sign ++ (power ++ rest)) = (sign, power ++ rest) ∧
      runOf (!mark.isEmpty) Byte.isDigit (power ++ rest) = (power, rest) ∧
      mark ++ (sign ++ power) = exponent ∧ (mark.isEmpty || !power.isEmpty) = true := by
  cases h with
  | none =>
    refine ⟨[], [], [], ?_, ?_, rfl, rfl, rfl⟩
    · obtain rfl | ⟨more, rfl⟩ := gap
      · rfl
      · cases hex <;> rfl
    · obtain rfl | ⟨more, rfl⟩ := gap <;> rfl
  | @power mark sign digits marked signed all some_digit =>
    refine ⟨[mark], sign, digits, ?_, ?_, runOf_stop all ?_, rfl, by simpa using some_digit⟩
    · simp [markOf, marked]
    · obtain ⟨d, more, rfl⟩ := List.exists_cons_of_ne_nil some_digit
      have unsigned : isSign d = false := forall_uint8 (P := fun b => Byte.isDigit b = true → isSign b = false)
        (by decide +kernel) d (all d (.head _))
      simp only [List.mem_cons, List.not_mem_nil, or_false] at signed
      obtain rfl | rfl | rfl := signed
      · simp [signOf, unsigned]
      · rfl
      · rfl
    · obtain rfl | ⟨more, rfl⟩ := gap <;> rfl

theorem IsExponent.head (h : IsExponent hex exponent) (gap : Gap rest) (blank : p 32 = false)
    (mark : ∀ b, isMark hex b = true → p b = false) : (exponent ++ rest).head?.any p = false := by
  cases h with
  | none => exact gap.head_append blank rfl
  | power marked => exact mark _ marked

theorem isMark_classes : ∀ (b : UInt8) (hex : Bool), isMark hex b = true →
    (Byte.isDigit b = false ∧ (hex = true → Byte.isHexDigit b = false) ∧ b ≠ 46) ∧ Byte.isName b = true :=
  forall_uint8 (by decide +kernel)

theorem isMark_plain (b : UInt8) (mark : isMark hex b = true) :
    Byte.isDigit b = false ∧ (hex = true → Byte.isHexDigit b = false) ∧ b ≠ 46 :=
  (isMark_classes b hex mark).1

theorem isName_of_isHexDigit (b : UInt8) : Byte.isHexDigit b = true → Byte.isName b = true := (Byte.classes b).hexDigit

theorem isHexDigit_of_isDigit (b : UInt8) (digit : Byte.isDigit b = true) : Byte.isHexDigit b = true :=
  ((Byte.classes b).digit digit).1

theorem isName_of_isMark (b : UInt8) (mark : isMark hex b = true) : Byte.isName b = true :=
  (isMark_classes b hex mark).2

theorem IsExponent.mem_of (h : IsExponent hex exponent) (marks : ∀ b, isMark hex b = true → p b = true)
    (digits : ∀ b, Byte.isDigit b = true → p b = true) : ∀ b ∈ exponent, p b = true ∨ b ∈ [43, 45, 46] := by
  cases h with
  | none => simp
  | @power mark sign power marked signed all =>
    have signs : ∀ sign ∈ [[], [(43 : UInt8)], [45]], ∀ b ∈ sign, b ∈ [(43 : UInt8), 45, 46] := by simp
    intro b member
    obtain rfl | inSign | digit : b = mark ∨ b ∈ sign ∨ b ∈ power := by simpa using member
    · exact .inl (marks b marked)
    · exact .inr (signs sign signed b inSign)
    · exact .inl (digits b (all b digit))

theorem IsExponent.mem (h : IsExponent hex exponent) : ∀ b ∈ exponent, Byte.isName b = true ∨ b ∈ [43, 45, 46] :=
  h.mem_of isName_of_isMark fun b digit => isName_of_isHexDigit b (isHexDigit_of_isDigit b digit)

theorem IsMantissa.mem_of_hexadecimal (h : IsMantissa digit mantissa)
    (hex : ∀ b, digit b = true → Byte.isHexDigit b = true) :
    ∀ b ∈ mantissa, Byte.isName b = true ∨ b ∈ [43, 45, 46] := by
  intro b member
  obtain digit | rfl := h.mem b member
  · exact .inl (isName_of_isHexDigit b (hex b digit))
  · exact .inr (by simp)

theorem IsMantissa.ne_led (h : IsMantissa Byte.isDigit mantissa) (power : IsExponent false exponent) (gap : Gap rest)
    {x : UInt8} (plain : Byte.isDigit x = false ∧ x ≠ 46 ∧ x ≠ 32) (unmarked : isMark false x = false)
    (more : List UInt8) : mantissa ++ (exponent ++ rest) ≠ 48 :: x :: more := by
  intro same
  have behind : (exponent ++ rest).head?.any (· == x) = false := by
    refine power.head gap (by simpa using Ne.symm plain.2.2) fun b mark => beq_eq_false_iff_ne.mpr ?_
    rintro rfl
    simp [unmarked] at mark
  obtain digit | point | first := h.second same
  · simp [plain.1] at digit
  · exact plain.2.1 point
  · simp [first] at behind

end Numeral

namespace NumeralWord

theorem gluedOf_gap (gap : Gap rest) : gluedOf rest = ([], rest) := by
  obtain rfl | ⟨more, rfl⟩ := gap <;> rfl

theorem read_parts (lead : List UInt8) (digit : UInt8 → Bool) (gap : Gap rest)
    (leads : leadOf (lead ++ (mantissa ++ (exponent ++ rest))) = (lead, mantissa ++ (exponent ++ rest)))
    (digits : digit = if !lead.isEmpty then Byte.isHexDigit else Byte.isDigit)
    (whole : Numeral.IsMantissa digit mantissa) (power : Numeral.IsExponent (!lead.isEmpty) exponent)
    (notPoint : digit 46 = false) (blank : digit 32 = false)
    (unmarked : ∀ b, isMark (!lead.isEmpty) b = true → digit b = false) :
    (read (lead ++ (mantissa ++ (exponent ++ rest)))).text = lead ++ (mantissa ++ exponent) ∧
      (read (lead ++ (mantissa ++ (exponent ++ rest)))).rest = rest ∧
      (read (lead ++ (mantissa ++ (exponent ++ rest)))).isWellFormed = true := by
  have alone : (exponent ++ rest).head? ≠ some 46 := by
    have none := power.head gap (p := (· == 46)) rfl fun b mark => beq_eq_false_iff_ne.mpr
      (Numeral.isMark_plain b mark).2.2
    intro same
    rw [same] at none
    cases none
  obtain ⟨units, point, fraction, run, pointed, fractional, rfl, some_digit⟩ :=
    whole.read notPoint (power.head gap blank unmarked) alone
  obtain ⟨mark, sign, tail, marked, signed, powered, rfl, some_power⟩ := power.read gap
  simp only [read, leads, ← digits, run, pointed, fractional, marked, signed, powered, gluedOf_gap gap]
  refine ⟨by simp [text], trivial, ?_⟩
  simp [isWellFormed, some_digit, some_power]

end NumeralWord

namespace IsNumeral

variable (h : IsNumeral text)

include h

theorem mem : ∀ b ∈ text, Byte.isName b = true ∨ b ∈ [43, 45, 46] := by
  cases h with
  | decimal mantissa exponent =>
    intro b member
    obtain inMantissa | inExponent := List.mem_append.mp member
    · exact mantissa.mem_of_hexadecimal Numeral.isHexDigit_of_isDigit b inMantissa
    · exact exponent.mem b inExponent
  | @hexadecimal x _ _ marked mantissa exponent =>
    have marks : ∀ x ∈ [(120 : UInt8), 88], Byte.isName x = true := List.all_eq_true.mp (by decide)
    intro b member
    obtain rfl | rfl | inMantissa | inExponent := by simpa using member
    · exact .inl (by decide)
    · exact .inl (marks b marked)
    · exact mantissa.mem_of_hexadecimal (fun _ h => h) b inMantissa
    · exact exponent.mem b inExponent

theorem ascii : ∀ b ∈ text, b.toNat < 128 := by
  intro b member
  obtain name | sign := h.mem b member
  · exact Token.name_ascii b name
  · have signs : ∀ b ∈ [(43 : UInt8), 45, 46], b.toNat < 128 := by simp
    exact signs b sign

theorem startsNumeral (rest : List UInt8) : NumeralWord.startsNumeral (text ++ rest) = true := by
  cases h with
  | decimal mantissa =>
    cases mantissa with
    | whole digits some_digit =>
      obtain ⟨d, more, rfl⟩ := List.exists_cons_of_ne_nil some_digit
      simp [NumeralWord.startsNumeral, digits d (.head _)]
    | @point whole fraction digits some_digit =>
      cases whole with
      | nil =>
        obtain ⟨d, more, rfl⟩ := List.exists_cons_of_ne_nil some_digit
        simp [NumeralWord.startsNumeral, digits d (.head _)]
      | cons d more => simp [NumeralWord.startsNumeral, digits d (.head _)]
  | hexadecimal => rfl

theorem second_ne {tail : List UInt8} {b : UInt8} (same : text = b :: tail) : tail.head? ≠ some 45 := by
  intro dash
  obtain ⟨more, rfl⟩ := List.head?_eq_some_iff.mp dash
  cases h with
  | decimal mantissa exponent =>
    obtain digit | point | mark := mantissa.second same
    · cases digit
    · cases point
    · cases exponent with
      | none => cases mark
      | power marked =>
        cases mark
        cases marked
  | hexadecimal marked =>
    cases same
    simp at marked

theorem read (gap : Gap rest) :
    (NumeralWord.read (text ++ rest)).text = text ∧ (NumeralWord.read (text ++ rest)).rest = rest ∧
      (NumeralWord.read (text ++ rest)).isWellFormed = true := by
  cases h with
  | @decimal mantissa exponent whole power =>
    have unled : leadOf (mantissa ++ (exponent ++ rest)) = ([], mantissa ++ (exponent ++ rest)) := by
      have lower := whole.ne_led power gap (x := 120) (by decide) (by decide)
      have upper := whole.ne_led power gap (x := 88) (by decide) (by decide)
      exact leadOf_other lower upper
    have parts := read_parts [] Byte.isDigit gap unled rfl whole power (by decide) (by decide) fun b mark =>
      (Numeral.isMark_plain b mark).1
    simpa using parts
  | @hexadecimal x mantissa exponent marked whole power =>
    have led : leadOf ([48, x] ++ (mantissa ++ (exponent ++ rest))) = ([48, x], mantissa ++ (exponent ++ rest)) := by
      simp only [List.mem_cons, List.not_mem_nil, or_false] at marked
      obtain rfl | rfl := marked <;> rfl
    have parts := read_parts [48, x] Byte.isHexDigit gap led rfl whole power (by decide) (by decide) fun b mark =>
      (Numeral.isMark_plain b mark).2.1 rfl
    simpa using parts

end IsNumeral

namespace NumeralWord

theorem leadOf_cases (bytes : List UInt8) : (leadOf bytes).1 = [] ∨ ∃ x ∈ [120, 88], (leadOf bytes).1 = [48, x] := by
  unfold leadOf
  split
  · exact .inr ⟨120, by simp, rfl⟩
  · exact .inr ⟨88, by simp, rfl⟩
  · exact .inl rfl

theorem markOf_cases (hex : Bool) (bytes : List UInt8) :
    (markOf hex bytes).1 = [] ∨ ∃ mark, isMark hex mark = true ∧ (markOf hex bytes).1 = [mark] := by
  cases bytes with
  | nil => exact .inl rfl
  | cons b rest =>
    simp only [markOf]
    split
    · rename_i mark
      exact .inr ⟨b, mark, rfl⟩
    · exact .inl rfl

theorem signOf_mem (condition : Bool) (bytes : List UInt8) : (signOf condition bytes).1 ∈ [[], [43], [45]] := by
  cases bytes with
  | nil => exact .head _
  | cons b rest =>
    simp only [signOf]
    split
    · rename_i signed
      simp only [isSign, Bool.and_eq_true, Bool.or_eq_true, beq_iff_eq] at signed
      obtain ⟨-, rfl | rfl⟩ := signed <;> simp
    · exact .head _

theorem gluedOf_nil (h : (gluedOf bytes).1.isEmpty = true) :
    (gluedOf bytes).2 = bytes ∧ bytes.head?.any Byte.isName = false := by
  cases bytes with
  | nil => exact ⟨rfl, rfl⟩
  | cons b rest =>
    cases name : Byte.isName b with
    | true => simp [gluedOf, runOf, name] at h
    | false => exact ⟨by simp [gluedOf, runOf, name], name⟩

theorem isMantissa_read (digit : UInt8 → Bool) (bytes : List UInt8) {whole point fraction : List UInt8 × List UInt8}
    (wholes : runOf true digit bytes = whole) (points : pointOf whole.2 = point)
    (fractions : runOf (!point.1.isEmpty) digit point.2 = fraction)
    (some_digit : (whole.1.isEmpty && fraction.1.isEmpty) = false) :
    Numeral.IsMantissa digit (whole.1 ++ (point.1 ++ fraction.1)) := by
  have before : ∀ d ∈ whole.1, digit d = true := wholes ▸ runOf_all true digit bytes
  have behind : ∀ d ∈ fraction.1, digit d = true := fractions ▸ runOf_all _ digit point.2
  obtain pointed | ⟨none, -⟩ := points ▸ pointOf_cases whole.2
  · rw [pointed]
    refine @Numeral.IsMantissa.point digit whole.1 fraction.1 (fun d member => ?_) fun empty => ?_
    · exact (List.mem_append.mp member).elim (before d) (behind d)
    · simp [List.append_eq_nil_iff.mp empty] at some_digit
  · -- Without a point there is no fraction to read.
    have no_fraction : fraction.1 = [] := by simp [← fractions, none, runOf]
    rw [none, no_fraction, List.nil_append, List.append_nil]
    refine .whole before fun empty => ?_
    simp [empty, no_fraction] at some_digit

theorem isExponent_read (hex : Bool) (bytes : List UInt8) {mark sign power : List UInt8 × List UInt8}
    (marks : markOf hex bytes = mark) (signs : signOf (!mark.1.isEmpty) mark.2 = sign)
    (powers : runOf (!mark.1.isEmpty) Byte.isDigit sign.2 = power)
    (some_power : (mark.1.isEmpty || !power.1.isEmpty) = true) :
    Numeral.IsExponent hex (mark.1 ++ (sign.1 ++ power.1)) := by
  obtain unmarked | ⟨b, marked, found⟩ := marks ▸ markOf_cases hex bytes
  · have no_sign : sign.1 = [] := by
      rw [← signs, unmarked]
      cases mark.2 <;> rfl
    have no_power : power.1 = [] := by simp [← powers, unmarked, runOf]
    rw [unmarked, no_sign, no_power]
    exact .none
  · rw [found]
    refine @Numeral.IsExponent.power hex b sign.1 power.1 marked (signs ▸ signOf_mem _ mark.2)
      (powers ▸ runOf_all _ _ sign.2) fun empty => ?_
    simp [found, empty] at some_power

theorem read_stages (bytes : List UInt8) : ∃ lead whole point fraction mark sign power glued : List UInt8 × List UInt8,
    leadOf bytes = lead ∧ runOf true (if !lead.1.isEmpty then Byte.isHexDigit else Byte.isDigit) lead.2 = whole ∧
    pointOf whole.2 = point ∧
    runOf (!point.1.isEmpty) (if !lead.1.isEmpty then Byte.isHexDigit else Byte.isDigit) point.2 = fraction ∧
    markOf (!lead.1.isEmpty) fraction.2 = mark ∧ signOf (!mark.1.isEmpty) mark.2 = sign ∧
    runOf (!mark.1.isEmpty) Byte.isDigit sign.2 = power ∧ gluedOf power.2 = glued ∧
    read bytes =
      ⟨lead.1, whole.1, point.1, fraction.1, mark.1, sign.1, power.1, glued.1, glued.2⟩ :=
  ⟨_, _, _, _, _, _, _, _, rfl, rfl, rfl, rfl, rfl, rfl, rfl, rfl, rfl⟩

theorem isNumeral_read (h : (read bytes).isWellFormed = true) :
    IsNumeral (read bytes).text ∧ (read bytes).rest.head?.any Byte.isName = false := by
  obtain ⟨lead, whole, point, fraction, mark, sign, power, glued, leads, wholes, points, fractions, marks, signs, powers,
    glues, parts⟩ := read_stages bytes
  rw [parts] at h ⊢
  simp only [isWellFormed, Bool.and_eq_true, Bool.not_eq_true'] at h
  obtain ⟨⟨some_digit, some_power⟩, alone⟩ := h
  obtain ⟨ends, stop⟩ := gluedOf_nil (glues ▸ alone)
  have mantissa := isMantissa_read _ _ wholes points fractions some_digit
  have exponent := isExponent_read _ _ marks signs powers some_power
  refine ⟨?_, by rw [← glues, ends]; exact stop⟩
  have spelt : text ⟨lead.1, whole.1, point.1, fraction.1, mark.1, sign.1, power.1, glued.1, glued.2⟩ =
      lead.1 ++ ((whole.1 ++ (point.1 ++ fraction.1)) ++ (mark.1 ++ (sign.1 ++ power.1))) := by
    simp [text, List.isEmpty_iff.mp alone]
  rw [spelt]
  obtain unled | ⟨x, kind, led⟩ := leads ▸ leadOf_cases bytes
  · rw [unled] at mantissa exponent ⊢
    exact @IsNumeral.decimal (whole.1 ++ (point.1 ++ fraction.1)) _ mantissa exponent
  · rw [led] at mantissa exponent ⊢
    exact @IsNumeral.hexadecimal x (whole.1 ++ (point.1 ++ fraction.1)) _ kind mantissa exponent

end NumeralWord

end LuaBytecode
