import LuaBytecode.Numeral
import Mathlib.Data.List.Forall2
import Mathlib.Data.Nat.Digits.Defs

namespace LuaBytecode.Numeral

variable {cs marks : List Char} {c : Char} {d base : Nat} {ds : List Nat} {negative : Bool}

def IsDigit (base : Nat) (c : Char) (d : Nat) : Prop :=
  d < base ∧ (c = Nat.digitChar d ∨ c = (Nat.digitChar d).toUpper)

theorem IsDigit.of_each {P : Char → Nat → Prop}
    (each : ∀ d < base, P (Nat.digitChar d) d ∧ P (Nat.digitChar d).toUpper d) (h : IsDigit base c d) : P c d := by
  obtain ⟨small, rfl | rfl⟩ := h
  · exact (each d small).1
  · exact (each d small).2

theorem IsDigit.digit? (h : IsDigit 10 c d) : digit? c = some d :=
  h.of_each (P := fun c d => Numeral.digit? c = some d) (by decide)

theorem IsDigit.hexDigit? (h : IsDigit 16 c d) : hexDigit? c = some d :=
  h.of_each (P := fun c d => Numeral.hexDigit? c = some d) (by decide)

theorem digits?_cons (digit : Char → Option Nat) (c : Char) (cs : List Char) :
    digits? digit (c :: cs) = (digit c).bind fun d => (digits? digit cs).map (d :: ·) := by
  rw [digits?, List.mapM_cons]
  cases digit c with
  | none => rfl
  | some d => cases h : cs.mapM digit <;> simp [digits?, h]

theorem digits?_of_forall₂ {digit : Char → Option Nat} (each : ∀ c d, IsDigit base c d → digit c = some d)
    (h : List.Forall₂ (IsDigit base) cs ds) : digits? digit cs = some ds := by
  induction h with
  | nil => rfl
  | cons first _ ih =>
    rw [digits?_cons, each _ _ first, ih]
    rfl

def positional (base : Nat) (ds : List Nat) : Nat := Nat.ofDigits base ds.reverse

theorem value_eq_positional (base : Nat) (ds : List Nat) : value base ds = positional base ds := by
  rw [value_eq_foldl, positional, Nat.ofDigits_eq_foldr, List.foldr_reverse]
  congr 1
  funext n d
  exact Nat.add_comm _ _

theorem toNat_wrap {w : UInt64} {n : Nat} (same : w.toNat = n % 2 ^ 64) (d : Nat) :
    (wrap w d).toNat = (16 * n + d) % 2 ^ 64 := by
  have digit : (UInt64.ofNat d).toNat = d % 2 ^ 64 := UInt64.toNat_ofNat'
  have sixteen : (16 : UInt64).toNat = 16 := rfl
  rw [wrap, UInt64.toNat_add, UInt64.toNat_mul, same, digit, sixteen]
  omega

theorem toNat_foldl_wrap (ds : List Nat) : (ds.foldl wrap 0).toNat = value 16 ds % 2 ^ 64 := by
  rw [value_eq_foldl]
  exact List.foldl_rel (r := fun (w : UInt64) n => w.toNat = n % 2 ^ 64) rfl fun d _ _ _ same => toNat_wrap same d

theorem toInt64_foldl_wrap (ds : List Nat) : (ds.foldl wrap 0).toInt64 = Int64.ofNat (value 16 ds) := by
  apply Int64.toBitVec_inj.mp
  apply BitVec.eq_of_toNat_eq
  exact (toNat_foldl_wrap ds).trans (BitVec.toNat_ofNat _ _).symm

section Saturation

variable {n : Int64} {d : Nat}

theorem toInt_mul_add (low : 0 ≤ n.toInt) (high : n.toInt ≤ 100000) (digit : d < 10) :
    (n * 10 + Int64.ofNat d).toInt = 10 * n.toInt + d := by
  have ten : (10 : Int64).toInt = 10 := rfl
  have last : (Int64.ofNat d).toInt = d := Int64.toInt_ofNat_of_lt (by omega)
  rw [Int64.toInt_add, Int64.toInt_mul, ten, last, Int.bmod_eq_of_le (n := n.toInt * 10), Int.bmod_eq_of_le] <;> omega

theorem toInt_saturate (low : 0 ≤ n.toInt) (high : n.toInt ≤ 100000) (digit : d < 10) :
    (saturate n d).toInt = min (10 * n.toInt + d) 100000 := by
  have most : maxBinaryExponent.toInt = 100000 := rfl
  have exact := toInt_mul_add low high digit
  have least : saturate n d =
      if n * 10 + Int64.ofNat d ≤ maxBinaryExponent then n * 10 + Int64.ofNat d else maxBinaryExponent := rfl
  rw [least]
  split
  · rename_i within
    rw [Int64.le_iff_toInt_le, exact, most] at within
    rw [exact]
    omega
  · rename_i beyond
    rw [Int64.le_iff_toInt_le, exact, most] at beyond
    rw [most]
    omega

theorem toInt_foldl_saturate (digits : ∀ d ∈ ds, d < 10) :
    (ds.foldl saturate 0).toInt = min (value 10 ds : Int) 100000 := by
  rw [value_eq_foldl]
  refine List.foldl_rel (r := fun (n : Int64) (m : Nat) => n.toInt = min (m : Int) 100000) rfl fun d member n m same => ?_
  rw [toInt_saturate (by omega) (by omega) (digits d member)]
  omega

end Saturation

def decimalStart : List Char := ['.', '0', '1', '2', '3', '4', '5', '6', '7', '8', '9']

theorem IsDigit.mem_decimalStart (h : IsDigit 10 c d) : c ∈ decimalStart ∧ c ≠ '.' :=
  h.of_each (P := fun c _ => c ∈ decimalStart ∧ c ≠ '.') (by decide)

theorem sign_cons (start : c ∈ decimalStart) : sign (c :: cs) = (false, c :: cs) := by
  have each : ∀ c ∈ decimalStart, c ≠ '-' ∧ c ≠ '+' := by simp [decimalStart]
  obtain ⟨minus, plus⟩ := each c start
  unfold sign
  split
  · rename_i same
    cases same
    exact absurd rfl minus
  · rename_i same
    cases same
    exact absurd rfl plus
  · rfl

theorem float?_cons (start : c ∈ decimalStart) :
    float? (c :: cs) = (decimalMagnitude? (c :: cs)).map (.ofMagnitude false) := by
  have each : ∀ c ∈ decimalStart, c.toLower ≠ 'i' ∧ c.toLower ≠ 'n' := by simp [decimalStart]
  obtain ⟨infinity, nan⟩ := each c start
  have word (w : String) (first : w.toList.head? = some 'i' ∨ w.toList.head? = some 'n') :
      (String.ofList ((c :: cs).map Char.toLower) == w) = false := by
    rw [beq_eq_false_iff_ne]
    rintro rfl
    simp [infinity, nan] at first
  simp only [float?, sign_cons start]
  rw [word "inf" (by decide), word "infinity" (by decide), word "nan" (by decide)]
  rfl

theorem breakAt_append {front rest : List Char} (free : ∀ c ∈ front, c ∉ marks) (stop : ∀ c ∈ rest.head?, c ∈ marks) :
    breakAt marks (front ++ rest) = (front, rest) := by
  have unmarked : ∀ c ∈ front, (!marks.contains c) = true := by simpa using free
  have ends : rest.takeWhile (fun c => !marks.contains c) = [] ∧ rest.dropWhile (fun c => !marks.contains c) = rest := by
    cases rest with
    | nil => exact ⟨rfl, rfl⟩
    | cons c rest =>
      have mark := stop c rfl
      simp [mark]
  rw [breakAt, List.takeWhile_append_of_pos unmarked, List.dropWhile_append_of_pos unmarked, ends.1, ends.2,
    List.append_nil]

theorem breakAt_of_free (free : ∀ c ∈ cs, c ∉ marks) : breakAt marks cs = (cs, []) := by
  have whole : breakAt marks (cs ++ []) = (cs, []) := breakAt_append free (by simp)
  rwa [List.append_nil] at whole

theorem signedDigits?_of_sign {digits : List Char} (signed : sign cs = (negative, digits)) (some_digit : digits ≠ [])
    (read : digits? digit? digits = some ds) : signedDigits? cs = some (negative, ds) := by
  simp [signedDigits?, signed, some_digit, read]

theorem integer?_of_signedDigits? (signed : signedDigits? cs = some (negative, ds)) :
    integer? cs = fit? (if negative then -(value 10 ds : Int) else value 10 ds) := by
  unfold integer?
  rw [signed]
  rfl

theorem read?_decimal (plain : ∀ c ∈ cs, c ∉ ['x', 'X']) : read? (String.ofList cs) = decimal? cs := by
  rw [read?, String.toList_ofList]
  split
  · exact absurd (plain 'x' (by simp)) (by decide)
  · exact absurd (plain 'X' (by simp)) (by decide)
  · rfl

theorem read?_hexadecimal {x : Char} (mark : x ∈ ['x', 'X']) (cs : List Char) :
    read? (String.ofList ('0' :: x :: cs)) = hexadecimal? cs := by
  rw [read?, String.toList_ofList]
  obtain rfl | rfl : x = 'x' ∨ x = 'X' := by simpa using mark
  · rfl
  · rfl

section

variable {base : Nat} {cs : List Char} {ds : List Nat}

theorem forall_mem_of_forall₂ {R : Char → Nat → Prop} {P : Char → Prop} (each : ∀ c d, R c d → P c)
    (h : List.Forall₂ R cs ds) : ∀ c ∈ cs, P c :=
  ((List.forall₂_and_left _ _).mp (h.imp fun c d digit => ⟨each c d digit, digit⟩)).1

theorem lt_of_isDigit (h : List.Forall₂ (IsDigit base) cs ds) : ∀ d ∈ ds, d < base :=
  ((List.forall₂_and_left _ _).mp (h.flip.imp fun _ _ digit => ⟨digit.1, digit⟩)).1

theorem signedDigits?_digits (some_digit : cs ≠ []) (h : List.Forall₂ (IsDigit 10) cs ds) :
    signedDigits? cs = some (false, ds) ∧ signedDigits? ('+' :: cs) = some (false, ds) ∧
      signedDigits? ('-' :: cs) = some (true, ds) := by
  have read := digits?_of_forall₂ (fun _ _ => IsDigit.digit?) h
  have unsigned : sign cs = (false, cs) := by
    obtain ⟨c, rest, rfl⟩ := List.exists_cons_of_ne_nil some_digit
    exact sign_cons (forall_mem_of_forall₂ (fun c d digit => digit.mem_decimalStart.1) h c (.head _))
  exact ⟨signedDigits?_of_sign unsigned some_digit read, signedDigits?_of_sign rfl some_digit read,
    signedDigits?_of_sign rfl some_digit read⟩

theorem decimalMagnitude?_digits (some_digit : cs ≠ []) (h : List.Forall₂ (IsDigit 10) cs ds) :
    decimalMagnitude? cs = some (.ofDecimal (value 10 ds) 0) := by
  have marks : ∀ c ∈ decimalStart, c ≠ '.' → c ∉ ['e', 'E'] ∧ c ∉ ['.'] := by simp [decimalStart]
  have free := forall_mem_of_forall₂ (fun c d digit => marks c digit.mem_decimalStart.1 digit.mem_decimalStart.2) h
  have read := digits?_of_forall₂ (fun _ _ => IsDigit.digit?) h
  have none : digits? digit? [] = some [] := rfl
  simp [decimalMagnitude?, parts?, breakAt_of_free fun c member => (free c member).1,
    breakAt_of_free fun c member => (free c member).2, some_digit, read, none]

theorem fit?_natCast (n : Nat) : fit? n = if n < 2 ^ 63 then some (Int64.ofInt n) else none := by
  unfold fit?
  split
  · rw [if_pos (by omega)]
  · rw [if_neg (by omega)]

theorem integer?_digits (some_digit : cs ≠ []) (h : List.Forall₂ (IsDigit 10) cs ds) :
    integer? cs = fit? (value 10 ds) := by
  rw [integer?_of_signedDigits? (signedDigits?_digits some_digit h).1, if_neg Bool.false_ne_true]

theorem decimal?_digits (some_digit : cs ≠ []) (h : List.Forall₂ (IsDigit 10) cs ds) :
    decimal? cs = some (if value 10 ds < 2 ^ 63 then .integer (Int64.ofInt (value 10 ds))
      else .float (.ofMagnitude false (.ofDecimal (value 10 ds) 0))) := by
  have marks : ∀ c ∈ decimalStart, c ≠ '.' → ['.', 'e', 'E'].contains c = false := by simp [decimalStart]
  have free : (cs.any fun c => ['.', 'e', 'E'].contains c) = false := by
    rw [List.any_eq_false]
    intro c member
    have plain := forall_mem_of_forall₂ (fun c d digit => marks c digit.mem_decimalStart.1 digit.mem_decimalStart.2) h
    simp only [plain c member]
    decide
  rw [decimal?, free, integer?_digits some_digit h, fit?_natCast]
  obtain ⟨c, rest, rfl⟩ := List.exists_cons_of_ne_nil some_digit
  have start := forall_mem_of_forall₂ (fun c d digit => digit.mem_decimalStart.1) h c (.head _)
  rw [float?_cons start, decimalMagnitude?_digits some_digit h]
  by_cases fits : value 10 ds < 2 ^ 63
  · rw [if_pos fits, if_pos fits]
    rfl
  · rw [if_neg fits, if_neg fits]
    rfl

theorem hexadecimal?_digits (some_digit : cs ≠ []) (h : List.Forall₂ (IsDigit 16) cs ds) :
    hexadecimal? cs = some (.integer (ds.foldl wrap 0).toInt64) := by
  have plain (c : Char) (d : Nat) (digit : IsDigit 16 c d) : ['.', 'p', 'P'].contains c = false :=
    digit.of_each (P := fun c _ => ['.', 'p', 'P'].contains c = false) (by decide)
  have free : (cs.any fun c => ['.', 'p', 'P'].contains c) = false := by
    rw [List.any_eq_false]
    intro c member
    simp only [forall_mem_of_forall₂ plain h c member]
    decide
  have read := digits?_of_forall₂ (fun _ _ => IsDigit.hexDigit?) h
  rw [hexadecimal?, free, read]
  simp [some_digit]

theorem binaryExponent?_digits (some_digit : cs ≠ []) (h : List.Forall₂ (IsDigit 10) cs ds) :
    binaryExponent? cs = some (ds.foldl saturate 0) ∧ binaryExponent? ('+' :: cs) = some (ds.foldl saturate 0) ∧
      binaryExponent? ('-' :: cs) = some (-ds.foldl saturate 0) := by
  obtain ⟨unsigned, plus, minus⟩ := signedDigits?_digits some_digit h
  simp [binaryExponent?, unsigned, plus, minus]

theorem toInt_neg_foldl_saturate (digits : ∀ d ∈ ds, d < 10) :
    (-ds.foldl saturate 0).toInt = -min (value 10 ds : Int) 100000 := by
  rw [Int64.toInt_neg, toInt_foldl_saturate digits, Int.bmod_eq_of_le] <;> omega

/-- Numerals of any length have the right integers. Hexadecimal digits give the integer whose bits are the last 64 of
    their number, decimal ones their number if it fits and a float if not; and the exponent of a hexadecimal float is
    clamped at 100000, where no number on the way to it is too large for 64 bits. -/
theorem read?_digits (some_digit : cs ≠ []) :
    (List.Forall₂ (IsDigit 16) cs ds → ∀ x ∈ ['x', 'X'], ∃ v : Int64,
      read? (String.ofList ('0' :: x :: cs)) = some (.integer v) ∧
      v.toBitVec.toNat = positional 16 ds % 2 ^ 64) ∧
    (List.Forall₂ (IsDigit 10) cs ds →
      (positional 10 ds < 2 ^ 63 → ∃ v : Int64,
        read? (String.ofList cs) = some (.integer v) ∧ v.toInt = positional 10 ds) ∧
      (2 ^ 63 ≤ positional 10 ds → read? (String.ofList cs) =
        some (.float (.ofMagnitude false (.ofDecimal (positional 10 ds) 0)))) ∧
      (∃ e : Int64, binaryExponent? cs = some e ∧ binaryExponent? ('+' :: cs) = some e ∧
        binaryExponent? ('-' :: cs) = some (-e) ∧ e.toInt = min (positional 10 ds : Int) 100000 ∧
        (-e).toInt = -min (positional 10 ds : Int) 100000) ∧
      ∀ (before : List Nat) (d : Nat) (after : List Nat), ds = before ++ d :: after →
        0 ≤ (before.foldl saturate 0).toInt ∧ (before.foldl saturate 0).toInt * 10 + (d : Int) < 2 ^ 63) := by
  refine ⟨fun h x mark => ?_, fun h => ?_⟩
  · rw [read?_hexadecimal mark, hexadecimal?_digits some_digit h]
    refine ⟨_, rfl, ?_⟩
    rw [← value_eq_positional]
    exact toNat_foldl_wrap ds
  · have marks : ∀ c ∈ decimalStart, c ∉ ['x', 'X'] := by simp [decimalStart]
    have plain := forall_mem_of_forall₂ (fun c d digit => marks c digit.mem_decimalStart.1) h
    have small := lt_of_isDigit h
    obtain ⟨unsigned, plus, minus⟩ := binaryExponent?_digits some_digit h
    rw [read?_decimal plain, decimal?_digits some_digit h, ← value_eq_positional]
    refine ⟨fun fits => ?_, fun large => ?_, ?_, ?_⟩
    · exact ⟨_, by rw [if_pos fits], Int64.toInt_ofInt_of_le (by omega) (by omega)⟩
    · rw [if_neg (by omega)]
    · exact ⟨_, unsigned, plus, minus, toInt_foldl_saturate small, toInt_neg_foldl_saturate small⟩
    · rintro before d after rfl
      obtain ⟨front, others⟩ := List.forall_mem_append.mp small
      have digit := others d (.head _)
      rw [toInt_foldl_saturate front]
      omega

theorem read?_digits_long :
    (∃ v : Int64, read? "0X1fFffffffffffffffe" = some (.integer v) ∧ v.toBitVec.toNat = 0xfffffffffffffffe) ∧
    read? "0009223372036854775808" = some (.float (.ofMagnitude false (.ofDecimal 9223372036854775808 0))) ∧
    ∃ e : Int64, binaryExponent? "-0009223372036854775808".toList = some (-e) ∧ (-e).toInt = -100000 := by
  have hexadecimal : List.Forall₂ (IsDigit 16) "1fFffffffffffffffe".toList
      [1, 15, 15, 15, 15, 15, 15, 15, 15, 15, 15, 15, 15, 15, 15, 15, 15, 14] := by
    simp [IsDigit]
    decide
  have decimal : List.Forall₂ (IsDigit 10) "0009223372036854775808".toList
      [0, 0, 0, 9, 2, 2, 3, 3, 7, 2, 0, 3, 6, 8, 5, 4, 7, 7, 5, 8, 0, 8] := by
    simp [IsDigit]
  have wrapped := (read?_digits (by decide)).1 hexadecimal 'X' (by decide)
  obtain ⟨-, large, ⟨e, -, -, minus, -, clamped⟩, -⟩ := (read?_digits (by decide)).2 decimal
  exact ⟨wrapped, large (by decide), e, minus, clamped⟩

end

theorem exists_toDigits (n : Nat) : ∃ ds, List.Forall₂ (fun c d => d < 16 ∧ c = Nat.digitChar d) (Nat.toDigits 16 n) ds ∧
    value 16 ds = n := by
  induction n using Nat.strongRecOn with
  | ind n ih =>
    rw [Nat.toDigits_eq_if (by decide)]
    by_cases small : n < 16
    · rw [if_pos small]
      exact ⟨[n], .cons ⟨small, rfl⟩ .nil, by simp [value_eq_foldl]⟩
    · obtain ⟨ds, written, same⟩ := ih (n / 16) (by omega)
      rw [if_neg small]
      refine ⟨ds ++ [n % 16], List.rel_append written (.cons ⟨by omega, rfl⟩ .nil), ?_⟩
      rw [value_eq_foldl] at same ⊢
      rw [List.foldl_append, same]
      simp only [List.foldl_cons, List.foldl_nil]
      omega

theorem mem_toDigits {n : Nat} {c : Char} (h : c ∈ Nat.toDigits 16 n) : ∃ d < 16, c = Nat.digitChar d := by
  obtain ⟨ds, written, -⟩ := exists_toDigits n
  have each : ∀ c ∈ Nat.toDigits 16 n, ∃ d < 16, c = Nat.digitChar d :=
    forall_mem_of_forall₂ (fun _ d digit => ⟨d, digit⟩) written
  exact each c h

theorem read?_toDigits (v : Int64) :
    read? ("0x" ++ String.ofList (Nat.toDigits 16 v.toUInt64.toNat)) = some (.integer v) := by
  obtain ⟨ds, written, same⟩ := exists_toDigits v.toUInt64.toNat
  have digits : List.Forall₂ (IsDigit 16) (Nat.toDigits 16 v.toUInt64.toNat) ds :=
    written.imp fun c d digit => ⟨digit.1, .inl digit.2⟩
  have wraps : Int64.ofNat v.toUInt64.toNat = v := by
    apply Int64.toBitVec_inj.mp
    change BitVec.ofNat 64 v.toBitVec.toNat = v.toBitVec
    simp
  have chars : "0x" ++ String.ofList (Nat.toDigits 16 v.toUInt64.toNat) =
      String.ofList ('0' :: 'x' :: Nat.toDigits 16 v.toUInt64.toNat) := by
    rw [← String.toList_inj]
    simp
  rw [chars, read?_hexadecimal (by decide), hexadecimal?_digits Nat.toDigits_ne_nil digits, toInt64_foldl_wrap, same, wraps]

end LuaBytecode.Numeral
