import LuaBytecode.Token.Cursor

namespace LuaBytecode.ShortString

inductive EscapeFault where
  | unfinished (c : Cursor)
  | invalid (c : Cursor)

/-- An escape sequence gives bytes and a place to go on from. -/
abbrev Escape := Except EscapeFault (List UInt8 × Cursor)

/-- Takes the byte that spoils an escape sequence into the quoted text, unless it breaks the line. -/
def spoiled (c : Cursor) : Escape :=
  match c.rest with
  | [] => .error (.invalid c)
  | b :: rest => .error (.invalid (if Byte.isBreak b then c else ⟨rest, c.line⟩))

def simple? : UInt8 → Option UInt8
  | 97 => some 7
  | 98 => some 8
  | 102 => some 12
  | 110 => some 10
  | 114 => some 13
  | 116 => some 9
  | 118 => some 11
  | 92 => some 92
  | 34 => some 34
  | 39 => some 39
  | _ => none

def hexadecimal (c : Cursor) : Escape :=
  match c.rest with
  | [] => spoiled c
  | high :: rest =>
    match Byte.hexValue? high with
    | none => spoiled c
    | some h =>
      match rest with
      | [] => spoiled ⟨rest, c.line⟩
      | low :: rest' =>
        match Byte.hexValue? low with
        | none => spoiled ⟨rest, c.line⟩
        | some l => .ok ([UInt8.ofNat (16 * h + l)], ⟨rest', c.line⟩)

def codePoint (line code digits : Nat) : List UInt8 → Escape
  | [] => spoiled ⟨[], line⟩
  | b :: rest =>
    if b == 125 && 0 < digits then
      if code.isValidChar then .ok (String.utf8EncodeChar (Char.ofNat code), ⟨rest, line⟩)
      else .error (.invalid ⟨rest, line⟩)
    else
      match Byte.hexValue? b with
      | none => spoiled ⟨b :: rest, line⟩
      | some d =>
        if 0x10ffff < 16 * code + d then spoiled ⟨rest, line⟩
        else codePoint line (16 * code + d) (digits + 1) rest

def unicode (c : Cursor) : Escape :=
  match c.rest with
  | 123 :: rest => codePoint c.line 0 0 rest
  | _ => spoiled c

def decimal (c : Cursor) : Escape :=
  let digits := (c.rest.take 3).takeWhile Byte.isDigit
  let value := digits.foldl (fun n d => 10 * n + (d.toNat - 48)) 0
  let next : Cursor := ⟨c.rest.drop digits.length, c.line⟩
  if value < 256 then .ok ([UInt8.ofNat value], next) else .error (.invalid next)

def escape (c : Cursor) : Escape :=
  match c.rest with
  | [] => .error (.unfinished c)
  | b :: rest =>
    match simple? b with
    | some byte => .ok ([byte], ⟨rest, c.line⟩)
    | none =>
      if Byte.isBreak b then .ok ([10], c.skipBreak)
      else if b == 120 then hexadecimal ⟨rest, c.line⟩
      else if b == 117 then unicode ⟨rest, c.line⟩
      else if b == 122 then .ok ([], Cursor.skipBlanks ⟨rest, c.line⟩)
      else if Byte.isDigit b then decimal c
      else spoiled c

theorem spoiled_ne_ok (c : Cursor) (r : List UInt8 × Cursor) : spoiled c ≠ .ok r := by
  unfold spoiled
  split <;> simp

variable {c next : Cursor} {bytes rest : List UInt8} {line : Nat}

theorem hexadecimal_eq_ok (h : hexadecimal c = .ok (bytes, next)) :
    ∃ high low x y rest, c.rest = high :: low :: rest ∧ Byte.hexValue? high = some x ∧ Byte.hexValue? low = some y ∧
      bytes = [UInt8.ofNat (16 * x + y)] ∧ next = ⟨rest, c.line⟩ := by
  unfold hexadecimal at h
  split at h
  · exact absurd h (spoiled_ne_ok _ _)
  · rename_i high rest start
    split at h
    · exact absurd h (spoiled_ne_ok _ _)
    · rename_i x first
      split at h
      · exact absurd h (spoiled_ne_ok _ _)
      · rename_i low rest'
        split at h
        · exact absurd h (spoiled_ne_ok _ _)
        · rename_i y second
          cases h
          exact ⟨high, low, x, y, rest', start, first, second, rfl, rfl⟩

theorem codePoint_eq_ok {code count : Nat} (h : codePoint line code count rest = .ok (bytes, next)) :
    ∃ digits values behind, rest = digits ++ 125 :: behind ∧ (0 < count ∨ digits ≠ []) ∧
      digits.mapM Byte.hexValue? = some values ∧
      (values.foldl (fun n d => 16 * n + d) code).isValidChar ∧
      bytes = String.utf8EncodeChar (Char.ofNat (values.foldl (fun n d => 16 * n + d) code)) ∧
      next = ⟨behind, line⟩ := by
  induction rest generalizing code count with
  | nil => exact absurd h (spoiled_ne_ok _ _)
  | cons b rest ih =>
    simp only [codePoint] at h
    split at h
    · rename_i closes
      simp only [Bool.and_eq_true, beq_iff_eq, decide_eq_true_eq] at closes
      obtain ⟨rfl, counted⟩ := closes
      split at h
      · rename_i valid
        cases h
        exact ⟨[], [], rest, rfl, .inl counted, rfl, valid, rfl, rfl⟩
      · cases h
    · split at h
      · exact absurd h (spoiled_ne_ok _ _)
      · rename_i d digit
        split at h
        · exact absurd h (spoiled_ne_ok _ _)
        · obtain ⟨digits, values, behind, rfl, -, read, valid, rfl, rfl⟩ := ih h
          exact ⟨b :: digits, d :: values, behind, rfl, .inr (by simp), by simp [digit, read], valid, rfl, rfl⟩

theorem escape_cases (h : escape c = .ok (bytes, next)) : ∃ b rest, c.rest = b :: rest ∧
      ((∃ byte, simple? b = some byte ∧ bytes = [byte] ∧ next = ⟨rest, c.line⟩) ∨
        (Byte.isBreak b = true ∧ bytes = [10] ∧ next = c.skipBreak) ∨
        (b = 120 ∧ hexadecimal ⟨rest, c.line⟩ = .ok (bytes, next)) ∨
        (b = 117 ∧ unicode ⟨rest, c.line⟩ = .ok (bytes, next)) ∨
        (b = 122 ∧ bytes = [] ∧ next = Cursor.skipBlanks ⟨rest, c.line⟩) ∨
        (Byte.isDigit b = true ∧ decimal c = .ok (bytes, next))) := by
  unfold escape at h
  split at h
  · cases h
  · rename_i b rest start
    refine ⟨b, rest, start, ?_⟩
    split at h
    · rename_i byte known
      cases h
      exact .inl ⟨byte, known, rfl, rfl⟩
    refine .inr ?_
    split at h
    · rename_i lineBreak
      cases h
      exact .inl ⟨lineBreak, rfl, rfl⟩
    refine .inr ?_
    split at h
    · rename_i marked
      exact .inl ⟨eq_of_beq marked, h⟩
    refine .inr ?_
    split at h
    · rename_i marked
      exact .inl ⟨eq_of_beq marked, h⟩
    refine .inr ?_
    split at h
    · rename_i marked
      cases h
      exact .inl ⟨eq_of_beq marked, rfl, rfl⟩
    refine .inr ?_
    split at h
    · rename_i digit
      exact ⟨digit, h⟩
    · exact absurd h (spoiled_ne_ok _ _)

theorem escape_length (h : escape c = .ok (bytes, next)) : next.rest.length ≤ c.rest.length := by
  obtain ⟨b, rest, start, kinds⟩ := escape_cases h
  have tail : rest.length ≤ c.rest.length := by simp [start]
  obtain ⟨_, _, _, rfl⟩ | ⟨_, _, rfl⟩ | ⟨_, read⟩ | ⟨_, read⟩ | ⟨_, _, rfl⟩ | ⟨_, read⟩ := kinds
  · exact tail
  · exact Cursor.skipBreak_length c
  · obtain ⟨_, _, _, _, behind, parts, _, _, _, rfl⟩ := hexadecimal_eq_ok read
    simp only [show rest = _ from parts, List.length_cons] at tail ⊢
    omega
  · unfold unicode at read
    split at read
    · rename_i inside brace
      obtain ⟨_, _, behind, parts, _, _, _, _, rfl⟩ := codePoint_eq_ok read
      simp only [show rest = _ from brace, parts, List.length_cons, List.length_append] at tail ⊢
      omega
    · exact absurd read (spoiled_ne_ok _ _)
  · exact Nat.le_trans (Cursor.skipBlanks_length ⟨rest, c.line⟩) tail
  · simp only [decimal] at read
    split at read <;> cases read
    simp

/-- The bytes up to the closing quote; `read` holds what is read, last byte first. Messages quote the source from
    `opening` on and carry the line of the string's start. -/
def contents (quote : UInt8) (opening : List UInt8) (line : Nat) (c : Cursor) (read : List UInt8) :
    Scanned (List UInt8) :=
  match hrest : c.rest with
  | [] => .error (.unfinishedString (c.textSince opening) line) c
  | b :: rest =>
    if Byte.isBreak b then .error (.unfinishedString (c.textSince opening) line) c
    else if b == quote then .ok read.reverse ⟨rest, c.line⟩
    else if b == 92 then
      match h : escape ⟨rest, c.line⟩ with
      | .ok (bytes, next) =>
        have _shorter : next.rest.length < c.rest.length := by
          rw [hrest]
          exact Nat.lt_succ_of_le (escape_length h)
        contents quote opening line next (bytes.reverse ++ read)
      | .error (.unfinished next) => .error (.unfinishedString (next.textSince opening) line) next
      | .error (.invalid next) => .error (.invalidEscape (next.textSince opening) line) next
    else
      have _shorter : rest.length < c.rest.length := by simp [hrest]
      contents quote opening line ⟨rest, c.line⟩ (b :: read)
termination_by c.rest.length

theorem contents_length {quote : UInt8} {opening bytes read : List UInt8} {line : Nat} {c next : Cursor}
    (h : contents quote opening line c read = .ok bytes next) : next.rest.length ≤ c.rest.length := by
  fun_induction contents quote opening line c read with
  | case1 => cases h
  | case2 => cases h
  | case3 c read b rest hrest =>
    cases h
    simp [hrest]
  | case4 c read b rest hrest _ _ _ bytes' next' hescape shorter ih => exact Nat.le_trans (ih h) (Nat.le_of_lt shorter)
  | case5 => cases h
  | case6 => cases h
  | case7 c read b rest hrest _ _ _ shorter ih => exact Nat.le_trans (ih h) (Nat.le_of_lt shorter)

end LuaBytecode.ShortString
