import LuaBytecode.Token.LongBracket
import LuaBytecode.Token.NumeralWord
import LuaBytecode.Token.ShortString

namespace LuaBytecode.Cursor

def skipGap (c : Cursor) : Scanned Unit :=
  have _bound := skipBlanks_length c
  match hrest : c.skipBlanks.rest with
  | 45 :: 45 :: rest =>
    match hopener : LongBracket.opener? rest with
    | some (level, body) =>
      match hbody : LongBracket.body .comment level body c.skipBlanks.line with
      | .ok _ next =>
        have _shorter : next.rest.length < c.rest.length := by
          have := LongBracket.body_length hbody
          have := LongBracket.opener?_length hopener
          simp only [hrest, List.length_cons] at _bound
          omega
        skipGap next
      | .error e next => .error e next
    | none =>
      have _shorter : (rest.dropWhile fun b => !Byte.isBreak b).length < c.rest.length := by
        have := (List.dropWhile_sublist (fun b => !Byte.isBreak b) (l := rest)).length_le
        simp only [hrest, List.length_cons] at _bound
        omega
      skipGap ⟨rest.dropWhile fun b => !Byte.isBreak b, c.skipBlanks.line⟩
  | _ => .ok () c.skipBlanks
termination_by c.rest.length

theorem skipGap_length {c next : Cursor} (h : c.skipGap = .ok () next) : next.rest.length ≤ c.rest.length := by
  fun_induction skipGap c with
  | case1 _ _ _ _ _ _ _ _ _ _ shorter ih => exact Nat.le_trans (ih h) (Nat.le_of_lt shorter)
  | case2 => cases h
  | case3 _ _ _ _ _ shorter ih => exact Nat.le_trans (ih h) (Nat.le_of_lt shorter)
  | case4 c =>
    cases h
    exact skipBlanks_length c

def name (c : Cursor) : Scanned Token :=
  let word := ofAscii (c.rest.takeWhile Byte.isName)
  .ok ⟨(TokenKind.keyword? word).getD .identifier, c.line, some word⟩ ⟨c.rest.dropWhile Byte.isName, c.line⟩

def numeral (c : Cursor) : Scanned Token :=
  let word := NumeralWord.read c.rest
  if word.isWellFormed then .ok ⟨.number, c.line, some (ofAscii word.text)⟩ ⟨word.rest, c.line⟩
  else .error (.malformedNumber (ofAscii word.text) c.line) ⟨word.rest, c.line⟩

def stringToken (line : Nat) :
    Scanned (List UInt8) → Scanned Token
  | .ok bytes next =>
    match ofUtf8? bytes with
    | some text => .ok ⟨.string, line, some text⟩ next
    | none => .error (.malformedString line) next
  | .error e next => .error e next

def longString (c : Cursor) : Scanned Token :=
  match LongBracket.opener? c.rest with
  | some (level, body) => stringToken c.line (LongBracket.body .string level body c.line)
  | none => .error (.unfinishedLongBracket .string c.line) c

def shortString (quote : UInt8) (rest : List UInt8) (c : Cursor) : Scanned Token :=
  stringToken c.line (ShortString.contents quote c.rest c.line ⟨rest, c.line⟩ [])

def symbol (c : Cursor) : Scanned Token :=
  match TokenKind.symbol? c.rest with
  | some (kind, rest) => .ok ⟨kind, c.line, some kind.spelling⟩ ⟨rest, c.line⟩
  | none =>
    let width := c.rest.head?.elim 0 utf8Width
    .error (.unexpectedChar (ofUtf8Start (c.rest.take width)) c.line) c

def lexeme (c : Cursor) : Scanned Token :=
  match c.rest with
  | [] => .ok (.eof c.line) c
  | b :: rest =>
    if NumeralWord.startsNumeral c.rest then numeral c
    else if b == 91 && (rest.head? == some 91 || rest.head? == some 61) then longString c
    else if b == 34 || b == 39 then shortString b rest c
    else if Byte.isNameStart b then name c
    else symbol c

def token (c : Cursor) : Scanned Token :=
  match c.skipGap with
  | .ok _ start => start.lexeme
  | .error e next => .error e next

theorem stringToken_ok {line : Nat} {r : Scanned (List UInt8)} {t : Token} {next : Cursor}
    (h : stringToken line r = .ok t next) :
    ∃ bytes text, r = .ok bytes next ∧ ofUtf8? bytes = some text ∧ t = ⟨.string, line, some text⟩ := by
  cases r with
  | error => cases h
  | ok bytes after =>
    simp only [stringToken] at h
    split at h
    · rename_i text decoded
      cases h
      exact ⟨bytes, text, rfl, decoded, rfl⟩
    · cases h

/-- The token that is read from a cursor on, and the cursor behind it. -/
inductive Scans (c : Cursor) : Token → Cursor → Prop
  | eof : c.rest = [] → Scans c (.eof c.line) c
  | numeral : (NumeralWord.read c.rest).isWellFormed = true →
    Scans c ⟨.number, c.line, some (ofAscii (NumeralWord.read c.rest).text)⟩ ⟨(NumeralWord.read c.rest).rest, c.line⟩
  | longString {level : Nat} {inside bytes : List UInt8} {text : String} {next : Cursor} :
    LongBracket.opener? c.rest = some (level, inside) → LongBracket.body .string level inside c.line = .ok bytes next →
    ofUtf8? bytes = some text → Scans c ⟨.string, c.line, some text⟩ next
  | shortString {quote : UInt8} {rest bytes : List UInt8} {text : String} {next : Cursor} :
    c.rest = quote :: rest → quote = 34 ∨ quote = 39 →
    ShortString.contents quote c.rest c.line ⟨rest, c.line⟩ [] = .ok bytes next → ofUtf8? bytes = some text →
    Scans c ⟨.string, c.line, some text⟩ next
  | name {b : UInt8} {rest : List UInt8} {t : Token} {next : Cursor} : c.rest = b :: rest →
    Byte.isNameStart b = true → c.name = .ok t next → Scans c t next
  | symbol {kind : TokenKind} {rest : List UInt8} : TokenKind.symbol? c.rest = some (kind, rest) →
    Scans c ⟨kind, c.line, some kind.spelling⟩ ⟨rest, c.line⟩

theorem lexeme_scans {c next : Cursor} {t : Token} (h : c.lexeme = .ok t next) : c.Scans t next := by
  unfold lexeme at h
  split at h
  · rename_i empty
    cases h
    exact .eof empty
  · rename_i b rest start
    split at h
    · simp only [Cursor.numeral] at h
      split at h
      · rename_i wellFormed
        cases h
        exact .numeral wellFormed
      · cases h
    split at h
    · unfold longString at h
      split at h
      · rename_i opened
        obtain ⟨_, _, read, decoded, rfl⟩ := stringToken_ok h
        exact .longString opened read decoded
      · cases h
    split at h
    · rename_i mark
      obtain ⟨_, _, read, decoded, rfl⟩ := stringToken_ok h
      exact .shortString start (by simpa using mark) read decoded
    split at h
    · rename_i letter
      exact .name start letter h
    · unfold symbol at h
      split at h
      · rename_i found
        cases h
        exact .symbol found
      · cases h

theorem symbolBytes_ne_nil : ∀ entry ∈ TokenKind.symbolBytes, entry.1 ≠ [] := by
  decide +kernel

theorem symbol?_length {bytes rest : List UInt8} {kind : TokenKind}
    (h : TokenKind.symbol? bytes = some (kind, rest)) : rest.length < bytes.length := by
  unfold TokenKind.symbol? at h
  obtain ⟨⟨spelling, kind'⟩, member, found⟩ := List.exists_of_findSome?_eq_some h
  simp only [Option.map_eq_some_iff] at found
  obtain ⟨rest', hstart, heq⟩ := found
  have some_text := List.length_pos_iff.mpr (symbolBytes_ne_nil _ member)
  have whole := congrArg List.length (append_of_isPrefixOf? hstart)
  cases heq
  rw [List.length_append] at whole
  simp only at some_text
  omega

/-- A token other than the end of the input takes at least one byte. -/
theorem lexeme_length {c next : Cursor} {t : Token} (h : c.lexeme = .ok t next) (hkind : t.kind ≠ .eof) :
    next.rest.length < c.rest.length := by
  cases lexeme_scans h with
  | eof => exact absurd rfl hkind
  | numeral wellFormed => exact NumeralWord.rest_length wellFormed
  | longString opened read => exact Nat.lt_of_le_of_lt (LongBracket.body_length read) (LongBracket.opener?_length opened)
  | shortString start _ read =>
    have bound := ShortString.contents_length read
    rw [start]
    exact Nat.lt_succ_of_le bound
  | @name b rest _ _ start letter read =>
    cases read
    have letter : Byte.isName b = true := by simp [Byte.isName, letter]
    have bound := (List.dropWhile_sublist Byte.isName (l := rest)).length_le
    rw [start, List.dropWhile_cons_of_pos letter]
    exact Nat.lt_succ_of_le bound
  | symbol found => exact symbol?_length found

theorem token_ok {c next : Cursor} {t : Token} (h : c.token = .ok t next) :
    ∃ start, c.skipGap = .ok () start ∧ start.lexeme = .ok t next := by
  unfold token at h
  split at h
  · exact ⟨_, ‹_›, h⟩
  · cases h

theorem token_length {c next : Cursor} {t : Token} (h : c.token = .ok t next) (hkind : t.kind ≠ .eof) :
    next.rest.length < c.rest.length := by
  obtain ⟨start, skipped, h⟩ := token_ok h
  exact Nat.lt_of_lt_of_le (lexeme_length h hkind) (skipGap_length skipped)

end LuaBytecode.Cursor
