import LuaBytecode.Chunk
import LuaBytecode.Proofs.Token.Spaced

namespace LuaBytecode

theorem utf8EncodeChar_cases (c : Char) : String.utf8EncodeChar c = [UInt8.ofNat c.toNat] ∧ c.toNat < 128 ∨
    ∀ b ∈ String.utf8EncodeChar c, 128 ≤ b.toNat := by
  rw [String.utf8EncodeChar]
  by_cases small : c.val.toNat ≤ 127
  · refine .inl ⟨?_, Nat.lt_succ_of_le small⟩
    rw [if_pos small]
    rfl
  · refine .inr fun b member => ?_
    simp only [small, if_false] at member
    split at member
    · simp only [List.mem_cons, List.not_mem_nil, or_false] at member
      rcases member with rfl | rfl <;> rw [UInt8.toNat_ofNat'] <;> omega
    · split at member
      · simp only [List.mem_cons, List.not_mem_nil, or_false] at member
        rcases member with rfl | rfl | rfl <;> rw [UInt8.toNat_ofNat'] <;> omega
      · simp only [List.mem_cons, List.not_mem_nil, or_false] at member
        rcases member with rfl | rfl | rfl | rfl <;> rw [UInt8.toNat_ofNat'] <;> omega

theorem eq_of_mem_utf8EncodeChar {c : Char} {b : UInt8} (member : b ∈ String.utf8EncodeChar c) (ascii : b.toNat < 128) :
    c = Char.ofNat b.toNat := by
  obtain ⟨encoded, small⟩ | high := utf8EncodeChar_cases c
  · rw [encoded, List.mem_singleton] at member
    rw [member, UInt8.toNat_ofNat', Nat.mod_eq_of_lt (by omega), Char.ofNat_toNat]
  · exact absurd (high b member) (Nat.not_le_of_lt ascii)

theorem utf8_dropWhile_newline (cs : List Char) :
    utf8 (String.ofList (cs.dropWhile (· != '\n'))) = (utf8 (String.ofList cs)).dropWhile (· != 10) := by
  rw [utf8_ofList, utf8_ofList]
  induction cs with
  | nil => rfl
  | cons c cs ih =>
    by_cases newline : c = '\n'
    · subst newline
      rfl
    · have other : ∀ b ∈ String.utf8EncodeChar c, (b != 10) = true := by
        intro b member
        rw [bne_iff_ne]
        rintro rfl
        exact newline (eq_of_mem_utf8EncodeChar member (by decide))
      rw [List.flatMap_cons, List.dropWhile_append_of_pos other, List.dropWhile_cons_of_pos (by simpa using newline), ih]

theorem not_isBreak_of_mem_utf8 {cs : List Char} (solid : ∀ c ∈ cs, c ≠ '\n' ∧ c ≠ '\r') :
    ∀ b ∈ utf8 (String.ofList cs), (!Byte.isBreak b) = true := by
  rw [utf8_ofList]
  intro b member
  obtain ⟨c, listed, encoded⟩ := List.mem_flatMap.mp member
  rw [Bool.not_eq_true', Byte.isBreak, Bool.or_eq_false_iff, beq_eq_false_iff_ne, beq_eq_false_iff_ne]
  constructor
  · rintro rfl
    exact (solid c listed).1 (eq_of_mem_utf8EncodeChar encoded (by decide))
  · rintro rfl
    exact (solid c listed).2 (eq_of_mem_utf8EncodeChar encoded (by decide))

namespace Cursor

variable {rest : List UInt8}

def skipComments (c : Cursor) : Scanned Unit :=
  match c.rest with
  | 45 :: 45 :: rest =>
    match LongBracket.opener? rest with
    | some (level, body) =>
      match LongBracket.body .comment level body c.line with
      | .ok _ next => next.skipGap
      | .error e next => .error e next
    | none => skipGap ⟨rest.dropWhile fun b => !Byte.isBreak b, c.line⟩
  | _ => .ok () c

theorem skipGap_eq_skipComments (c : Cursor) : c.skipGap = c.skipBlanks.skipComments := by
  rw [skipGap]
  split
  · rename_i rest start
    split
    · rename_i level body opened
      split
      · rename_i closed
        simp only [skipComments, start, opened, closed]
      · rename_i closed
        simp only [skipComments, start, opened, closed]
    · rename_i unopened
      simp only [skipComments, start, unopened]
  · rename_i other
    rw [skipComments]
    split
    · rename_i rest start
      exact absurd start (other rest)
    · rfl

theorem skipGap_comment {line : Nat} (plain : LongBracket.opener? rest = none) :
    skipGap ⟨45 :: 45 :: rest, line⟩ = skipGap ⟨rest.dropWhile fun b => !Byte.isBreak b, line⟩ := by
  have visible : skipBlanks ⟨45 :: 45 :: rest, line⟩ = ⟨45 :: 45 :: rest, line⟩ := skipBlanks_visible (by decide)
  rw [skipGap_eq_skipComments, visible, skipComments]
  simp only [plain]

theorem skipBlanks_newline (rest : List UInt8) (line : Nat) :
    skipBlanks ⟨10 :: rest, line⟩ = skipBlanks ⟨afterBreak 10 rest, line + 1⟩ := by
  rw [skipBlanks]
  rfl

theorem skipBlanks_return (rest : List UInt8) (line : Nat) :
    skipBlanks ⟨13 :: rest, line⟩ = skipBlanks ⟨afterBreak 13 rest, line + 1⟩ := by
  rw [skipBlanks]
  rfl

def returnsPaired : List UInt8 → Bool
  | 13 :: 10 :: rest => returnsPaired rest
  | 13 :: _ => false
  | _ => true

/-- Where returns are paired, the breaks count the same if a newline in front of them takes the first return. -/
theorem skipBlanks_afterBreak (paired : returnsPaired rest = true) (line : Nat) :
    skipBlanks ⟨afterBreak 10 rest, line⟩ = skipBlanks ⟨rest, line⟩ := by
  fun_induction returnsPaired rest generalizing line with
  | case1 rest ih =>
    change skipBlanks ⟨10 :: rest, line⟩ = _
    rw [skipBlanks_newline, ih paired, skipBlanks_return]
    rfl
  | case2 => cases paired
  | case3 rest _ single =>
    cases rest with
    | nil => rfl
    | cons b rest =>
      have kept : (Byte.isBreak b && b != 10) = false := by
        rw [Byte.isBreak]
        by_cases newline : b = 10
        · simp [newline]
        · have other : b ≠ 13 := fun same => single rest (same ▸ rfl)
          simp [newline, other]
      rw [afterBreak, if_neg (by rw [kept]; decide)]

theorem skipBlanks_dropWhile (paired : returnsPaired (rest.dropWhile fun b => !Byte.isBreak b) = true) (line : Nat) :
    skipBlanks ⟨rest.dropWhile (· != 10), line⟩ =
      skipBlanks ⟨rest.dropWhile fun b => !Byte.isBreak b, line⟩ := by
  induction rest with
  | nil => rfl
  | cons b rest ih =>
    by_cases newline : b = 10
    · subst newline
      rfl
    rw [List.dropWhile_cons_of_pos (by simpa using newline)]
    by_cases carriage : b = 13
    · subst carriage
      change returnsPaired (13 :: rest) = true at paired
      change _ = skipBlanks ⟨13 :: rest, line⟩
      match rest with
      | [] => cases paired
      | b :: rest =>
        by_cases newline : b = 10
        · subst newline
          rw [returnsPaired] at paired
          change skipBlanks ⟨10 :: rest, line⟩ = _
          rw [skipBlanks_newline, skipBlanks_afterBreak paired, skipBlanks_return]
          rfl
        · rw [returnsPaired] at paired
          · cases paired
          · intro rest' same
            exact newline (List.cons.inj same).1
    · have inside : (!Byte.isBreak b) = true := by simp [Byte.isBreak, newline, carriage]
      rw [List.dropWhile_cons_of_pos (p := fun b => !Byte.isBreak b) inside] at paired ⊢
      exact ih paired

end Cursor

namespace TokenStream

theorem readFrom_eq (c : Cursor) (read : List Token) : readFrom c read = match c.token with
    | .error e _ => ⟨read.reverse, .error e⟩
    | .ok t next => if t.kind = .eof then ⟨read.reverse, .ok t.line⟩ else readFrom next (t :: read) := by
  rw [readFrom]
  split
  · rename_i failed
    simp only [failed]
  · rename_i found
    simp only [found]
    split <;> rfl

theorem readFrom_congr {c c' : Cursor} (same : c.skipGap = c'.skipGap) (read : List Token) :
    readFrom c read = readFrom c' read := by
  rw [readFrom_eq, readFrom_eq, Cursor.token, Cursor.token, same]

end TokenStream

namespace Chunk

theorem tokens_congr {source other : String} (same : (Cursor.start source).skipGap = (Cursor.start other).skipGap) :
    tokens source = tokens other := by
  rw [tokens, tokens, TokenStream.ofSource, TokenStream.ofSource, TokenStream.readFrom_congr same]

/-- The text with the returns of its first line taken out, where a newline ends the line. -/
def withoutReturns (text : String) : String :=
  String.ofList ((text.toList.takeWhile (· != '\n')).filter (· != '\r') ++ text.toList.dropWhile (· != '\n'))

theorem utf8_withoutReturns (text : String) :
    (utf8 (withoutReturns text)).dropWhile (fun b => !Byte.isBreak b) = (utf8 text).dropWhile (· != 10) := by
  have line : ∀ c ∈ (text.toList.takeWhile (· != '\n')).filter (· != '\r'), c ≠ '\n' ∧ c ≠ '\r' := by
    intro c member
    obtain ⟨taken, other⟩ := List.mem_filter.mp member
    exact ⟨by simpa using List.all_eq_true.mp List.all_takeWhile c taken, by simpa using other⟩
  have newline := utf8_dropWhile_newline text.toList
  rw [String.ofList_toList] at newline
  rw [withoutReturns, String.ofList_append, utf8_append, List.dropWhile_append_of_pos (not_isBreak_of_mem_utf8 line),
    newline]
  cases left : (utf8 text).dropWhile (· != 10) with
  | nil => rfl
  | cons b rest =>
    have first : b = 10 := by
      have stopped := List.head?_dropWhile_not (· != 10) (utf8 text)
      rw [left] at stopped
      simpa using stopped
    subst first
    rfl

theorem skipGap_hashLine (text : String) :
    (Cursor.start (skipHashLine ("#" ++ text))).skipGap = Cursor.skipGap ⟨(utf8 text).dropWhile (· != 10), 1⟩ := by
  have newline := utf8_dropWhile_newline text.toList
  rw [String.ofList_toList] at newline
  have skipped : skipHashLine ("#" ++ text) = String.ofList (text.toList.dropWhile (· != '\n')) := by
    rw [skipHashLine, String.toList_append]
    rfl
  rw [skipped, Cursor.start, newline]

theorem skipGap_hashComment (text : String) : (Cursor.start ("--#" ++ text)).skipGap =
    Cursor.skipGap ⟨(utf8 text).dropWhile fun b => !Byte.isBreak b, 1⟩ := by
  have bytes : utf8 ("--#" ++ text) = 45 :: 45 :: 35 :: utf8 text := by
    rw [utf8_append]
    rfl
  rw [Cursor.start, bytes, Cursor.skipGap_comment (by rfl)]
  rfl

/-- A first line that starts with `#` goes up to its newline, as a comment does where there is no return in it. With
    returns in it the line is a comment still, if each return at the end of the line is paired with a newline. -/
theorem tokens_skipHashLine (text : String) :
    tokens (skipHashLine ("#" ++ text)) = tokens ("--#" ++ withoutReturns text) ∧
      (Cursor.returnsPaired ((utf8 text).dropWhile fun b => !Byte.isBreak b) = true →
        tokens (skipHashLine ("#" ++ text)) = tokens ("--#" ++ text)) := by
  constructor
  · apply tokens_congr
    rw [skipGap_hashLine, skipGap_hashComment, utf8_withoutReturns]
  · intro paired
    apply tokens_congr
    rw [skipGap_hashLine, skipGap_hashComment, Cursor.skipGap_eq_skipComments, Cursor.skipBlanks_dropWhile paired,
      ← Cursor.skipGap_eq_skipComments]

theorem tokens_skipHashLine_of_returns :
    Cursor.returnsPaired ((utf8 "!/usr/bin/lua\r\n\r\n\nprint(1)\r").dropWhile fun b => !Byte.isBreak b) = true ∧
      tokens (skipHashLine "#!/usr/bin/lua\r\n\r\n\nprint(1)\r") = tokens "--#!/usr/bin/lua\r\n\r\n\nprint(1)\r" := by
  have paired : Cursor.returnsPaired ((utf8 "!/usr/bin/lua\r\n\r\n\nprint(1)\r").dropWhile
    fun b => !Byte.isBreak b) = true := by decide +kernel
  exact ⟨paired, (tokens_skipHashLine "!/usr/bin/lua\r\n\r\n\nprint(1)\r").2 paired⟩

end Chunk

end LuaBytecode
