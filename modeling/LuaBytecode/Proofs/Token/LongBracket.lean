import LuaBytecode.Proofs.Token.HashLine
import LuaBytecode.Proofs.Token.Steps

namespace LuaBytecode

variable {level : Nat} {rest bytes : List UInt8}

theorem Cursor.afterByte_append_cons {stop : UInt8} (solid : Byte.isBreak stop = false) (b : UInt8)
    (text rest : List UInt8) : afterByte b (text ++ stop :: rest) = afterByte b text ++ stop :: rest := by
  unfold afterByte
  split
  · cases text with
    | nil => simp [afterBreak, solid]
    | cons c text =>
      rw [List.cons_append, afterBreak, afterBreak]
      split <;> rfl
  · rfl

theorem Cursor.afterByte_length (b : UInt8) (rest : List UInt8) : (afterByte b rest).length < (b :: rest).length := by
  unfold afterByte
  split
  · exact Nat.lt_succ_of_le (afterBreak_length b rest)
  · exact Nat.lt_succ_self _

theorem lineBreaks_append_cons {stop : UInt8} (solid : Byte.isBreak stop = false) (text rest : List UInt8) :
    lineBreaks (text ++ stop :: rest) = lineBreaks text + lineBreaks (stop :: rest) := by
  induction size : text.length using Nat.strongRecOn generalizing text with
  | ind n ih =>
    cases text with
    | nil => simp [lineBreaks]
    | cons b text =>
      have shorter : (Cursor.afterByte b text).length < n := size ▸ Cursor.afterByte_length b text
      rw [List.cons_append, lineBreaks_cons, lineBreaks_cons, Cursor.afterByte_append_cons solid, ih _ shorter _ rfl]
      omega

theorem ascii_of_isBreak (b : UInt8) (h : Byte.isBreak b = true) : b.toNat < 128 :=
  (Byte.classes b).blank (Byte.isBlank_of_isBreak h)

theorem IsText.afterByte {b : UInt8} (h : IsText rest) : IsText (Cursor.afterByte b rest) := by
  obtain same | ⟨c, pair, -, second, -⟩ := Cursor.afterByte_cases b rest
  · rwa [same]
  · rw [pair] at h
    exact h.tail (ascii_of_isBreak c second)

theorem IsText.dropBreak (h : IsText bytes) : IsText (dropBreak bytes) := by
  cases bytes with
  | nil => exact h
  | cons b rest =>
    rw [dropBreak_cons]
    split
    · rename_i lineBreak
      exact (h.tail (ascii_of_isBreak b lineBreak)).afterByte
    · exact h

theorem unifyBreaks_append_of_solid (solid : ∀ b ∈ bytes, Byte.isBreak b = false) :
    unifyBreaks (bytes ++ rest) = bytes ++ unifyBreaks rest := by
  induction bytes with
  | nil => rfl
  | cons b bytes ih =>
    obtain ⟨first, others⟩ := List.forall_mem_cons.mp solid
    rw [List.cons_append, unifyBreaks_cons, Cursor.afterByte, first, if_neg Bool.false_ne_true,
      if_neg Bool.false_ne_true, ih others, List.cons_append]

theorem IsText.unifyBreaks (h : IsText bytes) : IsText (unifyBreaks bytes) := by
  induction size : bytes.length using Nat.strongRecOn generalizing bytes with
  | ind n ih =>
    obtain rfl | ⟨c, rest, rfl, isText⟩ := h.cases
    · exact h
    · obtain ⟨encoded, small⟩ | high := utf8EncodeChar_cases c
      · rw [encoded, List.singleton_append] at size ⊢
        have shorter : (Cursor.afterByte (UInt8.ofNat c.toNat) rest).length < n := size ▸ Cursor.afterByte_length _ rest
        rw [unifyBreaks_cons]
        refine (ih _ shorter isText.afterByte rfl).cons ?_
        split
        · decide
        · rw [UInt8.toNat_ofNat', Nat.mod_eq_of_lt (by omega)]
          exact small
      · have solid : ∀ b ∈ String.utf8EncodeChar c, Byte.isBreak b = false := fun b member =>
          Bool.eq_false_iff.mpr fun lineBreak => Nat.not_le_of_lt (ascii_of_isBreak b lineBreak) (high b member)
        have some_byte := List.length_pos_iff.mpr (String.utf8EncodeChar_ne_nil (c := c))
        have shorter : rest.length < n := by
          rw [← size, List.length_append]
          omega
        rw [unifyBreaks_append_of_solid solid]
        exact append (.char c) (ih _ shorter isText rfl)

namespace LongBracket

variable {what : LongBracket} {next : Cursor} {e : LexError}

theorem closer_infix_afterByte (b : UInt8) (h : closer level <:+: rest) :
    closer level <:+: Cursor.afterByte b rest := by
  obtain same | ⟨c, pair, -, second, -⟩ := Cursor.afterByte_cases b rest
  · rwa [same]
  · rw [pair] at h
    exact (List.infix_cons_iff.mp h).resolve_left (not_closer_within second _)

theorem contents_eq_error {c : Cursor} {read : List UInt8} (h : contents what (closer level) c read = .error e next) :
    ¬ closer level <:+: c.rest ∧ e = .unfinishedLongBracket what next.line ∧ next.rest = [] := by
  fun_induction contents what (closer level) c read with
  | case1 => cases h
  | case2 c read none b step taken _ ih =>
    obtain ⟨rest, start, left, -⟩ := Cursor.step_eq_some taken
    obtain ⟨missing, failed⟩ := ih h
    refine ⟨fun found => ?_, failed⟩
    rw [start] at found
    obtain ⟨more, first⟩ | behind := List.infix_cons_iff.mp found
    · have here := TokenKind.isPrefixOf?_append (closer level) more
      rw [first, ← start, none] at here
      cases here
    · rw [left] at missing
      exact missing (closer_infix_afterByte b behind)
  | case3 c read _ none =>
    have empty := Cursor.rest_of_step_none none
    cases h
    exact ⟨by simp [empty, closer], rfl, empty⟩

theorem ends_iff {body : List UInt8} :
    Ends level body ↔ ∀ n < body.length, ¬ closer level <+: (body ++ closer level).drop n := by
  constructor
  · rintro first n inside ⟨after, found⟩
    have split : body ++ closer level = (body ++ closer level).take n ++ (closer level ++ after) := by
      rw [found, List.take_append_drop]
    have lengths := congrArg List.length found
    simp only [first _ after split, List.append_nil, List.length_drop, List.length_append] at lengths
    omega
  · intro first before after same
    have lengths := congrArg List.length same
    simp only [List.length_append] at lengths
    by_cases inside : before.length < body.length
    · refine absurd ⟨after, ?_⟩ (first before.length inside)
      rw [same, List.drop_left]
    · exact List.eq_nil_of_length_eq_zero (by omega)

instance (level : Nat) (body : List UInt8) : Decidable (Ends level body) := decidable_of_iff' _ ends_iff

theorem Ends.unique {body body' rest' : List UInt8} (first : Ends level body) (first' : Ends level body')
    (same : body ++ (closer level ++ rest) = body' ++ (closer level ++ rest')) : body = body' ∧ rest = rest' := by
  -- The longer body holds the closer that ends the shorter one.
  have within {short long more more' : List UInt8} (ends : Ends level (short ++ long))
      (behind : closer level ++ more = long ++ (closer level ++ more')) : long = [] := by
    have start : closer level <+: long ++ closer level := by
      refine List.prefix_of_prefix_length_le (List.prefix_append _ more) ?_ (by simp)
      rw [behind, ← List.append_assoc]
      exact List.prefix_append _ _
    obtain ⟨after, split⟩ := start
    have last := ends short after (by rw [List.append_assoc, ← split])
    have lengths := congrArg List.length split
    rw [last] at lengths
    exact List.eq_nil_of_length_eq_zero (by simpa using lengths)
  have equal : body = body' := by
    obtain ⟨long, rfl, behind⟩ | ⟨long, rfl, behind⟩ := List.append_eq_append_iff.mp same
    · rw [within first' behind, List.append_nil]
    · rw [within first behind, List.append_nil]
  subst equal
  exact ⟨rfl, List.append_cancel_left (List.append_cancel_left same)⟩

theorem closer_mem_dropBreak (h : closer level <:+: rest) : closer level <:+: dropBreak rest := by
  cases rest with
  | nil => exact h
  | cons b rest =>
    rw [dropBreak_cons]
    split
    · rename_i lineBreak
      exact closer_infix_afterByte b ((List.infix_cons_iff.mp h).resolve_left (not_closer_within lineBreak _))
    · exact h

theorem body_eq_error {line : Nat} (h : body what level rest line = .error e next) :
    ¬ closer level <:+: rest ∧ e = .unfinishedLongBracket what next.line ∧ next.rest = [] := by
  obtain ⟨missing, failed⟩ := contents_eq_error h
  rw [Cursor.skipBreak_rest] at missing
  exact ⟨fun found => missing (closer_mem_dropBreak found), failed⟩

theorem body_closed (what : LongBracket) {inside : List UInt8} (first : Ends level inside) (rest : List UInt8)
    (line : Nat) : body what level (inside ++ (closer level ++ rest)) line =
      .ok (unifyBreaks (dropBreak inside)) ⟨rest, line + lineBreaks inside⟩ := by
  have steps := body_steps what level (inside ++ (closer level ++ rest)) line
  cases read : body what level (inside ++ (closer level ++ rest)) line with
  | ok bytes next =>
    obtain ⟨inside', same, first', rfl⟩ := body_eq_ok read
    obtain ⟨rfl, rfl⟩ := first.unique first' same
    rw [read] at steps
    have passed : inside ++ (closer level ++ next.rest) = inside ++ closer level ++ next.rest :=
      (List.append_assoc _ _ _).symm
    have counted : lineBreaks (inside ++ closer level) = lineBreaks inside := by
      have none := lineBreaks_of_solid (closer_solid level)
      rw [closer, List.cons_append] at none ⊢
      rw [lineBreaks_append_cons rfl, none, Nat.add_zero]
    have line := steps.line_eq passed
    simp only [Scanned.cursor, counted] at line
    rw [← line]
  | error e next =>
    obtain ⟨missing, -⟩ := body_eq_error read
    exact absurd ⟨inside, rest, List.append_assoc _ _ _⟩ missing

theorem body_unclosed (what : LongBracket) (missing : ¬ closer level <:+: rest) (line : Nat) :
    body what level rest line =
      .error (.unfinishedLongBracket what (line + lineBreaks rest)) ⟨[], line + lineBreaks rest⟩ := by
  have steps := body_steps what level rest line
  cases read : body what level rest line with
  | ok bytes next =>
    obtain ⟨inside, split, -⟩ := body_eq_ok read
    exact absurd ⟨inside, next.rest, by rw [List.append_assoc, ← split]⟩ missing
  | error e next =>
    obtain ⟨-, rfl, done⟩ := body_eq_error read
    rw [read] at steps
    have passed : rest = rest ++ next.rest := by rw [done, List.append_nil]
    have line := steps.line_eq passed
    simp only [Scanned.cursor] at line
    rw [← line, ← done]

def enclosed (level : Nat) (contents : String) : String := ofAscii (opener level) ++ contents ++ ofAscii (closer level)

theorem utf8_enclosed (level : Nat) (contents : String) :
    utf8 (enclosed level contents) = opener level ++ (utf8 contents ++ closer level) := by
  have opening : utf8 (ofAscii (opener level)) = opener level :=
    utf8_ofAscii fun b member => by obtain rfl | rfl := mem_opener member <;> decide
  have closing : utf8 (ofAscii (closer level)) = closer level :=
    utf8_ofAscii fun b member => by obtain rfl | rfl := mem_closer member <;> decide
  rw [enclosed, utf8_append, utf8_append, opening, closing, List.append_assoc]

end LongBracket

namespace Cursor

open LongBracket

theorem token_opener (level : Nat) (rest : List UInt8) (line : Nat) :
    token ⟨opener level ++ rest, line⟩ = stringToken line (body .string level rest line) := by
  have bytes : opener level ++ rest = 91 :: (List.replicate level 61 ++ 91 :: rest) := by simp [opener]
  have visible : skipBlanks ⟨opener level ++ rest, line⟩ = ⟨opener level ++ rest, line⟩ := by
    rw [bytes]
    exact skipBlanks_visible rfl
  have code : ∀ more, opener level ++ rest ≠ 45 :: 45 :: more := by simp [bytes]
  have bracket : ((List.replicate level 61 ++ 91 :: rest).head? == some (91 : UInt8) ||
      (List.replicate level 61 ++ 91 :: rest).head? == some 61) = true := by
    cases level <;> simp [List.replicate]
  rw [token, skipGap_eq visible code]
  simp only [lexeme, bytes]
  rw [if_neg (by simp [NumeralWord.startsNumeral, Byte.isDigit]), if_pos (by rw [bracket]; rfl), longString, ← bytes,
    opener?_opener]

theorem skipGap_opener (level : Nat) (rest : List UInt8) (line : Nat) :
    skipGap ⟨45 :: 45 :: (opener level ++ rest), line⟩ = match body .comment level rest line with
      | .ok _ next => next.skipGap
      | .error e next => .error e next := by
  have visible : skipBlanks ⟨45 :: 45 :: (opener level ++ rest), line⟩ = ⟨45 :: 45 :: (opener level ++ rest), line⟩ :=
    skipBlanks_visible rfl
  rw [skipGap_eq_skipComments, visible, skipComments]
  cases closed : body .comment level rest line <;> simp only [opener?_opener, closed]

theorem token_nil (line : Nat) : token ⟨[], line⟩ = .ok (.eof line) ⟨[], line⟩ := by
  have done : skipBlanks ⟨[], line⟩ = ⟨[], line⟩ := by rw [skipBlanks]; rfl
  rw [token, skipGap_eq done (by simp)]
  rfl

end Cursor

namespace LongBracket

theorem token_enclosed {contents text : String} (first : Ends level (utf8 contents))
    (same : utf8 text = unifyBreaks (dropBreak (utf8 contents))) (rest : List UInt8) (line : Nat) :
    Cursor.token ⟨utf8 (enclosed level contents) ++ rest, line⟩ =
      .ok ⟨.string, line, some text⟩ ⟨rest, line + lineBreaks (utf8 contents)⟩ := by
  rw [utf8_enclosed, List.append_assoc, List.append_assoc, Cursor.token_opener, body_closed .string first, ← same,
    Cursor.stringToken, ofUtf8?_utf8]

theorem skipGap_enclosed {contents : String} (first : Ends level (utf8 contents)) (rest : List UInt8) (line : Nat) :
    Cursor.skipGap ⟨utf8 ("--" ++ enclosed level contents) ++ rest, line⟩ =
      Cursor.skipGap ⟨rest, line + lineBreaks (utf8 contents)⟩ := by
  have dashes : utf8 "--" = [45, 45] := by decide +kernel
  rw [utf8_append, dashes, utf8_enclosed, List.append_assoc, List.append_assoc, List.append_assoc, List.cons_append,
    List.singleton_append, Cursor.skipGap_opener, body_closed .comment first]

/-- A long bracket goes up to the first closer of its level: as a string it is its contents without the line break that
    they start with and with the others as line feeds, and as a comment it is skipped up to the same byte. Either way
    its line breaks are counted. With no closer of the level it is neither. -/
theorem read_up_to_first_closer (level : Nat) :
    (∀ contents : String, Ends level (utf8 contents) → ∃ text, utf8 text = unifyBreaks (dropBreak (utf8 contents)) ∧
      TokenStream.ofSource (enclosed level contents) =
        ⟨[⟨.string, 1, some text⟩], .ok (1 + lineBreaks (utf8 contents))⟩ ∧
      TokenStream.ofSource ("--" ++ enclosed level contents) = ⟨[], .ok (1 + lineBreaks (utf8 contents))⟩ ∧
      ∀ rest line,
        Cursor.token ⟨utf8 (enclosed level contents) ++ rest, line⟩ =
          .ok ⟨.string, line, some text⟩ ⟨rest, line + lineBreaks (utf8 contents)⟩ ∧
        Cursor.skipGap ⟨utf8 ("--" ++ enclosed level contents) ++ rest, line⟩ =
          Cursor.skipGap ⟨rest, line + lineBreaks (utf8 contents)⟩) ∧
    ∀ rest line, ¬ closer level <:+: rest →
      Cursor.token ⟨opener level ++ rest, line⟩ =
        .error (.unfinishedLongBracket .string (line + lineBreaks rest)) ⟨[], line + lineBreaks rest⟩ ∧
      Cursor.token ⟨45 :: 45 :: (opener level ++ rest), line⟩ =
        .error (.unfinishedLongBracket .comment (line + lineBreaks rest)) ⟨[], line + lineBreaks rest⟩ := by
  constructor
  · intro contents first
    obtain ⟨text, same⟩ := IsText.unifyBreaks (IsText.dropBreak ⟨contents, rfl⟩)
    have asString := token_enclosed first same [] 1
    have asComment := skipGap_enclosed first [] 1
    rw [List.append_nil] at asString asComment
    refine ⟨text, same, ?_, ?_, fun rest line => ?_⟩
    · rw [TokenStream.ofSource, Cursor.start, TokenStream.readFrom_token [] asString (by simp),
        TokenStream.readFrom_end _ (Cursor.token_nil _)]
      rfl
    · have last := Cursor.token_nil (1 + lineBreaks (utf8 contents))
      rw [Cursor.token, ← asComment] at last
      exact TokenStream.readFrom_end [] last
    · exact ⟨token_enclosed first same rest line, skipGap_enclosed first rest line⟩
  · intro rest line missing
    constructor
    · rw [Cursor.token_opener, body_unclosed .string missing, Cursor.stringToken]
    · rw [Cursor.token, Cursor.skipGap_opener, body_unclosed .comment missing]

theorem read_up_to_first_closer_brackets :
    Ends 1 (utf8 "\n\r]]=x\r\r\n]") ∧ ¬ closer 1 <:+: utf8 "]]\n=]" ∧
    (∃ text, utf8 text = unifyBreaks (dropBreak (utf8 "\n\r]]=x\r\r\n]")) ∧
      TokenStream.ofSource (enclosed 1 "\n\r]]=x\r\r\n]") = ⟨[⟨.string, 1, some text⟩], .ok 4⟩ ∧
      TokenStream.ofSource ("--" ++ enclosed 1 "\n\r]]=x\r\r\n]") = ⟨[], .ok 4⟩) ∧
    Cursor.token ⟨opener 1 ++ utf8 "]]\n=]", 1⟩ = .error (.unfinishedLongBracket .string 2) ⟨[], 2⟩ ∧
    Cursor.token ⟨45 :: 45 :: (opener 1 ++ utf8 "]]\n=]"), 1⟩ = .error (.unfinishedLongBracket .comment 2) ⟨[], 2⟩ := by
  have first : Ends 1 (utf8 "\n\r]]=x\r\r\n]") := by decide +kernel
  have missing : ¬ closer 1 <:+: utf8 "]]\n=]" := by decide +kernel
  have breaks : lineBreaks (utf8 "\n\r]]=x\r\r\n]") = 3 := by decide +kernel
  have oneBreak : lineBreaks (utf8 "]]\n=]") = 1 := by decide +kernel
  obtain ⟨text, same, asString, asComment, -⟩ := (read_up_to_first_closer 1).1 _ first
  have failures := (read_up_to_first_closer 1).2 (utf8 "]]\n=]") 1 missing
  rw [breaks] at asString asComment
  rw [oneBreak] at failures
  exact ⟨first, missing, ⟨text, same, asString, asComment⟩, failures⟩

end LongBracket

end LuaBytecode
