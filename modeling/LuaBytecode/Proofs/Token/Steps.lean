import LuaBytecode.Proofs.Token.Split
import Mathlib.Logic.Relation

namespace LuaBytecode

variable {t : Token} {text rest : List UInt8}

/-- Number of line breaks; they are paired from the left. -/
def lineBreaks : List UInt8 → Nat
  | [] => 0
  | [b] => if Byte.isBreak b then 1 else 0
  | b :: c :: rest =>
    if Byte.isBreak b && Byte.isBreak c && c != b then lineBreaks rest + 1
    else lineBreaks (c :: rest) + if Byte.isBreak b then 1 else 0

theorem lineBreaks_cons (b : UInt8) (rest : List UInt8) :
    lineBreaks (b :: rest) = lineBreaks (Cursor.afterByte b rest) + if Byte.isBreak b then 1 else 0 := by
  cases rest with
  | nil => simp [lineBreaks, Cursor.afterByte, Cursor.afterBreak]
  | cons c rest =>
    rw [lineBreaks, Cursor.afterByte, Cursor.afterBreak]
    cases first : Byte.isBreak b with
    | false => simp
    | true => cases pair : (Byte.isBreak c && c != b) <;> simp [pair]

theorem lineBreaks_append_of_solid (solid : ∀ b ∈ text, Byte.isBreak b = false) :
    lineBreaks (text ++ rest) = lineBreaks rest := by
  induction text with
  | nil => rfl
  | cons b text ih =>
    obtain ⟨first, others⟩ := List.forall_mem_cons.mp solid
    rw [List.cons_append, lineBreaks_cons, Cursor.afterByte, first]
    exact ih others

theorem lineBreaks_of_solid (solid : ∀ b ∈ text, Byte.isBreak b = false) : lineBreaks text = 0 := by
  rw [← List.append_nil text, lineBreaks_append_of_solid solid, lineBreaks]

def Scanned.cursor {α : Type} : Scanned α → Cursor
  | .ok _ c => c
  | .error _ c => c

namespace Cursor

def Steps : Cursor → Cursor → Prop := Relation.ReflTransGen fun c next => ∃ b, c.step = some (b, next)

theorem afterByte_of_append {b : UInt8} (alone : afterByte b (text ++ rest) = text ++ rest) :
    afterByte b text = text := by
  obtain same | ⟨c, pair, first, second, other⟩ := afterByte_cases b text
  · exact same
  · rw [pair] at alone
    have shorter := congrArg List.length alone
    simp [afterByte, afterBreak, first, second, other] at shorter

namespace Steps

variable {c d next : Cursor} {b : UInt8} {line : Nat}

theorem refl (c : Cursor) : Steps c c := Relation.ReflTransGen.refl

theorem trans (first : Steps c d) (second : Steps d next) : Steps c next := Relation.ReflTransGen.trans first second

theorem head (first : c.step = some (b, d)) (others : Steps d next) : Steps c next :=
  Relation.ReflTransGen.head ⟨b, first⟩ others

theorem pass (start : c.rest = text ++ rest) (solid : ∀ b ∈ text, Byte.isBreak b = false)
    (others : Steps ⟨rest, c.line⟩ next) : Steps c next := by
  induction text generalizing c with
  | nil =>
    have same : c = ⟨rest, c.line⟩ := by rw [← List.nil_append rest, ← start]
    exact same ▸ others
  | cons b text ih =>
    obtain ⟨first, more⟩ := List.forall_mem_cons.mp solid
    have taken : c.step = some (b, ⟨text ++ rest, c.line⟩) := by simp [step, start, first]
    exact .head taken (ih rfl more others)

theorem cons (start : c.rest = b :: rest) (solid : Byte.isBreak b = false) (others : Steps ⟨rest, c.line⟩ next) :
    Steps c next :=
  have alone : ∀ e ∈ [b], Byte.isBreak e = false := by simpa using solid
  pass start alone others

theorem lines (h : Steps c next) : ∃ text, c.rest = text ++ next.rest ∧ next.line = c.line + lineBreaks text ∧
    lineBreaks c.rest = lineBreaks text + lineBreaks next.rest := by
  induction h using Relation.ReflTransGen.head_induction_on with
  | refl => exact ⟨[], rfl, rfl, (Nat.zero_add _).symm⟩
  | @head c d first _ ih =>
    obtain ⟨b, taken⟩ := first
    obtain ⟨text, passed, line, counted⟩ := ih
    obtain ⟨rest, start, left, lineNow⟩ := step_eq_some taken
    -- The step took `b`, and with it the byte behind it if the two are one break.
    obtain ⟨pair, whole, after⟩ : ∃ pair, rest = pair ++ d.rest ∧ afterByte b (pair ++ text) = text := by
      obtain alone | ⟨e, pair, isBreak, isBreak', other⟩ := afterByte_cases b rest
      · have same : afterByte b (text ++ next.rest) = text ++ next.rest := by rw [← passed, left, alone, alone]
        exact ⟨[], by rw [left, alone]; rfl, afterByte_of_append same⟩
      · refine ⟨[e], by rw [left]; exact pair, ?_⟩
        simp [afterByte, afterBreak, isBreak, isBreak', other]
    refine ⟨b :: (pair ++ text), ?_, ?_, ?_⟩
    · rw [start, whole, passed]
      simp
    · rw [line, lineNow, lineBreaks_cons, after]
      omega
    · rw [start, lineBreaks_cons, ← left, counted, lineBreaks_cons, after]
      omega

theorem line_eq (h : Steps c next) (passed : c.rest = text ++ next.rest) : next.line = c.line + lineBreaks text := by
  obtain ⟨text', passed', line, -⟩ := h.lines
  rw [line, List.append_cancel_right (passed'.symm.trans passed)]

end Steps

theorem skipBlanks_steps (c : Cursor) : Steps c c.skipBlanks := by
  fun_induction skipBlanks c with
  | case1 c b next taken _ _ ih => exact .head taken ih
  | case2 => exact .refl _
  | case3 => exact .refl _

theorem skipBreak_steps (c : Cursor) : Steps c c.skipBreak := by
  unfold skipBreak
  split
  · rename_i taken
    split
    · exact .head taken (.refl _)
    · exact .refl _
  · exact .refl _

end Cursor

namespace LongBracket

theorem mem_opener {level : Nat} {b : UInt8} (member : b ∈ opener level) : b = 91 ∨ b = 61 := by
  simp only [opener, List.cons_append, List.mem_cons, List.mem_append, List.mem_replicate, List.not_mem_nil,
    or_false] at member
  rcases member with rfl | ⟨-, rfl⟩ | rfl <;> simp

theorem mem_closer {level : Nat} {b : UInt8} (member : b ∈ closer level) : b = 93 ∨ b = 61 := by
  simp only [closer, List.cons_append, List.mem_cons, List.mem_append, List.mem_replicate, List.not_mem_nil,
    or_false] at member
  rcases member with rfl | ⟨-, rfl⟩ | rfl <;> simp

theorem opener_solid (level : Nat) : ∀ b ∈ opener level, Byte.isBreak b = false := by
  intro b member
  obtain rfl | rfl := mem_opener member <;> rfl

theorem closer_solid (level : Nat) : ∀ b ∈ closer level, Byte.isBreak b = false := by
  intro b member
  obtain rfl | rfl := mem_closer member <;> rfl

theorem contents_steps (what : LongBracket) (level : Nat) (c : Cursor) (read : List UInt8) :
    Cursor.Steps c (Scanned.cursor (contents what (closer level) c read)) := by
  fun_induction contents what (closer level) c read with
  | case1 c read rest found =>
    exact .pass (append_of_isPrefixOf? found).symm (closer_solid level) (.refl _)
  | case2 c read _ b next taken _ ih => exact .head taken ih
  | case3 => exact .refl _

theorem body_steps (what : LongBracket) (level : Nat) (rest : List UInt8) (line : Nat) :
    Cursor.Steps ⟨rest, line⟩ (Scanned.cursor (body what level rest line)) :=
  (Cursor.skipBreak_steps _).trans (contents_steps what level _ [])

end LongBracket

namespace ShortString

theorem solid_of_hexValue? {b : UInt8} {d : Nat} (h : Byte.hexValue? b = some d) : Byte.isBreak b = false :=
  Byte.solid_of_isName (Numeral.isName_of_isHexDigit b (by simp [Byte.isHexDigit, h]))

theorem digits_solid {digits : List UInt8} {values : List Nat} (h : digits.mapM Byte.hexValue? = some values) :
    ∀ b ∈ digits, Byte.isBreak b = false := by
  induction digits generalizing values with
  | nil => exact nofun
  | cons d digits ih =>
    simp only [List.mapM_cons, Option.bind_eq_bind, Option.bind_eq_some_iff] at h
    obtain ⟨v, first, vs, others, -⟩ := h
    exact List.forall_mem_cons.mpr ⟨solid_of_hexValue? first, ih others⟩

theorem escape_steps {c next : Cursor} {bytes : List UInt8} (h : escape c = .ok (bytes, next)) :
    Cursor.Steps c next := by
  obtain ⟨b, rest, start, kinds⟩ := escape_cases h
  obtain ⟨byte, known, -, rfl⟩ | ⟨-, -, rfl⟩ | ⟨rfl, read⟩ | ⟨rfl, read⟩ | ⟨rfl, -, rfl⟩ | ⟨digit, read⟩ := kinds
  · refine .cons start ?_ (.refl _)
    exact ((Byte.classes b).simple (by simp [known])).2
  · exact Cursor.skipBreak_steps c
  · obtain ⟨high, low, x, y, rest', behind, first, second, -, rfl⟩ := hexadecimal_eq_ok read
    exact .cons start rfl (.cons behind (solid_of_hexValue? first) (.cons rfl (solid_of_hexValue? second) (.refl _)))
  · obtain ⟨digits, values, rest', behind, -, hex, -, -, rfl⟩ := unicode_eq_ok read
    exact .cons start rfl (.cons behind rfl (.pass rfl (digits_solid hex) (.cons rfl rfl (.refl _))))
  · exact .cons start rfl (Cursor.skipBlanks_steps _)
  · obtain ⟨digits, rest', whole, -, -, all, -, -, rfl⟩ := decimal_eq_ok start digit read
    exact .pass whole (fun b member => Byte.solid_of_isName (by simp [Byte.isName, all b member])) (.refl _)

theorem contents_steps {quote : UInt8} {opening bytes read : List UInt8} {line : Nat} {c next : Cursor}
    (h : contents quote opening line c read = .ok bytes next) : Cursor.Steps c next := by
  fun_induction contents quote opening line c read with
  | case1 => cases h
  | case2 => cases h
  | case3 c read b rest start solid =>
    cases h
    exact .cons start (by simpa using solid) (.refl _)
  | case4 c read b rest start solid _ _ value after escaped _ ih =>
    exact .cons start (by simpa using solid) ((escape_steps escaped).trans (ih h))
  | case5 => cases h
  | case6 => cases h
  | case7 c read b rest start solid _ _ _ ih => exact .cons start (by simpa using solid) (ih h)

end ShortString

namespace Cursor

variable {c next : Cursor}

theorem skipGap_steps (h : c.skipGap = .ok () next) : Steps c next := by
  fun_induction skipGap c with
  | case1 c _ rest start level inside opened _ after skipped _ ih =>
    have behind : c.skipBlanks.rest = 45 :: 45 :: LongBracket.opener level ++ inside := by
      rw [start, LongBracket.opener?_eq_some opened]
      rfl
    have body := LongBracket.body_steps .comment level inside c.skipBlanks.line
    rw [skipped] at body
    have solid : ∀ b ∈ 45 :: 45 :: LongBracket.opener level, Byte.isBreak b = false := by
      simpa using ⟨rfl, LongBracket.opener_solid level⟩
    exact (skipBlanks_steps c).trans (.pass behind solid (body.trans (ih h)))
  | case2 => cases h
  | case3 c _ rest start unopened _ ih =>
    have split : rest = rest.takeWhile (!Byte.isBreak ·) ++ rest.dropWhile (!Byte.isBreak ·) :=
      List.takeWhile_append_dropWhile.symm
    refine (skipBlanks_steps c).trans (.cons start rfl (.cons rfl rfl (.pass split (fun b member => ?_) (ih h))))
    simpa using List.all_eq_true.mp List.all_takeWhile b member
  | case4 c _ other =>
    cases h
    exact skipBlanks_steps c

theorem lexeme_steps (h : c.lexeme = .ok t next) : Steps c next := by
  cases lexeme_scans h with
  | eof => exact .refl _
  | numeral wellFormed =>
    obtain ⟨numeral, -⟩ := NumeralWord.isNumeral_read wellFormed
    refine .pass (NumeralWord.text_append_rest c.rest).symm (fun b member => ?_) (.refl _)
    obtain name | mark := numeral.mem b member
    · exact Byte.solid_of_isName name
    · simp only [List.mem_cons, List.not_mem_nil, or_false] at mark
      rcases mark with rfl | rfl | rfl <;> rfl
  | @longString level inside _ _ _ opened read =>
    have body := LongBracket.body_steps .string level inside c.line
    rw [read] at body
    exact .pass (LongBracket.opener?_eq_some opened) (LongBracket.opener_solid level) body
  | shortString start mark read =>
    refine .cons start ?_ (ShortString.contents_steps read)
    obtain rfl | rfl := mark <;> rfl
  | name _ _ read =>
    cases read
    refine .pass List.takeWhile_append_dropWhile.symm (fun b member => Byte.solid_of_isName ?_) (.refl _)
    exact List.all_eq_true.mp List.all_takeWhile b member
  | @symbol kind _ found =>
    have solid : ∀ k ∈ TokenKind.symbols, (utf8 k.spelling).all (!Byte.isBreak ·) = true := by decide +kernel
    obtain ⟨listed, spelt, -⟩ := TokenKind.symbol?_eq_some found
    refine .pass spelt (fun b member => ?_) (.refl _)
    simpa using List.all_eq_true.mp (solid kind listed) b member

theorem token_steps (h : c.token = .ok t next) : Steps c next := by
  obtain ⟨start, skipped, h⟩ := token_ok h
  exact (skipGap_steps skipped).trans (lexeme_steps h)

end Cursor

end LuaBytecode
