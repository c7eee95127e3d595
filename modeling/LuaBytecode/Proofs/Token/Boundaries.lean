import LuaBytecode.Proofs.Token.Pieces

namespace LuaBytecode

variable {rest : List UInt8}

theorem LongBracket.Encloses.isText {level : Nat} {body bracket : List UInt8} (h : Encloses level body bracket)
    (isText : IsText (bracket ++ rest)) : IsText body ∧ IsText rest := by
  have opening : IsText (body ++ (closer level ++ rest)) := by
    rw [h.parts, List.append_assoc, List.append_assoc] at isText
    exact isText.drop fun b member => by obtain rfl | rfl := mem_opener member <;> decide
  have closing := opening.at_ascii (by simp [closer])
  refine ⟨?_, closing.drop fun b member => by obtain rfl | rfl := mem_closer member <;> decide⟩
  obtain ⟨text, whole⟩ := opening
  obtain ⟨front, _, -, same, -⟩ := closing.exists_append whole
  exact ⟨front, same⟩

theorem ShortString.IsQuoted.closes {quote : UInt8} {quoted decoded : List UInt8} (h : IsQuoted quote quoted decoded) :
    ∃ inside, quoted = inside ++ [quote] := by
  induction h with
  | close => exact ⟨[], rfl⟩
  | plain _ _ _ _ ih =>
    obtain ⟨inside, rfl⟩ := ih
    exact ⟨_ :: inside, rfl⟩
  | @escaped bytes _ _ _ _ _ ih =>
    obtain ⟨inside, rfl⟩ := ih
    exact ⟨92 :: (bytes ++ inside), by simp⟩

theorem IsTrivia.isText {trivia : List UInt8} (h : IsTrivia rest trivia) (isText : IsText (trivia ++ rest)) :
    IsText rest := by
  have dash : (45 : UInt8).toNat < 128 := by decide
  induction h with
  | nil => exact isText
  | blank blank _ ih => exact ih (isText.tail ((Byte.classes _).blank blank))
  | @comment text more _ _ stop _ ih =>
    have behind : IsText (text ++ (more ++ rest)) := by simpa using (isText.tail dash).tail dash
    refine ih (behind.at_ascii fun b first => ascii_of_isBreak b ?_)
    simpa [Option.mem_def.mp first] using stop
  | longComment encloses _ ih =>
    refine ih (encloses.isText ?_).2
    simpa using (isText.tail dash).tail dash

theorem Token.IsLexeme.isText {t : Token} {lexeme : List UInt8} (h : t.IsLexeme rest lexeme)
    (isText : IsText (lexeme ++ rest)) : IsText rest := by
  cases h with
  | symbol => exact .behind_text ⟨_, rfl⟩ isText
  | keyword => exact .behind_text ⟨_, rfl⟩ isText
  | identifier => exact .behind_text ⟨_, rfl⟩ isText
  | number => exact .behind_text ⟨_, rfl⟩ isText
  | @shortString quote _ _ _ mark quoted =>
    obtain ⟨inside, rfl⟩ := quoted.closes
    have ascii : quote.toNat < 128 := by
      obtain rfl | rfl : quote = 34 ∨ quote = 39 := by simpa using mark
      all_goals decide
    have split : quote :: (inside ++ [quote]) ++ rest = (quote :: inside) ++ quote :: rest := by simp
    rw [split] at isText
    exact (isText.at_ascii (by simpa using ascii)).tail ascii
  | longString encloses => exact (encloses.isText isText).2

namespace Cursor

variable {c start next : Cursor} {line e : Nat}

theorem skipGap_isText (h : c.skipGap = .ok () start) (isText : IsText c.rest) : IsText start.rest := by
  obtain ⟨trivia, split, isTrivia, -⟩ := skipGap_eq_ok h
  exact isTrivia.isText (split ▸ isText)

theorem token_isText {t : Token} (h : c.token = .ok t next) (isText : IsText c.rest) : IsText next.rest := by
  obtain ⟨start, skipped, h⟩ := token_ok h
  have here := skipGap_isText skipped isText
  obtain ⟨empty, -⟩ | ⟨lexeme, split, isLexeme⟩ := lexeme_eq_ok h
  · obtain ⟨text, passed, -⟩ := (lexeme_steps h).lines
    exact ⟨"", (List.append_eq_nil_iff.mp (passed.symm.trans empty)).2.symm⟩
  · exact isLexeme.isText (split ▸ here)

end Cursor

end LuaBytecode
