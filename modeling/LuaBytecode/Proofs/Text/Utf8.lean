import LuaBytecode.Text.Utf8

namespace LuaBytecode

theorem utf8_append (a b : String) : utf8 (a ++ b) = utf8 a ++ utf8 b := by
  rw [utf8, String.toByteArray_append]
  simp [utf8]

theorem utf8_ofList (cs : List Char) : utf8 (String.ofList cs) = cs.flatMap String.utf8EncodeChar := by
  rw [utf8, String.toByteArray_ofList, List.utf8Encode]
  simp

theorem utf8EncodeChar_ofNat {b : UInt8} (small : b.toNat < 128) :
    String.utf8EncodeChar (Char.ofNat b.toNat) = [b] := by
  have valid : b.toNat.isValidChar := Or.inl (by omega)
  have value : (Char.ofNat b.toNat).val.toNat = b.toNat := by
    rw [Char.ofNat, dif_pos valid]
    rfl
  rw [String.utf8EncodeChar]
  simp only [value]
  rw [if_pos (by omega)]
  simp

theorem utf8_ofAscii {bytes : List UInt8} (ascii : ∀ b ∈ bytes, b.toNat < 128) : utf8 (ofAscii bytes) = bytes := by
  rw [ofAscii, utf8_ofList]
  induction bytes with
  | nil => rfl
  | cons b bytes ih =>
    obtain ⟨small, rest⟩ := List.forall_mem_cons.mp ascii
    rw [List.map_cons, List.flatMap_cons, utf8EncodeChar_ofNat small, ih rest]
    rfl

theorem ofUtf8?_utf8 (text : String) : ofUtf8? (utf8 text) = some text := by
  have same : (⟨(utf8 text).toArray⟩ : ByteArray) = text.toByteArray := by simp [utf8]
  rw [ofUtf8?, same, String.fromUTF8?, dif_pos text.isValidUTF8]
  rfl

theorem utf8_injective {a b : String} (h : utf8 a = utf8 b) : a = b := by
  have same := congrArg ofUtf8? h
  rw [ofUtf8?_utf8, ofUtf8?_utf8] at same
  exact Option.some.inj same

theorem ofAscii_utf8 {text : String} (ascii : ∀ b ∈ utf8 text, b.toNat < 128) : ofAscii (utf8 text) = text :=
  utf8_injective (utf8_ofAscii ascii)

theorem forall_uint8 {P : UInt8 → Prop} (h : ∀ n < 256, P (UInt8.ofNat n)) (b : UInt8) : P b := by
  have at_b := h b.toNat b.toNat_lt
  rw [UInt8.ofNat_toNat] at at_b
  exact at_b

def IsText (bytes : List UInt8) : Prop := ∃ text, utf8 text = bytes

section Boundaries

variable {before rest : List UInt8} {source : String}

theorem utf8ByteSize_eq (whole : utf8 source = before ++ rest) :
    source.utf8ByteSize = before.length + rest.length := by
  rw [← List.length_append, ← whole]
  simp [utf8]

theorem exists_append_of_isValid (whole : utf8 source = before ++ rest)
    (valid : String.Pos.Raw.IsValid source ⟨before.length⟩) :
    ∃ front back, source = front ++ back ∧ utf8 front = before ∧ utf8 back = rest := by
  obtain ⟨front, back, rfl, place⟩ := String.Pos.Raw.isValid_iff_exists_append.mp valid
  rw [utf8_append] at whole
  have lengths : (utf8 front).length = before.length := by
    simpa [utf8] using (congrArg String.Pos.Raw.byteIdx place).symm
  obtain ⟨first, second⟩ := List.append_inj whole lengths
  exact ⟨front, back, rfl, first, second⟩

theorem IsText.exists_append (h : IsText rest) (whole : utf8 source = before ++ rest) :
    ∃ front back, source = front ++ back ∧ utf8 front = before ∧ utf8 back = rest := by
  obtain ⟨text, rfl⟩ := h
  have bytes : source.toByteArray.data.toList = before ++ utf8 text := whole
  have behind : source.toByteArray.extract before.length source.utf8ByteSize = text.toByteArray := by
    refine ByteArray.ext (Array.toList_inj.mp ?_)
    simp only [ByteArray.data_extract, Array.toList_extract, List.extract, bytes, utf8ByteSize_eq whole, List.drop_left,
      Nat.add_sub_cancel_left, List.take_length]
    rfl
  refine exists_append_of_isValid whole (String.Pos.Raw.isValid_iff_isValidUTF8_extract_utf8ByteSize.mpr ⟨?_, ?_⟩)
  · simp [String.Pos.Raw.le_iff, utf8ByteSize_eq whole]
  · exact behind ▸ text.isValidUTF8

theorem isUTF8FirstByte_of_ascii : ∀ b : UInt8, b.toNat < 128 → b.IsUTF8FirstByte :=
  fun b ascii => .inl (forall_uint8 (P := fun b => b.toNat < 128 → b &&& 128 = 0) (by decide +kernel) b ascii)

theorem isValid_of_ascii {b : UInt8} (ascii : b.toNat < 128) (whole : utf8 source = before ++ b :: rest) :
    String.Pos.Raw.IsValid source ⟨before.length⟩ := by
  have bytes : source.toByteArray.data.toList = before ++ b :: rest := whole
  have here : source.toByteArray.data.toList[before.length]? = some b := by simp [bytes]
  have inside : before.length < source.utf8ByteSize := by simp [utf8ByteSize_eq whole]
  refine String.Pos.Raw.isValid_iff_isUTF8FirstByte.mpr (.inr ⟨inside, ?_⟩)
  have byte : source.getUTF8Byte ⟨before.length⟩ inside = b := by
    rw [Array.getElem?_toList, Array.getElem?_eq_some_iff] at here
    exact here.2
  exact byte ▸ isUTF8FirstByte_of_ascii b ascii

end Boundaries

namespace IsText

variable {b : UInt8} {bytes rest : List UInt8}

theorem nil : IsText [] := ⟨"", rfl⟩

theorem char (c : Char) : IsText (String.utf8EncodeChar c) :=
  ⟨String.ofList [c], by rw [utf8_ofList, List.flatMap_singleton]⟩

theorem append (first : IsText bytes) (second : IsText rest) : IsText (bytes ++ rest) := by
  obtain ⟨text, rfl⟩ := first
  obtain ⟨more, rfl⟩ := second
  exact ⟨text ++ more, utf8_append text more⟩

theorem cons (ascii : b.toNat < 128) (h : IsText rest) : IsText (b :: rest) :=
  append ⟨ofAscii [b], utf8_ofAscii (by simpa using ascii)⟩ h

theorem cases (h : IsText bytes) : bytes = [] ∨ ∃ c rest, bytes = String.utf8EncodeChar c ++ rest ∧ IsText rest := by
  obtain ⟨text, rfl⟩ := h
  rw [← String.ofList_toList (s := text), utf8_ofList]
  cases text.toList with
  | nil => exact .inl rfl
  | cons c cs => exact .inr ⟨c, _, List.flatMap_cons, ⟨String.ofList cs, utf8_ofList cs⟩⟩

theorem behind_text (first : IsText bytes) (h : IsText (bytes ++ rest)) : IsText rest := by
  obtain ⟨text, rfl⟩ := first
  obtain ⟨source, whole⟩ := h
  have front : source.toByteArray.extract 0 (utf8 text).length = text.toByteArray := by
    have bytes : source.toByteArray.data.toList = utf8 text ++ rest := whole
    refine ByteArray.ext (Array.toList_inj.mp ?_)
    simp [List.extract, bytes, utf8]
  have valid : String.Pos.Raw.IsValid source ⟨(utf8 text).length⟩ := by
    refine String.Pos.Raw.isValid_iff_isValidUTF8_extract_zero.mpr ⟨?_, front ▸ text.isValidUTF8⟩
    simp [String.Pos.Raw.le_iff, utf8ByteSize_eq whole]
  obtain ⟨_, back, -, -, same⟩ := exists_append_of_isValid whole valid
  exact ⟨back, same⟩

theorem drop (ascii : ∀ b ∈ bytes, b.toNat < 128) (h : IsText (bytes ++ rest)) : IsText rest :=
  behind_text ⟨ofAscii bytes, utf8_ofAscii ascii⟩ h

theorem tail (ascii : b.toNat < 128) (h : IsText (b :: rest)) : IsText rest :=
  @drop [b] rest (by simpa using ascii) h

theorem at_ascii (h : IsText (bytes ++ rest)) (start : ∀ b ∈ rest.head?, b.toNat < 128) : IsText rest := by
  cases rest with
  | nil => exact nil
  | cons b rest =>
    obtain ⟨source, whole⟩ := h
    obtain ⟨_, back, -, -, same⟩ := exists_append_of_isValid whole (isValid_of_ascii (start b rfl) whole)
    exact ⟨back, same⟩

end IsText

end LuaBytecode
