namespace LuaBytecode

def utf8 (text : String) : List UInt8 := text.toByteArray.data.toList

def ofUtf8? (bytes : List UInt8) : Option String := String.fromUTF8? ⟨bytes.toArray⟩

def ofAscii (bytes : List UInt8) : String := String.ofList (bytes.map fun b => Char.ofNat b.toNat)

/-- The text of bytes that start a character; a character that is cut off at their end shows as U+FFFD. -/
def ofUtf8Start (bytes : List UInt8) : String :=
  match ofUtf8? bytes with
  | some text => text
  | none =>
    let whole := [1, 2, 3].findSome? fun cut => ofUtf8? (bytes.take (bytes.length - cut))
    whole.getD "" ++ "\ufffd"

def utf8Width (lead : UInt8) : Nat :=
  if lead < 0x80 then 1 else if lead < 0xe0 then 2 else if lead < 0xf0 then 3 else 4

end LuaBytecode
