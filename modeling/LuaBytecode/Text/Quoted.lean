import LuaBytecode.Text.Invisible

namespace LuaBytecode

/-- A character inside quotes. Invisible ones without a short escape are written by their code point. -/
def quotedChar (c : Char) : String :=
  match c with
  | '"' => "\\\""
  | '\\' => "\\\\"
  | '\n' => "\\n"
  | '\r' => "\\r"
  | '\t' => "\\t"
  | '\x00' => "\\0"
  | _ =>
    if isInvisible c then "\\u\x7b" ++ String.ofList (Nat.toDigits 16 c.toNat) ++ "\x7d" else String.singleton c

def quoted (text : String) : String :=
  "\"" ++ text.foldl (fun out c => out ++ quotedChar c) "" ++ "\""

end LuaBytecode
