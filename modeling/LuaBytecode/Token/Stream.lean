import LuaBytecode.Token.Scan

namespace LuaBytecode

/-- The tokens of a source, and what follows the last of them: the end of the input, with its line, or text that is
    no token. -/
structure TokenStream where
  tokens : List Token
  ending : Except LexError Nat

namespace TokenStream

def readFrom (c : Cursor) (read : List Token) : TokenStream :=
  match h : c.token with
  | .error e _ => ⟨read.reverse, .error e⟩
  | .ok t next =>
    if hkind : t.kind = .eof then ⟨read.reverse, .ok t.line⟩
    else
      have _shorter := Cursor.token_length h hkind
      readFrom next (t :: read)
termination_by c.rest.length

def ofSource (source : String) : TokenStream := readFrom (.start source) []

def toExcept (s : TokenStream) : Except LexError (List Token) :=
  match s.ending with
  | .ok _ => .ok s.tokens
  | .error e => .error e

end TokenStream

end LuaBytecode
