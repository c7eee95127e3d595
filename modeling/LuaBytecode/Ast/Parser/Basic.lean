import LuaBytecode.Token.Stream

namespace LuaBytecode

abbrev Parser := StateT TokenStream (Except CompileError)

namespace Parser

/-- The next token. Behind the last one stands the end of the input, as often as it is asked for, or the lexical
    error that ended the tokens. -/
def look : Parser Token := fun s =>
  match s.tokens, s.ending with
  | t :: _, _ => .ok (t, s)
  | [], .ok line => .ok (.eof line, s)
  | [], .error e => .error (.lex e)

def peek : Parser TokenKind := do
  return (← look).kind

def next : Parser Token := do
  let t ← look
  modify fun s => { s with tokens := s.tokens.tail }
  return t

def complain {α : Type} (complaint : Complaint) : Parser α := do
  let t ← look
  throw (.parse ⟨t.line, t.shown, complaint⟩)

def expect (kind : TokenKind) : Parser Token := do
  let t ← next
  if t.kind = kind then return t
  else throw (.parse ⟨t.line, t.shown, .expected kind⟩)

def name : Parser String := do
  return (← expect .identifier).text

def accept (kind : TokenKind) : Parser Bool := do
  if (← peek) = kind then
    let _ ← next
    return true
  else return false

/-- The closer of a construct that was opened on the given line; the message names a line other than the current one. -/
def close (closer opener : TokenKind) (line : Nat) : Parser Unit := do
  if ← accept closer then return ()
  else if (← look).line = line then complain (.expected closer)
  else complain (.unclosed closer opener line)

/-- Kinds that end a block, and an empty list of returned values. -/
def endsBlock : TokenKind → Bool
  | .kwReturn | .eof | .kwEnd | .kwElse | .kwElseIf | .kwUntil => true
  | _ => false

end Parser

end LuaBytecode
