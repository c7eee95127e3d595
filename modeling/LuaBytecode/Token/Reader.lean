import LuaBytecode.Token.Scan

namespace LuaBytecode

/-- Reads tokens one at a time and can hold one that is looked at but not consumed. -/
structure Reader where
  cursor : Cursor
  held : Option Token
  deriving Repr

namespace Reader

def ofSource (source : String) : Reader := ⟨.start source, none⟩

def line (r : Reader) : Nat := r.cursor.line

def next : EStateM CompileError Reader Token := fun r =>
  match r.held with
  | some t => .ok t { r with held := none }
  | none =>
    match r.cursor.token with
    | .ok t c => .ok t ⟨c, none⟩
    | .error e c => .error (.lex e) ⟨c, none⟩

def look : EStateM CompileError Reader Token := do
  let t ← next
  modify fun r => { r with held := some t }
  return t

def peek : EStateM CompileError Reader TokenKind := do
  return (← look).kind

def expect (kind : TokenKind) : EStateM CompileError Reader Token := do
  let t ← next
  if t.kind = kind then return t
  else throw (.parse ⟨t.line, t.shown, .expected kind⟩)

def accept (kind : TokenKind) : EStateM CompileError Reader Bool := do
  if (← peek) = kind then
    let _ ← next
    return true
  else return false

end Reader

end LuaBytecode
