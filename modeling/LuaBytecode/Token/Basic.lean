import LuaBytecode.Text.Utf8

namespace LuaBytecode

/-- Kinds of tokens. `-` and `~` have one kind each: only the grammar tells a sign from an operator. -/
inductive TokenKind where
  | eof
  | semi
  | comma
  | dot
  | colon
  | doubleColon
  | lparen
  | rparen
  | lbracket
  | rbracket
  | lbrace
  | rbrace
  | vararg
  | assign
  | minus
  | tilde
  | plus
  | star
  | slash
  | floorDiv
  | caret
  | percent
  | ampersand
  | pipe
  | shiftRight
  | shiftLeft
  | dotDot
  | less
  | lessEq
  | greater
  | greaterEq
  | equal
  | notEqual
  | hash
  | kwAnd
  | kwOr
  | kwNot
  | kwBreak
  | kwDo
  | kwElse
  | kwElseIf
  | kwEnd
  | kwFalse
  | kwFor
  | kwFunction
  | kwGoto
  | kwIf
  | kwIn
  | kwLocal
  | kwNil
  | kwRepeat
  | kwReturn
  | kwThen
  | kwTrue
  | kwUntil
  | kwWhile
  | identifier
  | number
  | string
  deriving DecidableEq, Repr

namespace TokenKind

def spelling : TokenKind → String
  | eof => "<eof>"
  | semi => ";"
  | comma => ","
  | dot => "."
  | colon => ":"
  | doubleColon => "::"
  | lparen => "("
  | rparen => ")"
  | lbracket => "["
  | rbracket => "]"
  | lbrace => "\x7b"
  | rbrace => "\x7d"
  | vararg => "..."
  | assign => "="
  | minus => "-"
  | tilde => "~"
  | plus => "+"
  | star => "*"
  | slash => "/"
  | floorDiv => "//"
  | caret => "^"
  | percent => "%"
  | ampersand => "&"
  | pipe => "|"
  | shiftRight => ">>"
  | shiftLeft => "<<"
  | dotDot => ".."
  | less => "<"
  | lessEq => "<="
  | greater => ">"
  | greaterEq => ">="
  | equal => "=="
  | notEqual => "~="
  | hash => "#"
  | kwAnd => "and"
  | kwOr => "or"
  | kwNot => "not"
  | kwBreak => "break"
  | kwDo => "do"
  | kwElse => "else"
  | kwElseIf => "elseif"
  | kwEnd => "end"
  | kwFalse => "false"
  | kwFor => "for"
  | kwFunction => "function"
  | kwGoto => "goto"
  | kwIf => "if"
  | kwIn => "in"
  | kwLocal => "local"
  | kwNil => "nil"
  | kwRepeat => "repeat"
  | kwReturn => "return"
  | kwThen => "then"
  | kwTrue => "true"
  | kwUntil => "until"
  | kwWhile => "while"
  | identifier => "<name>"
  | number => "<number>"
  | string => "<string>"

def label : TokenKind → String
  | eof => "Eof"
  | semi => "Semi"
  | comma => "Comma"
  | dot => "Dot"
  | colon => "Colon"
  | doubleColon => "DoubleColon"
  | lparen => "LParen"
  | rparen => "RParen"
  | lbracket => "LBracket"
  | rbracket => "RBracket"
  | lbrace => "LBrace"
  | rbrace => "RBrace"
  | vararg => "Vararg"
  | assign => "Assign"
  | minus => "Minus"
  | tilde => "Tilde"
  | plus => "Plus"
  | star => "Star"
  | slash => "Slash"
  | floorDiv => "FloorDiv"
  | caret => "Caret"
  | percent => "Percent"
  | ampersand => "Ampersand"
  | pipe => "Pipe"
  | shiftRight => "ShiftRight"
  | shiftLeft => "ShiftLeft"
  | dotDot => "DotDot"
  | less => "Less"
  | lessEq => "LessEq"
  | greater => "Greater"
  | greaterEq => "GreaterEq"
  | equal => "Equal"
  | notEqual => "NotEqual"
  | hash => "Hash"
  | kwAnd => "And"
  | kwOr => "Or"
  | kwNot => "Not"
  | kwBreak => "Break"
  | kwDo => "Do"
  | kwElse => "Else"
  | kwElseIf => "ElseIf"
  | kwEnd => "End"
  | kwFalse => "False"
  | kwFor => "For"
  | kwFunction => "Function"
  | kwGoto => "Goto"
  | kwIf => "If"
  | kwIn => "In"
  | kwLocal => "Local"
  | kwNil => "Nil"
  | kwRepeat => "Repeat"
  | kwReturn => "Return"
  | kwThen => "Then"
  | kwTrue => "True"
  | kwUntil => "Until"
  | kwWhile => "While"
  | identifier => "Identifier"
  | number => "Number"
  | string => "String"

/-- Symbols, a longer one in front of each that it starts with. -/
def symbols : List TokenKind :=
  [vararg, doubleColon, floorDiv, shiftRight, shiftLeft, dotDot, lessEq, greaterEq, equal, notEqual,
    semi, comma, dot, colon, lparen, rparen, lbracket, rbracket, lbrace, rbrace, assign, minus, tilde, plus, star,
    slash, caret, percent, ampersand, pipe, less, greater, hash]

def keywords : List TokenKind :=
  [kwAnd, kwBreak, kwDo, kwElse, kwElseIf, kwEnd, kwFalse, kwFor, kwFunction, kwGoto, kwIf, kwIn, kwLocal, kwNil,
    kwNot, kwOr, kwRepeat, kwReturn, kwThen, kwTrue, kwUntil, kwWhile]

def all : List TokenKind := eof :: symbols ++ keywords ++ [identifier, number, string]

def keyword? (word : String) : Option TokenKind := keywords.find? fun kind => kind.spelling == word

def symbolBytes : List (List UInt8 × TokenKind) := symbols.map fun kind => (utf8 kind.spelling, kind)

/-- The longest symbol that the bytes start with, and the bytes after it. -/
def symbol? (bytes : List UInt8) : Option (TokenKind × List UInt8) :=
  symbolBytes.findSome? fun (spelling, kind) => (spelling.isPrefixOf? bytes).map fun rest => (kind, rest)

end TokenKind

theorem append_of_isPrefixOf? {start bytes rest : List UInt8} (h : start.isPrefixOf? bytes = some rest) :
    start ++ rest = bytes := by
  induction start generalizing bytes with
  | nil => exact (Option.some.inj h).symm
  | cons b start ih =>
    cases bytes with
    | nil => cases h
    | cons c bytes =>
      change (if b == c then start.isPrefixOf? bytes else none) = some rest at h
      split at h
      · rename_i same
        rw [List.cons_append, ih h, eq_of_beq same]
      · simp at h

/-- A token and the line it starts on. The text is the spelling of a symbol or keyword, the name of an identifier,
    a numeral as it is written and the contents of a string; only the end of the input has none. -/
structure Token where
  kind : TokenKind
  line : Nat
  text? : Option String
  deriving DecidableEq, Repr

namespace Token

def eof (line : Nat) : Token := ⟨.eof, line, none⟩

def text (t : Token) : String := t.text?.getD ""

def shown (t : Token) : String := t.text?.getD t.kind.spelling

end Token

end LuaBytecode
