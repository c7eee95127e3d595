import LuaBytecode.Instruction.Word
import LuaBytecode.Token.Basic

namespace LuaBytecode

inductive LongBracket where
  | string
  | comment
  deriving DecidableEq, Repr

inductive LexError where
  | unexpectedChar (near : String) (line : Nat)
  | unfinishedString (near : String) (line : Nat)
  | unfinishedLongBracket (what : LongBracket) (line : Nat)
  | invalidEscape (near : String) (line : Nat)
  | malformedNumber (near : String) (line : Nat)
  | malformedString (line : Nat)
  deriving DecidableEq, Repr

namespace LexError

def line : LexError → Nat
  | unexpectedChar _ line | unfinishedString _ line | unfinishedLongBracket _ line | invalidEscape _ line
  | malformedNumber _ line | malformedString line => line

def message : LexError → String
  | unexpectedChar near line => s!"{line}: unexpected symbol near '{near}'"
  | unfinishedString near line => s!"{line}: unfinished string near '{near}'"
  | unfinishedLongBracket .string line => s!"{line}: unfinished long string near <eof>"
  | unfinishedLongBracket .comment line => s!"{line}: unfinished long comment near <eof>"
  | invalidEscape near line => s!"{line}: invalid escape sequence near '{near}'"
  | malformedNumber near line => s!"{line}: malformed number near '{near}'"
  | malformedString line => s!"{line}: string literal is not valid UTF-8"

end LexError

inductive Complaint where
  | expected (kind : TokenKind)
  /-- The closer of a construct that was opened on an earlier line. -/
  | unclosed (closer opener : TokenKind) (line : Nat)
  | unexpectedSymbol
  | argumentsExpected
  | nameExpected
  | notAStatement
  | other (text : String)
  deriving DecidableEq, Repr

def Complaint.message : Complaint → String
  | expected kind => s!"'{kind.spelling}' expected"
  | unclosed closer opener line => s!"'{closer.spelling}' expected (to close '{opener.spelling}' at line {line})"
  | unexpectedSymbol => "unexpected symbol"
  | argumentsExpected => "function arguments expected"
  | nameExpected => "<name> expected"
  | notAStatement => "syntax error"
  | other text => text

structure SyntaxError where
  line : Nat
  near : String
  complaint : Complaint
  deriving DecidableEq, Repr

def SyntaxError.message (e : SyntaxError) : String := s!"{e.line}: {e.complaint.message} near '{e.near}'"

/-- What the language has and prototypes cannot be built for. -/
inductive Unsupported where
  | goto
  | assignmentTarget
  deriving DecidableEq, Repr

def Unsupported.name : Unsupported → String
  | goto => "goto"
  | assignmentTarget => "assignment to a non-variable"

inductive CodeError where
  | tooManyRegisters (line : Nat)
  | registerUnderflow (line : Nat)
  | operandOverflow (error : OperandError) (line : Nat)
  | tooManyUpvalues (line : Nat)
  | breakOutsideLoop (line : Nat)
  | varargOutsideVararg (line : Nat)
  | unsupported (what : Unsupported) (line : Nat)
  | functionStackUnderflow (line : Nat)
  | noInstruction (pc line : Nat)
  | countUnderflow (line : Nat)
  | noLocal (record line : Nat)
  deriving DecidableEq, Repr

namespace CodeError

def line : CodeError → Nat
  | tooManyRegisters line | registerUnderflow line | operandOverflow _ line | tooManyUpvalues line
  | breakOutsideLoop line | varargOutsideVararg line | unsupported _ line | functionStackUnderflow line
  | noInstruction _ line | countUnderflow line | noLocal _ line => line

def message : CodeError → String
  | tooManyRegisters line => s!"{line}: function or expression needs too many registers"
  | registerUnderflow line => s!"{line}: register freed with none allocated"
  | operandOverflow error line => s!"{line}: {error.message}"
  | tooManyUpvalues line => s!"{line}: too many upvalues"
  | breakOutsideLoop line => s!"{line}: break outside a loop"
  | varargOutsideVararg line => s!"{line}: cannot use '...' outside a vararg function"
  | unsupported what line => s!"{line}: {what.name} is not supported"
  | functionStackUnderflow line => s!"{line}: nested function closed with no enclosing function"
  | noInstruction pc line => s!"{line}: no instruction at {pc}"
  | countUnderflow line => s!"{line}: count below zero"
  | noLocal record line => s!"{line}: no local variable {record}"

end CodeError

inductive CompileError where
  | lex (error : LexError)
  | parse (error : SyntaxError)
  | code (error : CodeError)
  | outOfFuel
  deriving DecidableEq, Repr

namespace CompileError

def line : CompileError → Nat
  | lex e => e.line
  | parse e => e.line
  | code e => e.line
  | outOfFuel => 0

def message : CompileError → String
  | lex e => e.message
  | parse e => e.message
  | code e => e.message
  | outOfFuel => "out of fuel"

end CompileError

end LuaBytecode
