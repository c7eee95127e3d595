import LuaBytecode.Ast.Outline
import LuaBytecode.Chunk
import LuaBytecode.Cli.Options
import LuaBytecode.Prototype.Listing

namespace LuaBytecode.Cli

inductive ReadError where
  | notFound
  | permissionDenied
  | notADirectory
  | isADirectory
  | nameTooLong
  | notUtf8
  | other (text : String)
  deriving DecidableEq, Repr

def ReadError.message : ReadError → String
  | notFound => "No such file or directory (os error 2)"
  | permissionDenied => "Permission denied (os error 13)"
  | notADirectory => "Not a directory (os error 20)"
  | isADirectory => "Is a directory (os error 21)"
  | nameTooLong => "File name too long (os error 36)"
  | notUtf8 => "stream did not contain valid UTF-8"
  | other text => text

structure Outcome where
  code : Nat
  stdout : String
  stderr : String
  deriving DecidableEq, Repr

def Options.readsInput (o : Options) : Bool := o.file == "-"

def Options.chunkName (o : Options) : String := o.name.getD (if o.readsInput then "stdin" else o.file)

def tokenLine (t : Token) : String := s!"{t.line}\t{t.kind.label}\t{t.text}\n"

def View.print (view : View) (source name : String) : Except CompileError String :=
  match view with
  | .tokens => do
    let tokens ← (Chunk.tokens source).mapError .lex
    return tokens.foldl (fun out t => out ++ tokenLine t) ""
  | .tree => do return (Block.outline (← Chunk.parse source)).text ++ "\n"
  | .listing => do return (← Chunk.compile source name).listing

def decode (bytes : List UInt8) : Except ReadError String :=
  match ofUtf8? bytes with
  | some text => .ok text
  | none => .error .notUtf8

def failure (message : String) : Outcome := ⟨1, "", s!"lunar: {message}\n"⟩

def Options.run (o : Options) (contents : Except ReadError (List UInt8)) : Outcome :=
  match contents >>= decode with
  | .error e =>
    if o.readsInput then failure s!"cannot read stdin: {e.message}"
    else failure s!"cannot open {o.file}: {e.message}"
  | .ok source =>
    match o.view.print (Chunk.skipHashLine source) o.chunkName with
    | .ok out => ⟨0, out, ""⟩
    | .error e => failure s!"{o.chunkName}:{e.message}"

def usage : String :=
  "Usage: lunar [OPTIONS] <FILE>\n\n" ++
  "Arguments:\n" ++
  "  <FILE>  Lua source file, or '-' to read stdin\n\n" ++
  "Options:\n" ++
  "      --name <NAME>  chunk name used in listings and error messages\n" ++
  "      --emit <EMIT>  what to print [default: bytecode] [possible values: tokens, ast, bytecode]\n" ++
  "  -v...              raise log verbosity (repeatable)\n" ++
  "  -h, --help         Print help\n" ++
  "  -V, --version      Print version\n"

/-- The outcome of a command line, given what each of the inputs holds: the standard input for no name, else a file. -/
def run (arguments : List String) (contents : Option String → Except ReadError (List UInt8)) : Outcome :=
  match readRequest arguments with
  | .error e => ⟨2, "", s!"error: {e.message}\n\n{usage}"⟩
  | .ok .version => ⟨0, "lunar 0.1.0\n", ""⟩
  | .ok .help => ⟨0, usage, ""⟩
  | .ok (.compile o) => o.run (contents (if o.readsInput then none else some o.file))

end LuaBytecode.Cli
