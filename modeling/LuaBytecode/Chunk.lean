import LuaBytecode.Ast.Parser.Grammar
import LuaBytecode.Lowering.Tree

namespace LuaBytecode.Chunk

def tokens (source : String) : Except LexError (List Token) := (TokenStream.ofSource source).toExcept

def parse (source : String) : Except CompileError Block := Block.parse (.ofSource source)

def compile (source name : String) : Except CompileError Prototype := do
  let block ← parse source
  (block.compile name).mapError .code

/-- Takes off a first line that starts with `#`. The end of that line stays, so that later lines keep their numbers. -/
def skipHashLine (source : String) : String :=
  match source.toList with
  | '#' :: rest => String.ofList (rest.dropWhile (· != '\n'))
  | _ => source

end LuaBytecode.Chunk
