import LuaBytecode.Main
import LuaBytecode.Proofs.Frame.Constants
import LuaBytecode.Proofs.Frame.Restoring
import LuaBytecode.Proofs.Grammar.Nodes
import LuaBytecode.Proofs.Grammar.Precedence
import LuaBytecode.Proofs.Grammar.Progress
import LuaBytecode.Proofs.Grammar.Size
import LuaBytecode.Proofs.Instruction.FloatByte
import LuaBytecode.Proofs.Layout.Functions
import LuaBytecode.Proofs.Legality.Program
import LuaBytecode.Proofs.Monitor.Assignment
import LuaBytecode.Proofs.Numeral.Conversion
import LuaBytecode.Proofs.Printing.RoundTrip
import LuaBytecode.Proofs.Prototype.ControlFlow
import LuaBytecode.Proofs.Prototype.Iterator
import LuaBytecode.Proofs.Prototype.Listing
import LuaBytecode.Proofs.Scoping.Lexical
import LuaBytecode.Proofs.Scoping.NameOrder
import LuaBytecode.Proofs.Statement.Program
import LuaBytecode.Proofs.Tables.Execution
import LuaBytecode.Proofs.Token.Lookahead
import LuaBytecode.Proofs.Token.Slices
import LuaBytecode.Proofs.Token.Spelling
import LuaBytecode.Proofs.Values.Adjusted
