import LuaBytecode.Ast.Basic
import LuaBytecode.Binary64.Layout
import LuaBytecode.Text.Quoted

namespace LuaBytecode

/-- Text with items inside brackets, each item on lines of its own. -/
inductive Outline where
  | atom (text : String)
  | node (opener : String) (items : List Outline) (closer : String)
  | field (name : String) (value : Outline)

namespace Outline

def margin (depth : Nat) : String := String.ofList (List.replicate (4 * depth) ' ')

mutual

def write (depth : Nat) : Outline → String → String
  | atom text, out => out ++ text
  | node opener [] closer, out => out ++ opener ++ closer
  | node opener (item :: items) closer, out =>
    let out := writeItems (depth + 1) (item :: items) (out ++ opener ++ "\n")
    out ++ margin depth ++ closer
  | field name value, out => value.write depth (out ++ name ++ ": ")

def writeItems (depth : Nat) : List Outline → String → String
  | [], out => out
  | item :: items, out => writeItems depth items (item.write depth (out ++ margin depth) ++ ",\n")

end

def text (o : Outline) : String := o.write 0 ""

def tuple (name : String) (items : List Outline) : Outline := node (name ++ "(") items ")"

def record (name : String) (fields : List (String × Outline)) : Outline :=
  node (name ++ " \x7b") (fields.map fun (name, value) => field name value) "\x7d"

def list (items : List Outline) : Outline := node "[" items "]"

def block (stats : List Outline) : Outline := record "Block" [("stats", list stats)]

def ofBool (value : Bool) : Outline := atom (if value then "true" else "false")

def ofString (value : String) : Outline := atom (quoted value)

def ofStrings (values : List String) : Outline := list (values.map ofString)

def ofOption : Option Outline → Outline
  | none => atom "None"
  | some value => tuple "Some" [value]

end Outline

/-- Outlines write floats with an exponent outside of 1e-4 to 1e16, and with a point otherwise. -/
def FloatLayout.outline : FloatLayout := ⟨false, some (-4, 15)⟩

def UnOp.label : UnOp → String
  | neg => "Neg"
  | bnot => "BNot"
  | not => "Not"
  | len => "Len"

def BinOp.label : BinOp → String
  | add => "Add"
  | sub => "Sub"
  | mul => "Mul"
  | div => "Div"
  | idiv => "IDiv"
  | mod => "Mod"
  | pow => "Pow"
  | concat => "Concat"
  | shl => "Shl"
  | shr => "Shr"
  | band => "BAnd"
  | bor => "BOr"
  | bxor => "BXor"
  | eq => "Eq"
  | notEq => "NotEq"
  | lt => "Lt"
  | ltEq => "LtEq"
  | gt => "Gt"
  | gtEq => "GtEq"
  | and => "And"
  | or => "Or"

open Outline

mutual

def Exp.outline : Exp → Outline
  | .nil => atom "Nil"
  | .bool value => tuple "Bool" [ofBool value]
  | .integer value => tuple "Integer" [atom (toString value.toInt)]
  | .float value => tuple "Float" [atom (FloatLayout.outline.write value)]
  | .string value => tuple "String" [ofString value]
  | .vararg => atom "Vararg"
  | .name name => tuple "Name" [ofString name]
  | .index object key => record "Index" [("obj", object.outline), ("key", key.outline)]
  | .call callee args isMethod =>
    tuple "Call" [record "FuncCall"
      [("callee", callee.outline), ("args", list (Exp.outlines args)), ("method", ofBool isMethod)]]
  | .function params isVararg body =>
    tuple "Function" [record "FuncDef"
      [("params", ofStrings params), ("is_vararg", ofBool isVararg), ("body", block (Stat.outlines body))]]
  | .table keys values =>
    tuple "Table" [record "TableConstructor"
      [("keys", list (Exp.keyOutlines keys)), ("values", list (Exp.outlines values))]]
  | .paren inner => tuple "Paren" [inner.outline]
  | .unop op operand => record "Unop" [("op", atom op.label), ("exp", operand.outline)]
  | .binop op lhs rhs => record "Binop" [("op", atom op.label), ("lhs", lhs.outline), ("rhs", rhs.outline)]

def Exp.outlines : List Exp → List Outline
  | [] => []
  | e :: rest => e.outline :: Exp.outlines rest

def Exp.outline? : Option Exp → Outline
  | none => ofOption none
  | some e => ofOption (some e.outline)

def Exp.keyOutlines : List (Option Exp) → List Outline
  | [] => []
  | key :: rest => Exp.outline? key :: Exp.keyOutlines rest

def StatKind.outline : StatKind → Outline
  | .empty => atom "Empty"
  | .breakLoop => atom "Break"
  | .label name => tuple "Label" [ofString name]
  | .goto name => tuple "Goto" [ofString name]
  | .doBlock body => tuple "Do" [block (Stat.outlines body)]
  | .whileDo guard body => record "While" [("cond", guard.outline), ("body", block (Stat.outlines body))]
  | .repeatUntil body guard => record "Repeat" [("body", block (Stat.outlines body)), ("cond", guard.outline)]
  | .ifThen guards blocks =>
    record "If" [("conds", list (Exp.outlines guards)), ("blocks", list (Block.outlines blocks))]
  | .numericFor var init limit step body =>
    record "NumericFor"
      [("var", ofString var), ("init", init.outline), ("limit", limit.outline), ("step", Exp.outline? step),
        ("body", block (Stat.outlines body))]
  | .genericFor names exps body =>
    record "GenericFor"
      [("names", ofStrings names), ("exps", list (Exp.outlines exps)), ("body", block (Stat.outlines body))]
  | .localDecl names exps =>
    record "LocalDecl" [("names", ofStrings names), ("exps", list (Exp.outlines exps))]
  | .localFunction name params isVararg body =>
    record "LocalFunction"
      [("name", ofString name),
        ("func", record "FuncDef"
          [("params", ofStrings params), ("is_vararg", ofBool isVararg), ("body", block (Stat.outlines body))])]
  | .assign targets values =>
    record "Assign" [("targets", list (Exp.outlines targets)), ("values", list (Exp.outlines values))]
  | .call callee args isMethod =>
    tuple "Call" [record "FuncCall"
      [("callee", callee.outline), ("args", list (Exp.outlines args)), ("method", ofBool isMethod)]]
  | .ret exps => tuple "Return" [list (Exp.outlines exps)]

def Stat.outline : Stat → Outline
  | .mk line kind => record "Stat" [("kind", kind.outline), ("line", atom (Nat.repr line))]

def Stat.outlines : List Stat → List Outline
  | [] => []
  | s :: rest => s.outline :: Stat.outlines rest

def Block.outlines : List (List Stat) → List Outline
  | [] => []
  | body :: rest => block (Stat.outlines body) :: Block.outlines rest

end

def Block.outline (body : Block) : Outline := block (Stat.outlines body)

end LuaBytecode
