import LuaBytecode.Binary64.Layout
import LuaBytecode.Text.Quoted

namespace LuaBytecode

/-- A value that instructions refer to. Floats are told apart by their bits. -/
inductive Constant where
  | nil
  | bool (value : Bool)
  | integer (value : Int64)
  | float (value : Binary64)
  | string (value : String)
  deriving DecidableEq, Hashable, Repr

def FloatLayout.listing : FloatLayout := ⟨true, none⟩

def Constant.text : Constant → String
  | nil => "nil"
  | bool value => if value then "true" else "false"
  | integer value => toString value.toInt
  | float value => FloatLayout.listing.write value
  | string value => quoted value

end LuaBytecode
