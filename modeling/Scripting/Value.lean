import Scripting.Run.Fault
import Scripting.Text.Decimal
import Scripting.Type

/-!
# Values

What expressions evaluate to. A variable of type `any` holds a value like any other.
-/

namespace Scripting

/-- Booleans, 32-bit integers and texts. -/
inductive Value
  | boolean (b : Bool)
  | int (n : Int32)
  | text (s : String)
deriving DecidableEq

namespace Value

def type : Value → Ty
  | boolean _ => .boolean
  | int _ => .int
  | text _ => .string

def display : Value → String
  | boolean b => if b then "true" else "false"
  | int n => Text.showInt32 n
  | text s => s

def asBoolean : Value → Except Fault Bool
  | boolean b => .ok b
  | _ => .error .expectedBoolean

def asInteger : Value → Except Fault Int32
  | int n => .ok n
  | _ => .error .expectedInteger

def asText : Value → Except Fault String
  | text s => .ok s
  | _ => .error .expectedString

end Value

end Scripting
