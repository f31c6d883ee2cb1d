import Scripting.Run.Fault
import Scripting.Symbol.Table

/-!
# Ways to stop

A run that does not finish stops for one of three reasons: an error of the script, a fault of whoever
built the program, or because the number of steps it was given is used up.
-/

namespace Scripting

/-- Errors of a script that only show when it runs. -/
inductive RunError
  | divisionByZero
  | invalidConversion (value : String) (type : Ty)
  | unassignedVariable (x : VariableSymbol)
deriving DecidableEq, Repr

def RunError.message : RunError → String
  | divisionByZero => "Division by zero."
  | invalidConversion value type => "Cannot convert '" ++ value ++ "' to type '" ++ type.name ++ "'."
  | unassignedVariable x => "Variable '" ++ x.name ++ "' is read before it is assigned."

/-- Why a run stopped early. -/
inductive Halt
  | error (e : RunError)
  | fault (f : Fault)
  | outOfFuel
deriving DecidableEq, Repr

end Scripting
