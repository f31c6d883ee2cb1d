/-!
# Faults

The ways in which running or analysing a program can go wrong although its text was accepted. Each is
a broken promise of an earlier stage, not an error of the script: programs that were checked without
diagnostics do not get there.
-/

namespace Scripting

/-- A broken promise. -/
inductive Fault
  | expectedBoolean
  | expectedInteger
  | expectedString
  | voidOperand
  | errorExpression
  | noBody (signature : String)
  | undeclaredLabel (label : String)
  | localOutsideCall
  | structuredCode
  | unknownSymbol
  | missingArgument
deriving DecidableEq, Repr

/-- The wording; faults of look-up have none. -/
def Fault.message? : Fault → Option String
  | expectedBoolean => some "expected boolean value"
  | expectedInteger => some "expected integer value"
  | expectedString => some "expected string value"
  | voidOperand => some "void expression used as a value"
  | errorExpression => some "error expression reached the evaluator"
  | noBody s => some ("function '" ++ s ++ "' has no body")
  | undeclaredLabel l => some ("jump to undeclared label '" ++ l ++ "'")
  | localOutsideCall => some "local variable assigned outside of a function"
  | structuredCode => some "unlowered statement reached the control flow graph"
  | unknownSymbol | missingArgument => none

end Scripting
