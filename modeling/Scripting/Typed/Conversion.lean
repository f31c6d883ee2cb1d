import Scripting.Type

/-!
# Conversions between types

How a value of one type may be used where another type is expected.
-/

namespace Scripting

/-- Kinds of conversion: impossible, not needed, allowed anywhere, allowed where it is written. -/
inductive Conversion
  | none | identity | implicit | explicit
deriving DecidableEq, Repr

namespace Conversion

/-- Everything with a value converts to `any` silently. Back from `any`, and between texts and the
other two kinds of value, a conversion has to be written. -/
def classify (source target : Ty) : Conversion :=
  if source = target then identity
  else if source ≠ .void ∧ target = .any then implicit
  else if source = .any ∧ target ≠ .void then explicit
  else match source, target with
    | .boolean, .string | .int, .string | .string, .boolean | .string, .int => explicit
    | _, _ => none

/-- Holds unless the types are incompatible. -/
def exists? (c : Conversion) : Bool := c ≠ none

/-- Holds of the conversions that need not be written. -/
def isImplicit (c : Conversion) : Bool := c = identity || c = implicit

end Conversion

end Scripting
