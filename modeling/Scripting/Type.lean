/-!
# Types

The closed set of types an expression can have. `void` is the type of a call that gives no value;
`error` is the type of an expression that was already reported.
-/

namespace Scripting

/-- The types of expressions. -/
inductive Ty
  | boolean | int | string | void | any | error
deriving DecidableEq, Repr

namespace Ty

def all : List Ty := [boolean, int, string, void, any, error]

/-- How the type is shown. -/
def name : Ty → String
  | boolean => "boolean"
  | int => "int"
  | string => "string"
  | void => "void"
  | any => "any"
  | error => "?"

/-- The type that a name stands for in declarations and conversions. -/
def ofName? : String → Option Ty
  | "boolean" | "bool" => some boolean
  | "int" => some int
  | "string" => some string
  | "any" => some any
  | _ => none

end Ty

/-- A function's name with the types of its parameters. -/
def signature (name : String) (types : List Ty) : String :=
  name ++ "(" ++ ", ".intercalate (types.map Ty.name) ++ ")"

end Scripting
