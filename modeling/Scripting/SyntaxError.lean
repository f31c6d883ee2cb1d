import Scripting.Diagnostic
import Scripting.Text.Quoted

/-!
# Syntax errors

What stops the reading of a script. Reading ends at the first such error, which is then reported as
one diagnostic.
-/

namespace Scripting

namespace SyntaxError

/-- What was found in place of a script. -/
inductive Cause
  | unrecognised (token : String)
  | unterminatedText
  | unexpected (token : String)
  | unexpectedBecause (token message : String)
  | badNumber (token : String)
deriving DecidableEq, Repr

/-- The name of the kind of error. -/
def Cause.name : Cause → String
  | unrecognised _ => "UnrecognisedToken"
  | unterminatedText => "UnterminatedString"
  | unexpected _ => "UnexpectedToken"
  | unexpectedBecause _ _ => "UnexpectedTokenDetailed"
  | badNumber _ => "NumberParseError"

/-- The wording without the advice. -/
def Cause.summary : Cause → String
  | unrecognised t => "unrecognised token: " ++ Text.quote t
  | unterminatedText => "unterminated string literal"
  | unexpected t => "unexpected token: " ++ Text.quote t
  | unexpectedBecause t m => "unexpected token (" ++ m ++ "): " ++ Text.quote t
  | badNumber t => "error parsing number: " ++ Text.quote t

/-- Advice to the writer of the script. -/
def Cause.tip? : Cause → Option String
  | unrecognised _ => none
  | unterminatedText => some "String literal is missing its closing quote"
  | unexpected t => some ("Unexpected token: `" ++ t ++ "`, did you miss a semicolon?")
  | unexpectedBecause t m => some ("Unexpected token: `" ++ t ++ "`, " ++ m)
  | badNumber t => some ("Invalid number: `" ++ t ++ "`, is it above the integer limit?")

/-- The wording, followed by the advice in parentheses. -/
def Cause.message (c : Cause) : String :=
  match c.tip? with
  | none => c.summary
  | some tip => c.summary ++ " (" ++ tip ++ ")"

end SyntaxError

/-- An error and the position it was found at. -/
structure SyntaxError where
  cause : SyntaxError.Cause
  position : Position
deriving DecidableEq, Repr

def SyntaxError.toDiagnostic (e : SyntaxError) : Diagnostic :=
  ⟨.ofPosition e.position, .malformed e.cause.message⟩

end Scripting
