import Scripting.Run.Halt
import Scripting.Text.Blank
import Scripting.Typed.Operator
import Scripting.Value

/-!
# Operations on values

What the operators and conversions compute. Arithmetic is on 32 bits and wraps; division rounds
towards zero.
-/

namespace Scripting

namespace Value

/-- The value as a boolean, or the fault that it is none. -/
def truth (v : Value) : Except Halt Bool := v.asBoolean.mapError .fault

/-- The value as an integer, or the fault that it is none. -/
def number (v : Value) : Except Halt Int32 := v.asInteger.mapError .fault

def arithmetic (f : Int32 → Int32 → Int32) (a b : Value) : Except Halt Value := do
  let m ← a.number
  let n ← b.number
  return int (f m n)

def comparison (f : Int32 → Int32 → Bool) (a b : Value) : Except Halt Value := do
  let m ← a.number
  let n ← b.number
  return boolean (f m n)

/-- An operation on two booleans or two integers. -/
def bitwise (onBooleans : Bool → Bool → Bool) (onInts : Int32 → Int32 → Int32) :
    Value → Value → Except Halt Value
  | boolean a, boolean b => return boolean (onBooleans a b)
  | a, b => arithmetic onInts a b

/-- The sum of two integers, or one text after the other. -/
def add : Value → Value → Except Halt Value
  | text s, text t => return text (s ++ t)
  | a, b => arithmetic (· + ·) a b

/-- An operation that has no result if the second integer is zero. -/
def division (f : Int32 → Int32 → Int32) (a b : Value) : Except Halt Value := do
  let n ← b.number
  if n = 0 then throw (.error .divisionByZero)
  let m ← a.number
  return int (f m n)

/-- A conjunction; the second value is looked at only if the first is true. -/
def conjunction (a b : Value) : Except Halt Value := do
  if ← a.truth then return boolean (← b.truth) else return boolean false

/-- A disjunction; the second value is looked at only if the first is false. -/
def disjunction (a b : Value) : Except Halt Value := do
  if ← a.truth then return boolean true else return boolean (← b.truth)

/-- Reads a boolean, in capitals or not. -/
def readBoolean? (cs : List Char) : Option Bool :=
  let word := cs.map Char.toLower
  if word = "true".toList then some true
  else if word = "false".toList then some false
  else none

/-- The value converted to a type. Texts are read without the blanks around them. -/
def convert (v : Value) (type : Ty) : Except Halt Value :=
  match type, v with
  | .any, v => return v
  | .string, v => return text v.display
  | .boolean, boolean b => return boolean b
  | .int, int n => return int n
  | .boolean, text s => refuseNone s ((readBoolean? (Text.trimBlanks s.toList)).map boolean)
  | .int, text s => refuseNone s ((Text.readInt32? (Text.trimBlanks s.toList)).map int)
  | _, v => refuseNone v.display none
where
  refuseNone (shown : String) : Option Value → Except Halt Value
    | some v => .ok v
    | none => .error (.error (.invalidConversion shown type))

end Value

/-- What a unary operator computes. -/
def UnaryKind.apply (kind : UnaryKind) (v : Value) : Except Halt Value :=
  match kind with
  | identity => return .int (← v.number)
  | negation => return .int (-(← v.number))
  | logicalNegation => return .boolean (!(← v.truth))
  | onesComplement => return .int (~~~(← v.number))

/-- What a binary operator computes. -/
def BinaryKind.apply (kind : BinaryKind) (a b : Value) : Except Halt Value :=
  match kind with
  | addition => a.add b
  | subtraction => Value.arithmetic (· - ·) a b
  | multiplication => Value.arithmetic (· * ·) a b
  | division => Value.division (· / ·) a b
  | modulo => Value.division (· % ·) a b
  | bitwiseAnd => Value.bitwise (· && ·) (· &&& ·) a b
  | bitwiseOr => Value.bitwise (· || ·) (· ||| ·) a b
  | bitwiseXor => Value.bitwise (· ^^ ·) (· ^^^ ·) a b
  | logicalAnd => a.conjunction b
  | logicalOr => a.disjunction b
  | equals => return .boolean (a = b)
  | notEquals => return .boolean (a ≠ b)
  | less => Value.comparison (· < ·) a b
  | lessOrEquals => Value.comparison (· ≤ ·) a b
  | greater => Value.comparison (· > ·) a b
  | greaterOrEquals => Value.comparison (· ≥ ·) a b

/-- The result of a logical operator that its first operand decides. -/
def BinaryKind.decided? (kind : BinaryKind) (a : Value) : Except Halt (Option Value) :=
  match kind with
  | logicalAnd => return if ← a.truth then none else some (.boolean false)
  | logicalOr => return if ← a.truth then some (.boolean true) else none
  | _ => return none

end Scripting
