/-!
# Decimal numerals

Writing an integer in decimal, and reading the numerals a script may convert: an optional sign, then
one or more digits. A 32-bit reader refuses what does not fit.
-/

namespace Scripting.Text

/-- The decimal digits of a number, most significant first. -/
def natDigits (n : Nat) : List Char := Nat.toDigits 10 n

/-- Decimal text with a minus sign for negative numbers. -/
def intDigits : Int → List Char
  | .ofNat n => natDigits n
  | .negSucc n => '-' :: natDigits (n + 1)

def showInt32 (n : Int32) : String := .ofList (intDigits n.toInt)

def showNat (n : Nat) : String := .ofList (natDigits n)

/-- The number that a list of decimal digits denotes. -/
def digitsValue (ds : List Char) : Nat :=
  ds.foldl (fun n d => 10 * n + (d.toNat - '0'.toNat)) 0

/-- Reads one or more digits, and nothing else. -/
def readNat? (ds : List Char) : Option Nat :=
  if ds.isEmpty || !ds.all Char.isDigit then none else some (digitsValue ds)

/-- Reads an optional sign and one or more digits. -/
def readInt? : List Char → Option Int
  | '-' :: ds => (readNat? ds).map fun n : Nat => -(n : Int)
  | '+' :: ds => (readNat? ds).map Int.ofNat
  | ds => (readNat? ds).map Int.ofNat

/-- Reads a numeral whose value fits in 32 bits. -/
def readInt32? (cs : List Char) : Option Int32 := do
  let n ← readInt? cs
  if -2147483648 ≤ n ∧ n < 2147483648 then some (.ofInt n) else none

end Scripting.Text
