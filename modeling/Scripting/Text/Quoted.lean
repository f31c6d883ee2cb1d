import Scripting.Text.Printable

/-!
# Quoted text

A text between double quotes. Quote, backslash, newline, tab, carriage return and NUL are written
with a backslash, other characters that are not printable by their code point, the rest as they are.
-/

namespace Scripting.Text

/-- A character by its code point: `\u` and the hexadecimal number in braces. -/
def escapeCode (c : Char) : List Char :=
  '\\' :: 'u' :: '\x7b' :: (Nat.toDigits 16 c.toNat ++ ['\x7d'])

/-- How one character is written between quotes. -/
def escapeChar (c : Char) : List Char :=
  if c = '"' then ['\\', '"']
  else if c = '\\' then ['\\', '\\']
  else if c = '\n' then ['\\', 'n']
  else if c = '\t' then ['\\', 't']
  else if c = '\r' then ['\\', 'r']
  else if c = '\x00' then ['\\', '0']
  else if isPrintable c then [c]
  else escapeCode c

/-- The text in double quotes. -/
def quote (s : String) : String := .ofList ('"' :: (s.toList.flatMap escapeChar ++ ['"']))

end Scripting.Text
