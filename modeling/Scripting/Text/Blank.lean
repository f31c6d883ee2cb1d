/-!
# White space

The 25 characters that carry the Unicode property White_Space, and trimming by them. Scripts, texts
turned into numbers and the lines of a prompt all use this one class.
-/

namespace Scripting.Text

/-- Holds of the characters with the Unicode property White_Space. -/
def isBlank (c : Char) : Bool :=
  let n := c.toNat
  (0x09 ≤ n && n ≤ 0x0D) || n == 0x20 || n == 0x85 || n == 0xA0 || n == 0x1680 ||
    (0x2000 ≤ n && n ≤ 0x200A) || n == 0x2028 || n == 0x2029 || n == 0x202F || n == 0x205F ||
    n == 0x3000

/-- The text without the blanks at its end. -/
def dropBlanksEnd (cs : List Char) : List Char := (cs.reverse.dropWhile isBlank).reverse

/-- The text without the blanks at either end. -/
def trimBlanks (cs : List Char) : List Char := dropBlanksEnd (cs.dropWhile isBlank)

/-- `dropBlanksEnd` on strings. -/
def trimEnd (s : String) : String := .ofList (dropBlanksEnd s.toList)

/-- `trimBlanks` on strings. -/
def trim (s : String) : String := .ofList (trimBlanks s.toList)

end Scripting.Text
