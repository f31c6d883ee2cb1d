import Scripting.Text.Bytes

/-!
# Lines

The line of a text that holds a byte offset. A line keeps its newline; the offset just behind the
last character belongs to the last line.
-/

namespace Scripting.Text

/-- The lines of a text, each with the newline that ends it. -/
def splitLines : List Char → List (List Char)
  | [] => []
  | c :: cs =>
    if c = '\n' then [c] :: splitLines cs
    else match splitLines cs with
      | [] => [[c]]
      | l :: ls => (c :: l) :: ls

/-- A place in a text: the line's number from 1, its characters, and the byte offset within it. -/
structure Line where
  number : Nat
  text : String
  column : Nat
deriving DecidableEq, Repr

/-- Walks the lines from line `number` on to the one that holds `offset`. -/
def findLine (number offset : Nat) : List (List Char) → Option Line
  | [] => none
  | [l] => if offset ≤ byteLength l then some ⟨number, .ofList l, offset⟩ else none
  | l :: ls =>
    if offset < byteLength l then some ⟨number, .ofList l, offset⟩
    else findLine (number + 1) (offset - byteLength l) ls

/-- The line that holds byte `offset`; `none` beyond the end of the text. -/
def lineAt (text : String) (offset : Nat) : Option Line :=
  match splitLines text.toList with
  | [] => if offset = 0 then some ⟨1, "", 0⟩ else none
  | ls => findLine 1 offset ls

end Scripting.Text
