import Scripting.Span
import Scripting.Text.Bytes

/-!
# Places in a script

A place is how far a script was read. It counts bytes without a bound; only the positions and spans that it
gives are recorded in words (`Place.position`, `Place.spanOf`). A reader has the text of the script as well. It
may stand inside a character or beyond the end; there is then no text to read at it.
-/

namespace Scripting.Token

/-- A number of bytes from the beginning of a named script. -/
structure Place where
  file : String
  offset : Nat

namespace Place

def advance (p : Place) (n : Nat) : Place := { p with offset := p.offset + n }

def position (p : Place) : Position := Position.recorded ⟨p.file, p.offset⟩

/-- The span of the next `n` bytes. -/
def spanOf (p : Place) (n : Nat) : Span := Span.recorded ⟨p.file, p.offset, p.offset + n⟩

end Place

/-- A place in a script, and the script. -/
structure Reader extends Place where
  text : List Char

namespace Reader

def ofSource (source file : String) : Reader := ⟨⟨file, 0⟩, source.toList⟩

def advance (r : Reader) (n : Nat) : Reader := { r with toPlace := r.toPlace.advance n }

/-- What is left of the script; `none` inside a character and beyond the end. -/
def rest? (r : Reader) : Option (List Char) := Text.dropBytes r.offset r.text

/-- The next character, NUL at the end of the script. -/
def peek? (r : Reader) : Option Char := r.rest?.map fun cs => cs.headD '\x00'

/-- Holds at the end of the script and beyond. -/
def atEnd (r : Reader) : Bool := Text.byteLength r.text ≤ r.offset

end Reader

end Scripting.Token
