import Scripting.Console.Random
import Scripting.Run.Machine
import Scripting.Text.Lines

/-!
# Streams

The streams of a console as values: the text that can still be read, and what was written to the
output and to the error stream. Scripts that run on a console print lines to its output and read lines
of its input.
-/

namespace Scripting.Console

/-- The streams of a console, with the seed of its random numbers. -/
structure Streams where
  /-- the input that was not read yet -/
  unread : List Char
  output : String
  errors : String
  seed : UInt64
  /-- the output and the errors at the time a line was first asked for and none was left -/
  shortfall? : Option (String × String)

namespace Streams

/-- The streams before anything is read or written. -/
def ofInput (input : String) (seed : UInt64) : Streams := ⟨input.toList, "", "", seed, none⟩

def write (s : Streams) (text : String) : Streams := { s with output := s.output ++ text }

def writeLine (s : Streams) (text : String) : Streams := s.write (text ++ "\n")

/-- Writes a line to the error stream. -/
def writeError (s : Streams) (text : String) : Streams :=
  { s with errors := s.errors ++ text ++ "\n" }

/-- Reads a line with the newline that ends it; an empty one at the end of the input. -/
def readLine (s : Streams) : List Char × Streams :=
  match Text.splitLines s.unread with
  | [] => ([], { s with shortfall? := s.shortfall?.or (some (s.output, s.errors)) })
  | l :: ls => (l, { s with unread := ls.flatten })

/-- A line without the characters that end it. -/
def lineContent (line : List Char) : List Char :=
  (line.reverse.dropWhile fun c => c = '\r' || c = '\n').reverse

/-- Prints lines, reads lines, and draws from the seed. -/
def host : Host Streams where
  print text s := s.writeLine text
  input s :=
    let (line, s) := s.readLine
    (.ofList (lineContent line), s)
  random max s :=
    let (n, seed) := draw max s.seed
    (n, { s with seed := seed })

end Streams

end Scripting.Console
