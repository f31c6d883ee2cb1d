import Scripting.Console.Report
import Scripting.Console.Streams
import Scripting.Submission.Check
import Scripting.Submission.Render
import Scripting.Submission.Run

/-!
# Running a file

One script is read from a file and run on a console. Diagnostics are written to the output with the
lines they are about; the value of the script is not shown.
-/

namespace Scripting.Console

/-- What to do with a file. -/
structure FileCommand where
  path : String
  showProgram : Bool
  /-- where to draw the flow graphs -/
  graph? : Option String
  options : Options
deriving DecidableEq, Repr

/-- Why a file could not be read or written. -/
inductive FileError
  | missing | denied | directory | nameTooLong | notText
  | other (text : String)
deriving DecidableEq, Repr

def FileError.message : FileError → String
  | missing => "No such file or directory (os error 2)"
  | denied => "Permission denied (os error 13)"
  | directory => "Is a directory (os error 21)"
  | nameTooLong => "File name too long (os error 36)"
  | notText => "stream did not contain valid UTF-8"
  | other text => text

/-- How a failure that ends the program is shown. -/
def failure (message : String) (cause? : Option String) : String :=
  "Error: " ++ message ++ ((cause?.map fun c => "\n\nCaused by:\n    " ++ c).getD "")

/-- The parts of a path between the separators. -/
def pathParts : List Char → List (List Char)
  | [] => [[]]
  | c :: cs =>
    if c = '/' then [] :: pathParts cs
    else match pathParts cs with
      | [] => [[c]]
      | p :: ps => (c :: p) :: ps

/-- The last part of a path; the path itself if that is no name. -/
def fileName (path : String) : String :=
  match ((pathParts path.toList).filter fun p => p ≠ [] && p ≠ ['.']).getLast? with
  | none | some ['.', '.'] => path
  | some name => .ofList name

/-- How a command ended: the exit code, the streams, what was drawn, and a stop that is no error of
the script. -/
structure Ending where
  exit : Nat
  streams : Streams
  drawing? : Option String
  halt? : Option Halt

def faultExit : Nat := 101

def endRun (drawing? : Option String) (o : Outcome Streams) : Ending :=
  match o.result with
  | .ok _ => ⟨0, o.host, drawing?, none⟩
  | .error (.error e) => ⟨1, o.host.writeError (failure e.message none), drawing?, none⟩
  | .error h => ⟨faultExit, o.host, drawing?, some h⟩

/-- Ends because the file could not be read. -/
def unreadable (path : String) (e : FileError) (s : Streams) : Ending :=
  ⟨1, s.writeError (failure ("Failed to read " ++ path) (some e.message)), none, none⟩

/-- Ends because the flow graphs could not be drawn. -/
def undrawable (target : String) (e : FileError) (s : Streams) : Ending :=
  ⟨1, s.writeError (failure ("Failed to write " ++ target) (some e.message)), none, none⟩

/-- A script from a file before its run: compiled, shown and drawn as asked for. -/
structure Prepared where
  submission : Submission
  symbols : SymbolTable
  streams : Streams
  drawing? : Option String

/-- Compiles a script that was read from a file. -/
def prepareFile (command : FileCommand) (source : String) (s : Streams) : Prepared :=
  let (submission, symbols) := compile command.options .initial [] source (fileName command.path)
  let s := if command.showProgram then s.write (submission.render symbols) else s
  ⟨submission, symbols, s, command.graph?.bind fun _ => (submission.toDot symbols).toOption⟩

/-- Runs a script after its preparation, or reports what is wrong with it. -/
def runPrepared (fuel : Nat) (command : FileCommand) (source : String) (p : Prepared)
    (s : Streams) : Ending :=
  let diagnostics := p.submission.diagnostics
  if diagnostics.isEmpty then
    endRun p.drawing? (p.submission.evaluate Streams.host p.symbols [] .flat fuel .empty s)
  else
    let count := Text.showNat diagnostics.length ++ " error(s) in " ++ fileName command.path
    let s := s.write (reportAll source command.path diagnostics)
    ⟨1, s.writeError (failure count none), p.drawing?, none⟩

/-- Runs a script that was read from a file. -/
def runFile (fuel : Nat) (command : FileCommand) (source : String) (s : Streams) : Ending :=
  let p := prepareFile command source s
  runPrepared fuel command source p p.streams

end Scripting.Console
