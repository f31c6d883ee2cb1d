import Scripting.Console.File

/-!
# The prompt

Each line read at the prompt is a submission on top of the lines accepted before. A line with
diagnostics is forgotten; one that stopped with an error is kept. Lines that begin with a hash mark
are commands.
-/

namespace Scripting.Console

/-- What the prompt remembers from line to line. -/
structure Prompt where
  options : Options
  symbols : SymbolTable
  accepted : Lineage
  store : Store
  showProgram : Bool

namespace Prompt

/-- The name that submissions of the prompt go by. -/
def file : String := "<repl>"

def start (options : Options) : Prompt := ⟨options, .initial, [], .empty, false⟩

/-- The prompt after a line and the streams; without a prompt the session is over. -/
structure Turn where
  next? : Option Prompt
  streams : Streams
  halt? : Option Halt

def showResult (o : Outcome Streams) : Streams :=
  match o.result with
  | .ok (some v) => o.host.writeLine v.display
  | .ok none => o.host
  | .error (.error e) => o.host.writeError ("Runtime error: " ++ e.message)
  | .error _ => o.host

/-- The stop of a run that is no error of the script. -/
def stopOf (o : Outcome Streams) : Option Halt :=
  match o.result with
  | .ok _ | .error (.error _) => none
  | .error h => some h

/-- Compiles and runs a line. -/
def submit (fuel : Nat) (p : Prompt) (line : String) (s : Streams) : Turn :=
  let (submission, symbols) := compile p.options p.symbols p.accepted line file
  let p := { p with symbols := symbols }
  let s := if p.showProgram then s.write (submission.render symbols) else s
  if submission.diagnostics.isEmpty then
    let o := submission.evaluate Streams.host symbols p.accepted .flat fuel p.store s
    let next := { p with accepted := submission :: p.accepted, store := o.globals }
    match stopOf o with
    | none => ⟨some next, showResult o, none⟩
    | some h => ⟨none, o.host, some h⟩
  else ⟨some p, s.write (reportAll line file submission.diagnostics), none⟩

/-- Carries out a line without the blanks around it. -/
def respond (fuel : Nat) (p : Prompt) (line : String) (s : Streams) : Turn :=
  if line = "" then ⟨some p, s, none⟩
  else if line = "\x23exit" then ⟨none, s, none⟩
  else if line = "#program" then
    let shown := !p.showProgram
    let text := if shown then "Showing lowered program." else "Not showing lowered program."
    ⟨some { p with showProgram := shown }, s.writeLine text, none⟩
  else if line = "#reset" then
    ⟨some { p with symbols := .initial, accepted := [], store := .empty }, s, none⟩
  else p.submit fuel line s

/-- Reads a line at the prompt and carries it out. The end of the input ends the session. -/
def turn (fuel : Nat) (p : Prompt) (s : Streams) : Turn :=
  let (line, s) := (s.write "> ").readLine
  if line.isEmpty then ⟨none, s.writeLine "\nExited scriptc repl", none⟩
  else p.respond fuel (Text.trim (.ofList line)) s

/-- Takes up to `n` turns. -/
def turns (fuel : Nat) : Nat → Prompt → Streams → Ending
  | 0, _, s => ⟨0, s, none, some .outOfFuel⟩
  | n + 1, p, s =>
    match p.turn fuel s with
    | ⟨some p, s, _⟩ => turns fuel n p s
    | ⟨none, s, none⟩ => ⟨0, s, none, none⟩
    | ⟨none, s, some h⟩ => ⟨faultExit, s, none, some h⟩

/-- A whole session at the prompt. A turn reads at least one character, so there are no more turns
than characters and the one at the end. -/
def run (fuel : Nat) (options : Options) (s : Streams) : Ending :=
  turns fuel (s.unread.length + 1) (start options) s

end Prompt

end Scripting.Console
