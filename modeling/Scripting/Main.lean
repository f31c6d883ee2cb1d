import Scripting.Console.Command

/-!
# The program

Connects the console to the streams of the process. Scripts run on streams that are values, so a
script that asks for more input than was read so far is run again from the last prompt with one more
line, and one that used up its fuel is run again with more; what it had written before is not written
twice.
-/

namespace Scripting.Console

/-- How much of the output and of the errors of the current turn was written. -/
structure Written where
  output : Nat
  errors : Nat

/-- Writes what was not written before. -/
def flush (w : Written) (output errors : String) : IO Written := do
  let out ← IO.getStdout
  out.putStr (.ofList (output.toList.drop w.output))
  out.flush
  let err ← IO.getStderr
  err.putStr (.ofList (errors.toList.drop w.errors))
  err.flush
  return ⟨output.length, errors.length⟩

/-- The steps given to a script at first. -/
def firstFuel : Nat := 100000

/-- Runs `run` on the streams until it has all the input and fuel it needs. -/
partial def complete {α : Type} (streams : α → Streams) (halt? : α → Option Halt)
    (run : Nat → Streams → α) (fuel : Nat) (closed : Bool) (w : Written) (s : Streams) :
    IO (α × Bool) := do
  let result := run fuel s
  match (streams result).shortfall?, closed with
  | some (output, errors), false =>
    let w ← flush w output errors
    let line ← (← IO.getStdin).getLine
    if line.isEmpty then complete streams halt? run fuel true w s
    else complete streams halt? run fuel closed w { s with unread := s.unread ++ line.toList }
  | _, _ =>
    let w ← flush w (streams result).output (streams result).errors
    if halt? result = some .outOfFuel then complete streams halt? run (2 * fuel) closed w s
    else return (result, closed)

def tellFault : Option Halt → IO Unit
  | some (.fault f) => IO.eprintln ("fault: " ++ f.message?.getD "no such symbol")
  | _ => return

/-- Why a file operation failed. Codes may arrive with a minus sign, as words of 32 bits. -/
def FileError.ofFailure : IO.Error → FileError
  | .noFileOrDirectory .. => .missing
  | .permissionDenied .. => .denied
  | .inappropriateType .. => .directory
  | e@(.invalidArgument _ code _) =>
    if code = 36 || code + 36 = 0 then .nameTooLong else .other (toString e)
  | e => .other (toString e)

def readText (path : String) : IO (Except FileError String) := do
  try
    match String.fromUTF8? (← IO.FS.readBinFile path) with
    | some text => return .ok text
    | none => return .error .notText
  catch e => return .error (.ofFailure e)

def fileMain (c : FileCommand) (seed : UInt64) : IO UInt32 := do
  let s := Streams.ofInput "" seed
  match ← readText c.path with
  | .error e =>
    let ending := unreadable c.path e s
    let _ ← flush ⟨0, 0⟩ ending.streams.output ending.streams.errors
    return ending.exit.toUInt32
  | .ok source =>
    let p := prepareFile c source s
    let w ← flush ⟨0, 0⟩ p.streams.output p.streams.errors
    if let (some target, some drawing) := (c.graph?, p.drawing?) then
      try IO.FS.writeFile target drawing
      catch e =>
        let ending := undrawable target (.ofFailure e) p.streams
        let _ ← flush w ending.streams.output ending.streams.errors
        return ending.exit.toUInt32
    let (ending, _) ←
      complete Ending.streams Ending.halt? (runPrepared · c source p) firstFuel false w p.streams
    tellFault ending.halt?
    return ending.exit.toUInt32

partial def promptMain (closed : Bool) (p : Prompt) (s : Streams) : IO UInt32 := do
  let (turn, closed) ←
    complete Prompt.Turn.streams Prompt.Turn.halt? (p.turn ·) firstFuel closed ⟨0, 0⟩ s
  tellFault turn.halt?
  match turn.next? with
  | some p =>
    promptMain closed p { turn.streams with output := "", errors := "", shortfall? := none }
  | none => return if turn.halt?.isSome then faultExit.toUInt32 else 0

end Scripting.Console

open Scripting.Console in
/-- Runs a file, or opens the prompt. -/
def main (args : List String) : IO UInt32 := do
  let seed := (← IO.monoNanosNow).toUInt64
  match Command.ofArgs? args with
  | some (.file c) => fileMain c seed
  | some (.prompt options) => promptMain false (.start options) (.ofInput "" seed)
  | none =>
    IO.eprintln Command.usage
    return 2
