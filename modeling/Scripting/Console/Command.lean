import Scripting.Console.Prompt

/-!
# The command line

What the arguments of the program ask for: to run a file, or to open the prompt.
-/

namespace Scripting.Console

inductive Command
  | file (command : FileCommand)
  | prompt (options : Options)
deriving DecidableEq, Repr

namespace Command

/-- The options with or without implicit declarations. -/
def optionsOf (strict : Bool) : Options := { Options.standard with implicitDeclarations := !strict }

/-- Reads the flags and the path of the command that runs a file. -/
def fileOfArgs? (path? : Option String) (c : FileCommand) : List String → Option Command
  | [] => path?.map fun path => file { c with path := path }
  | "--show-program" :: rest => fileOfArgs? path? { c with showProgram := true } rest
  | "--strict" :: rest => fileOfArgs? path? { c with options := optionsOf true } rest
  | "--graph" :: target :: rest => fileOfArgs? path? { c with graph? := some target } rest
  | argument :: rest =>
    if argument.startsWith "--" || path?.isSome then none
    else fileOfArgs? (some argument) c rest

/-- Reads the arguments of the program. -/
def ofArgs? : List String → Option Command
  | "file" :: rest => fileOfArgs? none ⟨"", false, none, optionsOf false⟩ rest
  | ["repl"] => some (prompt (optionsOf false))
  | ["repl", "--strict"] => some (prompt (optionsOf true))
  | _ => none

def usage : String :=
  "usage: scriptc file PATH [--show-program] [--graph PATH] [--strict]\n" ++
    "       scriptc repl [--strict]"

end Command

end Scripting.Console
