import Scripting.Diagnostic
import Scripting.Text.Blank
import Scripting.Text.Lines

/-!
# Reports

A diagnostic as it is shown to the writer of a script: the message, the file, and the line it is about
with an arrow below the column.
-/

namespace Scripting.Console

/-- Fills a text up on the left. -/
def padLeft (width : Nat) (fill : Char) (text : String) : String :=
  .ofList (List.replicate (width - text.length) fill) ++ text

/-- The characters that lines are indented by. -/
def isIndent (c : Char) : Bool := c = ' ' || c = '\t'

/-- The line of a diagnostic, and the arrow below it. -/
def reportLine (l : Text.Line) : String :=
  let number := Text.showNat l.number
  let bar := padLeft (number.length + 2) ' ' "|"
  let chars := l.text.toList
  let indent := (chars.takeWhile isIndent).length
  let shown : String := .ofList (Text.dropBlanksEnd (chars.dropWhile isIndent))
  bar ++ "\n" ++ number ++ " | " ++ shown ++ "\n" ++
    bar ++ " " ++ padLeft (l.column - indent + 1) '-' "^" ++ "\n"

/-- A diagnostic of a script, shown under the name of a file. -/
def report (source file : String) (d : Diagnostic) : String :=
  "Error: " ++ d.problem.message ++ "\n-> " ++ file ++ "\n" ++
    ((Text.lineAt source d.span.start).map reportLine).getD ""

def reportAll (source file : String) (ds : List Diagnostic) : String :=
  String.join (ds.map (report source file))

end Scripting.Console
