import Scripting.Submission.Basic
import Scripting.Typed.Dot

/-!
# Submissions as text

The lowered code of a submission, and the drawings of its flow graphs.
-/

namespace Scripting

/-- A function with its code. -/
def renderBody (t : SymbolTable) (f : FuncId) (code : Typed.Code) : String :=
  let symbol? := t.functionAt? f
  "fn " ++ (symbol?.map (·.signature)).getD "" ++ " -> " ++ (t.returnType f).name ++ "\n\x7b\n" ++
    Typed.Code.render t 1 code ++ "\x7d\n"

/-- The lowered program: each function, then the global code. -/
def Submission.render (t : SymbolTable) (s : Submission) : String :=
  String.join (s.bodies.map fun (f, code) => renderBody t f code) ++ Typed.Code.render t 0 s.main

/-- The flow graphs of the global code and of each function, drawn one after the other. -/
def Submission.toDot (t : SymbolTable) (s : Submission) : Except Fault String := do
  let graphs ← (s.main :: s.bodies.map (·.2)).mapM Typed.FlowGraph.ofCode
  return String.join (graphs.map (·.toDot t))

end Scripting
