import Scripting.Run.Evaluate
import Scripting.Submission.Basic

/-!
# Running submissions

A submission runs on the variables of its session. Functions of the submissions it builds on may be
called.
-/

namespace Scripting

/-- The body of a function of a lineage, the newest submission first. -/
def Lineage.body? (l : Lineage) (f : FuncId) : Option Typed.Code :=
  l.findSome? fun s => s.bodies.lookup f

/-- What a run of a lineage's newest submission goes by. -/
def Lineage.setting {σ : Type} (host : Host σ) (symbols : SymbolTable) (l : Lineage) : Setting σ where
  symbols := symbols
  host := host
  body? f := (l.body? f).map .flat

/-- The two forms in which global code can be run. -/
inductive Form
  | flat | structured
deriving DecidableEq, Repr

/-- The global code of a submission in one of its forms. -/
def Submission.body (s : Submission) : Form → Body
  | .flat => .flat s.main
  | .structured => .structured s.globals.statements

/-- Runs a submission on top of those it builds on, unless it has diagnostics. -/
def Submission.evaluate {σ : Type} (host : Host σ) (symbols : SymbolTable) (s : Submission)
    (earlier : Lineage) (form : Form) (fuel : Nat) (globals : Store) (state : σ) : Outcome σ :=
  if s.diagnostics.isEmpty then
    Scripting.evaluate (Lineage.setting host symbols (s :: earlier)) fuel (s.body form) globals state
  else ⟨.ok none, globals, state⟩

end Scripting
