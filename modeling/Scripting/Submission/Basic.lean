import Scripting.Diagnostic
import Scripting.Symbol.Scope
import Scripting.Typed.Tree

/-!
# Submissions

A session takes scripts one after the other. Each is checked on top of the ones it builds on: their
names are in scope, and its own may shadow them. All submissions of a session share one table of
symbols, so that a handle means the same in each of them. A submission with diagnostics is kept but
never run.
-/

namespace Scripting

/-- What the global code of a submission declares and does. -/
structure Globals where
  funcs : List FuncId
  vars : List VarId
  statements : List Typed.Stmt
  diagnostics : List Diagnostic

/-- A script that was checked and lowered. -/
structure Submission where
  syntaxErrors : List Diagnostic
  globals : Globals
  /-- the code of the functions it declares -/
  bodies : List (FuncId × Typed.Code)
  bodyDiagnostics : List Diagnostic
  /-- the code of the statements outside functions -/
  main : Typed.Code

/-- A submission and those it builds on, the newest first. -/
abbrev Lineage := List Submission

namespace Submission

/-- Everything wrong with a submission: its syntax, its global code, then its functions in turn. -/
def diagnostics (s : Submission) : List Diagnostic :=
  s.syntaxErrors ++ s.globals.diagnostics ++ s.bodyDiagnostics

end Submission

/-! ## Scopes across submissions -/

/-- Declares what a submission declares, in a layer of its own. -/
def Globals.extend (t : SymbolTable) (g : Globals) (s : Scope) : Scope :=
  g.vars.foldl (fun s x => s.addVariable t x)
    (g.funcs.foldl (fun s f => s.addFunction t f) s.push)

/-- The names in force after a lineage: the host's functions outermost, then each submission. -/
def Lineage.scope (t : SymbolTable) (l : Lineage) : Scope :=
  l.foldr (fun s scope => s.globals.extend t scope) (Scope.root t)

end Scripting
