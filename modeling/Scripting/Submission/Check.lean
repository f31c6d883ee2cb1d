import Scripting.Check.Stmt
import Scripting.Submission.Basic
import Scripting.Surface.Parse
import Scripting.Token.Scan
import Scripting.Typed.FlowGraph

/-!
# From scripts to submissions

The signatures of a script's functions are entered first, then its global code is checked, and last
the bodies of its functions, which see every name that the script declares globally. Everything is
lowered, also what has diagnostics.
-/

namespace Scripting

def Surface.Stmt.isFunction : Surface.Stmt → Bool
  | .function .. => true
  | _ => false

namespace Checking

/-- Enters the signatures of the functions among some statements. -/
def signatures : List Surface.Stmt → Checking Unit
  | [] => return
  | .function h b :: ss => do
    function ⟨h, b⟩
    signatures ss
  | _ :: ss => signatures ss

/-- The statements of a script outside functions. Signatures are entered first, so that calls may
come before the declaration. -/
def globalCode (ss : List Surface.Stmt) : Checking (List Typed.Stmt) := do
  signatures ss
  stmts (ss.filter fun s => !s.isFunction)

end Checking

/-- Checks the global code of a script. -/
def checkGlobals (options : Options) (symbols : SymbolTable) (parent : Scope)
    (ss : List Surface.Stmt) : Globals × SymbolTable :=
  let (statements, c) := Checking.globalCode ss (.start symbols options parent none)
  (⟨c.scope.funcs, c.scope.vars, statements, c.diagnostics⟩, c.symbols)

/-- Whether a function must end every way through it in a return. -/
def Ty.needsReturn (returns : Ty) : Bool := returns ≠ .void && returns ≠ .error

/-- Checks and lowers the body of a function. -/
def checkBody (options : Options) (symbols : SymbolTable) (parent : Scope) (f : FuncId)
    (returns : Ty) (d : Declaration) : Typed.Code × List Diagnostic × SymbolTable :=
  let (body, c) := Checking.block d.body (.start symbols options parent (some f))
  let code := body.lowerBody returns
  let missing : List Diagnostic :=
    if returns.needsReturn && !Typed.Code.allPathsReturn code then
      [⟨d.head.name.span, .allPathsMustReturn⟩]
    else []
  (code, c.diagnostics ++ missing, c.symbols)

def checkBodies (options : Options) (parent : Scope) :
    SymbolTable → List FuncId → List (FuncId × Typed.Code) × List Diagnostic × SymbolTable
  | symbols, [] => ([], [], symbols)
  | symbols, f :: fs =>
    match (symbols.functionAt? f).bind fun s => s.declaration?.map (s.returns, ·) with
    | none => checkBodies options parent symbols fs
    | some (returns, d) =>
      let (code, problems, symbols) := checkBody options symbols parent f returns d
      let (bodies, more, symbols) := checkBodies options parent symbols fs
      ((f, code) :: bodies, problems ++ more, symbols)

/-- Checks a script on top of a lineage. -/
def Submission.ofScript (options : Options) (symbols : SymbolTable) (earlier : Lineage)
    (syntaxErrors : List Diagnostic) (ss : List Surface.Stmt) : Submission × SymbolTable :=
  let (globals, symbols) := checkGlobals options symbols (Lineage.scope symbols earlier) ss
  let parent := globals.extend symbols (Lineage.scope symbols earlier)
  let (bodies, bodyDiagnostics, symbols) := checkBodies options parent symbols globals.funcs
  (⟨syntaxErrors, globals, bodies, bodyDiagnostics, (Typed.Stmt.block globals.statements).lower⟩,
    symbols)

def Surface.Script.ofSource (source file : String) : Except SyntaxError Surface.Script := do
  Surface.parse (← Token.tokenize source file) file

/-- Reads a script and checks it on top of a lineage. A script that cannot be read counts as an empty
one with a diagnostic. -/
def compile (options : Options) (symbols : SymbolTable) (earlier : Lineage)
    (source file : String) : Submission × SymbolTable :=
  match Surface.Script.ofSource source file with
  | .ok script => Submission.ofScript options symbols earlier [] script.body
  | .error e => Submission.ofScript options symbols earlier [e.toDiagnostic] []

end Scripting
