import Scripting.Diagnostic
import Scripting.Symbol.Scope
import Scripting.Typed.Tree

/-!
# The state of a check

Checking resolves the names of a script and types its expressions. It never stops at a problem: it
reports it and goes on with a stand-in. This module holds what is carried along, and the brackets that
open and close a layer of scope, a loop or a level of nesting around a part of the check.
-/

namespace Scripting

/-- What the caller decides: whether an assignment to an unknown name declares it, and how deep
statements and expressions may be nested. -/
structure Options where
  implicitDeclarations : Bool
  maxDepth : Nat
deriving DecidableEq, Repr

/-- Implicit declarations, and 256 levels. -/
def Options.standard : Options := ⟨true, 256⟩

/-- What is carried through a check. -/
structure Checker where
  /-- the symbols of the session -/
  symbols : SymbolTable
  options : Options
  scope : Scope
  /-- the function whose body is checked; `none` for global code -/
  function? : Option FuncId
  /-- where `break` and `continue` jump to in each enclosing loop, innermost first -/
  loops : List (Typed.Label × Typed.Label)
  loopCount : Nat
  depth : Nat
  /-- whether excessive nesting was reported before -/
  depthReported : Bool
  diagnostics : List Diagnostic

namespace Checker

def declareParameters (s : Scope) (parameters : List ParameterSymbol) : Scope :=
  parameters.foldl (fun s p => (s.declareVariable? p.name p.target).getD s) s

/-- The state before a check inside `parent`, with the parameters of `function?` in scope. -/
def start (symbols : SymbolTable) (options : Options) (parent : Scope)
    (function? : Option FuncId) : Checker where
  symbols := symbols
  options := options
  scope :=
    match function?.bind symbols.functionAt? with
    | some f => declareParameters parent.push f.parameters
    | none => parent.push
  function? := function?
  loops := []
  loopCount := 0
  depth := 0
  depthReported := false
  diagnostics := []

end Checker

/-- Steps of a check. -/
abbrev Checking := StateM Checker

namespace Checking

def report (span : Span) (problem : Problem) : Checking Unit :=
  modify fun c => { c with diagnostics := c.diagnostics ++ [⟨span, problem⟩] }

/-- Goes one level deeper; `false` at the limit, which is reported once. -/
def enter (span : Span) : Checking Bool := do
  let c ← get
  if c.depth < c.options.maxDepth then
    set { c with depth := c.depth + 1 }
    return true
  else
    unless c.depthReported do
      set { c with depthReported := true }
      report span (.nestingTooDeep c.options.maxDepth)
    return false

/-- Comes back from one level deeper. -/
def leave : Checking Unit := modify fun c => { c with depth := c.depth - 1 }

/-- Runs a step one level deeper, or gives the stand-in at the limit. -/
def nested {α : Type} (span : Span) (standIn : α) (step : Checking α) : Checking α := do
  if ← enter span then
    let a ← step
    leave
    return a
  else return standIn

/-- Runs a step in a new layer of scope. -/
def inLayer {α : Type} (step : Checking α) : Checking α := do
  modify fun c => { c with scope := c.scope.push }
  let a ← step
  modify fun c => { c with scope := c.scope.pop }
  return a

/-- Runs a step inside a new loop, and gives the labels that the loop ends and continues at. -/
def inLoop {α : Type} (step : Checking α) : Checking (α × Typed.Label × Typed.Label) := do
  modify fun c => { c with loopCount := c.loopCount + 1 }
  let number := Text.showNat (← get).loopCount
  let onBreak : Typed.Label := ⟨"break" ++ number⟩
  let onContinue : Typed.Label := ⟨"continue" ++ number⟩
  modify fun c => { c with loops := (onBreak, onContinue) :: c.loops }
  let a ← step
  modify fun c => { c with loops := c.loops.tail }
  return (a, onBreak, onContinue)

/-- Adds a variable to the symbols and declares it, if its name is not taken. -/
def declareVariable (name : String) (span : Span) (readOnly : Bool) (type : Ty) :
    Checking VarId := do
  let c ← get
  let kind := if c.function?.isNone then .global else .local_
  let (v, symbols) := c.symbols.addVariable ⟨name, type, readOnly, kind⟩
  match c.scope.declareVariable? name v with
  | some scope => set { c with symbols := symbols, scope := scope }
  | none =>
    set { c with symbols := symbols }
    report span (.variableAlreadyDeclared name)
  return v

/-- Adds a function to the symbols and declares it, if its signature is not taken. -/
def declareFunction (span : Span) (symbol : FunctionSymbol) : Checking Unit := do
  let c ← get
  let (f, symbols) := c.symbols.addFunction symbol
  match c.scope.declareFunction? symbol f with
  | some scope => set { c with symbols := symbols, scope := scope }
  | none =>
    set { c with symbols := symbols }
    report span (.functionAlreadyDeclared symbol.signature)

/-- The type that a name stands for. -/
def typeOf (name : Surface.Name) : Checking Ty := do
  match Ty.ofName? name.text with
  | some ty => return ty
  | none =>
    report name.span (.undefinedType name.text)
    return .error

end Checking

end Scripting
