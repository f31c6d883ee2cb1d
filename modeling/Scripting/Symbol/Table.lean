import Scripting.Surface.Tree
import Scripting.Type

/-!
# Symbols

Variables and functions of a session, addressed by the number of their arrival. A table only grows:
what a handle stands for never changes, and two symbols of one name have different handles.
-/

namespace Scripting

structure VarId where
  index : Nat
deriving DecidableEq, Repr

structure FuncId where
  index : Nat
deriving DecidableEq, Repr

/-- Where a variable lives: in the session, in a call, or in a call as one of its arguments. -/
inductive VarKind
  | global | local_ | parameter
deriving DecidableEq, Repr

/-- What is known of a variable. -/
structure VariableSymbol where
  name : String
  type : Ty
  readOnly : Bool
  kind : VarKind
deriving DecidableEq, Repr

/-- A parameter and the variable that holds its argument during a call. -/
structure ParameterSymbol where
  name : String
  type : Ty
  target : VarId
deriving DecidableEq, Repr

/-- The functions a host provides. -/
inductive Builtin
  | print | input | random
deriving DecidableEq, Repr

/-- A function as written in a script. -/
structure Declaration where
  head : Surface.FunctionHead
  body : List Surface.Stmt

/-- What is known of a function. -/
structure FunctionSymbol where
  name : String
  parameters : List ParameterSymbol
  returns : Ty
  declaration? : Option Declaration
  builtin? : Option Builtin

namespace FunctionSymbol

def types (f : FunctionSymbol) : List Ty := f.parameters.map (·.type)

/-- The name with the types of the parameters. -/
def signature (f : FunctionSymbol) : String := Scripting.signature f.name f.types

end FunctionSymbol

/-- The symbols of a session. -/
structure SymbolTable where
  vars : Array VariableSymbol
  funcs : Array FunctionSymbol

namespace SymbolTable

/-- Adds a variable; its handle is the next number. -/
def addVariable (t : SymbolTable) (v : VariableSymbol) : VarId × SymbolTable :=
  (⟨t.vars.size⟩, { t with vars := t.vars.push v })

/-- Adds a function; its handle is the next number. -/
def addFunction (t : SymbolTable) (f : FunctionSymbol) : FuncId × SymbolTable :=
  (⟨t.funcs.size⟩, { t with funcs := t.funcs.push f })

def variableAt? (t : SymbolTable) (v : VarId) : Option VariableSymbol := t.vars[v.index]?

def functionAt? (t : SymbolTable) (f : FuncId) : Option FunctionSymbol := t.funcs[f.index]?

def variableName (t : SymbolTable) (v : VarId) : String := ((t.variableAt? v).map (·.name)).getD ""

def variableType (t : SymbolTable) (v : VarId) : Ty := ((t.variableAt? v).map (·.type)).getD .error

def functionName (t : SymbolTable) (f : FuncId) : String := ((t.functionAt? f).map (·.name)).getD ""

/-- The type that calls of a function have. -/
def returnType (t : SymbolTable) (f : FuncId) : Ty := ((t.functionAt? f).map (·.returns)).getD .error

/-- Adds variables for the parameters of a function. -/
def addParameters (t : SymbolTable) : List (String × Ty) → List ParameterSymbol × SymbolTable
  | [] => ([], t)
  | (name, type) :: rest =>
    let (target, t) := t.addVariable ⟨name, type, true, .parameter⟩
    let (parameters, t) := t.addParameters rest
    (⟨name, type, target⟩ :: parameters, t)

def addBuiltin (t : SymbolTable) (builtin : Builtin) (name : String)
    (parameters : List (String × Ty)) (returns : Ty) : SymbolTable :=
  let (parameters, t) := t.addParameters parameters
  (t.addFunction ⟨name, parameters, returns, none, some builtin⟩).2

/-- The table of a new session, with the functions of the host. -/
def initial : SymbolTable :=
  (⟨#[], #[]⟩ : SymbolTable)
    |>.addBuiltin .print "print" [("text", .string)] .void
    |>.addBuiltin .input "input" [] .string
    |>.addBuiltin .random "rnd" [("max", .int)] .int

/-- The handles of the functions of the host. -/
def builtins (t : SymbolTable) : List FuncId :=
  (List.range t.funcs.size).filterMap fun i =>
    (t.functionAt? ⟨i⟩).bind fun f => f.builtin?.map fun _ => ⟨i⟩

end SymbolTable

end Scripting
