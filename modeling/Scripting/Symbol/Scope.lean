import Scripting.Symbol.Table

/-!
# Scopes

Names in force at a place of a script: layers of declarations, the innermost first. A layer holds a
variable name once, and a function name once for each list of parameter types; a declaration that
would repeat one fails and changes nothing. Look-ups take the innermost layer that answers, and a
layer with other overloads of a function does not hide those further out.
-/

namespace Scripting

/-- A function under one of its lists of parameter types. -/
structure Overload where
  types : List Ty
  function : FuncId
deriving DecidableEq, Repr

/-- The declarations of one block, in the order they were made; functions are grouped by name. -/
structure Layer where
  vars : List (String × VarId)
  funcs : List (String × List Overload)
deriving DecidableEq, Repr

namespace Layer

def empty : Layer := ⟨[], []⟩

def findVariable? (l : Layer) (name : String) : Option VarId := l.vars.lookup name

def overloads (l : Layer) (name : String) : List Overload := (l.funcs.lookup name).getD []

/-- The function with exactly the given parameter types. -/
def findFunction? (l : Layer) (name : String) (types : List Ty) : Option FuncId :=
  ((l.overloads name).find? fun o => o.types = types).map (·.function)

/-- Adds a variable unless its name is taken. -/
def declareVariable? (l : Layer) (name : String) (v : VarId) : Option Layer :=
  match l.findVariable? name with
  | some _ => none
  | none => some { l with vars := l.vars ++ [(name, v)] }

/-- Adds an overload behind those of the same name. -/
def addOverload (name : String) (o : Overload) :
    List (String × List Overload) → List (String × List Overload)
  | [] => [(name, [o])]
  | (n, os) :: rest =>
    if n = name then (n, os ++ [o]) :: rest else (n, os) :: addOverload name o rest

/-- Adds a function unless one of its name has the same parameter types. -/
def declareFunction? (l : Layer) (name : String) (o : Overload) : Option Layer :=
  match l.findFunction? name o.types with
  | some _ => none
  | none => some { l with funcs := addOverload name o l.funcs }

end Layer

/-- The layers in force: that of the current block, and those around it, innermost first. -/
structure Scope where
  inner : Layer
  outer : List Layer
deriving DecidableEq, Repr

namespace Scope

def empty : Scope := ⟨.empty, []⟩

def push (s : Scope) : Scope := ⟨.empty, s.inner :: s.outer⟩

/-- Closes the innermost layer; `none` if no other is left. -/
def pop? (s : Scope) : Option Scope :=
  match s.outer with
  | [] => none
  | l :: ls => some ⟨l, ls⟩

def pop (s : Scope) : Scope := s.pop?.getD empty

def layers (s : Scope) : List Layer := s.inner :: s.outer

/-- The variable that a name stands for. -/
def findVariable? (s : Scope) (name : String) : Option VarId :=
  s.layers.findSome? fun l => l.findVariable? name

/-- The function that a name with argument types stands for. -/
def findFunction? (s : Scope) (name : String) (types : List Ty) : Option FuncId :=
  s.layers.findSome? fun l => l.findFunction? name types

/-- Declares a variable in the innermost layer, unless its name is taken there. -/
def declareVariable? (s : Scope) (name : String) (v : VarId) : Option Scope :=
  (s.inner.declareVariable? name v).map fun l => { s with inner := l }

/-- Declares a function in the innermost layer, unless its signature is taken there. -/
def declareFunction? (s : Scope) (f : FunctionSymbol) (id : FuncId) : Option Scope :=
  (s.inner.declareFunction? f.name ⟨f.types, id⟩).map fun l => { s with inner := l }

/-- Declares a variable of the table under its name, if that is possible. -/
def addVariable (s : Scope) (t : SymbolTable) (v : VarId) : Scope :=
  (s.declareVariable? (t.variableName v) v).getD s

/-- Declares a function of the table, if that is possible. -/
def addFunction (s : Scope) (t : SymbolTable) (f : FuncId) : Scope :=
  ((t.functionAt? f).bind fun symbol => s.declareFunction? symbol f).getD s

def vars (s : Scope) : List VarId := s.inner.vars.map (·.2)

def funcs (s : Scope) : List FuncId :=
  s.inner.funcs.flatMap fun (_, os) => os.map (·.function)

/-- The outermost scope of a session: the functions of the host. -/
def root (t : SymbolTable) : Scope := t.builtins.foldl (fun s f => s.addFunction t f) empty

end Scope

end Scripting
