import Scripting.Run.Halt
import Scripting.Run.Store
import Scripting.Typed.Tree

/-!
# Machines

What a program runs on: the values of the session's variables, a frame of values for each active call,
the value of the last statement, and a host that prints, reads and draws random numbers. The host is a
parameter; its own state is carried along untouched.
-/

namespace Scripting

/-- What the functions of the host do to its state `σ`. -/
structure Host (σ : Type) where
  /-- prints a text -/
  print : String → σ → σ
  /-- reads a text -/
  input : σ → String × σ
  /-- draws a number below the given one -/
  random : Int32 → σ → Int32 × σ

/-- The state of a run. -/
structure Machine (σ : Type) where
  globals : Store
  /-- the values of each active call, innermost first -/
  frames : List Store
  /-- the value of the last statement that has one -/
  last? : Option Value
  host : σ

/-- A run from one state of the machine to another, which may stop early. -/
abbrev Run (σ : Type) := EStateM Halt (Machine σ)

/-- A body: flat code, or statements with their structure. -/
inductive Body
  | flat (code : Typed.Code)
  | structured (body : List Typed.Stmt)

/-- What is fixed during a run: the symbols, the host, and the bodies of the functions. -/
structure Setting (σ : Type) where
  symbols : SymbolTable
  host : Host σ
  body? : FuncId → Option Body

/-- How a call of a function is carried out. -/
abbrev Calls (σ : Type) := FuncId → List Value → Run σ (Option Value)

namespace Run

variable {σ α : Type}

def fault (f : Fault) : Run σ α := throw (.fault f)

/-- A computation that does not touch the machine. -/
def ofExcept : Except Halt α → Run σ α
  | .ok a => pure a
  | .error e => throw e

/-- The value that a run must have. -/
def required (run : Run σ (Option Value)) : Run σ Value := do
  match ← run with
  | some v => return v
  | none => fault .voidOperand

def setLast (v? : Option Value) : Run σ Unit := modify fun m => { m with last? := v? }

def lookup (w : Setting σ) (x : VarId) : Run σ Value := do
  match w.symbols.variableAt? x with
  | none => fault .unknownSymbol
  | some symbol =>
    let m ← get
    let found := match symbol.kind with
      | .global => m.globals.get? x
      | .local_ | .parameter => m.frames.head?.bind (·.get? x)
    match found with
    | some v => return v
    | none => throw (.error (.unassignedVariable symbol))

def assign (w : Setting σ) (x : VarId) (v : Value) : Run σ Unit := do
  match w.symbols.variableAt? x with
  | none => fault .unknownSymbol
  | some symbol =>
    let m ← get
    match symbol.kind, m.frames with
    | .global, _ => set { m with globals := m.globals.insert x v }
    | _, frame :: rest => set { m with frames := frame.insert x v :: rest }
    | _, [] => fault .localOutsideCall

/-- Runs a call in a frame of its own, which is gone afterwards however the call ends. -/
def inFrame (frame : Store) (run : Run σ α) : Run σ α := fun m =>
  match run { m with frames := frame :: m.frames } with
  | .ok a m => .ok a { m with frames := m.frames.tail }
  | .error e m => .error e { m with frames := m.frames.tail }

def builtin (w : Setting σ) (b : Builtin) (arguments : List Value) : Run σ (Option Value) := do
  match b, arguments with
  | .input, _ =>
    let m ← get
    let (s, host) := w.host.input m.host
    set { m with host := host }
    return some (.text s)
  | _, [] => fault .missingArgument
  | .print, v :: _ =>
    let s ← ofExcept (v.asText.mapError .fault)
    modify fun m => { m with host := w.host.print s m.host }
    return none
  | .random, v :: _ =>
    let max ← ofExcept (v.asInteger.mapError .fault)
    let m ← get
    let (n, host) := w.host.random max m.host
    set { m with host := host }
    return some (.int n)

end Run

end Scripting
