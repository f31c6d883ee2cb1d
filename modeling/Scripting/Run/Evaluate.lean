import Scripting.Run.Stmt

/-!
# Running programs

Calls run the body of a function in a frame that holds its arguments; the depth of calls is bounded by
the fuel. A program runs its global code and has the value of its last statement.
-/

namespace Scripting

variable {σ : Type}

def Run.call (w : Setting σ) : Nat → Calls σ
  | 0, _, _ => throw .outOfFuel
  | fuel + 1, f, arguments => do
    match w.symbols.functionAt? f with
    | none => Run.fault .unknownSymbol
    | some symbol =>
      match symbol.builtin? with
      | some b => Run.builtin w b arguments
      | none =>
        match w.body? f with
        | none => Run.fault (.noBody symbol.signature)
        | some body =>
          let frame := Store.ofList ((symbol.parameters.map (·.target)).zip arguments)
          match ← Run.inFrame frame (body.run w (Run.call w fuel) fuel) with
          | .returned v? => return v?
          | .normal => return none
          | .jump l => Run.fault (.undeclaredLabel l.name)

def Run.main (w : Setting σ) (fuel : Nat) (body : Body) : Run σ (Option Value) := do
  match ← body.run w (Run.call w fuel) fuel with
  | .jump l => Run.fault (.undeclaredLabel l.name)
  | _ => return (← get).last?

/-- What a run leaves behind: its value or why it stopped, the session's variables, and the host. -/
structure Outcome (σ : Type) where
  result : Except Halt (Option Value)
  globals : Store
  host : σ

/-- Runs a program from the given variables and state of the host. -/
def evaluate (w : Setting σ) (fuel : Nat) (body : Body) (globals : Store) (host : σ) : Outcome σ :=
  match Run.main w fuel body ⟨globals, [], none, host⟩ with
  | .ok v? m => ⟨.ok v?, m.globals, m.host⟩
  | .error e m => ⟨.error e, m.globals, m.host⟩

end Scripting
