import Scripting.Run.Expr
import Scripting.Typed.FlowGraph

/-!
# Running statements

A statement hands control on to the next one, jumps to a label, or returns. A list of statements
answers the jumps to labels it declares itself, at its own level, and passes the others on; of two
declarations of one label the last counts. Each statement of a list and each pass of a loop uses up
one unit of the fuel given to that list or loop.
-/

namespace Scripting

/-- Where control goes after a statement. -/
inductive Flow
  | normal
  | jump (l : Typed.Label)
  | returned (value? : Option Value)
deriving DecidableEq

namespace Run

variable {σ α : Type}

/-- What stands behind the last declaration of a label. -/
def after? (label? : α → Option Typed.Label) (l : Typed.Label) : List α → Option (List α)
  | [] => none
  | a :: rest =>
    match after? label? l rest with
    | some suffix => some suffix
    | none => if label? a = some l then some rest else none

/-- Runs what is left of a list. -/
def steps (label? : α → Option Typed.Label) (step : α → Run σ Flow) (list : List α) :
    Nat → List α → Run σ Flow
  | _, [] => return .normal
  | 0, _ :: _ => throw .outOfFuel
  | fuel + 1, a :: rest => do
    match ← step a with
    | .normal => steps label? step list fuel rest
    | .returned v? => return .returned v?
    | .jump l =>
      match after? label? l list with
      | some suffix => steps label? step list fuel suffix
      | none => return .jump l

/-- Runs one pass after the other until one says where control goes. -/
def repeatPasses (pass : Run σ (Option Flow)) : Nat → Run σ Flow
  | 0 => throw .outOfFuel
  | fuel + 1 => do
    match ← pass with
    | some flow => return flow
    | none => repeatPasses pass fuel

/-- One pass of a loop's body: `none` if the loop goes on. -/
def pass (onBreak onContinue : Typed.Label) (body : Run σ Flow) : Run σ (Option Flow) := do
  match ← body with
  | .normal => return none
  | .jump l =>
    if l = onContinue then return none
    else if l = onBreak then return some .normal
    else return some (.jump l)
  | .returned v? => return some (.returned v?)

end Run

namespace Typed

variable {σ : Type}

def Instr.run (w : Setting σ) (call : Calls σ) : Instr → Run σ Flow
  | eval e => do
    let v? ← e.eval w call
    Run.setLast v?
    return .normal
  | declare x e => do
    let v ← Run.required (e.eval w call)
    Run.assign w x v
    Run.setLast (some v)
    return .normal
  | label _ => return .normal
  | jump l => return .jump l
  | branch l c on => do
    if (← c.holds w call) = on then return .jump l else return .normal
  | ret none => return .returned none
  | ret (some e) => return .returned (← e.eval w call)

def Code.run (w : Setting σ) (call : Calls σ) (fuel : Nat) (code : Code) : Run σ Flow :=
  Run.steps Instr.label? (Instr.run w call) code fuel code

/-- A statement of a list, ready to run. -/
structure Step (σ : Type) where
  label? : Option Label
  run : Run σ Flow

def Step.runList (fuel : Nat) (steps : List (Step σ)) : Run σ Flow :=
  Run.steps Step.label? Step.run steps fuel steps

def Stmt.label? : Stmt → Option Label
  | instr i => i.label?
  | _ => none

mutual

def Stmt.run (w : Setting σ) (call : Calls σ) (fuel : Nat) : Stmt → Run σ Flow
  | .instr i => i.run w call
  | .block ss => Step.runList fuel (Stmt.steps w call fuel ss)
  | .ifThen c s => do
    if ← c.holds w call then s.run w call fuel else return .normal
  | .ifElse c s t => do
    if ← c.holds w call then s.run w call fuel else t.run w call fuel
  | .whileLoop c s onBreak onContinue =>
    Run.repeatPasses
      (do if ← c.holds w call then Run.pass onBreak onContinue (s.run w call fuel)
          else return some .normal)
      fuel
  | .doWhile s c onBreak onContinue =>
    Run.repeatPasses
      (do match ← Run.pass onBreak onContinue (s.run w call fuel) with
          | some flow => return some flow
          | none => if ← c.holds w call then return none else return some .normal)
      fuel
  | .forLoop i c n s onBreak onContinue => do
    match ← i.run w call fuel with
    | .normal =>
      Run.repeatPasses
        (do if ← c.holds w call then
              match ← Run.pass onBreak onContinue (s.run w call fuel) with
              | some flow => return some flow
              | none =>
                let _ ← n.eval w call
                return none
            else return some .normal)
        fuel
    | flow => return flow

/-- The statements of a list, ready to run. -/
def Stmt.steps (w : Setting σ) (call : Calls σ) (fuel : Nat) : List Stmt → List (Step σ)
  | [] => []
  | s :: ss => ⟨s.label?, s.run w call fuel⟩ :: Stmt.steps w call fuel ss

end

end Typed

def Body.run {σ : Type} (w : Setting σ) (call : Calls σ) (fuel : Nat) : Body → Run σ Flow
  | flat code => Typed.Code.run w call fuel code
  | structured ss => Typed.Step.runList fuel (Typed.Stmt.steps w call fuel ss)

end Scripting
