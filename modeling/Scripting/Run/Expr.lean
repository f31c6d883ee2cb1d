import Scripting.Run.Machine
import Scripting.Run.Operation

/-!
# Running expressions

Operands are evaluated from left to right. Only a call of a function without a result has no value.
How calls are carried out is left open here.
-/

namespace Scripting.Typed

variable {σ : Type}

mutual

/-- The value of an expression, if it has one. -/
def Expr.eval (w : Setting σ) (call : Calls σ) : Expr → Run σ (Option Value)
  | .literal v => return some v
  | .name x _ => return some (← Run.lookup w x)
  | .assign x e _ => do
    let v ← Run.required (e.eval w call)
    Run.assign w x v
    return some v
  | .compound x o e _ => do
    let current ← Run.lookup w x
    let v ← Run.required (e.eval w call)
    let v ← Run.ofExcept (o.kind.apply current v)
    Run.assign w x v
    return some v
  | .unary o e => do
    let v ← Run.required (e.eval w call)
    return some (← Run.ofExcept (o.kind.apply v))
  | .binary l o r => do
    let a ← Run.required (l.eval w call)
    match ← Run.ofExcept (o.kind.decided? a) with
    | some v => return some v
    | none =>
      let b ← Run.required (r.eval w call)
      return some (← Run.ofExcept (o.kind.apply a b))
  | .convert t e => do
    let v ← Run.required (e.eval w call)
    return some (← Run.ofExcept (v.convert t))
  | .call f es _ => do
    let arguments ← Expr.evalList w call es
    call f arguments
  | .error => Run.fault .errorExpression

def Expr.evalList (w : Setting σ) (call : Calls σ) : List Expr → Run σ (List Value)
  | [] => return []
  | e :: es => do
    let v ← Run.required (e.eval w call)
    let vs ← Expr.evalList w call es
    return v :: vs

end

def Expr.holds (w : Setting σ) (call : Calls σ) (c : Expr) : Run σ Bool := do
  let v ← Run.required (c.eval w call)
  Run.ofExcept v.truth

end Scripting.Typed
