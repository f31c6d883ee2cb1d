import Scripting.Text.Decimal
import Scripting.Typed.Tree

/-!
# Flat code

Spells the structure of statements out as labels and jumps.

* `if c s`: `branch end c false`, s, `label end`.
* `if c s else t`: `branch other c false`, s, `jump end`, `label other`, t, `label end`.
* `while c s`: `label continue`, `branch break c false`, s, `jump continue`, `label break`.
* `do s while c`: `label again`, s, `label continue`, `branch again c true`, `label break`.
* `for i c n s`: i, `label again`, `branch break c false`, s, `label continue`, n, `jump again`,
  `label break`.

New labels are numbered from one, those of an outer statement before those of its parts. Branches on
literals are decided on the spot, and `x op= e` becomes `x = x op e`.
-/

namespace Scripting.Typed

/-- Spells a compound assignment out; other nodes stay. -/
def Expr.expand : Expr → Expr
  | compound x o e t => assign x (binary (name x t) o e) t
  | e => e

/-- Spells out every compound assignment in an expression. -/
def Expr.lower (e : Expr) : Expr := e.mapNodes expand

/-- A branch on a lowered condition: on a literal it is a jump or nothing. -/
def branchOn (l : Label) (c : Expr) (on : Bool) : Code :=
  match c.constant? with
  | some b => if b = on then [.jump l] else []
  | none => [.branch l c on]

def Instr.lower : Instr → Code
  | branch l c on => branchOn l c.lower on
  | i => [i.mapExprs Expr.lower]

/-- Label numbers in use so far. -/
abbrev Lowering := StateM Nat

/-- A label with the next number. -/
def Lowering.fresh : Lowering Label := do
  let n := (← get) + 1
  set n
  return ⟨"Label" ++ Text.showNat n⟩

mutual

def Stmt.lowered : Stmt → Lowering Code
  | .instr i => return i.lower
  | .block ss => Stmt.loweredList ss
  | .ifThen c s => do
    let done ← Lowering.fresh
    let body ← s.lowered
    return branchOn done c.lower false ++ body ++ [.label done]
  | .ifElse c s t => do
    let other ← Lowering.fresh
    let done ← Lowering.fresh
    let body ← s.lowered
    let otherBody ← t.lowered
    return branchOn other c.lower false ++ body ++ [.jump done, .label other] ++ otherBody ++
      [.label done]
  | .whileLoop c s onBreak onContinue => do
    let body ← s.lowered
    return [.label onContinue] ++ branchOn onBreak c.lower false ++ body ++
      [.jump onContinue, .label onBreak]
  | .doWhile s c onBreak onContinue => do
    let again ← Lowering.fresh
    let body ← s.lowered
    return [.label again] ++ body ++ [.label onContinue] ++ branchOn again c.lower true ++
      [.label onBreak]
  | .forLoop i c n s onBreak onContinue => do
    let again ← Lowering.fresh
    let first ← i.lowered
    let body ← s.lowered
    return first ++ [.label again] ++ branchOn onBreak c.lower false ++ body ++
      [.label onContinue, .eval n.lower, .jump again, .label onBreak]

def Stmt.loweredList : List Stmt → Lowering Code
  | [] => return []
  | s :: ss => do
    let first ← s.lowered
    let rest ← Stmt.loweredList ss
    return first ++ rest

end

/-- The code of a statement, labels numbered from one. -/
def Stmt.lower (s : Stmt) : Code := (s.lowered 0).1

/-- Whether running the code can get past its last instruction. -/
def Code.fallsThrough (code : Code) : Bool :=
  match code.getLast? with
  | some (.ret _) | some (.jump _) => false
  | _ => true

/-- The code of a function body. A body without a result returns at its end. -/
def Stmt.lowerBody (returns : Ty) (s : Stmt) : Code :=
  if returns = .void ∧ Code.fallsThrough s.lower then s.lower ++ [.ret none] else s.lower

/-- Statements that have no structure, as code. -/
def Code.ofStmts? : List Stmt → Option Code
  | [] => some []
  | .instr i :: ss => (Code.ofStmts? ss).map (i :: ·)
  | _ :: _ => none

end Scripting.Typed
