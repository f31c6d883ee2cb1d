import Scripting.Proofs.Typed.Induction
import Scripting.Typed.Lower

/-!
# Parts of expressions

The expressions that stand in an expression, at any depth, and those of an instruction or a statement.
-/

namespace Scripting.Typed

mutual

/-- The expression and all expressions inside it. -/
def Expr.parts : Expr → List Expr
  | .literal v => [.literal v]
  | .name x t => [.name x t]
  | .assign x e t => .assign x e t :: e.parts
  | .compound x o e t => .compound x o e t :: e.parts
  | .unary o e => .unary o e :: e.parts
  | .binary l o r => .binary l o r :: (l.parts ++ r.parts)
  | .convert t e => .convert t e :: e.parts
  | .call f es t => .call f es t :: Expr.partsList es
  | .error => [.error]

def Expr.partsList : List Expr → List Expr
  | [] => []
  | e :: es => e.parts ++ Expr.partsList es

end

def Instr.exprs : Instr → List Expr
  | eval e | declare _ e | branch _ e _ | ret (some e) => [e]
  | label _ | jump _ | ret none => []

mutual

def Stmt.exprs : Stmt → List Expr
  | .instr i => i.exprs
  | .block ss => Stmt.exprsList ss
  | .ifThen c s | .whileLoop c s _ _ | .doWhile s c _ _ => c :: s.exprs
  | .ifElse c s t => c :: (s.exprs ++ t.exprs)
  | .forLoop i c n s _ _ => c :: n :: (i.exprs ++ s.exprs)

def Stmt.exprsList : List Stmt → List Expr
  | [] => []
  | s :: ss => s.exprs ++ Stmt.exprsList ss

end

/-- The expressions of a statement and all expressions inside them. -/
def Stmt.parts (s : Stmt) : List Expr := s.exprs.flatMap Expr.parts

theorem Expr.partsList_eq_flatMap (es : List Expr) : Expr.partsList es = es.flatMap Expr.parts := by
  induction es with
  | nil => rfl
  | cons e es ih => rw [Expr.partsList, ih, List.flatMap_cons]

theorem Expr.lower_call (f : FuncId) (es : List Expr) (t : Ty) :
    (Expr.call f es t).lower = .call f (es.map Expr.lower) t := by
  show Expr.call f (Expr.mapNodesList Expr.expand es) t = _
  rw [Expr.mapNodesList_eq_map]
  rfl

theorem Instr.exprs_mapExprs (f : Expr → Expr) (i : Instr) : (i.mapExprs f).exprs = i.exprs.map f := by
  cases i with
  | ret e? => cases e? <;> rfl
  | _ => rfl

end Scripting.Typed
