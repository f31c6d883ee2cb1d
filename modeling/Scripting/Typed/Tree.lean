import Scripting.Symbol.Table
import Scripting.Typed.Operator
import Scripting.Value

/-!
# Typed trees

Programs with names resolved and types checked. Nodes refer to symbols by handle and carry no spans:
whatever is wrong with them was reported before they were made. Instructions are the statements
without structure; structured statements are built from them.
-/

namespace Scripting.Typed

/-- Expressions. Names, assignments and calls carry the type of their symbol; `error` stands for an
expression that was reported. -/
inductive Expr
  | literal (value : Value)
  | name (target : VarId) (type : Ty)
  | assign (target : VarId) (value : Expr) (type : Ty)
  | compound (target : VarId) (operator : BinaryOp) (value : Expr) (type : Ty)
  | unary (operator : UnaryOp) (operand : Expr)
  | binary (left : Expr) (operator : BinaryOp) (right : Expr)
  | convert (type : Ty) (operand : Expr)
  | call (function : FuncId) (arguments : List Expr) (type : Ty)
  | error
deriving BEq

namespace Expr

def type : Expr → Ty
  | literal v => v.type
  | name _ t | assign _ _ t | compound _ _ _ t | convert t _ | call _ _ t => t
  | unary o _ => o.result
  | binary _ o _ => o.result
  | error => .error

def constant? : Expr → Option Bool
  | literal (.boolean b) => some b
  | _ => none

/-- The negation of a condition. A literal is negated itself. -/
def negate (e : Expr) : Expr :=
  match e.constant? with
  | some b => literal (.boolean !b)
  | none => unary .negate e

end Expr

/-- A jump target. Labels of one name are one label. -/
structure Label where
  name : String
deriving DecidableEq, Repr

/-- Statements without structure. A branch jumps if its condition has the value `on`. -/
inductive Instr
  | eval (e : Expr)
  | declare (target : VarId) (value : Expr)
  | label (l : Label)
  | jump (l : Label)
  | branch (l : Label) (condition : Expr) (on : Bool)
  | ret (value? : Option Expr)
deriving BEq

/-- Statements. A loop names the labels that `break` and `continue` inside it jump to. -/
inductive Stmt
  | instr (i : Instr)
  | block (body : List Stmt)
  | ifThen (condition : Expr) (thenBody : Stmt)
  | ifElse (condition : Expr) (thenBody elseBody : Stmt)
  | whileLoop (condition : Expr) (body : Stmt) (onBreak onContinue : Label)
  | doWhile (body : Stmt) (condition : Expr) (onBreak onContinue : Label)
  | forLoop (first : Stmt) (condition increment : Expr) (body : Stmt) (onBreak onContinue : Label)
deriving BEq

/-- The statement that stands for one that was reported. -/
def Stmt.error : Stmt := instr (.eval .error)

/-- Flat code: what a body becomes when its structure is spelled out. -/
abbrev Code := List Instr

/-! ## Rebuilding trees -/

mutual

/-- Rebuilds an expression from its parts up, passing every node through `f`. -/
def Expr.mapNodes (f : Expr → Expr) : Expr → Expr
  | .literal v => f (.literal v)
  | .name x t => f (.name x t)
  | .assign x e t => f (.assign x (e.mapNodes f) t)
  | .compound x o e t => f (.compound x o (e.mapNodes f) t)
  | .unary o e => f (.unary o (e.mapNodes f))
  | .binary l o r => f (.binary (l.mapNodes f) o (r.mapNodes f))
  | .convert t e => f (.convert t (e.mapNodes f))
  | .call g es t => f (.call g (Expr.mapNodesList f es) t)
  | .error => f .error

def Expr.mapNodesList (f : Expr → Expr) : List Expr → List Expr
  | [] => []
  | e :: es => e.mapNodes f :: Expr.mapNodesList f es

end

def Instr.mapExprs (f : Expr → Expr) : Instr → Instr
  | eval e => eval (f e)
  | declare x e => declare x (f e)
  | label l => label l
  | jump l => jump l
  | branch l c on => branch l (f c) on
  | ret e? => ret (e?.map f)

mutual

def Stmt.mapExprs (f : Expr → Expr) : Stmt → Stmt
  | .instr i => .instr (i.mapExprs f)
  | .block ss => .block (Stmt.mapExprsList f ss)
  | .ifThen c t => .ifThen (f c) (t.mapExprs f)
  | .ifElse c t e => .ifElse (f c) (t.mapExprs f) (e.mapExprs f)
  | .whileLoop c b x y => .whileLoop (f c) (b.mapExprs f) x y
  | .doWhile b c x y => .doWhile (b.mapExprs f) (f c) x y
  | .forLoop i c n b x y => .forLoop (i.mapExprs f) (f c) (f n) (b.mapExprs f) x y

def Stmt.mapExprsList (f : Expr → Expr) : List Stmt → List Stmt
  | [] => []
  | s :: ss => s.mapExprs f :: Stmt.mapExprsList f ss

end

end Scripting.Typed
