import Scripting.Token.Basic

/-!
# Surface trees

Scripts as they are written: names unresolved, types unchecked, every node with its span. Grouping
parentheses leave no node.
-/

namespace Scripting.Surface

/-- A name as written: of a variable, a function or a type. -/
structure Name where
  text : String
  span : Span
deriving DecidableEq, Repr

/-- Expressions. The operator of an assignment is `=` or a compound one. -/
inductive Expr
  | number (value : Int32) (span : Span)
  | text (value : String) (span : Span)
  | boolean (value : Bool) (span : Span)
  | name (name : Name)
  | binary (left : Expr) (operator : Token) (right : Expr) (span : Span)
  | unary (operator : Token) (operand : Expr) (span : Span)
  | assign (target : Name) (operator : Token) (value : Expr) (span : Span)
  | call (callee : Name) (arguments : List Expr) (span : Span)

def Expr.span : Expr → Span
  | number _ s | text _ s | boolean _ s | binary _ _ _ s | unary _ _ s | assign _ _ _ s
  | call _ _ s => s
  | name n => n.span

/-- The declaration of a variable: read-only if it was declared with `let`. -/
structure VariableDecl where
  name : Name
  readOnly : Bool
  type? : Option Name
  value : Expr
  span : Span

structure Parameter where
  name : String
  type : Name
  span : Span
deriving DecidableEq, Repr

/-- A function declaration without its body. -/
structure FunctionHead where
  name : Name
  parameters : List Parameter
  returns? : Option Name
  bodySpan : Span
  span : Span
deriving DecidableEq, Repr

inductive Stmt
  | block (body : List Stmt) (span : Span)
  | expr (value : Expr)
  | declare (decl : VariableDecl)
  | ifThen (condition : Expr) (thenBody : Stmt) (span : Span)
  | ifElse (condition : Expr) (thenBody elseBody : Stmt) (span : Span)
  | whileLoop (condition : Expr) (body : Stmt) (span : Span)
  | doWhile (body : Stmt) (condition : Expr) (span : Span)
  | forLoop (first : Stmt) (condition increment : Expr) (body : Stmt) (span : Span)
  | breakLoop (span : Span)
  | continueLoop (span : Span)
  | returns (value? : Option Expr) (span : Span)
  | function (head : FunctionHead) (body : List Stmt)

def Stmt.span : Stmt → Span
  | block _ s | ifThen _ _ s | ifElse _ _ _ s | whileLoop _ _ s | doWhile _ _ s
  | forLoop _ _ _ _ s | breakLoop s | continueLoop s | returns _ s => s
  | expr e => e.span
  | declare d => d.span
  | function h _ => h.span

structure Script where
  body : List Stmt
  span : Span

end Scripting.Surface
