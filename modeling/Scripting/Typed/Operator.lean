import Scripting.Token.Basic
import Scripting.Type

/-!
# Operators

The tables of unary and binary operators: a mark together with its operand types selects what is
computed and the type of the result. Operands are never converted to fit.
-/

namespace Scripting

/-- What a unary operator computes. -/
inductive UnaryKind
  | identity | negation | logicalNegation | onesComplement
deriving DecidableEq, Repr

/-- A mark used as a unary operator on one type. -/
structure UnaryOp where
  mark : Punct
  kind : UnaryKind
  operand : Ty
  result : Ty
deriving DecidableEq, Repr

namespace UnaryOp

def negate : UnaryOp := ⟨.not, .logicalNegation, .boolean, .boolean⟩

def all : List UnaryOp :=
  [negate,
   ⟨.plus, .identity, .int, .int⟩,
   ⟨.dash, .negation, .int, .int⟩,
   ⟨.tilde, .onesComplement, .int, .int⟩]

/-- The operator for a token and the type of its operand. -/
def find? (token : TokenKind) (operand : Ty) : Option UnaryOp :=
  all.find? fun o => .punct o.mark = token ∧ o.operand = operand

end UnaryOp

/-- What a binary operator computes. -/
inductive BinaryKind
  | addition | subtraction | multiplication | division | modulo
  | bitwiseAnd | bitwiseOr | bitwiseXor | logicalAnd | logicalOr
  | equals | notEquals | less | lessOrEquals | greater | greaterOrEquals
deriving DecidableEq, Repr

/-- A mark used as a binary operator on two types. -/
structure BinaryOp where
  mark : Punct
  kind : BinaryKind
  left : Ty
  right : Ty
  result : Ty
deriving DecidableEq, Repr

namespace BinaryOp

/-- An operator on two operands of one type. -/
def onBoth (mark : Punct) (kind : BinaryKind) (operand result : Ty) : BinaryOp :=
  ⟨mark, kind, operand, operand, result⟩

def all : List BinaryOp :=
  [onBoth .plus .addition .int .int,
   onBoth .dash .subtraction .int .int,
   onBoth .star .multiplication .int .int,
   onBoth .slash .division .int .int,
   onBoth .percent .modulo .int .int,
   onBoth .ampersand .bitwiseAnd .int .int,
   onBoth .pipe .bitwiseOr .int .int,
   onBoth .hat .bitwiseXor .int .int,
   onBoth .equals .equals .int .boolean,
   onBoth .notEquals .notEquals .int .boolean,
   onBoth .less .less .int .boolean,
   onBoth .lessEquals .lessOrEquals .int .boolean,
   onBoth .greater .greater .int .boolean,
   onBoth .greaterEquals .greaterOrEquals .int .boolean,
   onBoth .and .logicalAnd .boolean .boolean,
   onBoth .or .logicalOr .boolean .boolean,
   onBoth .ampersand .bitwiseAnd .boolean .boolean,
   onBoth .pipe .bitwiseOr .boolean .boolean,
   onBoth .hat .bitwiseXor .boolean .boolean,
   onBoth .equals .equals .boolean .boolean,
   onBoth .notEquals .notEquals .boolean .boolean,
   onBoth .plus .addition .string .string,
   onBoth .equals .equals .string .boolean,
   onBoth .notEquals .notEquals .string .boolean,
   onBoth .equals .equals .any .boolean,
   onBoth .notEquals .notEquals .any .boolean]

/-- The operator for a token and the types of its operands. -/
def find? (token : TokenKind) (left right : Ty) : Option BinaryOp :=
  all.find? fun o => .punct o.mark = token ∧ o.left = left ∧ o.right = right

end BinaryOp

end Scripting
