import Scripting.Span
import Scripting.Text.Decimal

/-!
# Diagnostics

What can be wrong with a script, each problem with the names it concerns and its wording, and the
place in the script it was found at. Types, signatures and operators are named as they are shown.
-/

namespace Scripting

/-- A reason to reject a submission. -/
inductive Problem
  | malformed (message : String)
  | undefinedVariable (name : String)
  | variableAlreadyDeclared (name : String)
  | readOnlyAssignment (name : String)
  | undefinedUnaryOperator (operator operand : String)
  | undefinedBinaryOperator (operator left right : String)
  | undefinedFunction (signature : String)
  | functionAlreadyDeclared (signature : String)
  | parameterAlreadyDeclared (name : String)
  | undefinedType (name : String)
  | cannotConvert (source target : String)
  | cannotConvertImplicitly (source target : String)
  | expressionMustHaveValue
  | invalidBreakOrContinue (keyword : String)
  | invalidReturn
  | invalidReturnExpression (function : String)
  | missingReturnExpression (type : String)
  | allPathsMustReturn
  | invalidExpressionStatement
  | functionNotGlobal
  | nestingTooDeep (limit : Nat)
deriving DecidableEq, Repr

def Problem.message : Problem → String
  | malformed m => m
  | undefinedVariable n => "Variable '" ++ n ++ "' doesn't exist."
  | variableAlreadyDeclared n => "Variable '" ++ n ++ "' is already declared."
  | readOnlyAssignment n => "Variable '" ++ n ++ "' is read-only and cannot be assigned to."
  | undefinedUnaryOperator o t =>
    "Unary operator '" ++ o ++ "' is not defined for type '" ++ t ++ "'."
  | undefinedBinaryOperator o l r =>
    "Binary operator '" ++ o ++ "' is not defined for types '" ++ l ++ "' and '" ++ r ++ "'."
  | undefinedFunction s => "Function '" ++ s ++ "' doesn't exist."
  | functionAlreadyDeclared s => "Function '" ++ s ++ "' is already declared."
  | parameterAlreadyDeclared n => "A parameter with the name '" ++ n ++ "' already exists."
  | undefinedType n => "Type '" ++ n ++ "' doesn't exist."
  | cannotConvert s t => "Cannot convert type '" ++ s ++ "' to '" ++ t ++ "'."
  | cannotConvertImplicitly s t =>
    "Cannot convert type '" ++ s ++ "' to '" ++ t ++
      "'. An explicit conversion exists (are you missing a cast?)"
  | expressionMustHaveValue => "Expression must have a value."
  | invalidBreakOrContinue k => "The keyword '" ++ k ++ "' can only be used inside of loops."
  | invalidReturn => "The 'return' keyword can only be used inside of functions."
  | invalidReturnExpression f =>
    "Since the function '" ++ f ++
      "' does not return a value the 'return' keyword cannot be followed by an expression."
  | missingReturnExpression t => "An expression of type '" ++ t ++ "' is expected."
  | allPathsMustReturn => "Not all code paths return a value."
  | invalidExpressionStatement =>
    "Only assignment and call expressions can be used as a statement."
  | functionNotGlobal => "Functions can only be declared at the global level."
  | nestingTooDeep l => "Nesting exceeds the maximum depth of " ++ Text.showNat l ++ "."

def Problem.name : Problem → String
  | malformed _ => "Syntax"
  | undefinedVariable _ => "UndefinedVariable"
  | variableAlreadyDeclared _ => "VariableAlreadyDeclared"
  | readOnlyAssignment _ => "ReadOnlyAssignment"
  | undefinedUnaryOperator _ _ => "UndefinedUnaryOperator"
  | undefinedBinaryOperator _ _ _ => "UndefinedBinaryOperator"
  | undefinedFunction _ => "UndefinedFunction"
  | functionAlreadyDeclared _ => "FunctionAlreadyDeclared"
  | parameterAlreadyDeclared _ => "ParameterAlreadyDeclared"
  | undefinedType _ => "UndefinedType"
  | cannotConvert _ _ => "CannotConvert"
  | cannotConvertImplicitly _ _ => "CannotConvertImplicitly"
  | expressionMustHaveValue => "ExpressionMustHaveValue"
  | invalidBreakOrContinue _ => "InvalidBreakOrContinue"
  | invalidReturn => "InvalidReturn"
  | invalidReturnExpression _ => "InvalidReturnExpression"
  | missingReturnExpression _ => "MissingReturnExpression"
  | allPathsMustReturn => "AllPathsMustReturn"
  | invalidExpressionStatement => "InvalidExpressionStatement"
  | functionNotGlobal => "FunctionNotGlobal"
  | nestingTooDeep _ => "NestingTooDeep"

/-- A problem and where it was found. -/
structure Diagnostic where
  span : Span
  problem : Problem
deriving DecidableEq, Repr

/-- File, offset and wording on one line. -/
def Diagnostic.display (d : Diagnostic) : String :=
  d.span.file ++ ":" ++ Text.showNat d.span.start ++ ": " ++ d.problem.message

end Scripting
