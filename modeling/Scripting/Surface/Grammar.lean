import Scripting.SyntaxError
import Scripting.Token.Basic

/-!
# Grammar tables

Which kinds of token begin an expression, which continue one and how tightly they bind, and which
begin a statement. A token without a rule of the first kind begins no expression; one without a rule
of the last kind begins an expression statement.
-/

namespace Scripting.Surface

/-- How tightly an operator binds, the loosest first. -/
inductive Power
  | lowest | assignment | logicalOr | logicalAnd | bitwiseOr | bitwiseXor | bitwiseAnd
  | equality | relational | additive | multiplicative | unary | call | primary
deriving DecidableEq, Repr

/-- The place of a power in their order. -/
def Power.rank : Power → Nat
  | lowest => 0
  | assignment => 1
  | logicalOr => 2
  | logicalAnd => 3
  | bitwiseOr => 4
  | bitwiseXor => 5
  | bitwiseAnd => 6
  | equality => 7
  | relational => 8
  | additive => 9
  | multiplicative => 10
  | unary => 11
  | call => 12
  | primary => 13

instance : LE Power := ⟨fun p q => p.rank ≤ q.rank⟩

instance (p q : Power) : Decidable (p ≤ q) := inferInstanceAs (Decidable (p.rank ≤ q.rank))

/-- How an expression begins. -/
inductive HeadRule
  | literal | operator | group
deriving DecidableEq, Repr

/-- How an expression continues. -/
inductive TailRule
  | binary | assign | call
deriving DecidableEq, Repr

/-- The statements that begin with a token of their own. -/
inductive StatementRule
  | declare | ifElse | whileLoop | doWhile | forLoop | breakLoop | continueLoop | block
  | function | returns
deriving DecidableEq, Repr

/-- The rules for each kind of token, and what a reader reports at a token when its allowance is used
up. -/
structure Grammar where
  head : TokenKind → Option HeadRule
  tail : TokenKind → Option (Power × TailRule)
  statement : TokenKind → Option StatementRule
  exhausted : Token → SyntaxError.Cause

namespace Grammar

/-- The grammar of scripts. -/
def standard : Grammar where
  head
    | .number | .identifier | .text | .keyword .true_ | .keyword .false_ => some .literal
    | .punct .dash | .punct .plus | .punct .not | .punct .tilde => some .operator
    | .punct .openParen => some .group
    | _ => none
  tail
    | .punct p =>
      match p with
      | .assignment | .plusEquals | .minusEquals | .starEquals | .slashEquals | .percentEquals
      | .ampersandEquals | .pipeEquals | .hatEquals => some (.assignment, .assign)
      | .or => some (.logicalOr, .binary)
      | .and => some (.logicalAnd, .binary)
      | .pipe => some (.bitwiseOr, .binary)
      | .hat => some (.bitwiseXor, .binary)
      | .ampersand => some (.bitwiseAnd, .binary)
      | .equals | .notEquals => some (.equality, .binary)
      | .less | .lessEquals | .greater | .greaterEquals => some (.relational, .binary)
      | .plus | .dash => some (.additive, .binary)
      | .star | .slash | .percent => some (.multiplicative, .binary)
      | .openParen => some (.call, .call)
      | _ => none
    | _ => none
  statement
    | .keyword .var_ | .keyword .let_ => some .declare
    | .keyword .if_ => some .ifElse
    | .keyword .while_ => some .whileLoop
    | .keyword .do_ => some .doWhile
    | .keyword .for_ => some .forLoop
    | .keyword .break_ => some .breakLoop
    | .keyword .continue_ => some .continueLoop
    | .punct .openCurly => some .block
    | .keyword .fn_ => some .function
    | .keyword .return_ => some .returns
    | _ => none
  exhausted t := .unexpected t.value

/-- The grammar without rules: no token begins an expression. -/
def bare : Grammar := ⟨fun _ => none, fun _ => none, fun _ => none, standard.exhausted⟩

end Grammar

end Scripting.Surface
