import Scripting.Surface.Cursor
import Scripting.Surface.Grammar
import Scripting.Surface.Tree
import Scripting.Text.Decimal

/-!
# Reading surface trees

Expressions are read by binding power: `expr` reads what a token begins and `extend` keeps adding what
the next token continues, as long as it binds tighter than the power asked for. Statements are read
by the keyword they begin with. Reading stops at the first error.

The mutually recursive readers count down an allowance. Between two tokens they call one another at
most four times, so an allowance of four for each token to come is never used up (`allowance`). What a
reader would report then is a part of the grammar, so that this can be said: it makes no difference.
-/

namespace Scripting.Surface

namespace Reading

/-- A literal or a name. -/
def literal : Reading Expr := do
  let t ← peek
  match t.kind with
  | .number =>
    match Text.readInt32? t.value.toList with
    | some n => let _ ← next; return .number n t.span
    | none => fail fun t => .badNumber t.value
  | .identifier => let _ ← next; return .name ⟨t.value, t.span⟩
  | .text => let _ ← next; return .text t.value t.span
  | .keyword .true_ => let _ ← next; return .boolean true t.span
  | .keyword .false_ => let _ ← next; return .boolean false t.span
  | _ => fail fun t => .unexpected t.value

def typeName : Reading Name := do
  let t ← expectBecause .identifier "expected type name"
  return ⟨t.value, t.span⟩

/-- What the readers do when their allowance is used up. -/
def stuck {α : Type} (g : Grammar) : Reading α := fail g.exhausted

/-! ## Expressions -/

mutual

/-- An expression of operators that bind tighter than `power`. -/
def expr (g : Grammar) (power : Power) : Nat → Reading Expr
  | 0 => stuck g
  | n + 1 => do
    match g.head (← peek).kind with
    | none => fail fun t => .unexpectedBecause t.value "expected expression"
    | some rule => extend g power (← head g rule n) n

/-- What an expression begins with. -/
def head (g : Grammar) (rule : HeadRule) : Nat → Reading Expr
  | 0 => stuck g
  | n + 1 => do
    match rule with
    | .literal => literal
    | .operator =>
      let operator ← next
      let operand ← expr g .unary n
      return .unary operator operand (operator.span.upTo operand.span)
    | .group =>
      let _ ← next
      let e ← expr g .lowest n
      let _ ← expect (.punct .closeParen)
      return e

/-- Adds to `left` what continues it more tightly than `power`. -/
def extend (g : Grammar) (power : Power) (left : Expr) : Nat → Reading Expr
  | 0 => stuck g
  | n + 1 => do
    match g.tail (← peek).kind with
    | none => return left
    | some (own, rule) =>
      if own ≤ power then return left
      else extend g power (← tail g own rule left n) n

/-- Adds one operator or one list of arguments to `left`. An operator keeps what follows at its own
power to its right out, so it groups to the left; an assignment takes everything that follows. -/
def tail (g : Grammar) (own : Power) (rule : TailRule) (left : Expr) : Nat → Reading Expr
  | 0 => stuck g
  | n + 1 => do
    match rule, left with
    | .binary, left =>
      let operator ← next
      let right ← expr g own n
      return .binary left operator right (left.span.upTo right.span)
    | .assign, .name target =>
      let operator ← next
      let value ← expr g .lowest n
      return .assign target operator value (target.span.upTo value.span)
    | .assign, left =>
      let t ← peek
      throw ⟨.unexpectedBecause t.value "only variables can be assigned to", left.span.first⟩
    | .call, .name callee =>
      let _ ← next
      let args ← if (← peek).kind = .punct .closeParen then pure [] else arguments g n
      let _ ← expect (.punct .closeParen)
      return .call callee args (← spanFrom callee.span.start)
    | .call, left =>
      throw ⟨.unexpectedBecause "(" "only named functions can be called", left.span.first⟩

/-- One or more arguments, between commas. -/
def arguments (g : Grammar) : Nat → Reading (List Expr)
  | 0 => stuck g
  | n + 1 => do
    let e ← expr g .lowest n
    if ← accept (.punct .comma) then return e :: (← arguments g n) else return [e]

end

/-! ## Statements -/

def declaration (g : Grammar) (n : Nat) : Reading VariableDecl := do
  let keyword ← next
  let name ← expectBecause .identifier "expected identifier during variable declaration"
  let type? ← if ← accept (.punct .colon) then some <$> typeName else pure none
  let _ ← expectBecause (.punct .assignment) "variables must be initialised"
  let value ← expr g .lowest n
  let _ ← expect (.punct .semicolon)
  return {
    name := ⟨name.value, name.span⟩
    readOnly := keyword.kind = .keyword .let_
    type? := type?
    value := value
    span := ← spanFrom keyword.span.start }

/-- One or more parameters, between commas. -/
def parameters (g : Grammar) : Nat → Reading (List Parameter)
  | 0 => stuck g
  | n + 1 => do
    let name ← expect .identifier
    let _ ← expect (.punct .colon)
    let type ← typeName
    let parameter : Parameter := ⟨name.value, type, ← spanFrom name.span.start⟩
    if ← accept (.punct .comma) then return parameter :: (← parameters g n) else return [parameter]

/-- What a `for` loop does first: a declaration or an expression. -/
def forFirst (g : Grammar) (n : Nat) : Reading Stmt := do
  match (← peek).kind with
  | .keyword .var_ | .keyword .let_ => return .declare (← declaration g n)
  | _ =>
    let e ← expr g .lowest n
    let _ ← expect (.punct .semicolon)
    return .expr e

mutual

def stmt (g : Grammar) : Nat → Reading Stmt
  | 0 => stuck g
  | n + 1 => do
    let t ← peek
    match g.statement t.kind with
    | none =>
      let e ← expr g .lowest n
      if (← peek).kind ≠ .eof then
        let _ ← expect (.punct .semicolon)
      return .expr e
    | some .declare => return .declare (← declaration g n)
    | some .ifElse =>
      let _ ← next
      let condition ← expr g .lowest n
      let thenBody ← stmt g n
      if ← accept (.keyword .else_) then
        let elseBody ← stmt g n
        return .ifElse condition thenBody elseBody (← spanFrom t.span.start)
      else return .ifThen condition thenBody (← spanFrom t.span.start)
    | some .whileLoop =>
      let _ ← next
      let condition ← expr g .lowest n
      let body ← stmt g n
      return .whileLoop condition body (← spanFrom t.span.start)
    | some .doWhile =>
      let _ ← next
      let body ← stmt g n
      let _ ← expect (.keyword .while_)
      let condition ← expr g .lowest n
      let _ ← expect (.punct .semicolon)
      return .doWhile body condition (← spanFrom t.span.start)
    | some .forLoop =>
      let _ ← next
      let _ ← expect (.punct .openParen)
      let first ← forFirst g n
      let condition ← expr g .lowest n
      let _ ← expect (.punct .semicolon)
      let increment ← expr g .lowest n
      let _ ← expect (.punct .closeParen)
      let body ← stmt g n
      return .forLoop first condition increment body (← spanFrom t.span.start)
    | some .breakLoop =>
      let _ ← next
      let _ ← expect (.punct .semicolon)
      return .breakLoop (← spanFrom t.span.start)
    | some .continueLoop =>
      let _ ← next
      let _ ← expect (.punct .semicolon)
      return .continueLoop (← spanFrom t.span.start)
    | some .block =>
      let (body, span) ← block g n
      return .block body span
    | some .function =>
      let _ ← next
      let name ← expect .identifier
      let _ ← expect (.punct .openParen)
      let params ← if (← peek).kind = .punct .closeParen then pure [] else parameters g n
      let _ ← expect (.punct .closeParen)
      let returns? ← if ← accept (.punct .arrow) then some <$> typeName else pure none
      let (body, bodySpan) ← block g n
      let span ← spanFrom t.span.start
      return .function ⟨⟨name.value, name.span⟩, params, returns?, bodySpan, span⟩ body
    | some .returns =>
      let _ ← next
      let value? ←
        if (← peek).kind = .punct .semicolon then pure none else some <$> expr g .lowest n
      let _ ← expect (.punct .semicolon)
      return .returns value? (← spanFrom t.span.start)

/-- Statements in braces, with the span of the braces. -/
def block (g : Grammar) : Nat → Reading (List Stmt × Span)
  | 0 => stuck g
  | n + 1 => do
    let brace ← expect (.punct .openCurly)
    let body ← blockBody g n
    let _ ← expect (.punct .closeCurly)
    return (body, ← spanFrom brace.span.start)

/-- Statements up to a closing brace. -/
def blockBody (g : Grammar) : Nat → Reading (List Stmt)
  | 0 => stuck g
  | n + 1 => do
    let t ← peek
    if t.kind = .punct .closeCurly then return []
    else if t.kind = .eof then
      fail fun t => .unexpectedBecause t.value "expected `\x7d` to close block"
    else
      let s ← stmt g n
      return s :: (← blockBody g n)

end

/-- Statements up to the end of the script. -/
def script (g : Grammar) : Nat → Reading (List Stmt)
  | 0 => stuck g
  | n + 1 => do
    if (← get).hasTokens then
      let s ← stmt g n
      return s :: (← script g n)
    else return []

/-- Enough for the readers to reach the end of the tokens. -/
def allowance (c : Cursor) : Nat := 4 * c.rest.length + 8

/-- A reader with the allowance that the tokens to come call for. -/
def withAllowance {α : Type} (reader : Nat → Reading α) : Reading α := do
  reader (allowance (← get))

end Reading

/-- The script that a list of tokens spells. -/
def parse (tokens : List Token) (file : String) : Except SyntaxError Script :=
  match (Reading.withAllowance (Reading.script .standard)).run (.ofTokens file tokens) with
  | .ok body c => .ok ⟨body, file, 0, c.position.offset⟩
  | .error e _ => .error e

end Scripting.Surface
