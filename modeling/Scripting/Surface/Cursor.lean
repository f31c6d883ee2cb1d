import Scripting.SyntaxError
import Scripting.Token.Basic

/-!
# Token cursors

A place in a list of tokens, and the elementary readers that look at and consume tokens there. Behind
the last token a cursor keeps showing that token. A reader that fails leaves the cursor where it
failed.
-/

namespace Scripting.Surface

/-- A place between two tokens: the token consumed last, those to come, and the one shown when none is
left. -/
structure Cursor where
  file : String
  previous? : Option Token
  rest : List Token
  last : Token

namespace Cursor

def ofTokens (file : String) (tokens : List Token) : Cursor :=
  ⟨file, none, tokens, tokens.getLastD (.eof file 0)⟩

def current (c : Cursor) : Token := c.rest.headD c.last

/-- Where the token at the cursor begins. -/
def position (c : Cursor) : Position := c.current.span.first

def advance (c : Cursor) : Token × Cursor :=
  match c.rest with
  | t :: ts => (t, { c with previous? := some t, rest := ts })
  | [] => (c.last, { c with previous? := none })

/-- Where the token consumed last ends; the beginning of the script if there is none. -/
def previousEnd (c : Cursor) : Position :=
  match c.previous? with
  | some t => ⟨t.span.file, t.span.stop⟩
  | none => ⟨c.file, 0⟩

/-- From byte `start` to the end of the token consumed last. -/
def spanFrom (c : Cursor) (start : Nat) : Span := ⟨c.file, start, c.previousEnd.offset⟩

/-- Holds until the cursor stands at the end-of-file token. -/
def hasTokens (c : Cursor) : Bool := c.current.kind ≠ .eof

end Cursor

/-- Readers of tokens. -/
abbrev Reading := EStateM SyntaxError Cursor

namespace Reading

def peek : Reading Token := return (← get).current

def next : Reading Token := modifyGet Cursor.advance

/-- Fails at the beginning of the token at the cursor. -/
def fail {α : Type} (cause : Token → SyntaxError.Cause) : Reading α := do
  let c ← get
  throw ⟨cause c.current, c.position⟩

/-- Consumes a token of the given kind, or fails with a cause of the caller's. -/
def expectOr (kind : TokenKind) (cause : Token → SyntaxError.Cause) : Reading Token := do
  if (← peek).kind = kind then next else fail cause

def expect (kind : TokenKind) : Reading Token := expectOr kind fun t => .unexpected t.value

/-- Consumes a token of the given kind, or fails with an explanation. -/
def expectBecause (kind : TokenKind) (message : String) : Reading Token :=
  expectOr kind fun t => .unexpectedBecause t.value message

/-- Consumes a token of the given kind if one is there. -/
def accept (kind : TokenKind) : Reading Bool := do
  if (← peek).kind = kind then
    let _ ← next
    return true
  else return false

/-- From byte `start` to the end of the token consumed last. -/
def spanFrom (start : Nat) : Reading Span := return (← get).spanFrom start

end Reading

end Scripting.Surface
