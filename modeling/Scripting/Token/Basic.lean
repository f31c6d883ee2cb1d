import Scripting.Span

/-!
# Tokens

The words and marks a script consists of. Keywords and marks are closed sets with a fixed spelling;
`Punct.all` lists the marks so that a mark comes before every mark that begins it, which makes the
first mark of the list that fits also the longest one.
-/

namespace Scripting

/-- The reserved words. -/
inductive Keyword
  | var_ | let_ | fn_ | return_ | if_ | else_ | while_ | do_ | for_ | break_ | continue_
  | true_ | false_
deriving DecidableEq, Repr

namespace Keyword

def all : List Keyword :=
  [var_, let_, fn_, return_, if_, else_, while_, do_, for_, break_, continue_, true_, false_]

def text : Keyword → String
  | var_ => "var"
  | let_ => "let"
  | fn_ => "fn"
  | return_ => "return"
  | if_ => "if"
  | else_ => "else"
  | while_ => "while"
  | do_ => "do"
  | for_ => "for"
  | break_ => "break"
  | continue_ => "continue"
  | true_ => "true"
  | false_ => "false"

def name : Keyword → String
  | var_ => "Var"
  | let_ => "Let"
  | fn_ => "Fn"
  | return_ => "Return"
  | if_ => "If"
  | else_ => "Else"
  | while_ => "While"
  | do_ => "Do"
  | for_ => "For"
  | break_ => "Break"
  | continue_ => "Continue"
  | true_ => "True"
  | false_ => "False"

def ofText? (s : String) : Option Keyword := all.find? fun k => k.text == s

end Keyword

/-- Operators and punctuation. -/
inductive Punct
  | openCurly | closeCurly | openParen | closeParen
  | assignment | equals | not | notEquals
  | less | lessEquals | greater | greaterEquals
  | or | and | ampersand | pipe | hat | tilde
  | semicolon | colon | comma | arrow
  | plusEquals | minusEquals | starEquals | slashEquals | percentEquals
  | ampersandEquals | pipeEquals | hatEquals
  | plus | dash | slash | star | percent
deriving DecidableEq, Repr

namespace Punct

/-- Every mark, a longer one before the marks that begin it. -/
def all : List Punct :=
  [openCurly, closeCurly, openParen, closeParen, equals, notEquals, not, assignment, lessEquals,
   less, greaterEquals, greater, or, and, pipeEquals, ampersandEquals, hatEquals, pipe, ampersand,
   hat, tilde, semicolon, colon, comma, arrow, plusEquals, minusEquals, starEquals, slashEquals,
   percentEquals, plus, dash, slash, star, percent]

def text : Punct → String
  | openCurly => "\x7b"
  | closeCurly => "\x7d"
  | openParen => "("
  | closeParen => ")"
  | assignment => "="
  | equals => "=="
  | not => "!"
  | notEquals => "!="
  | less => "<"
  | lessEquals => "<="
  | greater => ">"
  | greaterEquals => ">="
  | or => "||"
  | and => "&&"
  | ampersand => "&"
  | pipe => "|"
  | hat => "^"
  | tilde => "~"
  | semicolon => ";"
  | colon => ":"
  | comma => ","
  | arrow => "->"
  | plusEquals => "+="
  | minusEquals => "-="
  | starEquals => "*="
  | slashEquals => "/="
  | percentEquals => "%="
  | ampersandEquals => "&="
  | pipeEquals => "|="
  | hatEquals => "^="
  | plus => "+"
  | dash => "-"
  | slash => "/"
  | star => "*"
  | percent => "%"

def name : Punct → String
  | openCurly => "OpenCurly"
  | closeCurly => "CloseCurly"
  | openParen => "OpenParen"
  | closeParen => "CloseParen"
  | assignment => "Assignment"
  | equals => "Equals"
  | not => "Not"
  | notEquals => "NotEquals"
  | less => "Less"
  | lessEquals => "LessEquals"
  | greater => "Greater"
  | greaterEquals => "GreaterEquals"
  | or => "Or"
  | and => "And"
  | ampersand => "Ampersand"
  | pipe => "Pipe"
  | hat => "Hat"
  | tilde => "Tilde"
  | semicolon => "Semicolon"
  | colon => "Colon"
  | comma => "Comma"
  | arrow => "Arrow"
  | plusEquals => "PlusEquals"
  | minusEquals => "MinusEquals"
  | starEquals => "StarEquals"
  | slashEquals => "SlashEquals"
  | percentEquals => "PercentEquals"
  | ampersandEquals => "AmpersandEquals"
  | pipeEquals => "PipeEquals"
  | hatEquals => "HatEquals"
  | plus => "Plus"
  | dash => "Dash"
  | slash => "Slash"
  | star => "Star"
  | percent => "Percent"

/-- The binary operator inside a compound assignment: `+` for `+=`. -/
def compound? : Punct → Option Punct
  | plusEquals => some plus
  | minusEquals => some dash
  | starEquals => some star
  | slashEquals => some slash
  | percentEquals => some percent
  | ampersandEquals => some ampersand
  | pipeEquals => some pipe
  | hatEquals => some hat
  | _ => none

end Punct

inductive TokenKind
  | eof
  | number
  | text
  | identifier
  | keyword (k : Keyword)
  | punct (p : Punct)
deriving DecidableEq, Repr

namespace TokenKind

def all : List TokenKind :=
  [eof, number, text, identifier] ++ Keyword.all.map keyword ++ Punct.all.map punct

def name : TokenKind → String
  | eof => "EOF"
  | number => "Number"
  | text => "String"
  | identifier => "Identifier"
  | keyword k => k.name
  | punct p => p.name

def ofName? (s : String) : Option TokenKind := all.find? fun k => k.name == s

/-- The spelling of a mark. -/
def text? : TokenKind → Option String
  | punct p => some p.text
  | _ => none

/-- How the kind is shown: a mark by its spelling, any other kind by its name. -/
def display (k : TokenKind) : String := k.text?.getD k.name

/-- The binary operator inside a compound assignment. -/
def compound? : TokenKind → Option Punct
  | punct p => p.compound?
  | _ => none

end TokenKind

/-- A token: its kind, its value and where it stands. The value of a text is the text itself,
without quotes and escapes; the value of any other token is its spelling. -/
structure Token where
  kind : TokenKind
  value : String
  span : Span
deriving DecidableEq, Repr

namespace Token

/-- The token that ends every script. -/
def eof (file : String) (offset : Nat) : Token := ⟨.eof, "EOF", file, offset, offset⟩

/-- Kind and value over three lines. -/
def describe (t : Token) : String :=
  "Token \x7b\nkind: " ++ t.kind.name ++ ",\nvalue: " ++ t.value ++ "\x7d"

end Token

end Scripting
