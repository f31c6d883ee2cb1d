import Scripting.SyntaxError
import Scripting.Text.Blank
import Scripting.Token.Basic
import Scripting.Token.Reader

/-!
# Reading tokens

`scan` reads one piece from the front of a text: a word, a number, a quoted text, a mark, or a stretch
of blanks or comment that yields no token. `tokenize` repeats it to the end of the script. A piece is
never empty, so what is left gets shorter with every step (`Piece.rest_lt`).
-/

namespace Scripting.Token

/-- Holds of the characters that begin a word. -/
def isWordStart (c : Char) : Bool := c.isAlpha || c == '_'

/-- Holds of the characters inside a word. -/
def isWordPart (c : Char) : Bool := c.isAlphanum || c == '_'

/-- Reads a quoted text behind its opening quote, up to the closing one: the characters between the
quotes as they are written, and what follows. A newline ends the search; a backslash takes the next
character with it. -/
def quotedBody : List Char → Option (List Char × List Char)
  | [] => none
  | '"' :: rest => some ([], rest)
  | '\n' :: _ => none
  | '\\' :: [] => none
  | '\\' :: c :: rest =>
    if c = '\n' then none else (quotedBody rest).map fun (body, r) => ('\\' :: c :: body, r)
  | c :: rest => (quotedBody rest).map fun (body, r) => (c :: body, r)

/-- The text that a quoted body stands for. A backslash that begins no known escape stands for
itself. -/
def unescape : List Char → List Char
  | [] => []
  | '\\' :: 'n' :: rest => '\n' :: unescape rest
  | '\\' :: 't' :: rest => '\t' :: unescape rest
  | '\\' :: 'r' :: rest => '\r' :: unescape rest
  | '\\' :: '\\' :: rest => '\\' :: unescape rest
  | '\\' :: '"' :: rest => '"' :: unescape rest
  | '\\' :: '0' :: rest => '\x00' :: unescape rest
  | c :: rest => c :: unescape rest

/-- The kind of a word: reserved, or a name. -/
def wordKind (word : String) : TokenKind :=
  match Keyword.ofText? word with
  | some k => .keyword k
  | none => .identifier

/-- A piece of a script: the token it yields, if any, as kind and value; the characters it takes up;
and what follows. -/
structure Piece where
  token? : Option (TokenKind × String)
  lexeme : List Char
  rest : List Char

/-- The stretch of characters in a class after `c`, as a piece. -/
def stretch (c : Char) (cs : List Char) (inside : Char → Bool)
    (token? : String → Option (TokenKind × String)) : Piece :=
  let lexeme := c :: cs.takeWhile inside
  ⟨token? (.ofList lexeme), lexeme, cs.dropWhile inside⟩

/-- The first mark in `Punct.all` that begins the text. -/
def scanPunct (cs : List Char) : Option Piece :=
  (Punct.all.find? fun p => p.text.toList.isPrefixOf cs).map fun p =>
    ⟨some (.punct p, p.text), p.text.toList, cs.drop p.text.toList.length⟩

/-- Reads the piece at the front of a text; `none` if no piece begins there. -/
def scan : List Char → Option Piece
  | [] => none
  | c :: cs =>
    if isWordStart c then some (stretch c cs isWordPart fun word => some (wordKind word, word))
    else if c.isDigit then some (stretch c cs Char.isDigit fun ds => some (.number, ds))
    else if Text.isBlank c then some (stretch c cs Text.isBlank fun _ => none)
    else if c = '"' then
      (quotedBody cs).map fun (body, rest) =>
        ⟨some (.text, .ofList (unescape body)), '"' :: (body ++ ['"']), rest⟩
    else if c = '/' ∧ cs.head? = some '/' then some (stretch c cs (· ≠ '\n') fun _ => none)
    else scanPunct (c :: cs)

/-! ## A piece is not empty, and nothing is lost -/

theorem quotedBody_append {cs body rest : List Char} (h : quotedBody cs = some (body, rest)) :
    cs = body ++ '"' :: rest := by
  fun_induction quotedBody cs generalizing body with
  | case1 => simp at h
  | case2 => simp_all
  | case3 => simp at h
  | case4 => simp at h
  | case5 => simp at h
  | case6 c rest' hc ih =>
    obtain ⟨p, hp, he⟩ := Option.map_eq_some_iff.1 h
    obtain ⟨rfl, rfl⟩ := Prod.mk.inj he
    simp [← ih hp]
  | case7 c rest' _ _ _ _ ih =>
    obtain ⟨p, hp, he⟩ := Option.map_eq_some_iff.1 h
    obtain ⟨rfl, rfl⟩ := Prod.mk.inj he
    simp [← ih hp]

theorem text_ne_empty (p : Punct) : p.text ≠ "" := by cases p <;> decide

theorem scanPunct_append {cs : List Char} {p : Piece} (h : scanPunct cs = some p) :
    cs = p.lexeme ++ p.rest ∧ p.lexeme ≠ [] := by
  obtain ⟨q, hq, rfl⟩ := Option.map_eq_some_iff.1 h
  have hpre := List.find?_some hq
  obtain ⟨t, rfl⟩ := List.isPrefixOf_iff_prefix.1 hpre
  simp [text_ne_empty]

theorem stretch_append (c : Char) (cs : List Char) (inside : Char → Bool)
    (token? : String → Option (TokenKind × String)) :
    c :: cs = (stretch c cs inside token?).lexeme ++ (stretch c cs inside token?).rest ∧
      (stretch c cs inside token?).lexeme ≠ [] := by
  simp [stretch]

/-- The characters of a piece and what follows make up the text, and a piece has a character. -/
theorem scan_append {cs : List Char} {p : Piece} (h : scan cs = some p) :
    cs = p.lexeme ++ p.rest ∧ p.lexeme ≠ [] := by
  cases cs with
  | nil => simp [scan] at h
  | cons c cs =>
    simp only [scan] at h
    split at h
    · obtain rfl := Option.some.inj h
      exact stretch_append ..
    split at h
    · obtain rfl := Option.some.inj h
      exact stretch_append ..
    split at h
    · obtain rfl := Option.some.inj h
      exact stretch_append ..
    split at h
    · next hc =>
      obtain ⟨⟨body, rest⟩, hb, rfl⟩ := Option.map_eq_some_iff.1 h
      simp [hc, quotedBody_append hb]
    split at h
    · obtain rfl := Option.some.inj h
      exact stretch_append ..
    · exact scanPunct_append h

theorem scan_rest_lt {cs : List Char} {p : Piece} (h : scan cs = some p) :
    p.rest.length < cs.length := by
  obtain ⟨rfl, hne⟩ := scan_append h
  have := List.length_pos_iff.2 hne
  simp only [List.length_append]
  omega

/-! ## Whole scripts -/

/-- The name of a script that was given none. -/
def defaultFile : String := "shell"

/-- Why no piece begins where `cs` starts. -/
def scanFailure : List Char → SyntaxError.Cause
  | '"' :: _ => .unterminatedText
  | cs => .unrecognised (.ofList (cs.take 1))

/-- The tokens of what is left of a script from a place on. -/
def tokensFrom (place : Place) (cs : List Char) : Except SyntaxError (List Token) :=
  match _h : scan cs with
  | none =>
    if cs.isEmpty then .ok [eof place.file place.position.offset]
    else .error ⟨scanFailure cs, place.position⟩
  | some piece =>
    let length := Text.byteLength piece.lexeme
    let others := tokensFrom (place.advance length) piece.rest
    match piece.token? with
    | none => others
    | some (kind, value) => others.map (⟨kind, value, place.spanOf length⟩ :: ·)
termination_by cs.length
decreasing_by exact scan_rest_lt _h

/-- The tokens of a script, ended by the end-of-file token. -/
def tokenize (source file : String) : Except SyntaxError (List Token) :=
  let start := Reader.ofSource source file
  tokensFrom start.toPlace start.text

end Scripting.Token
