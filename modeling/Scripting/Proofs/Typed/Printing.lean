import Scripting.Proofs.Surface.Roundtrip
import Scripting.Proofs.Token.Account
import Scripting.Proofs.Typed.Parts
import Scripting.Typed.Render

/-!
# Reading printed expressions

A printed expression is read token by token, although no blanks stand between many of its tokens: what
follows a piece of text is known well enough that no token goes on in it (`Token.Lexes`). The tokens spell
the tree that the typed expression is printed as (`Expr.surface`), where a conversion is a call of its type.
This needs that the nodes can be printed at all (`Expr.Legible`). An error is printed as a mark that no token
begins with, so an expression with an error in it is never read back (`Expr.stops_render`).
-/

namespace Scripting

/-! ## Reading piece by piece -/

namespace Token

/-- In front of whatever may follow them, the characters are read as tokens of the kind. -/
def Lexes (Follow : List Char → Prop) (cs : List Char) (P : List Token → Prop) : Prop :=
  ∀ place rest, Follow rest → ∃ ts, P ts ∧ tokensFrom place (cs ++ rest) =
    (tokensFrom (place.advance (Text.byteLength cs)) rest).map (ts ++ ·)

variable {F G : List Char → Prop} {P Q R : List Token → Prop} {cs ds lexeme rest : List Char}
  {t : TokenKind × String}

theorem Lexes.append (h : Lexes F cs P) (h' : Lexes G ds Q) (hfollow : ∀ rest, G rest → F (ds ++ rest))
    (hR : ∀ us vs, P us → Q vs → R (us ++ vs)) : Lexes G (cs ++ ds) R := by
  intro place rest hrest
  obtain ⟨us, hus, hread⟩ := h place (ds ++ rest) (hfollow rest hrest)
  obtain ⟨vs, hvs, hread'⟩ := h' (place.advance (Text.byteLength cs)) rest hrest
  refine ⟨us ++ vs, hR us vs hus hvs, ?_⟩
  rw [List.append_assoc, hread, hread', Place.advance_advance, Text.byteLength_append]
  cases tokensFrom (place.advance (Text.byteLength cs + Text.byteLength ds)) rest with
  | error e => rfl
  | ok ts => exact congrArg Except.ok (List.append_assoc us vs ts).symm

theorem Lexes.imp (h : Lexes F cs P) (hfollow : ∀ rest, G rest → F rest) (hP : ∀ ts, P ts → Q ts) :
    Lexes G cs Q := by
  intro place rest hrest
  obtain ⟨ts, hts, hread⟩ := h place rest (hfollow rest hrest)
  exact ⟨ts, hP ts hts, hread⟩

theorem Lexes.of_isToken (h : ∀ rest, F rest → IsToken t lexeme rest) :
    Lexes F lexeme fun ts => ∃ u, ts = [u] ∧ u.content = t := by
  intro place rest hrest
  refine ⟨_, ⟨⟨t.1, t.2, place.spanOf (Text.byteLength lexeme)⟩, rfl, rfl⟩, ?_⟩
  exact tokensFrom_of_token (scan_of_isToken (h rest hrest)) place

theorem lexes_nil : Lexes (fun _ => True) [] fun ts => ts = [] := by
  intro place rest _
  refine ⟨[], rfl, ?_⟩
  cases htokens : tokensFrom place rest with
  | error e => exact htokens.symm ▸ htokens
  | ok ts => exact htokens.symm ▸ htokens

theorem lexes_blank : Lexes (fun _ => True) [' '] fun ts => ts = [] := by
  intro place rest _
  refine ⟨[], rfl, ?_⟩
  rw [List.singleton_append, tokensFrom_blank rfl]
  cases tokensFrom (place.advance (Text.byteLength [' '])) rest with
  | error e => rfl
  | ok ts => rfl

/-- A blank, a closing parenthesis or a comma follows, or nothing. -/
def Ends (cs : List Char) : Prop := ∀ c ∈ cs.head?, c ∈ [' ', ')', ',']

/-- Nothing follows that a mark or a comment could go on with. -/
def Clear (cs : List Char) : Prop := ∀ c ∈ cs.head?, c ∉ ['=', '>', '|', '&', '/']

/-- A condition on a few characters is decided for each of them. -/
theorem forall_mem_of_all {cs : List Char} {p : Char → Prop} [DecidablePred p] (h : cs.all (p ·) = true) :
    ∀ c ∈ cs, p c :=
  fun c hc => of_decide_eq_true (List.all_eq_true.1 h c hc)

theorem ends_cons {c : Char} (h : c ∈ [' ', ')', ',']) (cs : List Char) : Ends (c :: cs) := by
  intro d hd
  rwa [← Option.some.inj hd]

theorem clear_cons {c : Char} (h : c ∉ ['=', '>', '|', '&', '/']) (cs : List Char) : Clear (c :: cs) := by
  intro d hd
  rwa [← Option.some.inj hd]

theorem Ends.clear (h : Ends cs) : Clear cs := by
  have hchars : ∀ c ∈ [' ', ')', ','], c ∉ ['=', '>', '|', '&', '/'] := forall_mem_of_all (by decide)
  exact fun c hc => hchars c (h c hc)

theorem Ends.isWordPart (h : Ends cs) : ∀ c ∈ cs.head?, isWordPart c = false := by
  have hchars : ∀ c ∈ [' ', ')', ','], Token.isWordPart c = false := forall_mem_of_all (by decide)
  exact fun c hc => hchars c (h c hc)

theorem Ends.isDigit (h : Ends cs) : ∀ c ∈ cs.head?, c.isDigit = false := by
  have hchars : ∀ c ∈ [' ', ')', ','], c.isDigit = false := forall_mem_of_all (by decide)
  exact fun c hc => hchars c (h c hc)

theorem clear_of_isWord (h : IsWord cs) (rest : List Char) : Clear (cs ++ rest) := by
  cases cs with
  | nil => exact h.elim
  | cons c cs =>
    refine clear_cons (fun hc => ?_) _
    have hchars : ∀ c ∈ ['=', '>', '|', '&', '/'], isWordStart c = false := forall_mem_of_all (by decide)
    rw [IsWord, hchars c hc] at h
    exact absurd h.1 (by decide)

theorem clear_of_isNumber {digits : String} (h : Writable (.number, digits)) (rest : List Char) :
    Clear (digits.toList ++ rest) := by
  obtain ⟨c, cs, hcs⟩ := List.exists_cons_of_ne_nil fun hnil => h.1 (String.toList_eq_nil_iff.1 hnil)
  have hdigit := h.2 c (hcs ▸ List.mem_cons_self)
  rw [hcs]
  refine clear_cons (fun hc => ?_) _
  have hchars : ∀ c ∈ ['=', '>', '|', '&', '/'], c.isDigit = false := forall_mem_of_all (by decide)
  rw [hchars c hc] at hdigit
  cases hdigit

/-- A token that does not begin with a slash begins no comment. -/
theorem not_comment_of_ne {c : Char} (h : c ≠ '/') : ¬ ['/', '/'] <+: c :: cs := by
  rw [comment_iff]
  exact fun hboth => h hboth.1

theorem isToken_word (ht : Writable t) (htext : t.1 ≠ .text) (hword : IsWord t.2.toList)
    (hrest : ∀ c ∈ rest.head?, isWordPart c = false) : IsToken t t.2.toList rest where
  writable := ht
  plain _ := ⟨rfl, (longest_word_iff hword).2 hrest⟩
  quoted h := absurd h htext
  uncommented := by
    cases hcs : t.2.toList with
    | nil => rw [hcs] at hword; exact hword.elim
    | cons c cs =>
      rw [hcs] at hword
      refine not_comment_of_ne ?_
      rintro rfl
      exact absurd hword.1 (by decide)

theorem isToken_number {digits : String} (h : Writable (.number, digits))
    (hrest : ∀ c ∈ rest.head?, c.isDigit = false) : IsToken (.number, digits) digits.toList rest := by
  have hnumber : IsNumber digits.toList := ⟨fun hnil => h.1 (String.toList_eq_nil_iff.1 hnil), h.2⟩
  refine ⟨h, fun _ => ⟨rfl, (longest_number_iff hnumber).2 hrest⟩, fun htext => absurd htext (by simp), ?_⟩
  obtain ⟨c, cs, hcs⟩ := List.exists_cons_of_ne_nil hnumber.1
  have hc := hnumber.2 c (hcs ▸ List.mem_cons_self)
  rw [hcs]
  refine not_comment_of_ne ?_
  rintro rfl
  exact absurd hc (by decide)

/-- Behind its first character a mark has these only. -/
theorem mem_tail_text (p : Punct) : ∀ c ∈ p.text.toList.tail, c ∈ ['=', '>', '|', '&'] := by
  cases p <;> exact forall_mem_of_all (by decide)

theorem isToken_mark (p : Punct) (h : Clear rest) : IsToken (.punct p, p.text) p.text.toList rest := by
  obtain ⟨c, cs, htext, hword, hdigit, -, -, hslash⟩ := text_begins p
  refine ⟨rfl, fun _ => ⟨rfl, ?_⟩, fun hkind => absurd hkind (by simp), ?_⟩
  · intro more hmore hne hlexeme
    obtain ⟨d, more, rfl⟩ := List.exists_cons_of_ne_nil hne
    obtain ⟨back, rfl⟩ := hmore
    rw [htext, List.cons_append] at hlexeme
    obtain ⟨q, hq⟩ := isMark_of_isLexeme hlexeme hword hdigit
    have htail : d ∈ q.text.toList.tail := by
      rw [← hq]
      simp
    have hd := mem_tail_text q d htail
    exact h d rfl (List.mem_append_left ['/'] hd)
  · rw [htext, List.cons_append, comment_iff]
    rintro ⟨-, hhead⟩
    cases cs with
    | nil => exact h '/' hhead (by decide)
    | cons d cs => exact hslash hhead

/-! ## Quoted texts -/

/-- A printable character of ASCII, a newline, a tab, a carriage return or NUL. -/
def isPlain (c : Char) : Bool :=
  (0x20 ≤ c.toNat && c.toNat ≤ 0x7E) || c == '\n' || c == '\t' || c == '\r' || c == '\x00'

theorem quotes_escapeChar {c : Char} (hc : isPlain c = true) {body value : List Char}
    (h : Quotes body value) : Quotes (Text.escapeChar c ++ body) (c :: value) := by
  unfold Text.escapeChar
  split
  · next heq => subst heq; exact .escaped rfl h
  split
  · next heq => subst heq; exact .escaped rfl h
  split
  · next heq => subst heq; exact .escaped rfl h
  split
  · next heq => subst heq; exact .escaped rfl h
  split
  · next heq => subst heq; exact .escaped rfl h
  split
  · next heq => subst heq; exact .escaped rfl h
  next hquote hslash hline htab hreturn hnul =>
  have hprintable : Text.isPrintable c = true := by
    simp only [isPlain, hline, htab, hreturn, hnul, Bool.or_eq_true, Bool.and_eq_true, decide_eq_true_eq,
      beq_iff_eq, or_false] at hc
    unfold Text.isPrintable
    dsimp only
    rw [if_pos (by omega)]
    exact decide_eq_true hc.1
  rw [if_pos hprintable]
  refine .plain ?_ h
  simp [mustEscape, hquote, hslash, hline]

theorem quotes_flatMap (h : ∀ c ∈ cs, isPlain c = true) : Quotes (cs.flatMap Text.escapeChar) cs := by
  induction cs with
  | nil => exact .nil
  | cons c cs ih =>
    obtain ⟨hc, hcs⟩ := List.forall_mem_cons.1 h
    rw [List.flatMap_cons]
    exact quotes_escapeChar hc (ih hcs)

theorem isToken_quote {s : String} (h : ∀ c ∈ s.toList, isPlain c = true) (rest : List Char) :
    IsToken (.text, s) (Text.quote s).toList rest := by
  have hquotes := quotes_flatMap h
  unfold Text.quote
  rw [String.toList_ofList]
  refine ⟨trivial, fun hne => absurd rfl hne, fun _ => ⟨_, ?_, rfl, ?_⟩, not_comment_of_ne (by decide)⟩
  · exact isQuotedBody_of_quotedBody (hquotes.quotedBody rest)
  · rw [hquotes.unescape, String.ofList_toList]

/-! ## Names, operators and parentheses -/

theorem lexes_name {name : String} (h : Writable (.identifier, name)) :
    Lexes (fun rest => ∀ c ∈ rest.head?, isWordPart c = false) name.toList
      fun ts => ∃ u, ts = [u] ∧ u.content = (.identifier, name) :=
  .of_isToken fun _ hrest => isToken_word h (by simp) h.1 hrest

theorem lexes_mark (p : Punct) :
    Lexes Clear p.text.toList fun ts => ∃ u, ts = [u] ∧ u.content = (.punct p, p.text) :=
  .of_isToken fun _ hrest => isToken_mark p hrest

/-- Two pieces with an operator between them, and blanks around it. -/
theorem Lexes.around {p : Punct} (hl : Lexes Ends cs P) (hr : Lexes Ends ds Q)
    (hR : ∀ us u vs, P us → u.content = (.punct p, p.text) → Q vs → R (us ++ u :: vs)) :
    Lexes Ends (cs ++ (' ' :: (p.text.toList ++ ' ' :: ds))) R := by
  have hright : Lexes Ends ([' '] ++ ds) Q :=
    lexes_blank.append hr (fun _ _ => trivial) fun us vs hus hvs => by rwa [hus]
  have hoperator : Lexes Ends (p.text.toList ++ ([' '] ++ ds)) fun ts =>
      ∃ u vs, ts = u :: vs ∧ u.content = (.punct p, p.text) ∧ Q vs := by
    refine (lexes_mark p).append hright (fun rest _ => clear_cons (by decide) _) ?_
    rintro _ vs ⟨u, rfl, hu⟩ hvs
    exact ⟨u, vs, rfl, hu, hvs⟩
  have hspaced : Lexes Ends ([' '] ++ (p.text.toList ++ ([' '] ++ ds))) fun ts =>
      ∃ u vs, ts = u :: vs ∧ u.content = (.punct p, p.text) ∧ Q vs :=
    lexes_blank.append hoperator (fun _ _ => trivial) fun us vs hus hvs => by rwa [hus]
  refine hl.append hspaced (fun rest _ => ends_cons (by decide) _) ?_
  rintro us _ hus ⟨u, vs, rfl, hu, hvs⟩
  exact hR us u vs hus hu hvs

/-- A piece in parentheses. -/
theorem Lexes.enclosed (h : Lexes Ends cs P) (hclear : ∀ rest, Ends rest → Clear (cs ++ rest)) :
    Lexes Ends ('(' :: (cs ++ [')'])) fun ts => ∃ u us v, ts = u :: (us ++ [v]) ∧
      u.kind = .punct .openParen ∧ v.kind = .punct .closeParen ∧ P us := by
  have hclose : Lexes Ends (cs ++ [')']) fun ts => ∃ us v, ts = us ++ [v] ∧
      v.kind = .punct .closeParen ∧ P us := by
    refine h.append ((lexes_mark .closeParen).imp (fun _ => Ends.clear) fun _ => id)
      (fun rest _ => ends_cons (by decide) _) ?_
    rintro us _ hus ⟨v, rfl, hv⟩
    exact ⟨us, v, rfl, congrArg Prod.fst hv, hus⟩
  refine (lexes_mark .openParen).append hclose (fun rest _ => ?_) ?_
  · show Clear (cs ++ [')'] ++ rest)
    rw [List.append_assoc]
    exact hclear _ (ends_cons (by decide) _)
  · rintro _ _ ⟨u, rfl, hu⟩ ⟨us, v, rfl, hv, hus⟩
    exact ⟨u, us, v, rfl, congrArg Prod.fst hu, hv, hus⟩

/-! ## Where reading stops -/

/-- No token begins with a question mark. -/
theorem scan_question (rest : List Char) : scan ('?' :: rest) = none := by
  have hmark : Punct.all.find? (fun p => p.text.toList.isPrefixOf ('?' :: rest)) = none := by
    rw [List.find?_eq_none]
    intro p _ hbegins
    obtain ⟨c, cs, htext, -⟩ := text_begins p
    have hfirst : p.text.toList.head? ≠ some '?' := by cases p <;> decide
    rw [htext] at hbegins hfirst
    obtain ⟨back, hback⟩ := List.isPrefixOf_iff_prefix.1 hbegins
    exact hfirst (congrArg some (List.cons.inj hback).1)
  rw [scan, if_neg (by decide), if_neg (by decide), if_neg (by decide), if_neg (by decide), if_neg (by simp),
    scanPunct, hmark]
  rfl

/-- In front of whatever may follow them, reading does not get past the characters. -/
def Stops (Follow : List Char → Prop) (cs : List Char) : Prop :=
  ∀ place rest, Follow rest → ∃ e, tokensFrom place (cs ++ rest) = .error e

theorem stops_question : Stops F ['?'] := by
  intro place rest _
  rw [List.singleton_append, tokensFrom]
  split
  · exact ⟨_, rfl⟩
  · next hsome => rw [scan_question] at hsome; cases hsome

theorem Stops.before (h : Stops F cs) (hfollow : ∀ rest, G rest → F (ds ++ rest)) : Stops G (cs ++ ds) := by
  intro place rest hrest
  rw [List.append_assoc]
  exact h place (ds ++ rest) (hfollow rest hrest)

theorem Stops.behind (h : Stops G ds) (hcs : Lexes F cs P) (hfollow : ∀ rest, G rest → F (ds ++ rest)) :
    Stops G (cs ++ ds) := by
  intro place rest hrest
  obtain ⟨ts, -, hread⟩ := hcs place (ds ++ rest) (hfollow rest hrest)
  obtain ⟨e, hstop⟩ := h (place.advance (Text.byteLength cs)) rest hrest
  refine ⟨e, ?_⟩
  rw [List.append_assoc, hread, hstop]
  rfl

/-- Reading gets past an operator with blanks around it. -/
theorem Stops.behind_operator (h : Stops Ends ds) (hcs : Lexes Ends cs P) (p : Punct) :
    Stops Ends (cs ++ (' ' :: (p.text.toList ++ ' ' :: ds))) := by
  have hblank : Stops Ends ([' '] ++ ds) := h.behind lexes_blank fun _ _ => trivial
  have hmark : Stops Ends (p.text.toList ++ ([' '] ++ ds)) :=
    hblank.behind (lexes_mark p) fun rest _ => clear_cons (by decide) _
  have hspaced : Stops Ends ([' '] ++ (p.text.toList ++ ([' '] ++ ds))) :=
    hmark.behind lexes_blank fun _ _ => trivial
  exact hspaced.behind hcs fun rest _ => ends_cons (by decide) _

theorem Stops.enclosed (h : Stops Ends cs) (hclear : ∀ rest, Ends rest → Clear (cs ++ rest)) :
    Stops Ends ('(' :: (cs ++ [')'])) := by
  have hclose : Stops Ends (cs ++ [')']) := h.before fun rest _ => ends_cons (by decide) _
  refine hclose.behind (lexes_mark .openParen) fun rest _ => ?_
  show Clear (cs ++ [')'] ++ rest)
  rw [List.append_assoc]
  exact hclear _ (ends_cons (by decide) _)

end Token

/-! ## What is printed -/

/-- The compound assignment with this operator inside. -/
def Punct.compound : Punct → Punct
  | plus => plusEquals
  | dash => minusEquals
  | star => starEquals
  | slash => slashEquals
  | percent => percentEquals
  | ampersand => ampersandEquals
  | pipe => pipeEquals
  | hat => hatEquals
  | p => p

theorem Punct.compound_of_compound? {p mark : Punct} (h : p.compound? = some mark) :
    mark.compound = p ∧ p.text = mark.text ++ "=" ∧
      Surface.Grammar.standard.tail (.punct p) = some (.assignment, .assign) := by
  cases p <;> cases h <;> exact ⟨rfl, by decide, rfl⟩

namespace Typed.Expr

open Surface (Written WrittenAll Grammar)

mutual

/-- The tree that the expression is printed as. -/
def surface (t : SymbolTable) : Expr → Surface.Expr
  | .literal (.int n) => .number n .nowhere
  | .literal (.text s) => .text s .nowhere
  | .literal (.boolean b) => .boolean b .nowhere
  | .name x _ => .name ⟨t.variableName x, .nowhere⟩
  | .assign x e _ =>
    .assign ⟨t.variableName x, .nowhere⟩ (Surface.Expr.mark .assignment) (e.surface t) .nowhere
  | .compound x o e _ =>
    .assign ⟨t.variableName x, .nowhere⟩ (Surface.Expr.mark o.mark.compound) (e.surface t) .nowhere
  | .unary o e => .unary (Surface.Expr.mark o.mark) (e.surface t) .nowhere
  | .binary l o r => .binary (l.surface t) (Surface.Expr.mark o.mark) (r.surface t) .nowhere
  | .convert ty e => .call ⟨ty.name, .nowhere⟩ [e.surface t] .nowhere
  | .call f es _ => .call ⟨t.functionName f, .nowhere⟩ (surfaceList t es) .nowhere
  | .error => .name ⟨"?", .nowhere⟩

def surfaceList (t : SymbolTable) : List Expr → List Surface.Expr
  | [] => []
  | e :: es => e.surface t :: surfaceList t es

end

/-- What is written at the node itself can be read again. -/
def Legible (t : SymbolTable) : Expr → Prop
  | .literal (.int n) => 0 ≤ n.toInt
  | .literal (.text s) => ∀ c ∈ s.toList, Token.isPlain c = true
  | .literal (.boolean _) => True
  | .name x _ | .assign x _ _ => Token.Writable (.identifier, t.variableName x)
  | .compound x o _ _ =>
    Token.Writable (.identifier, t.variableName x) ∧ ∃ p : Punct, p.compound? = some o.mark
  | .unary o _ => o ∈ UnaryOp.all
  | .binary _ o _ => o ∈ BinaryOp.all
  | .convert ty _ => Token.Writable (.identifier, ty.name)
  | .call f _ _ => Token.Writable (.identifier, t.functionName f)
  | .error => False

/-- The expression is put in parentheses as an operand. -/
def isOperation : Expr → Bool
  | .binary .. | .assign .. | .compound .. => true
  | _ => false

theorem toList_parenthesize (e : Expr) (text : String) : (e.parenthesize text).toList =
    if e.isOperation then '(' :: (text.toList ++ [')']) else text.toList := by
  cases e <;> simp [parenthesize, isOperation]

variable {t : SymbolTable}

theorem tail_of_mem {o : BinaryOp} (h : o ∈ BinaryOp.all) :
    ∃ own, Grammar.standard.tail (.punct o.mark) = some (own, .binary) := by
  have hall : ∀ o ∈ BinaryOp.all, ((Grammar.standard.tail (.punct o.mark)).any (·.2 = .binary)) = true := by
    decide
  obtain ⟨⟨own, rule⟩, hrule, heq⟩ := (Option.any_eq_true _ _).1 (hall o h)
  obtain rfl := of_decide_eq_true heq
  exact ⟨own, hrule⟩

theorem head_of_mem {o : UnaryOp} (h : o ∈ UnaryOp.all) :
    Grammar.standard.head (.punct o.mark) = some .operator := by
  revert o
  decide

theorem standsLeft_of_standsBehind {form : Surface.Form} (h : form.standsBehind = true) (own : Surface.Power) :
    form.standsLeft own = true ∧ form.standsRight own = true := by
  cases form with
  | closed | headed => exact ⟨rfl, rfl⟩
  | binary | assignment => cases h

/-- The tokens spell the expression; unless it is put in parentheses as an operand, an operator may stand in
front of them. -/
def SpeltBy (t : SymbolTable) (e : Expr) (ts : List Token) : Prop :=
  ∃ form, Written form (e.surface t) ts ∧ (e.isOperation = false → form.standsBehind = true)

theorem withoutSpan_mark {u : Token} {p : Punct} (h : u.content = (.punct p, p.text)) :
    u.withoutSpan = (Surface.Expr.mark p).withoutSpan :=
  Token.withoutSpan_inj.2 ⟨congrArg Prod.fst h, congrArg Prod.snd h⟩

/-! ## Reading what is printed -/

theorem writable_showInt32 {n : Int32} (h : 0 ≤ n.toInt) :
    Token.Writable (.number, Text.showInt32 n) ∧
      ∃ k, Text.readNat? (Text.showInt32 n).toList = some k ∧ n.toInt = k := by
  obtain ⟨k, hk⟩ := Int.eq_ofNat_of_zero_le h
  have hdigits : (Text.showInt32 n).toList = Text.natDigits k := by
    simp only [Text.showInt32, hk, String.toList_ofList]
    rfl
  refine ⟨⟨fun hempty => ?_, ?_⟩, k, ?_, hk⟩
  · rw [hempty] at hdigits
    exact Nat.toDigits_ne_nil hdigits.symm
  · rw [hdigits]
    exact fun c hc => Nat.isDigit_of_mem_toDigits (by decide) (by decide) hc
  · rw [hdigits]
    exact Text.readNat?_natDigits k

/-- The reserved word for a truth value. -/
def truthWord (b : Bool) : Keyword := if b then .true_ else .false_

theorem render_boolean (b : Bool) : (Expr.literal (.boolean b)).render t = (truthWord b).text := by
  cases b <;> rfl

theorem render_error : (Expr.error.render t).toList = ['?'] := by simp [render]

/-- A printed expression begins with a character that no mark or comment could go on with. -/
theorem clear_render {e : Expr} (h : ∀ p ∈ e.parts, p = .error ∨ p.Legible t) (rest : List Char) :
    Token.Clear ((e.render t).toList ++ rest) := by
  induction e generalizing rest with
  | literal v =>
    have hv := (h _ List.mem_cons_self).resolve_left nofun
    cases v with
    | boolean b =>
      rw [render_boolean]
      exact Token.clear_of_isWord (Token.isWord_text _) rest
    | text s =>
      simp only [render, Text.quote, String.toList_ofList, List.cons_append]
      exact Token.clear_cons (by decide) _
    | int n => exact Token.clear_of_isNumber (writable_showInt32 hv).1 rest
  | name x τ =>
    have hx := (h _ List.mem_cons_self).resolve_left nofun
    exact Token.clear_of_isWord hx.1 rest
  | assign x e τ _ =>
    have hx := (h _ List.mem_cons_self).resolve_left nofun
    simp only [render, String.toList_append, List.append_assoc]
    exact Token.clear_of_isWord hx.1 _
  | compound x o e τ _ =>
    have hx := (h _ List.mem_cons_self).resolve_left nofun
    simp only [render, String.toList_append, List.append_assoc]
    exact Token.clear_of_isWord hx.1.1 _
  | unary o e _ =>
    have hmark : ∀ o ∈ UnaryOp.all, o.mark.text.toList.head? ∈ ['+', '-', '~', '!'].map some := by decide
    have hclear : ∀ c ∈ ['+', '-', '~', '!'], c ∉ ['=', '>', '|', '&', '/'] := Token.forall_mem_of_all (by decide)
    obtain ⟨c, hc, hhead⟩ := List.mem_map.1 (hmark o ((h _ List.mem_cons_self).resolve_left nofun))
    obtain ⟨cs, htext⟩ := List.head?_eq_some_iff.1 hhead.symm
    simp only [render, String.toList_append, htext, List.cons_append]
    exact Token.clear_cons (hclear c hc) _
  | binary l o r hl _ =>
    have hleft := hl fun p hp => h p (.tail _ (List.mem_append_left _ hp))
    simp only [render, String.toList_append, List.append_assoc, toList_parenthesize]
    split
    · exact Token.clear_cons (by decide) _
    · exact hleft _
  | convert ty e _ =>
    have hname := (h _ List.mem_cons_self).resolve_left nofun
    simp only [render, String.toList_append, List.append_assoc]
    exact Token.clear_of_isWord hname.1 _
  | call f es τ _ =>
    have hname := (h _ List.mem_cons_self).resolve_left nofun
    simp only [render, String.toList_append, List.append_assoc]
    exact Token.clear_of_isWord hname.1 _
  | error =>
    rw [render_error]
    exact Token.clear_cons (by decide) rest

theorem clear_operand {e : Expr} (h : ∀ p ∈ e.parts, p = .error ∨ p.Legible t) (rest : List Char) :
    Token.Clear ((e.parenthesize (e.render t)).toList ++ rest) := by
  rw [toList_parenthesize]
  split
  · exact Token.clear_cons (by decide) _
  · exact clear_render h rest

/-- An operand stands in parentheses if it needs them. -/
theorem lexes_operand {e : Expr} (h : ∀ p ∈ e.parts, p.Legible t)
    (hlexes : Token.Lexes Token.Ends (e.render t).toList (e.SpeltBy t)) :
    Token.Lexes Token.Ends (e.parenthesize (e.render t)).toList fun ts =>
      ∃ form, Written form (e.surface t) ts ∧ form.standsBehind = true := by
  rw [toList_parenthesize]
  split
  · refine (hlexes.enclosed fun rest _ => clear_render (fun p hp => .inr (h p hp)) rest).imp (fun _ => id) ?_
    rintro _ ⟨u, us, v, rfl, hu, hv, form, hwritten, -⟩
    exact ⟨.closed, .group hu hv hwritten, rfl⟩
  · next hoperation =>
    refine hlexes.imp (fun _ => id) ?_
    rintro ts ⟨form, hwritten, hbare⟩
    exact ⟨form, hwritten, hbare (Bool.eq_false_iff.2 hoperation)⟩

theorem toList_intercalate_cons (first second : String) (others : List String) :
    (", ".intercalate (first :: second :: others)).toList =
      first.toList ++ (Punct.comma.text.toList ++ ' ' :: (", ".intercalate (second :: others)).toList) := by
  simp [String.toList_intercalate, List.intercalate, Punct.text]

/-- Arguments are printed with commas between them. -/
theorem lexes_arguments {es : List Expr}
    (hlexes : ∀ e ∈ es, Token.Lexes Token.Ends (e.render t).toList (e.SpeltBy t)) :
    Token.Lexes Token.Ends (", ".intercalate (renderList t es)).toList (WrittenAll (surfaceList t es)) := by
  induction es with
  | nil => exact Token.lexes_nil.imp (fun _ _ => trivial) fun ts hts => hts ▸ .nil
  | cons e es ih =>
    obtain ⟨he, hes⟩ := List.forall_mem_cons.1 hlexes
    cases es with
    | nil =>
      refine he.imp (fun _ => id) ?_
      rintro ts ⟨form, hwritten, -⟩
      exact .last hwritten
    | cons e' es =>
      have hblank : Token.Lexes Token.Ends ([' '] ++ (", ".intercalate (renderList t (e' :: es))).toList)
          (WrittenAll (surfaceList t (e' :: es))) :=
        Token.lexes_blank.append (ih hes) (fun _ _ => trivial) fun us vs hus hvs => by rwa [hus]
      have hcomma := (Token.lexes_mark .comma).append hblank (fun rest _ => Token.clear_cons (by decide) _)
        (R := fun ts => ∃ u vs, ts = u :: vs ∧ u.kind = .punct .comma ∧ WrittenAll (surfaceList t (e' :: es)) vs)
        (by
          rintro _ vs ⟨u, rfl, hu⟩ hvs
          exact ⟨u, vs, rfl, congrArg Prod.fst hu, hvs⟩)
      rw [renderList, renderList, toList_intercalate_cons]
      refine he.append hcomma (fun rest _ => Token.ends_cons (c := ',') (by decide) _) ?_
      rintro ts _ ⟨form, hwritten, -⟩ ⟨u, vs, rfl, hu, hvs⟩
      exact .cons hu hwritten hvs

theorem clear_arguments {es : List Expr} (h : ∀ e ∈ es, ∀ p ∈ e.parts, p = .error ∨ p.Legible t)
    {rest : List Char} (hrest : Token.Ends rest) : Token.Clear ((", ".intercalate (renderList t es)).toList ++ rest) := by
  cases es with
  | nil => exact hrest.clear
  | cons e es =>
    have he := h e List.mem_cons_self
    cases es with
    | nil => exact clear_render he rest
    | cons e' es =>
      rw [renderList, renderList, toList_intercalate_cons, List.append_assoc]
      exact clear_render he _

/-- A name with arguments in parentheses. -/
theorem lexes_call {name : String} {arguments : List Char} {es : List Surface.Expr}
    (hname : Token.Writable (.identifier, name)) (h : Token.Lexes Token.Ends arguments (WrittenAll es))
    (hclear : ∀ rest, Token.Ends rest → Token.Clear (arguments ++ rest)) :
    Token.Lexes Token.Ends (name.toList ++ '(' :: (arguments ++ [')'])) fun ts =>
      Written .closed (.call ⟨name, .nowhere⟩ es .nowhere) ts := by
  refine (Token.lexes_name hname).append (h.enclosed hclear) (fun rest _ c hc => ?_) ?_
  · obtain rfl := Option.some.inj hc
    decide
  · rintro _ _ ⟨u, rfl, hu⟩ ⟨v, us, w, rfl, hv, hw, hus⟩
    exact .call hv hw (.name (congrArg Prod.fst hu) (congrArg Prod.snd hu)) hus

/-- A printed expression is read as tokens that spell it. -/
theorem lexes_render {e : Expr} (h : ∀ p ∈ e.parts, p.Legible t) :
    Token.Lexes Token.Ends (e.render t).toList (e.SpeltBy t) := by
  induction e with
  | literal v =>
    have hv := h _ List.mem_cons_self
    cases v with
    | boolean b =>
      rw [render_boolean]
      refine (Token.Lexes.of_isToken (t := (.keyword (truthWord b), (truthWord b).text)) fun rest hrest =>
        Token.isToken_word rfl (by simp) (Token.isWord_text _) (Token.Ends.isWordPart hrest)).imp
        (fun _ => id) ?_
      rintro _ ⟨u, rfl, hu⟩
      cases b with
      | true => exact ⟨.closed, .truth (congrArg Prod.fst hu), fun _ => rfl⟩
      | false => exact ⟨.closed, .falsity (congrArg Prod.fst hu), fun _ => rfl⟩
    | text s =>
      refine (Token.Lexes.of_isToken fun rest _ => Token.isToken_quote hv rest).imp (fun _ => id) ?_
      rintro _ ⟨u, rfl, hu⟩
      exact ⟨.closed, .text (congrArg Prod.fst hu) (congrArg Prod.snd hu), fun _ => rfl⟩
    | int n =>
      obtain ⟨hwritable, k, hdigits, hvalue⟩ := writable_showInt32 hv
      refine (Token.Lexes.of_isToken fun rest hrest =>
        Token.isToken_number hwritable (Token.Ends.isDigit hrest)).imp (fun _ => id) ?_
      rintro _ ⟨u, rfl, hu⟩
      have hdigits : Text.readNat? u.value.toList = some k := by
        rw [show u.value = Text.showInt32 n from congrArg Prod.snd hu, hdigits]
      exact ⟨.closed, .number (congrArg Prod.fst hu) hdigits hvalue, fun _ => rfl⟩
  | name x τ =>
    refine (Token.lexes_name (h _ List.mem_cons_self)).imp (fun _ => Token.Ends.isWordPart) ?_
    rintro _ ⟨u, rfl, hu⟩
    exact ⟨.closed, .name (congrArg Prod.fst hu) (congrArg Prod.snd hu), fun _ => rfl⟩
  | assign x e τ ih =>
    obtain ⟨hx, he⟩ := List.forall_mem_cons.1 h
    have hname := (Token.lexes_name hx).imp (fun _ => Token.Ends.isWordPart) fun _ => id
    have hassign := hname.around (ih he) (p := .assignment) (R := (Expr.assign x e τ).SpeltBy t) (by
      rintro _ u vs ⟨v, rfl, hv⟩ hu ⟨form, hwritten, -⟩
      exact ⟨.assignment, .assign (withoutSpan_mark hu) rfl
        (.name (congrArg Prod.fst hv) (congrArg Prod.snd hv)) hwritten, fun hfalse => by cases hfalse⟩)
    simpa [render, Punct.text] using hassign
  | compound x o e τ ih =>
    obtain ⟨⟨hx, p, hp⟩, he⟩ := List.forall_mem_cons.1 h
    obtain ⟨hmark, htext, hrule⟩ := Punct.compound_of_compound? hp
    have hname := (Token.lexes_name hx).imp (fun _ => Token.Ends.isWordPart) fun _ => id
    have hassign := hname.around (ih he) (p := p) (R := (Expr.compound x o e τ).SpeltBy t) (by
      rintro _ u vs ⟨v, rfl, hv⟩ hu ⟨form, hwritten, -⟩
      refine ⟨.assignment, ?_, fun hfalse => by cases hfalse⟩
      rw [surface, hmark]
      exact .assign (withoutSpan_mark hu) hrule (.name (congrArg Prod.fst hv) (congrArg Prod.snd hv)) hwritten)
    simpa [render, htext] using hassign
  | unary o e ih =>
    obtain ⟨ho, he⟩ := List.forall_mem_cons.1 h
    rw [render, String.toList_append]
    refine (Token.lexes_mark o.mark).append (lexes_operand he (ih he))
      (fun rest _ => clear_operand (fun p hp => .inr (he p hp)) rest) ?_
    rintro _ us ⟨u, rfl, hu⟩ ⟨form, hwritten, hbare⟩
    exact ⟨.headed, .unary (withoutSpan_mark hu) (head_of_mem ho) hwritten hbare, fun _ => rfl⟩
  | binary l o r hl hr =>
    obtain ⟨ho, hparts⟩ := List.forall_mem_cons.1 h
    obtain ⟨hleft, hright⟩ := List.forall_mem_append.1 hparts
    obtain ⟨own, hrule⟩ := tail_of_mem ho
    have hbinary := (lexes_operand hleft (hl hleft)).around (lexes_operand hright (hr hright)) (p := o.mark)
      (R := (Expr.binary l o r).SpeltBy t) (by
      rintro us u vs ⟨left, hus, hleft⟩ hu ⟨right, hvs, hright⟩
      exact ⟨.binary own, .binary (withoutSpan_mark hu) hrule hus (standsLeft_of_standsBehind hleft own).1 hvs
        (standsLeft_of_standsBehind hright own).2, fun hfalse => by cases hfalse⟩)
    simpa [render] using hbinary
  | convert ty e ih =>
    obtain ⟨hname, he⟩ := List.forall_mem_cons.1 h
    have hargument : Token.Lexes Token.Ends (e.render t).toList (WrittenAll [e.surface t]) := by
      refine (ih he).imp (fun _ => id) ?_
      rintro ts ⟨form, hwritten, -⟩
      exact .last hwritten
    have hcall := (lexes_call hname hargument fun rest _ =>
      clear_render (fun p hp => .inr (he p hp)) rest).imp (fun _ => id)
      (Q := (Expr.convert ty e).SpeltBy t) fun ts hts => ⟨.closed, hts, fun _ => rfl⟩
    simpa [render] using hcall
  | call f es τ ih =>
    obtain ⟨hname, hparts⟩ := List.forall_mem_cons.1 h
    rw [partsList_eq_flatMap, List.forall_mem_flatMap] at hparts
    have hcall := (lexes_call hname (lexes_arguments fun e he => ih e he (hparts e he))
      fun rest hrest => clear_arguments (fun e he p hp => .inr (hparts e he p hp)) hrest).imp (fun _ => id)
      (Q := (Expr.call f es τ).SpeltBy t) fun ts hts => ⟨.closed, hts, fun _ => rfl⟩
    simpa [render] using hcall
  | error => exact (h _ List.mem_cons_self).elim

/-! ## Errors in what is printed -/

theorem legible_of_not_mem {e : Expr} (h : ∀ p ∈ e.parts, p = .error ∨ p.Legible t) (herror : .error ∉ e.parts) :
    ∀ p ∈ e.parts, p.Legible t := by
  intro p hp
  refine (h p hp).resolve_left ?_
  rintro rfl
  exact herror hp

theorem stops_operand {e : Expr} (h : ∀ p ∈ e.parts, p = .error ∨ p.Legible t)
    (hstops : Token.Stops Token.Ends (e.render t).toList) :
    Token.Stops Token.Ends (e.parenthesize (e.render t)).toList := by
  rw [toList_parenthesize]
  split
  · exact hstops.enclosed fun rest _ => clear_render h rest
  · exact hstops

/-- Arguments are read up to the first with an error in it. -/
theorem stops_arguments {es : List Expr} (h : ∀ e ∈ es, ∀ p ∈ e.parts, p = .error ∨ p.Legible t)
    (hstops : ∀ e ∈ es, .error ∈ e.parts → Token.Stops Token.Ends (e.render t).toList)
    (herror : ∃ e ∈ es, .error ∈ e.parts) :
    Token.Stops Token.Ends (", ".intercalate (renderList t es)).toList := by
  induction es with
  | nil =>
    obtain ⟨e, he, -⟩ := herror
    cases he
  | cons e es ih =>
    obtain ⟨he, hes⟩ := List.forall_mem_cons.1 h
    obtain ⟨hfirst, hothers⟩ := List.forall_mem_cons.1 hstops
    cases es with
    | nil =>
      obtain ⟨e', he', herror⟩ := herror
      obtain rfl := List.mem_singleton.1 he'
      exact hfirst herror
    | cons e' es =>
      rw [renderList, renderList, toList_intercalate_cons]
      by_cases hfailed : .error ∈ e.parts
      · exact (hfirst hfailed).before fun rest _ => Token.ends_cons (c := ',') (by decide) _
      · obtain ⟨e'', hmem, herror⟩ := herror
        have hlater : ∃ a ∈ e' :: es, .error ∈ a.parts := by
          rcases List.mem_cons.1 hmem with rfl | hmem
          · exact absurd herror hfailed
          · exact ⟨e'', hmem, herror⟩
        have hblank := (ih hes hothers hlater).behind Token.lexes_blank fun _ _ => trivial
        have hcomma := hblank.behind (Token.lexes_mark .comma) fun rest _ => Token.clear_cons (by decide) _
        exact hcomma.behind (lexes_render (legible_of_not_mem he hfailed)) fun rest _ =>
          Token.ends_cons (c := ',') (by decide) _

theorem stops_call {name : String} {arguments : List Char} (hname : Token.Writable (.identifier, name))
    (h : Token.Stops Token.Ends arguments)
    (hclear : ∀ rest, Token.Ends rest → Token.Clear (arguments ++ rest)) :
    Token.Stops Token.Ends (name.toList ++ '(' :: (arguments ++ [')'])) := by
  refine (h.enclosed hclear).behind (Token.lexes_name hname) fun rest _ c hc => ?_
  obtain rfl := Option.some.inj hc
  decide

/-- A printed expression with an error in it cannot be read. -/
theorem stops_render {e : Expr} (h : ∀ p ∈ e.parts, p = .error ∨ p.Legible t) (herror : .error ∈ e.parts) :
    Token.Stops Token.Ends (e.render t).toList := by
  induction e with
  | literal v => exact absurd (List.mem_singleton.1 herror) nofun
  | name x τ => exact absurd (List.mem_singleton.1 herror) nofun
  | assign x e τ ih =>
    obtain ⟨hx, he⟩ := List.forall_mem_cons.1 h
    have hstops := ih he ((List.mem_cons.1 herror).resolve_left nofun)
    have hname := (Token.lexes_name (hx.resolve_left nofun)).imp (fun _ => Token.Ends.isWordPart) fun _ => id
    simpa [render, Punct.text] using hstops.behind_operator hname .assignment
  | compound x o e τ ih =>
    obtain ⟨hx, he⟩ := List.forall_mem_cons.1 h
    obtain ⟨hx, p, hp⟩ := hx.resolve_left nofun
    have hstops := ih he ((List.mem_cons.1 herror).resolve_left nofun)
    have hname := (Token.lexes_name hx).imp (fun _ => Token.Ends.isWordPart) fun _ => id
    simpa [render, (Punct.compound_of_compound? hp).2.1] using hstops.behind_operator hname p
  | unary o e ih =>
    obtain ⟨-, he⟩ := List.forall_mem_cons.1 h
    have hstops := stops_operand he (ih he ((List.mem_cons.1 herror).resolve_left nofun))
    rw [render, String.toList_append]
    exact hstops.behind (Token.lexes_mark o.mark) fun rest _ => clear_operand he rest
  | binary l o r hl hr =>
    obtain ⟨-, hparts⟩ := List.forall_mem_cons.1 h
    obtain ⟨hleft, hright⟩ := List.forall_mem_append.1 hparts
    have herror := List.mem_append.1 ((List.mem_cons.1 herror).resolve_left nofun)
    by_cases hfailed : .error ∈ l.parts
    · let others := o.mark.text.toList ++ ' ' :: (r.parenthesize (r.render t)).toList
      have hfollow : ∀ rest, Token.Ends rest → Token.Ends (' ' :: others ++ rest) := fun rest _ =>
        Token.ends_cons (by decide) _
      simpa [render, others] using (stops_operand hleft (hl hleft hfailed)).before hfollow
    · have hlegible := legible_of_not_mem hleft hfailed
      have hstops := stops_operand hright (hr hright (herror.resolve_left hfailed))
      simpa [render] using hstops.behind_operator (lexes_operand hlegible (lexes_render hlegible)) o.mark
  | convert ty e ih =>
    obtain ⟨hname, he⟩ := List.forall_mem_cons.1 h
    have hstops := ih he ((List.mem_cons.1 herror).resolve_left nofun)
    simpa [render] using stops_call (hname.resolve_left nofun) hstops fun rest _ => clear_render he rest
  | call f es τ ih =>
    obtain ⟨hname, hparts⟩ := List.forall_mem_cons.1 h
    rw [partsList_eq_flatMap, List.forall_mem_flatMap] at hparts
    have hfailed : ∃ e ∈ es, .error ∈ e.parts := by
      have hmem := (List.mem_cons.1 herror).resolve_left nofun
      rwa [partsList_eq_flatMap, List.mem_flatMap] at hmem
    have hstops := stops_arguments hparts (fun e he => ih e he (hparts e he)) hfailed
    simpa [render] using stops_call (hname.resolve_left nofun) hstops fun rest hrest =>
      clear_arguments hparts hrest
  | error =>
    rw [render_error]
    exact Token.stops_question

/-- A printed expression is a script of one expression, the one that it is printed as. -/
theorem read_render {e : Expr} (h : ∀ p ∈ e.parts, p.Legible t) (file : String) :
    ∃ tokens e' span, Token.tokenize (e.render t) file = .ok tokens ∧
      Surface.parse tokens file = .ok ⟨[.expr e'], span⟩ ∧ e'.withoutSpans = (e.surface t).withoutSpans := by
  have hend : Token.Ends [] := fun c hc => by cases hc
  obtain ⟨ts, ⟨form, hwritten, -⟩, hread⟩ := lexes_render h ⟨file, 0⟩ [] hend
  rw [List.append_nil] at hread
  rw [Token.tokensFrom_nil] at hread
  obtain ⟨e', span, hparse, he'⟩ := hwritten.parse_alone (.eof file _) rfl file
  exact ⟨_, e', span, hread, hparse, he'⟩

theorem unreadable_render {e : Expr} (h : ∀ p ∈ e.parts, p = .error ∨ p.Legible t) (herror : .error ∈ e.parts)
    (file : String) : ∃ problem, Token.tokenize (e.render t) file = .error problem := by
  have hend : Token.Ends [] := fun c hc => by cases hc
  obtain ⟨problem, hproblem⟩ := stops_render h herror ⟨file, 0⟩ [] hend
  rw [List.append_nil] at hproblem
  exact ⟨problem, hproblem⟩

end Typed.Expr

end Scripting
