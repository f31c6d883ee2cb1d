import Mathlib.Data.List.TakeWhile
import Scripting.Token.Scan

/-!
# Tokens as they are written

`Spells t cs` says that the characters `cs` write the token `t`, and `Rendered ts cs` that `cs` writes
the tokens `ts` one after the other, apart from each other by spaces and newlines. A text has many
spellings: between its quotes a tab may stand for itself or be escaped.

Reading undoes writing (`tokenize_rendered`). One lemma per class of token says that `scan` takes the
spelling of a token, no more and no less, where the end of the script or a separator follows
(`Spells.scan`).
-/

namespace Scripting.Token

/-- What a token says, without its place. -/
def content (t : Token) : TokenKind × String := (t.kind, t.value)

/-- Holds of the characters that keep written tokens apart. -/
def isSeparator (c : Char) : Bool := c == ' ' || c == '\n'

/-- The text goes on with a separator, or ends. -/
def Apart (cs : List Char) : Prop := ∀ c ∈ cs.head?, isSeparator c = true

theorem apart_cons {c : Char} (h : isSeparator c = true) (cs : List Char) : Apart (c :: cs) := by
  intro d hd
  obtain rfl := Option.some.inj hd
  exact h

/-! ## Spellings -/

def IsWord : List Char → Prop
  | [] => False
  | c :: cs => isWordStart c = true ∧ ∀ d ∈ cs, isWordPart d = true

/-- The tokens that can be written: a name is no reserved word, and a reserved word or a mark has its
own spelling as value. A text can be anything. -/
def Writable : TokenKind × String → Prop
  | (.eof, _) => False
  | (.number, value) => value ≠ "" ∧ ∀ c ∈ value.toList, c.isDigit = true
  | (.text, _) => True
  | (.identifier, value) => IsWord value.toList ∧ Keyword.ofText? value = none
  | (.keyword k, value) => value = k.text
  | (.punct p, value) => value = p.text

/-- The character that stands behind the backslash for one that can be escaped. -/
def escape? : Char → Option Char
  | '\n' => some 'n'
  | '\t' => some 't'
  | '\r' => some 'r'
  | '\\' => some '\\'
  | '"' => some '"'
  | '\x00' => some '0'
  | _ => none

/-- Holds of the characters that cannot stand for themselves between quotes. -/
def mustEscape (c : Char) : Bool := c == '\\' || c == '"' || c == '\n'

/-- The characters `body` between quotes write the text `value`. -/
inductive Quotes : List Char → List Char → Prop
  | nil : Quotes [] []
  | escaped {c e : Char} {body value : List Char} (escape : escape? c = some e)
      (rest : Quotes body value) : Quotes ('\\' :: e :: body) (c :: value)
  | plain {c : Char} {body value : List Char} (free : mustEscape c = false)
      (rest : Quotes body value) : Quotes (c :: body) (c :: value)

/-- The characters write the token. -/
inductive Spells : TokenKind × String → List Char → Prop
  | plain {kind : TokenKind} {value : String} (kind_ne : kind ≠ .text) :
      Spells (kind, value) value.toList
  | quoted {body value : List Char} (quotes : Quotes body value) :
      Spells (.text, .ofList value) ('"' :: (body ++ ['"']))

/-- The characters write the tokens in turn, each one apart from what follows. -/
inductive Rendered : List (TokenKind × String) → List Char → Prop
  | nil : Rendered [] []
  | separator {c : Char} {ts : List (TokenKind × String)} {rest : List Char}
      (separates : isSeparator c = true) (others : Rendered ts rest) : Rendered ts (c :: rest)
  | token {t : TokenKind × String} {ts : List (TokenKind × String)} {cs rest : List Char}
      (spelling : Spells t cs) (apart : Apart rest) (others : Rendered ts rest) :
      Rendered (t :: ts) (cs ++ rest)

/-! ## Every token can be written -/

theorem exists_quotes (value : List Char) : ∃ body, Quotes body value := by
  induction value with
  | nil => exact ⟨[], .nil⟩
  | cons c value ih =>
    obtain ⟨body, hbody⟩ := ih
    by_cases hc : mustEscape c = true
    · have hescape : ∃ e, escape? c = some e := by
        simp only [mustEscape, Bool.or_eq_true, beq_iff_eq] at hc
        obtain (rfl | rfl) | rfl := hc
        all_goals exact ⟨_, rfl⟩
      obtain ⟨e, he⟩ := hescape
      exact ⟨_, .escaped he hbody⟩
    · exact ⟨_, .plain (Bool.eq_false_iff.2 hc) hbody⟩

theorem exists_spells (t : TokenKind × String) : ∃ cs, Spells t cs := by
  obtain ⟨kind, value⟩ := t
  by_cases hkind : kind = .text
  · obtain ⟨body, hbody⟩ := exists_quotes value.toList
    have h : Spells (.text, .ofList value.toList) ('"' :: (body ++ ['"'])) := .quoted hbody
    rw [String.ofList_toList] at h
    exact ⟨_, hkind ▸ h⟩
  · exact ⟨_, .plain hkind⟩

theorem exists_rendered (ts : List (TokenKind × String)) : ∃ cs, Rendered ts cs := by
  induction ts with
  | nil => exact ⟨[], .nil⟩
  | cons t ts ih =>
    obtain ⟨cs, hcs⟩ := exists_spells t
    obtain ⟨rest, hrest⟩ := ih
    exact ⟨cs ++ ' ' :: rest, .token hcs (apart_cons rfl _) (.separator rfl hrest)⟩

/-! ## Classes of characters -/

theorem isBlank_of_isSeparator {c : Char} (h : isSeparator c = true) : Text.isBlank c = true := by
  simp only [isSeparator, Bool.or_eq_true, beq_iff_eq] at h
  obtain rfl | rfl := h <;> decide

theorem isWordPart_of_isSeparator {c : Char} (h : isSeparator c = true) : isWordPart c = false := by
  simp only [isSeparator, Bool.or_eq_true, beq_iff_eq] at h
  obtain rfl | rfl := h <;> decide

theorem isDigit_of_isSeparator {c : Char} (h : isSeparator c = true) : c.isDigit = false := by
  simp only [isSeparator, Bool.or_eq_true, beq_iff_eq] at h
  obtain rfl | rfl := h <;> decide

theorem isDigit_iff_toNat {c : Char} : c.isDigit = true ↔ 48 ≤ c.toNat ∧ c.toNat ≤ 57 :=
  Bool.and_eq_true_iff.trans (and_congr decide_eq_true_iff decide_eq_true_iff)

theorem isWordStart_iff_toNat {c : Char} :
    isWordStart c = true ↔
      (65 ≤ c.toNat ∧ c.toNat ≤ 90) ∨ (97 ≤ c.toNat ∧ c.toNat ≤ 122) ∨ c.toNat = 95 := by
  have hupper : c.isUpper = true ↔ 65 ≤ c.toNat ∧ c.toNat ≤ 90 := decide_eq_true_iff
  have hlower : c.isLower = true ↔ 97 ≤ c.toNat ∧ c.toNat ≤ 122 :=
    Bool.and_eq_true_iff.trans (and_congr decide_eq_true_iff decide_eq_true_iff)
  have hscore : c = '_' ↔ c.toNat = 95 := by rw [← Char.toNat_inj]; rfl
  show (c.isUpper || c.isLower || c == '_') = true ↔ _
  rw [Bool.or_eq_true, Bool.or_eq_true, hupper, hlower, beq_iff_eq, hscore, or_assoc]

theorem not_isWordStart_of_isDigit {c : Char} (h : c.isDigit = true) : ¬ isWordStart c = true := by
  rw [isDigit_iff_toNat] at h
  rw [isWordStart_iff_toNat]
  omega

theorem not_isWordStart_of_isBlank {c : Char} (h : Text.isBlank c = true) :
    ¬ isWordStart c = true := by
  simp only [Text.isBlank, Bool.or_eq_true, Bool.and_eq_true, decide_eq_true_eq, beq_iff_eq] at h
  rw [isWordStart_iff_toNat]
  omega

theorem not_isDigit_of_isBlank {c : Char} (h : Text.isBlank c = true) : ¬ c.isDigit = true := by
  simp only [Text.isBlank, Bool.or_eq_true, Bool.and_eq_true, decide_eq_true_eq, beq_iff_eq] at h
  rw [isDigit_iff_toNat]
  omega

/-! ## Words and numbers -/

/-- A stretch ends where the text goes on outside its class. -/
theorem stretch_of_forall {c : Char} {cs rest : List Char} {inside : Char → Bool}
    (hinside : ∀ d ∈ cs, inside d = true) (hrest : ∀ d ∈ rest.head?, inside d = false)
    (token? : String → Option (TokenKind × String)) :
    stretch c (cs ++ rest) inside token? = ⟨token? (.ofList (c :: cs)), c :: cs, rest⟩ := by
  have hnil : rest.takeWhile inside = [] ∧ rest.dropWhile inside = rest := by
    cases rest with
    | nil => exact ⟨rfl, rfl⟩
    | cons d rest =>
      have hd : ¬ inside d = true := by rw [hrest d rfl]; decide
      exact ⟨List.takeWhile_cons_of_neg hd, List.dropWhile_cons_of_neg hd⟩
  simp only [stretch, List.takeWhile_append_of_pos hinside, List.dropWhile_append_of_pos hinside,
    hnil.1, hnil.2, List.append_nil]

theorem scan_word {cs rest : List Char} (hword : IsWord cs)
    (hrest : ∀ d ∈ rest.head?, isWordPart d = false) :
    scan (cs ++ rest) = some ⟨some (wordKind (.ofList cs), .ofList cs), cs, rest⟩ := by
  cases cs with
  | nil => exact hword.elim
  | cons c cs => rw [List.cons_append, scan, if_pos hword.1, stretch_of_forall hword.2 hrest]

theorem scan_digits {c : Char} {cs rest : List Char} (hc : c.isDigit = true)
    (hcs : ∀ d ∈ cs, d.isDigit = true) (hrest : ∀ d ∈ rest.head?, d.isDigit = false) :
    scan (c :: cs ++ rest) = some ⟨some (.number, .ofList (c :: cs)), c :: cs, rest⟩ := by
  rw [List.cons_append, scan, if_neg (not_isWordStart_of_isDigit hc), if_pos hc,
    stretch_of_forall hcs hrest]

theorem isWord_text (k : Keyword) : IsWord k.text.toList := by
  cases k <;> exact ⟨by decide, List.all_eq_true.1 (by decide)⟩

theorem wordKind_text (k : Keyword) : wordKind k.text = .keyword k := by
  cases k <;> decide

/-! ## Quoted texts -/

/-- An escape is read back as the character it was made for. -/
theorem unescape_of_escape {c e : Char} (h : escape? c = some e) (cs : List Char) :
    e ≠ '\n' ∧ unescape ('\\' :: e :: cs) = c :: unescape cs := by
  unfold escape? at h
  split at h
  case h_7 => cases h
  all_goals
    obtain rfl := Option.some.inj h
    exact ⟨by decide, rfl⟩

theorem ne_of_mustEscape {c : Char} (h : mustEscape c = false) : c ≠ '\\' ∧ c ≠ '"' ∧ c ≠ '\n' := by
  simpa [mustEscape, and_assoc] using h

/-- The search for the closing quote steps over every character of the text. -/
theorem Quotes.quotedBody {body value : List Char} (h : Quotes body value) (rest : List Char) :
    quotedBody (body ++ '"' :: rest) = some (body, rest) := by
  induction h with
  | nil => rfl
  | escaped escape _ ih =>
    have hne := (unescape_of_escape escape []).1
    simp only [List.cons_append, Token.quotedBody, if_neg hne, ih, Option.map_some]
  | plain free _ ih =>
    obtain ⟨hslash, hquote, hline⟩ := ne_of_mustEscape free
    simp [Token.quotedBody, ih, hslash]

theorem Quotes.unescape {body value : List Char} (h : Quotes body value) : unescape body = value := by
  induction h with
  | nil => rfl
  | escaped escape _ ih => rw [(unescape_of_escape escape _).2, ih]
  | plain free _ ih =>
    obtain ⟨hslash, -, -⟩ := ne_of_mustEscape free
    simp [Token.unescape, ih, hslash]

theorem scan_quotedBody {body rest : List Char} (h : quotedBody (body ++ '"' :: rest) = some (body, rest)) :
    scan ('"' :: (body ++ ['"']) ++ rest) =
      some ⟨some (.text, .ofList (unescape body)), '"' :: (body ++ ['"']), rest⟩ := by
  have hbody : quotedBody (body ++ ['"'] ++ rest) = some (body, rest) := by
    rw [List.append_assoc]
    exact h
  rw [List.cons_append, scan, if_neg (by decide), if_neg (by decide), if_neg (by decide), if_pos rfl,
    hbody, Option.map_some]

theorem scan_quoted {body value : List Char} (h : Quotes body value) (rest : List Char) :
    scan ('"' :: (body ++ ['"']) ++ rest) =
      some ⟨some (.text, .ofList value), '"' :: (body ++ ['"']), rest⟩ := by
  rw [scan_quotedBody (h.quotedBody rest), h.unescape]

/-! ## Marks -/

/-- Of the marks that begin a mark, the first one is the mark itself. -/
theorem find?_text (p : Punct) :
    Punct.all.find? (fun q => q.text.toList.isPrefixOf p.text.toList) = some p := by
  cases p <;> decide

/-- No mark is mistaken for another class of token, and none begins a comment. -/
theorem text_begins (p : Punct) :
    ∃ c cs, p.text.toList = c :: cs ∧ ¬ isWordStart c = true ∧ ¬ c.isDigit = true ∧
      ¬ Text.isBlank c = true ∧ c ≠ '"' ∧ cs.head? ≠ some '/' := by
  cases p <;> exact ⟨_, _, rfl, by decide⟩

theorem not_isSeparator_of_mem_text (p : Punct) {c : Char} (hc : c ∈ p.text.toList) :
    ¬ isSeparator c = true := by
  have hall : p.text.toList.all (! isSeparator ·) = true := by cases p <;> decide
  simpa using List.all_eq_true.1 hall c hc

/-- What begins a text and does not hold the character `d` begins what is in front of `d`. -/
theorem prefix_of_prefix_append_cons {d : Char} {xs cs rest : List Char} (hd : d ∉ xs)
    (h : xs <+: cs ++ d :: rest) : xs <+: cs := by
  -- what goes beyond `cs` would hold `d`
  have hthrough : cs ++ [d] <+: cs ++ d :: rest := ⟨rest, by simp⟩
  have hlong : ¬ cs ++ [d] <+: xs := fun hle => hd (hle.subset (by simp))
  obtain hle | hle := List.prefix_or_prefix_of_prefix h hthrough
  · obtain heq | hle := List.prefix_concat_iff.1 hle
    · exact absurd ⟨[], by rw [heq, List.append_nil]⟩ hlong
    · exact hle
  · exact absurd hle hlong

/-- In front of a separator, a mark begins the text only if it begins what is in front of it. -/
theorem isPrefixOf_append (q : Punct) {cs rest : List Char} (hrest : Apart rest) :
    q.text.toList.isPrefixOf (cs ++ rest) = q.text.toList.isPrefixOf cs := by
  cases rest with
  | nil => rw [List.append_nil]
  | cons d rest =>
    have hd : d ∉ q.text.toList := fun hmem => not_isSeparator_of_mem_text q hmem (hrest d rfl)
    rw [Bool.eq_iff_iff, List.isPrefixOf_iff_prefix, List.isPrefixOf_iff_prefix]
    exact ⟨prefix_of_prefix_append_cons hd, fun h => h.trans (List.prefix_append ..)⟩

/-- Two slashes begin a comment. -/
theorem comment_iff {c : Char} {cs : List Char} :
    ['/', '/'] <+: c :: cs ↔ c = '/' ∧ cs.head? = some '/' := by
  rw [List.cons_prefix_cons]
  refine and_congr eq_comm ?_
  cases cs with
  | nil => simp
  | cons d cs => simp [List.cons_prefix_cons, eq_comm]

/-- The first mark that begins a text is read, unless a comment begins there. -/
theorem scan_mark (p : Punct) {rest : List Char}
    (hfirst : Punct.all.find? (fun q => q.text.toList.isPrefixOf (p.text.toList ++ rest)) = some p)
    (hcomment : ¬ ['/', '/'] <+: p.text.toList ++ rest) :
    scan (p.text.toList ++ rest) = some ⟨some (.punct p, p.text), p.text.toList, rest⟩ := by
  have hpunct : scanPunct (p.text.toList ++ rest) =
      some ⟨some (.punct p, p.text), p.text.toList, rest⟩ := by
    simp only [scanPunct, hfirst, Option.map_some, List.drop_left]
  obtain ⟨c, cs, htext, hword, hdigit, hblank, hquote, -⟩ := text_begins p
  rw [htext, List.cons_append] at hpunct hcomment ⊢
  rw [comment_iff] at hcomment
  rw [scan, if_neg hword, if_neg hdigit, if_neg hblank, if_neg hquote, if_neg hcomment, hpunct]

/-- In front of a separator, no mark begins a comment. -/
theorem not_comment_of_apart (p : Punct) {rest : List Char} (hrest : Apart rest) :
    ¬ ['/', '/'] <+: p.text.toList ++ rest := by
  obtain ⟨c, cs, htext, -, -, -, -, hslash⟩ := text_begins p
  rw [htext, List.cons_append, comment_iff]
  rintro ⟨-, hhead⟩
  cases cs with
  | nil => exact absurd (hrest _ hhead) (by decide)
  | cons d cs => exact hslash hhead

/-! ## Whole texts -/

/-- Where the end or a separator follows, the spelling of a token is read as that token. -/
theorem Spells.scan {t : TokenKind × String} {cs rest : List Char} (h : Spells t cs)
    (ht : Writable t) (hrest : Apart rest) : scan (cs ++ rest) = some ⟨some t, cs, rest⟩ := by
  cases h with
  | quoted quotes => exact scan_quoted quotes rest
  | @plain kind value kind_ne =>
    cases kind with
    | eof => exact ht.elim
    | text => exact absurd rfl kind_ne
    | number =>
      obtain ⟨hne, hdigits⟩ := ht
      cases hcs : value.toList with
      | nil => exact absurd (String.toList_eq_nil_iff.1 hcs) hne
      | cons c cs =>
        rw [hcs] at hdigits
        rw [scan_digits (hdigits c (List.mem_cons_self ..)) (fun d hd => hdigits d (.tail _ hd))
          (fun d hd => isDigit_of_isSeparator (hrest d hd)), ← hcs, String.ofList_toList]
    | identifier =>
      obtain ⟨hword, hfree⟩ := ht
      rw [scan_word hword (fun d hd => isWordPart_of_isSeparator (hrest d hd)), String.ofList_toList,
        wordKind, hfree]
    | keyword k =>
      obtain rfl := ht
      rw [scan_word (isWord_text k) (fun d hd => isWordPart_of_isSeparator (hrest d hd)),
        String.ofList_toList, wordKind_text]
    | punct p =>
      obtain rfl := ht
      refine scan_mark p ?_ (not_comment_of_apart p hrest)
      simp only [isPrefixOf_append _ hrest, find?_text]

theorem scan_blank {c : Char} (h : Text.isBlank c = true) (cs : List Char) :
    scan (c :: cs) = some ⟨none, c :: cs.takeWhile Text.isBlank, cs.dropWhile Text.isBlank⟩ := by
  rw [scan, if_neg (not_isWordStart_of_isBlank h), if_neg (not_isDigit_of_isBlank h), if_pos h]
  rfl

theorem tokenize_eq (source file : String) : tokenize source file = tokensFrom ⟨file, 0⟩ source.toList := rfl

theorem tokensFrom_nil (place : Place) : tokensFrom place [] = .ok [eof place.file place.position.offset] := by
  rw [tokensFrom]
  rfl

theorem tokensFrom_of_skip {cs lexeme rest : List Char} (h : scan cs = some ⟨none, lexeme, rest⟩)
    (place : Place) : tokensFrom place cs = tokensFrom (place.advance (Text.byteLength lexeme)) rest := by
  rw [tokensFrom]
  split
  · next hnone => rw [h] at hnone; cases hnone
  · next hsome =>
    obtain rfl := Option.some.inj (h.symm.trans hsome)
    rfl

theorem tokensFrom_of_token {t : TokenKind × String} {cs lexeme rest : List Char}
    (h : scan cs = some ⟨some t, lexeme, rest⟩) (place : Place) :
    tokensFrom place cs =
      (tokensFrom (place.advance (Text.byteLength lexeme)) rest).map
        (⟨t.1, t.2, place.spanOf (Text.byteLength lexeme)⟩ :: ·) := by
  rw [tokensFrom]
  split
  · next hnone => rw [h] at hnone; cases hnone
  · next hsome =>
    obtain rfl := Option.some.inj (h.symm.trans hsome)
    rfl

theorem tokensFrom_of_stop {cs : List Char} (h : scan cs = none) (hne : cs ≠ []) (place : Place) :
    tokensFrom place cs = .error ⟨scanFailure cs, place.position⟩ := by
  rw [tokensFrom]
  split
  · rw [if_neg (by simpa using hne)]
  · next hsome => rw [h] at hsome; cases hsome

@[simp] theorem Place.advance_advance (place : Place) (m n : Nat) :
    (place.advance m).advance n = place.advance (m + n) := by
  unfold Place.advance
  rw [Nat.add_assoc]

/-- A blank in front of a text moves its tokens, and nothing else. -/
theorem tokensFrom_blank {c : Char} (h : Text.isBlank c = true) (place : Place) (cs : List Char) :
    tokensFrom place (c :: cs) = tokensFrom (place.advance (Text.byteLength [c])) cs := by
  rw [tokensFrom_of_skip (scan_blank h cs)]
  cases cs with
  | nil => rfl
  | cons d cs =>
    by_cases hd : Text.isBlank d = true
    · -- both texts lose the same stretch of blanks
      rw [tokensFrom_of_skip (scan_blank hd cs)]
      simp only [List.takeWhile_cons_of_pos hd, List.dropWhile_cons_of_pos hd, Place.advance_advance,
        Text.byteLength_cons, Text.byteLength_nil, Nat.add_zero]
    · rw [List.takeWhile_cons_of_neg hd, List.dropWhile_cons_of_neg hd]

theorem tokensFrom_blanks {bs : List Char} (h : ∀ c ∈ bs, Text.isBlank c = true) (place : Place) (cs : List Char) :
    tokensFrom place (bs ++ cs) = tokensFrom (place.advance (Text.byteLength bs)) cs := by
  induction bs generalizing place with
  | nil => rfl
  | cons b bs ih =>
    obtain ⟨hb, hbs⟩ := List.forall_mem_cons.1 h
    rw [List.cons_append, tokensFrom_blank hb, ih hbs, Place.advance_advance]
    rfl

/-- What is written is read, wherever it stands in a script. -/
theorem Rendered.tokensFrom {ts : List (TokenKind × String)} {cs : List Char} (h : Rendered ts cs)
    (hts : ∀ t ∈ ts, Writable t) (place : Place) :
    ∃ read, tokensFrom place cs = .ok read ∧ read.map content = ts ++ [(.eof, "EOF")] := by
  induction h generalizing place with
  | nil => exact ⟨_, tokensFrom_nil place, rfl⟩
  | separator separates _ ih =>
    rw [tokensFrom_blank (isBlank_of_isSeparator separates)]
    exact ih hts _
  | @token t ts cs rest spelling apart _ ih =>
    obtain ⟨ht, hts⟩ := List.forall_mem_cons.1 hts
    obtain ⟨read, hread, hcontent⟩ := ih hts (place.advance (Text.byteLength cs))
    rw [tokensFrom_of_token (spelling.scan ht apart), hread]
    exact ⟨_, rfl, congrArg (t :: ·) hcontent⟩

/-- Every list of tokens that can be written has a rendering, and reading any rendering of it succeeds
with just these kinds and values, and the end of the script behind them. -/
theorem tokenize_rendered (ts : List (TokenKind × String)) (hts : ∀ t ∈ ts, Writable t) :
    (∃ source : String, Rendered ts source.toList) ∧
      ∀ source file : String, Rendered ts source.toList →
        ∃ read, tokenize source file = .ok read ∧ read.map content = ts ++ [(.eof, "EOF")] := by
  constructor
  · obtain ⟨cs, hcs⟩ := exists_rendered ts
    exact ⟨.ofList cs, by rwa [String.toList_ofList]⟩
  · intro source file h
    exact h.tokensFrom hts ⟨file, 0⟩

/-- A name that begins with a reserved word, two slashes that are no comment, and a text whose quote
and backslash are escaped and whose tab is not. -/
theorem separated_slashes_are_marks :
    ∃ read, tokenize "iffy / /\n\"\\\"\t\\\\\"" "shell" = .ok read ∧ read.map content =
      [(.identifier, "iffy"), (.punct .slash, "/"), (.punct .slash, "/"), (.text, "\"\t\\"),
        (.eof, "EOF")] := by
  have hrendered : Rendered
      [(.identifier, "iffy"), (.punct .slash, "/"), (.punct .slash, "/"),
        (.text, .ofList ['"', '\t', '\\'])]
      ("iffy".toList ++ ' ' :: ("/".toList ++ ' ' :: ("/".toList ++ '\n' ::
        ('"' :: (['\\', '"', '\t', '\\', '\\'] ++ ['"']) ++ [])))) :=
    .token (.plain (by decide)) (apart_cons rfl _) <| .separator rfl <|
    .token (.plain (by decide)) (apart_cons rfl _) <| .separator rfl <|
    .token (.plain (by decide)) (apart_cons rfl _) <| .separator rfl <|
    .token (.quoted (.escaped rfl (.plain rfl (.escaped rfl .nil)))) nofun .nil
  have hwritable : ∀ t ∈ [(TokenKind.identifier, "iffy"), (.punct .slash, "/"), (.punct .slash, "/"),
      (.text, .ofList ['"', '\t', '\\'])], Writable t := by
    simp only [List.forall_mem_cons]
    exact ⟨⟨⟨rfl, List.all_eq_true.1 (by decide)⟩, by decide⟩, rfl, rfl, trivial, nofun⟩
  exact (tokenize_rendered _ hwritable).2 _ "shell" hrendered

end Scripting.Token
