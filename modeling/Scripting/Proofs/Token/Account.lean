import Scripting.Proofs.Surface.Consumption
import Scripting.Proofs.Text.Trimming
import Scripting.Proofs.Token.Placement
import Scripting.Proofs.Token.Rendering

/-!
# Tokens account for the script

What a script may consist of is said here of its characters alone: words, numbers and marks (`IsLexeme`),
quoted texts (`IsQuotedBody`), blanks and comments (`IsGap`). The scanner reads a token exactly where one
stands that nothing longer begins (`scan_of_isToken`, `isToken_of_scan`), skips exactly blanks and comments
(`scan_of_isGap`, `isGap_of_scan`), and gives up only where nothing begins (`nothingBegins_of_scan`).

`Cut` is what reading leaves behind: tokens and gaps one after the other, up to some place in the script. The
offsets of these tokens are exact; the tokens that are read are these as they are recorded (`Token.recorded`),
which makes no difference below `offsetBound`. From a cut follows by induction what is known of the tokens up to
the place (`Accounts`).
-/

namespace Scripting

/-- The span takes up the characters `lexeme` of the text, and `rest` follows. -/
def Span.Marks (text : List Char) (s : Span) (lexeme rest : List Char) : Prop :=
  ∃ front, text = front ++ (lexeme ++ rest) ∧ Text.byteLength front = s.start ∧
    Text.byteLength (front ++ lexeme) = s.stop

theorem Text.byteLength_pos {cs : List Char} (h : cs ≠ []) : 0 < Text.byteLength cs := by
  obtain ⟨c, cs, rfl⟩ := List.exists_cons_of_ne_nil h
  exact Nat.add_pos_left c.utf8Size_pos _

theorem Span.Marks.within {text lexeme rest : List Char} {s : Span}
    (h : s.Marks text lexeme rest) : s.Within text := by
  obtain ⟨front, htext, hstart, hstop⟩ := h
  refine Span.within_of_boundary ⟨front, _, htext, hstart⟩ ⟨front ++ lexeme, rest, ?_, hstop⟩ ?_
  · rw [htext, List.append_assoc]
  · rw [← hstart, ← hstop, Text.byteLength_append]
    exact Nat.le_add_right ..

namespace Token

/-! ## What may stand in a script -/

def IsNumber (cs : List Char) : Prop := cs ≠ [] ∧ ∀ c ∈ cs, c.isDigit = true

def IsMark (cs : List Char) : Prop := ∃ p : Punct, cs = p.text.toList

def IsLexeme (cs : List Char) : Prop := IsWord cs ∨ IsNumber cs ∨ IsMark cs

/-- What may stand between quotes: no quote, backslash or newline, but a backslash may take any other
character than a newline with it. -/
inductive IsQuotedBody : List Char → Prop
  | nil : IsQuotedBody []
  | escape {c : Char} {cs : List Char} (hc : c ≠ '\n') (h : IsQuotedBody cs) : IsQuotedBody ('\\' :: c :: cs)
  | plain {c : Char} {cs : List Char} (hslash : c ≠ '\\') (hquote : c ≠ '"') (hline : c ≠ '\n')
      (h : IsQuotedBody cs) : IsQuotedBody (c :: cs)

/-- Two slashes and what follows them up to the end of the line. -/
def IsComment (cs rest : List Char) : Prop :=
  ∃ body, cs = '/' :: '/' :: body ∧ '\n' ∉ body ∧ ∀ c ∈ rest.head?, c = '\n'

/-- All the blanks at some place, or a comment. -/
def IsGap (cs rest : List Char) : Prop :=
  (cs ≠ [] ∧ (∀ c ∈ cs, Text.isBlank c = true) ∧ ∀ c ∈ rest.head?, Text.isBlank c = false) ∨
    IsComment cs rest

/-- No more of what follows makes a longer word, number or mark. -/
def Longest (cs rest : List Char) : Prop := ∀ more, more <+: rest → more ≠ [] → ¬ IsLexeme (cs ++ more)

/-- The characters spell the token, and are the longest that do so in front of `rest`. A text stands
between quotes; its value is without them and without escapes. -/
structure IsToken (t : TokenKind × String) (cs rest : List Char) : Prop where
  writable : Writable t
  plain : t.1 ≠ .text → cs = t.2.toList ∧ Longest cs rest
  quoted : t.1 = .text → ∃ body, IsQuotedBody body ∧ cs = '"' :: (body ++ ['"']) ∧
    t.2 = .ofList (unescape body)
  uncommented : ¬ ['/', '/'] <+: cs ++ rest

/-- Neither a token nor blanks nor a comment begin here. -/
structure NothingBegins (cs : List Char) : Prop where
  nonempty : cs ≠ []
  lexeme : ∀ front, front <+: cs → ¬ IsLexeme front
  quoted : ∀ body, '"' :: (body ++ ['"']) <+: cs → ¬ IsQuotedBody body
  gap : ∀ front rest, cs = front ++ rest → ¬ IsGap front rest

/-! ## Words, numbers and marks -/

variable {cs lexeme rest : List Char} {t : TokenKind × String}

theorem isWordPart_of_isWordStart {c : Char} (h : isWordStart c = true) : isWordPart c = true := by
  unfold isWordStart at h
  unfold isWordPart Char.isAlphanum
  simp only [Bool.or_eq_true] at h ⊢
  exact h.imp_left .inl

theorem isWordPart_of_isWord {c : Char} (h : IsWord cs) (hc : c ∈ cs) : isWordPart c = true := by
  cases cs with
  | nil => cases hc
  | cons d cs =>
    rcases List.mem_cons.1 hc with rfl | hc
    · exact isWordPart_of_isWordStart h.1
    · exact h.2 c hc

theorem isWord_append_singleton {c : Char} (h : IsWord cs) (hc : isWordPart c = true) :
    IsWord (cs ++ [c]) := by
  cases cs with
  | nil => exact h.elim
  | cons d cs => exact ⟨h.1, List.forall_mem_append.2 ⟨h.2, List.forall_mem_singleton.2 hc⟩⟩

/-- A word is told by its first character. -/
theorem isWord_of_isLexeme {c : Char} (h : IsLexeme (c :: cs)) (hc : isWordStart c = true) :
    IsWord (c :: cs) := by
  rcases h with h | h | ⟨p, hp⟩
  · exact h
  · exact absurd hc (not_isWordStart_of_isDigit (h.2 c List.mem_cons_self))
  · obtain ⟨d, ds, htext, hword, -⟩ := text_begins p
    obtain ⟨rfl, -⟩ := List.cons.inj (hp.trans htext)
    exact absurd hc hword

/-- So is a number. -/
theorem isNumber_of_isLexeme {c : Char} (h : IsLexeme (c :: cs)) (hc : c.isDigit = true) :
    IsNumber (c :: cs) := by
  rcases h with h | h | ⟨p, hp⟩
  · exact absurd h.1 (not_isWordStart_of_isDigit hc)
  · exact h
  · obtain ⟨d, ds, htext, -, hdigit, -⟩ := text_begins p
    obtain ⟨rfl, -⟩ := List.cons.inj (hp.trans htext)
    exact absurd hc hdigit

theorem isMark_of_isLexeme {c : Char} (h : IsLexeme (c :: cs)) (hword : ¬ isWordStart c = true)
    (hdigit : ¬ c.isDigit = true) : IsMark (c :: cs) := by
  rcases h with h | h | h
  · exact absurd h.1 hword
  · exact absurd (h.2 c List.mem_cons_self) hdigit
  · exact h

/-- A word is the longest lexeme exactly if no part of a word follows it. -/
theorem longest_word_iff (h : IsWord cs) :
    Longest cs rest ↔ ∀ c ∈ rest.head?, isWordPart c = false := by
  constructor
  · intro hlongest c hc
    obtain ⟨back, rfl⟩ := List.head?_eq_some_iff.1 hc
    by_contra hpart
    refine hlongest [c] ⟨back, rfl⟩ (List.cons_ne_nil c []) (.inl ?_)
    exact isWord_append_singleton h (Bool.not_eq_false _ ▸ hpart)
  · intro hrest more hmore hne hlexeme
    cases cs with
    | nil => exact h
    | cons c cs =>
      have hword := isWord_of_isLexeme hlexeme h.1
      obtain ⟨d, ds, rfl⟩ := List.exists_cons_of_ne_nil hne
      obtain ⟨back, rfl⟩ := hmore
      have hpart := isWordPart_of_isWord (c := d) hword (by simp)
      rw [hrest d rfl] at hpart
      cases hpart

/-- A number is the longest lexeme exactly if no digit follows it. -/
theorem longest_number_iff (h : IsNumber cs) :
    Longest cs rest ↔ ∀ c ∈ rest.head?, c.isDigit = false := by
  constructor
  · intro hlongest c hc
    obtain ⟨back, rfl⟩ := List.head?_eq_some_iff.1 hc
    by_contra hdigit
    refine hlongest [c] ⟨back, rfl⟩ (List.cons_ne_nil c []) (.inr (.inl ⟨by simp, ?_⟩))
    exact List.forall_mem_append.2 ⟨h.2, List.forall_mem_singleton.2 (Bool.not_eq_false _ ▸ hdigit)⟩
  · intro hrest more hmore hne hlexeme
    obtain ⟨c, cs, rfl⟩ := List.exists_cons_of_ne_nil h.1
    have hnumber := isNumber_of_isLexeme hlexeme (h.2 c List.mem_cons_self)
    obtain ⟨d, ds, rfl⟩ := List.exists_cons_of_ne_nil hne
    obtain ⟨back, rfl⟩ := hmore
    have hdigit := hnumber.2 d (by simp)
    rw [hrest d rfl] at hdigit
    cases hdigit

/-- Of two elements found first, by predicates that hold of both, each is the other. -/
theorem eq_of_find?_eq_some {α : Type} {P Q : α → Bool} {as : List α} {a b : α} (ha : as.find? P = some a)
    (hb : as.find? Q = some b) (hab : P b = true) (hba : Q a = true) : a = b := by
  induction as with
  | nil => cases ha
  | cons c as ih =>
    rw [List.find?_cons] at ha hb
    cases hP : P c with
    | true =>
      rw [hP] at ha
      cases ha
      rw [hba] at hb
      exact Option.some.inj hb
    | false =>
      rw [hP] at ha
      cases hQ : Q c with
      | true =>
        rw [hQ] at hb
        cases hb
        rw [hP] at hab
        cases hab
      | false =>
        rw [hQ] at hb
        exact ih ha hb

/-- A mark is the longest lexeme exactly if it is the first in the list of marks that fits. -/
theorem longest_mark_iff (p : Punct) : Longest p.text.toList rest ↔
    Punct.all.find? (fun q => q.text.toList.isPrefixOf (p.text.toList ++ rest)) = some p := by
  have hself : p.text.toList.isPrefixOf (p.text.toList ++ rest) = true :=
    List.isPrefixOf_iff_prefix.2 (List.prefix_append ..)
  constructor
  · intro hlongest
    cases hfind : Punct.all.find? (fun q => q.text.toList.isPrefixOf (p.text.toList ++ rest)) with
    | none =>
      exact absurd hself (List.find?_eq_none.1 hfind p (List.mem_of_find?_eq_some (find?_text p)))
    | some q =>
      have hq := List.find?_some hfind
      -- the first one is no longer than `p`, so it begins `p`; but `p` comes before what begins it
      have hle : q.text.toList <+: p.text.toList := by
        replace hq := List.isPrefixOf_iff_prefix.1 hq
        rcases List.prefix_or_prefix_of_prefix hq (List.prefix_append ..) with h | ⟨more, hmore⟩
        · exact h
        · rw [← hmore, List.prefix_append_right_inj] at hq
          by_cases hne : more = []
          · have hsame : q.text.toList = p.text.toList := by rw [← hmore, hne, List.append_nil]
            exact hsame ▸ List.prefix_refl _
          · exact absurd (.inr (.inr ⟨q, hmore⟩)) (hlongest more hq hne)
      rw [eq_of_find?_eq_some hfind (find?_text p) hself (List.isPrefixOf_iff_prefix.2 hle)]
  · intro hfind more hmore hne hlexeme
    obtain ⟨c, cs, htext, hword, hdigit, -⟩ := text_begins p
    rw [htext, List.cons_append] at hlexeme
    obtain ⟨q, hq⟩ := isMark_of_isLexeme hlexeme hword hdigit
    rw [← List.cons_append, ← htext] at hq
    have hfits : q.text.toList.isPrefixOf (p.text.toList ++ rest) = true := by
      rw [List.isPrefixOf_iff_prefix, ← hq, List.prefix_append_right_inj]
      exact hmore
    have hbegins : p.text.toList.isPrefixOf q.text.toList = true := by
      rw [List.isPrefixOf_iff_prefix, ← hq]
      exact List.prefix_append ..
    obtain rfl := eq_of_find?_eq_some hfind (find?_text q) hfits hbegins
    exact hne (List.append_right_eq_self.1 hq)

/-! ## Quoted texts -/

theorem IsQuotedBody.quotedBody {body : List Char} (h : IsQuotedBody body) (rest : List Char) :
    quotedBody (body ++ '"' :: rest) = some (body, rest) := by
  induction h with
  | nil => rfl
  | escape hc _ ih => simp only [List.cons_append, Token.quotedBody, if_neg hc, ih, Option.map_some]
  | plain hslash hquote hline _ ih => simp [Token.quotedBody, ih, hslash]

theorem isQuotedBody_of_quotedBody {body : List Char} (h : quotedBody cs = some (body, rest)) :
    IsQuotedBody body := by
  fun_induction Token.quotedBody cs generalizing body with
  | case1 => cases h
  | case2 => cases h; exact .nil
  | case3 => cases h
  | case4 => cases h
  | case5 => cases h
  | case6 c cs hc ih =>
    obtain ⟨r, hr, heq⟩ := Option.map_eq_some_iff.1 h
    obtain ⟨rfl, rfl⟩ := Prod.mk.inj heq
    exact .escape hc (ih hr)
  | case7 c cs hquote hline hend hslash ih =>
    obtain ⟨r, hr, heq⟩ := Option.map_eq_some_iff.1 h
    obtain ⟨rfl, rfl⟩ := Prod.mk.inj heq
    have hplain : c ≠ '\\' := by
      intro hc
      cases cs with
      | nil => exact hend hc rfl
      | cons d ds => exact hslash d ds hc rfl
    exact .plain hplain hquote hline (ih hr)

/-! ## Tokens -/

/-- Where a token stands, it is read. -/
theorem scan_of_isToken (h : IsToken t lexeme rest) :
    scan (lexeme ++ rest) = some ⟨some t, lexeme, rest⟩ := by
  obtain ⟨kind, value⟩ := t
  obtain ⟨hwritable, hplain, hquoted, hcomment⟩ := h
  cases kind with
  | eof => exact hwritable.elim
  | text =>
    obtain ⟨body, hbody, rfl, hvalue⟩ := hquoted rfl
    rw [scan_quotedBody (hbody.quotedBody rest), ← hvalue]
  | number =>
    obtain ⟨rfl, hlongest⟩ := hplain (by simp)
    have hnumber : IsNumber value.toList :=
      ⟨fun hnil => hwritable.1 (String.toList_eq_nil_iff.1 hnil), hwritable.2⟩
    rw [longest_number_iff hnumber] at hlongest
    cases hcs : value.toList with
    | nil => exact absurd hcs hnumber.1
    | cons c cs =>
      have hdigits := hnumber.2
      rw [hcs] at hdigits
      rw [scan_digits (hdigits c List.mem_cons_self) (fun d hd => hdigits d (.tail _ hd)) hlongest, ← hcs,
        String.ofList_toList]
  | identifier =>
    obtain ⟨rfl, hlongest⟩ := hplain (by simp)
    obtain ⟨hword, hfree⟩ := hwritable
    rw [scan_word hword ((longest_word_iff hword).1 hlongest), String.ofList_toList, wordKind, hfree]
  | keyword k =>
    obtain ⟨rfl, hlongest⟩ := hplain (by simp)
    obtain rfl := hwritable
    rw [scan_word (isWord_text k) ((longest_word_iff (isWord_text k)).1 hlongest), String.ofList_toList,
      wordKind_text]
  | punct p =>
    obtain ⟨rfl, hlongest⟩ := hplain (by simp)
    obtain rfl := hwritable
    exact scan_mark p ((longest_mark_iff p).1 hlongest) hcomment

theorem writable_word (h : IsWord cs) : Writable (wordKind (.ofList cs), .ofList cs) := by
  unfold wordKind
  cases hfind : Keyword.ofText? (.ofList cs) with
  | none => exact ⟨by rwa [String.toList_ofList], hfind⟩
  | some k =>
    have htext := List.find?_some hfind
    exact (beq_iff_eq.1 htext).symm

theorem wordKind_ne_text (word : String) : wordKind word ≠ .text := by
  unfold wordKind
  split <;> intro h <;> cases h

/-- What is read as a token is one. -/
theorem isToken_of_scan (h : scan cs = some ⟨some t, lexeme, rest⟩) : IsToken t lexeme rest := by
  cases cs with
  | nil => cases h
  | cons c cs =>
    have happend : c :: cs = lexeme ++ rest := (scan_append h).1
    have huncommented : (c = '/' → cs.head? ≠ some '/') → ¬ ['/', '/'] <+: lexeme ++ rest := by
      intro hslash
      rw [← happend, comment_iff]
      exact fun hboth => hslash hboth.1 hboth.2
    rw [scan] at h
    split at h
    · next hc =>
      cases h
      have hword : IsWord (c :: cs.takeWhile isWordPart) := ⟨hc, fun _ hd => List.mem_takeWhile_imp hd⟩
      refine ⟨writable_word hword, fun _ => ⟨String.toList_ofList.symm, ?_⟩,
        fun htext => absurd htext (wordKind_ne_text _), huncommented ?_⟩
      · exact (longest_word_iff hword).2 (Text.head?_dropWhile cs)
      · rintro rfl
        exact absurd hc (by decide)
    split at h
    · next hc =>
      cases h
      have hnumber : IsNumber (c :: cs.takeWhile Char.isDigit) :=
        ⟨List.cons_ne_nil _ _, List.forall_mem_cons.2 ⟨hc, fun _ hd => List.mem_takeWhile_imp hd⟩⟩
      refine ⟨⟨?_, ?_⟩, fun _ => ⟨String.toList_ofList.symm, ?_⟩, fun htext => absurd htext (by simp),
        huncommented ?_⟩
      · simp
      · rw [String.toList_ofList]
        exact hnumber.2
      · exact (longest_number_iff hnumber).2 (Text.head?_dropWhile cs)
      · rintro rfl
        exact absurd hc (by decide)
    split at h
    · cases h
    split at h
    · next hc =>
      obtain ⟨⟨body, back⟩, hbody, hpiece⟩ := Option.map_eq_some_iff.1 h
      cases hpiece
      refine ⟨trivial, fun hne => absurd rfl hne, fun _ => ⟨body, isQuotedBody_of_quotedBody hbody, rfl, rfl⟩,
        huncommented ?_⟩
      rintro rfl
      exact absurd hc (by decide)
    split at h
    · cases h
    · next hcomment =>
      obtain ⟨p, hfind, hpiece⟩ := Option.map_eq_some_iff.1 h
      cases hpiece
      refine ⟨rfl, fun _ => ⟨rfl, ?_⟩, fun htext => absurd htext (by simp),
        huncommented fun hslash hhead => hcomment ⟨hslash, hhead⟩⟩
      rw [longest_mark_iff, ← happend]
      exact hfind

/-! ## Blanks and comments -/

/-- Blanks and comments are skipped whole. -/
theorem scan_of_isGap (h : IsGap lexeme rest) : scan (lexeme ++ rest) = some ⟨none, lexeme, rest⟩ := by
  rcases h with ⟨hne, hblank, hrest⟩ | ⟨body, rfl, hbody, hrest⟩
  · obtain ⟨c, cs, rfl⟩ := List.exists_cons_of_ne_nil hne
    obtain ⟨hc, hcs⟩ := List.forall_mem_cons.1 hblank
    rw [List.cons_append, scan, if_neg (not_isWordStart_of_isBlank hc), if_neg (not_isDigit_of_isBlank hc),
      if_pos hc, stretch_of_forall hcs hrest]
  · have hinside : ∀ d ∈ '/' :: body, decide (d ≠ '\n') = true := by
      refine List.forall_mem_cons.2 ⟨by decide, fun d hd => decide_eq_true ?_⟩
      rintro rfl
      exact hbody hd
    have houtside : ∀ d ∈ rest.head?, decide (d ≠ '\n') = false := fun d hd =>
      decide_eq_false (not_not_intro (hrest d hd))
    rw [List.cons_append, scan, if_neg (by decide), if_neg (by decide), if_neg (by decide),
      if_neg (by decide), if_pos ⟨rfl, rfl⟩, stretch_of_forall hinside houtside]

/-- What is skipped is all the blanks there are, or a comment. -/
theorem isGap_of_scan (h : scan cs = some ⟨none, lexeme, rest⟩) : IsGap lexeme rest := by
  cases cs with
  | nil => cases h
  | cons c cs =>
    rw [scan] at h
    split at h
    · cases h
    split at h
    · cases h
    split at h
    · next hc =>
      cases h
      exact .inl ⟨List.cons_ne_nil _ _, List.forall_mem_cons.2 ⟨hc, fun _ hd => List.mem_takeWhile_imp hd⟩,
        Text.head?_dropWhile cs⟩
    split at h
    · obtain ⟨_, _, hpiece⟩ := Option.map_eq_some_iff.1 h
      cases hpiece
    split at h
    · next hcomment =>
      obtain ⟨rfl, hhead⟩ := hcomment
      obtain ⟨body, rfl⟩ := List.head?_eq_some_iff.1 hhead
      cases h
      refine .inr ⟨body.takeWhile (· ≠ '\n'), rfl, fun hmem => ?_, fun c hc => ?_⟩
      · exact absurd (List.mem_takeWhile_imp hmem) (by decide)
      · have hline := Text.head?_dropWhile _ c hc
        simpa using hline
    · obtain ⟨_, _, hpiece⟩ := Option.map_eq_some_iff.1 h
      cases hpiece

/-! ## Where nothing begins -/

theorem scan_ne_none_of_isLexeme (h : IsLexeme lexeme) (rest : List Char) : scan (lexeme ++ rest) ≠ none := by
  cases lexeme with
  | nil =>
    rcases h with h | h | ⟨p, hp⟩
    · exact h.elim
    · exact absurd rfl h.1
    · exact absurd (String.toList_eq_nil_iff.1 hp.symm) (text_ne_empty p)
  | cons c cs =>
    rw [List.cons_append, scan]
    split
    · exact Option.some_ne_none _
    split
    · exact Option.some_ne_none _
    next hword hdigit =>
    obtain ⟨p, hp⟩ := isMark_of_isLexeme h hword hdigit
    obtain ⟨d, ds, htext, -, -, hblank, hquote, -⟩ := text_begins p
    obtain ⟨rfl, rfl⟩ := List.cons.inj (hp.trans htext)
    rw [if_neg hblank, if_neg hquote]
    split
    · exact Option.some_ne_none _
    · intro hnone
      have hfind := Option.map_eq_none_iff.1 hnone
      refine List.find?_eq_none.1 hfind p (List.mem_of_find?_eq_some (find?_text p)) ?_
      rw [List.isPrefixOf_iff_prefix, ← hp, ← List.cons_append]
      exact List.prefix_append ..

/-- Where the scanner gives up, nothing that belongs in a script begins. -/
theorem nothingBegins_of_scan (h : scan cs = none) (hne : cs ≠ []) : NothingBegins cs where
  nonempty := hne
  lexeme := by
    rintro front ⟨rest, rfl⟩ hlexeme
    exact scan_ne_none_of_isLexeme hlexeme rest h
  quoted := by
    rintro body ⟨rest, rfl⟩ hbody
    have hscan := scan_quotedBody (hbody.quotedBody rest)
    rw [h] at hscan
    cases hscan
  gap := by
    rintro front rest rfl hgap
    have hscan := scan_of_isGap hgap
    rw [h] at hscan
    cases hscan

/-! ## Reading up to some place -/

theorem IsToken.ne_nil (h : IsToken t lexeme rest) : lexeme ≠ [] :=
  (scan_append (scan_of_isToken h)).2

theorem IsToken.kind_ne_eof (h : IsToken t lexeme rest) : t.1 ≠ .eof := by
  obtain ⟨kind, value⟩ := t
  rintro rfl
  exact h.writable

def recorded (t : Token) : Token := { t with span := t.span.recorded }

/-- Tokens and gaps stand one after the other in the text `front` from a place on, in front of `back`. -/
inductive Cut (back : List Char) : Place → List Char → List Token → Prop
  | here (place : Place) : Cut back place [] []
  | gap {place : Place} {lexeme front : List Char} {us : List Token} (stands : IsGap lexeme (front ++ back))
      (next : Cut back (place.advance (Text.byteLength lexeme)) front us) : Cut back place (lexeme ++ front) us
  | token {place : Place} {t : TokenKind × String} {lexeme front : List Char} {us : List Token}
      (stands : IsToken t lexeme (front ++ back))
      (next : Cut back (place.advance (Text.byteLength lexeme)) front us) :
      Cut back place (lexeme ++ front)
        (⟨t.1, t.2, place.file, place.offset, place.offset + Text.byteLength lexeme⟩ :: us)

variable {place : Place} {front back : List Char} {us : List Token}

theorem IsToken.truncate (h : IsToken t lexeme (front ++ back)) : IsToken t lexeme front where
  writable := h.writable
  plain hkind := (h.plain hkind).imp_right fun hlongest more hmore =>
    hlongest more (hmore.trans (List.prefix_append ..))
  quoted := h.quoted
  uncommented hcomment := h.uncommented
    (hcomment.trans (List.append_assoc lexeme front back ▸ List.prefix_append ..))

theorem IsGap.truncate (h : IsGap lexeme (front ++ back)) : IsGap lexeme front := by
  have hhead : ∀ c ∈ front.head?, c ∈ (front ++ back).head? := fun c hc => by
    rw [List.head?_append, hc]
    rfl
  rcases h with ⟨hne, hblank, hrest⟩ | ⟨body, rfl, hbody, hrest⟩
  · exact .inl ⟨hne, hblank, fun c hc => hrest c (hhead c hc)⟩
  · exact .inr ⟨body, rfl, hbody, fun c hc => hrest c (hhead c hc)⟩

/-- What stands in front of some place stands there as well if the text ends at that place. -/
theorem Cut.truncate (h : Cut back place front us) : Cut [] place front us := by
  induction h with
  | here place => exact .here place
  | gap stands _ ih => exact .gap (List.append_nil _ ▸ stands.truncate) ih
  | token stands _ ih => exact .token (List.append_nil _ ▸ stands.truncate) ih

/-- What is cut to the end is read. -/
theorem Cut.tokensFrom (h : Cut [] place front us) : Token.tokensFrom place front =
    .ok ((us ++ [eof place.file (place.offset + Text.byteLength front)]).map recorded) := by
  induction h with
  | here place => exact tokensFrom_nil place
  | gap stands _ ih =>
    rw [List.append_nil] at stands
    rw [tokensFrom_of_skip (scan_of_isGap stands), ih, Text.byteLength_append, ← Nat.add_assoc]
    rfl
  | token stands _ ih =>
    rw [List.append_nil] at stands
    rw [tokensFrom_of_token (scan_of_isToken stands), ih, Text.byteLength_append, ← Nat.add_assoc]
    rfl

/-- Reading cuts the text up to a place where the scanner stops: its end, or the position of the error. -/
theorem exists_cut (place : Place) (cs : List Char) : ∃ front back us, cs = front ++ back ∧
    Cut back place front us ∧ scan back = none ∧
      (back ≠ [] → tokensFrom place cs =
        .error ⟨scanFailure back, (place.advance (Text.byteLength front)).position⟩) := by
  cases hscan : scan cs with
  | none =>
    refine ⟨[], cs, [], rfl, .here place, hscan, fun hne => ?_⟩
    rw [tokensFrom_of_stop hscan hne]
    rfl
  | some piece =>
    obtain ⟨token?, lexeme, rest⟩ := piece
    obtain ⟨front, back, us, hrest, hcut, hback, herror⟩ :=
      exists_cut (place.advance (Text.byteLength lexeme)) rest
    have happend : cs = lexeme ++ front ++ back := by
      rw [(scan_append hscan).1, hrest, List.append_assoc]
    rw [Place.advance_advance, ← Text.byteLength_append] at herror
    cases token? with
    | none =>
      refine ⟨lexeme ++ front, back, us, happend, .gap (hrest ▸ isGap_of_scan hscan) hcut, hback, ?_⟩
      intro hne
      rw [tokensFrom_of_skip hscan, herror hne]
    | some t =>
      refine ⟨lexeme ++ front, back, _, happend, .token (hrest ▸ isToken_of_scan hscan) hcut, hback, ?_⟩
      intro hne
      rw [tokensFrom_of_token hscan, herror hne]
      rfl
termination_by cs.length
decreasing_by exact scan_rest_lt hscan

variable {source file : String}

/-- A script whose tokens can be read is cut to its end. -/
theorem exists_cut_of_tokenize {ts : List Token} (h : tokenize source file = .ok ts) :
    ∃ us, Cut [] ⟨file, 0⟩ source.toList us ∧
      ts = (us ++ [eof file (Text.byteLength source.toList)]).map recorded := by
  obtain ⟨front, back, us, htext, hcut, -, herror⟩ := exists_cut ⟨file, 0⟩ source.toList
  by_cases hend : back = []
  · rw [hend, List.append_nil] at htext
    rw [hend, ← htext] at hcut
    have hread := hcut.tokensFrom
    rw [Nat.zero_add] at hread
    exact ⟨us, hcut, Except.ok.inj (h.symm.trans hread)⟩
  · cases h.symm.trans (herror hend)

/-- A script whose tokens cannot be read is cut to the position of the error. -/
theorem exists_cut_of_error {e : SyntaxError} (h : tokenize source file = .error e) :
    ∃ front back us, source.toList = front ++ back ∧ Cut back ⟨file, 0⟩ front us ∧ NothingBegins back ∧
      e.position = Position.recorded ⟨file, Text.byteLength front⟩ := by
  obtain ⟨front, back, us, htext, hcut, hback, herror⟩ := exists_cut ⟨file, 0⟩ source.toList
  by_cases hend : back = []
  · rw [hend, List.append_nil] at htext
    rw [hend, ← htext] at hcut
    cases h.symm.trans hcut.tokensFrom
  · refine ⟨front, back, us, htext, hcut, nothingBegins_of_scan hback hend, ?_⟩
    obtain rfl := Except.error.inj (h.symm.trans (herror hend))
    unfold Place.position Place.advance
    rw [Nat.zero_add]

theorem Cut.ended (h : Cut back place front us) {e : Token} (he : e.kind = .eof) :
    Surface.Ended ((us ++ [e]).map recorded) := by
  induction h with
  | here => exact .eof he
  | gap _ _ ih => exact ih
  | token stands _ ih => exact .cons stands.kind_ne_eof ih

/-- The tokens of a script end in its only end-of-file token. -/
theorem ended_of_tokenize {ts : List Token} (h : tokenize source file = .ok ts) : Surface.Ended ts := by
  obtain ⟨us, hcut, rfl⟩ := exists_cut_of_tokenize h
  exact hcut.ended rfl

/-! ## What tokens account for -/

/-- Blanks or a comment that lie apart from all tokens, from byte `start` on. -/
structure Skipped (text : List Char) (start : Nat) (us : List Token) (s : Span) : Prop where
  stands : ∃ lexeme rest, s.Marks text lexeme rest ∧ IsGap lexeme rest
  behind : start ≤ s.start
  apart : ∀ t ∈ us, s.stop ≤ t.span.start ∨ t.span.stop ≤ s.start

/-- The tokens account for the bytes of the text from `start` to `stop`: they lie there one behind the
other, each is the token that stands at its place, and what lies in none of them is skipped. -/
structure Accounts (text : List Char) (start stop : Nat) (us : List Token) : Prop where
  kinds : ∀ t ∈ us, t.kind ≠ .eof
  within : ∀ t ∈ us, t.span.Within text
  bounded : ∀ t ∈ us, start ≤ t.span.start ∧ t.span.start < t.span.stop ∧ t.span.stop ≤ stop
  apart : us.Pairwise fun t u => t.span.stop ≤ u.span.start
  stands : ∀ t ∈ us, ∃ lexeme rest, t.span.Marks text lexeme rest ∧ IsToken t.content lexeme rest
  covered : ∀ n, start ≤ n → n < stop →
    (∃ t ∈ us, t.span.start ≤ n ∧ n < t.span.stop) ∨
      ∃ s, Skipped text start us s ∧ s.start ≤ n ∧ n < s.stop

variable {text : List Char} {stop : Nat}

theorem Accounts.gap {s : Span} (h : Accounts text s.stop stop us) (hs : s.Marks text lexeme rest)
    (hgap : IsGap lexeme rest) : Accounts text s.start stop us := by
  have hle := hs.within.ordered
  have hskipped : Skipped text s.start us s :=
    ⟨⟨lexeme, rest, hs, hgap⟩, Nat.le_refl _, fun t ht => .inl (h.bounded t ht).1⟩
  refine { h with bounded := fun t ht => ?_, covered := fun n hstart hstop => ?_ }
  · exact ⟨Nat.le_trans hle (h.bounded t ht).1, (h.bounded t ht).2⟩
  · by_cases hn : n < s.stop
    · exact .inr ⟨s, hskipped, hstart, hn⟩
    · refine (h.covered n (Nat.le_of_not_lt hn) hstop).imp_right ?_
      rintro ⟨r, hr, hin⟩
      exact ⟨r, ⟨hr.stands, Nat.le_trans hle hr.behind, hr.apart⟩, hin⟩

theorem Accounts.token {u : Token} (h : Accounts text u.span.stop stop us)
    (hu : u.span.Marks text lexeme rest) (htoken : IsToken u.content lexeme rest)
    (hlt : u.span.start < u.span.stop) (hle : u.span.stop ≤ stop) :
    Accounts text u.span.start stop (u :: us) where
  kinds := List.forall_mem_cons.2 ⟨htoken.kind_ne_eof, h.kinds⟩
  within := List.forall_mem_cons.2 ⟨hu.within, h.within⟩
  bounded := List.forall_mem_cons.2 ⟨⟨Nat.le_refl _, hlt, hle⟩, fun t ht =>
    ⟨Nat.le_trans hlt.le (h.bounded t ht).1, (h.bounded t ht).2⟩⟩
  apart := List.pairwise_cons.2 ⟨fun t ht => (h.bounded t ht).1, h.apart⟩
  stands := List.forall_mem_cons.2 ⟨⟨lexeme, rest, hu, htoken⟩, h.stands⟩
  covered n hstart hstop := by
    by_cases hn : n < u.span.stop
    · exact .inl ⟨u, List.mem_cons_self, hstart, hn⟩
    · rcases h.covered n (Nat.le_of_not_lt hn) hstop with ⟨t, ht, hin⟩ | ⟨s, hs, hin⟩
      · exact .inl ⟨t, .tail _ ht, hin⟩
      · refine .inr ⟨s, ⟨hs.stands, Nat.le_trans hlt.le hs.behind, ?_⟩, hin⟩
        exact List.forall_mem_cons.2 ⟨.inr hs.behind, hs.apart⟩

/-- A cut text is accounted for. -/
theorem Cut.accounts (h : Cut back place front us) (before : List Char)
    (htext : text = before ++ (front ++ back)) (hplace : Text.byteLength before = place.offset) :
    Accounts text place.offset (place.offset + Text.byteLength front) us := by
  induction h generalizing before with
  | here place =>
    refine ⟨by simp, by simp, by simp, .nil, by simp, fun n hstart hstop => ?_⟩
    exact absurd hstop (Nat.not_lt.2 hstart)
  | @gap place lexeme front us stands _ ih =>
    have hnext : Text.byteLength (before ++ lexeme) = place.offset + Text.byteLength lexeme := by
      rw [Text.byteLength_append, hplace]
    rw [List.append_assoc] at htext
    have hmarks : Span.Marks text ⟨place.file, place.offset, place.offset + Text.byteLength lexeme⟩ lexeme
        (front ++ back) := ⟨before, htext, hplace, hnext⟩
    rw [Text.byteLength_append, ← Nat.add_assoc]
    exact (ih _ (by rw [htext, List.append_assoc]) hnext).gap hmarks stands
  | @token place t lexeme front us stands _ ih =>
    have hnext : Text.byteLength (before ++ lexeme) = place.offset + Text.byteLength lexeme := by
      rw [Text.byteLength_append, hplace]
    rw [List.append_assoc] at htext
    have hmarks : Span.Marks text ⟨place.file, place.offset, place.offset + Text.byteLength lexeme⟩ lexeme
        (front ++ back) := ⟨before, htext, hplace, hnext⟩
    rw [Text.byteLength_append, ← Nat.add_assoc]
    have hrest := ih _ (by rw [htext, List.append_assoc]) hnext
    refine hrest.token (u := ⟨t.1, t.2, place.file, _, _⟩) hmarks stands ?_ (Nat.le_add_right ..)
    exact Nat.lt_add_of_pos_right (Text.byteLength_pos stands.ne_nil)

/-- From the beginning of the script on. -/
theorem Cut.accounts_front (h : Cut back ⟨file, 0⟩ front us) (htext : text = front ++ back) :
    Accounts text 0 (Text.byteLength front) us := by
  have haccounts := h.accounts [] htext rfl
  rwa [Nat.zero_add] at haccounts

/-- Below `offsetBound` tokens are recorded as they are. -/
theorem Accounts.map_recorded {start : Nat} (h : Accounts text start stop us) (hstop : stop < offsetBound)
    (file : String) : (us ++ [eof file stop]).map recorded = us ++ [eof file stop] := by
  have hexact : ∀ t : Token, t.span.start ≤ stop → t.span.stop ≤ stop → t.recorded = t := by
    intro t hstart hle
    unfold recorded
    rw [Span.recorded_of_lt (Nat.lt_of_le_of_lt hstart hstop) (Nat.lt_of_le_of_lt hle hstop)]
  refine Eq.trans (List.map_congr_left fun t ht => ?_) (List.map_id _)
  rcases List.mem_append.1 ht with ht | ht
  · obtain ⟨-, hlt, hle⟩ := h.bounded t ht
    exact hexact t (Nat.le_trans hlt.le hle) hle
  · rw [List.mem_singleton.1 ht]
    exact hexact _ (Nat.le_refl stop) (Nat.le_refl stop)

/-- The tokens account for the script. Reading it gives them as they are recorded, and the end of the script
behind its last byte; if the script is short enough, it gives just them. -/
structure Reads (source file : String) (us : List Token) : Prop where
  accounts : Accounts source.toList 0 (Text.byteLength source.toList) us
  modulo : tokenize source file = .ok ((us ++ [eof file (Text.byteLength source.toList)]).map recorded)
  exact : Text.byteLength source.toList < offsetBound →
    tokenize source file = .ok (us ++ [eof file (Text.byteLength source.toList)])

theorem Cut.reads (h : Cut [] ⟨file, 0⟩ source.toList us) : Reads source file us := by
  have haccounts := h.accounts_front (List.append_nil _).symm
  have hread : tokenize source file = _ := h.tokensFrom
  rw [Nat.zero_add] at hread
  refine ⟨haccounts, hread, fun hsize => ?_⟩
  rw [hread, haccounts.map_recorded hsize]

/-- A reader behind some text of the script has the rest left to read. -/
theorem Reader.rest?_advance {front back : List Char} (h : source.toList = front ++ back) :
    ((Reader.ofSource source file).advance (Text.byteLength front)).rest? = some back := by
  show Text.dropBytes (0 + Text.byteLength front) source.toList = some back
  rw [Nat.zero_add, h, Text.dropBytes_byteLength]

/-- **Tokens account for the script.** Whenever the tokens of a script can be read, they are the end of the script,
empty and behind its last byte, and in front of it tokens that account for every byte. When they cannot, this
holds of the script up to the position of the error, also in view of what follows there, and with what is left to
read at that position neither a token nor blanks nor a comment begin. Offsets are recorded modulo `offsetBound`, so they are exact in
scripts that are shorter. -/
theorem tokens_account_for_source (source file : String) :
    (∀ ts, tokenize source file = .ok ts → ∃ us, Reads source file us) ∧
    ∀ e, tokenize source file = .error e →
      ∃ front back us, source.toList = front ++ back ∧ Reads (.ofList front) file us ∧
        Accounts source.toList 0 (Text.byteLength front) us ∧
        ((Reader.ofSource source file).advance (Text.byteLength front)).rest? = some back ∧ NothingBegins back ∧
        e.position = Position.recorded ⟨file, Text.byteLength front⟩ ∧
        (Text.byteLength front < offsetBound → e.position = ⟨file, Text.byteLength front⟩) := by
  refine ⟨fun ts hts => ?_, fun e he => ?_⟩
  · obtain ⟨us, hcut, -⟩ := exists_cut_of_tokenize hts
    exact ⟨us, hcut.reads⟩
  · obtain ⟨front, back, us, htext, hcut, hnothing, hposition⟩ := exists_cut_of_error he
    have hreads : Reads (.ofList front) file us := by
      apply Cut.reads
      rw [String.toList_ofList]
      exact hcut.truncate
    refine ⟨front, back, us, htext, hreads, hcut.accounts_front htext, Reader.rest?_advance htext, hnothing,
      hposition, fun hsize => ?_⟩
    rw [hposition, Position.recorded_of_lt hsize]

/-- Slashes in a text, a mark of two characters in front of a number, a name behind it, a comment with a
character of two bytes, and on the next line a blank of three bytes and two marks that share a character. -/
def mixture : String := "\"é//\\\"\" /=12x // é\n\u3000<==iffy"

/-- The same up to the comment, and then a quote that nothing closes. -/
def unclosed : String := "\"é//\\\"\" /=12x // é\n\"\\\""

theorem mixture_is_accounted_for :
    let us : List Token := [⟨.text, "é//\"", "shell", 0, 8⟩, ⟨.punct .slashEquals, "/=", "shell", 9, 11⟩,
      ⟨.number, "12", "shell", 11, 13⟩, ⟨.identifier, "x", "shell", 13, 14⟩]
    let vs : List Token := [⟨.punct .lessEquals, "<=", "shell", 24, 26⟩,
      ⟨.punct .assignment, "=", "shell", 26, 27⟩, ⟨.identifier, "iffy", "shell", 27, 31⟩]
    (tokenize mixture "shell" = .ok (us ++ vs ++ [eof "shell" 31]) ∧
      Accounts mixture.toList 0 31 (us ++ vs)) ∧
    tokenize unclosed "shell" = .error ⟨.unterminatedText, "shell", 21⟩ ∧
      Accounts unclosed.toList 0 21 us ∧ NothingBegins "\"\\\"".toList := by
  intro us vs
  constructor
  · have hread : tokenize mixture "shell" = .ok (us ++ vs ++ [eof "shell" 31]) := by decide +kernel
    have hsize : Text.byteLength mixture.toList = 31 := by decide +kernel
    obtain ⟨read, hreads⟩ := (tokens_account_for_source mixture "shell").1 _ hread
    have hexact := hreads.exact (by rw [hsize]; decide)
    have haccounts := hreads.accounts
    rw [hread, hsize] at hexact
    rw [hsize, ← List.append_cancel_right (Except.ok.inj hexact)] at haccounts
    exact ⟨hread, haccounts⟩
  · have hread : tokenize unclosed "shell" = .error ⟨.unterminatedText, "shell", 21⟩ := by decide +kernel
    obtain ⟨front, back, read, htext, hreads, haccounts, hrest, hnothing, -, hposition⟩ :=
      (tokens_account_for_source unclosed "shell").2 _ hread
    have hsize : Text.byteLength front < offsetBound := by
      have htotal : Text.byteLength unclosed.toList < offsetBound := by decide +kernel
      rw [htext, Text.byteLength_append] at htotal
      exact Nat.lt_of_le_of_lt (Nat.le_add_right ..) htotal
    have hoffset : Text.byteLength front = 21 := (congrArg Position.offset (hposition hsize)).symm
    -- the place of the error determines the text in front of it, and so what is read of that text
    rw [hoffset] at hrest
    obtain rfl : "\"\\\"".toList = back := Option.some.inj (Eq.trans (by decide +kernel) hrest)
    have hclosed : unclosed.toList = "\"é//\\\"\" /=12x // é\n".toList ++ "\"\\\"".toList := by decide +kernel
    obtain rfl := List.append_cancel_right (hclosed.symm.trans htext)
    have hus : tokenize "\"é//\\\"\" /=12x // é\n" "shell" = .ok (us ++ [eof "shell" 21]) := by decide +kernel
    have hfront := hreads.exact (by rwa [String.toList_ofList])
    rw [String.ofList_toList, hus, hoffset] at hfront
    rw [hoffset, ← List.append_cancel_right (Except.ok.inj hfront)] at haccounts
    exact ⟨hread, haccounts, hnothing⟩

/-- A text of `n` blanks. -/
def blanks (n : Nat) : List Char := List.replicate n ' '

theorem isBlank_of_mem_blanks {n : Nat} {c : Char} (h : c ∈ blanks n) : Text.isBlank c = true := by
  rw [(List.mem_replicate.1 h).2]
  rfl

theorem byteLength_blanks (n : Nat) : Text.byteLength (blanks n) = n := by
  unfold blanks
  induction n with
  | zero => rfl
  | succ n ih =>
    rw [List.replicate_succ, Text.byteLength_cons, ih]
    exact Nat.add_comm 1 n

/-- A name behind blanks. -/
theorem tokensFrom_name {bs : List Char} (h : ∀ c ∈ bs, Text.isBlank c = true) (file : String) :
    tokensFrom ⟨file, 0⟩ (bs ++ ['a']) =
      .ok ([⟨.identifier, "a", file, Text.byteLength bs, Text.byteLength bs + 1⟩,
        eof file (Text.byteLength bs + 1)].map recorded) := by
  have hname : scan ['a'] = some ⟨some (.identifier, "a"), ['a'], []⟩ := rfl
  rw [tokensFrom_blanks h, tokensFrom_of_token hname, tokensFrom_nil, Place.advance, Nat.zero_add]
  rfl

/-- Behind as many blanks as there are offsets, a name is recorded at the beginning of the script, where a blank
stands, and the end of the script behind its first byte. -/
theorem distant_name_is_not_accounted_for :
    let source := String.ofList (blanks offsetBound ++ ['a'])
    tokenize source "shell" = .ok [⟨.identifier, "a", "shell", 0, 1⟩, eof "shell" 1] ∧
      ¬ ∃ us, tokenize source "shell" = .ok (us ++ [eof "shell" (Text.byteLength source.toList)]) ∧
        Accounts source.toList 0 (Text.byteLength source.toList) us := by
  intro source
  have htext : source.toList = blanks offsetBound ++ ['a'] := String.toList_ofList
  have hread : tokenize source "shell" = .ok [⟨.identifier, "a", "shell", 0, 1⟩, eof "shell" 1] := by
    rw [tokenize_eq, htext, tokensFrom_name fun _ => isBlank_of_mem_blanks, byteLength_blanks]
    rfl
  refine ⟨hread, ?_⟩
  rintro ⟨us, hus, -⟩
  rw [hread, htext, Text.byteLength_append, byteLength_blanks] at hus
  have hlast := congrArg List.getLast? (Except.ok.inj hus)
  rw [List.getLast?_concat] at hlast
  cases congrArg (Token.span · |>.start) (Option.some.inj hlast)

end Token

end Scripting
