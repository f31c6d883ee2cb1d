import Scripting.Proofs.Token.Account

/-!
# Tokens line by line

A newline ends whatever stands in front of it: no word, number or mark holds one, a quoted text cannot run
over it and a comment stops at it. So a token in front of a newline stays one whatever follows
(`IsToken.extend`), and what comes behind the newline is read as if the script began there
(`tokensFrom_newline`), only that every offset is greater (`tokensFrom_moved`), until it is too great to be
recorded.
-/

namespace Scripting

def Span.moved (n : Nat) (s : Span) : Span := ⟨s.file, s.start + n, s.stop + n⟩

def Token.moved (n : Nat) (t : Token) : Token := { t with span := t.span.moved n }

namespace SyntaxError

def moved (n : Nat) (e : SyntaxError) : SyntaxError :=
  { e with position := ⟨e.position.file, e.position.offset + n⟩ }

def recorded (e : SyntaxError) : SyntaxError := { e with position := e.position.recorded }

end SyntaxError

namespace Token

variable {cs lexeme front rest : List Char} {t : TokenKind × String} {place : Place} {us : List Token}

/-! ## In front of a newline -/

theorem newline_not_mem_of_isLexeme (h : IsLexeme cs) : '\n' ∉ cs := by
  intro hmem
  rcases h with h | h | ⟨p, rfl⟩
  · exact absurd (isWordPart_of_isWord h hmem) (by decide)
  · exact absurd (h.2 _ hmem) (by decide)
  · exact not_isSeparator_of_mem_text p hmem (by decide)

theorem Longest.extend (h : Longest cs front) (rest : List Char) : Longest cs (front ++ '\n' :: rest) := by
  intro more hmore hne hlexeme
  have hline : '\n' ∉ more := fun hmem =>
    newline_not_mem_of_isLexeme hlexeme (List.mem_append_right cs hmem)
  exact h more (prefix_of_prefix_append_cons hline hmore) hne hlexeme

/-- A token in front of a newline stays one, whatever follows the newline. -/
theorem IsToken.extend (h : IsToken t lexeme front) (rest : List Char) :
    IsToken t lexeme (front ++ '\n' :: rest) where
  writable := h.writable
  plain hkind := (h.plain hkind).imp_right fun hlongest => hlongest.extend rest
  quoted := h.quoted
  uncommented hcomment := by
    rw [← List.append_assoc] at hcomment
    exact h.uncommented (prefix_of_prefix_append_cons (by decide) hcomment)

theorem IsComment.extend (h : IsComment lexeme front) (rest : List Char) :
    IsComment lexeme (front ++ '\n' :: rest) := by
  obtain ⟨body, rfl, hbody, hfront⟩ := h
  refine ⟨body, rfl, hbody, fun c hc => ?_⟩
  cases front with
  | nil => exact (Option.some.inj hc).symm
  | cons d front => exact hfront c hc

/-! ## Behind a newline -/

/-- What is cut to the end is read in the same way in front of a newline. The blanks at the end need not
be a gap there: the newline goes on with them. -/
theorem Cut.tokensFrom_newline (h : Cut [] place front us) (rest : List Char) :
    Token.tokensFrom place (front ++ '\n' :: rest) =
      (Token.tokensFrom (place.advance (Text.byteLength front + 1)) rest).map (us.map recorded ++ ·) := by
  induction h with
  | here place =>
    have hnewline : Token.tokensFrom place ('\n' :: rest) = Token.tokensFrom (place.advance 1) rest :=
      tokensFrom_blank (by decide) ..
    rw [List.nil_append, hnewline]
    show _ = Except.map _ (Token.tokensFrom (place.advance 1) rest)
    cases Token.tokensFrom (place.advance 1) rest <;> rfl
  | gap stands _ ih =>
    rw [List.append_nil] at stands
    rw [Place.advance_advance, ← Nat.add_assoc, ← Text.byteLength_append] at ih
    rw [List.append_assoc, ← ih]
    rcases stands with ⟨-, hblank, -⟩ | hcomment
    · exact tokensFrom_blanks hblank ..
    · exact tokensFrom_of_skip (scan_of_isGap (.inr (hcomment.extend rest))) ..
  | token stands _ ih =>
    rw [List.append_nil] at stands
    rw [Place.advance_advance, ← Nat.add_assoc, ← Text.byteLength_append] at ih
    rw [List.append_assoc, tokensFrom_of_token (scan_of_isToken (stands.extend rest)), ih]
    cases Token.tokensFrom _ rest <;> rfl

/-- What was read, as it is recorded `n` bytes further on. -/
def movedReading (n : Nat) : Except SyntaxError (List Token) → Except SyntaxError (List Token)
  | .ok ts => .ok (ts.map fun t => (t.moved n).recorded)
  | .error e => .error (e.moved n).recorded

theorem position_advance (place : Place) (n : Nat) :
    (place.advance n).position = Position.recorded ⟨place.file, place.position.offset + n⟩ := by
  unfold Place.position Place.advance Position.recorded
  rw [Nat.mod_add_mod]

theorem spanOf_advance (place : Place) (n length : Nat) :
    (place.advance n).spanOf length = ((place.spanOf length).moved n).recorded := by
  unfold Place.spanOf Place.advance Span.moved Span.recorded
  rw [Nat.mod_add_mod, Nat.mod_add_mod, Nat.add_right_comm]

/-- A text that stands further on is read in the same way. -/
theorem tokensFrom_moved (place : Place) (n : Nat) (cs : List Char) :
    tokensFrom (place.advance n) cs = movedReading n (tokensFrom place cs) := by
  cases hscan : scan cs with
  | none =>
    cases cs with
    | nil =>
      rw [tokensFrom_nil, tokensFrom_nil, position_advance]
      rfl
    | cons c cs =>
      have hne : c :: cs ≠ [] := List.cons_ne_nil c cs
      rw [tokensFrom_of_stop hscan hne, tokensFrom_of_stop hscan hne, position_advance]
      rfl
  | some piece =>
    obtain ⟨token?, lexeme, rest⟩ := piece
    have hnext := tokensFrom_moved (place.advance (Text.byteLength lexeme)) n rest
    rw [Place.advance_advance, Nat.add_comm, ← Place.advance_advance] at hnext
    cases token? with
    | none => rw [tokensFrom_of_skip hscan, tokensFrom_of_skip hscan, hnext]
    | some t =>
      rw [tokensFrom_of_token hscan, tokensFrom_of_token hscan, hnext, spanOf_advance]
      cases tokensFrom (place.advance (Text.byteLength lexeme)) rest <;> rfl
termination_by cs.length
decreasing_by exact scan_rest_lt hscan

/-- What was read of a script stays recorded exactly, if it can still be recorded behind the script where it
comes to stand. -/
theorem moved_recorded {source file : String} {n : Nat} (hsize : Text.byteLength source.toList + n < offsetBound) :
    (∀ ts, tokenize source file = .ok ts → ∀ t ∈ ts, (t.moved n).recorded = t.moved n) ∧
      ∀ e, tokenize source file = .error e → (e.moved n).recorded = e.moved n := by
  have hbefore : Text.byteLength source.toList < offsetBound := Nat.lt_of_le_of_lt (Nat.le_add_right ..) hsize
  constructor
  · intro ts hts t ht
    obtain ⟨us, hcut, -⟩ := exists_cut_of_tokenize hts
    obtain rfl := Except.ok.inj (hts.symm.trans (hcut.reads.exact hbefore))
    have hstop : t.span.start ≤ t.span.stop ∧ t.span.stop ≤ Text.byteLength source.toList := by
      rcases List.mem_append.1 ht with ht | ht
      · obtain ⟨-, hlt, hle⟩ := hcut.reads.accounts.bounded t ht
        exact ⟨hlt.le, hle⟩
      · rw [List.mem_singleton.1 ht]
        exact ⟨Nat.le_refl _, Nat.le_refl _⟩
    unfold recorded
    rw [Span.recorded_of_lt]
    · show t.span.start + n < offsetBound
      omega
    · show t.span.stop + n < offsetBound
      omega
  · intro e he
    obtain ⟨front, back, us, htext, -, -, hposition⟩ := exists_cut_of_error he
    rw [htext, Text.byteLength_append] at hsize
    have hoffset : e.position.offset = Text.byteLength front := by
      have hfront : Text.byteLength front < offsetBound := by omega
      rw [hposition, Position.recorded_of_lt hfront]
    unfold SyntaxError.recorded
    rw [Position.recorded_of_lt]
    show e.position.offset + n < offsetBound
    omega

/-- **Lines are read one after the other.** Of a script whose tokens can be read, only the end-of-file token is
lost when a newline and more text follow. The tokens of that text come behind the others and are moved by
the bytes in front of it, and so is the error if it has one. What is moved is recorded anew, and so exactly
moved unless the whole text is too long for that. -/
theorem tokenize_lines {source file : String} {ts : List Token} (h : tokenize source file = .ok ts)
    (more : String) :
    let joined := source ++ "\n" ++ more
    let n := Text.byteLength source.toList + 1
    ∃ us, ts = us ++ [(eof file (Text.byteLength source.toList)).recorded] ∧ (∀ t ∈ us, t.kind ≠ .eof) ∧
      (∀ vs, tokenize joined file = .ok vs ↔
        ∃ ws, tokenize more file = .ok ws ∧ vs = us ++ ws.map fun t => (t.moved n).recorded) ∧
      (∀ e, tokenize joined file = .error e ↔
        ∃ d, tokenize more file = .error d ∧ e = (d.moved n).recorded) ∧
      (Text.byteLength joined.toList < offsetBound →
        (∀ ws, tokenize more file = .ok ws → ∀ t ∈ ws, (t.moved n).recorded = t.moved n) ∧
          ∀ d, tokenize more file = .error d → (d.moved n).recorded = d.moved n) := by
  intro joined n
  obtain ⟨us, hcut, hts⟩ := exists_cut_of_tokenize h
  have htext : joined.toList = source.toList ++ '\n' :: more.toList := by
    rw [String.toList_append, String.toList_append, List.append_assoc]
    rfl
  have hjoined : tokenize joined file = (movedReading n (tokenize more file)).map (us.map recorded ++ ·) := by
    rw [tokenize_eq, htext, hcut.tokensFrom_newline more.toList, tokensFrom_moved]
    rfl
  refine ⟨us.map recorded, ?_, List.forall_mem_map.2 hcut.reads.accounts.kinds, ?_, ?_, fun hsize => ?_⟩
  · rw [hts, List.map_append]
    rfl
  · intro vs
    rw [hjoined]
    constructor
    · intro hvs
      cases hmore : tokenize more file with
      | error d => rw [hmore] at hvs; cases hvs
      | ok ws =>
        rw [hmore] at hvs
        exact ⟨ws, rfl, (Except.ok.inj hvs).symm⟩
    · rintro ⟨ws, hws, rfl⟩
      rw [hws]
      rfl
  · intro e
    rw [hjoined]
    constructor
    · intro he
      cases hmore : tokenize more file with
      | ok ws => rw [hmore] at he; cases he
      | error d =>
        rw [hmore] at he
        exact ⟨d, rfl, (Except.error.inj he).symm⟩
    · rintro ⟨d, hd, rfl⟩
      rw [hd]
      rfl
  · apply moved_recorded
    rw [htext, Text.byteLength_append, Text.byteLength_cons] at hsize
    have hnewline : '\n'.utf8Size = 1 := rfl
    omega

/-- A text with a character of two bytes, and a slash at the end of the line. Another slash on the next
line makes no comment of it, and a quote there is as little closed as it is on its own. -/
theorem slashes_on_two_lines :
    let us : List Token := [⟨.text, "é", "shell", 0, 4⟩, ⟨.punct .slash, "/", "shell", 5, 6⟩]
    tokenize "\"é\" /" "shell" = .ok (us ++ [eof "shell" 6]) ∧
      tokenize ("\"é\" /" ++ "\n" ++ "/ x") "shell" =
        .ok (us ++ [⟨.punct .slash, "/", "shell", 7, 8⟩, ⟨.identifier, "x", "shell", 9, 10⟩,
          eof "shell" 10]) ∧
      tokenize ("\"é\" /" ++ "\n" ++ "x \"") "shell" = .error ⟨.unterminatedText, "shell", 9⟩ := by
  intro us
  have hread : tokenize "\"é\" /" "shell" = .ok (us ++ [eof "shell" 6]) ∧
      tokenize "/ x" "shell" = .ok [⟨.punct .slash, "/", "shell", 0, 1⟩,
        ⟨.identifier, "x", "shell", 2, 3⟩, eof "shell" 3] ∧
      tokenize "x \"" "shell" = .error ⟨.unterminatedText, "shell", 2⟩ := by decide +kernel
  obtain ⟨hfirst, hsecond, hunclosed⟩ := hread
  obtain ⟨vs, hvs, -, hok, -, -⟩ := tokenize_lines hfirst "/ x"
  obtain ⟨-, -, -, -, herror, -⟩ := tokenize_lines hfirst "x \""
  obtain rfl := List.append_cancel_right hvs
  exact ⟨hfirst, (hok _).2 ⟨_, hsecond, rfl⟩, (herror _).2 ⟨_, hunclosed, rfl⟩⟩

/-- Where a line of blanks leaves no offset to be recorded, what stands on the next line is recorded at the
beginning of the script. -/
theorem distant_line_is_not_moved :
    let source := String.ofList (blanks (offsetBound - 1))
    let ws : List Token := [⟨.identifier, "a", "shell", 0, 1⟩, eof "shell" 1]
    tokenize source "shell" = .ok [eof "shell" (offsetBound - 1)] ∧ tokenize "a" "shell" = .ok ws ∧
      tokenize (source ++ "\n" ++ "a") "shell" = .ok ws ∧
      ws.map (moved (Text.byteLength source.toList + 1)) ≠ ws := by
  intro source ws
  have htext : source.toList = blanks (offsetBound - 1) := String.toList_ofList
  have hjoined : (source ++ "\n" ++ "a").toList = blanks (offsetBound - 1) ++ ['\n'] ++ ['a'] := by
    rw [String.toList_append, String.toList_append, htext]
    rfl
  have hblank : ∀ c ∈ blanks (offsetBound - 1) ++ ['\n'], Text.isBlank c = true :=
    List.forall_mem_append.2 ⟨fun _ => isBlank_of_mem_blanks, List.forall_mem_singleton.2 (by decide)⟩
  refine ⟨?_, tokensFrom_name (List.forall_mem_nil _) "shell", ?_, ?_⟩
  · have hread := tokensFrom_blanks (fun _ => isBlank_of_mem_blanks (n := offsetBound - 1)) ⟨"shell", 0⟩ []
    rw [List.append_nil, tokensFrom_nil, byteLength_blanks] at hread
    rw [tokenize_eq, htext, hread]
    rfl
  · rw [tokenize_eq, hjoined, tokensFrom_name hblank, Text.byteLength_append, byteLength_blanks]
    rfl
  · rw [htext, byteLength_blanks]
    decide

end Token

end Scripting
