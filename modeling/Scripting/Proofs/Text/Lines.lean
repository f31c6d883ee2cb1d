import Mathlib.Tactic.Common
import Scripting.Text.Lines

/-!
# Lines and the places in them

A text is cut behind each of its newlines (`Lines`); `splitLines` makes this cut, and there is only one
(`lines_iff`). Looking for a byte offset walks the lines and takes off the bytes of each line that ends in front
of it, so the answer is told by the lines before it (`exists_findLine`). The offset behind the last byte is the
only one that is not in front of a byte of its line.
-/

namespace Scripting.Text

/-! ## Cutting a text into lines -/

/-- The characters of one line, with the newline that ends it. -/
def IsLine (cs : List Char) : Prop := ∃ front, cs = front ++ ['\n'] ∧ '\n' ∉ front

/-- The lines of a text. Each ends in its only newline; what follows the last newline is a line as well,
unless it is empty. -/
inductive Lines : List Char → List (List Char) → Prop
  | nil : Lines [] []
  | last {l : List Char} (nonempty : l ≠ []) (unended : '\n' ∉ l) : Lines l [l]
  | line {front rest : List Char} {ls : List (List Char)} (ended : '\n' ∉ front) (others : Lines rest ls) :
    Lines (front ++ '\n' :: rest) ((front ++ ['\n']) :: ls)

theorem splitLines_append {front : List Char} (h : '\n' ∉ front) (rest : List Char) :
    splitLines (front ++ '\n' :: rest) = (front ++ ['\n']) :: splitLines rest := by
  induction front with
  | nil => rw [List.nil_append, splitLines, if_pos rfl, List.nil_append]
  | cons c front ih =>
    have hc : c ≠ '\n' := fun hc => h (hc ▸ List.mem_cons_self)
    have hfront : '\n' ∉ front := fun hmem => h (.tail c hmem)
    rw [List.cons_append, splitLines, if_neg hc, ih hfront]
    rfl

theorem splitLines_of_not_mem {l : List Char} (hne : l ≠ []) (h : '\n' ∉ l) : splitLines l = [l] := by
  induction l with
  | nil => exact absurd rfl hne
  | cons c l ih =>
    have hc : c ≠ '\n' := fun hc => h (hc ▸ List.mem_cons_self)
    rw [splitLines, if_neg hc]
    cases l with
    | nil => rfl
    | cons d l => rw [ih (List.cons_ne_nil d l) fun hmem => h (.tail c hmem)]

/-- Lines put together are split into the same lines. -/
theorem splitLines_flatten {ls : List (List Char)} (h : ∀ l ∈ ls, IsLine l) : splitLines ls.flatten = ls := by
  induction ls with
  | nil => rfl
  | cons l ls ih =>
    obtain ⟨⟨front, rfl, hfront⟩, hls⟩ := List.forall_mem_cons.1 h
    rw [List.flatten_cons, List.append_assoc, List.singleton_append, splitLines_append hfront, ih hls]

namespace Lines

variable {text : List Char} {ls : List (List Char)}

theorem flatten (h : Lines text ls) : ls.flatten = text := by
  induction h with
  | nil => rfl
  | last => exact List.flatten_singleton
  | line _ _ ih => rw [List.flatten_cons, ih, List.append_assoc, List.singleton_append]

theorem eq_splitLines (h : Lines text ls) : ls = splitLines text := by
  induction h with
  | nil => rfl
  | last hne hunended => rw [splitLines_of_not_mem hne hunended]
  | line hended _ ih => rw [splitLines_append hended, ih]

/-- A character in front of a text that is no newline joins the first line. -/
theorem cons {c : Char} (hc : c ≠ '\n') {l : List Char} (h : Lines text (l :: ls)) :
    Lines (c :: text) ((c :: l) :: ls) := by
  cases h with
  | last _ hunended => exact .last (List.cons_ne_nil c _) (List.not_mem_cons_of_ne_of_not_mem hc.symm hunended)
  | line hended hrest => exact .line (List.not_mem_cons_of_ne_of_not_mem hc.symm hended) hrest

end Lines

theorem lines_splitLines (text : List Char) : Lines text (splitLines text) := by
  fun_induction splitLines text with
  | case1 => exact .nil
  | case2 cs ih => exact @Lines.line [] cs _ List.not_mem_nil ih
  | case3 c cs hc hnil ih =>
    obtain rfl : [] = cs := (hnil ▸ ih).flatten
    exact .last (List.cons_ne_nil c []) fun hmem => hc (List.mem_singleton.1 hmem).symm
  | case4 c cs hc l ls hcons ih => exact Lines.cons hc (hcons ▸ ih)

/-- A text is cut into lines in one way. -/
theorem lines_iff {text : List Char} {ls : List (List Char)} : Lines text ls ↔ ls = splitLines text :=
  ⟨Lines.eq_splitLines, fun h => h ▸ lines_splitLines text⟩

/-! ## Finding a line -/

theorem byteLength_toList (s : String) : byteLength s.toList = s.utf8ByteSize := by
  have hlist : ∀ cs : List Char, byteLength cs = (String.ofList cs).utf8ByteSize := by
    intro cs
    induction cs with
    | nil => rfl
    | cons c cs ih =>
      rw [byteLength_cons, ih, String.ofList_cons, String.utf8ByteSize_append, String.utf8ByteSize_singleton]
  rw [hlist, String.ofList_toList]

/-- The line found for an offset, told by the lines before it. Only behind the last line is the offset not in
front of a byte of the line. -/
theorem exists_findLine {ls : List (List Char)} {offset : Nat} (number : Nat) (hne : ls ≠ [])
    (h : offset ≤ byteLength ls.flatten) :
    ∃ before l after column, ls = before ++ l :: after ∧
      findLine number offset ls = some ⟨number + before.length, .ofList l, column⟩ ∧
      byteLength before.flatten + column = offset ∧
      (column < byteLength l ∨ after = [] ∧ column = byteLength l) := by
  fun_induction findLine number offset ls with
  | case1 => exact absurd rfl hne
  | case2 number offset l hle =>
    refine ⟨[], l, [], offset, rfl, rfl, Nat.zero_add offset, ?_⟩
    exact (Nat.lt_or_eq_of_le hle).imp_right fun heq => ⟨rfl, heq⟩
  | case3 number offset l hle => exact absurd (by simpa using h) hle
  | case4 number offset l ls hls hlt => exact ⟨[], l, ls, offset, rfl, rfl, Nat.zero_add offset, .inl hlt⟩
  | case5 number offset l ls hls hge ih =>
    have hrest : offset - byteLength l ≤ byteLength ls.flatten := by
      rw [List.flatten_cons, byteLength_append] at h
      omega
    obtain ⟨before, found, after, column, rfl, hfind, hbytes, hcolumn⟩ := ih hls hrest
    refine ⟨l :: before, found, after, column, rfl, ?_, ?_, hcolumn⟩
    · rw [hfind, List.length_cons, Nat.add_assoc, Nat.add_comm 1]
    · rw [List.flatten_cons, byteLength_append]
      omega

theorem findLine_eq_none {ls : List (List Char)} {offset : Nat} (number : Nat)
    (h : byteLength ls.flatten < offset) : findLine number offset ls = none := by
  fun_induction findLine number offset ls with
  | case1 => rfl
  | case2 number offset l hle =>
    rw [List.flatten_singleton] at h
    omega
  | case3 => rfl
  | case4 number offset l ls hls hlt =>
    rw [List.flatten_cons, byteLength_append] at h
    omega
  | case5 number offset l ls hls hge ih =>
    rw [List.flatten_cons, byteLength_append] at h
    exact ih (by omega)

/-! ## Places in a text -/

/-- The lines that a place can be in: a text without characters has one, which is empty. -/
def places (ls : List (List Char)) : List (List Char) := if ls = [] then [[]] else ls

theorem places_ne_nil (ls : List (List Char)) : places ls ≠ [] := by
  unfold places
  split
  · exact List.cons_ne_nil _ _
  · assumption

theorem flatten_places_splitLines (text : List Char) : (places (splitLines text)).flatten = text := by
  have hflat : (places (splitLines text)).flatten = (splitLines text).flatten := by
    unfold places
    split
    · next hnil => rw [hnil]; rfl
    · rfl
  rw [hflat, (lines_splitLines text).flatten]

theorem lineAt_eq (text : String) (offset : Nat) :
    lineAt text offset = findLine 1 offset (places (splitLines text.toList)) := by
  unfold lineAt
  split
  · next hnil =>
    rw [hnil]
    show _ = if offset ≤ 0 then some (Line.mk 1 "" offset) else none
    by_cases h : offset = 0
    · rw [if_pos h, if_pos (Nat.le_of_eq h), h]
    · rw [if_neg h, if_neg fun hle => h (Nat.le_zero.1 hle)]
  · next hne => rw [places, if_neg hne]

/-- The line is the one of its number, the bytes of the lines before it and the column make up the position,
and the column is in front of one of its bytes but for the end of the text, where it is behind them all. -/
structure Line.Locates (text : String) (ls : List (List Char)) (position : Nat) (line : Line) : Prop where
  counted : ∃ before after, places ls = before ++ line.text.toList :: after ∧
    line.number = before.length + 1 ∧ byteLength before.flatten + line.column = position
  inside : position < text.utf8ByteSize → line.column < line.text.utf8ByteSize
  behind : position = text.utf8ByteSize → line.column = line.text.utf8ByteSize

theorem exists_locates {text : String} {position : Nat} (h : position ≤ text.utf8ByteSize) :
    ∃ line, lineAt text position = some line ∧ line.Locates text (splitLines text.toList) position := by
  have hsize : byteLength (places (splitLines text.toList)).flatten = text.utf8ByteSize := by
    rw [flatten_places_splitLines, byteLength_toList]
  obtain ⟨before, l, after, column, hls, hfind, hbytes, hcolumn⟩ :=
    exists_findLine 1 (places_ne_nil _) (hsize ▸ h)
  have hline : (String.ofList l).utf8ByteSize = byteLength l := by
    rw [← byteLength_toList, String.toList_ofList]
  have htotal : byteLength before.flatten + byteLength l + byteLength after.flatten = text.utf8ByteSize := by
    rw [← hsize, hls, List.flatten_append, List.flatten_cons, byteLength_append, byteLength_append]
    omega
  refine ⟨_, (lineAt_eq text position).trans hfind, ⟨before, after, ?_, ?_, hbytes⟩, fun hlt => ?_, fun heq => ?_⟩
  · rw [hls, String.toList_ofList]
  · exact Nat.add_comm 1 before.length
  · rw [hline]
    rcases hcolumn with hcolumn | ⟨rfl, hcolumn⟩
    · exact hcolumn
    · rw [List.flatten_nil, byteLength_nil] at htotal
      omega
  · rw [hline]
    rcases hcolumn with hcolumn | ⟨-, hcolumn⟩
    · omega
    · exact hcolumn

theorem lineAt_eq_none_iff (text : String) (position : Nat) :
    lineAt text position = none ↔ text.utf8ByteSize < position := by
  constructor
  · intro hnone
    by_contra hle
    obtain ⟨line, hline, -⟩ := exists_locates (Nat.le_of_not_lt hle)
    rw [hnone] at hline
    cases hline
  · intro hlt
    rw [lineAt_eq]
    refine findLine_eq_none 1 ?_
    rwa [flatten_places_splitLines, byteLength_toList]

/-- **Looking up a line is exact**: a text is cut into its lines in one way, and there is no line for a
position exactly if the position is beyond the bytes of the text. Otherwise the answer is the line of its number,
the bytes of the lines before it and the column make up the position, and the column is in front of a byte of
the line unless the position is the end of the text. -/
theorem line_lookup_is_exact (text : String) (position : Nat) :
    ∃ ls, (∀ others, Lines text.toList others ↔ others = ls) ∧
      (lineAt text position = none ↔ text.utf8ByteSize < position) ∧
      ∀ line, lineAt text position = some line → line.Locates text ls position := by
  refine ⟨splitLines text.toList, fun _ => lines_iff, lineAt_eq_none_iff text position, fun line hline => ?_⟩
  have hle : position ≤ text.utf8ByteSize := by
    by_contra hlt
    rw [(lineAt_eq_none_iff text position).2 (Nat.lt_of_not_le hlt)] at hline
    cases hline
  obtain ⟨found, hfound, hlocates⟩ := exists_locates hle
  obtain rfl : found = line := Option.some.inj (hfound.symm.trans hline)
  exact hlocates

/-- Byte 3 is inside the first accented character of line 2, and byte 7 is behind the newline that ends it. -/
theorem accented_line_is_exact :
    (lineAt "a\néé\n" 3 = some ⟨2, "éé\n", 1⟩ ∧ lineAt "a\néé\n" 7 = some ⟨2, "éé\n", 5⟩) ∧
      (∃ ls, Lines "a\néé\n".toList ls ∧ Line.Locates "a\néé\n" ls 3 ⟨2, "éé\n", 1⟩) ∧
      ∃ ls, Lines "a\néé\n".toList ls ∧ Line.Locates "a\néé\n" ls 7 ⟨2, "éé\n", 5⟩ := by
  have hlines : lineAt "a\néé\n" 3 = some ⟨2, "éé\n", 1⟩ ∧ lineAt "a\néé\n" 7 = some ⟨2, "éé\n", 5⟩ := by decide
  obtain ⟨ls, hls, -, hinside⟩ := line_lookup_is_exact "a\néé\n" 3
  obtain ⟨ls', hls', -, hbehind⟩ := line_lookup_is_exact "a\néé\n" 7
  exact ⟨hlines, ⟨ls, (hls ls).2 rfl, hinside _ hlines.1⟩, ls', (hls' ls').2 rfl, hbehind _ hlines.2⟩

end Scripting.Text
