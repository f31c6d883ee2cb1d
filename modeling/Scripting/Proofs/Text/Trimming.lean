import Mathlib.Data.List.TakeWhile
import Scripting.Text.Blank

/-!
# What trimming leaves

Trimming takes all the blanks off the end of a text, or off both ends, and nothing else. That is said here of
the characters alone (`TrimsEnd`, `Trims`), and it determines the result.
-/

namespace Scripting.Text

variable {text inner : List Char} {p : Char → Bool}

/-- The second text is the first without the blanks at its end. -/
structure TrimsEnd (text inner : List Char) : Prop where
  blanks : ∃ back, text = inner ++ back ∧ ∀ c ∈ back, isBlank c = true
  last : ∀ c ∈ inner.getLast?, isBlank c = false

/-- The second text is the first without the blanks at either end. -/
structure Trims (text inner : List Char) : Prop where
  blanks : ∃ front back, text = front ++ (inner ++ back) ∧ (∀ c ∈ front, isBlank c = true) ∧
    ∀ c ∈ back, isBlank c = true
  first : ∀ c ∈ inner.head?, isBlank c = false
  last : ∀ c ∈ inner.getLast?, isBlank c = false

theorem head?_dropWhile (cs : List Char) : ∀ c ∈ (cs.dropWhile p).head?, p c = false := by
  intro c hc
  have h := List.head?_dropWhile_not p cs
  rw [hc] at h
  exact h

/-- Nothing is dropped from a list that begins outside the class. -/
theorem dropWhile_of_head? {cs : List Char} (h : ∀ c ∈ cs.head?, p c = false) : cs.dropWhile p = cs := by
  cases cs with
  | nil => rfl
  | cons c cs =>
    refine List.dropWhile_cons_of_neg ?_
    rw [h c rfl]
    decide

/-! ## The end -/

theorem trimsEnd_dropBlanksEnd (cs : List Char) : TrimsEnd cs (dropBlanksEnd cs) where
  blanks := by
    refine ⟨(cs.reverse.takeWhile isBlank).reverse, ?_, fun c hc => ?_⟩
    · rw [dropBlanksEnd, ← List.reverse_append, List.takeWhile_append_dropWhile, List.reverse_reverse]
    · exact List.mem_takeWhile_imp (List.mem_reverse.1 hc)
  last := by
    rw [dropBlanksEnd, List.getLast?_reverse]
    exact head?_dropWhile cs.reverse

theorem TrimsEnd.eq (h : TrimsEnd text inner) : dropBlanksEnd text = inner := by
  obtain ⟨⟨back, rfl, hback⟩, hlast⟩ := h
  have hreverse : ∀ c ∈ back.reverse, isBlank c = true := fun c hc => hback c (List.mem_reverse.1 hc)
  rw [← List.head?_reverse] at hlast
  rw [dropBlanksEnd, List.reverse_append, List.dropWhile_append_of_pos hreverse, dropWhile_of_head? hlast,
    List.reverse_reverse]

/-! ## Both ends -/

/-- What is left at the front by trimming the end. -/
theorem TrimsEnd.head? (h : TrimsEnd text inner) : ∀ c ∈ inner.head?, c ∈ text.head? := by
  obtain ⟨⟨back, rfl, -⟩, -⟩ := h
  intro c hc
  rw [List.head?_append, hc]
  rfl

theorem trims_trimBlanks (cs : List Char) : Trims cs (trimBlanks cs) := by
  have hend := trimsEnd_dropBlanksEnd (cs.dropWhile isBlank)
  obtain ⟨back, htext, hback⟩ := hend.blanks
  refine ⟨⟨cs.takeWhile isBlank, back, ?_, fun c hc => List.mem_takeWhile_imp hc, hback⟩, ?_, hend.last⟩
  · rw [trimBlanks, ← htext, List.takeWhile_append_dropWhile]
  · exact fun c hc => head?_dropWhile cs c (hend.head? c hc)

theorem Trims.eq (h : Trims text inner) : trimBlanks text = inner := by
  obtain ⟨⟨front, back, rfl, hfront, hback⟩, hfirst, hlast⟩ := h
  have hend : TrimsEnd (inner ++ back) inner := ⟨⟨back, rfl, hback⟩, hlast⟩
  rw [trimBlanks, List.dropWhile_append_of_pos hfront]
  cases inner with
  | nil =>
    -- then there are only blanks, and all of them are dropped from the front
    rw [List.nil_append, List.dropWhile_eq_nil_iff.2 hback]
    rfl
  | cons c inner =>
    have hkept : (c :: inner ++ back).dropWhile isBlank = c :: inner ++ back :=
      dropWhile_of_head? fun d hd => hfirst d hd
    rw [hkept, hend.eq]

/-- Blanks around a text without blanks are what trimming takes off. -/
theorem trims_of_not_isBlank {front back : List Char} (hfront : ∀ c ∈ front, isBlank c = true)
    (hback : ∀ c ∈ back, isBlank c = true) (hinner : ∀ c ∈ inner, isBlank c = false) :
    Trims (front ++ (inner ++ back)) inner where
  blanks := ⟨front, back, rfl, hfront, hback⟩
  first c hc := hinner c (List.mem_of_mem_head? hc)
  last c hc := hinner c (List.mem_of_mem_getLast? hc)

theorem trims_iff : Trims text inner ↔ trimBlanks text = inner :=
  ⟨Trims.eq, fun h => h ▸ trims_trimBlanks text⟩

end Scripting.Text
