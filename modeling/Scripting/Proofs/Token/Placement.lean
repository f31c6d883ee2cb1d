import Mathlib.Tactic.Common
import Scripting.Proofs.Text.Lines
import Scripting.Token.Basic

/-!
# Spans in a script

A span lies in a script if both its ends are boundaries of characters (`Span.Within`); the tokens of a script do,
one behind the other (`Token.Placed`). Every offset in a script is in one of its lines (`Text.exists_lineAt`).
-/

namespace Scripting

namespace Text

/-! ## Boundaries and lines -/

/-- The first `n` bytes of the text are a number of whole characters. -/
def Boundary (text : List Char) (n : Nat) : Prop :=
  ∃ front back, text = front ++ back ∧ byteLength front = n

theorem Boundary.le {text : List Char} {n : Nat} (h : Boundary text n) : n ≤ byteLength text := by
  obtain ⟨front, back, rfl, rfl⟩ := h
  rw [byteLength_append]
  exact Nat.le_add_right _ _

theorem exists_front_of_dropBytes {n : Nat} {text back : List Char} (h : dropBytes n text = some back) :
    ∃ front, text = front ++ back ∧ byteLength front = n := by
  fun_induction dropBytes n text with
  | case1 cs => exact ⟨[], Option.some.inj h, rfl⟩
  | case2 => cases h
  | case3 n c cs hc ih =>
    obtain ⟨front, rfl, hfront⟩ := ih h
    refine ⟨c :: front, rfl, ?_⟩
    rw [byteLength_cons, hfront]
    omega
  | case4 => cases h

theorem boundary_iff {text : List Char} {n : Nat} : Boundary text n ↔ (dropBytes n text).isSome := by
  constructor
  · rintro ⟨front, back, rfl, rfl⟩
    rw [dropBytes_byteLength]
    rfl
  · intro h
    obtain ⟨back, hback⟩ := Option.isSome_iff_exists.1 h
    obtain ⟨front, hfront⟩ := exists_front_of_dropBytes hback
    exact ⟨front, back, hfront⟩

instance (text : List Char) (n : Nat) : Decidable (Boundary text n) := decidable_of_iff' _ boundary_iff

/-- The line is a part of the text, and the offset lies in it. -/
structure Line.Holds (text : List Char) (offset : Nat) (line : Line) : Prop where
  stands : ∃ front back, text = front ++ (line.text.toList ++ back) ∧
    byteLength front + line.column = offset
  inside : line.column ≤ byteLength line.text.toList

/-- Every place in a text up to its end is in one of its lines. -/
theorem exists_lineAt {text : String} {offset : Nat} (h : offset ≤ byteLength text.toList) :
    ∃ line, lineAt text offset = some line ∧ line.Holds text.toList offset := by
  rw [byteLength_toList] at h
  obtain ⟨line, hline, hlocates⟩ := exists_locates h
  obtain ⟨before, after, hplaces, -, hoffset⟩ := hlocates.counted
  refine ⟨line, hline, ⟨before.flatten, after.flatten, ?_, hoffset⟩, ?_⟩
  · have hflat := flatten_places_splitLines text.toList
    rw [hplaces, List.flatten_append, List.flatten_cons] at hflat
    exact hflat.symm
  · rw [byteLength_toList]
    exact (Nat.lt_or_eq_of_le h).elim (fun hlt => Nat.le_of_lt (hlocates.inside hlt))
      fun heq => Nat.le_of_eq (hlocates.behind heq)

end Text

/-! ## Recorded offsets -/

theorem Position.recorded_of_lt {p : Position} (h : p.offset < offsetBound) : p.recorded = p := by
  unfold Position.recorded
  rw [Nat.mod_eq_of_lt h]

theorem Span.recorded_of_lt {s : Span} (hstart : s.start < offsetBound) (hstop : s.stop < offsetBound) :
    s.recorded = s := by
  unfold Span.recorded
  rw [Nat.mod_eq_of_lt hstart, Nat.mod_eq_of_lt hstop]

/-! ## Spans in a script -/

/-- The span lies in the text, and does not cut a character. -/
structure Span.Within (text : List Char) (s : Span) : Prop where
  ordered : s.start ≤ s.stop
  bounded : s.stop ≤ Text.byteLength text
  start : Text.Boundary text s.start
  stop : Text.Boundary text s.stop

/-- Nothing of the second span is outside the first. -/
def Span.Covers (s t : Span) : Prop := s.start ≤ t.start ∧ t.stop ≤ s.stop

theorem Span.within_of_boundary {text : List Char} {s : Span} (hstart : Text.Boundary text s.start)
    (hstop : Text.Boundary text s.stop) (hle : s.start ≤ s.stop) : s.Within text :=
  ⟨hle, hstop.le, hstart, hstop⟩

namespace Token

/-- The tokens lie in the text, one behind the other. -/
structure Placed (text : List Char) (ts : List Token) : Prop where
  within : ∀ t ∈ ts, t.span.Within text
  apart : ts.Pairwise fun t u => t.span.stop ≤ u.span.start

theorem Placed.sublist {text : List Char} {ts us : List Token} (h : Placed text ts)
    (hus : us.Sublist ts) : Placed text us :=
  ⟨fun t ht => h.within t (hus.subset ht), h.apart.sublist hus⟩

end Token

end Scripting
