import Mathlib.Data.List.Infix
import Scripting.Run.Stmt

/-!
# Straight runs of code

`Code.runs` cuts code into the pieces that become the blocks of a flow graph. Nothing is lost
(`flatten_runs`), no piece is empty (`ne_nil_of_mem_runs`), labels stand first in their piece
(`label_first`) and jumps and returns last (`closes_last`).

What is left of the code at some moment of a run is a suffix of it. Cutting the suffix gives the same
pieces but for the first, of which the beginning may be missing (`runs_of_suffix`). So the number of
pieces of the suffix tells which piece control stands in (`blockOf`).
-/

namespace Scripting.Typed

/-! ## Labels and targets -/

/-- The label an instruction may jump to. -/
def Instr.target? : Instr → Option Label
  | jump l | branch l _ _ => some l
  | _ => none

/-- Every label that an instruction may jump to is declared in the code. -/
def Code.Closed (code : Code) : Prop :=
  ∀ i ∈ code, ∀ l, i.target? = some l → Instr.label l ∈ code

theorem Instr.label?_eq_some {i : Instr} {l : Label} : i.label? = some l ↔ i = .label l := by
  cases i <;> simp [Instr.label?]

theorem Code.ofStmts?_map_instr (code : Code) : Code.ofStmts? (code.map Stmt.instr) = some code := by
  induction code with
  | nil => rfl
  | cons i code ih =>
    show (Code.ofStmts? (code.map Stmt.instr)).map (i :: ·) = _
    rw [ih]
    rfl

/-- Code, seen as statements, is cut into the runs of the code. -/
theorem Stmt.runs_map_instr (code : Code) : Stmt.runs (code.map Stmt.instr) = .ok code.runs := by
  unfold Stmt.runs
  rw [Code.ofStmts?_map_instr]

namespace Code

/-! ## One instruction more -/

/-- In front of the pieces of the rest, an instruction is a piece of its own or joins the first. -/
theorem runs_cons (i : Instr) (rest : Code) :
    runs (i :: rest) = [i] :: runs rest ∨
      ∃ r rs, runs rest = r :: rs ∧ runs (i :: rest) = (i :: r) :: rs ∧ i.closes = false ∧
        opens r = false := by
  rw [runs]
  cases h : runs rest with
  | nil => exact .inl rfl
  | cons r rs =>
    by_cases hc : (i.closes || opens r) = true
    · exact .inl (by simp only [hc, ite_true])
    · simp only [Bool.or_eq_true, not_or, Bool.not_eq_true] at hc
      exact .inr ⟨r, rs, rfl, by simp [hc.1, hc.2], hc.1, hc.2⟩

theorem runs_cons_of_closes {i : Instr} (hi : i.closes = true) (rest : Code) :
    runs (i :: rest) = [i] :: runs rest := by
  rcases runs_cons i rest with h | ⟨r, rs, -, -, hc, -⟩
  · exact h
  · rw [hi] at hc
    cases hc

theorem flatten_runs (code : Code) : (runs code).flatten = code := by
  induction code with
  | nil => rfl
  | cons i rest ih =>
    rcases runs_cons i rest with h | ⟨r, rs, hr, h, -, -⟩
    · rw [h, List.flatten_cons, ih, List.singleton_append]
    · rw [hr, List.flatten_cons] at ih
      rw [h, List.flatten_cons, List.cons_append, ih]

theorem ne_nil_of_mem_runs {code r : Code} (h : r ∈ runs code) : r ≠ [] := by
  induction code generalizing r with
  | nil => simp [runs] at h
  | cons i rest ih =>
    rcases runs_cons i rest with hc | ⟨q, qs, hq, hc, -, -⟩
    · rw [hc, List.mem_cons] at h
      rcases h with rfl | h
      · simp
      · exact ih h
    · rw [hc, List.mem_cons] at h
      rcases h with rfl | h
      · simp
      · exact ih (hq ▸ List.mem_cons_of_mem _ h)

@[simp] theorem runs_eq_nil {code : Code} : runs code = [] ↔ code = [] := by
  constructor
  · intro h
    rw [← flatten_runs code, h, List.flatten_nil]
  · rintro rfl
    rfl

/-- A label of the code opens one of the pieces. -/
theorem exists_run_of_label {code : Code} {l : Label} (h : Instr.label l ∈ code) :
    ∃ r ∈ runs code, r.head? = some (.label l) := by
  induction code with
  | nil => simp at h
  | cons i rest ih =>
    rcases runs_cons i rest with hc | ⟨q, qs, hq, hc, -, hopen⟩
    · rcases List.mem_cons.1 h with rfl | h
      · exact ⟨[.label l], by rw [hc]; exact List.mem_cons_self, rfl⟩
      · obtain ⟨r, hr, hl⟩ := ih h
        exact ⟨r, by rw [hc]; exact List.mem_cons_of_mem _ hr, hl⟩
    · rcases List.mem_cons.1 h with rfl | h
      · exact ⟨.label l :: q, by rw [hc]; exact List.mem_cons_self, rfl⟩
      · obtain ⟨r, hr, hl⟩ := ih h
        rw [hq, List.mem_cons] at hr
        rcases hr with rfl | hr
        · -- the first piece of the rest opens with no label
          cases r with
          | nil => simp at hl
          | cons j r =>
            rw [List.head?_cons, Option.some.injEq] at hl
            subst hl
            simp [opens] at hopen
        · exact ⟨r, by rw [hc]; exact List.mem_cons_of_mem _ hr, hl⟩

/-- Only the first instruction of a piece declares a label. -/
theorem label_first {code r : Code} (h : r ∈ runs code) : ∀ i ∈ r.tail, i.label? = none := by
  induction code generalizing r with
  | nil => simp [runs] at h
  | cons i rest ih =>
    rcases runs_cons i rest with hc | ⟨q, qs, hq, hc, -, hopen⟩
    · rw [hc, List.mem_cons] at h
      rcases h with rfl | h
      · simp
      · exact ih h
    · rw [hc, List.mem_cons] at h
      rcases h with rfl | h
      · have htail := ih (hq ▸ List.mem_cons_self)
        intro j hj
        rw [List.tail_cons] at hj
        cases q with
        | nil => cases hj
        | cons k q =>
          rcases List.mem_cons.1 hj with rfl | hj
          · cases j <;> simp_all [opens, Instr.label?]
          · exact htail j hj
      · exact ih (hq ▸ List.mem_cons_of_mem _ h)

/-- Only the last instruction of a piece jumps or returns. -/
theorem closes_last {code r : Code} (h : r ∈ runs code) : ∀ i ∈ r.dropLast, i.closes = false := by
  induction code generalizing r with
  | nil => simp [runs] at h
  | cons i rest ih =>
    rcases runs_cons i rest with hc | ⟨q, qs, hq, hc, hi, -⟩
    · rw [hc, List.mem_cons] at h
      rcases h with rfl | h
      · simp
      · exact ih h
    · rw [hc, List.mem_cons] at h
      rcases h with rfl | h
      · have hmem : q ∈ runs rest := hq ▸ List.mem_cons_self
        have hne : q ≠ [] := ne_nil_of_mem_runs hmem
        intro j hj
        rw [List.dropLast_cons_of_ne_nil hne, List.mem_cons] at hj
        rcases hj with rfl | hj
        · exact hi
        · exact ih hmem j hj
      · exact ih (hq ▸ List.mem_cons_of_mem _ h)

/-! ## Where control stands -/

/-- The number of the block that a suffix of the code begins in; behind the last one stands the exit. -/
def blockOf (code suffix : Code) : Nat := (runs code).length + 1 - (runs suffix).length

/-- The pieces of a suffix are the last pieces of the code, the first of them perhaps cut short. -/
theorem runs_of_suffix {code suffix r : Code} {rs : List Code} (h : suffix <:+ code)
    (hr : runs suffix = r :: rs) : ∃ before cut, runs code = before ++ (cut ++ r) :: rs := by
  obtain ⟨front, rfl⟩ := h
  induction front with
  | nil => exact ⟨[], [], by simpa using hr⟩
  | cons i front ih =>
    obtain ⟨before, cut, h⟩ := ih
    rw [List.cons_append]
    rcases runs_cons i (front ++ suffix) with hc | ⟨q, qs, hq, hc, -, -⟩
    · exact ⟨[i] :: before, cut, by rw [hc, h, List.cons_append]⟩
    · rw [hq] at h
      cases before with
      | nil =>
        obtain ⟨rfl, rfl⟩ : q = cut ++ r ∧ qs = rs := by simpa using h
        exact ⟨[], i :: cut, hc⟩
      | cons p before =>
        obtain ⟨rfl, rfl⟩ : q = p ∧ qs = before ++ (cut ++ r) :: rs := by simpa using h
        exact ⟨(i :: q) :: before, cut, by rw [hc, List.cons_append]⟩

theorem blockOf_self {code : Code} : blockOf code code = 1 := by
  unfold blockOf
  omega

theorem blockOf_nil {code : Code} : blockOf code [] = (runs code).length + 1 := by
  unfold blockOf
  rw [runs, List.length_nil, Nat.sub_zero]

end Code

end Scripting.Typed
