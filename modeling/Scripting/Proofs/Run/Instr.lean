import Scripting.Proofs.Run.Sequence

/-!
# What an instruction can do

Where control goes after an instruction, by its form, and when conditions hold.
-/

namespace Scripting

/-! ## Conditions -/

theorem Value.truth_eq_ok {v : Value} {b : Bool} : v.truth = .ok b ↔ v = .boolean b := by
  constructor
  · intro h
    cases v with
    | boolean a =>
      cases h
      rfl
    | int n => cases h
    | text s => cases h
  · rintro rfl
    rfl

namespace Typed

variable {σ : Type}

theorem Expr.constant?_eq_some {e : Expr} {v : Bool} :
    e.constant? = some v ↔ e = .literal (.boolean v) := by
  constructor
  · intro h
    unfold constant? at h
    split at h
    · cases h
      rfl
    · cases h
  · rintro rfl
    rfl

theorem Expr.holds_literal (w : Setting σ) (call : Calls σ) (v : Bool) (m : Machine σ) :
    (Expr.literal (.boolean v)).holds w call m = .ok v m := rfl

theorem Expr.holds_eq_ok {w : Setting σ} {call : Calls σ} {c : Expr} {v : Bool} {m m' : Machine σ} :
    c.holds w call m = .ok v m' ↔ c.eval w call m = .ok (some (.boolean v)) m' := by
  unfold holds Run.required
  simp only [bind_assoc]
  rw [Run.bind_apply]
  cases c.eval w call m with
  | error e m₁ => simp
  | ok v? m₁ =>
    cases v? with
    | none => simp [Run.bind_apply]
    | some u => simp [Run.bind_apply, Run.ofExcept_eq_ok, Value.truth_eq_ok]

/-- The negation of a condition holds when the condition does not. -/
theorem Expr.holds_negate {w : Setting σ} {call : Calls σ} {c : Expr} {v : Bool} {m m' : Machine σ}
    (h : c.holds w call m = .ok v m') : c.negate.holds w call m = .ok (!v) m' := by
  unfold negate
  cases hc : c.constant? with
  | some u =>
    rw [constant?_eq_some.1 hc, holds_literal] at h
    cases h
    rfl
  | none =>
    rw [holds_eq_ok] at h ⊢
    rw [Expr.eval]
    unfold Run.required
    rw [bind_assoc, Run.bind_of_ok h]
    rfl

/-! ## Instructions -/

section Instr

variable {w : Setting σ} {call : Calls σ} {i : Instr} {m m' : Machine σ}

theorem Instr.run_branch {l : Label} {c : Expr} {on : Bool} {flow : Flow}
    (h : (Instr.branch l c on).run w call m = .ok flow m') :
    (flow = .jump l ∧ c.holds w call m = .ok on m') ∨
      (flow = .normal ∧ c.holds w call m = .ok (!on) m') := by
  rw [Instr.run, Run.bind_eq_ok] at h
  obtain ⟨v, m₁, hv, hflow⟩ := h
  by_cases heq : v = on
  · rw [if_pos heq] at hflow
    cases hflow
    exact .inl ⟨rfl, heq ▸ hv⟩
  · rw [if_neg heq] at hflow
    cases hflow
    obtain rfl : v = !on := by cases v <;> cases on <;> simp_all
    exact .inr ⟨rfl, hv⟩

theorem Instr.run_ret {e? : Option Expr} {flow : Flow}
    (h : (Instr.ret e?).run w call m = .ok flow m') : ∃ v?, flow = .returned v? := by
  cases e? with
  | none =>
    cases h
    exact ⟨none, rfl⟩
  | some e =>
    rw [Instr.run, Run.bind_eq_ok] at h
    obtain ⟨v?, m₁, -, hflow⟩ := h
    cases hflow
    exact ⟨v?, rfl⟩

/-- Control goes on to the next instruction unless a jump or a return stands there. -/
theorem Instr.run_of_not_closes {flow : Flow} (hc : i.closes = false)
    (h : i.run w call m = .ok flow m') : flow = .normal := by
  cases i with
  | eval e =>
    rw [Instr.run, Run.bind_eq_ok] at h
    obtain ⟨v?, m₁, -, h⟩ := h
    rw [Run.bind_eq_ok] at h
    obtain ⟨-, m₂, -, h⟩ := h
    cases h
    rfl
  | declare x e =>
    rw [Instr.run, Run.bind_eq_ok] at h
    obtain ⟨v, m₁, -, h⟩ := h
    rw [Run.bind_eq_ok] at h
    obtain ⟨-, m₂, -, h⟩ := h
    rw [Run.bind_eq_ok] at h
    obtain ⟨-, m₃, -, h⟩ := h
    cases h
    rfl
  | label l =>
    cases h
    rfl
  | jump l => cases hc
  | branch l c on => cases hc
  | ret e? => cases hc

theorem Instr.run_eq_jump {l : Label} (h : i.run w call m = .ok (.jump l) m') :
    (i = .jump l ∧ m' = m) ∨ ∃ c on, i = .branch l c on ∧ c.holds w call m = .ok on m' := by
  cases hc : i.closes with
  | false => cases run_of_not_closes hc h
  | true =>
    cases i with
    | jump k =>
      cases h
      exact .inl ⟨rfl, rfl⟩
    | branch k c on =>
      rcases run_branch h with ⟨hf, hv⟩ | ⟨hf, -⟩
      · cases hf
        exact .inr ⟨c, on, rfl, hv⟩
      · cases hf
    | ret e? =>
      obtain ⟨v?, hf⟩ := run_ret h
      cases hf
    | _ => cases hc

theorem Instr.run_eq_returned {v? : Option Value} (h : i.run w call m = .ok (.returned v?) m') :
    ∃ e?, i = .ret e? := by
  cases hc : i.closes with
  | false => cases run_of_not_closes hc h
  | true =>
    cases i with
    | jump k => cases h
    | branch k c on => rcases run_branch h with ⟨hf, -⟩ | ⟨hf, -⟩ <;> cases hf
    | ret e? => exact ⟨e?, rfl⟩
    | _ => cases hc

theorem Instr.run_eq_normal (h : i.run w call m = .ok .normal m') :
    i.closes = false ∨ ∃ l c on, i = .branch l c on ∧ c.holds w call m = .ok (!on) m' := by
  cases hc : i.closes with
  | false => exact .inl rfl
  | true =>
    cases i with
    | jump k => cases h
    | branch k c on =>
      rcases run_branch h with ⟨hf, -⟩ | ⟨-, hv⟩
      · cases hf
      · exact .inr ⟨k, c, on, rfl, hv⟩
    | ret e? =>
      obtain ⟨v?, hf⟩ := run_ret h
      cases hf
    | _ => cases hc

end Instr

end Typed

end Scripting
