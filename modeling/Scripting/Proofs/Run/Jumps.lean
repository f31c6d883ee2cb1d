import Mathlib.Data.List.Infix
import Scripting.Run.Stmt

/-!
# Where jumps go

A jump continues behind the last declaration of its label (`Run.after?`). `Run.resume` is what is left
to run of a list when one of its members has said where control goes.
-/

namespace Scripting.Run

variable {σ α : Type} {label? : α → Option Typed.Label} {l : Typed.Label}

theorem after?_eq_none {list : List α} :
    after? label? l list = none ↔ ∀ a ∈ list, label? a ≠ some l := by
  induction list with
  | nil => simp [after?]
  | cons a rest ih =>
    rw [after?, List.forall_mem_cons, ← ih]
    cases after? label? l rest with
    | none => simp
    | some suffix => simp

theorem after?_append_cons {front suffix : List α} {a : α} (ha : label? a = some l)
    (hs : ∀ b ∈ suffix, label? b ≠ some l) : after? label? l (front ++ a :: suffix) = some suffix := by
  induction front with
  | nil => rw [List.nil_append, after?, after?_eq_none.2 hs, if_pos ha]
  | cons b front ih => rw [List.cons_append, after?, ih]

theorem after?_eq_some {list suffix : List α} (h : after? label? l list = some suffix) :
    ∃ a, label? a = some l ∧ a :: suffix <:+ list ∧ ∀ b ∈ suffix, label? b ≠ some l := by
  induction list with
  | nil => cases h
  | cons a rest ih =>
    rw [after?] at h
    cases hr : after? label? l rest with
    | none =>
      rw [hr] at h
      by_cases ha : label? a = some l
      · obtain rfl : rest = suffix := by simpa [ha] using h
        exact ⟨a, ha, List.suffix_refl _, after?_eq_none.1 hr⟩
      · simp [ha] at h
    | some s =>
      rw [hr] at h
      obtain ⟨b, hb, hs, hn⟩ := ih (hr.trans h)
      exact ⟨b, hb, hs.trans (List.suffix_cons a rest), hn⟩

theorem after?_map {β : Type} (label? : β → Option Typed.Label) (g : α → β) (l : Typed.Label)
    (list : List α) :
    after? label? l (list.map g) = (after? (fun a => label? (g a)) l list).map (List.map g) := by
  induction list with
  | nil => rfl
  | cons a rest ih =>
    rw [List.map_cons, after?, after?, ih]
    cases after? (fun a => label? (g a)) l rest with
    | none => by_cases h : label? (g a) = some l <;> simp [h]
    | some suffix => rfl

/-- Goes on in a list as a flow says; `rest` is what comes next if it is normal. -/
def resume (label? : α → Option Typed.Label) (step : α → Run σ Flow) (list : List α) (fuel : Nat)
    (rest : List α) : Flow → Run σ Flow
  | .normal => steps label? step list fuel rest
  | .returned v? => pure (.returned v?)
  | .jump l =>
    match after? label? l list with
    | some suffix => steps label? step list fuel suffix
    | none => pure (.jump l)

section Resume

variable {step : α → Run σ Flow} {list : List α} {fuel : Nat} {rest : List α}

theorem steps_cons (a : α) :
    steps label? step list (fuel + 1) (a :: rest) =
      step a >>= resume label? step list fuel rest := by
  rw [steps]
  congr 1

theorem resume_jump_of_some {suffix : List α} (h : after? label? l list = some suffix) :
    resume label? step list fuel rest (.jump l) = steps label? step list fuel suffix := by
  simp only [resume, h]

theorem resume_jump_of_none (h : after? label? l list = none) :
    resume label? step list fuel rest (.jump l) = pure (.jump l) := by
  simp only [resume, h]

/-- A property of runs holds of a list if each member keeps it, whatever is run next. `Q` is what is
known of the flow that a member gives; the list itself gives a jump only to a label it does not have. -/
theorem steps_rule {S : Run σ Flow → Prop} {Q : Flow → Prop} (hnormal : Q .normal)
    (hfuel : S (throw .outOfFuel))
    (hpure : ∀ flow, Q flow → (∀ l, flow = .jump l → after? label? l list = none) → S (pure flow))
    (hstep : ∀ a ∈ list, ∀ next : Flow → Run σ Flow, (∀ flow, Q flow → S (next flow)) →
      S (step a >>= next))
    (fuel : Nat) {suffix : List α} (hs : suffix ⊆ list) : S (steps label? step list fuel suffix) := by
  have hend : S (pure .normal) := hpure .normal hnormal nofun
  induction fuel generalizing suffix with
  | zero =>
    cases suffix with
    | nil => exact hend
    | cons a rest => exact hfuel
  | succ fuel ih =>
    cases suffix with
    | nil => exact hend
    | cons a rest =>
      obtain ⟨ha, hrest⟩ := List.cons_subset.1 hs
      rw [steps_cons]
      refine hstep a ha _ fun flow hflow => ?_
      cases flow with
      | normal => exact ih hrest
      | returned v? => exact hpure _ hflow nofun
      | jump l =>
        cases hl : after? label? l list with
        | none =>
          rw [resume_jump_of_none hl]
          exact hpure _ hflow fun _ h => Flow.jump.inj h ▸ hl
        | some target =>
          rw [resume_jump_of_some hl]
          obtain ⟨b, -, hsuffix, -⟩ := after?_eq_some hl
          exact ih fun c hc => hsuffix.subset (List.mem_cons_of_mem b hc)

end Resume

end Scripting.Run
