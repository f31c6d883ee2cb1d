import Scripting.Run.Evaluate

/-!
# Runs one after the other

What the parts of a composed run do. A run is a function from a machine to a result, so these are the
equations by which composed runs are taken apart.
-/

namespace Scripting.Run

variable {σ α β : Type}

@[simp] theorem pure_apply (a : α) (m : Machine σ) : (pure a : Run σ α) m = .ok a m := rfl

@[simp] theorem throw_apply (e : Halt) (m : Machine σ) : (throw e : Run σ α) m = .error e m := rfl

@[simp] theorem fault_apply (f : Fault) (m : Machine σ) :
    (fault f : Run σ α) m = .error (.fault f) m := rfl

@[simp] theorem get_apply (m : Machine σ) : (get : Run σ (Machine σ)) m = .ok m m := rfl

@[simp] theorem set_apply (m m' : Machine σ) : (set m' : Run σ PUnit) m = .ok () m' := rfl

@[simp] theorem modify_apply (f : Machine σ → Machine σ) (m : Machine σ) :
    (modify f : Run σ PUnit) m = .ok () (f m) := rfl

@[simp] theorem setLast_apply (v? : Option Value) (m : Machine σ) :
    (setLast v? : Run σ Unit) m = .ok () { m with last? := v? } := rfl

@[simp] theorem ofExcept_ok (a : α) : (ofExcept (.ok a) : Run σ α) = pure a := rfl

@[simp] theorem ofExcept_error (e : Halt) : (ofExcept (.error e) : Run σ α) = throw e := rfl

theorem ofExcept_eq_ok {r : Except Halt α} {a : α} {m m' : Machine σ} :
    (ofExcept r : Run σ α) m = .ok a m' ↔ r = .ok a ∧ m = m' := by
  cases r with
  | error e => simp
  | ok b => simp

theorem bind_apply (x : Run σ α) (f : α → Run σ β) (m : Machine σ) :
    (x >>= f) m = match x m with
      | .ok a m' => f a m'
      | .error e m' => .error e m' := by
  show EStateM.bind x f m = _
  unfold EStateM.bind
  cases x m <;> rfl

theorem bind_of_ok {x : Run σ α} {m m' : Machine σ} {a : α} (h : x m = .ok a m') (f : α → Run σ β) :
    (x >>= f) m = f a m' := by
  rw [bind_apply, h]

theorem bind_of_error {x : Run σ α} {m m' : Machine σ} {e : Halt} (h : x m = .error e m')
    (f : α → Run σ β) : (x >>= f) m = .error e m' := by
  rw [bind_apply, h]

theorem bind_eq_ok {x : Run σ α} {f : α → Run σ β} {m m' : Machine σ} {b : β} :
    (x >>= f) m = .ok b m' ↔ ∃ a m₁, x m = .ok a m₁ ∧ f a m₁ = .ok b m' := by
  rw [bind_apply]
  cases x m with
  | ok a m₁ => simp [and_assoc]
  | error e m₁ => simp

end Scripting.Run
