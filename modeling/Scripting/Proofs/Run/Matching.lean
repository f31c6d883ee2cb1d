import Scripting.Proofs.Run.Fuel

/-!
# Matching runs

A run with its structure spelled out needs fuel for every instruction, so it cannot be compared with
the run of the structure at the same fuel. `Matches` compares the result of one run with a run `x` for
every fuel: `x` gets, after some number of steps, to where the result leads, and as long as the one is
out of fuel so is the other. What `x` does after that is left open as `next`, and how the values of the last
statements are related then as `S`.
-/

namespace Scripting.Run

variable {σ α β γ : Type}

/-- No condition on the values of last statements. -/
def AnyLast (_ _ : Option Value) : Prop := True

theorem AnyLast.refl (v? : Option Value) : AnyLast v? v? := trivial

theorem AnyLast.equivalence : Equivalence AnyLast := ⟨AnyLast.refl, fun _ => trivial, fun _ _ => trivial⟩

/-- The values of last statements are the same, if the proposition holds. -/
def SameIf (p : Prop) (v? v?' : Option Value) : Prop := p → v? = v?'

theorem SameIf.equivalence (p : Prop) : Equivalence (SameIf p) :=
  ⟨fun _ _ => rfl, fun h hp => (h hp).symm, fun h h' hp => (h hp).trans (h' hp)⟩

/-- The run `x` takes `d` steps and goes on as `y`: it finishes alike, `d` steps later. -/
structure Takes (d : Nat) (x y : Nat → Result σ γ) : Prop where
  after : ∀ n, Finished (y n) → x (n + d) = y n
  before : ∀ n, Finished (x n) → ∃ k, n = k + d ∧ Finished (y k)

namespace Takes

variable {d e : Nat} {x y z : Nat → Result σ γ}

theorem refl (x : Nat → Result σ γ) : Takes 0 x x := ⟨fun _ _ => rfl, fun n hn => ⟨n, rfl, hn⟩⟩

theorem trans (h : Takes d x y) (h' : Takes e y z) : Takes (e + d) x z := by
  constructor
  · intro n hn
    have hy := h'.after n hn
    rw [← Nat.add_assoc, h.after (n + e) (hy ▸ hn), hy]
  · intro n hn
    obtain ⟨k, rfl, hk⟩ := h.before n hn
    obtain ⟨j, rfl, hj⟩ := h'.before k hk
    exact ⟨j, by omega, hj⟩

/-- One step. -/
theorem one (h₀ : ¬ Finished (x 0)) (h : ∀ n, x (n + 1) = y n) : Takes 1 x y := by
  refine ⟨fun n _ => h n, fun n hn => ?_⟩
  cases n with
  | zero => exact absurd hn h₀
  | succ n => exact ⟨n, rfl, h n ▸ hn⟩

/-- Two runs that both take a step to the same place. -/
theorem zero (h : Takes 1 x z) (h' : Takes 1 y z) : Takes 0 x y := by
  constructor
  · intro n hn
    obtain ⟨k, rfl, hk⟩ := h'.before n hn
    rw [h'.after k hk]
    exact h.after k hk
  · intro n hn
    obtain ⟨k, rfl, hk⟩ := h.before n hn
    exact ⟨k + 1, rfl, (h'.after k hk).symm ▸ hk⟩

end Takes

/-- The run `x` gets to where the result `r` leads, and goes on as `next` says. Unless `r` is an error, the
values of the last statements are then related by `S`. If `r` is out of fuel, `x` is with all fuel up to
`f - z`. -/
inductive Matches (S : α → Option Value → Option Value → Prop) (f z : Nat) (next : α → Nat → Run σ γ)
    (x : Nat → Result σ γ) : Result σ α → Prop
  | ok {a m m'} (d : Nat) (hm : m.Alike (S a) m') (hx : Takes d x fun n => next a n m') :
    Matches S f z next x (.ok a m)
  | error {e m m'} (d : Nat) (he : e ≠ .outOfFuel) (hm : m.Alike AnyLast m')
    (hx : Takes d x fun _ => .error e m') : Matches S f z next x (.error e m)
  | outOfFuel {m} (hx : ∀ n, n + z ≤ f → ¬ Finished (x n)) : Matches S f z next x (.error .outOfFuel m)

namespace Matches

variable {S : α → Option Value → Option Value → Prop} {T : β → Option Value → Option Value → Prop}
  {f f' z z' : Nat} {next : α → Nat → Run σ γ} {next' : β → Nat → Run σ γ} {x x' : Nat → Result σ γ}
  {r : Result σ α}

theorem imp (h : Matches S f z next x r) {S' : α → Option Value → Option Value → Prop}
    (hS : ∀ a v? v?', S a v? v?' → S' a v? v?') : Matches S' f z next x r := by
  cases h with
  | ok d hm hx => exact .ok d (hm.imp (hS _)) hx
  | error d he hm hx => exact .error d he hm hx
  | outOfFuel hx => exact .outOfFuel hx

theorem mono (h : Matches S f z next x r) (hle : f' + z ≤ f + z') : Matches S f' z' next x r := by
  cases h with
  | ok d hm hx => exact .ok d hm hx
  | error d he hm hx => exact .error d he hm hx
  | outOfFuel hx => exact .outOfFuel fun n hn => hx n (by omega)

/-- Steps taken beforehand; they make up for less fuel. -/
theorem after {d : Nat} (h : Matches S f z next x r) (hx : Takes d x' x) (hf : f' ≤ f + d) :
    Matches S f' z next x' r := by
  cases h with
  | ok e hm hx' => exact .ok _ hm (hx.trans hx')
  | error e he hm hx' => exact .error _ he hm (hx.trans hx')
  | outOfFuel hx' =>
    refine .outOfFuel fun n hn hfin => ?_
    obtain ⟨k, rfl, hk⟩ := hx.before n hfin
    exact hx' k (by omega) hk

theorem bind {y : Run σ α} {g : α → Run σ β} {m : Machine σ} (h : Matches S f z next x (y m))
    (hg : ∀ a m₁ m₁', y m = .ok a m₁ → m₁.Alike (S a) m₁' →
      Matches T f z next' (fun n => next a n m₁') (g a m₁)) :
    Matches T f z next' x ((y >>= g) m) := by
  rw [bind_apply]
  revert h hg
  generalize y m = r
  intro h hg
  cases h with
  | ok d hm hx => exact (hg _ _ _ rfl hm).after hx (by omega)
  | error d he hm hx => exact .error d he hm hx
  | outOfFuel hx => exact .outOfFuel hx

/-- What comes next may be followed further. -/
theorem trans (h : Matches S f z next x r) {next' : α → Nat → Run σ γ}
    (hn : ∀ a m, ∃ d, Takes d (fun n => next a n m) fun n => next' a n m) :
    Matches S f z next' x r := by
  cases h with
  | @ok a m m' d hm hx =>
    obtain ⟨e, he⟩ := hn a m'
    exact .ok _ hm (hx.trans he)
  | error d he hm hx => exact .error d he hm hx
  | outOfFuel hx => exact .outOfFuel hx

/-- A result that is only renamed. -/
theorem of_map {y : Run σ α} {g : α → β} {m : Machine σ}
    (h : Matches T f z next' x ((y >>= fun a => pure (g a)) m)) :
    Matches (fun a => T (g a)) f z (fun a => next' (g a)) x (y m) := by
  rw [bind_apply] at h
  revert h
  generalize y m = r
  intro h
  cases r with
  | ok a m₁ =>
    cases h with
    | ok d hm hx => exact .ok d hm hx
  | error e m₁ =>
    cases h with
    | error d he hm hx => exact .error d he hm hx
    | outOfFuel hx => exact .outOfFuel hx

/-- If `x` ends within its fuel, the other run does with `z` more. -/
theorem finished (h : Matches S f z next x r) {n : Nat} (hn : n + z ≤ f) (hx : Finished (x n)) :
    Finished r := by
  cases h with
  | ok => exact finished_ok _ _
  | error d he => exact finished_error.2 he
  | outOfFuel hout => exact absurd hx (hout n hn)

end Matches

variable {S : Option Value → Option Value → Prop}

/-- From machines that are alike, a run does the same. -/
theorem Below.alike {y : Run σ α} (h : Below S y y) (hS : Equivalence S) {m m' : Machine σ}
    (hm : m.Alike S m') :
    (∃ a m₁ m₁', y m = .ok a m₁ ∧ y m' = .ok a m₁' ∧ m₁.Alike S m₁') ∨
      (∃ e m₁ m₁', e ≠ .outOfFuel ∧ y m = .error e m₁ ∧ y m' = .error e m₁' ∧ m₁.Alike S m₁') ∨
      ∃ m₁ m₁', y m = .error .outOfFuel m₁ ∧ y m' = .error .outOfFuel m₁' := by
  by_cases hfin : Finished (y m)
  · have hagree := h m m' hm hfin
    revert hagree hfin
    generalize y m = r
    generalize y m' = r'
    rintro hfin (⟨rfl, hm₁⟩ | hm₁)
    · exact .inl ⟨_, _, _, rfl, rfl, hm₁⟩
    · exact .inr (.inl ⟨_, _, _, finished_error.1 hfin, rfl, rfl, hm₁⟩)
  · have hfin' : ¬ Finished (y m') := fun hfin' => hfin <| by
      have hm' : m'.Alike S m := ⟨hm.globals.symm, hm.frames.symm, hS.symm hm.last?, hm.host.symm⟩
      exact (h m' m hm' hfin').finished.1 hfin'
    obtain ⟨m₁, hr⟩ := not_finished.1 hfin
    obtain ⟨m₁', hr'⟩ := not_finished.1 hfin'
    exact .inr (.inr ⟨m₁, m₁', hr, hr'⟩)

/-- A loop matches if its passes do. They start at `top`, and `back` leads there again in one step. The
values of last statements are related by `S` there, and by `T` where the loop is left. -/
theorem matches_repeatPasses {f z : Nat} {pass : Run σ (Option Flow)} {top back : Nat → Run σ Flow}
    {next : Flow → Nat → Run σ Flow} {T : Flow → Option Value → Option Value → Prop}
    (hback : ∀ m, Takes 1 (fun n => back n m) fun n => top n m)
    (hpass : ∀ m m', m.Alike S m' →
      Matches (fun flow? => flow?.elim S T) f z
        (fun flow? n => flow?.elim (back n) fun flow => next flow n) (fun n => top n m') (pass m))
    (j : Nat) {m m' : Machine σ} (hm : m.Alike S m') {x : Nat → Result σ Flow}
    (hx : Takes 1 x fun n => top n m') :
    Matches T (min f (j + z)) z next x (repeatPasses pass j m) := by
  -- the fuel of the loop bounds the number of passes, and each pass takes a step at least
  induction j generalizing m m' x with
  | zero =>
    refine .outOfFuel fun n hn hfin => ?_
    obtain ⟨k, hk, -⟩ := hx.before n hfin
    omega
  | succ j ih =>
    rw [repeatPasses, bind_apply]
    have hp := hpass m m' hm
    revert hp
    generalize pass m = r
    intro hp
    cases hp with
    | @ok flow? m₁ m₁' d hm₁ hx₁ =>
      cases flow? with
      | some flow => exact .ok _ hm₁ (hx.trans hx₁)
      | none => exact (ih hm₁ (hback m₁')).after (hx.trans hx₁) (by omega)
    | error d he hm₁ hx₁ => exact .error _ he hm₁ (hx.trans hx₁)
    | outOfFuel hx₁ =>
      refine .outOfFuel fun n hn hfin => ?_
      obtain ⟨k, rfl, hk⟩ := hx.before n hfin
      exact hx₁ k (by omega) hk

end Scripting.Run
