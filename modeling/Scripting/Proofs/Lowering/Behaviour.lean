import Scripting.Proofs.Lowering.Simulation

/-!
# Statements and their code behave alike

Two runs behave alike if both go on forever, or both end, given enough fuel, with results that agree
(`Run.SameBehaviour`). A statement whose jumps stay inside it behaves like its code, and as the body of
a function like the code of that body (`Stmt.Scoped.sameBehaviour_lower`, `sameBehaviour_lowerBody`).
-/

namespace Scripting

variable {σ α β : Type}

namespace Run

/-- The run never ends, whatever fuel it gets. -/
def Diverges (x : Nat → Run σ α) (m : Machine σ) : Prop := ∀ fuel, ¬ Finished (x fuel m)

/-- Given enough fuel, the run ends with the result. -/
def Settles (x : Nat → Run σ α) (m : Machine σ) (r : Result σ α) : Prop :=
  Finished r ∧ ∃ n, ∀ fuel, n ≤ fuel → x fuel m = r

/-- Both runs go on forever, or both end: with the same error or with values related by `R`, and on
machines that differ at most in the value of the last statement. -/
def SameBehaviour (R : α → β → Prop) (x : Nat → Run σ α) (y : Nat → Run σ β) (m : Machine σ) : Prop :=
  (Diverges x m ∧ Diverges y m) ∨ ∃ r r', Settles x m r ∧ Settles y m r' ∧ Agree AnyLast R r r'

/-! ## Flows that a run can give -/

/-- Whatever the run gives satisfies `Q`. -/
def Gives (x : Run σ α) (Q : α → Prop) : Prop := ∀ m a m', x m = .ok a m' → Q a

theorem gives_pure {a : α} {Q : α → Prop} (h : Q a) : Gives (pure a : Run σ α) Q := by
  intro m b m' hb
  cases hb
  exact h

theorem Gives.bind {x : Run σ α} {g : α → Run σ β} {P : α → Prop} {Q : β → Prop} (h : Gives x P)
    (hg : ∀ a, P a → Gives (g a) Q) : Gives (x >>= g) Q := by
  intro m b m' hb
  obtain ⟨a, m₁, ha, hb⟩ := bind_eq_ok.1 hb
  exact hg a (h m a m₁ ha) m₁ b m' hb

theorem gives_of_bind {x : Run σ α} {g : α → Run σ β} {Q : β → Prop} (hg : ∀ a, Gives (g a) Q) :
    Gives (x >>= g) Q :=
  Gives.bind (P := fun _ => True) (fun _ _ _ _ => trivial) fun a _ => hg a

theorem gives_steps {label? : α → Option Typed.Label} {step : α → Run σ Flow} {list : List α}
    {Q : Flow → Prop} (hnormal : Q .normal) (hstep : ∀ a ∈ list, Gives (step a) Q) (fuel : Nat)
    {suffix : List α} (hs : suffix ⊆ list) : Gives (steps label? step list fuel suffix) Q := by
  refine steps_rule (S := fun x => Gives x Q) hnormal ?_ (fun _ hflow _ => gives_pure hflow)
    (fun a ha next hnext => ?_) fuel hs
  · exact fun _ _ _ h => nomatch h
  · exact (hstep a ha).bind hnext

/-- A pass after which the loop goes on. -/
theorem gives_none {Q : Flow → Prop} :
    Gives (pure none : Run σ (Option Flow)) fun flow? => ∀ flow ∈ flow?, Q flow :=
  gives_pure fun _ h => by cases h

/-- A pass that leaves the loop. -/
theorem gives_some {Q : Flow → Prop} {flow : Flow} (h : Q flow) :
    Gives (pure (some flow) : Run σ (Option Flow)) fun flow? => ∀ flow ∈ flow?, Q flow :=
  gives_pure fun _ hf => Option.mem_some.1 hf ▸ h

theorem gives_repeatPasses {pass : Run σ (Option Flow)} {Q : Flow → Prop}
    (h : Gives pass fun flow? => ∀ flow ∈ flow?, Q flow) (fuel : Nat) :
    Gives (repeatPasses pass fuel) Q := by
  induction fuel with
  | zero => exact fun _ _ _ h => nomatch h
  | succ fuel ih =>
    refine h.bind fun flow? hflow => ?_
    cases flow? with
    | none => exact ih
    | some flow => exact gives_pure (hflow flow rfl)

end Run

/-- If the flow is a jump, it is to one of the labels. -/
def Flow.Targets (ts : List Typed.Label) (flow : Flow) : Prop := ∀ l, flow = .jump l → l ∈ ts

theorem Flow.targets_normal (ts : List Typed.Label) : Targets ts .normal := by
  intro l hl
  cases hl

theorem Run.Gives.pass {body : Run σ Flow} {x y : Typed.Label} {ts : List Typed.Label}
    (h : Gives body (Flow.Targets (x :: y :: ts))) :
    Gives (Run.pass x y body) fun flow? => ∀ flow ∈ flow?, flow.Targets ts := by
  refine h.bind fun flow hflow => ?_
  cases flow with
  | normal => exact gives_none
  | returned v? =>
    refine gives_some fun l hl => ?_
    cases hl
  | jump l =>
    by_cases hy : l = y
    · simp only [if_pos hy]
      exact gives_none
    · by_cases hx : l = x
      · simp only [if_neg hy, if_pos hx]
        exact gives_some (Flow.targets_normal ts)
      · simp only [if_neg hy, if_neg hx]
        refine gives_some fun l' hl => ?_
        cases hl
        simpa [hx, hy] using hflow l rfl

namespace Typed

variable {w : Setting σ} {call : Calls σ}

/-- A statement jumps to labels around it only. -/
theorem Stmt.Scoped.gives_run {P : Instr → Prop} {ts : List Label} {s : Stmt} (h : s.Scoped P ts)
    (f : Nat) : Run.Gives (s.run w call f) (Flow.Targets ts) := by
  induction h with
  | @instr ts i _ _ target =>
    rw [Stmt.run]
    intro m flow m' hrun l hl
    subst hl
    rcases Instr.run_eq_jump hrun with ⟨rfl, -⟩ | ⟨c, on, rfl, -⟩
    · exact target l rfl
    · exact target l rfl
  | @block ts ss _ ih =>
    rw [Stmt.run_block]
    exact Run.gives_steps (Flow.targets_normal ts) ih f (List.Subset.refl ss)
  | @ifThen ts c s _ _ ih =>
    rw [Stmt.run]
    refine Run.gives_of_bind fun v => ?_
    cases v with
    | true => exact ih
    | false => exact Run.gives_pure (Flow.targets_normal ts)
  | ifElse _ _ _ ihs iht =>
    rw [Stmt.run]
    refine Run.gives_of_bind fun v => ?_
    cases v with
    | true => exact ihs
    | false => exact iht
  | whileLoop _ _ ih =>
    rw [Stmt.run]
    refine Run.gives_repeatPasses (Run.gives_of_bind fun v => ?_) f
    cases v with
    | true => exact ih.pass
    | false => exact Run.gives_some (Flow.targets_normal _)
  | doWhile _ _ ih =>
    rw [Stmt.run]
    refine Run.gives_repeatPasses (ih.pass.bind fun flow? hflow => ?_) f
    cases flow? with
    | some flow => exact Run.gives_pure hflow
    | none =>
      refine Run.gives_of_bind fun v => ?_
      cases v with
      | true => exact Run.gives_none
      | false => exact Run.gives_some (Flow.targets_normal _)
  | @forLoop ts i c n s x y _ _ _ _ ihi ihs =>
    rw [Stmt.run]
    refine ihi.bind fun flow hflow => ?_
    cases flow with
    | returned v? => exact Run.gives_pure hflow
    | jump l => exact Run.gives_pure hflow
    | normal =>
      refine Run.gives_repeatPasses (Run.gives_of_bind fun v => ?_) f
      cases v with
      | false => exact Run.gives_some (Flow.targets_normal _)
      | true =>
        refine ihs.pass.bind fun flow? hflow? => ?_
        cases flow? with
        | some flow => exact Run.gives_pure hflow?
        | none => exact Run.gives_of_bind fun _ => Run.gives_none

/-! ## Behaviour -/

/-- What the code gives with some fuel is what it settles on. -/
theorem Code.settles {code : Code} {a n : Nat} {m : Machine σ} {r : Run.Result σ Flow}
    (h : code.run w (Run.call w a) n m = r) (hr : Run.Finished r) :
    Run.Settles (fun fuel => code.run w (Run.call w fuel) fuel) m r := by
  subst h
  refine ⟨hr, max a n, fun fuel hle => ?_⟩
  have hcall := Run.call_below (S := Eq) (fun _ => rfl) w (show a ≤ fuel by omega)
  exact (code.run_below (fun _ => rfl) hcall (by omega)).eq hr

theorem Stmt.settles {s : Stmt} {a n : Nat} {m : Machine σ} {r : Run.Result σ Flow}
    (h : s.run w (Run.call w a) n m = r) (hr : Run.Finished r) :
    Run.Settles (fun fuel => s.run w (Run.call w fuel) fuel) m r := by
  subst h
  refine ⟨hr, max a n, fun fuel hle => ?_⟩
  have hcall := Run.call_below (S := Eq) (fun _ => rfl) w (show a ≤ fuel by omega)
  exact (s.run_below (fun _ => rfl) hcall (by omega)).eq hr

/-- A statement behaves like its code followed by `rest`, if `rest` ends at once with a flow that is
related to that of the statement. -/
theorem Stmt.Scoped.sameBehaviour {s : Stmt} (h : s.Scoped Instr.Strict []) {lo hi : Nat}
    (hn : s.Numbered lo hi) {rest : Code} (hrest : rest.labels = []) {R : Flow → Flow → Prop}
    (hend : ∀ flow, (∀ l, flow ≠ .jump l) → ∃ flow', R flow flow' ∧ ∀ call m, ∃ d,
      Run.Takes d (fun n => Code.exit w call (s.lower ++ rest) rest flow n m) fun _ => .ok flow' m)
    (m : Machine σ) :
    Run.SameBehaviour R (fun fuel => s.run w (Run.call w fuel) fuel)
      (fun fuel => Code.run w (Run.call w fuel) fuel (s.lower ++ rest)) m := by
  have hnodup : (Code.labels (s.lower ++ rest)).Nodup := by
    rw [Code.labels_append, hrest, List.append_nil]
    exact (hn.labels_lowered 0).nodup
  have hmatch : ∀ a f, Run.Matches (fun _ => Run.AnyLast) f (sizeOf s)
      (Code.exit w (Run.call w a) (s.lower ++ rest) rest)
      (fun n => Code.run w (Run.call w a) n (s.lower ++ rest) m) (s.run w (Run.call w a) f m) :=
    fun a f => h.simulated (fun _ hi => hi) (Run.call_below Run.AnyLast.refl w le_rfl) hnodup f 0
      rest m m (List.suffix_refl _) (.refl Run.AnyLast.refl m)
  by_cases hfin : ∃ fuel, Run.Finished (s.run w (Run.call w fuel) fuel m)
  · obtain ⟨fuel, hfin⟩ := hfin
    have hm := hmatch fuel fuel
    cases hr : s.run w (Run.call w fuel) fuel m with
    | ok flow m₁ =>
      rw [hr] at hm
      obtain ⟨d, hm₁, hx⟩ := hm
      have hjump : ∀ l, flow ≠ .jump l := fun l hl => nomatch h.gives_run fuel m flow m₁ hr l hl
      obtain ⟨flow', hR, htakes⟩ := hend flow hjump
      obtain ⟨e, he⟩ := htakes (Run.call w fuel) _
      have hcode := (hx.trans he).after 0 (Run.finished_ok _ _)
      exact .inr ⟨_, _, Stmt.settles hr (Run.finished_ok _ _),
        Code.settles hcode (Run.finished_ok _ _), .ok hR hm₁⟩
    | error e m₁ =>
      rw [hr] at hm hfin
      cases hm with
      | error d he hm₁ hx =>
        have hcode := hx.after 0 (Run.finished_error.2 he)
        exact .inr ⟨_, _, Stmt.settles hr (Run.finished_error.2 he),
          Code.settles hcode (Run.finished_error.2 he), .error hm₁⟩
      | outOfFuel => exact absurd rfl (hfin m₁)
  · refine .inl ⟨fun fuel hfuel => hfin ⟨fuel, hfuel⟩, fun fuel hfuel => hfin ?_⟩
    have hfinished := (hmatch fuel (fuel + sizeOf s)).finished le_rfl hfuel
    obtain ⟨-, n, hsettles⟩ := Stmt.settles rfl hfinished
    have heq : s.run w (Run.call w n) n m = s.run w (Run.call w fuel) (fuel + sizeOf s) m :=
      hsettles n le_rfl
    exact ⟨n, by rwa [heq]⟩

theorem Code.takes_exit_nil {code : Code} {flow : Flow} (hflow : ∀ l, flow ≠ .jump l)
    (call : Calls σ) (m : Machine σ) :
    Run.Takes 0 (fun n => code.exit w call [] flow n m) fun _ => .ok flow m := by
  cases flow with
  | normal =>
    have hnil : ∀ n, code.runFrom w call n [] m = .ok .normal m := by
      intro n
      cases n <;> rfl
    simp only [Code.exit, hnil]
    exact .refl _
  | returned v? => exact .refl _
  | jump l => exact absurd rfl (hflow l)

/-- The statement behaves like its code. -/
theorem Stmt.Scoped.sameBehaviour_lower {s : Stmt} (h : s.Scoped Instr.Strict []) {lo hi : Nat}
    (hn : s.Numbered lo hi) (m : Machine σ) :
    Run.SameBehaviour Eq (fun fuel => s.run w (Run.call w fuel) fuel)
      (fun fuel => s.lower.run w (Run.call w fuel) fuel) m := by
  have hsame := h.sameBehaviour (w := w) hn Code.labels_nil (R := Eq)
    (fun flow hflow => ⟨flow, rfl, fun call m => ⟨0, Code.takes_exit_nil hflow call m⟩⟩) m
  rwa [List.append_nil] at hsame

end Typed

/-- A call whose body ends with the flow has the value: none if the body falls off its end. -/
def Flow.Answers (flow : Flow) (v? : Option Value) : Prop :=
  flow = .returned v? ∨ flow = .normal ∧ v? = none

theorem Flow.exists_answers {flow : Flow} (h : ∀ l, flow ≠ .jump l) : ∃ v?, flow.Answers v? := by
  cases flow with
  | normal => exact ⟨none, .inr ⟨rfl, rfl⟩⟩
  | returned v? => exact ⟨v?, .inl rfl⟩
  | jump l => exact absurd rfl (h l)

/-- The statement as the body of a function behaves like the code of the body: calls of the two have
the same value. -/
theorem Typed.Stmt.Scoped.sameBehaviour_lowerBody {w : Setting σ} {s : Typed.Stmt}
    (h : s.Scoped Typed.Instr.Strict []) {lo hi : Nat} (hn : s.Numbered lo hi) (returns : Ty)
    (m : Machine σ) :
    Run.SameBehaviour (fun a b => ∃ v?, a.Answers v? ∧ b.Answers v?)
      (fun fuel => s.run w (Run.call w fuel) fuel)
      (fun fuel => (s.lowerBody returns).run w (Run.call w fuel) fuel) m := by
  unfold Typed.Stmt.lowerBody
  split
  · refine h.sameBehaviour hn rfl (fun flow hflow => ?_) m
    cases flow with
    | normal =>
      refine ⟨.returned none, ⟨none, .inr ⟨rfl, rfl⟩, .inl rfl⟩, fun call m => ⟨1, ?_⟩⟩
      exact .one (Typed.Code.not_finished_runFrom _ [] m) fun _ => rfl
    | returned v? => exact ⟨_, ⟨v?, .inl rfl, .inl rfl⟩, fun call m => ⟨0, .refl _⟩⟩
    | jump l => exact absurd rfl (hflow l)
  · have hsame := h.sameBehaviour (w := w) hn Typed.Code.labels_nil
      (R := fun a b => ∃ v?, a.Answers v? ∧ b.Answers v?) (fun flow hflow => ?_) m
    · rwa [List.append_nil] at hsame
    · obtain ⟨v?, hv⟩ := Flow.exists_answers hflow
      exact ⟨flow, ⟨v?, hv, hv⟩, fun call m => ⟨0, Typed.Code.takes_exit_nil hflow call m⟩⟩

end Scripting
