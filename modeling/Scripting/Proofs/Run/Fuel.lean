import Scripting.Proofs.Run.Jumps
import Scripting.Proofs.Run.Sequence
import Scripting.Proofs.Typed.Induction

/-!
# More fuel

A run that finishes gives the same with more fuel, and from a machine that differs only in the value
of its last statement, which no run reads. Both are one fact, `Below S x y`: what `x` gives unless its
fuel runs out, `y` gives from any machine that is alike up to `S`. With equality for `S` it says that
fuel only adds answers; with the relation that always holds, that the last value has no influence.
-/

namespace Scripting

variable {σ α β : Type} {S : Option Value → Option Value → Prop}

/-- Machines alike but for the values of their last statements, which are related by `S`. -/
structure Machine.Alike (S : Option Value → Option Value → Prop) (m m' : Machine σ) : Prop where
  globals : m.globals = m'.globals
  frames : m.frames = m'.frames
  last? : S m.last? m'.last?
  host : m.host = m'.host

namespace Machine.Alike

theorem refl (hS : ∀ v?, S v? v?) (m : Machine σ) : m.Alike S m := ⟨rfl, rfl, hS _, rfl⟩

theorem imp {T : Option Value → Option Value → Prop} {m m' : Machine σ} (h : m.Alike S m')
    (hST : ∀ v? v?', S v? v?' → T v? v?') : m.Alike T m' :=
  { h with last? := hST _ _ h.last? }

theorem exists_last {m m' : Machine σ} (h : m.Alike S m') :
    ∃ v?, S m.last? v? ∧ m' = { m with last? := v? } := by
  obtain ⟨globals, frames, last?, host⟩ := m
  obtain ⟨globals', frames', last?', host'⟩ := m'
  obtain ⟨rfl, rfl, hlast, rfl⟩ := h
  exact ⟨last?', hlast, rfl⟩

end Machine.Alike

namespace Run

/-- The results of a run from a machine. -/
abbrev Result (σ α : Type) := EStateM.Result Halt (Machine σ) α

/-- Results that are related by `R`, or the same reason to stop, on machines that are alike. -/
inductive Agree (S : Option Value → Option Value → Prop) (R : α → β → Prop) :
    Result σ α → Result σ β → Prop
  | ok {a b m m'} (hab : R a b) (hm : m.Alike S m') : Agree S R (.ok a m) (.ok b m')
  | error {e m m'} (hm : m.Alike S m') : Agree S R (.error e m) (.error e m')

/-- The run ended before its fuel did. -/
def Finished (r : Result σ α) : Prop := ∀ m, r ≠ .error .outOfFuel m

@[simp] theorem finished_ok (a : α) (m : Machine σ) : Finished (.ok a m : Result σ α) := nofun

theorem finished_error {e : Halt} {m : Machine σ} :
    Finished (.error e m : Result σ α) ↔ e ≠ .outOfFuel := by
  constructor
  · rintro h rfl
    exact h m rfl
  · rintro h m' heq
    cases heq
    exact h rfl

theorem not_finished {r : Result σ α} : ¬ Finished r ↔ ∃ m, r = .error .outOfFuel m := by
  unfold Finished
  push Not
  rfl

theorem Agree.finished {R : α → β → Prop} {r : Result σ α} {r' : Result σ β} (h : Agree S R r r') :
    Finished r ↔ Finished r' := by
  cases h with
  | ok => simp
  | error => rw [finished_error, finished_error]

/-- What `x` gives unless its fuel runs out, `y` gives too. -/
def Below (S : Option Value → Option Value → Prop) (x y : Run σ α) : Prop :=
  ∀ m m', m.Alike S m' → Finished (x m) → Agree S Eq (x m) (y m')

theorem below_pure (a : α) : Below S (pure a : Run σ α) (pure a) :=
  fun _ _ hm _ => .ok rfl hm

theorem below_throw (e : Halt) : Below S (throw e : Run σ α) (throw e) :=
  fun _ _ hm _ => .error hm

theorem below_fault (f : Fault) : Below S (fault f : Run σ α) (fault f) := below_throw _

theorem below_outOfFuel (y : Run σ α) : Below S (throw .outOfFuel) y :=
  fun m _ _ h => absurd rfl (h m)

theorem below_ofExcept (r : Except Halt α) : Below S (ofExcept r : Run σ α) (ofExcept r) := by
  cases r with
  | ok a => exact below_pure a
  | error e => exact below_throw e

theorem Below.bind {x y : Run σ α} {f g : α → Run σ β} (h : Below S x y)
    (hf : ∀ a, Below S (f a) (g a)) : Below S (x >>= f) (y >>= g) := by
  intro m m' hm hfin
  have hx : Finished (x m) := by
    intro m₁ h₁
    exact hfin m₁ (bind_of_error h₁ f)
  have hagree := h m m' hm hx
  rw [bind_apply] at hfin ⊢
  rw [bind_apply]
  revert hagree hfin
  generalize x m = r
  generalize y m' = r'
  rintro hfin hagree
  revert hfin
  cases hagree with
  | ok hab hm₁ =>
    subst hab
    exact hf _ _ _ hm₁
  | error hm₁ => exact fun _ => .error hm₁

theorem Below.required {x y : Run σ (Option Value)} (h : Below S x y) :
    Below S (required x) (required y) := by
  refine h.bind fun v? => ?_
  cases v? with
  | none => exact below_fault _
  | some v => exact below_pure v

/-- Two runs from one machine that both finish agree. -/
theorem Below.eq {x y : Run σ α} (h : Below Eq x y) {m : Machine σ} (hx : Finished (x m)) :
    y m = x m := by
  have hagree := h m m (.refl (fun _ => rfl) m) hx
  revert hagree
  generalize y m = r'
  cases x m with
  | ok a m₁ =>
    rintro (⟨rfl, hm⟩ | _)
    obtain ⟨v?, rfl, rfl⟩ := hm.exists_last
    rfl
  | error e m₁ =>
    rintro (_ | hm)
    obtain ⟨v?, rfl, rfl⟩ := hm.exists_last
    rfl

theorem Below.inFrame {x y : Run σ α} (h : Below S x y) (frame : Store) :
    Below S (inFrame frame x) (inFrame frame y) := by
  intro m m' hm hfin
  obtain ⟨v?, hlast, rfl⟩ := hm.exists_last
  have hagree := h { m with frames := frame :: m.frames } { m with frames := frame :: m.frames, last? := v? }
    ⟨rfl, rfl, hlast, rfl⟩
  unfold Run.inFrame at hfin ⊢
  revert hagree hfin
  generalize x { m with frames := frame :: m.frames } = r
  generalize y { m with frames := frame :: m.frames, last? := v? } = r'
  intro hfin hagree
  have hr : Finished r := by
    rintro m₁ rfl
    exact hfin _ rfl
  cases hagree hr with
  | ok hab hm₁ => exact .ok hab ⟨hm₁.globals, by simp only [hm₁.frames], hm₁.last?, hm₁.host⟩
  | error hm₁ => exact .error ⟨hm₁.globals, by simp only [hm₁.frames], hm₁.last?, hm₁.host⟩

/-! ## The machine's own operations -/

theorem below_setLast (hS : ∀ v?, S v? v?) (v? : Option Value) :
    Below S (setLast v? : Run σ Unit) (setLast v?) :=
  fun _ _ hm _ => .ok rfl ⟨hm.globals, hm.frames, hS v?, hm.host⟩

theorem below_lookup (w : Setting σ) (x : VarId) : Below S (lookup w x) (lookup w x) := by
  intro m m' hm _
  obtain ⟨v?, hlast, rfl⟩ := hm.exists_last
  unfold lookup
  cases w.symbols.variableAt? x with
  | none => exact .error hm
  | some symbol =>
    simp only [bind_apply, get_apply]
    cases symbol.kind with
    | global =>
      cases m.globals.get? x with
      | none => exact .error hm
      | some v => exact .ok rfl hm
    | local_ | parameter =>
      cases m.frames.head?.bind (·.get? x) with
      | none => exact .error hm
      | some v => exact .ok rfl hm

theorem below_assign (w : Setting σ) (x : VarId) (v : Value) :
    Below S (assign w x v) (assign w x v) := by
  intro m m' hm _
  obtain ⟨v?, hlast, rfl⟩ := hm.exists_last
  unfold assign
  cases w.symbols.variableAt? x with
  | none => exact .error hm
  | some symbol =>
    simp only [bind_apply, get_apply]
    cases symbol.kind with
    | global => exact .ok rfl ⟨rfl, rfl, hlast, rfl⟩
    | local_ | parameter =>
      obtain ⟨globals, frames, last?, host⟩ := m
      cases frames with
      | nil => exact .error ⟨rfl, rfl, hlast, rfl⟩
      | cons frame rest => exact .ok rfl ⟨rfl, rfl, hlast, rfl⟩

theorem below_builtin (w : Setting σ) (b : Builtin) (arguments : List Value) :
    Below S (builtin w b arguments) (builtin w b arguments) := by
  have hask : ∀ {γ : Type} (ask : σ → γ × σ) (answer : γ → Value),
      Below S (do
        let m ← get
        let (a, host) := ask m.host
        set { m with host := host }
        return some (answer a) : Run σ (Option Value)) (do
        let m ← get
        let (a, host) := ask m.host
        set { m with host := host }
        return some (answer a)) := by
    intro γ ask answer m m' hm _
    obtain ⟨v?, hlast, rfl⟩ := hm.exists_last
    exact .ok rfl ⟨rfl, rfl, hlast, rfl⟩
  cases b with
  | input => exact hask _ _
  | print =>
    cases arguments with
    | nil => exact below_fault _
    | cons v rest =>
      refine (below_ofExcept _).bind fun s => ?_
      intro m m' hm _
      obtain ⟨v?, hlast, rfl⟩ := hm.exists_last
      exact .ok rfl ⟨rfl, rfl, hlast, rfl⟩
  | random =>
    cases arguments with
    | nil => exact below_fault _
    | cons v rest => exact (below_ofExcept _).bind fun max => hask _ _

/-! ## Lists and loops -/

theorem steps_below {label? : α → Option Typed.Label} {step step' : α → Run σ Flow} {list : List α}
    (h : ∀ a ∈ list, Below S (step a) (step' a)) {fuel fuel' : Nat} (hle : fuel ≤ fuel')
    {suffix : List α} (hs : suffix ⊆ list) :
    Below S (steps label? step list fuel suffix) (steps label? step' list fuel' suffix) := by
  induction fuel generalizing fuel' suffix with
  | zero =>
    cases suffix with
    | nil => cases fuel' <;> exact below_pure _
    | cons a rest => exact below_outOfFuel _
  | succ fuel ih =>
    obtain ⟨fuel', rfl⟩ : ∃ n, fuel' = n + 1 := ⟨fuel' - 1, by omega⟩
    cases suffix with
    | nil => exact below_pure _
    | cons a rest =>
      obtain ⟨ha, hrest⟩ := List.cons_subset.1 hs
      rw [steps_cons, steps_cons]
      refine (h a ha).bind fun flow => ?_
      cases flow with
      | normal => exact ih (by omega) hrest
      | returned v? => exact below_pure _
      | jump l =>
        cases hl : after? label? l list with
        | none =>
          rw [resume_jump_of_none hl, resume_jump_of_none hl]
          exact below_pure _
        | some target =>
          rw [resume_jump_of_some hl, resume_jump_of_some hl]
          obtain ⟨b, -, hsuffix, -⟩ := after?_eq_some hl
          exact ih (by omega) fun c hc => hsuffix.subset (List.mem_cons_of_mem b hc)

theorem steps_map {γ : Type} (label? : γ → Option Typed.Label) (step : γ → Run σ Flow) (g : α → γ)
    (list : List α) (fuel : Nat) (suffix : List α) :
    steps label? step (list.map g) fuel (suffix.map g) =
      steps (fun a => label? (g a)) (fun a => step (g a)) list fuel suffix := by
  induction fuel generalizing suffix with
  | zero => cases suffix <;> rfl
  | succ fuel ih =>
    cases suffix with
    | nil => rfl
    | cons a rest =>
      rw [List.map_cons, steps_cons, steps_cons]
      congr 1
      funext flow
      cases flow with
      | normal => exact ih rest
      | returned v? => rfl
      | jump l =>
        cases hl : after? (fun a => label? (g a)) l list with
        | none => rw [resume_jump_of_none hl, resume_jump_of_none (by rw [after?_map, hl]; rfl)]
        | some target =>
          rw [resume_jump_of_some hl, resume_jump_of_some (by rw [after?_map, hl]; rfl), ih]

theorem repeatPasses_below {pass pass' : Run σ (Option Flow)} (h : Below S pass pass')
    {fuel fuel' : Nat} (hle : fuel ≤ fuel') :
    Below S (repeatPasses pass fuel) (repeatPasses pass' fuel') := by
  induction fuel generalizing fuel' with
  | zero => exact below_outOfFuel _
  | succ fuel ih =>
    obtain ⟨fuel', rfl⟩ : ∃ n, fuel' = n + 1 := ⟨fuel' - 1, by omega⟩
    refine h.bind fun flow? => ?_
    cases flow? with
    | none => exact ih (by omega)
    | some flow => exact below_pure _

theorem Below.pass {body body' : Run σ Flow} (h : Below S body body') (onBreak onContinue : Typed.Label) :
    Below S (pass onBreak onContinue body) (pass onBreak onContinue body') := by
  refine h.bind fun flow => ?_
  cases flow with
  | normal => exact below_pure _
  | returned v? => exact below_pure _
  | jump l =>
    by_cases hc : l = onContinue
    · simp only [hc, if_true]
      exact below_pure _
    · by_cases hb : l = onBreak
      · simp only [hb, if_true]
        split <;> exact below_pure _
      · simp only [if_neg hc, if_neg hb]
        exact below_pure _

end Run

namespace Typed

variable {w : Setting σ} {call call' : Calls σ}

/-! ## Expressions -/

theorem Expr.evalList_below {es : List Expr}
    (h : ∀ e ∈ es, Run.Below S (e.eval w call) (e.eval w call')) :
    Run.Below S (Expr.evalList w call es) (Expr.evalList w call' es) := by
  induction es with
  | nil => exact Run.below_pure _
  | cons e es ih =>
    obtain ⟨he, hes⟩ := List.forall_mem_cons.1 h
    rw [Expr.evalList, Expr.evalList]
    exact he.required.bind fun v => (ih hes).bind fun vs => Run.below_pure _

theorem Expr.eval_below (h : ∀ f vs, Run.Below S (call f vs) (call' f vs)) (e : Expr) :
    Run.Below S (e.eval w call) (e.eval w call') := by
  induction e with
  | literal v => exact Run.below_pure _
  | name x t => exact (Run.below_lookup w x).bind fun v => Run.below_pure _
  | assign x e t ih =>
    rw [Expr.eval, Expr.eval]
    exact ih.required.bind fun v => (Run.below_assign w x v).bind fun _ => Run.below_pure _
  | compound x o e t ih =>
    rw [Expr.eval, Expr.eval]
    exact (Run.below_lookup w x).bind fun a => ih.required.bind fun b =>
      (Run.below_ofExcept _).bind fun v => (Run.below_assign w x v).bind fun _ => Run.below_pure _
  | unary o e ih =>
    rw [Expr.eval, Expr.eval]
    exact ih.required.bind fun v => (Run.below_ofExcept _).bind fun v => Run.below_pure _
  | binary l o r ihl ihr =>
    rw [Expr.eval, Expr.eval]
    refine ihl.required.bind fun a => (Run.below_ofExcept _).bind fun v? => ?_
    cases v? with
    | some v => exact Run.below_pure _
    | none => exact ihr.required.bind fun b => (Run.below_ofExcept _).bind fun v => Run.below_pure _
  | convert t e ih =>
    rw [Expr.eval, Expr.eval]
    exact ih.required.bind fun v => (Run.below_ofExcept _).bind fun v => Run.below_pure _
  | call f es t ih =>
    rw [Expr.eval, Expr.eval]
    exact (Expr.evalList_below ih).bind fun vs => h f vs
  | error => exact Run.below_fault _

theorem Expr.holds_below (h : ∀ f vs, Run.Below S (call f vs) (call' f vs)) (c : Expr) :
    Run.Below S (c.holds w call) (c.holds w call') :=
  (c.eval_below h).required.bind fun _ => Run.below_ofExcept _

/-! ## Statements -/

theorem Instr.run_below (hS : ∀ v?, S v? v?) (h : ∀ f vs, Run.Below S (call f vs) (call' f vs))
    (i : Instr) : Run.Below S (i.run w call) (i.run w call') := by
  cases i with
  | eval e =>
    exact (e.eval_below h).bind fun v? => (Run.below_setLast hS v?).bind fun _ => Run.below_pure _
  | declare x e =>
    exact (e.eval_below h).required.bind fun v => (Run.below_assign w x v).bind fun _ =>
      (Run.below_setLast hS _).bind fun _ => Run.below_pure _
  | label l => exact Run.below_pure _
  | jump l => exact Run.below_pure _
  | branch l c on =>
    refine (c.holds_below h).bind fun b => ?_
    by_cases hb : b = on
    · simp only [if_pos hb]
      exact Run.below_pure _
    · simp only [if_neg hb]
      exact Run.below_pure _
  | ret e? =>
    cases e? with
    | none => exact Run.below_pure _
    | some e => exact (e.eval_below h).bind fun v? => Run.below_pure _

theorem Code.run_below (hS : ∀ v?, S v? v?) (h : ∀ f vs, Run.Below S (call f vs) (call' f vs))
    {fuel fuel' : Nat} (hle : fuel ≤ fuel') (code : Code) :
    Run.Below S (code.run w call fuel) (code.run w call' fuel') :=
  Run.steps_below (fun i _ => i.run_below hS h) hle (List.Subset.refl code)

theorem Stmt.steps_eq_map (fuel : Nat) (ss : List Stmt) :
    Stmt.steps w call fuel ss = ss.map fun s => ⟨s.label?, s.run w call fuel⟩ := by
  induction ss with
  | nil => rfl
  | cons s ss ih => rw [Stmt.steps, ih, List.map_cons]

/-- A block runs its statements as a list. -/
theorem Stmt.run_block (fuel : Nat) (ss : List Stmt) :
    (Stmt.block ss).run w call fuel =
      Run.steps Stmt.label? (fun s => s.run w call fuel) ss fuel ss := by
  rw [Stmt.run, Step.runList, Stmt.steps_eq_map, Run.steps_map]

theorem Stmt.run_below (hS : ∀ v?, S v? v?) (h : ∀ f vs, Run.Below S (call f vs) (call' f vs))
    {fuel fuel' : Nat} (hle : fuel ≤ fuel') (s : Stmt) :
    Run.Below S (s.run w call fuel) (s.run w call' fuel') := by
  induction s with
  | instr i =>
    rw [Stmt.run, Stmt.run]
    exact i.run_below hS h
  | block ss ih =>
    rw [Stmt.run_block, Stmt.run_block]
    exact Run.steps_below ih hle (List.Subset.refl ss)
  | ifThen c s ih =>
    rw [Stmt.run, Stmt.run]
    refine (c.holds_below h).bind fun b => ?_
    cases b with
    | true => exact ih
    | false => exact Run.below_pure _
  | ifElse c s t ihs iht =>
    rw [Stmt.run, Stmt.run]
    refine (c.holds_below h).bind fun b => ?_
    cases b with
    | true => exact ihs
    | false => exact iht
  | whileLoop c s x y ih =>
    rw [Stmt.run, Stmt.run]
    refine Run.repeatPasses_below ((c.holds_below h).bind fun b => ?_) hle
    cases b with
    | true => exact ih.pass x y
    | false => exact Run.below_pure _
  | doWhile s c x y ih =>
    rw [Stmt.run, Stmt.run]
    refine Run.repeatPasses_below ((ih.pass x y).bind fun flow? => ?_) hle
    cases flow? with
    | some flow => exact Run.below_pure _
    | none =>
      refine (c.holds_below h).bind fun b => ?_
      cases b with
      | true => exact Run.below_pure _
      | false => exact Run.below_pure _
  | forLoop i c n s x y ihi ihs =>
    rw [Stmt.run, Stmt.run]
    refine ihi.bind fun flow => ?_
    cases flow with
    | jump l => exact Run.below_pure _
    | returned v? => exact Run.below_pure _
    | normal =>
      refine Run.repeatPasses_below ((c.holds_below h).bind fun b => ?_) hle
      cases b with
      | false => exact Run.below_pure _
      | true =>
        refine (ihs.pass x y).bind fun flow? => ?_
        cases flow? with
        | some flow => exact Run.below_pure _
        | none => exact (n.eval_below h).bind fun _ => Run.below_pure _

end Typed

theorem Body.run_below (hS : ∀ v?, S v? v?) {w : Setting σ} {call call' : Calls σ}
    (h : ∀ f vs, Run.Below S (call f vs) (call' f vs)) {fuel fuel' : Nat} (hle : fuel ≤ fuel')
    (body : Body) : Run.Below S (body.run w call fuel) (body.run w call' fuel') := by
  cases body with
  | flat code => exact code.run_below hS h hle
  | structured ss => exact (Typed.Stmt.block ss).run_below hS h hle

/-- **Calls.** A call that ends within its fuel ends alike with more of it. -/
theorem Run.call_below (hS : ∀ v?, S v? v?) (w : Setting σ) {fuel fuel' : Nat} (hle : fuel ≤ fuel')
    (f : FuncId) (vs : List Value) :
    Run.Below S (Run.call w fuel f vs) (Run.call w fuel' f vs) := by
  induction fuel generalizing fuel' f vs with
  | zero => exact Run.below_outOfFuel _
  | succ fuel ih =>
    obtain ⟨fuel', rfl⟩ : ∃ n, fuel' = n + 1 := ⟨fuel' - 1, by omega⟩
    unfold Run.call
    cases w.symbols.functionAt? f with
    | none => exact Run.below_fault _
    | some symbol =>
      cases hb : symbol.builtin? with
      | some b =>
        simp only [hb]
        exact Run.below_builtin w b vs
      | none =>
        simp only [hb]
        cases w.body? f with
        | none => exact Run.below_fault _
        | some body =>
          refine ((body.run_below hS (fun g us => ih (by omega) g us) (by omega)).inFrame _).bind
            fun flow => ?_
          cases flow with
          | normal => exact Run.below_pure _
          | returned v? => exact Run.below_pure _
          | jump l => exact Run.below_fault _

end Scripting
