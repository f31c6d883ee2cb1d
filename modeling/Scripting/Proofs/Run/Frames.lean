import Scripting.Proofs.Run.Fuel

/-!
# Frames of the calls around

A run changes the frame of the current call at most. However it ends, there are as many frames as before,
and those of the calls around the current one hold what they held (`Run.Confined`).
-/

namespace Scripting

variable {σ α β : Type}

/-- There are as many frames as before, and only that of the current call may have changed. -/
structure Machine.SameCallers (m m' : Machine σ) : Prop where
  length : m'.frames.length = m.frames.length
  tail : m'.frames.tail = m.frames.tail

namespace Machine.SameCallers

variable {m m' m₁ : Machine σ}

theorem of_eq (h : m'.frames = m.frames) : m.SameCallers m' := ⟨congrArg _ h, congrArg _ h⟩

theorem trans (h : m.SameCallers m₁) (h' : m₁.SameCallers m') : m.SameCallers m' :=
  ⟨h'.length.trans h.length, h'.tail.trans h.tail⟩

/-- Outside calls there is no frame to change. -/
theorem nil (h : m.SameCallers m') (hm : m.frames = []) : m'.frames = [] :=
  List.length_eq_zero_iff.1 (h.length.trans (congrArg _ hm))

end Machine.SameCallers

namespace Run

def Result.machine : Result σ α → Machine σ
  | .ok _ m | .error _ m => m

/-- However it ends, the run leaves the frames of the calls around the current one alone. -/
def Confined (x : Run σ α) : Prop := ∀ m : Machine σ, m.SameCallers (Result.machine (x m))

theorem confined_pure (a : α) : Confined (pure a : Run σ α) := fun _ => .of_eq rfl

theorem confined_throw (e : Halt) : Confined (throw e : Run σ α) := fun _ => .of_eq rfl

theorem confined_fault (f : Fault) : Confined (fault f : Run σ α) := confined_throw _

theorem confined_ofExcept (r : Except Halt α) : Confined (ofExcept r : Run σ α) := by
  cases r with
  | ok a => exact confined_pure a
  | error e => exact confined_throw e

theorem Confined.bind {x : Run σ α} {f : α → Run σ β} (h : Confined x) (hf : ∀ a, Confined (f a)) :
    Confined (x >>= f) := by
  intro m
  have hx := h m
  rw [bind_apply]
  generalize x m = r at hx
  cases r with
  | ok a m₁ => exact hx.trans (hf a m₁)
  | error e m₁ => exact hx

theorem Confined.required {x : Run σ (Option Value)} (h : Confined x) : Confined (required x) := by
  refine h.bind fun v? => ?_
  cases v? with
  | none => exact confined_fault _
  | some v => exact confined_pure v

theorem confined_setLast (v? : Option Value) : Confined (setLast v? : Run σ Unit) :=
  fun _ => .of_eq rfl

theorem confined_lookup (w : Setting σ) (x : VarId) : Confined (lookup w x) := by
  intro m
  unfold lookup
  cases w.symbols.variableAt? x with
  | none => exact .of_eq rfl
  | some symbol =>
    simp only [bind_apply, get_apply]
    cases symbol.kind with
    | global => cases m.globals.get? x <;> exact .of_eq rfl
    | local_ | parameter => cases m.frames.head?.bind (·.get? x) <;> exact .of_eq rfl

theorem confined_assign (w : Setting σ) (x : VarId) (v : Value) : Confined (assign w x v) := by
  intro m
  unfold assign
  cases w.symbols.variableAt? x with
  | none => exact .of_eq rfl
  | some symbol =>
    obtain ⟨globals, frames, last?, host⟩ := m
    simp only [bind_apply, get_apply]
    cases symbol.kind with
    | global => exact .of_eq rfl
    | local_ | parameter =>
      cases frames with
      | nil => exact .of_eq rfl
      | cons frame rest => exact ⟨rfl, rfl⟩

theorem confined_builtin (w : Setting σ) (b : Builtin) (arguments : List Value) :
    Confined (builtin w b arguments) := by
  cases b with
  | input => exact fun _ => .of_eq rfl
  | print =>
    cases arguments with
    | nil => exact confined_fault _
    | cons v rest => exact (confined_ofExcept _).bind fun s => fun _ => .of_eq rfl
  | random =>
    cases arguments with
    | nil => exact confined_fault _
    | cons v rest => exact (confined_ofExcept _).bind fun max => fun _ => .of_eq rfl

/-- A run in a frame of its own leaves all frames alone. -/
theorem Confined.inFrame {x : Run σ α} (h : Confined x) (frame : Store) : Confined (inFrame frame x) := by
  intro m
  have hx := (h { m with frames := frame :: m.frames }).tail
  unfold Run.inFrame
  generalize x { m with frames := frame :: m.frames } = r at hx
  cases r with
  | ok a m₁ => exact .of_eq hx
  | error e m₁ => exact .of_eq hx

theorem confined_steps {label? : α → Option Typed.Label} {step : α → Run σ Flow} {list : List α}
    (h : ∀ a ∈ list, Confined (step a)) (fuel : Nat) {suffix : List α} (hs : suffix ⊆ list) :
    Confined (steps label? step list fuel suffix) :=
  steps_rule (Q := fun _ => True) trivial (confined_throw _) (fun flow _ _ => confined_pure flow)
    (fun a ha _ hnext => (h a ha).bind fun flow => hnext flow trivial) fuel hs

theorem Confined.repeatPasses {pass : Run σ (Option Flow)} (h : Confined pass) (fuel : Nat) :
    Confined (repeatPasses pass fuel) := by
  induction fuel with
  | zero => exact confined_throw _
  | succ fuel ih =>
    refine h.bind fun flow? => ?_
    cases flow? with
    | none => exact ih
    | some flow => exact confined_pure flow

theorem Confined.pass {body : Run σ Flow} (h : Confined body) (onBreak onContinue : Typed.Label) :
    Confined (pass onBreak onContinue body) := by
  refine h.bind fun flow => ?_
  cases flow with
  | normal => exact confined_pure _
  | returned v? => exact confined_pure _
  | jump l =>
    dsimp only
    split
    · exact confined_pure _
    · split
      · exact confined_pure _
      · exact confined_pure _

end Run

namespace Typed

variable {w : Setting σ} {call : Calls σ}

theorem Expr.confined_evalList {es : List Expr} (h : ∀ e ∈ es, Run.Confined (e.eval w call)) :
    Run.Confined (Expr.evalList w call es) := by
  induction es with
  | nil => exact Run.confined_pure _
  | cons e es ih =>
    obtain ⟨he, hes⟩ := List.forall_mem_cons.1 h
    rw [Expr.evalList]
    exact he.required.bind fun v => (ih hes).bind fun vs => Run.confined_pure _

theorem Expr.confined_eval (h : ∀ f vs, Run.Confined (call f vs)) (e : Expr) :
    Run.Confined (e.eval w call) := by
  induction e with
  | literal v => exact Run.confined_pure _
  | name x t => exact (Run.confined_lookup w x).bind fun v => Run.confined_pure _
  | assign x e t ih =>
    rw [Expr.eval]
    exact ih.required.bind fun v => (Run.confined_assign w x v).bind fun _ => Run.confined_pure _
  | compound x o e t ih =>
    rw [Expr.eval]
    refine (Run.confined_lookup w x).bind fun current => ih.required.bind fun v => ?_
    exact (Run.confined_ofExcept _).bind fun v => (Run.confined_assign w x v).bind fun _ =>
      Run.confined_pure _
  | unary o e ih =>
    rw [Expr.eval]
    exact ih.required.bind fun v => (Run.confined_ofExcept _).bind fun v => Run.confined_pure _
  | binary l o r ihl ihr =>
    rw [Expr.eval]
    refine ihl.required.bind fun a => (Run.confined_ofExcept _).bind fun v? => ?_
    cases v? with
    | some v => exact Run.confined_pure _
    | none => exact ihr.required.bind fun b => (Run.confined_ofExcept _).bind fun v => Run.confined_pure _
  | convert t e ih =>
    rw [Expr.eval]
    exact ih.required.bind fun v => (Run.confined_ofExcept _).bind fun v => Run.confined_pure _
  | call f es t ih =>
    rw [Expr.eval]
    exact (Expr.confined_evalList ih).bind fun vs => h f vs
  | error => exact Run.confined_fault _

theorem Expr.confined_holds (h : ∀ f vs, Run.Confined (call f vs)) (c : Expr) :
    Run.Confined (c.holds w call) :=
  (c.confined_eval h).required.bind fun _ => Run.confined_ofExcept _

theorem Instr.confined_run (h : ∀ f vs, Run.Confined (call f vs)) (i : Instr) :
    Run.Confined (i.run w call) := by
  cases i with
  | eval e =>
    exact (e.confined_eval h).bind fun v? => (Run.confined_setLast v?).bind fun _ => Run.confined_pure _
  | declare x e =>
    exact (e.confined_eval h).required.bind fun v => (Run.confined_assign w x v).bind fun _ =>
      (Run.confined_setLast _).bind fun _ => Run.confined_pure _
  | label l => exact Run.confined_pure _
  | jump l => exact Run.confined_pure _
  | branch l c on =>
    refine (c.confined_holds h).bind fun b => ?_
    split
    · exact Run.confined_pure _
    · exact Run.confined_pure _
  | ret e? =>
    cases e? with
    | none => exact Run.confined_pure _
    | some e => exact (e.confined_eval h).bind fun v? => Run.confined_pure _

theorem Code.confined_run (h : ∀ f vs, Run.Confined (call f vs)) (fuel : Nat) (code : Code) :
    Run.Confined (code.run w call fuel) :=
  Run.confined_steps (fun i _ => i.confined_run h) fuel (List.Subset.refl code)

theorem Stmt.confined_run (h : ∀ f vs, Run.Confined (call f vs)) (fuel : Nat) (s : Stmt) :
    Run.Confined (s.run w call fuel) := by
  induction s with
  | instr i =>
    rw [Stmt.run]
    exact i.confined_run h
  | block ss ih =>
    rw [Stmt.run_block]
    exact Run.confined_steps ih fuel (List.Subset.refl ss)
  | ifThen c s ih =>
    rw [Stmt.run]
    refine (c.confined_holds h).bind fun b => ?_
    cases b with
    | true => exact ih
    | false => exact Run.confined_pure _
  | ifElse c s t ihs iht =>
    rw [Stmt.run]
    refine (c.confined_holds h).bind fun b => ?_
    cases b with
    | true => exact ihs
    | false => exact iht
  | whileLoop c s x y ih =>
    rw [Stmt.run]
    refine Run.Confined.repeatPasses ((c.confined_holds h).bind fun b => ?_) fuel
    cases b with
    | true => exact ih.pass x y
    | false => exact Run.confined_pure _
  | doWhile s c x y ih =>
    rw [Stmt.run]
    refine Run.Confined.repeatPasses ((ih.pass x y).bind fun flow? => ?_) fuel
    cases flow? with
    | some flow => exact Run.confined_pure _
    | none =>
      refine (c.confined_holds h).bind fun b => ?_
      cases b with
      | true => exact Run.confined_pure _
      | false => exact Run.confined_pure _
  | forLoop i c n s x y ihi ihs =>
    rw [Stmt.run]
    refine ihi.bind fun flow => ?_
    cases flow with
    | jump l => exact Run.confined_pure _
    | returned v? => exact Run.confined_pure _
    | normal =>
      refine Run.Confined.repeatPasses ((c.confined_holds h).bind fun b => ?_) fuel
      cases b with
      | false => exact Run.confined_pure _
      | true =>
        refine (ihs.pass x y).bind fun flow? => ?_
        cases flow? with
        | some flow => exact Run.confined_pure _
        | none => exact (n.confined_eval h).bind fun _ => Run.confined_pure _

end Typed

theorem Body.confined_run {w : Setting σ} {call : Calls σ} (h : ∀ f vs, Run.Confined (call f vs))
    (fuel : Nat) (body : Body) : Run.Confined (body.run w call fuel) := by
  cases body with
  | flat code => exact code.confined_run h fuel
  | structured ss => exact (Typed.Stmt.block ss).confined_run h fuel

/-- **Calls are confined.** A call leaves the frames of the calls around it alone, whatever it calls. -/
theorem Run.confined_call (w : Setting σ) (fuel : Nat) (f : FuncId) (vs : List Value) :
    Run.Confined (Run.call w fuel f vs) := by
  induction fuel generalizing f vs with
  | zero => exact Run.confined_throw _
  | succ fuel ih =>
    unfold Run.call
    split
    · exact Run.confined_fault _
    · split
      · exact Run.confined_builtin w _ vs
      · split
        · exact Run.confined_fault _
        · refine ((Body.confined_run ih fuel _).inFrame _).bind fun flow => ?_
          cases flow with
          | normal => exact Run.confined_pure _
          | returned v? => exact Run.confined_pure _
          | jump l => exact Run.confined_fault _

end Scripting
