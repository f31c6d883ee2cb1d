import Scripting.Proofs.Lowering.Writes
import Scripting.Proofs.Run.Isolation

/-!
# What runs leave in place

A run changes a variable only where it writes it. This is shown of any view of the stores at once: if the
writes of a tree leave the view alone, so does its run (`Run.Composes`, `Run.Retains`). For a single variable
there are two such views, its value among those of the session, and its values in all stores.
-/

namespace Scripting

open Typed (Code Expr Instr Stmt Write)

variable {σ α β γ : Type} {w : Setting σ} {call : Calls σ}

def Body.writes : Body → List Write
  | flat code => code.writes
  | structured ss => Stmt.writesList ss

namespace Run

/-! ## What runs are put together from -/

/-- The property holds of the elementary runs other than assignments, and is kept where runs are put
together. -/
structure Composes (w : Setting σ) (Q : {α : Type} → Run σ α → Prop) : Prop where
  pure : ∀ {α : Type} (a : α), Q (pure a)
  throw : ∀ {α : Type} (e : Halt), Q (throw e : Run σ α)
  bind : ∀ {α β : Type} {x : Run σ α} {f : α → Run σ β}, Q x → (∀ a, Q (f a)) → Q (x >>= f)
  lookup : ∀ x, Q (lookup w x)
  setLast : ∀ v?, Q (setLast v?)
  builtin : ∀ b vs, Q (builtin w b vs)
  inFrame : ∀ {α : Type} (frame : Store) {x : Run σ α}, Q x → Q (inFrame frame x)

namespace Composes

variable {Q : {α : Type} → Run σ α → Prop} (hQ : Composes w Q)

include hQ

theorem of_ofExcept (r : Except Halt α) : Q (ofExcept r) := by
  cases r with
  | ok a => exact hQ.pure a
  | error e => exact hQ.throw e

theorem of_required {x : Run σ (Option Value)} (h : Q x) : Q (required x) := by
  refine hQ.bind h fun v? => ?_
  cases v? with
  | none => exact hQ.throw _
  | some v => exact hQ.pure v

theorem of_steps {label? : α → Option Typed.Label} {step : α → Run σ Flow} {list : List α}
    (h : ∀ a ∈ list, Q (step a)) (fuel : Nat) {suffix : List α} (hs : suffix ⊆ list) :
    Q (steps label? step list fuel suffix) :=
  steps_rule (S := Q) (Q := fun _ => True) trivial (hQ.throw _) (fun flow _ _ => hQ.pure flow)
    (fun a ha _ hnext => hQ.bind (h a ha) fun flow => hnext flow trivial) fuel hs

theorem of_repeatPasses {pass : Run σ (Option Flow)} (h : Q pass) (fuel : Nat) :
    Q (repeatPasses pass fuel) := by
  induction fuel with
  | zero => exact hQ.throw _
  | succ fuel ih =>
    refine hQ.bind h fun flow? => ?_
    cases flow? with
    | none => exact ih
    | some flow => exact hQ.pure flow

theorem of_pass {body : Run σ Flow} (h : Q body) (onBreak onContinue : Typed.Label) :
    Q (pass onBreak onContinue body) := by
  refine hQ.bind h fun flow => ?_
  cases flow with
  | normal => exact hQ.pure _
  | returned v? => exact hQ.pure _
  | jump l =>
    dsimp only
    split
    · exact hQ.pure _
    · split
      · exact hQ.pure _
      · exact hQ.pure _

theorem of_evalList {es : List Expr}
    (h : ∀ e ∈ es, (∀ u ∈ e.writes, ∀ v, Q (assign w u.target v)) → Q (e.eval w call))
    (hwrites : ∀ u ∈ Expr.writesList es, ∀ v, Q (assign w u.target v)) : Q (Expr.evalList w call es) := by
  induction es with
  | nil => exact hQ.pure _
  | cons e es ih =>
    obtain ⟨he, hes⟩ := List.forall_mem_cons.1 h
    obtain ⟨hfirst, hrest⟩ := List.forall_mem_append.1 hwrites
    rw [Expr.evalList]
    exact hQ.bind (hQ.of_required (he hfirst)) fun v => hQ.bind (ih hes hrest) fun vs => hQ.pure _

section Trees

/-! The calls that a tree makes have the property, and so has each write in it. -/

variable (hcall : ∀ f vs, Q (call f vs))

include hcall

theorem of_eval {e : Expr} (hwrites : ∀ u ∈ e.writes, ∀ v, Q (assign w u.target v)) :
    Q (e.eval w call) := by
  induction e with
  | literal v => exact hQ.pure _
  | name x t => exact hQ.bind (hQ.lookup x) fun v => hQ.pure _
  | assign x e t ih =>
    obtain ⟨he, hx⟩ := List.forall_mem_append.1 hwrites
    rw [Expr.eval]
    exact hQ.bind (hQ.of_required (ih he)) fun v =>
      hQ.bind (hx _ (List.mem_singleton_self _) v) fun _ => hQ.pure _
  | compound x o e t ih =>
    obtain ⟨he, hx⟩ := List.forall_mem_append.1 hwrites
    rw [Expr.eval]
    refine hQ.bind (hQ.lookup x) fun current => hQ.bind (hQ.of_required (ih he)) fun v => ?_
    exact hQ.bind (hQ.of_ofExcept _) fun v =>
      hQ.bind (hx _ (List.mem_singleton_self _) v) fun _ => hQ.pure _
  | unary o e ih =>
    rw [Expr.eval]
    exact hQ.bind (hQ.of_required (ih hwrites)) fun v => hQ.bind (hQ.of_ofExcept _) fun v => hQ.pure _
  | binary l o r ihl ihr =>
    obtain ⟨hl, hr⟩ := List.forall_mem_append.1 hwrites
    rw [Expr.eval]
    refine hQ.bind (hQ.of_required (ihl hl)) fun a => hQ.bind (hQ.of_ofExcept _) fun v? => ?_
    cases v? with
    | some v => exact hQ.pure _
    | none =>
      exact hQ.bind (hQ.of_required (ihr hr)) fun b => hQ.bind (hQ.of_ofExcept _) fun v => hQ.pure _
  | convert t e ih =>
    rw [Expr.eval]
    exact hQ.bind (hQ.of_required (ih hwrites)) fun v => hQ.bind (hQ.of_ofExcept _) fun v => hQ.pure _
  | call f es t ih =>
    rw [Expr.eval]
    exact hQ.bind (hQ.of_evalList ih hwrites) fun vs => hcall f vs
  | error => exact hQ.throw _

theorem of_holds {c : Expr} (hwrites : ∀ u ∈ c.writes, ∀ v, Q (assign w u.target v)) :
    Q (c.holds w call) :=
  hQ.bind (hQ.of_required (hQ.of_eval hcall hwrites)) fun _ => hQ.of_ofExcept _

theorem of_instr {i : Instr} (hwrites : ∀ u ∈ i.writes, ∀ v, Q (assign w u.target v)) :
    Q (i.run w call) := by
  cases i with
  | eval e =>
    exact hQ.bind (hQ.of_eval hcall hwrites) fun v? => hQ.bind (hQ.setLast v?) fun _ => hQ.pure _
  | declare x e =>
    obtain ⟨he, hx⟩ := List.forall_mem_append.1 hwrites
    exact hQ.bind (hQ.of_required (hQ.of_eval hcall he)) fun v =>
      hQ.bind (hx _ (List.mem_singleton_self _) v) fun _ => hQ.bind (hQ.setLast _) fun _ => hQ.pure _
  | label l => exact hQ.pure _
  | jump l => exact hQ.pure _
  | branch l c on =>
    refine hQ.bind (hQ.of_holds hcall hwrites) fun b => ?_
    split
    · exact hQ.pure _
    · exact hQ.pure _
  | ret e? =>
    cases e? with
    | none => exact hQ.pure _
    | some e => exact hQ.bind (hQ.of_eval hcall hwrites) fun v? => hQ.pure _

theorem of_code {code : Code} (hwrites : ∀ u ∈ code.writes, ∀ v, Q (assign w u.target v)) (fuel : Nat) :
    Q (code.run w call fuel) :=
  hQ.of_steps (fun i hi => hQ.of_instr hcall fun u hu => hwrites u (List.mem_flatMap.2 ⟨i, hi, hu⟩)) fuel
    (List.Subset.refl code)

theorem of_stmt {s : Stmt} (hwrites : ∀ u ∈ s.writes, ∀ v, Q (assign w u.target v)) (fuel : Nat) :
    Q (s.run w call fuel) := by
  induction s with
  | instr i =>
    rw [Stmt.run]
    exact hQ.of_instr hcall hwrites
  | block ss ih =>
    rw [Stmt.run_block]
    refine hQ.of_steps (fun s hs => ih s hs fun u hu => hwrites u ?_) fuel (List.Subset.refl ss)
    rw [Stmt.writes, Stmt.writesList_eq_flatMap]
    exact List.mem_flatMap.2 ⟨s, hs, hu⟩
  | ifThen c s ih =>
    obtain ⟨hc, hs⟩ := List.forall_mem_append.1 hwrites
    rw [Stmt.run]
    refine hQ.bind (hQ.of_holds hcall hc) fun b => ?_
    cases b with
    | true => exact ih hs
    | false => exact hQ.pure _
  | ifElse c s t ihs iht =>
    obtain ⟨hcs, ht⟩ := List.forall_mem_append.1 hwrites
    obtain ⟨hc, hs⟩ := List.forall_mem_append.1 hcs
    rw [Stmt.run]
    refine hQ.bind (hQ.of_holds hcall hc) fun b => ?_
    cases b with
    | true => exact ihs hs
    | false => exact iht ht
  | whileLoop c s x y ih =>
    obtain ⟨hc, hs⟩ := List.forall_mem_append.1 hwrites
    rw [Stmt.run]
    refine hQ.of_repeatPasses (hQ.bind (hQ.of_holds hcall hc) fun b => ?_) fuel
    cases b with
    | true => exact hQ.of_pass (ih hs) x y
    | false => exact hQ.pure _
  | doWhile s c x y ih =>
    obtain ⟨hs, hc⟩ := List.forall_mem_append.1 hwrites
    rw [Stmt.run]
    refine hQ.of_repeatPasses (hQ.bind (hQ.of_pass (ih hs) x y) fun flow? => ?_) fuel
    cases flow? with
    | some flow => exact hQ.pure _
    | none =>
      refine hQ.bind (hQ.of_holds hcall hc) fun b => ?_
      cases b with
      | true => exact hQ.pure _
      | false => exact hQ.pure _
  | forLoop i c n s x y ihi ihs =>
    simp only [Stmt.writes, List.forall_mem_append] at hwrites
    obtain ⟨⟨⟨hi, hc⟩, hs⟩, hn⟩ := hwrites
    rw [Stmt.run]
    refine hQ.bind (ihi hi) fun flow => ?_
    cases flow with
    | jump l => exact hQ.pure _
    | returned v? => exact hQ.pure _
    | normal =>
      refine hQ.of_repeatPasses (hQ.bind (hQ.of_holds hcall hc) fun b => ?_) fuel
      cases b with
      | false => exact hQ.pure _
      | true =>
        refine hQ.bind (hQ.of_pass (ihs hs) x y) fun flow? => ?_
        cases flow? with
        | some flow => exact hQ.pure _
        | none => exact hQ.bind (hQ.of_eval hcall hn) fun _ => hQ.pure _

theorem of_body {body : Body} (hwrites : ∀ u ∈ body.writes, ∀ v, Q (assign w u.target v)) (fuel : Nat) :
    Q (body.run w call fuel) := by
  cases body with
  | flat code => exact hQ.of_code hcall hwrites fuel
  | structured ss => exact hQ.of_stmt hcall (s := .block ss) hwrites fuel

end Trees

theorem of_call (hwrites : ∀ f body, w.body? f = some body → ∀ u ∈ body.writes, ∀ v, Q (assign w u.target v))
    (fuel : Nat) (f : FuncId) (vs : List Value) : Q (Run.call w fuel f vs) := by
  induction fuel generalizing f vs with
  | zero => exact hQ.throw _
  | succ fuel ih =>
    unfold Run.call
    split
    · exact hQ.throw _
    · split
      · exact hQ.builtin _ vs
      · split
        · exact hQ.throw _
        next body hbody =>
          refine hQ.bind (hQ.inFrame _ (hQ.of_body ih (hwrites f body hbody) fuel)) fun flow => ?_
          cases flow with
          | normal => exact hQ.pure _
          | returned v? => exact hQ.pure _
          | jump l => exact hQ.throw _

end Composes

/-! ## Views of the stores -/

/-- However it ends, the run leaves what the view shows of the stores as it was. -/
def Retains (view : Store → List Store → γ) (x : Run σ α) : Prop :=
  ∀ m : Machine σ, view (Result.machine (x m)).globals (Result.machine (x m)).frames = view m.globals m.frames

variable {view : Store → List Store → γ}

/-- The run leaves the stores alone. -/
theorem retains_of_stores {x : Run σ α} (hglobals : ∀ m, (Result.machine (x m)).globals = m.globals)
    (hframes : ∀ m, (Result.machine (x m)).frames = m.frames) : Retains view x := by
  intro m
  rw [hglobals, hframes]

theorem Retains.bind {x : Run σ α} {f : α → Run σ β} (h : Retains view x) (hf : ∀ a, Retains view (f a)) :
    Retains view (x >>= f) := by
  intro m
  have hx := h m
  rw [bind_apply]
  generalize x m = r at hx
  cases r with
  | ok a m₁ => exact (hf a m₁).trans hx
  | error e m₁ => exact hx

theorem machine_lookup (w : Setting σ) (x : VarId) (m : Machine σ) : Result.machine (lookup w x m) = m := by
  unfold lookup
  cases w.symbols.variableAt? x with
  | none => rfl
  | some symbol =>
    simp only [bind_apply, get_apply]
    cases symbol.kind with
    | global => cases m.globals.get? x <;> rfl
    | local_ | parameter => cases m.frames.head?.bind (·.get? x) <;> rfl

theorem globals_builtin (w : Setting σ) (b : Builtin) (vs : List Value) (m : Machine σ) :
    (Result.machine (builtin w b vs m)).globals = m.globals := by
  cases b with
  | input => rfl
  | print =>
    cases vs with
    | nil => rfl
    | cons v rest => cases v <;> rfl
  | random =>
    cases vs with
    | nil => rfl
    | cons v rest => cases v <;> rfl

/-- What the view shows to the caller can be told from what it shows during the call. -/
def ShowsCaller (view : Store → List Store → γ) : Prop :=
  ∀ globals globals' frame frames frames', view globals' frames' = view globals (frame :: frames) →
    view globals' frames'.tail = view globals frames

theorem Retains.inFrame (hview : ShowsCaller view) {x : Run σ α} (h : Retains view x) (frame : Store) :
    Retains view (inFrame frame x) := by
  intro m
  have hx := hview _ _ _ _ _ (h { m with frames := frame :: m.frames })
  unfold Run.inFrame
  generalize x { m with frames := frame :: m.frames } = r at hx
  cases r with
  | ok a m₁ => exact hx
  | error e m₁ => exact hx

/-- Runs retain such a view by retaining it in their parts. -/
theorem composes_retains (hview : ShowsCaller view) (w : Setting σ) : Composes w (Retains view) where
  pure _ _ := rfl
  throw _ _ := rfl
  bind := Retains.bind
  lookup x m := by rw [machine_lookup]
  setLast _ _ := rfl
  builtin b vs := retains_of_stores (globals_builtin w b vs) (frames_builtin w b vs)
  inFrame frame _ h := h.inFrame hview frame

/-- The value of a variable among those of the session. -/
def globalValue (x : VarId) (globals : Store) (_ : List Store) : Option Value := globals.get? x

/-- The values of a variable: among those of the session, and in the frame of each active call. -/
def valuesOf (x : VarId) (globals : Store) (frames : List Store) : Option Value × List (Option Value) :=
  (globals.get? x, frames.map (·.get? x))

variable {x y : VarId}

theorem composes_globalValue (w : Setting σ) (x : VarId) : Composes w (Retains (globalValue x)) := by
  refine composes_retains (fun globals globals' frame frames frames' h => ?_) w
  exact h

theorem composes_valuesOf (w : Setting σ) (x : VarId) : Composes w (Retains (valuesOf x)) := by
  refine composes_retains (fun globals globals' frame frames frames' h => ?_) w
  obtain ⟨hglobals, hframes⟩ := Prod.mk.inj h
  refine Prod.ext hglobals ?_
  show frames'.tail.map (·.get? x) = frames.map (·.get? x)
  rw [List.map_tail, hframes]
  rfl

theorem retains_assign_of_ne (h : x ≠ y) (v : Value) : Retains (valuesOf x) (assign w y v) := by
  intro m
  unfold assign
  cases w.symbols.variableAt? y with
  | none => rfl
  | some symbol =>
    obtain ⟨globals, frames, last?, host⟩ := m
    simp only [bind_apply, get_apply]
    have hglobals : valuesOf x (globals.insert y v) frames = valuesOf x globals frames := by
      unfold valuesOf
      rw [Store.get?_insert_of_ne globals h]
    have hframes : ∀ frame rest, valuesOf x globals (frame.insert y v :: rest) =
        valuesOf x globals (frame :: rest) := by
      intro frame rest
      unfold valuesOf
      rw [List.map_cons, List.map_cons, Store.get?_insert_of_ne frame h]
    cases symbol.kind with
    | global => exact hglobals
    | local_ | parameter =>
      cases frames with
      | nil => rfl
      | cons frame rest => exact hframes frame rest

/-- An assignment to another variable, or to one that belongs to calls, leaves the variable of the session
as it is. -/
theorem retains_globalValue_assign
    (h : x = y → ∀ s, w.symbols.variableAt? y = some s → s.kind ≠ .global) (v : Value) :
    Retains (globalValue x) (assign w y v) := by
  intro m
  by_cases hxy : x = y
  · unfold assign
    cases hy : w.symbols.variableAt? y with
    | none => rfl
    | some symbol =>
      have hkind := h hxy symbol hy
      obtain ⟨globals, frames, last?, host⟩ := m
      simp only [bind_apply, get_apply]
      cases hsymbol : symbol.kind with
      | global => exact absurd hsymbol hkind
      | local_ | parameter => cases frames <;> rfl
  · exact congrArg Prod.fst (retains_assign_of_ne (w := w) hxy v m)

/-- A call leaves all values of a variable as they are, unless it is a variable of the session and some
function writes it. Of a local variable the call has a value of its own, which goes with its frame. -/
theorem retains_call
    (h : ∀ f body, w.body? f = some body → ∀ u ∈ body.writes, u.target = x →
      ∀ s, w.symbols.variableAt? x = some s → s.kind ≠ .global)
    (fuel : Nat) (f : FuncId) (vs : List Value) : Retains (valuesOf x) (Run.call w fuel f vs) := by
  have hglobal : Retains (globalValue x) (Run.call w fuel f vs) := by
    refine (composes_globalValue w x).of_call (fun f body hbody u hu v => ?_) fuel f vs
    exact retains_globalValue_assign (fun hx => hx ▸ h f body hbody u hu hx.symm) v
  have hlocal : ∀ m, (Result.machine (Run.call w fuel f vs m)).frames.map (·.get? x) =
      m.frames.map (·.get? x) := fun m => congrArg _ (frames_call w fuel f vs m)
  exact fun m => Prod.ext (hglobal m) (hlocal m)

/-- What does not write a variable leaves all its values as they are. -/
theorem retains_eval (hcall : ∀ f vs, Retains (valuesOf x) (call f vs)) {e : Expr}
    (h : ∀ u ∈ e.writes, u.target ≠ x) : Retains (valuesOf x) (e.eval w call) :=
  (composes_valuesOf w x).of_eval hcall fun u hu => retains_assign_of_ne (h u hu).symm

theorem retains_instr (hcall : ∀ f vs, Retains (valuesOf x) (call f vs)) {i : Instr}
    (h : ∀ u ∈ i.writes, u.target ≠ x) : Retains (valuesOf x) (i.run w call) :=
  (composes_valuesOf w x).of_instr hcall fun u hu => retains_assign_of_ne (h u hu).symm

theorem retains_body (hcall : ∀ f vs, Retains (valuesOf x) (call f vs)) {body : Body}
    (h : ∀ u ∈ body.writes, u.target ≠ x) (fuel : Nat) : Retains (valuesOf x) (body.run w call fuel) :=
  (composes_valuesOf w x).of_body hcall (fun u hu => retains_assign_of_ne (h u hu).symm) fuel

end Run

/-! ## Executed instructions -/

/-- An instruction that was executed, with the machine before and after it. -/
structure Executed (σ : Type) where
  instr : Instr
  before : Machine σ
  after : Machine σ

abbrev Machine.valuesOf (m : Machine σ) (x : VarId) : Option Value × List (Option Value) :=
  Run.valuesOf x m.globals m.frames

/-- The machine comes from the first state to the second by executing these instructions in turn, where
the last one may stop it. -/
inductive Executed.Chain (w : Setting σ) (call : Calls σ) :
    Machine σ → List (Executed σ) → Machine σ → Prop
  | nil (m) : Chain w call m [] m
  | cons (i m) {steps m'} (h : Chain w call (Run.Result.machine (i.run w call m)) steps m') :
    Chain w call m (⟨i, m, Run.Result.machine (i.run w call m)⟩ :: steps) m'

namespace Typed.Code

/-- The instructions that a run of what is left of the code executes. -/
def executed (w : Setting σ) (call : Calls σ) (code : Code) :
    Nat → Code → Machine σ → List (Executed σ)
  | _, [], _ => []
  | 0, _ :: _, _ => []
  | fuel + 1, i :: rest, m =>
    ⟨i, m, Run.Result.machine (i.run w call m)⟩ ::
      match i.run w call m with
      | .ok .normal m' => executed w call code fuel rest m'
      | .ok (.jump l) m' =>
        match Run.after? Instr.label? l code with
        | some suffix => executed w call code fuel suffix m'
        | none => []
      | _ => []

/-- The executed instructions lead from the machine that a run starts with to the one it ends on. -/
theorem chain_executed (w : Setting σ) (call : Calls σ) (code : Code) (fuel : Nat) (suffix : Code)
    (m : Machine σ) :
    Executed.Chain w call m (code.executed w call fuel suffix m)
      (Run.Result.machine (Run.steps Instr.label? (Instr.run w call) code fuel suffix m)) := by
  induction fuel generalizing suffix m with
  | zero => cases suffix <;> exact .nil m
  | succ fuel ih =>
    cases suffix with
    | nil => exact .nil m
    | cons i rest =>
      rw [executed, Run.steps, Run.bind_apply]
      refine .cons i m ?_
      cases i.run w call m with
      | error e m' => exact .nil m'
      | ok flow m' =>
        cases flow with
        | normal => exact ih rest m'
        | returned v? => exact .nil m'
        | jump l =>
          dsimp only
          cases Run.after? Instr.label? l code with
          | none => exact .nil m'
          | some suffix => exact ih suffix m'

theorem instr_mem_of_mem_executed {w : Setting σ} {call : Calls σ} {code : Code} (fuel : Nat)
    {suffix : Code} (hs : suffix ⊆ code) (m : Machine σ) :
    ∀ step ∈ code.executed w call fuel suffix m, step.instr ∈ code := by
  induction fuel generalizing suffix m with
  | zero => cases suffix <;> exact List.forall_mem_nil _
  | succ fuel ih =>
    cases suffix with
    | nil => exact List.forall_mem_nil _
    | cons i rest =>
      obtain ⟨hi, hrest⟩ := List.cons_subset.1 hs
      rw [executed]
      refine List.forall_mem_cons.2 ⟨hi, ?_⟩
      cases i.run w call m with
      | error e m' => exact List.forall_mem_nil _
      | ok flow m' =>
        cases flow with
        | normal => exact ih hrest m'
        | returned v? => exact List.forall_mem_nil _
        | jump l =>
          dsimp only
          cases hl : Run.after? Instr.label? l code with
          | none => exact List.forall_mem_nil _
          | some suffix =>
            obtain ⟨b, -, hsuffix, -⟩ := Run.after?_eq_some hl
            exact ih (fun j hj => hsuffix.subset (List.mem_cons_of_mem b hj)) m'

end Typed.Code

namespace Executed.Chain

variable {m m' : Machine σ} {steps : List (Executed σ)}

/-- Each step of a chain is a run of its instruction. -/
theorem after_eq (h : Chain w call m steps m') :
    ∀ step ∈ steps, step.after = Run.Result.machine (step.instr.run w call step.before) := by
  induction h with
  | nil m => exact List.forall_mem_nil _
  | cons i m h ih => exact List.forall_mem_cons.2 ⟨rfl, ih⟩

/-- What each instruction of a chain leaves as it is, is the same all along. -/
theorem retains {view : Store → List Store → γ} (h : Chain w call m steps m')
    (hsteps : ∀ step ∈ steps, Run.Retains view (step.instr.run w call)) :
    (∀ step ∈ steps, view step.after.globals step.after.frames = view m.globals m.frames) ∧
      view m'.globals m'.frames = view m.globals m.frames := by
  induction h with
  | nil m => exact ⟨List.forall_mem_nil _, rfl⟩
  | cons i m h ih =>
    obtain ⟨hi, hrest⟩ := List.forall_mem_cons.1 hsteps
    obtain ⟨hall, hend⟩ := ih hrest
    exact ⟨List.forall_mem_cons.2 ⟨hi m, fun step hstep => (hall step hstep).trans (hi m)⟩,
      hend.trans (hi m)⟩

end Executed.Chain

/-- The machines that a run of the code goes through, one instruction after the other. -/
def Typed.Code.history (w : Setting σ) (call : Calls σ) (code : Code) (fuel : Nat) (m : Machine σ) :
    List (Machine σ) :=
  m :: (code.executed w call fuel code m).map (·.after)

/-- What each instruction of the code leaves as it is, is the same in every machine of a run. -/
theorem Typed.Code.retains_history {view : Store → List Store → γ} {code : Code}
    (h : ∀ i ∈ code, Run.Retains view (i.run w call)) (fuel : Nat) (m : Machine σ) :
    ∀ m' ∈ code.history w call fuel m, view m'.globals m'.frames = view m.globals m.frames := by
  have hsteps := (code.chain_executed w call fuel code m).retains fun step hstep =>
    h _ (Code.instr_mem_of_mem_executed fuel (List.Subset.refl code) m step hstep)
  exact List.forall_mem_cons.2 ⟨rfl, List.forall_mem_map.2 hsteps.1⟩

/-! ## Evaluations -/

/-- An evaluation leaves the variables that the run of its body leaves. -/
theorem globals_evaluate (w : Setting σ) (fuel : Nat) (body : Body) (globals : Store) (host : σ) :
    (evaluate w fuel body globals host).globals =
      (Run.Result.machine (body.run w (Run.call w fuel) fuel ⟨globals, [], none, host⟩)).globals := by
  unfold evaluate Run.main
  rw [Run.bind_apply]
  cases body.run w (Run.call w fuel) fuel ⟨globals, [], none, host⟩ with
  | error e m => rfl
  | ok flow m => cases flow <;> rfl

end Scripting
