import Scripting.Proofs.Run.Concatenation
import Scripting.Proofs.Run.Isolation

/-!
# Runs with a log

To say which statement the value of a program comes from, programs are run with a log beside the state of
the host. Each time an expression statement or the declaration of a variable was executed, its value is
noted there, with the function in whose body it stands. Nothing else changes: a run with a log does what
the run without one does (`Run.Logs`), and the value of the last statement is the last one noted.
-/

namespace Scripting

variable {σ α β : Type}

/-- A statement with a value that was executed: the function in whose body it stands, `none` for global
code, and the value. -/
structure Noted where
  function? : Option FuncId
  value? : Option Value
deriving DecidableEq

/-- What was noted, the latest last. -/
abbrev Log := List Noted

namespace Log

/-- The value noted last; without one, that of before. -/
def latest (before? : Option Value) (log : Log) : Option Value := (log.getLast?.map (·.value?)).getD before?

theorem latest_append (before? : Option Value) (log added : Log) :
    latest before? (log ++ added) = latest (latest before? log) added := by
  unfold latest
  rw [List.getLast?_append]
  cases added.getLast? <;> rfl

theorem latest_concat (before? : Option Value) (log : Log) (n : Noted) :
    latest before? (log ++ [n]) = n.value? := by
  unfold latest
  rw [List.getLast?_concat]
  rfl

/-- The property is kept when more is noted. -/
structure Kept (P : Log → Prop) : Prop where
  nil : P []
  append : ∀ {log added}, P log → P added → P (log ++ added)

theorem kept_any : Kept fun _ => True := ⟨trivial, fun _ _ => trivial⟩

end Log

/-! ## Machines with a log -/

def Machine.withLog (m : Machine σ) (log : Log) : Machine (σ × Log) :=
  ⟨m.globals, m.frames, m.last?, m.host, log⟩

def Run.Result.withLog (log : Log) : Run.Result σ α → Run.Result (σ × Log) α
  | .ok a m => .ok a (m.withLog log)
  | .error e m => .error e (m.withLog log)

def Host.withLog (h : Host σ) : Host (σ × Log) where
  print s p := (h.print s p.1, p.2)
  input p := ((h.input p.1).1, (h.input p.1).2, p.2)
  random n p := ((h.random n p.1).1, (h.random n p.1).2, p.2)

def Setting.withLog (w : Setting σ) : Setting (σ × Log) where
  symbols := w.symbols
  host := w.host.withLog
  body? := w.body?

/-! ## Running with a log -/

/-- Notes the value of the last statement. -/
def Run.note (function? : Option FuncId) : Run (σ × Log) Unit :=
  modify fun m => { m with host := (m.host.1, m.host.2 ++ [⟨function?, m.last?⟩]) }

namespace Typed

def Instr.runLogged (function? : Option FuncId) (w : Setting (σ × Log)) (call : Calls (σ × Log))
    (i : Instr) : Run (σ × Log) Flow := do
  let flow ← i.run w call
  if i.HasValue then Run.note function?
  return flow

mutual

/-- Runs a statement, and notes the values of the instructions in it. -/
def Stmt.runLogged (function? : Option FuncId) (w : Setting (σ × Log)) (call : Calls (σ × Log))
    (fuel : Nat) : Stmt → Run (σ × Log) Flow
  | .instr i => i.runLogged function? w call
  | .block ss => Step.runList fuel (Stmt.stepsLogged function? w call fuel ss)
  | .ifThen c s => do
    if ← c.holds w call then s.runLogged function? w call fuel else return .normal
  | .ifElse c s t => do
    if ← c.holds w call then s.runLogged function? w call fuel else t.runLogged function? w call fuel
  | .whileLoop c s onBreak onContinue =>
    Run.repeatPasses
      (do if ← c.holds w call then Run.pass onBreak onContinue (s.runLogged function? w call fuel)
          else return some .normal)
      fuel
  | .doWhile s c onBreak onContinue =>
    Run.repeatPasses
      (do (← Run.pass onBreak onContinue (s.runLogged function? w call fuel)).elim
            (do if ← c.holds w call then return none else return some .normal)
            (return some ·))
      fuel
  | .forLoop i c n s onBreak onContinue => do
    let flow ← i.runLogged function? w call fuel
    if flow = .normal then
      Run.repeatPasses
        (do if ← c.holds w call then
              (← Run.pass onBreak onContinue (s.runLogged function? w call fuel)).elim
                (do let _ ← n.eval w call; return none)
                (return some ·)
            else return some .normal)
        fuel
    else return flow

def Stmt.stepsLogged (function? : Option FuncId) (w : Setting (σ × Log)) (call : Calls (σ × Log))
    (fuel : Nat) : List Stmt → List (Step (σ × Log))
  | [] => []
  | s :: ss => ⟨s.label?, s.runLogged function? w call fuel⟩ :: Stmt.stepsLogged function? w call fuel ss

end

end Typed

def Body.runLogged (function? : Option FuncId) (w : Setting (σ × Log)) (call : Calls (σ × Log))
    (fuel : Nat) : Body → Run (σ × Log) Flow
  | flat code => Run.steps Typed.Instr.label? (Typed.Instr.runLogged function? w call) code fuel code
  | structured ss => (Typed.Stmt.block ss).runLogged function? w call fuel

/-- Calls a function, whose body is run as given. -/
def Run.callWith (w : Setting σ) (run : Body → Run σ Flow) (f : FuncId) (vs : List Value) :
    Run σ (Option Value) :=
  (w.symbols.functionAt? f).elim (Run.fault .unknownSymbol) fun a =>
    a.builtin?.elim
      ((w.body? f).elim (Run.fault (.noBody a.signature)) fun body => do
        let frame := Store.ofList ((a.parameters.map (·.target)).zip vs)
        let flow ← Run.inFrame frame (run body)
        Run.ofExcept flow.outcome)
      fun b => Run.builtin w b vs

def Run.callLogged (w : Setting (σ × Log)) : Nat → Calls (σ × Log)
  | 0, _, _ => throw .outOfFuel
  | fuel + 1, f, vs =>
    Run.callWith w (fun body => body.runLogged (some f) w (Run.callLogged w fuel) fuel) f vs

/-- The value of a program whose global code is run as given. -/
def Run.mainWith (run : Run σ Flow) : Run σ (Option Value) := do
  let flow ← run
  let _ ← Run.ofExcept flow.outcome
  return (← get).last?

/-- What the run of a program leaves behind. -/
def Outcome.ofMain : Run.Result σ (Option Value) → Outcome σ
  | .ok v? m => ⟨.ok v?, m.globals, m.host⟩
  | .error e m => ⟨.error e, m.globals, m.host⟩

/-- Runs a program with a log, which is empty before. -/
def evaluateLogged (w : Setting σ) (fuel : Nat) (body : Body) (globals : Store) (host : σ) :
    Outcome (σ × Log) :=
  .ofMain (Run.mainWith (body.runLogged none w.withLog (Run.callLogged w.withLog fuel) fuel)
    ⟨globals, [], none, host, []⟩)

/-! ## The same runs -/

theorem Run.call_succ (w : Setting σ) (fuel : Nat) (f : FuncId) (vs : List Value) :
    Run.call w (fuel + 1) f vs =
      Run.callWith w (fun body => body.run w (Run.call w fuel) fuel) f vs := by
  unfold Run.call Run.callWith
  cases w.symbols.functionAt? f with
  | none => rfl
  | some a =>
    dsimp only [Option.elim]
    cases a.builtin? with
    | some b => rfl
    | none =>
      dsimp only
      cases w.body? f with
      | none => rfl
      | some body =>
        dsimp only
        congr 1
        funext flow
        cases flow <;> rfl

theorem evaluate_eq (w : Setting σ) (fuel : Nat) (body : Body) (globals : Store) (host : σ) :
    evaluate w fuel body globals host =
      .ofMain (Run.mainWith (body.run w (Run.call w fuel) fuel) ⟨globals, [], none, host⟩) := by
  have hmain : Run.main w fuel body = Run.mainWith (body.run w (Run.call w fuel) fuel) := by
    unfold Run.main Run.mainWith
    congr 1
    funext flow
    cases flow <;> rfl
  unfold evaluate
  rw [hmain]
  rfl

namespace Run

variable {P : Log → Prop}

/-- The first result is the second with a log, to which something was added. If it is not an error, what was
added satisfies `P`, and the value of the last statement is the one noted last, or else that of before. -/
def Result.Logs (P : Log → Prop) (log : Log) (before? : Option Value) (r' : Result (σ × Log) α)
    (r : Result σ α) : Prop :=
  ∃ added, r' = Result.withLog (log ++ added) r ∧
    ∀ a m, r = .ok a m → P added ∧ m.last? = added.latest before?

/-- The first run does what the second does, and notes something that satisfies `P`. -/
def Logs (P : Log → Prop) (x : Run (σ × Log) α) (y : Run σ α) : Prop :=
  ∀ m log, Result.Logs P log m.last? (x (m.withLog log)) (y m)

theorem Logs.mono {Q : Log → Prop} {x : Run (σ × Log) α} {y : Run σ α} (h : Logs P x y)
    (hQ : ∀ log, P log → Q log) : Logs Q x y := by
  intro m log
  obtain ⟨added, hx, hadded⟩ := h m log
  exact ⟨added, hx, fun a m' hy => (hadded a m' hy).imp_left (hQ added)⟩

theorem Result.logs_error (e : Halt) (log : Log) (before? : Option Value) (m : Machine σ) :
    Result.Logs P log before? (.error e (m.withLog log) : Result (σ × Log) α) (.error e m) := by
  refine ⟨[], ?_, fun _ _ h => by cases h⟩
  rw [List.append_nil]
  rfl

section

variable (hP : Log.Kept P)

include hP

theorem Result.logs_ok (a : α) (log : Log) {before? : Option Value} {m : Machine σ} (h : m.last? = before?) :
    Result.Logs P log before? (.ok a (m.withLog log)) (.ok a m) := by
  refine ⟨[], ?_, fun b m' hm => ?_⟩
  · rw [List.append_nil]
    rfl
  · cases hm
    exact ⟨hP.nil, h⟩

theorem logs_pure (a : α) : Logs P (pure a : Run (σ × Log) α) (pure a) :=
  fun _ log => Result.logs_ok hP a log rfl

omit hP in
theorem logs_throw (e : Halt) : Logs P (throw e : Run (σ × Log) α) (throw e) :=
  fun m log => Result.logs_error e log _ m

omit hP in
theorem logs_fault (f : Fault) : Logs P (fault f : Run (σ × Log) α) (fault f) := logs_throw _

theorem logs_ofExcept (r : Except Halt α) : Logs P (ofExcept r : Run (σ × Log) α) (ofExcept r) := by
  cases r with
  | ok a => exact logs_pure hP a
  | error e => exact logs_throw e

theorem Logs.bind {x : Run (σ × Log) α} {y : Run σ α} {f : α → Run (σ × Log) β} {g : α → Run σ β}
    (h : Logs P x y) (hf : ∀ a, Logs P (f a) (g a)) : Logs P (x >>= f) (y >>= g) := by
  intro m log
  obtain ⟨added, hx, hadded⟩ := h m log
  rw [bind_apply, bind_apply, hx]
  cases hy : y m with
  | error e m₁ => exact ⟨added, rfl, fun _ _ h => by cases h⟩
  | ok a m₁ =>
    obtain ⟨hkept, hlast⟩ := hadded a m₁ hy
    obtain ⟨more, hrest, hmore⟩ := hf a m₁ (log ++ added)
    refine ⟨added ++ more, ?_, fun b m₂ hb => ?_⟩
    · rw [← List.append_assoc]
      exact hrest
    · obtain ⟨hkept', hlast'⟩ := hmore b m₂ hb
      refine ⟨hP.append hkept hkept', ?_⟩
      rw [hlast', hlast, Log.latest_append]

theorem Logs.required {x : Run (σ × Log) (Option Value)} {y : Run σ (Option Value)} (h : Logs P x y) :
    Logs P (required x) (required y) := by
  refine h.bind hP fun v? => ?_
  cases v? with
  | none => exact logs_fault _
  | some v => exact logs_pure hP v

theorem logs_lookup (w : Setting σ) (x : VarId) : Logs P (lookup w.withLog x) (lookup w x) := by
  have hsymbols : w.withLog.symbols = w.symbols := rfl
  unfold lookup
  rw [hsymbols]
  cases w.symbols.variableAt? x with
  | none => exact logs_fault _
  | some symbol =>
    intro m log
    have hglobals : (m.withLog log).globals = m.globals := rfl
    have hframes : (m.withLog log).frames = m.frames := rfl
    simp only [bind_apply, get_apply, hglobals, hframes]
    cases symbol.kind with
    | global =>
      cases m.globals.get? x with
      | none => exact Result.logs_error _ _ _ _
      | some v => exact Result.logs_ok hP v log rfl
    | local_ | parameter =>
      cases m.frames.head?.bind (·.get? x) with
      | none => exact Result.logs_error _ _ _ _
      | some v => exact Result.logs_ok hP v log rfl

theorem logs_assign (w : Setting σ) (x : VarId) (v : Value) :
    Logs P (assign w.withLog x v) (assign w x v) := by
  have hsymbols : w.withLog.symbols = w.symbols := rfl
  unfold assign
  rw [hsymbols]
  cases w.symbols.variableAt? x with
  | none => exact logs_fault _
  | some symbol =>
    intro m log
    obtain ⟨globals, frames, last?, host⟩ := m
    simp only [bind_apply, get_apply]
    cases symbol.kind with
    | global => exact Result.logs_ok hP () log (m := ⟨globals.insert x v, frames, last?, host⟩) rfl
    | local_ | parameter =>
      cases frames with
      | nil => exact Result.logs_error _ _ _ _
      | cons frame rest =>
        exact Result.logs_ok hP () log (m := ⟨globals, frame.insert x v :: rest, last?, host⟩) rfl

theorem logs_builtin (w : Setting σ) (b : Builtin) (vs : List Value) :
    Logs P (builtin w.withLog b vs) (builtin w b vs) := by
  cases b with
  | input => exact fun m log => Result.logs_ok hP _ log (m := { m with host := (w.host.input m.host).2 }) rfl
  | print =>
    cases vs with
    | nil => exact logs_fault _
    | cons v rest =>
      refine (logs_ofExcept hP _).bind hP fun s => ?_
      exact fun m log => Result.logs_ok hP _ log (m := { m with host := w.host.print s m.host }) rfl
  | random =>
    cases vs with
    | nil => exact logs_fault _
    | cons v rest =>
      refine (logs_ofExcept hP _).bind hP fun n => ?_
      exact fun m log => Result.logs_ok hP _ log (m := { m with host := (w.host.random n m.host).2 }) rfl

omit hP in
theorem Logs.inFrame {x : Run (σ × Log) α} {y : Run σ α} (h : Logs P x y) (frame : Store) :
    Logs P (inFrame frame x) (inFrame frame y) := by
  intro m log
  obtain ⟨added, hx, hadded⟩ := h { m with frames := frame :: m.frames } log
  replace hx : x { m.withLog log with frames := frame :: (m.withLog log).frames } = _ := hx
  unfold Run.inFrame
  rw [hx]
  cases hy : y { m with frames := frame :: m.frames } with
  | error e m₁ => exact ⟨added, rfl, fun _ _ h => by cases h⟩
  | ok a m₁ =>
    obtain ⟨hkept, hlast⟩ := hadded a m₁ hy
    refine ⟨added, rfl, fun b m' h => ?_⟩
    cases h
    exact ⟨hkept, hlast⟩

theorem logs_steps {label? : α → Option Typed.Label} {step' : α → Run (σ × Log) Flow} {step : α → Run σ Flow}
    {list : List α} (h : ∀ a ∈ list, Logs P (step' a) (step a)) (fuel : Nat) {suffix : List α}
    (hs : suffix ⊆ list) :
    Logs P (steps label? step' list fuel suffix) (steps label? step list fuel suffix) := by
  induction fuel generalizing suffix with
  | zero =>
    cases suffix with
    | nil => exact logs_pure hP _
    | cons a rest => exact logs_throw _
  | succ fuel ih =>
    cases suffix with
    | nil => exact logs_pure hP _
    | cons a rest =>
      obtain ⟨ha, hrest⟩ := List.cons_subset.1 hs
      rw [steps_cons, steps_cons]
      refine (h a ha).bind hP fun flow => ?_
      cases flow with
      | normal => exact ih hrest
      | returned v? => exact logs_pure hP _
      | jump l =>
        cases hl : after? label? l list with
        | none =>
          rw [resume_jump_of_none hl, resume_jump_of_none hl]
          exact logs_pure hP _
        | some target =>
          rw [resume_jump_of_some hl, resume_jump_of_some hl]
          obtain ⟨b, -, hsuffix, -⟩ := after?_eq_some hl
          exact ih fun c hc => hsuffix.subset (List.mem_cons_of_mem b hc)

theorem Logs.repeatPasses {pass' : Run (σ × Log) (Option Flow)} {pass : Run σ (Option Flow)}
    (h : Logs P pass' pass) (fuel : Nat) : Logs P (repeatPasses pass' fuel) (repeatPasses pass fuel) := by
  induction fuel with
  | zero => exact logs_throw _
  | succ fuel ih =>
    refine h.bind hP fun flow? => ?_
    cases flow? with
    | none => exact ih
    | some flow => exact logs_pure hP flow

theorem Logs.pass {body' : Run (σ × Log) Flow} {body : Run σ Flow} (h : Logs P body' body)
    (onBreak onContinue : Typed.Label) :
    Logs P (pass onBreak onContinue body') (pass onBreak onContinue body) := by
  refine h.bind hP fun flow => ?_
  cases flow with
  | normal => exact logs_pure hP _
  | returned v? => exact logs_pure hP _
  | jump l =>
    dsimp only
    split
    · exact logs_pure hP _
    · split
      · exact logs_pure hP _
      · exact logs_pure hP _

omit hP in
/-- The value that is set is noted. -/
theorem logs_note {x : Run (σ × Log) (Option Value)} {y : Run σ (Option Value)}
    (h : Logs (fun _ => True) x y) {function? : Option FuncId}
    (hnote : ∀ log v?, P (log ++ [⟨function?, v?⟩])) :
    Logs P (do setLast (← x); note function?; return Flow.normal) (do setLast (← y); return .normal) := by
  intro m log
  obtain ⟨added, hx, -⟩ := h m log
  rw [bind_apply, bind_apply, hx]
  cases y m with
  | error e m₁ => exact ⟨added, rfl, fun _ _ h => by cases h⟩
  | ok v? m₁ =>
    refine ⟨added ++ [⟨function?, v?⟩], ?_, fun flow m' hm => ?_⟩
    · rw [← List.append_assoc]
      rfl
    · cases hm
      exact ⟨hnote added v?, (Log.latest_concat m.last? added ⟨function?, v?⟩).symm⟩

end

end Run

/-! ## Expressions and statements -/

namespace Typed

mutual

def Expr.callees : Expr → List FuncId
  | .literal _ | .name .. | .error => []
  | .assign _ e _ | .compound _ _ e _ | .unary _ e | .convert _ e => e.callees
  | .binary l _ r => l.callees ++ r.callees
  | .call f es _ => f :: Expr.calleesList es

def Expr.calleesList : List Expr → List FuncId
  | [] => []
  | e :: es => e.callees ++ Expr.calleesList es

end

def Instr.callees : Instr → List FuncId
  | eval e | declare _ e | branch _ e _ | ret (some e) => e.callees
  | label _ | jump _ | ret none => []

mutual

def Stmt.instrs : Stmt → List Instr
  | .instr i => [i]
  | .block ss => Stmt.instrsList ss
  | .ifThen _ s | .whileLoop _ s _ _ | .doWhile s _ _ _ => s.instrs
  | .ifElse _ s t => s.instrs ++ t.instrs
  | .forLoop i _ _ s _ _ => i.instrs ++ s.instrs

def Stmt.instrsList : List Stmt → List Instr
  | [] => []
  | s :: ss => s.instrs ++ Stmt.instrsList ss

end

mutual

/-- The conditions and increments of the structure of a statement. -/
def Stmt.tests : Stmt → List Expr
  | .instr _ => []
  | .block ss => Stmt.testsList ss
  | .ifThen c s | .whileLoop c s _ _ | .doWhile s c _ _ => c :: s.tests
  | .ifElse c s t => c :: (s.tests ++ t.tests)
  | .forLoop i c n s _ _ => c :: n :: (i.tests ++ s.tests)

def Stmt.testsList : List Stmt → List Expr
  | [] => []
  | s :: ss => s.tests ++ Stmt.testsList ss

end

theorem Stmt.instrsList_eq_flatMap (ss : List Stmt) : Stmt.instrsList ss = ss.flatMap Stmt.instrs := by
  induction ss with
  | nil => rfl
  | cons s ss ih => rw [Stmt.instrsList, ih, List.flatMap_cons]

theorem Stmt.testsList_eq_flatMap (ss : List Stmt) : Stmt.testsList ss = ss.flatMap Stmt.tests := by
  induction ss with
  | nil => rfl
  | cons s ss ih => rw [Stmt.testsList, ih, List.flatMap_cons]

section

variable {P : Log → Prop} {w : Setting σ} {call' : Calls (σ × Log)} {call : Calls σ}

theorem Expr.logs_evalList (hP : Log.Kept P) {es : List Expr}
    (hes : ∀ e ∈ es, (∀ f ∈ e.callees, ∀ vs, Run.Logs P (call' f vs) (call f vs)) →
      Run.Logs P (e.eval w.withLog call') (e.eval w call))
    (hcall : ∀ f ∈ Expr.calleesList es, ∀ vs, Run.Logs P (call' f vs) (call f vs)) :
    Run.Logs P (Expr.evalList w.withLog call' es) (Expr.evalList w call es) := by
  induction es with
  | nil => exact Run.logs_pure hP _
  | cons e es ih =>
    obtain ⟨he, hes⟩ := List.forall_mem_cons.1 hes
    obtain ⟨hfirst, hrest⟩ := List.forall_mem_append.1 hcall
    rw [Expr.evalList, Expr.evalList]
    refine ((he hfirst).required hP).bind hP fun v => (ih hes hrest).bind hP fun vs => ?_
    exact Run.logs_pure hP _

/-- An expression notes what its calls note. -/
theorem Expr.logs_eval (hP : Log.Kept P) {e : Expr}
    (hcall : ∀ f ∈ e.callees, ∀ vs, Run.Logs P (call' f vs) (call f vs)) :
    Run.Logs P (e.eval w.withLog call') (e.eval w call) := by
  induction e with
  | literal v => exact Run.logs_pure hP _
  | name x t => exact (Run.logs_lookup hP w x).bind hP fun v => Run.logs_pure hP _
  | assign x e t ih =>
    rw [Expr.eval, Expr.eval]
    refine ((ih hcall).required hP).bind hP fun v => (Run.logs_assign hP w x v).bind hP fun _ => ?_
    exact Run.logs_pure hP _
  | compound x o e t ih =>
    rw [Expr.eval, Expr.eval]
    refine (Run.logs_lookup hP w x).bind hP fun current => ((ih hcall).required hP).bind hP fun v => ?_
    refine (Run.logs_ofExcept hP _).bind hP fun v => (Run.logs_assign hP w x v).bind hP fun _ => ?_
    exact Run.logs_pure hP _
  | unary o e ih =>
    rw [Expr.eval, Expr.eval]
    exact ((ih hcall).required hP).bind hP fun v => (Run.logs_ofExcept hP _).bind hP fun v =>
      Run.logs_pure hP _
  | binary l o r ihl ihr =>
    obtain ⟨hl, hr⟩ := List.forall_mem_append.1 hcall
    rw [Expr.eval, Expr.eval]
    refine ((ihl hl).required hP).bind hP fun a => (Run.logs_ofExcept hP _).bind hP fun v? => ?_
    cases v? with
    | some v => exact Run.logs_pure hP _
    | none =>
      exact ((ihr hr).required hP).bind hP fun b => (Run.logs_ofExcept hP _).bind hP fun v =>
        Run.logs_pure hP _
  | convert t e ih =>
    rw [Expr.eval, Expr.eval]
    exact ((ih hcall).required hP).bind hP fun v => (Run.logs_ofExcept hP _).bind hP fun v =>
      Run.logs_pure hP _
  | call f es t ih =>
    obtain ⟨hf, hes⟩ := List.forall_mem_cons.1 hcall
    rw [Expr.eval, Expr.eval]
    exact (Expr.logs_evalList hP (fun e he => ih e he) hes).bind hP fun vs => hf vs
  | error => exact Run.logs_fault _

theorem Expr.logs_holds (hP : Log.Kept P) {c : Expr}
    (hcall : ∀ f ∈ c.callees, ∀ vs, Run.Logs P (call' f vs) (call f vs)) :
    Run.Logs P (c.holds w.withLog call') (c.holds w call) :=
  ((Expr.logs_eval hP hcall).required hP).bind hP fun _ => Run.logs_ofExcept hP _

variable {function? : Option FuncId}

theorem Instr.logs_run_of_hasValue {i : Instr} (hi : i.HasValue)
    (hcall : ∀ f ∈ i.callees, ∀ vs, Run.Logs (fun _ => True) (call' f vs) (call f vs))
    (hnote : ∀ log v?, P (log ++ [⟨function?, v?⟩])) :
    Run.Logs P (i.runLogged function? w.withLog call') (i.run w call) := by
  have hany := Log.kept_any
  unfold Instr.runLogged
  simp only [if_pos hi]
  cases i with
  | label | jump | branch | ret => exact absurd hi id
  | eval e =>
    have hlogs := Run.logs_note (Expr.logs_eval (w := w) hany hcall) hnote
    simp only [Instr.run, bind_assoc, pure_bind] at hlogs ⊢
    exact hlogs
  | declare x e =>
    -- the value that is declared is the one that is set
    have hdeclared := ((Expr.logs_eval (w := w) hany hcall).required hany).bind hany fun v =>
      (Run.logs_assign hany w x v).bind hany fun _ => Run.logs_pure hany (some v)
    have hlogs := Run.logs_note hdeclared hnote
    simp only [Instr.run, bind_assoc, pure_bind] at hlogs ⊢
    exact hlogs

theorem Instr.logs_run_of_not_hasValue (hP : Log.Kept P) {i : Instr} (hi : ¬ i.HasValue)
    (hcall : ∀ f ∈ i.callees, ∀ vs, Run.Logs P (call' f vs) (call f vs)) :
    Run.Logs P (i.runLogged function? w.withLog call') (i.run w call) := by
  have hrun : i.runLogged function? w.withLog call' = i.run w.withLog call' := by
    unfold Instr.runLogged
    simp only [if_neg hi]
    exact bind_pure _
  rw [hrun]
  cases i with
  | eval | declare => exact absurd trivial hi
  | label l => exact Run.logs_pure hP _
  | jump l => exact Run.logs_pure hP _
  | branch l c on =>
    refine (Expr.logs_holds hP hcall).bind hP fun b => ?_
    split
    · exact Run.logs_pure hP _
    · exact Run.logs_pure hP _
  | ret e? =>
    cases e? with
    | none => exact Run.logs_pure hP _
    | some e => exact (Expr.logs_eval hP hcall).bind hP fun v? => Run.logs_pure hP _

theorem Stmt.stepsLogged_eq_map (w : Setting (σ × Log)) (call : Calls (σ × Log)) (fuel : Nat)
    (ss : List Stmt) :
    Stmt.stepsLogged function? w call fuel ss =
      ss.map fun s => ⟨s.label?, s.runLogged function? w call fuel⟩ := by
  induction ss with
  | nil => rfl
  | cons s ss ih => rw [Stmt.stepsLogged, ih, List.map_cons]

theorem Stmt.runLogged_block (w : Setting (σ × Log)) (call : Calls (σ × Log)) (fuel : Nat) (ss : List Stmt) :
    (Stmt.block ss).runLogged function? w call fuel =
      Run.steps Stmt.label? (fun s => s.runLogged function? w call fuel) ss fuel ss := by
  rw [Stmt.runLogged, Step.runList, Stmt.stepsLogged_eq_map, Run.steps_map]

/-- A statement notes what its instructions note, and the calls in its conditions and increments. -/
theorem Stmt.logs_run (hP : Log.Kept P) (fuel : Nat) {s : Stmt}
    (hinstrs : ∀ i ∈ s.instrs, Run.Logs P (i.runLogged function? w.withLog call') (i.run w call))
    (htests : ∀ e ∈ s.tests, ∀ f ∈ e.callees, ∀ vs, Run.Logs P (call' f vs) (call f vs)) :
    Run.Logs P (s.runLogged function? w.withLog call' fuel) (s.run w call fuel) := by
  induction s with
  | instr i =>
    rw [Stmt.runLogged, Stmt.run]
    exact hinstrs i (.head _)
  | block ss ih =>
    rw [Stmt.runLogged_block, Stmt.run_block]
    rw [Stmt.instrs, Stmt.instrsList_eq_flatMap] at hinstrs
    rw [Stmt.tests, Stmt.testsList_eq_flatMap] at htests
    refine Run.logs_steps hP (fun s hs => ih s hs (fun i hi => ?_) fun e he => ?_) fuel
      (List.Subset.refl ss)
    · exact hinstrs i (List.mem_flatMap.2 ⟨s, hs, hi⟩)
    · exact htests e (List.mem_flatMap.2 ⟨s, hs, he⟩)
  | ifThen c s ih =>
    obtain ⟨hc, hs⟩ := List.forall_mem_cons.1 htests
    rw [Stmt.runLogged, Stmt.run]
    refine (Expr.logs_holds hP hc).bind hP fun b => ?_
    cases b with
    | true => exact ih hinstrs hs
    | false => exact Run.logs_pure hP _
  | ifElse c s t ihs iht =>
    obtain ⟨hc, hst⟩ := List.forall_mem_cons.1 htests
    obtain ⟨hs, ht⟩ := List.forall_mem_append.1 hst
    obtain ⟨his, hit⟩ := List.forall_mem_append.1 hinstrs
    rw [Stmt.runLogged, Stmt.run]
    refine (Expr.logs_holds hP hc).bind hP fun b => ?_
    cases b with
    | true => exact ihs his hs
    | false => exact iht hit ht
  | whileLoop c s x y ih =>
    obtain ⟨hc, hs⟩ := List.forall_mem_cons.1 htests
    rw [Stmt.runLogged, Stmt.run]
    refine Run.Logs.repeatPasses hP ((Expr.logs_holds hP hc).bind hP fun b => ?_) fuel
    cases b with
    | true => exact (ih hinstrs hs).pass hP x y
    | false => exact Run.logs_pure hP _
  | doWhile s c x y ih =>
    obtain ⟨hc, hs⟩ := List.forall_mem_cons.1 htests
    rw [Stmt.runLogged, Stmt.run]
    refine Run.Logs.repeatPasses hP (((ih hinstrs hs).pass hP x y).bind hP fun flow? => ?_) fuel
    cases flow? with
    | some flow => exact Run.logs_pure hP _
    | none =>
      refine (Expr.logs_holds hP hc).bind hP fun b => ?_
      cases b with
      | true => exact Run.logs_pure hP _
      | false => exact Run.logs_pure hP _
  | forLoop i c n s x y ihi ihs =>
    obtain ⟨hc, htests⟩ := List.forall_mem_cons.1 htests
    obtain ⟨hn, htests⟩ := List.forall_mem_cons.1 htests
    obtain ⟨hi, hs⟩ := List.forall_mem_append.1 htests
    obtain ⟨hii, his⟩ := List.forall_mem_append.1 hinstrs
    rw [Stmt.runLogged, Stmt.run]
    refine (ihi hii hi).bind hP fun flow => ?_
    cases flow with
    | jump l => exact Run.logs_pure hP _
    | returned v? => exact Run.logs_pure hP _
    | normal =>
      rw [if_pos rfl]
      refine Run.Logs.repeatPasses hP ((Expr.logs_holds hP hc).bind hP fun b => ?_) fuel
      cases b with
      | false => exact Run.logs_pure hP _
      | true =>
        refine ((ihs his hs).pass hP x y).bind hP fun flow? => ?_
        cases flow? with
        | some flow => exact Run.logs_pure hP _
        | none => exact (Expr.logs_eval hP hn).bind hP fun _ => Run.logs_pure hP _

end

end Typed

/-! ## Bodies, calls and programs -/

namespace Body

def instrs : Body → List Typed.Instr
  | flat code => code
  | structured ss => Typed.Stmt.instrsList ss

/-- The functions that a body calls from conditions, increments and returns. -/
def testCallees (body : Body) : List FuncId :=
  (body.instrs.filter fun i => ¬ i.HasValue).flatMap Typed.Instr.callees ++
    match body with
    | flat _ => []
    | structured ss => (Typed.Stmt.testsList ss).flatMap Typed.Expr.callees

/-- A body notes the values of its own statements, and what is noted by calls from its conditions,
increments and returns. -/
theorem logs_run {P : Log → Prop} (hP : Log.Kept P) {w : Setting σ} {call' : Calls (σ × Log)} {call : Calls σ}
    {function? : Option FuncId} {body : Body}
    (hany : ∀ f vs, Run.Logs (fun _ => True) (call' f vs) (call f vs))
    (hcall : ∀ f ∈ body.testCallees, ∀ vs, Run.Logs P (call' f vs) (call f vs))
    (hnote : ∀ i ∈ body.instrs, i.HasValue → ∀ log v?, P (log ++ [⟨function?, v?⟩])) (fuel : Nat) :
    Run.Logs P (body.runLogged function? w.withLog call' fuel) (body.run w call fuel) := by
  obtain ⟨hreturns, htests⟩ := List.forall_mem_append.1 hcall
  have hinstrs : ∀ i ∈ body.instrs, Run.Logs P (i.runLogged function? w.withLog call') (i.run w call) := by
    intro i hi
    by_cases hvalue : i.HasValue
    · exact Typed.Instr.logs_run_of_hasValue hvalue (fun f _ => hany f) (hnote i hi hvalue)
    · have hmem : i ∈ body.instrs.filter fun i => ¬ i.HasValue :=
        List.mem_filter.2 ⟨hi, decide_eq_true hvalue⟩
      refine Typed.Instr.logs_run_of_not_hasValue hP hvalue fun f hf => ?_
      exact hreturns f (List.mem_flatMap.2 ⟨i, hmem, hf⟩)
  cases body with
  | flat code => exact Run.logs_steps hP hinstrs fuel (List.Subset.refl code)
  | structured ss =>
    refine Typed.Stmt.logs_run hP fuel (s := .block ss) hinstrs fun e he f hf => ?_
    exact htests f (List.mem_flatMap.2 ⟨e, he, hf⟩)

end Body

namespace Run

variable {P : Log → Prop}

theorem logs_callWith (hP : Log.Kept P) {w : Setting σ} {run' : Body → Run (σ × Log) Flow}
    {run : Body → Run σ Flow} {f : FuncId} (h : ∀ body, w.body? f = some body → Logs P (run' body) (run body))
    (vs : List Value) : Logs P (callWith w.withLog run' f vs) (callWith w run f vs) := by
  have hsymbols : w.withLog.symbols = w.symbols := rfl
  have hbodies : w.withLog.body? = w.body? := rfl
  unfold callWith
  rw [hsymbols, hbodies]
  cases w.symbols.functionAt? f with
  | none => exact logs_fault _
  | some a =>
    dsimp only [Option.elim]
    cases a.builtin? with
    | some b => exact logs_builtin hP w b vs
    | none =>
      cases hbody : w.body? f with
      | none => exact logs_fault _
      | some body => exact ((h body hbody).inFrame _).bind hP fun flow => logs_ofExcept hP _

/-- A call does the same with a log. -/
theorem logs_call (w : Setting σ) (fuel : Nat) (f : FuncId) (vs : List Value) :
    Logs (fun _ => True) (callLogged w.withLog fuel f vs) (call w fuel f vs) := by
  induction fuel generalizing f vs with
  | zero => exact logs_throw _
  | succ fuel ih =>
    rw [call_succ]
    refine logs_callWith Log.kept_any (fun body _ => ?_) vs
    exact Body.logs_run Log.kept_any ih (fun f _ => ih f) (fun _ _ _ _ _ => trivial) fuel

theorem Logs.mainWith (hP : Log.Kept P) {x : Run (σ × Log) Flow} {y : Run σ Flow} (h : Logs P x y) :
    Logs P (mainWith x) (mainWith y) :=
  h.bind hP fun _ => (logs_ofExcept hP _).bind hP fun _ => fun m log => Result.logs_ok hP m.last? log rfl

/-- If a program ends with a value, it is the value of the last statement. -/
theorem mainWith_eq_ok {y : Run σ Flow} {m m' : Machine σ} {v? : Option Value}
    (h : mainWith y m = .ok v? m') : v? = m'.last? := by
  obtain ⟨flow, m₁, -, h⟩ := bind_eq_ok.1 h
  obtain ⟨u?, m₂, -, h⟩ := bind_eq_ok.1 h
  cases h
  rfl

end Run

/-- With a log, programs come to the same. If there is a value, it is the one noted last. -/
theorem exists_evaluateLogged_eq {P : Log → Prop} (hP : Log.Kept P) {w : Setting σ} {body : Body} {fuel : Nat}
    (hcall : ∀ f ∈ body.testCallees, ∀ vs,
      Run.Logs P (Run.callLogged w.withLog fuel f vs) (Run.call w fuel f vs))
    (hnote : ∀ log v?, P (log ++ [⟨none, v?⟩])) {globals : Store} {host : σ} {o : Outcome σ}
    (ho : evaluate w fuel body globals host = o) :
    ∃ log, evaluateLogged w fuel body globals host = ⟨o.result, o.globals, o.host, log⟩ ∧
      ∀ v?, o.result = .ok v? → P log ∧ v? = log.latest none := by
  have hbody := Body.logs_run (w := w) hP (Run.logs_call w fuel) hcall (fun _ _ _ => hnote) fuel
  obtain ⟨log, hlogged, hlog⟩ := hbody.mainWith hP ⟨globals, [], none, host⟩ []
  have hstart : (⟨globals, [], none, host, []⟩ : Machine (σ × Log)) =
      Machine.withLog ⟨globals, [], none, host⟩ [] := rfl
  refine ⟨log, ?_⟩
  rw [List.nil_append] at hlogged
  rw [evaluate_eq] at ho
  rw [evaluateLogged, hstart, hlogged, ← ho]
  cases hmain : Run.mainWith (body.run w (Run.call w fuel) fuel) ⟨globals, [], none, host⟩ with
  | error e m => exact ⟨rfl, fun _ h => by cases h⟩
  | ok v? m =>
    obtain ⟨hkept, hlast⟩ := hlog v? m hmain
    refine ⟨rfl, fun u? hu => ?_⟩
    cases hu
    exact ⟨hkept, (Run.mainWith_eq_ok hmain).trans hlast⟩

end Scripting
