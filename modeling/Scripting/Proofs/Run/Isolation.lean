import Scripting.Proofs.Run.Frames
import Scripting.Run.Recording
import Scripting.Submission.Check
import Scripting.Submission.Run

/-!
# Calls and their frames

The body of a function runs in a frame of its own, which holds the arguments of the call and nothing else
(`Store.HoldsArguments`). When the call is over the frames are those of the caller again, whether it ended
with a value or with an error (`Run.call_eq`). Together with `Run.Confined` this says what a run can do to
the frames: at most change the innermost one.
-/

namespace Scripting

variable {σ α : Type}

/-! ## The frame a call starts with -/

namespace Store

theorem ofList_concat (entries : List (VarId × Value)) (x : VarId) (v : Value) :
    ofList (entries ++ [(x, v)]) = (ofList entries).insert x v := by
  unfold ofList
  rw [List.foldl_concat]

/-- The frame holds the arguments under their parameters, from left to right, and nothing else. Of two
arguments under one parameter the later counts. -/
structure HoldsArguments (frame : Store) (parameters : List VarId) (vs : List Value) : Prop where
  bound : ∀ front back x v, parameters.zip vs = front ++ (x, v) :: back → (∀ p ∈ back, p.1 ≠ x) →
    frame.get? x = some v
  only : ∀ x v, frame.get? x = some v → (x, v) ∈ parameters.zip vs

theorem get?_ofList_append {entries back : List (VarId × Value)} {x : VarId} (h : ∀ p ∈ back, p.1 ≠ x) :
    (ofList (entries ++ back)).get? x = (ofList entries).get? x := by
  induction back using List.reverseRecOn with
  | nil => rw [List.append_nil]
  | append_singleton back p ih =>
    obtain ⟨y, v⟩ := p
    have hne : x ≠ y := fun heq => h (y, v) (by simp) heq.symm
    rw [← List.append_assoc, ofList_concat, get?_insert_of_ne _ hne]
    exact ih fun p hp => h p (List.mem_append_left _ hp)

theorem mem_of_get?_ofList {entries : List (VarId × Value)} {x : VarId} {v : Value}
    (h : (ofList entries).get? x = some v) : (x, v) ∈ entries := by
  induction entries using List.reverseRecOn with
  | nil => cases h
  | append_singleton entries p ih =>
    obtain ⟨y, u⟩ := p
    rw [ofList_concat] at h
    by_cases hxy : x = y
    · subst hxy
      rw [get?_insert_self] at h
      cases h
      exact List.mem_append_right _ (List.mem_singleton_self _)
    · rw [get?_insert_of_ne _ hxy] at h
      exact List.mem_append_left _ (ih h)

theorem holdsArguments_ofList (parameters : List VarId) (vs : List Value) :
    (ofList (parameters.zip vs)).HoldsArguments parameters vs where
  bound front back x v heq hback := by
    have hsplit : front ++ (x, v) :: back = (front ++ [(x, v)]) ++ back := by simp
    rw [heq, hsplit, get?_ofList_append hback, ofList_concat, get?_insert_self]
  only _ _ h := mem_of_get?_ofList h

end Store

/-! ## Calls -/

/-- What a call comes to, by where control went at the end of the body. -/
def Flow.outcome : Flow → Except Halt (Option Value)
  | returned v? => .ok v?
  | normal => .ok none
  | jump l => .error (.fault (.undeclaredLabel l.name))

namespace Run

def Result.withFrames (frames : List Store) : Result σ α → Result σ α
  | .ok a m => .ok a { m with frames := frames }
  | .error e m => .error e { m with frames := frames }

theorem Result.frames_withFrames (frames : List Store) (r : Result σ α) :
    (Result.machine (Result.withFrames frames r)).frames = frames := by
  cases r <;> rfl

/-- After a run in a frame of its own the frames are the same as before. -/
theorem Confined.inFrame_eq {x : Run σ α} (h : Confined x) (frame : Store) (m : Machine σ) :
    Run.inFrame frame x m = Result.withFrames m.frames (x { m with frames := frame :: m.frames }) := by
  have htail := (h { m with frames := frame :: m.frames }).tail
  unfold Run.inFrame
  generalize x { m with frames := frame :: m.frames } = r at htail
  cases r with
  | ok a m' =>
    replace htail : m'.frames.tail = m.frames := htail
    rw [← htail]
    rfl
  | error e m' =>
    replace htail : m'.frames.tail = m.frames := htail
    rw [← htail]
    rfl

theorem frames_builtin (w : Setting σ) (b : Builtin) (vs : List Value) (m : Machine σ) :
    (Result.machine (builtin w b vs m)).frames = m.frames := by
  cases b with
  | input => rfl
  | print =>
    cases vs with
    | nil => rfl
    | cons v rest => cases v <;> rfl
  | random =>
    cases vs with
    | nil => rfl
    | cons v rest => cases v <;> rfl

/-- Runs a body, and takes from it what a call of it comes to. -/
def calling (w : Setting σ) (fuel : Nat) (body : Body) : Run σ (Option Value) := do
  let flow ← body.run w (Run.call w fuel) fuel
  Run.ofExcept flow.outcome

/-- A call of a function with a body: the body runs in a frame with the arguments, on top of the frames of
the caller, and these are left at the end. -/
theorem call_eq {w : Setting σ} {f : FuncId} {a : FunctionSymbol} {body : Body}
    (hf : w.symbols.functionAt? f = some a) (hbuiltin : a.builtin? = none) (hbody : w.body? f = some body)
    (fuel : Nat) (vs : List Value) (m : Machine σ) :
    Run.call w (fuel + 1) f vs m = Result.withFrames m.frames (calling w fuel body
      { m with frames := .ofList ((a.parameters.map (·.target)).zip vs) :: m.frames }) := by
  have hconfined := body.confined_run (w := w) (Run.confined_call w fuel) fuel
  unfold Run.call calling
  simp only [hf, hbuiltin, hbody]
  rw [bind_apply, bind_apply, hconfined.inFrame_eq]
  cases body.run w (Run.call w fuel) fuel
    { m with frames := .ofList ((a.parameters.map (·.target)).zip vs) :: m.frames } with
  | error e m' => rfl
  | ok flow m' => cases flow <;> rfl

/-- A call leaves every frame as it was, that of the caller included. -/
theorem frames_call (w : Setting σ) (fuel : Nat) (f : FuncId) (vs : List Value) (m : Machine σ) :
    (Result.machine (Run.call w fuel f vs m)).frames = m.frames := by
  cases fuel with
  | zero => rfl
  | succ fuel =>
    cases hf : w.symbols.functionAt? f with
    | none =>
      unfold Run.call
      rw [hf]
      rfl
    | some a =>
      cases hbuiltin : a.builtin? with
      | some b =>
        unfold Run.call
        simp only [hf, hbuiltin]
        exact frames_builtin w b vs m
      | none =>
        cases hbody : w.body? f with
        | none =>
          unfold Run.call
          simp only [hf, hbuiltin, hbody]
          rfl
        | some body =>
          rw [call_eq hf hbuiltin hbody]
          exact Result.frames_withFrames _ _

/-- A call as an expression leaves the frames as they are once the arguments were evaluated. -/
theorem frames_eval_call {w : Setting σ} {call : Calls σ}
    (hcall : ∀ f vs m, (Result.machine (call f vs m)).frames = m.frames) {f : FuncId} {es : List Typed.Expr}
    {t : Ty} {m m₁ : Machine σ} {vs : List Value} (h : Typed.Expr.evalList w call es m = .ok vs m₁) :
    (Result.machine ((Typed.Expr.call f es t).eval w call m)).frames = m₁.frames := by
  rw [Typed.Expr.eval, bind_of_ok h]
  exact hcall f vs m₁

end Run

/-- **Calls are isolated.** However it ends, the run of an expression or of a body leaves the number of
frames and all frames but the innermost one as they were. A call leaves the innermost one too, as it is when
its arguments were evaluated, and its body starts with a frame that holds these arguments only. -/
theorem calls_are_isolated (w : Setting σ) (fuel : Nat) :
    (∀ (e : Typed.Expr) (m : Machine σ),
      m.SameCallers (Run.Result.machine (e.eval w (Run.call w fuel) m))) ∧
    (∀ (body : Body) (n : Nat) (m : Machine σ),
      m.SameCallers (Run.Result.machine (body.run w (Run.call w fuel) n m))) ∧
    (∀ (f : FuncId) (es : List Typed.Expr) (t : Ty) (m m₁ : Machine σ) (vs : List Value),
      Typed.Expr.evalList w (Run.call w fuel) es m = .ok vs m₁ →
        (Run.Result.machine ((Typed.Expr.call f es t).eval w (Run.call w fuel) m)).frames = m₁.frames) ∧
    (∀ (f : FuncId) (a : FunctionSymbol) (body : Body), w.symbols.functionAt? f = some a →
      a.builtin? = none → w.body? f = some body → ∀ vs : List Value,
        ∃ frame : Store, frame.HoldsArguments (a.parameters.map (·.target)) vs ∧
          ∀ m : Machine σ, Run.call w (fuel + 1) f vs m = Run.Result.withFrames m.frames
            (Run.calling w fuel body { m with frames := frame :: m.frames })) := by
  refine ⟨fun e => e.confined_eval (Run.confined_call w fuel), fun body n => ?_, ?_, ?_⟩
  · exact body.confined_run (Run.confined_call w fuel) n
  · intro f es t m m₁ vs hargs
    exact Run.frames_eval_call (Run.frames_call w fuel) hargs
  · intro f a body hf hbuiltin hbody vs
    exact ⟨_, Store.holdsArguments_ofList _ vs, Run.call_eq hf hbuiltin hbody fuel vs⟩

/-- The numbers of Fibonacci, by a function that calls itself twice. -/
def fibonacci : Submission × SymbolTable :=
  compile .standard .initial []
    "fn fib(n: int) -> int \x7b if n < 2 \x7b return n; \x7d return fib(n - 1) + fib(n - 2); \x7d fib(10)"
    "fibonacci"

/-- `n - 1`, the argument of the first of the two calls. -/
def fibonacciArgument : Typed.Expr :=
  .binary (.name ⟨2⟩ .int) ⟨.dash, .subtraction, .int, .int, .int⟩ (.literal (.int 1))

/-- In a call of the function with 5, the call with `n - 1` starts with a frame in which `n` is 4 and
nothing else, and comes back to the frame in which `n` is 5. -/
theorem fibonacci_calls_are_isolated :
    let w := Lineage.setting Recording.host fibonacci.2 [fibonacci.1]
    let m : Machine Recording := ⟨.empty, [.ofList [(⟨2⟩, .int 5)]], none, .ofAnswers [] []⟩
    (Run.Result.machine ((Typed.Expr.call ⟨3⟩ [fibonacciArgument] .int).eval w (Run.call w 99) m)).frames =
        m.frames ∧
      ∃ body frame, w.body? ⟨3⟩ = some body ∧ frame.get? ⟨2⟩ = some (.int 4) ∧
        (∀ x v, frame.get? x = some v → x = ⟨2⟩) ∧
        Run.call w 100 ⟨3⟩ [.int 4] m = Run.Result.withFrames m.frames
          (Run.calling w 99 body { m with frames := frame :: m.frames }) := by
  intro w m
  obtain ⟨-, -, hcall, hcallee⟩ := calls_are_isolated w 99
  obtain ⟨hvariable, hsymbol, hbody⟩ : w.symbols.variableAt? ⟨2⟩ = some ⟨"n", .int, true, .parameter⟩ ∧
      (w.symbols.functionAt? ⟨3⟩).map (fun a => (a.parameters.map (·.target), a.builtin?)) =
          some ([⟨2⟩], none) ∧ (w.body? ⟨3⟩).isSome := by decide +kernel
  obtain ⟨a, ha, hsymbol⟩ := Option.map_eq_some_iff.1 hsymbol
  obtain ⟨hparameters, hbuiltin⟩ := Prod.mk.inj hsymbol
  obtain ⟨body, hbody⟩ := Option.isSome_iff_exists.1 hbody
  have hname : (Typed.Expr.name ⟨2⟩ .int).eval w (Run.call w 99) m = .ok (some (.int 5)) m := by
    rw [Typed.Expr.eval, Run.lookup, hvariable]
    rfl
  have hargs : Typed.Expr.evalList w (Run.call w 99) [fibonacciArgument] m = .ok [.int 4] m := by
    rw [Typed.Expr.evalList, fibonacciArgument, Typed.Expr.eval]
    unfold Run.required
    simp only [bind_assoc]
    rw [Run.bind_of_ok hname]
    rfl
  obtain ⟨frame, hframe, heq⟩ := hcallee ⟨3⟩ a body ha hbuiltin hbody [.int 4]
  rw [hparameters] at hframe
  refine ⟨hcall ⟨3⟩ _ .int m m _ hargs, body, frame, hbody, ?_, fun x v hx => ?_, heq m⟩
  · exact hframe.bound [] [] ⟨2⟩ (.int 4) rfl (List.forall_mem_nil _)
  · cases List.mem_singleton.1 (hframe.only x v hx)
    rfl

end Scripting
