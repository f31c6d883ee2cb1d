import Scripting.Proofs.Run.Logging

/-!
# Where the value of a submission comes from

Every expression statement and every declaration of a variable sets the value of the last statement, also
inside the functions that are called on the way, and nothing sets it back when a call returns. So the value
of a submission is that of the last such statement that was executed anywhere. It is that of the last one
in global code if the functions that are called from conditions, increments and returns of the global code
execute none (`Setting.Quiet`). In flat code the increment of a loop is an expression statement.
-/

namespace Scripting

variable {σ : Type}

namespace Log

/-- What was noted in global code. -/
def outside (log : Log) : Log := log.filter fun n => n.function?.isNone

/-- What was noted last, if anything, was noted in global code. -/
def EndsOutside (log : Log) : Prop := ∀ n, log.getLast? = some n → n.function? = none

theorem kept_endsOutside : Kept EndsOutside where
  nil n hn := by cases hn
  append {log added} h h' n hn := by
    rw [List.getLast?_append] at hn
    cases hadded : added.getLast? with
    | none =>
      rw [hadded, Option.none_or] at hn
      exact h n hn
    | some k =>
      rw [hadded, Option.some_or] at hn
      exact h' n (hadded.trans hn)

theorem endsOutside_concat (log : Log) (v? : Option Value) : EndsOutside (log ++ [⟨none, v?⟩]) := by
  intro n hn
  rw [List.getLast?_concat] at hn
  cases hn
  rfl

theorem EndsOutside.latest_outside {log : Log} (h : log.EndsOutside) (before? : Option Value) :
    log.outside.latest before? = log.latest before? := by
  rcases List.eq_nil_or_concat' log with rfl | ⟨front, n, rfl⟩
  · rfl
  · have hn : n.function? = none := h n List.getLast?_concat
    rw [outside, List.filter_append, List.filter_singleton, hn, Option.isNone_none, cond_true, latest_concat,
      latest_concat]

/-- Nothing was noted. -/
theorem kept_nil : Kept (· = []) where
  nil := rfl
  append h h' := by rw [h, h', List.append_nil]

end Log

/-- Calls of the functions execute no expression statement and declare no variable. -/
def Setting.Quiet (w : Setting σ) (F : FuncId → Prop) : Prop :=
  ∀ f, F f → ∀ body, w.body? f = some body →
    (∀ i ∈ body.instrs, ¬ i.HasValue) ∧ ∀ g ∈ body.testCallees, F g

theorem Setting.Quiet.logs_call {w : Setting σ} {F : FuncId → Prop} (h : w.Quiet F) (fuel : Nat) {f : FuncId}
    (hf : F f) (vs : List Value) :
    Run.Logs (· = []) (Run.callLogged w.withLog fuel f vs) (Run.call w fuel f vs) := by
  induction fuel generalizing f vs with
  | zero => exact Run.logs_throw _
  | succ fuel ih =>
    rw [Run.call_succ]
    refine Run.logs_callWith Log.kept_nil (fun body hbody => ?_) vs
    obtain ⟨hinstrs, hcallees⟩ := h f hf body hbody
    refine Body.logs_run Log.kept_nil (Run.logs_call w fuel) (fun g hg => ih (hcallees g hg)) ?_ fuel
    exact fun i hi hvalue => absurd hvalue (hinstrs i hi)

/-- Runs a submission with a log, unless it has diagnostics. -/
def Submission.evaluateLogged (host : Host σ) (symbols : SymbolTable) (s : Submission) (earlier : Lineage)
    (form : Form) (fuel : Nat) (globals : Store) (state : σ) : Outcome (σ × Log) :=
  if s.diagnostics.isEmpty then
    Scripting.evaluateLogged (Lineage.setting host symbols (s :: earlier)) fuel (s.body form) globals state
  else ⟨.ok none, globals, state, []⟩

/-- **The value is that of the last statement executed.** Running a submission with a log changes nothing
about what it comes to. If it comes to a value, that is the value of the expression statement or declaration
executed last, in global code or in a function; without any, there is none. If the conditions, increments and
returns of the global code call only functions that execute no such statement, it is that of the last one
executed in global code. -/
theorem value_is_of_last_statement (host : Host σ) (symbols : SymbolTable) (s : Submission)
    (earlier : Lineage) (form : Form) (fuel : Nat) (globals : Store) (state : σ) :
    let w := Lineage.setting host symbols (s :: earlier)
    let o := s.evaluate host symbols earlier form fuel globals state
    let l := s.evaluateLogged host symbols earlier form fuel globals state
    (l.result = o.result ∧ l.globals = o.globals ∧ l.host.1 = o.host) ∧
      ∀ v?, o.result = .ok v? → v? = l.host.2.latest none ∧
        ∀ F, w.Quiet F → (∀ f ∈ (s.body form).testCallees, F f) → v? = l.host.2.outside.latest none := by
  intro w o l
  by_cases hclean : s.diagnostics.isEmpty = true
  · have ho : evaluate w fuel (s.body form) globals state = o := (if_pos hclean).symm
    have hl : l = evaluateLogged w fuel (s.body form) globals state := if_pos hclean
    obtain ⟨log, hlog, hvalue⟩ := exists_evaluateLogged_eq Log.kept_any
      (fun f _ => Run.logs_call w fuel f) (fun _ _ => trivial) ho
    rw [← hl] at hlog
    refine ⟨by rw [hlog]; exact ⟨rfl, rfl, rfl⟩, fun v? hv => ?_⟩
    rw [hlog]
    refine ⟨(hvalue v? hv).2, fun F hquiet htests => ?_⟩
    have hcall : ∀ f ∈ (s.body form).testCallees, ∀ vs,
        Run.Logs Log.EndsOutside (Run.callLogged w.withLog fuel f vs) (Run.call w fuel f vs) := by
      intro f hf vs
      refine (hquiet.logs_call fuel (htests f hf) vs).mono fun added hadded => ?_
      rw [hadded]
      exact Log.kept_endsOutside.nil
    obtain ⟨log', hlog', hvalue'⟩ := exists_evaluateLogged_eq Log.kept_endsOutside hcall
      Log.endsOutside_concat ho
    rw [← hl, hlog] at hlog'
    obtain rfl : log = log' := congrArg (fun o : Outcome (σ × Log) => o.host.2) hlog'
    obtain ⟨hends, hlatest⟩ := hvalue' v? hv
    rw [hends.latest_outside]
    exact hlatest
  · have ho : o = ⟨.ok none, globals, state⟩ := if_neg hclean
    have hl : l = ⟨.ok none, globals, state, []⟩ := if_neg hclean
    rw [ho, hl]
    refine ⟨⟨rfl, rfl, rfl⟩, fun v? hv => ?_⟩
    cases hv
    exact ⟨rfl, fun _ _ _ => rfl⟩

/-- Counts as long as a function says that the number is small. -/
def countingUp : Submission × SymbolTable :=
  compile .standard .initial []
    "fn small(n: int) -> bool \x7b return n < 3; \x7d var i = 0; while small(i) \x7b i = i + 1; \x7d"
    "counting up"

/-- The function executes no expression statement, so the value is that of the last assignment. -/
theorem countingUp_value_is_of_last_statement :
    let w := Lineage.setting Recording.host countingUp.2 [countingUp.1]
    let o := countingUp.1.evaluate Recording.host countingUp.2 [] .flat 100 .empty (.ofAnswers [] [])
    let l := countingUp.1.evaluateLogged Recording.host countingUp.2 [] .flat 100 .empty (.ofAnswers [] [])
    (o.result = .ok (some (.int 3)) ∧ (countingUp.1.body .flat).testCallees = [⟨3⟩] ∧ w.Quiet (· = ⟨3⟩)) ∧
      some (.int 3) = l.host.2.outside.latest none := by
  intro w o l
  have hclosed : o.result = .ok (some (.int 3)) ∧ (countingUp.1.body .flat).testCallees = [⟨3⟩] ∧
      (w.body? ⟨3⟩).all (fun body => body.instrs.all (fun i => ¬ i.HasValue) &&
        body.testCallees.all (· = ⟨3⟩)) = true := by decide +kernel
  obtain ⟨hresult, htests, hsmall⟩ := hclosed
  have hquiet : w.Quiet (· = ⟨3⟩) := by
    rintro f rfl body hbody
    rw [hbody, Option.all_some, Bool.and_eq_true, List.all_eq_true, List.all_eq_true] at hsmall
    exact ⟨fun i hi => of_decide_eq_true (hsmall.1 i hi), fun g hg => of_decide_eq_true (hsmall.2 g hg)⟩
  obtain ⟨-, hvalue⟩ := value_is_of_last_statement Recording.host countingUp.2 countingUp.1 [] .flat 100
    .empty (.ofAnswers [] [])
  refine ⟨⟨hresult, htests, hquiet⟩, (hvalue _ hresult).2 _ hquiet fun f hf => ?_⟩
  rw [htests] at hf
  exact List.mem_singleton.1 hf

/-- A condition that declares a variable. -/
def leaking : Submission × SymbolTable :=
  compile .standard .initial []
    "fn f() -> bool \x7b var t = 7; return false; \x7d 5; if f() \x7b \x7d" "leaking"

/-- The only statement of the global code with a value is `5;`, but the value is that of the declaration in
the function that the condition calls. -/
theorem leaking_value_is_of_condition :
    let o := leaking.1.evaluate Recording.host leaking.2 [] .flat 100 .empty (.ofAnswers [] [])
    let l := leaking.1.evaluateLogged Recording.host leaking.2 [] .flat 100 .empty (.ofAnswers [] [])
    leaking.1.diagnostics.isEmpty = true ∧ o.result = .ok (some (.int 7)) ∧
      l.host.2 = [⟨none, some (.int 5)⟩, ⟨some ⟨3⟩, some (.int 7)⟩] ∧
      l.host.2.outside.latest none = some (.int 5) := by
  decide +kernel

end Scripting
