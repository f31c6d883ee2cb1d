import Scripting.Proofs.Graph.Execution
import Scripting.Proofs.Lowering.Behaviour

/-!
# Code behind code

Code that answers its own jumps can be followed by other code of the kind, with other labels. Run as one,
they do what the first does, and then what the second does from there (`Code.Separate.settles_iff`). The
value of the last statement is then that of the second, if its last instruction has one.
-/

namespace Scripting

variable {σ α : Type}

namespace Run

variable {label? : α → Option Typed.Label} {l : Typed.Label}

theorem after?_append_of_some {back suffix : List α} (h : after? label? l back = some suffix)
    (front : List α) : after? label? l (front ++ back) = some suffix := by
  induction front with
  | nil => exact h
  | cons a front ih => rw [List.cons_append, after?, ih]

theorem after?_append_of_none {back : List α} (h : after? label? l back = none) (front : List α) :
    after? label? l (front ++ back) = (after? label? l front).map (· ++ back) := by
  induction front with
  | nil => exact h
  | cons a front ih =>
    rw [List.cons_append, after?, after?, ih]
    cases after? label? l front with
    | some suffix => rfl
    | none => by_cases ha : label? a = some l <;> simp [ha]

end Run

namespace Typed.Code

variable {w : Setting σ} {call : Calls σ} {code front back : Code} {m m' m₁ : Machine σ}

/-- A jump made inside the code goes to a place inside it. -/
theorem Closed.exists_after? (h : code.Closed) {i : Instr} (hi : i ∈ code) {l : Label}
    (hrun : i.run w call m = .ok (.jump l) m') :
    l ∈ code.labels ∧ ∃ suffix, Run.after? Instr.label? l code = some suffix ∧ suffix <:+ code := by
  have htarget : i.target? = some l := by
    rcases Instr.run_eq_jump hrun with ⟨rfl, -⟩ | ⟨c, on, rfl, -⟩ <;> rfl
  have hlabel := h i hi l htarget
  refine ⟨mem_labels.2 hlabel, ?_⟩
  cases hafter : Run.after? Instr.label? l code with
  | none => exact absurd rfl (Run.after?_eq_none.1 hafter _ hlabel)
  | some suffix =>
    obtain ⟨a, -, hsuffix, -⟩ := Run.after?_eq_some hafter
    exact ⟨suffix, rfl, (List.suffix_cons a suffix).trans hsuffix⟩

/-! ## Running on -/

/-- Both pieces answer their jumps themselves, and they share no label. -/
structure Separate (front back : Code) : Prop where
  labels : ∀ l ∈ front.labels, l ∉ back.labels
  front : front.Closed
  back : back.Closed

/-- What is left to do when `back` follows code that ended with the result. -/
def goOn (w : Setting σ) (call : Calls σ) (back : Code) : Run.Result σ Flow → Nat → Run.Result σ Flow
  | .ok .normal m, n => back.run w call n m
  | r, _ => r

namespace Separate

/-- Inside the second piece, the first makes no difference. -/
theorem runFrom_back (h : Separate front back) (n : Nat) {suffix : Code} (hs : suffix <:+ back)
    (m : Machine σ) :
    runFrom w call (front ++ back) n suffix m = runFrom w call back n suffix m := by
  induction n generalizing suffix m with
  | zero => cases suffix <;> rfl
  | succ n ih =>
    cases suffix with
    | nil => rfl
    | cons i rest =>
      rw [runFrom_succ, runFrom_succ, Run.bind_apply, Run.bind_apply]
      cases hrun : i.run w call m with
      | error e m₁ => rfl
      | ok flow m₁ =>
        cases flow with
        | normal => exact ih ((List.suffix_cons i rest).trans hs) m₁
        | returned v? => rfl
        | jump l =>
          obtain ⟨-, target, hafter, htarget⟩ :=
            h.back.exists_after? (hs.subset List.mem_cons_self) hrun
          dsimp only
          rw [Run.resume_jump_of_some hafter,
            Run.resume_jump_of_some (Run.after?_append_of_some hafter front)]
          exact ih htarget m₁

/-- Where a run of the first piece ends, the run of both goes on as it says. -/
theorem exists_takes (h : Separate front back) (n : Nat) {suffix : Code} (hs : suffix <:+ front)
    {m : Machine σ} (hfin : Run.Finished (runFrom w call front n suffix m)) :
    ∃ d, Run.Takes d (fun k => runFrom w call (front ++ back) k (suffix ++ back) m)
      (back.goOn w call (runFrom w call front n suffix m)) := by
  -- the fuel of the finished run bounds its steps, so the induction is on it
  have hnil : ∀ m : Machine σ, Run.Takes 0 (fun k => runFrom w call (front ++ back) k back m)
      (back.goOn w call (.ok .normal m)) := by
    intro m
    have heq : (fun k => runFrom w call (front ++ back) k back m) = fun k => back.run w call k m :=
      funext fun k => h.runFrom_back k (List.suffix_refl back) m
    rw [heq]
    exact .refl _
  induction n generalizing suffix m with
  | zero =>
    cases suffix with
    | nil => exact ⟨0, hnil m⟩
    | cons i rest => exact absurd hfin (not_finished_runFrom i rest m)
  | succ n ih =>
    cases suffix with
    | nil => exact ⟨0, hnil m⟩
    | cons i rest =>
      rw [runFrom_succ, Run.bind_apply] at hfin ⊢
      cases hrun : i.run w call m with
      | error e m₁ =>
        refine ⟨1, .one (not_finished_runFrom i _ m) fun k => ?_⟩
        rw [List.cons_append, runFrom_succ, Run.bind_of_error hrun]
        rfl
      | ok flow m₁ =>
        have hstep : Run.Takes 1 (fun k => runFrom w call (front ++ back) k (i :: rest ++ back) m)
            fun k => Run.resume Instr.label? (Instr.run w call) (front ++ back) k (rest ++ back) flow m₁ :=
          .one (not_finished_runFrom i _ m) fun k => by
            rw [List.cons_append, runFrom_succ, Run.bind_of_ok hrun]
        rw [hrun] at hfin
        cases flow with
        | normal =>
          obtain ⟨d, hd⟩ := ih ((List.suffix_cons i rest).trans hs) hfin
          exact ⟨d + 1, hstep.trans hd⟩
        | returned v? => exact ⟨1, hstep⟩
        | jump l =>
          obtain ⟨hl, target, hafter, htarget⟩ :=
            h.front.exists_after? (hs.subset List.mem_cons_self) hrun
          have hnone : Run.after? Instr.label? l back = none :=
            Run.after?_eq_none.2 fun j hj hlabel => h.labels l hl
              (mem_labels.2 (Instr.label?_eq_some.1 hlabel ▸ hj))
          have hboth : Run.after? Instr.label? l (front ++ back) = some (target ++ back) := by
            rw [Run.after?_append_of_none hnone, hafter]
            rfl
          simp only [Run.resume_jump_of_some hboth] at hstep
          dsimp only at hfin ⊢
          rw [Run.resume_jump_of_some hafter] at hfin ⊢
          obtain ⟨d, hd⟩ := ih htarget hfin
          exact ⟨d + 1, hstep.trans hd⟩

theorem exists_takes_run (h : Separate front back) {n : Nat} {r : Run.Result σ Flow}
    (hrun : front.run w call n m = r) (hfin : Run.Finished r) :
    ∃ d, Run.Takes d (fun k => Code.run w call k (front ++ back) m) (back.goOn w call r) := by
  subst hrun
  exact h.exists_takes n (List.suffix_refl front) hfin

end Separate

/-- Given enough fuel, the code ends with the result. -/
abbrev Settles (w : Setting σ) (code : Code) (m : Machine σ) (r : Run.Result σ Flow) : Prop :=
  Run.Settles (fun fuel => code.run w (Run.call w fuel) fuel) m r

namespace Separate

/-- If the first piece ends in an error, so do both. -/
theorem settles_error (h : Separate front back) {e : Halt} (hfront : front.Settles w m (.error e m₁)) :
    Settles w (front ++ back) m (.error e m₁) := by
  obtain ⟨hfin, n, hn⟩ := hfront
  obtain ⟨d, hd⟩ := h.exists_takes_run (hn n le_rfl) hfin
  exact Code.settles (hd.after 0 hfin) hfin

/-- **Code behind code.** If the first piece comes to its end, both settle on what the second does from
there. -/
theorem settles_iff (h : Separate front back) (hfront : front.Settles w m (.ok .normal m₁))
    (r : Run.Result σ Flow) : Settles w (front ++ back) m r ↔ back.Settles w m₁ r := by
  obtain ⟨-, n, hn⟩ := hfront
  have htakes : ∀ fuel, n ≤ fuel → ∃ d,
      Run.Takes d (fun k => Code.run w (Run.call w fuel) k (front ++ back) m)
        fun k => back.run w (Run.call w fuel) k m₁ :=
    fun fuel hle => h.exists_takes_run (hn fuel hle) (Run.finished_ok _ _)
  constructor
  · rintro ⟨hfin, k, hk⟩
    obtain ⟨d, hd⟩ := htakes (max n k) (by omega)
    have hboth : Code.run w (Run.call w (max n k)) (max n k) (front ++ back) m = r := hk _ (by omega)
    obtain ⟨j, hj, hback⟩ := hd.before (max n k) (hboth ▸ hfin)
    have heq := hd.after j hback
    rw [← hj, hboth] at heq
    exact Code.settles heq.symm hfin
  · rintro ⟨hfin, k, hk⟩
    obtain ⟨d, hd⟩ := htakes (max n k) (by omega)
    have hback : back.run w (Run.call w (max n k)) (max n k) m₁ = r := hk _ (by omega)
    have heq := hd.after (max n k) (hback ▸ hfin)
    exact Code.settles (heq.trans hback) hfin

end Separate

/-! ## The value of the last statement -/

/-- Code without returns comes to its end, if it ends without error. -/
theorem Closed.eq_normal (h : code.Closed) (hret : ∀ e?, Instr.ret e? ∉ code) {fuel : Nat} {flow : Flow}
    (hrun : code.run w call fuel m = .ok flow m₁) : flow = .normal := by
  cases flow with
  | normal => rfl
  | jump l => exact absurd hrun (h.run_ne_jump w call fuel m m₁ l)
  | returned v? =>
    have hgives : Run.Gives (code.run w call fuel) fun flow => ∀ v?, flow ≠ .returned v? := by
      refine Run.gives_steps nofun (fun i hi => ?_) fuel (List.Subset.refl code)
      rintro m flow m' hstep v? rfl
      obtain ⟨e?, rfl⟩ := Instr.run_eq_returned hstep
      exact hret e? hi
    exact absurd rfl (hgives m _ m₁ hrun v?)

end Typed.Code

/-- The instruction sets the value of the last statement. -/
def Typed.Instr.HasValue : Instr → Prop
  | eval _ | declare .. => True
  | _ => False

instance (i : Typed.Instr) : Decidable i.HasValue :=
  match i with
  | .eval _ | .declare .. => isTrue trivial
  | .label _ | .jump _ | .branch .. | .ret _ => isFalse id

/-- The last instruction of the code sets the value of the last statement. -/
def Typed.Code.EndsInValue (code : Code) : Prop := ∃ i, code.getLast? = some i ∧ i.HasValue

theorem Machine.Alike.setLast {m m' : Machine σ} (h : m.Alike Run.AnyLast m') (v? : Option Value) :
    ({ m' with last? := v? } : Machine σ) = { m with last? := v? } := by
  obtain ⟨u?, -, rfl⟩ := h.exists_last
  rfl

theorem Run.Below.alike_ok {x : Run σ α} (h : Run.Below Run.AnyLast x x) {m m' m₁ : Machine σ} {a : α}
    (hm : m.Alike Run.AnyLast m') (hrun : x m = .ok a m₁) :
    ∃ m₁', x m' = .ok a m₁' ∧ m₁.Alike Run.AnyLast m₁' := by
  have hagree := h m m' hm (hrun ▸ Run.finished_ok a m₁)
  rw [hrun] at hagree
  generalize x m' = r at hagree
  cases hagree with
  | ok ha hm₁ => exact ⟨_, ha ▸ rfl, hm₁⟩

namespace Typed

variable {w : Setting σ} {call : Calls σ} {m m' m₁ : Machine σ}

section EndsInValue

variable (hcall : ∀ f vs, Run.Below Run.AnyLast (call f vs) (call f vs))
include hcall

/-- After the instruction it does not matter what the value of the last statement was before. -/
theorem Instr.HasValue.run_eq {i : Instr} (h : i.HasValue) (hm : m.Alike Run.AnyLast m') {flow : Flow}
    (hrun : i.run w call m = .ok flow m₁) : i.run w call m' = .ok flow m₁ := by
  cases i with
  | eval e =>
    obtain ⟨v?, k, he, hset⟩ := Run.bind_eq_ok.1 hrun
    obtain ⟨k', he', hk⟩ := (e.eval_below hcall).alike_ok hm he
    rw [Instr.run, Run.bind_of_ok he']
    cases hset
    exact congrArg (EStateM.Result.ok Flow.normal) (hk.setLast v?)
  | declare x e =>
    obtain ⟨v, k, he, hassign⟩ := Run.bind_eq_ok.1 hrun
    obtain ⟨u, k₁, ha, hset⟩ := Run.bind_eq_ok.1 hassign
    obtain ⟨k', he', hk⟩ := (e.eval_below hcall).required.alike_ok hm he
    obtain ⟨k₁', ha', hk₁⟩ := (Run.below_assign w x v).alike_ok hk ha
    rw [Instr.run, Run.bind_of_ok he', Run.bind_of_ok ha']
    cases hset
    exact congrArg (EStateM.Result.ok Flow.normal) (hk₁.setLast (some v))
  | label | jump | branch | ret => exact h.elim

namespace Code.EndsInValue

variable {code : Code}

theorem runFrom_eq (h : code.EndsInValue) (n : Nat) {suffix : Code} (hs : suffix <:+ code)
    (hne : suffix ≠ []) (hm : m.Alike Run.AnyLast m')
    (hrun : runFrom w call code n suffix m = .ok .normal m₁) :
    runFrom w call code n suffix m' = .ok .normal m₁ := by
  obtain ⟨last, hlast, hvalue⟩ := h
  have hend : ∀ {i : Instr}, [i] <:+ code → i = last := by
    rintro i ⟨front, rfl⟩
    rw [List.getLast?_append, List.getLast?_singleton] at hlast
    exact Option.some.inj hlast
  induction n generalizing suffix m m' with
  | zero =>
    cases suffix with
    | nil => exact absurd rfl hne
    | cons i rest => cases hrun
  | succ n ih =>
    cases suffix with
    | nil => exact absurd rfl hne
    | cons i rest =>
      rw [runFrom_succ] at hrun ⊢
      obtain ⟨flow, k, hi, hrest⟩ := Run.bind_eq_ok.1 hrun
      by_cases hnil : rest = []
      · subst hnil
        obtain rfl := hend hs
        rw [Run.bind_of_ok (hvalue.run_eq hcall hm hi)]
        exact hrest
      · obtain ⟨k', hi', hk⟩ := (i.run_below Run.AnyLast.refl hcall).alike_ok hm hi
        rw [Run.bind_of_ok hi']
        cases flow with
        | normal => exact ih ((List.suffix_cons i rest).trans hs) hnil hk hrest
        | returned v? => cases hrest
        | jump l =>
          cases hafter : Run.after? Instr.label? l code with
          | none =>
            rw [Run.resume_jump_of_none hafter] at hrest
            cases hrest
          | some target =>
            rw [Run.resume_jump_of_some hafter] at hrest ⊢
            obtain ⟨a, ha, htarget, -⟩ := Run.after?_eq_some hafter
            refine ih ((List.suffix_cons a target).trans htarget) ?_ hk hrest
            -- behind a label that ends the code nothing would be left, but a label has no value
            rintro rfl
            obtain rfl := hend htarget
            rw [Instr.label?_eq_some.1 ha] at hvalue
            exact hvalue.elim

/-- It does not matter to the end of the code what the value of the last statement was before. -/
theorem run_eq (h : code.EndsInValue) (n : Nat) (hm : m.Alike Run.AnyLast m')
    (hrun : code.run w call n m = .ok .normal m₁) : code.run w call n m' = .ok .normal m₁ := by
  refine h.runFrom_eq hcall n (List.suffix_refl code) ?_ hm hrun
  rintro rfl
  obtain ⟨i, hi, -⟩ := h
  cases hi

end Code.EndsInValue

end EndsInValue

end Typed

end Scripting
