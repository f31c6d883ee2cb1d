import Scripting.Proofs.Lowering.Labels
import Scripting.Proofs.Run.Instr
import Scripting.Proofs.Run.Matching

/-!
# Lowered code does what the statement does

The code of a statement, run inside any code that declares no label twice, gets to where the
statement's flow leads (`Stmt.Scoped.matches_lowered`).
-/

namespace Scripting.Typed

variable {σ : Type} {w : Setting σ} {call : Calls σ}

/-! ## Expressions -/

theorem Expr.evalList_lower {es : List Expr} (h : ∀ e ∈ es, e.lower.eval w call = e.eval w call) :
    Expr.evalList w call (es.map Expr.lower) = Expr.evalList w call es := by
  induction es with
  | nil => rfl
  | cons e es ih =>
    obtain ⟨he, hes⟩ := List.forall_mem_cons.1 h
    rw [List.map_cons, Expr.evalList, Expr.evalList, he, ih hes]

/-- Spelling out compound assignments keeps the order in which operands are evaluated. -/
theorem Expr.Strict.eval_lower {e : Expr} (h : e.Strict) :
    e.lower.eval w call = e.eval w call := by
  induction h with
  | literal v => rfl
  | name x t => rfl
  | @assign x t e _ ih =>
    show (Expr.assign x e.lower t).eval w call = _
    rw [Expr.eval, Expr.eval, ih]
  | @compound x t o e ho _ ih =>
    show (Expr.assign x (.binary (.name x t) o e.lower) t).eval w call = _
    simp only [Expr.eval, ih, Run.required, bind_assoc, pure_bind, ho.decided?, Run.ofExcept_ok]
  | @unary o e _ ih =>
    show (Expr.unary o e.lower).eval w call = _
    rw [Expr.eval, Expr.eval, ih]
  | @binary o l r _ _ ihl ihr =>
    show (Expr.binary l.lower o r.lower).eval w call = _
    rw [Expr.eval, Expr.eval, ihl, ihr]
  | @convert t e _ ih =>
    show (Expr.convert t e.lower).eval w call = _
    rw [Expr.eval, Expr.eval, ih]
  | @call f t es _ ih =>
    show (Expr.call f (Expr.mapNodesList Expr.expand es) t).eval w call = _
    rw [Expr.mapNodesList_eq_map, Expr.eval, Expr.eval]
    exact congrArg (· >>= _) (Expr.evalList_lower ih)
  | error => rfl

theorem Expr.Strict.holds_lower {c : Expr} (h : c.Strict) :
    c.lower.holds w call = c.holds w call := by
  unfold Expr.holds
  rw [h.eval_lower]

/-! ## Inside flat code -/

namespace Code

/-- Runs the code from some place in it on. -/
def runFrom (w : Setting σ) (call : Calls σ) (code : Code) (fuel : Nat) (suffix : Code) : Run σ Flow :=
  Run.steps Instr.label? (Instr.run w call) code fuel suffix

/-- Runs the code on as a flow says: a jump is about to be made. -/
def exit (w : Setting σ) (call : Calls σ) (code rest : Code) : Flow → Nat → Run σ Flow
  | .normal, fuel => code.runFrom w call fuel rest
  | .returned v?, _ => pure (.returned v?)
  | .jump l, fuel => code.runFrom w call fuel [.jump l]

variable {code rest : Code} {m m' : Machine σ} {f z : Nat}

theorem not_finished_runFrom (i : Instr) (rest : Code) (m : Machine σ) :
    ¬ Run.Finished (code.runFrom w call 0 (i :: rest) m) :=
  Run.not_finished.2 ⟨m, rfl⟩

theorem runFrom_succ (n : Nat) (i : Instr) (rest : Code) :
    code.runFrom w call (n + 1) (i :: rest) =
      i.run w call >>= Run.resume Instr.label? (Instr.run w call) code n rest :=
  Run.steps_cons i

theorem takes_label (l : Label) (rest : Code) (m : Machine σ) :
    Run.Takes 1 (fun n => code.runFrom w call n (.label l :: rest) m)
      (fun n => code.runFrom w call n rest m) :=
  .one (not_finished_runFrom _ rest m) fun n => by rw [runFrom_succ]; rfl

/-- What stands behind a jump has no influence on it. -/
theorem runFrom_jump (l : Label) (n : Nat) (rest : Code) :
    code.runFrom w call n (.jump l :: rest) = code.runFrom w call n [.jump l] := by
  cases n with
  | zero => rfl
  | succ n => rw [runFrom_succ, runFrom_succ]; rfl

theorem takes_jump (hnodup : code.labels.Nodup) {l : Label} (h : .label l :: rest <:+ code)
    (m : Machine σ) :
    Run.Takes 1 (fun n => code.runFrom w call n [.jump l] m)
      (fun n => code.runFrom w call n rest m) := by
  refine .one (not_finished_runFrom _ [] m) fun n => ?_
  have hafter : Run.after? Instr.label? l code = some rest := by
    obtain ⟨front, rfl⟩ := h
    refine Run.after?_append_cons rfl fun i hi hl => ?_
    rw [labels_append, labels_cons] at hnodup
    have hcons := hnodup.of_append_right
    rw [Instr.label?, Option.toList_some, List.singleton_append, List.nodup_cons, mem_labels] at hcons
    rw [Instr.label?_eq_some.1 hl] at hi
    exact hcons.1 hi
  rw [runFrom_succ]
  show Run.resume Instr.label? (Instr.run w call) code n [] (.jump l) m = _
  rw [Run.resume_jump_of_some hafter]
  rfl

theorem exit_label (l : Label) (rest : Code) (flow : Flow) (m : Machine σ) :
    ∃ d, Run.Takes d (fun n => code.exit w call (.label l :: rest) flow n m)
      (fun n => code.exit w call rest flow n m) := by
  cases flow with
  | normal => exact ⟨1, takes_label l rest m⟩
  | returned v? => exact ⟨0, .refl _⟩
  | jump l' => exact ⟨0, .refl _⟩

/-- After a step that gave a flow, the code goes on as the flow says. -/
theorem exists_takes_exit {x : Nat → Run.Result σ Flow} {flow : Flow}
    (hx : Run.Takes 1 x fun n => Run.resume Instr.label? (Instr.run w call) code n rest flow m) :
    ∃ d, Run.Takes d x fun n => code.exit w call rest flow n m := by
  cases flow with
  | normal => exact ⟨1, hx⟩
  | returned v? => exact ⟨1, hx⟩
  | jump l =>
    -- the step that jumps is still to come in `exit`
    have hjump : Run.Takes 1 (fun n => code.runFrom w call n [.jump l] m)
        fun n => Run.resume Instr.label? (Instr.run w call) code n rest (.jump l) m :=
      .one (not_finished_runFrom _ [] m) fun n => by rw [runFrom_succ]; rfl
    exact ⟨0, hx.zero hjump⟩

theorem exists_takes_step (code rest : Code) {i : Instr} {flow : Flow} (h : i.run w call m = .ok flow m') :
    ∃ d, Run.Takes d (fun n => code.runFrom w call n (i :: rest) m)
      fun n => code.exit w call rest flow n m' :=
  exists_takes_exit (.one (not_finished_runFrom i rest m) fun n => by rw [runFrom_succ, Run.bind_of_ok h])

section Matches

variable {S : Option Value → Option Value → Prop} (hS : Equivalence S)
  (hcall : ∀ f vs, Run.Below S (call f vs) (call f vs))
include hS hcall

theorem matches_step (i : Instr) (rest : Code) (hm : m.Alike S m') (f z : Nat) :
    Run.Matches (fun _ => S) f z (code.exit w call rest)
      (fun n => code.runFrom w call n (i :: rest) m') (i.run w call m) := by
  rcases (i.run_below hS.refl hcall).alike hS hm with
    ⟨flow, m₁, m₁', hr, hr', hm₁⟩ | ⟨e, m₁, m₁', he, hr, hr', hm₁⟩ | ⟨m₁, m₁', hr, hr'⟩
  · obtain ⟨d, hd⟩ := exists_takes_step code rest hr'
    rw [hr]
    exact .ok d hm₁ hd
  · rw [hr]
    refine .error 1 he (hm₁.imp fun _ _ _ => trivial) (.one (not_finished_runFrom i rest m') fun n => ?_)
    rw [runFrom_succ, Run.bind_of_error hr']
  · rw [hr]
    refine .outOfFuel fun n _ => ?_
    cases n with
    | zero => exact not_finished_runFrom i rest m'
    | succ n =>
      rw [runFrom_succ, Run.bind_of_error hr']
      exact Run.not_finished.2 ⟨m₁', rfl⟩

/-- A branch on a lowered condition, be it decided or not. -/
theorem matches_branchOn {c : Expr} (hc : c.Strict) (l : Label) (on : Bool) (rest : Code)
    (hm : m.Alike S m') (f z : Nat) :
    Run.Matches (fun _ => S) f z (fun v => code.exit w call rest (if v = on then .jump l else .normal))
      (fun n => code.runFrom w call n (branchOn l c.lower on ++ rest) m') (c.holds w call m) := by
  unfold branchOn
  cases hconst : c.lower.constant? with
  | some v =>
    have hv : c.holds w call m = .ok v m := by
      rw [← hc.holds_lower, Expr.constant?_eq_some.1 hconst]
      rfl
    rw [hv]
    refine .ok 0 hm ?_
    by_cases hon : v = on
    · simp only [if_pos hon, List.singleton_append, runFrom_jump]
      exact .refl _
    · simp only [if_neg hon, List.nil_append]
      exact .refl _
  | none =>
    have hrun : (Instr.branch l c.lower on).run w call =
        (c.holds w call >>= fun v => pure (if v = on then .jump l else .normal)) := by
      rw [Instr.run, hc.holds_lower]
      congr 1
      funext v
      split <;> rfl
    exact .of_map (hrun ▸ matches_step hS hcall (.branch l c.lower on) rest hm f z)

/-- The value of an expression that is evaluated as an instruction is not looked at. -/
theorem matches_eval (hany : ∀ v? v?', S v? v?') {e : Expr} (he : e.Strict) (rest : Code)
    (hm : m.Alike S m') (f z : Nat) :
    Run.Matches (fun _ => S) f z (fun _ n => code.runFrom w call n rest)
      (fun n => code.runFrom w call n (.eval e.lower :: rest) m') (e.eval w call m) := by
  have hstep : Run.Matches (fun _ => S) f z (code.exit w call rest)
      (fun n => code.runFrom w call n (.eval e.lower :: rest) m')
      ((Instr.eval e.lower).run w call m) := matches_step hS hcall _ rest hm f z
  rw [Instr.run, he.eval_lower, Run.bind_apply] at hstep
  revert hstep
  generalize e.eval w call m = r
  intro hstep
  cases r with
  | ok v? m₁ =>
    cases hstep with
    | ok d hm₁ hx => exact .ok d ⟨hm₁.globals, hm₁.frames, hany _ _, hm₁.host⟩ hx
  | error e m₁ =>
    cases hstep with
    | error d he hm₁ hx => exact .error d he hm₁ hx
    | outOfFuel hx => exact .outOfFuel hx

theorem matches_instr {i : Instr} (hi : i.Strict) (rest : Code) (hm : m.Alike S m') (f z : Nat) :
    Run.Matches (fun _ => S) f z (code.exit w call rest) (fun n => code.runFrom w call n (i.lower ++ rest) m')
      (i.run w call m) := by
  cases i with
  | branch l c on =>
    rw [Instr.run]
    refine (matches_branchOn hS hcall hi l on rest hm f z).bind fun v m₁ m₁' _ hm₁ => ?_
    by_cases hon : v = on
    · simp only [if_pos hon]
      exact .ok 0 hm₁ (.refl _)
    · simp only [if_neg hon]
      exact .ok 0 hm₁ (.refl _)
  | eval e =>
    have hrun : (Instr.eval e.lower).run w call = (Instr.eval e).run w call := by
      rw [Instr.run, Instr.run, Expr.Strict.eval_lower hi]
    exact hrun ▸ matches_step hS hcall (.eval e.lower) rest hm f z
  | declare x e =>
    have hrun : (Instr.declare x e.lower).run w call = (Instr.declare x e).run w call := by
      rw [Instr.run, Instr.run, Expr.Strict.eval_lower hi]
    exact hrun ▸ matches_step hS hcall (.declare x e.lower) rest hm f z
  | ret e? =>
    cases e? with
    | none => exact matches_step hS hcall (.ret none) rest hm f z
    | some e =>
      have hrun : (Instr.ret (some e.lower)).run w call = (Instr.ret (some e)).run w call := by
        rw [Instr.run, Instr.run, Expr.Strict.eval_lower hi]
      exact hrun ▸ matches_step hS hcall (.ret (some e.lower)) rest hm f z
  | label l => exact matches_step hS hcall (.label l) rest hm f z
  | jump l => exact matches_step hS hcall (.jump l) rest hm f z

end Matches

/-- If the values of last statements are related by `B` where the body of a loop is left, they are by `R`
where the loop goes on, and by `T` where it is left. -/
structure Exits (x y : Label) (B : Flow → Option Value → Option Value → Prop)
    (R : Option Value → Option Value → Prop) (T : Flow → Option Value → Option Value → Prop) : Prop where
  normal : ∀ v? v?', B .normal v? v?' → R v? v?'
  continues : ∀ v? v?', B (.jump y) v? v?' → R v? v?'
  breaks : ∀ v? v?', B (.jump x) v? v?' → T .normal v? v?'
  jump : ∀ l, l ≠ x → l ≠ y → ∀ v? v?', B (.jump l) v? v?' → T (.jump l) v? v?'
  returned : ∀ r? v? v?', B (.returned r?) v? v?' → T (.returned r?) v? v?'

theorem Exits.same (S : Option Value → Option Value → Prop) (x y : Label) :
    Exits x y (fun _ => S) S fun _ => S :=
  ⟨fun _ _ h => h, fun _ _ h => h, fun _ _ h => h, fun _ _ _ _ _ h => h, fun _ _ _ h => h⟩

/-- The body of a loop as a pass: `cont` is where the loop goes on after it. -/
theorem matches_pass {B T : Flow → Option Value → Option Value → Prop}
    {R : Option Value → Option Value → Prop} {x y : Label} (hexits : Exits x y B R T) {rest' : Code}
    {cont : Nat → Run σ Flow} {body : Run σ Flow} {b : Nat → Run.Result σ Flow}
    (h : Run.Matches B f z (code.exit w call rest') b (body m))
    (hnormal : ∀ m, ∃ d, Run.Takes d (fun n => code.runFrom w call n rest' m) fun n => cont n m)
    (hcontinue : ∀ m, ∃ d,
      Run.Takes d (fun n => code.runFrom w call n [.jump y] m) fun n => cont n m)
    (hbreak : ∀ m, ∃ d,
      Run.Takes d (fun n => code.runFrom w call n [.jump x] m) fun n => code.runFrom w call n rest m) :
    Run.Matches (fun flow? => flow?.elim R T) f z
      (fun flow? n => flow?.elim (cont n) fun flow => code.exit w call rest flow n) b
      (Run.pass x y body m) := by
  refine h.bind fun flow m₁ m₁' _ hm₁ => ?_
  cases flow with
  | normal =>
    obtain ⟨d, hd⟩ := hnormal m₁'
    exact .ok d (hm₁.imp hexits.normal) hd
  | returned v? => exact .ok 0 (hm₁.imp (hexits.returned v?)) (.refl _)
  | jump l =>
    by_cases hy : l = y
    · subst hy
      obtain ⟨d, hd⟩ := hcontinue m₁'
      simp only [if_pos]
      exact .ok d (hm₁.imp hexits.continues) hd
    · by_cases hx : l = x
      · subst hx
        obtain ⟨d, hd⟩ := hbreak m₁'
        simp only [if_neg hy, if_pos]
        exact .ok d (hm₁.imp hexits.breaks) hd
      · simp only [if_neg hy, if_neg hx]
        exact .ok 0 (hm₁.imp (hexits.jump l hx hy)) (.refl _)

end Code

/-! ## Statements -/

theorem Stmt.Scoped.label?_eq_none {P : Instr → Prop} {ts : List Label} {s : Stmt} (h : s.Scoped P ts) :
    s.label? = none := by
  cases h with
  | instr _ label _ => exact label
  | _ => rfl

/-- Wherever the code of the statement stands in `code`, it does what the statement does. The values of the
last statements before are related by `S`, and those after it by `T`. -/
def Stmt.Simulated (w : Setting σ) (call : Calls σ) (code : Code) (f : Nat)
    (S : Option Value → Option Value → Prop) (T : Flow → Option Value → Option Value → Prop)
    (s : Stmt) : Prop :=
  ∀ k rest m m', (s.lowered k).1 ++ rest <:+ code → m.Alike S m' →
    Run.Matches T f (sizeOf s) (code.exit w call rest)
      (fun n => code.runFrom w call n ((s.lowered k).1 ++ rest) m') (s.run w call f m)

/-- The same of the last statements of a list. -/
def Stmt.SimulatedIn (w : Setting σ) (call : Calls σ) (code : Code) (f : Nat)
    (S : Option Value → Option Value → Prop) (T : Flow → Option Value → Option Value → Prop)
    (list ss : List Stmt) : Prop :=
  ∀ j ≤ f, ∀ k rest m m', ((Stmt.block ss).lowered k).1 ++ rest <:+ code → m.Alike S m' →
    Run.Matches T j (sizeOf ss) (code.exit w call rest)
      (fun n => code.runFrom w call n (((Stmt.block ss).lowered k).1 ++ rest) m')
      (Run.steps Stmt.label? (fun s => s.run w call f) list j ss m)

namespace Stmt.SimulatedIn

variable {code : Code} {f : Nat} {S S' : Option Value → Option Value → Prop}
  {T T' : Flow → Option Value → Option Value → Prop} {list ss : List Stmt} {s : Stmt}

theorem imp (h : SimulatedIn w call code f S T list ss)
    (hT : ∀ flow v? v?', T flow v? v?' → T' flow v? v?') : SimulatedIn w call code f S T' list ss :=
  fun j hj k rest m m' hsuffix hm => (h j hj k rest m m' hsuffix hm).imp hT

theorem nil (hT : ∀ v? v?', S v? v?' → T .normal v? v?') :
    SimulatedIn w call code f S T list [] := by
  intro j _ k rest m m' _ hm
  have hnil : Run.steps Stmt.label? (fun s => s.run w call f) list j [] m = .ok .normal m := by
    cases j <;> rfl
  rw [hnil]
  exact .ok 0 (hm.imp hT) (.refl _)

/-- Statements that declare no labels run in turn. The fuel of the list runs out only if there are more
statements than fuel. -/
theorem cons (hlabel : ∀ s ∈ list, s.label? = none) (hs : s.Simulated w call code f S T')
    (hnormal : ∀ v? v?', T' .normal v? v?' → S' v? v?') (hss : SimulatedIn w call code f S' T list ss)
    (hT : ∀ flow, flow ≠ .normal → ∀ v? v?', T' flow v? v?' → T flow v? v?') :
    SimulatedIn w call code f S T list (s :: ss) := by
  intro j hj k rest m m' hsuffix hm
  cases j with
  | zero => exact .outOfFuel fun n hn => absurd hn (by simp)
  | succ j =>
    rw [Stmt.lowered_cons, List.append_assoc] at hsuffix
    rw [Run.steps_cons, Stmt.lowered_cons, List.append_assoc]
    have hsize : sizeOf (s :: ss) = 1 + sizeOf s + sizeOf ss := List.cons.sizeOf_spec s ss
    refine ((hs k _ m m' hsuffix hm).mono (by omega)).bind fun flow m₁ m₁' _ hm₁ => ?_
    cases flow with
    | normal =>
      refine (hss j (by omega) _ _ m₁ m₁' ?_ (hm₁.imp hnormal)).mono (by omega)
      exact (List.suffix_append _ _).trans hsuffix
    | returned v? => exact .ok 0 (hm₁.imp (hT _ (by simp))) (.refl _)
    | jump l =>
      have hnone : Run.after? Stmt.label? l list = none :=
        Run.after?_eq_none.2 fun t ht => by rw [hlabel t ht]; exact nofun
      rw [Run.resume_jump_of_none hnone]
      exact .ok 0 (hm₁.imp (hT _ (by simp))) (.refl _)

theorem of_forall (hlabel : ∀ s ∈ list, s.label? = none)
    (hs : ∀ s ∈ ss, s.Simulated w call code f S fun _ => S) :
    SimulatedIn w call code f S (fun _ => S) list ss := by
  induction ss with
  | nil => exact .nil fun _ _ h => h
  | cons s ss ih =>
    obtain ⟨hfirst, hrest⟩ := List.forall_mem_cons.1 hs
    exact .cons hlabel hfirst (fun _ _ h => h) (ih hrest) fun _ _ _ _ h => h

end Stmt.SimulatedIn

namespace Stmt.Simulated

variable {code : Code} {f : Nat} {S R : Option Value → Option Value → Prop}
  {T B : Flow → Option Value → Option Value → Prop} {s : Stmt}

theorem imp (h : s.Simulated w call code f S T) {S' : Option Value → Option Value → Prop}
    {T' : Flow → Option Value → Option Value → Prop} (hS : ∀ v? v?', S' v? v?' → S v? v?')
    (hT : ∀ flow v? v?', T flow v? v?' → T' flow v? v?') : s.Simulated w call code f S' T' :=
  fun k rest m m' hsuffix hm => (h k rest m m' hsuffix (hm.imp hS)).imp hT

theorem block {ss : List Stmt} (hs : SimulatedIn w call code f S T ss ss) :
    (Stmt.block ss).Simulated w call code f S T := by
  intro k rest m m' hsuffix hm
  rw [Stmt.run_block]
  have hsize : sizeOf (Stmt.block ss) = 1 + sizeOf ss := Stmt.block.sizeOf_spec ss
  exact (hs f le_rfl k rest m m' hsuffix hm).mono (by omega)

variable (hS : Equivalence S) (hcall : ∀ f vs, Run.Below S (call f vs) (call f vs))
  (hnodup : code.labels.Nodup)

include hS hcall in
theorem instr {i : Instr} (hi : i.Strict) : (Stmt.instr i).Simulated w call code f S fun _ => S := by
  intro k rest m m' _ hm
  rw [Stmt.run]
  exact Code.matches_instr hS hcall hi rest hm f _

include hS hcall hnodup in
theorem ifThen {c : Expr} (hc : c.Strict) (hs : s.Simulated w call code f S T)
    (hT : ∀ v? v?', S v? v?' → T .normal v? v?') : (Stmt.ifThen c s).Simulated w call code f S T := by
  intro k rest m m' hsuffix hm
  rw [Stmt.lowered_ifThen] at hsuffix ⊢
  have hbody : (s.lowered (k + 1)).1 ++ .label (.numbered "Label" (k + 1)) :: rest <:+ code :=
    .trans ⟨branchOn (.numbered "Label" (k + 1)) c.lower false, by simp⟩ hsuffix
  have hdone : .label (.numbered "Label" (k + 1)) :: rest <:+ code :=
    (List.suffix_append _ _).trans hbody
  rw [Stmt.run]
  simp only [List.append_assoc, List.cons_append, List.nil_append]
  refine (Code.matches_branchOn hS hcall hc _ false _ hm f _).bind fun v m₁ m₁' _ hm₁ => ?_
  cases v with
  | true =>
    have hsize : sizeOf (Stmt.ifThen c s) = 1 + sizeOf c + sizeOf s := Stmt.ifThen.sizeOf_spec c s
    exact ((hs (k + 1) _ m₁ m₁' hbody hm₁).mono (by omega)).trans fun flow m =>
      Code.exit_label _ rest flow m
  | false => exact .ok 1 (hm₁.imp hT) (Code.takes_jump hnodup hdone m₁')

include hS hcall hnodup in
theorem ifElse {c : Expr} {t : Stmt} (hc : c.Strict) (hs : s.Simulated w call code f S T)
    (ht : t.Simulated w call code f S T) : (Stmt.ifElse c s t).Simulated w call code f S T := by
  intro k rest m m' hsuffix hm
  rw [Stmt.lowered_ifElse] at hsuffix ⊢
  have hbody : (s.lowered (k + 2)).1 ++ .jump (.numbered "Label" (k + 2)) ::
      .label (.numbered "Label" (k + 1)) :: ((t.lowered (s.lowered (k + 2)).2).1 ++
        .label (.numbered "Label" (k + 2)) :: rest) <:+ code :=
    .trans ⟨branchOn (.numbered "Label" (k + 1)) c.lower false, by simp⟩ hsuffix
  have helse := (List.suffix_cons _ _).trans ((List.suffix_append _ _).trans hbody)
  have hother := (List.suffix_cons _ _).trans helse
  have hdone := (List.suffix_append _ _).trans hother
  have hsize : sizeOf (Stmt.ifElse c s t) = 1 + sizeOf c + sizeOf s + sizeOf t :=
    Stmt.ifElse.sizeOf_spec c s t
  rw [Stmt.run]
  simp only [List.append_assoc, List.cons_append, List.nil_append]
  refine (Code.matches_branchOn hS hcall hc _ false _ hm f _).bind fun v m₁ m₁' _ hm₁ => ?_
  cases v with
  | true =>
    refine ((hs (k + 2) _ m₁ m₁' hbody hm₁).mono (by omega)).trans fun flow m => ?_
    cases flow with
    | normal =>
      simp only [Code.exit, Code.runFrom_jump]
      exact ⟨1, Code.takes_jump hnodup hdone m⟩
    | returned v? => exact ⟨0, .refl _⟩
    | jump l => exact ⟨0, .refl _⟩
  | false =>
    refine Run.Matches.after ?_ (Code.takes_jump hnodup helse m₁') (Nat.le_succ f)
    exact ((ht _ _ m₁ m₁' hother hm₁).mono (by omega)).trans fun flow m =>
      Code.exit_label _ rest flow m

include hS hcall hnodup in
theorem whileLoop {c : Expr} {x y : Label} (hc : c.Strict) (hs : s.Simulated w call code f S B)
    (hexits : Code.Exits x y B S T) (hT : ∀ v? v?', S v? v?' → T .normal v? v?') :
    (Stmt.whileLoop c s x y).Simulated w call code f S T := by
  intro k rest m m' hsuffix hm
  rw [Stmt.lowered_whileLoop] at hsuffix ⊢
  simp only [List.append_assoc, List.cons_append, List.nil_append] at hsuffix ⊢
  have hbody := (List.suffix_append (branchOn x c.lower false) _).trans
    ((List.suffix_cons _ _).trans hsuffix)
  have hend := (List.suffix_cons _ _).trans ((List.suffix_append _ _).trans hbody)
  have hsize : sizeOf (Stmt.whileLoop c s x y) = 1 + sizeOf c + sizeOf s + sizeOf x + sizeOf y :=
    Stmt.whileLoop.sizeOf_spec c s x y
  rw [Stmt.run]
  refine (Run.matches_repeatPasses (f := f) (z := sizeOf (Stmt.whileLoop c s x y))
    (fun m => Code.takes_jump hnodup hsuffix m) (fun m m' hm => ?_) f hm
    (Code.takes_label y _ m')).mono (by omega)
  refine (Code.matches_branchOn hS hcall hc x false _ hm f _).bind fun v m₁ m₁' _ hm₁ => ?_
  cases v with
  | true =>
    refine Code.matches_pass hexits ((hs k _ m₁ m₁' hbody hm₁).mono (by omega)) (fun m => ⟨0, ?_⟩)
      (fun m => ⟨0, .refl _⟩) fun m => ⟨1, Code.takes_jump hnodup hend m⟩
    simp only [Code.runFrom_jump]
    exact .refl _
  | false => exact .ok 1 (hm₁.imp hT) (Code.takes_jump hnodup hend m₁')

include hnodup in
/-- The values are related by `R` where the condition is evaluated. -/
theorem doWhile (hR : Equivalence R) (hcondition : ∀ f vs, Run.Below R (call f vs) (call f vs)) {c : Expr}
    {x y : Label} (hs : s.Simulated w call code f S B) (hc : c.Strict) (hexits : Code.Exits x y B R T)
    (hagain : ∀ v? v?', R v? v?' → S v? v?') (hT : ∀ v? v?', R v? v?' → T .normal v? v?') :
    (Stmt.doWhile s c x y).Simulated w call code f S T := by
  intro k rest m m' hsuffix hm
  rw [Stmt.lowered_doWhile] at hsuffix ⊢
  simp only [List.append_assoc, List.cons_append, List.nil_append] at hsuffix ⊢
  have hbody := (List.suffix_cons _ _).trans hsuffix
  have hcond := (List.suffix_append _ _).trans hbody
  have hend := (List.suffix_append (branchOn (.numbered "Label" (k + 1)) c.lower true) _).trans
    ((List.suffix_cons _ _).trans hcond)
  have hsize : sizeOf (Stmt.doWhile s c x y) = 1 + sizeOf s + sizeOf c + sizeOf x + sizeOf y :=
    Stmt.doWhile.sizeOf_spec s c x y
  rw [Stmt.run]
  refine (Run.matches_repeatPasses (f := f) (z := sizeOf (Stmt.doWhile s c x y))
    (fun m => Code.takes_jump hnodup hsuffix m) (fun m m' hm => ?_) f hm
    (Code.takes_label _ _ m')).mono (by omega)
  refine (Code.matches_pass hexits ((hs (k + 1) _ m m' hbody hm).mono (by omega))
    (fun m => ⟨1, Code.takes_label y _ m⟩) (fun m => ⟨1, Code.takes_jump hnodup hcond m⟩)
    fun m => ⟨1, Code.takes_jump hnodup hend m⟩).bind fun flow? m₁ m₁' _ hm₁ => ?_
  cases flow? with
  | some flow => exact .ok 0 hm₁ (.refl _)
  | none =>
    refine (Code.matches_branchOn hR hcondition hc _ true _ hm₁ f _).bind fun v m₂ m₂' _ hm₂ => ?_
    cases v with
    | true => exact .ok 0 (hm₂.imp hagain) (.refl _)
    | false => exact .ok 1 (hm₂.imp hT) (Code.takes_label x rest m₂')

include hS hcall hnodup in
/-- The code of a `for` loop records the value of the increment, the loop itself does not. So nothing is
known of the values where a pass begins, nor after the loop. -/
theorem forLoop (hany : ∀ v? v?', S v? v?') {i : Stmt} {c n : Expr} {x y : Label}
    {I : Flow → Option Value → Option Value → Prop} (hi : i.Simulated w call code f R I)
    (hc : c.Strict) (hn : n.Strict) (hs : s.Simulated w call code f S B) (hexits : Code.Exits x y B S T)
    (hT : ∀ v? v?', T .normal v? v?')
    (hleave : ∀ flow, flow ≠ .normal → ∀ v? v?', I flow v? v?' → T flow v? v?') :
    (Stmt.forLoop i c n s x y).Simulated w call code f R T := by
  intro k rest m m' hsuffix hm
  rw [Stmt.lowered_forLoop] at hsuffix ⊢
  simp only [List.append_assoc, List.cons_append, List.nil_append] at hsuffix ⊢
  have hagain := (List.suffix_append _ _).trans hsuffix
  have hbody := (List.suffix_append (branchOn x c.lower false) _).trans
    ((List.suffix_cons _ _).trans hagain)
  have hnext := (List.suffix_append _ _).trans hbody
  have hend := (List.suffix_cons _ _).trans ((List.suffix_cons _ _).trans
    ((List.suffix_cons _ _).trans hnext))
  have hsize : sizeOf (Stmt.forLoop i c n s x y) =
      1 + sizeOf i + sizeOf c + sizeOf n + sizeOf s + sizeOf x + sizeOf y :=
    Stmt.forLoop.sizeOf_spec i c n s x y
  rw [Stmt.run]
  refine ((hi (k + 1) _ m m' hsuffix hm).mono (by omega)).bind fun flow m₁ m₁' _ hm₁ => ?_
  cases flow with
  | returned v? => exact .ok 0 (hm₁.imp (hleave _ (by simp))) (.refl _)
  | jump l => exact .ok 0 (hm₁.imp (hleave _ (by simp))) (.refl _)
  | normal =>
    refine (Run.matches_repeatPasses (f := f) (z := sizeOf (Stmt.forLoop i c n s x y))
      (fun m => Code.takes_jump hnodup hagain m) (fun m m' hm => ?_) f
      (hm₁.imp fun v? v?' _ => hany v? v?') (Code.takes_label _ _ m₁')).mono (by omega)
    refine (Code.matches_branchOn hS hcall hc x false _ hm f _).bind fun v m₂ m₂' _ hm₂ => ?_
    cases v with
    | false => exact .ok 1 (hm₂.imp fun v? v?' _ => hT v? v?') (Code.takes_jump hnodup hend m₂')
    | true =>
      refine (Code.matches_pass hexits ((hs _ _ m₂ m₂' hbody hm₂).mono (by omega))
        (fun m => ⟨1, Code.takes_label y _ m⟩) (fun m => ⟨1, Code.takes_jump hnodup hnext m⟩)
        fun m => ⟨1, Code.takes_jump hnodup hend m⟩).bind fun flow? m₃ m₃' _ hm₃ => ?_
      cases flow? with
      | some flow => exact .ok 0 hm₃ (.refl _)
      | none =>
        refine (Code.matches_eval hS hcall hany hn _ hm₃ f _).bind fun v? m₄ m₄' _ hm₄ => ?_
        refine .ok 0 hm₄ ?_
        simp only [Code.runFrom_jump]
        exact .refl _

end Stmt.Simulated

/-- **Simulation.** Inside code that declares no label twice, the code of a statement gets to where the
flow of the statement leads, whatever the values of last statements are. -/
theorem Stmt.Scoped.simulated {P : Instr → Prop} (hP : ∀ i, P i → i.Strict) {code : Code}
    (hcall : ∀ f vs, Run.Below Run.AnyLast (call f vs) (call f vs)) (hnodup : code.labels.Nodup)
    {ts : List Label} {s : Stmt} (h : s.Scoped P ts) (f : Nat) :
    s.Simulated w call code f Run.AnyLast fun _ => Run.AnyLast := by
  have hcond : ∀ {c : Expr}, (∀ l on, P (.branch l c on)) → c.Strict :=
    fun {c} hc => hP (.branch ⟨""⟩ c true) (hc _ _)
  have hS := Run.AnyLast.equivalence
  have hexits := Code.Exits.same Run.AnyLast
  induction h with
  | instr hi _ _ => exact .instr hS hcall (hP _ hi)
  | block hs ih => exact .block (.of_forall (fun s hs' => (hs s hs').label?_eq_none) ih)
  | ifThen hc _ ih => exact .ifThen hS hcall hnodup (hcond hc) ih fun _ _ h => h
  | ifElse hc _ _ ihs iht => exact .ifElse hS hcall hnodup (hcond hc) ihs iht
  | whileLoop hc _ ih =>
    exact .whileLoop hS hcall hnodup (hcond hc) ih (hexits _ _) fun _ _ h => h
  | doWhile _ hc ih =>
    exact .doWhile hnodup hS hcall ih (hcond hc) (hexits _ _) (fun _ _ h => h) fun _ _ h => h
  | forLoop _ hc hn _ ihi ihs =>
    exact .forLoop hS hcall hnodup (fun _ _ => trivial) ihi (hcond hc) (hP (.eval _) hn) ihs
      (hexits _ _) (fun _ _ => trivial) fun _ _ _ _ h => h

end Scripting.Typed
