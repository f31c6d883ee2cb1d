import Scripting.Proofs.Run.Retention
import Scripting.Proofs.Submission.Writes

/-!
# Read-only variables

A variable declared by `let` and a parameter are read-only. What the submissions of a session write
(`Session.Disciplined`) decides what happens to them when code runs: a variable of the session changes only
where its one declaration is executed, and a parameter has the argument as long as its frame exists.
-/

namespace Scripting

open Typed (Code Instr Stmt Write)

variable {σ : Type} {t : SymbolTable} {l : Lineage} {x : VarId}

/-- The variable cannot be assigned: it was declared so, or it is a parameter. -/
def SymbolTable.ReadOnly (t : SymbolTable) (x : VarId) : Prop :=
  ∃ v, t.variableAt? x = some v ∧ v.readOnly = true

/-! ## Code that does not assign a variable -/

/-- The code of the lineage does not assign the variable, and functions do not declare it if it is one of
the session. -/
structure Lineage.Spares (t : SymbolTable) (l : Lineage) (x : VarId) : Prop where
  assigned : ∀ s ∈ l, ∀ code ∈ s.codes, .assignment x ∉ code.writes
  bodies : ∀ s ∈ l, ∀ b ∈ s.bodies, .declaration x ∈ b.2.writes →
    ∀ v, t.variableAt? x = some v → v.kind ≠ .global

theorem Submission.mem_codes_of_mem_bodies {s : Submission} {b : FuncId × Code} (h : b ∈ s.bodies) :
    b.2 ∈ s.codes :=
  List.mem_cons_of_mem _ (List.mem_map_of_mem h)

theorem Lineage.exists_of_body? {f : FuncId} {code : Code} (h : l.body? f = some code) :
    ∃ s ∈ l, (f, code) ∈ s.bodies := by
  obtain ⟨s, hs, hlookup⟩ := List.exists_of_findSome?_eq_some h
  exact ⟨s, hs, mem_of_lookup hlookup⟩

namespace Lineage.Spares

variable (h : l.Spares t x) (host : Host σ)

include h

theorem retains_call (fuel : Nat) (f : FuncId) (vs : List Value) :
    Run.Retains (Run.valuesOf x) (Run.call (l.setting host t) fuel f vs) := by
  refine Run.retains_call (fun g body hbody u hu hux => ?_) fuel f vs
  obtain ⟨code, hcode, rfl⟩ := Option.map_eq_some_iff.1 hbody
  obtain ⟨s, hs, hb⟩ := Lineage.exists_of_body? hcode
  cases u with
  | assignment y =>
    obtain rfl : y = x := hux
    exact absurd hu (h.assigned s hs code (Submission.mem_codes_of_mem_bodies hb))
  | declaration y =>
    obtain rfl : y = x := hux
    exact h.bodies s hs _ hb hu

theorem target_ne {s : Submission} (hs : s ∈ l) {code : Code} (hcode : code ∈ s.codes) {ws : List Write}
    (hws : ws ⊆ code.writes) (hdeclared : .declaration x ∉ ws) : ∀ u ∈ ws, u.target ≠ x := by
  intro u hu hux
  cases u with
  | assignment y =>
    obtain rfl : y = x := hux
    exact h.assigned s hs code hcode (hws hu)
  | declaration y =>
    obtain rfl : y = x := hux
    exact hdeclared hu

theorem retains_instr {s : Submission} (hs : s ∈ l) {code : Code} (hcode : code ∈ s.codes) {i : Instr}
    (hi : i ∈ code) (hdeclared : .declaration x ∉ i.writes) (fuel : Nat) :
    Run.Retains (Run.valuesOf x) (i.run (l.setting host t) (Run.call (l.setting host t) fuel)) := by
  have hwrites : i.writes ⊆ code.writes := fun u hu => List.mem_flatMap.2 ⟨i, hi, hu⟩
  exact Run.retains_instr (h.retains_call host fuel) (h.target_ne hs hcode hwrites hdeclared)

/-- What a run of the code executes leaves the variable as it is, unless it declares it. -/
theorem retains_executed {s : Submission} (hs : s ∈ l) {code : Code} (hcode : code ∈ s.codes) {fuel n : Nat}
    {m : Machine σ} {step : Executed σ}
    (hstep : step ∈ code.executed (l.setting host t) (Run.call (l.setting host t) fuel) n code m)
    (hdeclare : ¬ ∃ e, step.instr = .declare x e) :
    Run.Retains (Run.valuesOf x) (step.instr.run (l.setting host t) (Run.call (l.setting host t) fuel)) := by
  have hi := Code.instr_mem_of_mem_executed n (List.Subset.refl code) m step hstep
  exact h.retains_instr host hs hcode hi (fun hx => hdeclare (Instr.eq_declare_of_mem hx)) fuel

end Lineage.Spares

/-! ## Changes by declarations -/

/-- When the code runs, the values of the variable in any store change only by executing a declaration of
it. Calls and expressions, at any depth, leave them as they are, however they end. A run of any number of
instructions is a chain of executed ones, of which only the declarations of the variable change a value. -/
structure Setting.ChangedByDeclaration (w : Setting σ) (codes : List Code) (x : VarId) : Prop where
  call : ∀ fuel f vs, Run.Retains (Run.valuesOf x) (Run.call w fuel f vs)
  eval : ∀ code ∈ codes, ∀ i ∈ code, ∀ e ∈ i.exprs, ∀ p ∈ e.parts, ∀ fuel,
    Run.Retains (Run.valuesOf x) (p.eval w (Run.call w fuel))
  run : ∀ code ∈ codes, ∀ (fuel n : Nat) (m : Machine σ),
    let steps := code.executed w (Run.call w fuel) n code m
    Executed.Chain w (Run.call w fuel) m steps (Run.Result.machine (code.run w (Run.call w fuel) n m)) ∧
      ∀ step ∈ steps, step.after.valuesOf x ≠ step.before.valuesOf x → ∃ e, step.instr = .declare x e

theorem Lineage.Spares.changedByDeclaration (h : l.Spares t x) (host : Host σ) :
    (l.setting host t).ChangedByDeclaration (l.flatMap Submission.codes) x where
  call := h.retains_call host
  eval code hcode i hi e he p hp fuel := by
    obtain ⟨s, hs, hcode⟩ := List.mem_flatMap.1 hcode
    have hwrites : p.writes ⊆ code.writes := fun u hu => List.mem_flatMap.2
      ⟨i, hi, Instr.writes_of_mem_exprs e he (Typed.Expr.writes_subset_of_mem_parts p hp hu)⟩
    have hdeclared : .declaration x ∉ p.writes := fun hx => by
      obtain ⟨y, hy⟩ := Typed.Expr.exists_assignment _ hx
      cases hy
    exact Run.retains_eval (h.retains_call host fuel) (h.target_ne hs hcode hwrites hdeclared)
  run code hcode fuel n m := by
    obtain ⟨s, hs, hcode⟩ := List.mem_flatMap.1 hcode
    have hchain := code.chain_executed (l.setting host t) (Run.call (l.setting host t) fuel) n code m
    refine ⟨hchain, fun step hstep hchanged => ?_⟩
    by_contra hdeclare
    refine hchanged ?_
    rw [hchain.after_eq step hstep]
    exact h.retains_executed host hs hcode hstep hdeclare step.before

/-- Evaluations of a submission give the variable another value only if its global code declares it, and
run as a list of instructions only by executing such a declaration. -/
structure Submission.ChangesByDeclaration (host : Host σ) (t : SymbolTable) (s : Submission)
    (earlier : Lineage) (x : VarId) : Prop where
  declared : ∀ form fuel globals state,
    (s.evaluate host t earlier form fuel globals state).globals.get? x ≠ globals.get? x → x ∈ s.main.declared
  executed : ∀ fuel globals state,
    let w := Lineage.setting host t (s :: earlier)
    (s.evaluate host t earlier .flat fuel globals state).globals.get? x ≠ globals.get? x →
      ∃ step ∈ s.main.executed w (Run.call w fuel) fuel s.main ⟨globals, [], none, state⟩,
        ∃ e, step.instr = .declare x e

theorem Submission.globals_evaluate {s : Submission} (hclean : s.diagnostics = []) (host : Host σ)
    (t : SymbolTable) (earlier : Lineage) (form : Form) (fuel : Nat) (globals : Store) (state : σ) :
    let w := Lineage.setting host t (s :: earlier)
    let start : Machine σ := ⟨globals, [], none, state⟩
    (s.evaluate host t earlier form fuel globals state).globals =
      (Run.Result.machine ((s.body form).run w (Run.call w fuel) fuel start)).globals := by
  unfold Submission.evaluate
  rw [if_pos (List.isEmpty_iff.2 hclean)]
  exact Scripting.globals_evaluate _ fuel _ globals state

theorem Submission.Disciplined.writes_body {s : Submission} (h : s.Disciplined t) (form : Form) :
    (s.body form).writes = s.main.writes := by
  cases form with
  | flat => rfl
  | structured => exact h.main.symm

theorem Lineage.Spares.changesByDeclaration {s : Submission} {earlier : Lineage}
    (h : Lineage.Spares t (s :: earlier) x) (hs : s.Disciplined t) (hclean : s.diagnostics = [])
    (host : Host σ) : s.ChangesByDeclaration host t earlier x where
  declared form fuel globals state hchanged := by
    by_contra hdeclared
    refine hchanged ?_
    rw [Submission.globals_evaluate hclean]
    have htargets : ∀ u ∈ (s.body form).writes, u.target ≠ x := by
      rw [hs.writes_body form]
      exact h.target_ne List.mem_cons_self List.mem_cons_self (List.Subset.refl _)
        fun hx => hdeclared (Typed.Code.mem_declared.2 hx)
    exact congrArg Prod.fst (Run.retains_body (h.retains_call host fuel) htargets fuel _)
  executed fuel globals state := by
    intro w hchanged
    by_contra hdeclare
    refine hchanged ?_
    rw [Submission.globals_evaluate hclean]
    have hchain := s.main.chain_executed w (Run.call w fuel) fuel s.main ⟨globals, [], none, state⟩
    exact congrArg Prod.fst (hchain.retains fun step hstep => h.retains_executed host List.mem_cons_self
      List.mem_cons_self hstep fun he => hdeclare ⟨step, hstep, he⟩).2

/-! ## Arguments of calls -/

theorem map_fst_zip_sublist {α β : Type} (as : List α) (bs : List β) :
    ((as.zip bs).map Prod.fst).Sublist as := by
  induction as generalizing bs with
  | nil => exact .slnil
  | cons a as ih =>
    cases bs with
    | nil => exact List.nil_sublist _
    | cons b bs => exact (ih bs).cons_cons a

/-- If the parameters are different, each has its argument. -/
theorem Store.HoldsArguments.get? {frame : Store} {parameters : List VarId} {vs : List Value}
    (h : frame.HoldsArguments parameters vs) (hnodup : parameters.Nodup) {v : Value}
    (hx : (x, v) ∈ parameters.zip vs) : frame.get? x = some v := by
  obtain ⟨front, back, hsplit⟩ := List.append_of_mem hx
  have hkeys := hnodup.sublist (map_fst_zip_sublist parameters vs)
  rw [hsplit, List.map_append, List.map_cons, List.nodup_middle, List.nodup_cons] at hkeys
  refine h.bound front back x v hsplit fun p hp heq => hkeys.1 (List.mem_append_right _ ?_)
  exact List.mem_map.2 ⟨p, hp, heq⟩

/-- The machine at the start of a call: the arguments are in a frame of their own. -/
def Machine.entering (m : Machine σ) (a : FunctionSymbol) (vs : List Value) : Machine σ :=
  { m with frames := .ofList ((a.parameters.map (·.target)).zip vs) :: m.frames }

/-- Calls of the function run the code with a frame on top of those of the caller, and leave these. Until
then each parameter has its argument in that frame. -/
structure Setting.KeepsArguments (w : Setting σ) (f : FuncId) (a : FunctionSymbol) (code : Code) : Prop where
  call : a.builtin? = none → ∀ fuel vs (m : Machine σ), Run.call w (fuel + 1) f vs m =
    Run.Result.withFrames m.frames (Run.calling w fuel (.flat code) (m.entering a vs))
  kept : ∀ fuel vs (m : Machine σ), ∀ m' ∈ code.history w (Run.call w fuel) fuel (m.entering a vs),
    ∃ frame, m'.frames = frame :: m.frames ∧
      ∀ x v, (x, v) ∈ (a.parameters.map (·.target)).zip vs → frame.get? x = some v

/-- A machine of the run of a body has a frame of its own on top of those of the caller. -/
theorem exists_frame_of_mem_history {w : Setting σ} {code : Code} {fuel n : Nat} {frame : Store}
    {m m' : Machine σ}
    (h : m' ∈ code.history w (Run.call w fuel) n { m with frames := frame :: m.frames }) :
    ∃ frame', m'.frames = frame' :: m.frames := by
  have hconfined : ∀ i ∈ code, Run.Retains (fun _ frames => (frames.length, frames.tail))
      (i.run w (Run.call w fuel)) := by
    intro i _ m₁
    obtain ⟨hlength, htail⟩ := i.confined_run (Run.confined_call w fuel) m₁
    exact Prod.ext hlength htail
  obtain ⟨hlength, htail⟩ := Prod.mk.inj (Typed.Code.retains_history hconfined n _ m' h)
  cases hframes : m'.frames with
  | nil =>
    rw [hframes] at hlength
    cases hlength
  | cons frame' rest =>
    rw [hframes] at htail
    exact ⟨frame', congrArg _ htail⟩

theorem Lineage.keepsArguments {f : FuncId} {code : Code} (hbody : l.body? f = some code)
    {a : FunctionSymbol} (ha : t.functionAt? f = some a) (hnodup : (a.parameters.map (·.target)).Nodup)
    (hspares : ∀ p ∈ a.parameters, l.Spares t p.target ∧ .declaration p.target ∉ code.writes)
    (host : Host σ) : (l.setting host t).KeepsArguments f a code where
  call hbuiltin fuel vs m :=
    Run.call_eq (w := l.setting host t) ha hbuiltin (congrArg (Option.map Body.flat) hbody) fuel vs m
  kept fuel vs m m' hm' := by
    obtain ⟨frame, hframe⟩ := exists_frame_of_mem_history hm'
    refine ⟨frame, hframe, fun x v hx => ?_⟩
    obtain ⟨p, hp, rfl⟩ := List.mem_map.1 (List.of_mem_zip hx).1
    obtain ⟨hp, hdeclared⟩ := hspares p hp
    obtain ⟨s, hs, hb⟩ := Lineage.exists_of_body? hbody
    have hretains : ∀ i ∈ code, Run.Retains (Run.valuesOf p.target)
        (i.run (l.setting host t) (Run.call (l.setting host t) fuel)) := fun i hi =>
      hp.retains_instr host hs (Submission.mem_codes_of_mem_bodies hb) hi
        (fun hx => hdeclared (List.mem_flatMap.2 ⟨i, hi, hx⟩)) fuel
    have hvalues : m'.frames.map (·.get? p.target) = (m.entering a vs).frames.map (·.get? p.target) :=
      congrArg Prod.snd (Typed.Code.retains_history hretains fuel _ m' hm')
    rw [hframe] at hvalues
    exact (List.cons.inj hvalues).1.trans ((Store.holdsArguments_ofList _ vs).get? hnodup hx)

/-! ## Sessions -/

/-- What the submission assigns may be assigned, in the statements of its global code, in the checked body of
each function, and in all code that it is lowered to. -/
structure Submission.AssignsWritable (t : SymbolTable) (s : Submission) : Prop where
  globals : ∀ x, .assignment x ∈ Stmt.writesList s.globals.statements → t.Writable x
  bodies : ∀ b ∈ s.bodies, ∃ body, BoundBody b.1 body b.2 ∧ ∀ x, .assignment x ∈ body.writes → t.Writable x
  codes : ∀ code ∈ s.codes, ∀ x, .assignment x ∈ code.writes → t.Writable x

namespace Submission.Disciplined

variable {s : Submission} (h : s.Disciplined t)

include h

theorem assignsWritable (hclean : s.diagnostics = []) : s.AssignsWritable t where
  globals x hx := h.allowed hclean (.assignment x) (h.main ▸ hx)
  bodies b hb := by
    obtain ⟨body, hbody⟩ := (h.bodies b hb).bound
    obtain ⟨_, _, _, _, returns, _, hcode⟩ := id hbody
    refine ⟨body, hbody, fun x hx => (h.bodies b hb).allowed hclean (.assignment x) ?_⟩
    rw [hcode, body.writes_lowerBody returns]
    exact hx
  codes := by
    refine List.forall_mem_cons.2 ⟨fun x hx => h.allowed hclean (.assignment x) hx, ?_⟩
    exact List.forall_mem_map.2 fun b hb x hx => (h.bodies b hb).allowed hclean (.assignment x) hx

end Submission.Disciplined

theorem SymbolTable.Writable.not_readOnly (h : t.Writable x) : ¬ t.ReadOnly x := by
  rintro ⟨v, hv, hreadOnly⟩
  obtain ⟨v', hv', hwritable⟩ := h
  cases hv.symm.trans hv'
  rw [hreadOnly] at hwritable
  cases hwritable

namespace Session

variable {S : Session}

theorem Disciplined.spares (h : S.Disciplined) (hl : l ∈ S.lineages) (hclean : l.Clean)
    (hx : S.symbols.ReadOnly x) : l.Spares S.symbols x where
  assigned s hs code hcode hassigned :=
    ((h.submissions s (h.all l hl s hs)).assignsWritable (hclean s hs)).codes code hcode x hassigned
      |>.not_readOnly hx
  bodies s hs b hb hdeclared v hv hkind := by
    obtain ⟨v', hv', hkind'⟩ := ((h.submissions s (h.all l hl s hs)).bodies b hb).declared x hdeclared
    cases hv.symm.trans hv'
    rw [hkind] at hkind'
    cases hkind'

theorem Disciplined.keepsArguments (h : S.Disciplined) (hS : S.Resolved) (hl : l ∈ S.lineages)
    (hclean : l.Clean) {f : FuncId} {code : Code} (hbody : l.body? f = some code) (host : Host σ) :
    ∃ a, S.symbols.functionAt? f = some a ∧ (l.setting host S.symbols).KeepsArguments f a code := by
  obtain ⟨s, hs, hb⟩ := Lineage.exists_of_body? hbody
  obtain ⟨-, ⟨a, ha⟩, -⟩ := List.forall₂_same.1 (hS.lineages l hl s hs).bodies _ hb
  obtain ⟨hnodup, hparameters⟩ := h.parameters f a ha
  refine ⟨a, ha, Lineage.keepsArguments hbody ha hnodup (fun p hp => ?_) host⟩
  obtain ⟨v, hv, hreadOnly, hkind⟩ := hparameters p hp
  refine ⟨h.spares hl hclean ⟨v, hv, hreadOnly⟩, fun hdeclared => ?_⟩
  -- What a body declares is a local variable, so no parameter.
  obtain ⟨v', hv', hkind'⟩ := ((h.submissions s (h.all l hl s hs)).bodies _ hb).declared _ hdeclared
  cases hv.symm.trans hv'
  rw [hkind] at hkind'
  cases hkind'

end Session

/-- **Read-only variables are never reassigned.** In a session, a submission about which nothing was reported
assigns only variables that may be assigned, and no variable is declared twice, in whatever code. When a
submission runs on top of others and nothing was reported about any of them, a read-only variable changes only
by executing its declaration, and a parameter has the argument of the call as long as its frame exists. -/
theorem read_only_variables_keep_their_values {S : Session} (hS : S.Reachable) :
    (∀ s ∈ S.submissions, s.diagnostics = [] → s.AssignsWritable S.symbols) ∧
    (S.submissions.flatMap Submission.declared).Nodup ∧
    ∀ s earlier, s :: earlier ∈ S.lineages →
      (∀ s' ∈ s :: earlier, s' ∈ S.submissions) ∧
      (Lineage.Clean (s :: earlier) → ∀ (σ : Type) (host : Host σ),
        let w := Lineage.setting host S.symbols (s :: earlier)
        (∀ x, S.symbols.ReadOnly x →
          w.ChangedByDeclaration ((s :: earlier).flatMap Submission.codes) x ∧
            s.ChangesByDeclaration host S.symbols earlier x) ∧
        ∀ f code, Lineage.body? (s :: earlier) f = some code →
          ∃ a, S.symbols.functionAt? f = some a ∧ w.KeepsArguments f a code) := by
  have hdisciplined := hS.disciplined
  refine ⟨fun s hs => (hdisciplined.submissions s hs).assignsWritable, hdisciplined.nodup,
    fun s earlier hl => ⟨hdisciplined.all _ hl, fun hclean σ host => ⟨fun x hx => ?_, ?_⟩⟩⟩
  · have hspares := hdisciplined.spares hl hclean hx
    have hs := hdisciplined.submissions s (hdisciplined.all _ hl s List.mem_cons_self)
    exact ⟨hspares.changedByDeclaration host,
      hspares.changesByDeclaration hs (hclean s List.mem_cons_self) host⟩
  · exact fun f code hbody => hdisciplined.keepsArguments hS.resolved hl hclean hbody host

namespace Session

/-- Adds up by a function that calls itself before it declares its variable. -/
def climbing : Submission × SymbolTable :=
  compile .standard .initial []
    ("let base = 10; fn climb(n: int) -> int \x7b if n < 1 \x7b return base; \x7d " ++
      "let below = climb(n - 1); return below + n; \x7d var top = 0; top = climb(3);") "climbing"

def climbed : Session := ⟨climbing.2, [[climbing.1]], .empty⟩

theorem reachable_climbed : climbed.Reachable :=
  .single (.submit [] (.inl rfl) .standard _ _)

theorem clean_climbing : Lineage.Clean [climbing.1] :=
  List.forall_mem_singleton.2 (List.isEmpty_iff.1 (by decide +kernel))

end Session

/-- The script assigns `top`, which it may. `base` gets its value from its declaration, calls leave the
`below` of their callers, and all through a call `n` is what was passed. -/
theorem climbing_keeps_its_values :
    let w := Lineage.setting Recording.host Session.climbed.symbols [Session.climbing.1]
    let start : Machine Recording := ⟨.empty, [], none, .ofAnswers [] []⟩
    (Session.climbed.Reachable ∧ Lineage.Clean [Session.climbing.1]) ∧
      (.assignment ⟨4⟩ ∈ Session.climbing.1.main.writes ∧ Session.climbed.symbols.Writable ⟨4⟩) ∧
      Session.climbing.1.declared.Nodup ∧
      (∃ step ∈ Session.climbing.1.main.executed w (Run.call w 100) 100 Session.climbing.1.main start,
        ∃ e, step.instr = .declare ⟨3⟩ e) ∧
      (∀ fuel v, Run.Retains (Run.valuesOf ⟨5⟩) (Run.call w fuel ⟨3⟩ [v])) ∧
      ∃ code, Lineage.body? [Session.climbing.1] ⟨3⟩ = some code ∧ ∀ fuel v (m : Machine Recording),
        ∀ m' ∈ code.history w (Run.call w fuel) fuel { m with frames := .ofList [(⟨2⟩, v)] :: m.frames },
          ∃ frame, m'.frames = frame :: m.frames ∧ frame.get? ⟨2⟩ = some v := by
  intro w start
  obtain ⟨hassigns, hnodup, hruns⟩ := read_only_variables_keep_their_values Session.reachable_climbed
  obtain ⟨-, hrun⟩ := hruns Session.climbing.1 [] List.mem_cons_self
  obtain ⟨hvariables, hcalls⟩ := hrun Session.clean_climbing Recording Recording.host
  obtain ⟨htop, hbase, hbelow, hclimb, hbody, hchanged⟩ :
      .assignment ⟨4⟩ ∈ Session.climbing.1.main.writes ∧
      Session.climbed.symbols.variableAt? ⟨3⟩ = some ⟨"base", .int, true, .global⟩ ∧
      Session.climbed.symbols.variableAt? ⟨5⟩ = some ⟨"below", .int, true, .local_⟩ ∧
      (Session.climbed.symbols.functionAt? ⟨3⟩).map (fun a => a.parameters.map (·.target)) = some [⟨2⟩] ∧
      (Lineage.body? [Session.climbing.1] ⟨3⟩).isSome ∧
      ((Session.climbing.1.evaluate Recording.host Session.climbed.symbols [] .flat 100 .empty
        (.ofAnswers [] [])).globals.get? ⟨3⟩).isSome := by decide +kernel
  obtain ⟨code, hcode⟩ := Option.isSome_iff_exists.1 hbody
  obtain ⟨a, ha, hkeeps⟩ := hcalls ⟨3⟩ code hcode
  have hparameters : a.parameters.map (·.target) = [⟨2⟩] := Option.some.inj ((ha ▸ hclimb :))
  refine ⟨⟨Session.reachable_climbed, Session.clean_climbing⟩, ⟨htop, ?_⟩, ?_, ?_, ?_, code, hcode, ?_⟩
  · exact (hassigns _ List.mem_cons_self (Session.clean_climbing _ List.mem_cons_self)).codes _
      List.mem_cons_self ⟨4⟩ htop
  · rw [← List.flatMap_singleton Submission.declared]
    exact hnodup
  · refine (hvariables ⟨3⟩ ⟨_, hbase, rfl⟩).2.executed 100 .empty (.ofAnswers [] []) fun hsame => ?_
    rw [hsame] at hchanged
    cases hchanged
  · exact fun fuel v => (hvariables ⟨5⟩ ⟨_, hbelow, rfl⟩).1.call fuel ⟨3⟩ [v]
  · intro fuel v m m' hm'
    have hentering : m.entering a [v] = { m with frames := .ofList [(⟨2⟩, v)] :: m.frames } := by
      rw [Machine.entering, hparameters]
      rfl
    obtain ⟨frame, hframes, hvalues⟩ := hkeeps.kept fuel [v] m m' (hentering ▸ hm')
    refine ⟨frame, hframes, hvalues ⟨2⟩ v ?_⟩
    rw [hparameters]
    exact List.mem_singleton_self _

end Scripting
