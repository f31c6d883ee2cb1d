import Scripting.Proofs.Check.Merging
import Scripting.Proofs.Run.Outcome
import Scripting.Proofs.Submission.Rebuilding

/-!
# Scripts in two submissions

A script without functions can be given to a session in two submissions. If nothing is reported about the
whole script, nothing is reported about its parts. The code of the whole is that of the first part followed
by that of the second, but for the numbers of labels, so running the parts one after the other does what
running the whole does.
-/

namespace Scripting

variable {σ : Type} {options : Options} {t : SymbolTable} {l : Lineage} {a b ss : List Surface.Stmt}

/-! ## Scripts without functions -/

/-- No statement of the list declares a function. -/
abbrev Surface.Plain (ss : List Surface.Stmt) : Prop := ∀ s ∈ ss, s.isFunction = false

theorem Checking.signatures_plain (h : Surface.Plain ss) (c : Checker) : signatures ss c = ((), c) := by
  induction ss with
  | nil => rfl
  | cons s ss ih =>
    obtain ⟨hs, hss⟩ := List.forall_mem_cons.1 h
    cases s with
    | function => cases hs
    | _ => exact ih hss

theorem Checking.globalCode_plain (h : Surface.Plain ss) (c : Checker) : globalCode ss c = stmts ss c := by
  have hfilter : (ss.filter fun s => !s.isFunction) = ss :=
    List.filter_eq_self.2 fun s hs => by rw [h s hs]; rfl
  show stmts (ss.filter fun s => !s.isFunction) (signatures ss c).2 = _
  rw [hfilter, signatures_plain h]

def Lineage.check (options : Options) (t : SymbolTable) (l : Lineage) (ss : List Surface.Stmt) :
    List Typed.Stmt × Checker :=
  Checking.stmts ss (.start t options (l.scope t) none)

theorem Lineage.check_append (options : Options) (t : SymbolTable) (l : Lineage) (a b : List Surface.Stmt) :
    l.check options t (a ++ b) =
      ((l.check options t a).1 ++ (Checking.stmts b (l.check options t a).2).1,
        (Checking.stmts b (l.check options t a).2).2) :=
  Checking.stmts_append a b _

/-- The submission of statements that were checked. -/
def Submission.ofChecked (r : List Typed.Stmt × Checker) : Submission where
  syntaxErrors := []
  globals := ⟨[], r.2.scope.vars, r.1, r.2.diagnostics⟩
  bodies := []
  bodyDiagnostics := []
  main := (Typed.Stmt.block r.1).lower

theorem Submission.diagnostics_ofChecked (r : List Typed.Stmt × Checker) :
    (Submission.ofChecked r).diagnostics = r.2.diagnostics :=
  (List.append_nil _).trans (List.nil_append _)

theorem Lineage.keeps_check (options : Options) (t : SymbolTable) (l : Lineage) (ss : List Surface.Stmt) :
    (Checker.start t options (l.scope t) none).Keeps (l.check options t ss).2 :=
  Checking.steady_stmts ss _

theorem Submission.ofScript_plain (h : Surface.Plain ss) :
    Submission.ofScript options t l [] ss =
      (.ofChecked (l.check options t ss), (l.check options t ss).2.symbols) := by
  have hfuncs : (l.check options t ss).2.scope.funcs = [] := by
    unfold Scope.funcs
    rw [(l.keeps_check options t ss).funcs]
    rfl
  have hglobals : checkGlobals options t (l.scope t) ss =
      ((Submission.ofChecked (l.check options t ss)).globals, (l.check options t ss).2.symbols) := by
    unfold checkGlobals
    rw [Checking.globalCode_plain h]
    show (Globals.mk (l.check options t ss).2.scope.funcs _ _ _, _) = _
    rw [hfuncs]
    rfl
  unfold Submission.ofScript
  rw [hglobals]
  rfl

/-! ## Names of the first part -/

/-- Submissions on top of this one find in scope what was in scope at its end. -/
theorem Lineage.Resolved.scope_checked (hl : l.Resolved t) (ht : t.Coherent) (options : Options)
    (ss : List Surface.Stmt) :
    Lineage.scope (l.check options t ss).2.symbols (.ofChecked (l.check options t ss) :: l) =
      (l.check options t ss).2.scope := by
  have hkeeps := l.keeps_check options t ss
  have hresolves : (l.check options t ss).2.scope.Resolves (l.check options t ss).2.symbols := by
    have hparent := (Renumbering.tables_identity t).resolves_scope (List.forall₂_same.2 hl)
    have hstart := Renumbering.Matches.start (Renumbering.tables_identity t) ht hparent options none
    exact (Checking.Simulation.lockstep_stmts (M := Renumbering.identity.simulation _) ss _ _ hstart
      (not_not_intro (.refl _))).1.resolves
  have hkeyed : Layer.Keyed (l.check options t ss).2.symbols (l.check options t ss).2.scope.inner.funcs := by
    rw [hkeeps.funcs]
    exact .nil
  have hfuncs : [] = (l.check options t ss).2.scope.funcs := by
    unfold Scope.funcs
    rw [hkeeps.funcs]
    rfl
  show Globals.extend _ _ (Lineage.scope _ l) = _
  rw [hl.scope_eq hkeeps.symbols]
  exact Globals.extend_eq hfuncs rfl hkeeps.outer hresolves hkeyed

/-! ## The second part -/

/-- Checking the second part on top of the first stays in step with checking on. -/
theorem Lineage.Resolved.merges_check (hl : l.Resolved t) (ht : t.Coherent) (hsound : l.Sound t)
    (hhost : t.HostSound) (hclean : (l.check options t (a ++ b)).2.diagnostics = []) (d : Nat) :
    let first := l.check options t a
    let second := Lineage.check options first.2.symbols (.ofChecked first :: l) b
    let rest := Checking.stmts b first.2
    first.2.diagnostics = [] ∧
      second.2.Merges first.2.loopCount d first.2.scope.inner first.2.scope.outer rest.2 ∧
      (Typed.Stmt.block second.1).Related .same (Typed.Label.Shifted first.2.loopCount d) (.block rest.1) := by
  intro first second rest
  have hkeeps := l.keeps_check options t a
  have hrest : rest.2.diagnostics = [] := by rwa [Lineage.check_append] at hclean
  have hfirst : first.2.diagnostics = [] := (Checking.steady_stmts b first.2).grows.diagnostics hrest
  have hready : first.2.Ready (l.context t).callable none := by
    have hyields : Checking.Yields ⟨first.2.symbols, (l.context t).callable⟩ none
        (.start t options (l.scope t) none) True (Checking.stmts a) _ _ := Checking.yields_stmts a _
    exact (hyields.sound ⟨hfirst, .refl _⟩ (.of_scope (hsound.fits_scope hhost) options) trivial).1
  have hanew := Checker.Merges.anew hkeeps.funcs hkeeps.function hkeeps.loops hkeeps.depth hready.depth d
  have hstart : Checker.start first.2.symbols options (Lineage.scope first.2.symbols (.ofChecked first :: l))
      none = .start first.2.symbols first.2.options first.2.scope none := by
    rw [hl.scope_checked ht, hkeeps.options]
    rfl
  rw [← hstart] at hanew
  exact ⟨hfirst, (Checking.merging _ _ _ _).lockstep_stmts b _ _ hanew (not_not_intro hrest)⟩

/-- Nothing is reported about the parts, and they leave the symbols that the whole leaves. -/
theorem Lineage.Resolved.clean_parts (hl : l.Resolved t) (ht : t.Coherent) (hsound : l.Sound t)
    (hhost : t.HostSound) (hclean : (l.check options t (a ++ b)).2.diagnostics = []) :
    let first := l.check options t a
    let second := Lineage.check options first.2.symbols (.ofChecked first :: l) b
    first.2.diagnostics = [] ∧ second.2.diagnostics = [] ∧
      second.2.symbols = (l.check options t (a ++ b)).2.symbols := by
  intro first second
  obtain ⟨hfirst, hmerges, -⟩ := hl.merges_check ht hsound hhost hclean 0
  rw [Lineage.check_append] at hclean ⊢
  exact ⟨hfirst, hmerges.diagnostics hclean, hmerges.symbols.symm⟩

/-! ## The code of the parts -/

/-- The code is that of the first part, then that of the second with other labels, and the two are
separate. -/
def Typed.Code.Splits (code first second : Code) : Prop :=
  ∃ (back : Code) (L : Label → Label → Prop), code = first ++ back ∧ first.Separate back ∧
    Label.Paired L ∧ Code.Related .same L second back

theorem Lineage.shaped_check (options : Options) (t : SymbolTable) (l : Lineage) (ss : List Surface.Stmt) :
    Checking.Shaped [] 0 (.block (l.check options t ss).1) (l.check options t ss).2.loopCount := by
  have hyields : Checking.Yields ⟨t, fun _ => True⟩ none (.start t options (l.scope t) none) True
      (Checking.stmts ss) _ _ := Checking.yields_stmts ss _
  exact hyields.shape

/-- Statements in a row have separate code. -/
theorem Checking.Shaped.separate {front back : List Typed.Stmt} {n : Nat}
    (h : Shaped [] 0 (.block (front ++ back)) n) :
    ((Typed.Stmt.block front).lowered 0).1.Separate
      ((Typed.Stmt.block back).lowered ((Typed.Stmt.block front).lowered 0).2).1 := by
  obtain ⟨hfront, hback⟩ : (Typed.Stmt.block front).Scoped Typed.Instr.Strict [] ∧
      (Typed.Stmt.block back).Scoped Typed.Instr.Strict [] := by
    cases h.jumps with
    | block hs =>
      exact ⟨.block fun s hmem => hs s (List.mem_append_left _ hmem),
        .block fun s hmem => hs s (List.mem_append_right _ hmem)⟩
  refine ⟨fun k hk hk' => ?_, hfront.closed_lower, Typed.Code.closed_iff.2 fun k hk => ?_⟩
  · have hnodup := (h.numbered.labels_lowered 0).nodup
    rw [Typed.Stmt.lowered_append, Typed.Code.labels_append, List.nodup_append] at hnodup
    exact hnodup.2.2 k hk k hk' rfl
  · exact (hback.targets_lowered _ k hk).resolve_left List.not_mem_nil

theorem Lineage.Resolved.splits (hl : l.Resolved t) (ht : t.Coherent) (hsound : l.Sound t)
    (hhost : t.HostSound) (hclean : (l.check options t (a ++ b)).2.diagnostics = []) :
    let first := l.check options t a
    Typed.Code.Splits (Submission.ofChecked (l.check options t (a ++ b))).main
      (Submission.ofChecked first).main
      (Submission.ofChecked (Lineage.check options first.2.symbols (.ofChecked first :: l) b)).main := by
  intro first
  let rest : List Typed.Stmt × Checker := Checking.stmts b first.2
  have hwhole : (l.check options t (a ++ b)).1 = first.1 ++ rest.1 := by rw [Lineage.check_append]
  let lowered : Typed.Code × Nat := (Typed.Stmt.block first.1).lowered 0
  let back : Typed.Code := ((Typed.Stmt.block rest.1).lowered lowered.2).1
  have hmain : (Submission.ofChecked (l.check options t (a ++ b))).main = lowered.1 ++ back := by
    unfold Submission.ofChecked Typed.Stmt.lower
    rw [hwhole, Typed.Stmt.lowered_append]
  have hshape := l.shaped_check options t (a ++ b)
  rw [hwhole] at hshape
  obtain ⟨-, -, hrelated⟩ := hl.merges_check ht hsound hhost hclean lowered.2
  have hback := (hrelated.lowered (Typed.Label.shifted_label _ _) 0).2
  rw [Nat.zero_add] at hback
  exact ⟨back, _, hmain, hshape.separate, Typed.Label.paired_shifted _ _, hback⟩

theorem Typed.Code.WellTyped.ret_not_mem {Γ : Context} {code : Code} (h : code.WellTyped Γ none)
    (e? : Option Expr) : Instr.ret e? ∉ code := by
  intro hmem
  have hret := h _ hmem
  cases e? with
  | none =>
    obtain ⟨g, hg, -⟩ := hret
    cases hg
  | some e =>
    obtain ⟨-, g, hg, -⟩ := hret
    cases hg

/-! ## The value of the second part -/

/-- The statement is an expression or the declaration of a variable. -/
def Surface.Stmt.hasValue : Surface.Stmt → Bool
  | .expr _ | .declare _ => true
  | _ => false

namespace Checking

/-- From any state, the step gives a result that satisfies `P`. -/
def Always {α : Type} (P : α → Prop) (step : Checking α) : Prop := ∀ c, P (step c).1

section Always

variable {α β : Type} {P : β → Prop}

theorem always_pure {b : β} (h : P b) : Always P (pure b) := fun _ => h

theorem always_bind {step : Checking α} {f : α → Checking β} (h : ∀ a, Always P (f a)) :
    Always P (step >>= f) := fun c => h _ (step c).2

theorem always_report_if {p : Prop} [Decidable p] {span : Span} {problem : Problem} {step : Checking β}
    (h : Always P step) : Always P (if p then do report span problem; step else step) := by
  split
  · exact always_bind fun _ => h
  · exact h

theorem always_nested {span : Span} {standIn : β} {step : Checking β} (h : Always P step)
    (hstandIn : P standIn) : Always P (nested span standIn step) := by
  intro c
  rw [nested_apply]
  split
  · exact h _
  · exact hstandIn

end Always

theorem always_hasValue {s : Surface.Stmt} (h : s.hasValue = true) :
    Always (fun s' => ∃ i, s' = .instr i ∧ i.HasValue) (stmt s) := by
  cases s with
  | expr e =>
    unfold stmt
    refine always_nested (always_bind fun r => always_bind fun c => always_report_if ?_) ⟨_, rfl, trivial⟩
    exact always_pure ⟨_, rfl, trivial⟩
  | declare d =>
    unfold stmt
    refine always_nested (always_bind fun _ => always_bind fun _ => always_bind fun _ => ?_)
      ⟨_, rfl, trivial⟩
    exact always_bind fun _ => always_pure ⟨_, rfl, trivial⟩
  | _ => cases h

end Checking

theorem Typed.Instr.HasValue.lower {i : Instr} (h : i.HasValue) : ∃ j, i.lower = [j] ∧ j.HasValue := by
  cases i with
  | eval e => exact ⟨_, rfl, trivial⟩
  | declare x e => exact ⟨_, rfl, trivial⟩
  | label | jump | branch | ret => exact h.elim

/-- The code of a script that ends in such a statement ends with its value. -/
theorem Lineage.endsInValue_check (h : ∃ s, ss.getLast? = some s ∧ s.hasValue = true) (options : Options)
    (t : SymbolTable) (l : Lineage) : (Submission.ofChecked (l.check options t ss)).main.EndsInValue := by
  obtain ⟨s, hs, hvalue⟩ := h
  obtain ⟨front, rfl⟩ := List.getLast?_eq_some_iff.1 hs
  obtain ⟨i, hi, hvalue⟩ := Checking.always_hasValue hvalue (l.check options t front).2
  have hlast : (l.check options t (front ++ [s])).1 = (l.check options t front).1 ++ [.instr i] := by
    rw [Lineage.check_append, ← hi]
    rfl
  obtain ⟨j, hj, hvalue⟩ := hvalue.lower
  unfold Submission.ofChecked Typed.Stmt.lower
  rw [hlast, Typed.Stmt.lowered_append, Typed.Stmt.lowered_cons, Typed.Stmt.lowered_instr, hj]
  exact ⟨j, List.getLast?_concat, hvalue⟩

theorem Typed.Code.Related.endsInValue {R : Correspondence} {L : Label → Label → Prop} {code code' : Code}
    (h : Code.Related R L code code') (hvalue : code.EndsInValue) : code'.EndsInValue := by
  obtain ⟨i, hi, hvalue⟩ := hvalue
  have hlast := forall₂_getLast? h
  rw [hi] at hlast
  generalize hi' : code'.getLast? = last' at hlast
  cases hlast with
  | some hrelated =>
    refine ⟨_, hi', ?_⟩
    cases hrelated with
    | eval | declare => trivial
    | label | jump | branch | retNone | ret => exact hvalue.elim

/-! ## Running the parts -/

namespace Typed.Code.Splits

variable {w : Setting σ} {code first second : Typed.Code} {globals globals₁ : Store} {state state₁ : σ}

theorem outcome_error (h : code.Splits first second) {e : Halt}
    (hfirst : Outcome.Settles (first.outcome w globals state) ⟨.error e, globals₁, state₁⟩) :
    Outcome.Settles (code.outcome w globals state) ⟨.error e, globals₁, state₁⟩ := by
  obtain ⟨back, L, rfl, hseparate, -, -⟩ := h
  exact hseparate.outcome_error hfirst

/-- If the first part ends without error, the second from there and the whole end alike, or not at all. -/
theorem outcome_ok (h : code.Splits first second) (hret : ∀ e?, Instr.ret e? ∉ code)
    (hw : Setting.Related .identity .same w w) {v? : Option Value}
    (hfirst : Outcome.Settles (first.outcome w globals state) ⟨.ok v?, globals₁, state₁⟩) :
    Outcome.EndAlike second.EndsInValue (second.outcome w globals₁ state₁)
      (code.outcome w globals state) := by
  obtain ⟨back, L, rfl, hseparate, hL, hrelated⟩ := h
  rw [← hrelated.outcome_eq hw hL]
  exact (hseparate.outcome_ok hret hfirst).imp hrelated.endsInValue

end Typed.Code.Splits

theorem Lineage.setting_same (host : Host σ) (t : SymbolTable) (l : Lineage) :
    Setting.Related .identity .same (l.setting host t) (l.setting host t) where
  increasing _ _ hlt := hlt
  host := rfl
  vars hx := ⟨hx, congrArg _ hx⟩
  funcs := by
    rintro _ f τ rfl
    rw [show FunctionSymbol.renumber .identity = id from funext Renumbering.renumber_identity, Option.map_id]
    rfl
  bodies := by
    rintro _ f τ rfl
    show Option.Rel _ ((l.body? f).map Body.flat) ((l.body? f).map Body.flat)
    cases l.body? f with
    | none => exact .none
    | some code => exact .some (.flat (Typed.Code.related_same code))

/-- The outcome of evaluating a submission from the given variables and state of the host. -/
def Submission.outcome (host : Host σ) (t : SymbolTable) (s : Submission) (earlier : Lineage)
    (globals : Store) (state : σ) (fuel : Nat) : Outcome σ :=
  s.evaluate host t earlier .flat fuel globals state

theorem Lineage.Resolved.outcome_eq {t' : SymbolTable} {s : Submission}
    (h : Lineage.Resolved t (s :: l)) (hext : t.Extends t') (host : Host σ) (globals : Store) (state : σ) :
    s.outcome host t' l globals state = s.outcome host t l globals state := by
  funext fuel
  exact h.evaluate_eq hext host fuel globals state

/-- Evaluating a submission without functions runs its code with the functions of its lineage. -/
theorem Lineage.outcome_check {l' : Lineage} {t' : SymbolTable}
    (hclean : (l.check options t ss).2.diagnostics = []) (host : Host σ) (globals : Store) (state : σ) :
    (Submission.ofChecked (l.check options t ss)).outcome host t' l' globals state =
      (Submission.ofChecked (l.check options t ss)).main.outcome (l'.setting host t') globals state := by
  have hempty : (Submission.ofChecked (l.check options t ss)).diagnostics.isEmpty = true := by
    rw [Submission.diagnostics_ofChecked, hclean]
    rfl
  have hclosed : (Submission.ofChecked (l.check options t ss)).main.Closed :=
    (l.shaped_check options t ss).jumps.closed_lower
  funext fuel
  unfold Submission.outcome Submission.evaluate
  rw [if_pos hempty]
  exact hclosed.evaluate_eq (l'.setting host t') fuel globals state

/-- A script without functions settles on the value that it has with some fuel. -/
theorem Submission.settles_of_result (hplain : Surface.Plain ss)
    (hclean : (ofScript options t l [] ss).1.diagnostics = []) {host : Host σ} {t' : SymbolTable}
    {fuel : Nat} {globals : Store} {state : σ} {v? : Option Value} :
    let outcome := (ofScript options t l [] ss).1.outcome host t' l globals state
    (outcome fuel).result = .ok v? →
      Outcome.Settles outcome ⟨.ok v?, (outcome fuel).globals, (outcome fuel).host⟩ := by
  rw [ofScript_plain hplain] at *
  rw [diagnostics_ofChecked] at hclean
  intro outcome hresult
  have heq : outcome = _ := Lineage.outcome_check hclean host globals state
  have hfinished : (outcome fuel).result ≠ .error .outOfFuel := hresult ▸ nofun
  rw [← hresult]
  rw [heq] at hfinished ⊢
  exact Typed.Code.settles_of_outcome hfinished

/-- **Splitting a script changes nothing.** If nothing is reported about a script without functions, then
nothing is reported about its two parts as submissions one after the other, and they leave the same symbols.
If the first part ends in an error, so does the whole, with the same variables and the same host. Otherwise
the second part, run from what the first leaves, comes to an end exactly if the whole does. They then leave
the same variables and the same host, and end with the same error if with any. They have the same value too,
if the second part ends in an expression or a declaration. As the host is arbitrary, it may keep a log, so the
calls to it are the same. -/
theorem splitting_changes_nothing {S : Session} (hS : S.Reachable) {base : Lineage}
    (hbase : base = [] ∨ base ∈ S.lineages) (hclean : base.Clean) (options : Options)
    {a b : List Surface.Stmt} (hplain : Surface.Plain (a ++ b))
    (hwhole : (Submission.ofScript options S.symbols base [] (a ++ b)).1.diagnostics = []) :
    let whole := Submission.ofScript options S.symbols base [] (a ++ b)
    let first := Submission.ofScript options S.symbols base [] a
    let second := Submission.ofScript options first.2 (first.1 :: base) [] b
    first.1.diagnostics = [] ∧ second.1.diagnostics = [] ∧ second.2 = whole.2 ∧
      ∀ {σ : Type} (host : Host σ) (globals : Store) (state : σ),
        (∀ e globals₁ state₁,
          Outcome.Settles (first.1.outcome host first.2 base globals state) ⟨.error e, globals₁, state₁⟩ →
            Outcome.Settles (whole.1.outcome host whole.2 base globals state)
              ⟨.error e, globals₁, state₁⟩) ∧
        ∀ v? globals₁ state₁,
          Outcome.Settles (first.1.outcome host first.2 base globals state) ⟨.ok v?, globals₁, state₁⟩ →
            Outcome.EndAlike (∃ s, b.getLast? = some s ∧ s.hasValue = true)
              (second.1.outcome host second.2 (first.1 :: base) globals₁ state₁)
              (whole.1.outcome host whole.2 base globals state) := by
  obtain ⟨hplainA, hplainB⟩ := List.forall_mem_append.1 hplain
  have hsound : base.Sound S.symbols := by
    rcases hbase with rfl | hbase
    · exact nofun
    · exact hS.sound.lineages base hbase hclean
  have hresolved := hS.resolved.base hbase
  -- the three submissions, by the checks that make them
  let first : List Typed.Stmt × Checker := base.check options S.symbols a
  let whole : List Typed.Stmt × Checker := base.check options S.symbols (a ++ b)
  let second : List Typed.Stmt × Checker :=
    Lineage.check options first.2.symbols (.ofChecked first :: base) b
  have hfirstEq : Submission.ofScript options S.symbols base [] a = (.ofChecked first, first.2.symbols) :=
    Submission.ofScript_plain hplainA
  have hwholeEq : Submission.ofScript options S.symbols base [] (a ++ b) =
      (.ofChecked whole, whole.2.symbols) := Submission.ofScript_plain hplain
  have hsecondEq : Submission.ofScript options first.2.symbols (.ofChecked first :: base) [] b =
      (.ofChecked second, second.2.symbols) := Submission.ofScript_plain hplainB
  have hsoundWhole := hsound.ofScript hS.sound.host hwhole
  have hresolvedFirst := (hresolved.ofScript hS.resolved.coherent options [] a).2
  rw [hwholeEq] at hwhole hsoundWhole
  rw [hfirstEq] at hresolvedFirst
  have hwholeClean : whole.2.diagnostics = [] := (Submission.diagnostics_ofChecked whole).symm.trans hwhole
  obtain ⟨hfirstClean, hsecondClean, hsymbols⟩ :=
    hresolved.clean_parts hS.resolved.coherent hsound hS.sound.host hwholeClean
  have hsplits := hresolved.splits hS.resolved.coherent hsound hS.sound.host hwholeClean
  have hret := (hsoundWhole _ List.mem_cons_self).main.ret_not_mem
  have hext : first.2.symbols.Extends whole.2.symbols :=
    hsymbols ▸ (Lineage.keeps_check options first.2.symbols (.ofChecked first :: base) b).symbols
  rw [hfirstEq, hwholeEq]
  dsimp only
  rw [hsecondEq]
  refine ⟨(Submission.diagnostics_ofChecked first).trans hfirstClean,
    (Submission.diagnostics_ofChecked second).trans hsecondClean, hsymbols, fun host globals state => ?_⟩
  -- all of the code runs in one setting, as the first part brings no functions
  let w := base.setting host whole.2.symbols
  have hfirst : (Submission.ofChecked first).outcome host first.2.symbols base globals state =
      (Submission.ofChecked first).main.outcome w globals state :=
    (hresolvedFirst.outcome_eq hext host globals state).symm.trans
      (Lineage.outcome_check hfirstClean host globals state)
  have hsecond : ∀ globals₁ state₁, (Submission.ofChecked second).outcome host second.2.symbols
      (.ofChecked first :: base) globals₁ state₁ =
        (Submission.ofChecked second).main.outcome w globals₁ state₁ := by
    intro globals₁ state₁
    rw [hsymbols]
    exact Lineage.outcome_check hsecondClean host globals₁ state₁
  have hboth : (Submission.ofChecked whole).outcome host whole.2.symbols base globals state =
      (Submission.ofChecked whole).main.outcome w globals state :=
    Lineage.outcome_check hwholeClean host globals state
  simp only [hfirst, hsecond, hboth]
  refine ⟨fun e globals₁ state₁ h => hsplits.outcome_error h, fun v? globals₁ state₁ h => ?_⟩
  have halike := hsplits.outcome_ok hret (base.setting_same host whole.2.symbols) h
  exact halike.imp fun hvalue => Lineage.endsInValue_check hvalue ..

namespace Session

/-- The statements of a script, if it can be read. -/
def statements (source : String) : List Surface.Stmt :=
  ((Surface.Script.ofSource source "counting").toOption.map (·.body)).getD []

/-- Counts down, and tells so. -/
def countsDown : List Surface.Stmt :=
  statements "var share = total; while share > 8 \x7b share = share - 1; print(string(share)); \x7d"

/-- Counts up from where the other loop ended, and declares a variable. -/
def countsUp : List Surface.Stmt :=
  statements "do \x7b share += 1; \x7d while share < 12; var half = share / 2;"

end Session

/-- Counting down and then up in two submissions prints what it prints in one, and has the same value. -/
theorem counting_splits :
    let base : Lineage := [Session.sharing.1, Session.halving.1]
    let whole := Submission.ofScript .standard Session.shared.symbols base []
      (Session.countsDown ++ Session.countsUp)
    let first := Submission.ofScript .standard Session.shared.symbols base [] Session.countsDown
    let second := Submission.ofScript .standard first.2 (first.1 :: base) [] Session.countsUp
    (Session.shared.Reachable ∧ base ∈ Session.shared.lineages ∧ base.Clean ∧
        Surface.Plain (Session.countsDown ++ Session.countsUp) ∧ whole.1.diagnostics = []) ∧
      (first.1.diagnostics = [] ∧ second.1.diagnostics = []) ∧
        ∃ o, Outcome.Settles (whole.1.outcome Recording.host whole.2 base Session.shared.globals
            (.ofAnswers [] [])) o ∧
          o.result = .ok (some (.int 6)) ∧ o.host.printed = ["9", "8"] := by
  intro base whole first second
  let o₁ := first.1.outcome Recording.host first.2 base Session.shared.globals (.ofAnswers [] []) 100
  let o₂ := second.1.outcome Recording.host second.2 (first.1 :: base) o₁.globals o₁.host 100
  obtain ⟨hplain, hempty, hvalued, hresult₁, hresult₂, hprinted⟩ :
      Surface.Plain (Session.countsDown ++ Session.countsUp) ∧ whole.1.diagnostics.isEmpty = true ∧
        Session.countsUp.getLast?.any Surface.Stmt.hasValue = true ∧ o₁.result = .ok none ∧
        o₂.result = .ok (some (.int 6)) ∧ o₂.host.printed = ["9", "8"] := by decide +kernel
  have hwhole : whole.1.diagnostics = [] := List.isEmpty_iff.1 hempty
  obtain ⟨hplainA, hplainB⟩ := List.forall_mem_append.1 hplain
  obtain ⟨hfirst, hsecond, -, hruns⟩ := splitting_changes_nothing Session.reachable_shared
    (.inr List.mem_cons_self) Session.clean_sharing .standard hplain hwhole
  have hsettles₁ := Submission.settles_of_result hplainA hfirst hresult₁
  have hsettles₂ := Submission.settles_of_result hplainB hsecond hresult₂
  obtain ⟨o, ho, hagrees⟩ := ((hruns _ _ _).2 _ _ _ hsettles₁).right _ hsettles₂
  refine ⟨⟨Session.reachable_shared, List.mem_cons_self, Session.clean_sharing, hplain, hwhole⟩,
    ⟨hfirst, hsecond⟩, o, ho, ?_, ?_⟩
  · exact hagrees.value ((Option.any_eq_true _ _).1 hvalued)
  · exact (congrArg Recording.printed hagrees.host).trans hprinted

end Scripting
