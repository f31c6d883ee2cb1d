import Scripting.Proofs.Check.Renumbering
import Scripting.Proofs.Submission.Session

/-!
# Submissions with other numbers

Two sessions that hold the same symbols under different handles make submissions that differ by their
handles only, and are still such sessions afterwards. For two equal sessions this is a fact about one
submission: whatever is wrong with it, its handles are those of symbols.
-/

namespace Scripting

variable {ρ : Renumbering} {t t' T : SymbolTable} {options : Options}

/-! ## Global code -/

/-- What global code declares and does is the same but for handles, which are those of symbols in `T`. -/
structure Globals.Renumbered (ρ : Renumbering) (T : SymbolTable) (g g' : Globals) : Prop where
  funcs : g'.funcs = g.funcs.map ρ.funcs
  vars : g'.vars = g.vars.map ρ.vars
  foundFuncs : ∀ f ∈ g'.funcs, ∃ a, T.functionAt? f = some a
  foundVars : ∀ x ∈ g'.vars, ∃ v, T.variableAt? x = some v
  statements : (Typed.Stmt.block g.statements).Related (ρ.handles T) Eq (.block g'.statements)
  diagnostics : g'.diagnostics = g.diagnostics

theorem Globals.Renumbered.mono {g g' : Globals} (h : g.Renumbered ρ T g') (hext : T.Extends t) :
    g.Renumbered ρ t g' where
  funcs := h.funcs
  vars := h.vars
  foundFuncs f hf := (h.foundFuncs f hf).imp fun a ha => hext.funcs f a ha
  foundVars x hx := (h.foundVars x hx).imp fun v hv => hext.vars x v hv
  statements := h.statements.mono (Renumbering.handles_mono hext)
  diagnostics := h.diagnostics

theorem Globals.Renumbered.found {g g' : Globals} (h : g.Renumbered ρ t' g') (ht : ρ.Tables t t') :
    ∀ x ∈ g.vars, ∃ v, t.variableAt? x = some v := by
  intro x hx
  have hx' : ρ.vars x ∈ g'.vars := h.vars ▸ List.mem_map_of_mem hx
  obtain ⟨v, hv⟩ := h.foundVars _ hx'
  exact ⟨v, (ht.vars x).symm.trans hv⟩

namespace Renumbering.Tables

theorem foundVars (h : ρ.Tables t t') {x : VarId} (hx : ∃ v, t.variableAt? x = some v) :
    ∃ v, t'.variableAt? (ρ.vars x) = some v := by rwa [h.vars]

theorem foundFuncs (h : ρ.Tables t t') {f : FuncId} (hf : ∃ a, t.functionAt? f = some a) :
    ∃ a, t'.functionAt? (ρ.funcs f) = some a := by
  obtain ⟨a, ha⟩ := hf
  exact ⟨a.renumber ρ, by rw [h.funcs, ha]; rfl⟩

theorem checkGlobals (h : ρ.Tables t t') (ht : t.Coherent) {parent : Scope} (hparent : parent.Resolves t)
    (options : Options) (ss : List Surface.Stmt) :
    ρ.Tables (checkGlobals options t parent ss).2 (checkGlobals options t' (parent.renumber ρ) ss).2 ∧
      (Scripting.checkGlobals options t parent ss).2.Coherent ∧
      (Scripting.checkGlobals options t parent ss).1.Renumbered ρ
        (Scripting.checkGlobals options t' (parent.renumber ρ) ss).2
        (Scripting.checkGlobals options t' (parent.renumber ρ) ss).1 := by
  let T := (Scripting.checkGlobals options t' (parent.renumber ρ) ss).2
  have hsignatures := (Matches.start h ht hparent options none).signatures ss
  obtain ⟨hend, hstatements⟩ := Checking.Simulation.lockstep_stmts (M := ρ.simulation T)
    (ss.filter fun s => !s.isFunction) _ _ hsignatures (not_not_intro (.refl _))
  have hfuncs : (Scripting.checkGlobals options t' (parent.renumber ρ) ss).1.funcs =
      (Scripting.checkGlobals options t parent ss).1.funcs.map ρ.funcs :=
    (congrArg Scope.funcs hend.scope).trans (Scope.funcs_renumber _)
  have hvars : (Scripting.checkGlobals options t' (parent.renumber ρ) ss).1.vars =
      (Scripting.checkGlobals options t parent ss).1.vars.map ρ.vars :=
    (congrArg Scope.vars hend.scope).trans (Scope.vars_renumber _)
  refine ⟨hend.tables, hend.coherent, hfuncs, hvars, fun f' hf' => ?_, fun x' hx' => ?_, hstatements,
    hend.diagnostics⟩
  · rw [hfuncs] at hf'
    obtain ⟨f, hf, rfl⟩ := List.mem_map.1 hf'
    exact hend.tables.foundFuncs (hend.resolves.exists_of_mem_funcs hf)
  · rw [hvars] at hx'
    obtain ⟨x, hx, rfl⟩ := List.mem_map.1 hx'
    exact hend.tables.foundVars (hend.resolves.exists_of_mem_vars hx)

end Renumbering.Tables

/-! ## Bodies -/

theorem Renumbering.Tables.checkBody (h : ρ.Tables t t') (ht : t.Coherent) {parent : Scope}
    (hparent : parent.Resolves t) (options : Options) (f : FuncId) (returns : Ty) (d : Declaration)
    (hT : (checkBody options t' (parent.renumber ρ) (ρ.funcs f) returns d).2.2.Extends T) :
    ρ.Tables (checkBody options t parent f returns d).2.2
        (Scripting.checkBody options t' (parent.renumber ρ) (ρ.funcs f) returns d).2.2 ∧
      (Scripting.checkBody options t parent f returns d).2.2.Coherent ∧
      Typed.Code.Related (ρ.handles T) Eq (Scripting.checkBody options t parent f returns d).1
        (Scripting.checkBody options t' (parent.renumber ρ) (ρ.funcs f) returns d).1 ∧
      (Scripting.checkBody options t' (parent.renumber ρ) (ρ.funcs f) returns d).2.1 =
        (Scripting.checkBody options t parent f returns d).2.1 := by
  obtain ⟨hend, hbody⟩ := Checking.Simulation.lockstep_block (M := ρ.simulation T) d.body _ _
    (Matches.start h ht hparent options (some f)) (not_not_intro hT)
  have hcode : Typed.Code.Related (ρ.handles T) Eq (Scripting.checkBody options t parent f returns d).1
      (Scripting.checkBody options t' (parent.renumber ρ) (ρ.funcs f) returns d).1 := hbody.lowerBody returns
  refine ⟨hend.tables, hend.coherent, hcode, ?_⟩
  rw [problems_checkBody, problems_checkBody, hcode.allPathsReturn]
  exact congrArg (· ++ _) hend.diagnostics

/-- Bodies of functions are the same but for handles, which are those of symbols in `T`. -/
def Bodies.Renumbered (ρ : Renumbering) (T : SymbolTable) :
    List (FuncId × Typed.Code) → List (FuncId × Typed.Code) → Prop :=
  List.Forall₂ fun b b' =>
    b'.1 = ρ.funcs b.1 ∧ (∃ a, T.functionAt? b'.1 = some a) ∧ b.2.Related (ρ.handles T) Eq b'.2

theorem Bodies.Renumbered.mono {bs bs' : List (FuncId × Typed.Code)} (h : Bodies.Renumbered ρ T bs bs')
    (hext : T.Extends t) : Bodies.Renumbered ρ t bs bs' := by
  refine h.imp fun b b' hb => ?_
  obtain ⟨hf, ⟨a, ha⟩, hcode⟩ := hb
  exact ⟨hf, ⟨a, hext.funcs _ _ ha⟩, hcode.mono (Renumbering.handles_mono hext)⟩

theorem Renumbering.Tables.checkBodies (h : ρ.Tables t t') (ht : t.Coherent) {parent : Scope}
    (hparent : parent.Resolves t) (options : Options) {fs : List FuncId}
    (hfs : ∀ f ∈ fs, ∃ a d, t.functionAt? f = some a ∧ a.declaration? = some d)
    (hT : (checkBodies options (parent.renumber ρ) t' (fs.map ρ.funcs)).2.2.Extends T) :
    ρ.Tables (checkBodies options parent t fs).2.2
        (Scripting.checkBodies options (parent.renumber ρ) t' (fs.map ρ.funcs)).2.2 ∧
      (Scripting.checkBodies options parent t fs).2.2.Coherent ∧
      Bodies.Renumbered ρ T (Scripting.checkBodies options parent t fs).1
        (Scripting.checkBodies options (parent.renumber ρ) t' (fs.map ρ.funcs)).1 ∧
      (Scripting.checkBodies options (parent.renumber ρ) t' (fs.map ρ.funcs)).2.1 =
        (Scripting.checkBodies options parent t fs).2.1 := by
  induction fs generalizing t t' with
  | nil => exact ⟨h, ht, .nil, rfl⟩
  | cons f fs ih =>
    obtain ⟨⟨a, d, hf, hd⟩, hfs⟩ := List.forall_mem_cons.1 hfs
    have hf' : t'.functionAt? (ρ.funcs f) = some (a.renumber ρ) := by
      rw [h.funcs, hf]
      rfl
    rw [List.map_cons, checkBodies_cons hf' hd] at hT ⊢
    rw [checkBodies_cons hf hd]
    dsimp only at hT ⊢
    have hext := extends_checkBody options t parent f a.returns d
    have hext' := extends_checkBody options t' (parent.renumber ρ) (ρ.funcs f) a.returns d
    have hT' := (extends_checkBodies options (parent.renumber ρ) _ (fs.map ρ.funcs)).trans hT
    obtain ⟨htables, hcoherent, hcode, hproblems⟩ := h.checkBody ht hparent options f a.returns d hT'
    have hrest : ∀ g ∈ fs, ∃ b e,
        (Scripting.checkBody options t parent f a.returns d).2.2.functionAt? g = some b ∧
          b.declaration? = some e := by
      intro g hg
      obtain ⟨b, e, hb, he⟩ := hfs g hg
      exact ⟨b, e, hext.funcs g b hb, he⟩
    obtain ⟨htables', hcoherent', hbodies, hmore⟩ := ih htables hcoherent (hparent.mono hext) hrest hT
    refine ⟨htables', hcoherent', .cons ⟨rfl, ?_, hcode⟩ hbodies, congr (congrArg _ hproblems) hmore⟩
    exact ⟨a.renumber ρ, (hext'.trans hT').funcs _ _ hf'⟩

/-! ## Submissions -/

/-- The submissions are the same but for handles, which are those of symbols in `T`. -/
structure Submission.Renumbered (ρ : Renumbering) (T : SymbolTable) (s s' : Submission) : Prop where
  syntaxErrors : s'.syntaxErrors = s.syntaxErrors
  globals : s.globals.Renumbered ρ T s'.globals
  bodies : Bodies.Renumbered ρ T s.bodies s'.bodies
  bodyDiagnostics : s'.bodyDiagnostics = s.bodyDiagnostics
  main : s.main.Related (ρ.handles T) Eq s'.main

namespace Submission.Renumbered

variable {s s' : Submission}

theorem mono (h : s.Renumbered ρ T s') (hext : T.Extends t) : s.Renumbered ρ t s' where
  syntaxErrors := h.syntaxErrors
  globals := h.globals.mono hext
  bodies := h.bodies.mono hext
  bodyDiagnostics := h.bodyDiagnostics
  main := h.main.mono (Renumbering.handles_mono hext)

theorem diagnostics_eq (h : s.Renumbered ρ T s') : s'.diagnostics = s.diagnostics := by
  unfold Submission.diagnostics
  rw [h.syntaxErrors, h.globals.diagnostics, h.bodyDiagnostics]

end Submission.Renumbered

/-- The submissions of the lineages are the same but for handles. -/
abbrev Lineage.Renumbered (ρ : Renumbering) (T : SymbolTable) : Lineage → Lineage → Prop :=
  List.Forall₂ (Submission.Renumbered ρ T)

namespace Renumbering.Tables

theorem scope_eq (h : ρ.Tables t t') {l l' : Lineage} (hl : l.Renumbered ρ T l') :
    l'.scope t' = (l.scope t).renumber ρ :=
  h.scope_lineage (hl.imp fun _ _ hs => ⟨hs.globals.funcs, hs.globals.vars⟩)

theorem resolves_scope (h : ρ.Tables t t') {l l' : Lineage} (hl : l.Renumbered ρ t' l') :
    (l.scope t).Resolves t := by
  have hfound : List.Forall₂ (fun s _ => (∀ x ∈ s.globals.vars, ∃ v, t.variableAt? x = some v) ∧ True)
      l l' := hl.imp fun _ _ hs => ⟨hs.globals.found h, trivial⟩
  exact .lineage ((List.forall₂_and_left _ _).1 hfound).1

theorem ofScript (h : ρ.Tables t t') (ht : t.Coherent) {l l' : Lineage} (hl : l.Renumbered ρ t' l')
    (options : Options) (syntaxErrors : List Diagnostic) (ss : List Surface.Stmt) :
    ρ.Tables (Submission.ofScript options t l syntaxErrors ss).2
        (Submission.ofScript options t' l' syntaxErrors ss).2 ∧
      (Submission.ofScript options t l syntaxErrors ss).2.Coherent ∧
      (Submission.ofScript options t l syntaxErrors ss).1.Renumbered ρ
        (Submission.ofScript options t' l' syntaxErrors ss).2
        (Submission.ofScript options t' l' syntaxErrors ss).1 := by
  let g : Globals := (Scripting.checkGlobals options t (l.scope t) ss).1
  let t₁ : SymbolTable := (Scripting.checkGlobals options t (l.scope t) ss).2
  let g' : Globals := (Scripting.checkGlobals options t' (l'.scope t') ss).1
  let t₁' : SymbolTable := (Scripting.checkGlobals options t' (l'.scope t') ss).2
  have hext' : t'.Extends t₁' := extends_checkGlobals options t' (l'.scope t') ss
  obtain ⟨htables, hcoherent, hglobals⟩ :
      ρ.Tables t₁ t₁' ∧ t₁.Coherent ∧ g.Renumbered ρ t₁' g' := by
    have hglobals := h.checkGlobals ht (h.resolves_scope hl) options ss
    rwa [← h.scope_eq hl] at hglobals
  have hl₁ : l.Renumbered ρ t₁' l' := hl.imp fun _ _ hs => hs.mono hext'
  have hparent : (g.extend t₁ (l.scope t₁)).Resolves t₁ :=
    (htables.resolves_scope hl₁).extend (hglobals.found htables)
  have hscope : g'.extend t₁' (l'.scope t₁') = (g.extend t₁ (l.scope t₁)).renumber ρ := by
    rw [htables.scope_eq hl₁]
    exact htables.scope_extend hglobals.funcs hglobals.vars _
  have hwritten : ∀ f ∈ g.funcs, ∃ a d, t₁.functionAt? f = some a ∧ a.declaration? = some d := by
    intro f hf
    obtain ⟨a, d, ha, hd, -⟩ := written_checkGlobals options t (l.scope t) ss f hf
    exact ⟨a, d, ha, hd⟩
  have hbodies := htables.checkBodies hcoherent hparent options hwritten (.refl _)
  rw [← hscope, ← hglobals.funcs] at hbodies
  obtain ⟨htables₂, hcoherent₂, hbodies, hproblems⟩ := hbodies
  have hglobals₂ := hglobals.mono (extends_checkBodies options (g'.extend t₁' (l'.scope t₁')) t₁' g'.funcs)
  exact ⟨htables₂, hcoherent₂, rfl, hglobals₂, hbodies, hproblems, hglobals₂.statements.lower⟩

theorem compile (h : ρ.Tables t t') (ht : t.Coherent) {l l' : Lineage} (hl : l.Renumbered ρ t' l')
    (options : Options) (source file : String) :
    ρ.Tables (compile options t l source file).2 (compile options t' l' source file).2 ∧
      (Scripting.compile options t l source file).2.Coherent ∧
      (Scripting.compile options t l source file).1.Renumbered ρ
        (Scripting.compile options t' l' source file).2 (Scripting.compile options t' l' source file).1 := by
  unfold Scripting.compile
  cases Surface.Script.ofSource source file with
  | ok script => exact h.ofScript ht hl options [] script.body
  | error e => exact h.ofScript ht hl options [e.toDiagnostic] []

end Renumbering.Tables

/-! ## Handles of symbols -/

/-- The handles of the submission are those of symbols in the table, with the types that its code
carries for them. -/
abbrev Submission.Resolved (t : SymbolTable) (s : Submission) : Prop := s.Renumbered .identity t s

/-- The handles of all submissions of the lineage are those of symbols. -/
def Lineage.Resolved (t : SymbolTable) (l : Lineage) : Prop := ∀ s ∈ l, s.Resolved t

theorem Lineage.Resolved.mono {l : Lineage} (h : l.Resolved t) (hext : t.Extends t') : l.Resolved t' :=
  fun s hs => (h s hs).mono hext

/-- Whatever is reported about it, the handles of a submission are those of symbols. -/
theorem Lineage.Resolved.ofScript {l : Lineage} (h : l.Resolved t) (ht : t.Coherent) (options : Options)
    (syntaxErrors : List Diagnostic) (ss : List Surface.Stmt) :
    (Submission.ofScript options t l syntaxErrors ss).2.Coherent ∧
      Lineage.Resolved (Submission.ofScript options t l syntaxErrors ss).2
        ((Submission.ofScript options t l syntaxErrors ss).1 :: l) := by
  obtain ⟨-, hcoherent, hnew⟩ := (Renumbering.tables_identity t).ofScript ht (List.forall₂_same.2 h)
    options syntaxErrors ss
  exact ⟨hcoherent, List.forall_mem_cons.2 ⟨hnew, h.mono (extends_ofScript options t l syntaxErrors ss)⟩⟩

theorem Lineage.Resolved.compile {l : Lineage} (h : l.Resolved t) (ht : t.Coherent) (options : Options)
    (source file : String) :
    (compile options t l source file).2.Coherent ∧
      Lineage.Resolved (Scripting.compile options t l source file).2
        ((Scripting.compile options t l source file).1 :: l) := by
  unfold Scripting.compile
  cases Surface.Script.ofSource source file with
  | ok script => exact h.ofScript ht options [] script.body
  | error e => exact h.ofScript ht options [e.toDiagnostic] []

/-! ### Symbols added by others -/

theorem Renumbering.handles_past (hext : t.Extends t') :
    (identity.handles t).Le ((past t t').handles t') where
  vars := by
    rintro x x' τ ⟨rfl, v, hv, hτ⟩
    exact ⟨(past_vars_of_found hv).symm, v, hext.vars _ _ hv, hτ⟩
  funcs := by
    rintro f f' τ ⟨rfl, a, ha, hτ⟩
    exact ⟨(past_funcs_of_found ha).symm, a, hext.funcs _ _ ha, hτ⟩

theorem Globals.Renumbered.past {g : Globals} (h : g.Renumbered .identity t g) (hext : t.Extends t') :
    g.Renumbered (.past t t') t' g where
  funcs := by
    refine (List.map_id' _).symm.trans (List.map_congr_left fun f hf => ?_)
    obtain ⟨a, ha⟩ := h.foundFuncs f hf
    exact (Renumbering.past_funcs_of_found ha).symm
  vars := by
    refine (List.map_id' _).symm.trans (List.map_congr_left fun x hx => ?_)
    obtain ⟨v, hv⟩ := h.foundVars x hx
    exact (Renumbering.past_vars_of_found hv).symm
  foundFuncs f hf := (h.foundFuncs f hf).imp fun a ha => hext.funcs f a ha
  foundVars x hx := (h.foundVars x hx).imp fun v hv => hext.vars x v hv
  statements := h.statements.mono (Renumbering.handles_past hext)
  diagnostics := rfl

/-- Handles of symbols stay, whatever is added behind them. -/
theorem Submission.Resolved.past {s : Submission} (h : s.Resolved t) (hext : t.Extends t') :
    s.Renumbered (.past t t') t' s where
  syntaxErrors := rfl
  globals := h.globals.past hext
  bodies := by
    refine h.bodies.imp fun b b' hb => ?_
    obtain ⟨hf, ⟨a, ha⟩, hcode⟩ := hb
    have hf' : b.1 = b'.1 := hf.symm
    exact ⟨hf.trans (hf' ▸ Renumbering.past_funcs_of_found ha).symm, ⟨a, hext.funcs _ _ ha⟩,
      hcode.mono (Renumbering.handles_past hext)⟩
  bodyDiagnostics := rfl
  main := h.main.mono (Renumbering.handles_past hext)

/-! ## Sessions -/

namespace Session

variable {S S' : Session}

structure Resolved (S : Session) : Prop where
  coherent : S.symbols.Coherent
  lineages : ∀ l ∈ S.lineages, l.Resolved S.symbols

theorem Resolved.base (h : S.Resolved) {base : Lineage} (hbase : base = [] ∨ base ∈ S.lineages) :
    base.Resolved S.symbols := by
  rcases hbase with rfl | hbase
  · exact List.forall_mem_nil _
  · exact h.lineages base hbase

theorem Resolved.submit (h : S.Resolved) {base : Lineage} (hbase : base = [] ∨ base ∈ S.lineages)
    (options : Options) (source file : String) : (S.submit base options source file).Resolved := by
  obtain ⟨hcoherent, hnew⟩ := (h.base hbase).compile h.coherent options source file
  refine ⟨hcoherent, List.forall_mem_cons.2 ⟨hnew, fun l hl => ?_⟩⟩
  exact (h.lineages l hl).mono (extends_compile options S.symbols base source file)

theorem Reachable.resolved (h : S.Reachable) : S.Resolved := by
  induction h with
  | refl => exact ⟨.initial, List.forall_mem_nil _⟩
  | tail _ hstep ih =>
    cases hstep with
    | submit base hbase options source file => exact ih.submit hbase options source file
    | run => exact ⟨ih.coherent, ih.lineages⟩

end Session

end Scripting
