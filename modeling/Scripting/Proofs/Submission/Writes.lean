import Scripting.Proofs.Check.Writes
import Scripting.Proofs.Lowering.Value
import Scripting.Proofs.Submission.Labels

/-!
# Writes of submissions

What the code of the submissions in a session writes. Function bodies declare local variables, global code
declares global ones, and over the whole session no variable is declared twice, since every declaration
adds a symbol of its own. If nothing was reported about a submission, it assigns only variables that may be
assigned.
-/

namespace Scripting

open Typed (Write)

variable {t t₁ t₂ T : SymbolTable} {options : Options} {parent : Scope} {xs ys : List VarId}

/-! ## Symbols that are added -/

/-- The variables are among those that the second table adds to the first, in the order of their handles. -/
structure SymbolTable.Adds (t t' : SymbolTable) (xs : List VarId) : Prop where
  sorted : xs.Pairwise fun x y => x.index < y.index
  fresh : ∀ x ∈ xs, t.vars.size ≤ x.index
  below : ∀ x ∈ xs, x.index < t'.vars.size

namespace SymbolTable.Adds

theorem nil : t.Adds t₁ [] := ⟨.nil, List.forall_mem_nil _, List.forall_mem_nil _⟩

theorem append (h : t.Adds t₁ xs) (h' : t₁.Adds t₂ ys) (hext : t.Extends t₁) (hext' : t₁.Extends t₂) :
    t.Adds t₂ (xs ++ ys) where
  sorted := List.pairwise_append.2
    ⟨h.sorted, h'.sorted, fun x hx y hy => Nat.lt_of_lt_of_le (h.below x hx) (h'.fresh y hy)⟩
  fresh := List.forall_mem_append.2
    ⟨h.fresh, fun x hx => Nat.le_trans hext.vars_size_le (h'.fresh x hx)⟩
  below := List.forall_mem_append.2
    ⟨fun x hx => Nat.lt_of_lt_of_le (h.below x hx) hext'.vars_size_le, h'.below⟩

theorem of_extends (hext : t.Extends t₁) (h : t₁.Adds t₂ xs) : t.Adds t₂ xs :=
  ⟨h.sorted, fun x hx => Nat.le_trans hext.vars_size_le (h.fresh x hx), h.below⟩

theorem nodup (h : t.Adds t₁ xs) : xs.Nodup := by
  refine h.sorted.imp fun {x y} hlt heq => ?_
  subst heq
  exact Nat.lt_irrefl _ hlt

end SymbolTable.Adds

theorem Checker.Declares.adds {c c' : Checker} (h : c.Declares c' xs) : c.symbols.Adds c'.symbols xs :=
  ⟨h.sorted, h.fresh, h.lt_size⟩

/-- The variables that code declares, one for each declaration in it. -/
def Typed.Code.declared (code : Typed.Code) : List VarId := code.writes.filterMap Write.declared?

theorem Typed.Code.mem_declared {code : Typed.Code} {x : VarId} :
    x ∈ code.declared ↔ .declaration x ∈ code.writes := by
  unfold declared
  rw [List.mem_filterMap]
  constructor
  · rintro ⟨u, hu, hx⟩
    cases u with
    | declaration y =>
      cases hx
      exact hu
    | assignment y => cases hx
  · exact fun h => ⟨_, h, rfl⟩

/-! ## Global code -/

theorem declares_checkGlobals (ht : t.Coherent) (hparent : parent.Resolves t) (options : Options)
    (ss : List Surface.Stmt) :
    let r := checkGlobals options t parent ss
    let ws := Typed.Stmt.writesList r.1.statements
    t.Adds r.2 (ws.filterMap Write.declared?) ∧
      (∀ x, .declaration x ∈ ws → ∃ v, r.2.variableAt? x = some v ∧ v.kind = .global) ∧
      (r.1.diagnostics = [] → ∀ u ∈ ws, u.Allowed r.2) ∧
      ∀ x ∈ r.1.vars, ∃ v, r.2.variableAt? x = some v := by
  intro r ws
  let c : Checker := .start t options parent none
  let c₁ : Checker := (Checking.signatures ss c).2
  have hstart := Renumbering.Matches.start (Renumbering.tables_identity t) ht hparent options none
  have hresolves : c₁.scope.Resolves c₁.symbols := (hstart.signatures ss).resolves
  have henters : c.Enters ss c₁ := Checking.enters_signatures (List.Subset.refl ss) c
  have hkind : c₁.declaredKind = .global := by
    unfold Checker.declaredKind
    rw [show c₁.function? = none from Checking.function?_signatures ss c]
    rfl
  have hbinds := Checking.binds_stmts (T := r.2) (ss.filter fun s => !s.isFunction) []
  have hdeclares : c₁.Declares _ (ws.filterMap Write.declared?) := hbinds.declares c₁ c₁ (.nil c₁)
  refine ⟨.of_extends henters.symbols hdeclares.adds, fun x hx => ?_, fun hclean => ?_, fun x hx => ?_⟩
  · rw [← hkind]
    exact hdeclares.found x (List.mem_filterMap.2 ⟨_, hx, rfl⟩)
  · exact hbinds.holds c₁ hresolves hclean (.refl _)
  · exact (hbinds.resolves c₁ hresolves).exists_of_mem_vars hx

/-! ## Bodies -/

/-- The statement was made by checking a body of the function, and the code by lowering it. -/
def BoundBody (f : FuncId) (body : Typed.Stmt) (code : Typed.Code) : Prop :=
  ∃ (options : Options) (t : SymbolTable) (parent : Scope) (d : Declaration) (returns : Ty),
    body = (Checking.block d.body (.start t options parent (some f))).1 ∧ code = body.lowerBody returns

/-- What the code of a function writes: it declares local variables, and if nothing was reported, it
assigns variables that may be assigned. -/
structure BodyWrites (T : SymbolTable) (clean : Prop) (f : FuncId) (code : Typed.Code) : Prop where
  bound : ∃ body, BoundBody f body code
  declared : ∀ x, .declaration x ∈ code.writes → ∃ v, T.variableAt? x = some v ∧ v.kind = .local_
  allowed : clean → ∀ u ∈ code.writes, u.Allowed T

theorem Typed.Write.Allowed.mono {u : Write} (h : u.Allowed t) (hext : t.Extends T) : u.Allowed T := by
  cases u with
  | declaration x => trivial
  | assignment x =>
    obtain ⟨v, hv, hreadOnly⟩ := h
    exact ⟨v, hext.vars _ _ hv, hreadOnly⟩

theorem BodyWrites.mono {clean clean' : Prop} {f : FuncId} {code : Typed.Code}
    (h : BodyWrites t clean f code) (hext : t.Extends T) (hclean : clean' → clean) :
    BodyWrites T clean' f code where
  bound := h.bound
  declared x hx := by
    obtain ⟨v, hv, hkind⟩ := h.declared x hx
    exact ⟨v, hext.vars _ _ hv, hkind⟩
  allowed hc u hu := (h.allowed (hclean hc) u hu).mono hext

theorem coherent_checkBody (ht : t.Coherent) (hparent : parent.Resolves t) (options : Options) (f : FuncId)
    (returns : Ty) (d : Declaration) : (checkBody options t parent f returns d).2.2.Coherent :=
  ((Renumbering.tables_identity t).checkBody ht hparent options f returns d (.refl _)).2.1

theorem writes_checkBody (ht : t.Coherent) (hparent : parent.Resolves t) (options : Options) (f : FuncId)
    (returns : Ty) (d : Declaration) :
    let r := checkBody options t parent f returns d
    t.Adds r.2.2 r.1.declared ∧ BodyWrites r.2.2 (r.2.1 = []) f r.1 := by
  intro r
  let c : Checker := .start t options parent (some f)
  let body : Typed.Stmt := (Checking.block d.body c).1
  have hresolves : c.scope.Resolves c.symbols :=
    (Renumbering.Matches.start (Renumbering.tables_identity t) ht hparent options (some f)).resolves
  have hwrites : r.1.writes = body.writes := body.writes_lowerBody returns
  have hbinds := Checking.binds_block (T := r.2.2) d.body []
  have hdeclares : c.Declares _ (body.writes.filterMap Write.declared?) := hbinds.declares c c (.nil c)
  rw [← hwrites] at hdeclares
  refine ⟨hdeclares.adds, ⟨body, options, t, parent, d, returns, rfl, rfl⟩, fun x hx => ?_, fun hclean => ?_⟩
  · exact hdeclares.found x (List.mem_filterMap.2 ⟨_, hx, rfl⟩)
  · rw [hwrites]
    exact hbinds.holds c hresolves (List.append_eq_nil_iff.1 hclean).1 (.refl _)

/-- The variables that the functions declare. -/
def declaredIn (bodies : List (FuncId × Typed.Code)) : List VarId := bodies.flatMap fun b => b.2.declared

theorem writes_checkBodies (ht : t.Coherent) (hparent : parent.Resolves t) (options : Options)
    (fs : List FuncId) :
    let r := checkBodies options parent t fs
    t.Adds r.2.2 (declaredIn r.1) ∧ ∀ b ∈ r.1, BodyWrites r.2.2 (r.2.1 = []) b.1 b.2 := by
  induction fs generalizing t with
  | nil => exact ⟨.nil, List.forall_mem_nil _⟩
  | cons f fs ih =>
    unfold checkBodies
    split
    · exact ih ht hparent
    case h_2 returns d _ =>
      have hext := extends_checkBody options t parent f returns d
      have hext' := extends_checkBodies options parent (checkBody options t parent f returns d).2.2 fs
      obtain ⟨hadds, hbody⟩ := writes_checkBody ht hparent options f returns d
      obtain ⟨hmore, hbodies⟩ := ih (coherent_checkBody ht hparent options f returns d) (hparent.mono hext)
      refine ⟨hadds.append hmore hext hext', List.forall_mem_cons.2 ⟨?_, fun b hb => ?_⟩⟩
      · exact hbody.mono hext' fun h => (List.append_eq_nil_iff.1 h).1
      · exact (hbodies b hb).mono (.refl _) fun h => (List.append_eq_nil_iff.1 h).2

/-! ## Submissions -/

/-- The variables that the code of the submission declares, one for each declaration in it. -/
def Submission.declared (s : Submission) : List VarId := s.codes.flatMap Typed.Code.declared

/-- What the code of a submission writes. -/
structure Submission.Disciplined (T : SymbolTable) (s : Submission) : Prop where
  main : s.main.writes = Typed.Stmt.writesList s.globals.statements
  declared : ∀ x, .declaration x ∈ s.main.writes → ∃ v, T.variableAt? x = some v ∧ v.kind = .global
  allowed : s.diagnostics = [] → ∀ u ∈ s.main.writes, u.Allowed T
  bodies : ∀ b ∈ s.bodies, BodyWrites T (s.diagnostics = []) b.1 b.2

theorem Submission.Disciplined.mono {s : Submission} (h : s.Disciplined t) (hext : t.Extends T) :
    s.Disciplined T where
  main := h.main
  declared x hx := by
    obtain ⟨v, hv, hkind⟩ := h.declared x hx
    exact ⟨v, hext.vars _ _ hv, hkind⟩
  allowed hclean u hu := (h.allowed hclean u hu).mono hext
  bodies b hb := (h.bodies b hb).mono hext id

theorem Lineage.Resolved.resolves_scope {l : Lineage} (h : l.Resolved t) : (l.scope t).Resolves t :=
  (Renumbering.tables_identity t).resolves_scope (List.forall₂_same.2 h)

theorem Lineage.Resolved.writes_ofScript {l : Lineage} (h : l.Resolved t) (ht : t.Coherent)
    (options : Options) (syntaxErrors : List Diagnostic) (ss : List Surface.Stmt) :
    let r := Submission.ofScript options t l syntaxErrors ss
    t.Adds r.2 r.1.declared ∧ r.1.Disciplined r.2 := by
  intro r
  let g : Globals := (checkGlobals options t (l.scope t) ss).1
  let t₁ : SymbolTable := (checkGlobals options t (l.scope t) ss).2
  have hext : t.Extends t₁ := extends_checkGlobals options t (l.scope t) ss
  have hext' : t₁.Extends r.2 := extends_checkBodies options (g.extend t₁ (l.scope t₁)) t₁ g.funcs
  obtain ⟨hadds, hkinds, hallowed, hvars⟩ := declares_checkGlobals ht h.resolves_scope options ss
  have ht₁ : t₁.Coherent := ((Renumbering.tables_identity t).checkGlobals ht h.resolves_scope options ss).2.1
  have hparent : (g.extend t₁ (l.scope t₁)).Resolves t₁ := (h.mono hext).resolves_scope.extend hvars
  obtain ⟨hmore, hbodies⟩ := writes_checkBodies ht₁ hparent options g.funcs
  have hmain : r.1.main.writes = Typed.Stmt.writesList g.statements :=
    (Typed.Stmt.block g.statements).writes_lower
  have hdiagnostics : r.1.diagnostics = [] → g.diagnostics = [] ∧ r.1.bodyDiagnostics = [] := by
    intro hclean
    obtain ⟨hglobals, hbody⟩ := List.append_eq_nil_iff.1 hclean
    exact ⟨(List.append_eq_nil_iff.1 hglobals).2, hbody⟩
  have hdeclared : r.1.declared =
      (Typed.Stmt.writesList g.statements).filterMap Write.declared? ++ declaredIn r.1.bodies := by
    unfold Submission.declared Submission.codes
    rw [List.flatMap_cons, List.flatMap_map, Typed.Code.declared, hmain]
    rfl
  refine ⟨?_, hmain, fun x hx => ?_, fun hclean u hu => ?_, fun b hb => ?_⟩
  · rw [hdeclared]
    exact hadds.append hmore hext hext'
  · obtain ⟨v, hv, hkind⟩ := hkinds x (hmain ▸ hx)
    exact ⟨v, hext'.vars _ _ hv, hkind⟩
  · exact (hallowed (hdiagnostics hclean).1 u (hmain ▸ hu)).mono hext'
  · exact (hbodies b hb).mono (.refl _) fun hclean => (hdiagnostics hclean).2

theorem Lineage.Resolved.writes_compile {l : Lineage} (h : l.Resolved t) (ht : t.Coherent)
    (options : Options) (source file : String) :
    let r := Scripting.compile options t l source file
    t.Adds r.2 r.1.declared ∧ r.1.Disciplined r.2 := by
  unfold Scripting.compile
  cases Surface.Script.ofSource source file with
  | ok script => exact h.writes_ofScript ht options [] script.body
  | error e => exact h.writes_ofScript ht options [e.toDiagnostic] []

/-! ## Parameters -/

theorem owned_checkBodies (ht : t.ParametersOwned) (options : Options) (parent : Scope)
    (fs : List FuncId) : (checkBodies options parent t fs).2.2.ParametersOwned := by
  induction fs generalizing t with
  | nil => exact ht
  | cons f fs ih =>
    unfold checkBodies
    split
    · exact ih ht
    case h_2 returns d _ =>
      have hbody : ∀ s ∈ d.body, (Surface.Node.stmt s).Everywhere fun _ => True :=
        fun _ _ => .of_forall fun _ => trivial
      refine ih (t := (checkBody options t parent f returns d).2.2) ?_
      exact Checking.composes_owned.of_block hbody (.start t options parent (some f)) ht

theorem owned_ofScript (ht : t.ParametersOwned) (options : Options) (l : Lineage)
    (syntaxErrors : List Diagnostic) (ss : List Surface.Stmt) :
    (Submission.ofScript options t l syntaxErrors ss).2.ParametersOwned := by
  have hsignatures := Checking.maintains_signatures ss (.start t options (l.scope t) none) ht
  exact owned_checkBodies (Checking.composes_owned.of_stmts (ss.filter fun s => !s.isFunction)
    (fun _ _ => .of_forall fun _ => trivial) _ hsignatures) options _ _

theorem owned_compile (ht : t.ParametersOwned) (options : Options) (l : Lineage)
    (source file : String) : (compile options t l source file).2.ParametersOwned := by
  unfold compile
  cases Surface.Script.ofSource source file with
  | ok script => exact owned_ofScript ht options l [] script.body
  | error e => exact owned_ofScript ht options l [e.toDiagnostic] []

theorem SymbolTable.parametersOwned_initial : SymbolTable.initial.ParametersOwned := by
  have hall : ∀ a ∈ SymbolTable.initial.funcs.toList, (a.parameters.map (·.target)).Nodup ∧
      ∀ p ∈ a.parameters, (SymbolTable.initial.variableAt? p.target).map (fun v => (v.readOnly, v.kind)) =
        some (true, .parameter) := by decide
  intro f a ha
  obtain ⟨hnodup, hparameters⟩ := hall a (Array.mem_toList_iff.2 (Array.mem_of_getElem? ha))
  refine ⟨hnodup, fun p hp => ?_⟩
  obtain ⟨v, hv, hfixed⟩ := Option.map_eq_some_iff.1 (hparameters p hp)
  exact ⟨v, hv, congrArg Prod.fst hfixed, congrArg Prod.snd hfixed⟩

/-! ## Sessions -/

namespace Session

variable {S : Session}

/-- Every submission of the session once, the newest first. -/
def submissions (S : Session) : List Submission := S.lineages.filterMap List.head?

/-- The submissions of the session are those of its lineages, they write what they may, and no variable is
declared twice. -/
structure Disciplined (S : Session) : Prop where
  all : ∀ l ∈ S.lineages, ∀ s ∈ l, s ∈ S.submissions
  submissions : ∀ s ∈ S.submissions, s.Disciplined S.symbols
  nodup : (S.submissions.flatMap Submission.declared).Nodup
  below : ∀ x ∈ S.submissions.flatMap Submission.declared, x.index < S.symbols.vars.size
  parameters : S.symbols.ParametersOwned

theorem Disciplined.submit (h : S.Disciplined) (hS : S.Resolved) {base : Lineage}
    (hbase : base = [] ∨ base ∈ S.lineages) (options : Options) (source file : String) :
    (S.submit base options source file).Disciplined := by
  have hext := extends_compile options S.symbols base source file
  obtain ⟨hadds, hnew⟩ := (hS.base hbase).writes_compile hS.coherent options source file
  have hsubmissions : (S.submit base options source file).submissions =
      (compile options S.symbols base source file).1 :: S.submissions := rfl
  have hfresh : ∀ x ∈ (compile options S.symbols base source file).1.declared,
      x ∉ S.submissions.flatMap Submission.declared :=
    fun x hx hold => Nat.lt_irrefl _ (Nat.lt_of_lt_of_le (h.below x hold) (hadds.fresh x hx))
  have hbelow : ∀ s ∈ base, s ∈ S.submissions := by
    rcases hbase with rfl | hbase
    · exact List.forall_mem_nil _
    · exact h.all base hbase
  refine ⟨?_, ?_, ?_, ?_, owned_compile h.parameters options base source file⟩
  · rw [hsubmissions]
    exact List.forall_mem_cons.2 ⟨List.forall_mem_cons.2
      ⟨List.mem_cons_self, fun s hs => List.mem_cons_of_mem _ (hbelow s hs)⟩,
      fun l hl s hs => List.mem_cons_of_mem _ (h.all l hl s hs)⟩
  · rw [hsubmissions]
    exact List.forall_mem_cons.2 ⟨hnew, fun s hs => (h.submissions s hs).mono hext⟩
  · rw [hsubmissions, List.flatMap_cons]
    exact hadds.nodup.append h.nodup hfresh
  · rw [hsubmissions, List.flatMap_cons]
    exact List.forall_mem_append.2 ⟨hadds.below, fun x hx =>
      Nat.lt_of_lt_of_le (h.below x hx) hext.vars_size_le⟩

theorem Reachable.disciplined (h : S.Reachable) : S.Disciplined := by
  induction h with
  | refl =>
    exact ⟨List.forall_mem_nil _, List.forall_mem_nil _, List.nodup_nil, List.forall_mem_nil _,
      SymbolTable.parametersOwned_initial⟩
  | tail hS hstep ih =>
    cases hstep with
    | submit base hbase options source file =>
      exact ih.submit (Reachable.resolved hS) hbase options source file
    | run => exact ⟨ih.all, ih.submissions, ih.nodup, ih.below, ih.parameters⟩

end Session

end Scripting
