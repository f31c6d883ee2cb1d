import Scripting.Proofs.Check.Context
import Scripting.Proofs.Check.Submission

/-!
# Where problems are reported

A check reports problems only at the spans of nodes of what is checked. The bodies of functions are
checked from the table of symbols; that they are bodies of this very script is known from how its
signatures were entered (`written_checkGlobals`).
-/

namespace Scripting

open Surface (Node)

variable {α : Type} {W : Span → Prop}

namespace Checking

/-- The step adds diagnostics at places of the given kind only. -/
def Sited (W : Span → Prop) (step : Checking α) : Prop :=
  ∀ c : Checker, (∀ d ∈ c.diagnostics, W d.span) → ∀ d ∈ (step c).2.diagnostics, W d.span

theorem sited_report {span : Span} (h : W span) (problem : Problem) : Sited W (report span problem) := by
  intro c hc d hd
  rcases List.mem_append.1 hd with hd | hd
  · exact hc d hd
  · rw [List.mem_singleton.1 hd]
    exact h

theorem sited_nested {span : Span} (hspan : W span) {standIn : α} {step : Checking α}
    (h : Sited W step) : Sited W (nested span standIn step) := by
  intro c hc
  rw [nested_apply]
  by_cases hlimit : c.depth < c.options.maxDepth
  · rw [enter_of_lt hlimit, if_pos rfl]
    exact h { c with depth := c.depth + 1 } hc
  · rw [enter_of_not_lt hlimit, if_neg Bool.false_ne_true]
    dsimp only
    split
    · exact hc
    · exact sited_report hspan _ { c with depthReported := true } hc

theorem sited_declareVariable (name : String) {span : Span} (h : W span) (readOnly : Bool) (type : Ty) :
    Sited W (declareVariable name span readOnly type) := by
  intro c hc
  cases hscope : c.scope.declareVariable? name
      (c.symbols.addVariable (c.declared name type readOnly)).1 with
  | some scope =>
    rw [declareVariable_of_some hscope]
    exact hc
  | none =>
    rw [declareVariable_of_none hscope]
    exact sited_report h _ _ hc

theorem composes_sited (W : Span → Prop) : Composes W fun _ => Sited W where
  pure _ _ hc := hc
  bind_of h hR hf c hc := hf _ (hR c) _ (h c hc)
  get hf c hc := hf c c hc
  report h _ := sited_report h _
  nested hspan h := sited_nested hspan h
  inLayer h c hc := h { c with scope := c.scope.push } hc
  inLoop h _ hc := h _ hc
  declareVariable h := sited_declareVariable _ h _ _
  addVariable _ hf _ hc := hf _ _ hc

theorem sited_declareFunction {span : Span} (h : W span) (a : FunctionSymbol) :
    Sited W (declareFunction span a) := by
  intro c hc
  rcases declareFunction_cases span a c with ⟨scope, -, hstate⟩ | ⟨problem, hstate⟩
  · rw [hstate]
    exact hc
  · rw [hstate]
    exact sited_report h problem _ hc

end Checking

/-! ## Scripts -/

/-- The problems of global code are at nodes of the script. -/
theorem sited_checkGlobals (options : Options) (symbols : SymbolTable) (parent : Scope)
    {ss : List Surface.Stmt} (h : ∀ s ∈ ss, (Node.stmt s).Everywhere W) :
    ∀ p ∈ (checkGlobals options symbols parent ss).1.diagnostics, W p.span := by
  have hcode : Checking.Sited W (Checking.globalCode ss) :=
    (Checking.composes_sited W).of_globalCode Checking.sited_declareFunction h
  exact hcode (.start symbols options parent none) nofun

theorem sited_checkBody (options : Options) (symbols : SymbolTable) (parent : Scope) (f : FuncId)
    (returns : Ty) {d : Declaration} (h : (Node.stmt (.function d.head d.body)).Everywhere W) :
    ∀ p ∈ (checkBody options symbols parent f returns d).2.1, W p.span := by
  have hname : (Node.name d.head.name).Everywhere W := h.child (.head _)
  have hbody : (Node.body d.body d.head.bodySpan).Everywhere W :=
    h.child (.tail _ (List.mem_append_right _ (List.mem_append_right _ (.head _))))
  have hblock : Checking.Sited W (Checking.block d.body) :=
    (Checking.composes_sited W).of_block fun s hs => hbody.child (List.mem_map_of_mem hs)
  rw [problems_checkBody]
  refine List.forall_mem_append.2 ⟨hblock (.start symbols options parent (some f)) nofun, ?_⟩
  split
  · exact List.forall_mem_singleton.2 hname.span
  · exact nofun

theorem sited_checkBodies (options : Options) (parent : Scope) {symbols : SymbolTable}
    {fs : List FuncId} (h : ∀ f ∈ fs, ∃ a d, symbols.functionAt? f = some a ∧ a.declaration? = some d ∧
      (Node.stmt (.function d.head d.body)).Everywhere W) :
    ∀ p ∈ (checkBodies options parent symbols fs).2.1, W p.span := by
  induction fs generalizing symbols with
  | nil => exact nofun
  | cons f fs ih =>
    obtain ⟨⟨a, d, hf, hd, hnode⟩, hfs⟩ := List.forall_mem_cons.1 h
    have hgrown := extends_checkBody options symbols parent f a.returns d
    rw [checkBodies_cons hf hd]
    refine List.forall_mem_append.2 ⟨sited_checkBody options symbols parent f a.returns hnode, ih ?_⟩
    intro g hg
    obtain ⟨b, e, hb, he⟩ := hfs g hg
    exact ⟨b, e, hgrown.funcs g b hb, he⟩

/-- Whatever is wrong with a script beyond its syntax is reported at one of its nodes. -/
theorem sited_ofScript (options : Options) (symbols : SymbolTable) (earlier : Lineage)
    {errors : List Diagnostic} (herrors : ∀ p ∈ errors, W p.span) {ss : List Surface.Stmt}
    (h : ∀ s ∈ ss, (Node.stmt s).Everywhere W) :
    ∀ p ∈ (Submission.ofScript options symbols earlier errors ss).1.diagnostics, W p.span := by
  have hglobals := sited_checkGlobals options symbols (earlier.scope symbols) h
  have hwritten := written_checkGlobals options symbols (earlier.scope symbols) ss
  refine List.forall_mem_append.2 ⟨List.forall_mem_append.2 ⟨herrors, hglobals⟩, ?_⟩
  refine sited_checkBodies options _ fun f hf => ?_
  obtain ⟨a, d, ha, hd, -, hmem⟩ := hwritten f hf
  exact ⟨a, d, ha, hd, h _ hmem⟩

end Scripting
