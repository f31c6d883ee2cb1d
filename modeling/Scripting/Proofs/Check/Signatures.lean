import Scripting.Proofs.Check.Stmt
import Scripting.Submission.Check

/-!
# Signatures

Before anything else of a script is checked, the signatures of its functions are entered. This adds
functions to the innermost layer of scope, and nothing else there. Which functions will have a body is
not known yet, so the scope is described as if all had one; `Scope.Fits.restrict` makes up for it.
-/

namespace Scripting

variable {Γ : Context} {g? : Option FunctionSymbol} {c : Checker} {P : Prop} {all : List Surface.Stmt}

theorem Scope.Fits.restrict {s : Scope} {t : SymbolTable} {callable : FuncId → Prop}
    (h : s.Fits ⟨t, fun _ => True⟩ g?)
    (hf : ∀ l ∈ s.layers, ∀ d ∈ l.funcs, ∀ o ∈ d.2, callable o.function) : s.Fits ⟨t, callable⟩ g? := by
  constructor
  · intro l hl d hd
    obtain ⟨v, hv⟩ := h.vars l hl d hd
    exact ⟨v, hv.found, hv.value, hv.inCall, hv.parameter⟩
  · intro l hl d hd o ho
    obtain ⟨f, hfound, htypes⟩ := h.funcs l hl d hd o ho
    exact ⟨f, ⟨hfound.toSound, hfound.found, hf l hl d hd o ho⟩, htypes⟩

theorem Layer.mem_addOverload {name : String} {o : Overload} {fs : List (String × List Overload)}
    {d : String × List Overload} (hd : d ∈ addOverload name o fs) {p : Overload} (hp : p ∈ d.2) :
    p = o ∨ ∃ d' ∈ fs, p ∈ d'.2 := by
  induction fs with
  | nil =>
    obtain rfl := List.mem_singleton.1 hd
    exact .inl (List.mem_singleton.1 hp)
  | cons e fs ih =>
    obtain ⟨n, os⟩ := e
    unfold addOverload at hd
    split at hd
    · rcases List.mem_cons.1 hd with rfl | hd
      · rcases List.mem_append.1 hp with hp | hp
        · exact .inr ⟨(n, os), List.mem_cons_self, hp⟩
        · exact .inl (List.mem_singleton.1 hp)
      · exact .inr ⟨d, List.mem_cons_of_mem _ hd, hp⟩
    · rcases List.mem_cons.1 hd with rfl | hd
      · exact .inr ⟨(n, os), List.mem_cons_self, hp⟩
      · rcases ih hd with hp | ⟨d', hd', hp⟩
        · exact .inl hp
        · exact .inr ⟨d', List.mem_cons_of_mem _ hd', hp⟩

theorem Scope.declareFunction?_eq_some {s s' : Scope} {f : FunctionSymbol} {id : FuncId}
    (h : s.declareFunction? f id = some s') :
    s'.outer = s.outer ∧ s'.inner.vars = s.inner.vars ∧
      s'.inner.funcs = Layer.addOverload f.name ⟨f.types, id⟩ s.inner.funcs := by
  obtain ⟨l, hl, rfl⟩ := Option.map_eq_some_iff.1 h
  unfold Layer.declareFunction? at hl
  split at hl
  · cases hl
  · cases hl
    exact ⟨rfl, rfl, rfl⟩

theorem Scope.Fits.declareFunction? {s s' : Scope} (h : s.Fits Γ g?) {f : FunctionSymbol} {id : FuncId}
    (hs : s.declareFunction? f id = some s') (hf : Γ.Callable id f) : s'.Fits Γ g? := by
  obtain ⟨houter, hvars, hfuncs⟩ := Scope.declareFunction?_eq_some hs
  constructor
  · intro l hl
    rcases List.mem_cons.1 hl with rfl | hl
    · rw [hvars]
      exact h.vars s.inner List.mem_cons_self
    · exact h.vars l (List.mem_cons_of_mem s.inner (houter ▸ hl))
  · intro l hl d hd o ho
    rcases List.mem_cons.1 hl with rfl | hl
    · rw [hfuncs] at hd
      rcases Layer.mem_addOverload hd ho with rfl | ⟨d', hd', ho⟩
      · exact ⟨f, hf, rfl⟩
      · exact h.funcs s.inner List.mem_cons_self d' hd' o ho
    · exact h.funcs l (List.mem_cons_of_mem s.inner (houter ▸ hl)) d hd o ho

namespace Checking

theorem yields_parameters (ps : List Surface.Parameter) (seen : List String) (c : Checker) :
    Yields Γ g? c P (parameters seen ps) (fun _ n => n = c.loopCount) fun qs => ∀ q ∈ qs,
      Γ.symbols.variableAt? q.target = some ⟨q.name, q.type, true, .parameter⟩ ∧ q.type.IsValue := by
  induction ps generalizing seen c P with
  | nil => exact yields_pure rfl fun _ _ _ => nofun
  | cons p ps ih =>
    unfold parameters
    refine (yields_typeOf p.type).bind fun type c₁ _ hn₁ => ?_
    rw [← hn₁]
    split
    · refine (yields_report p.span _).bind fun _ c₂ _ hn₂ => ?_
      rw [← hn₂]
      exact ih seen c₂
    · let v : VariableSymbol := ⟨p.name, type, true, .parameter⟩
      have hext := c₁.symbols.extends_addVariable v
      refine yields_get ?_
      refine yields_after rfl ⟨hext, id, rfl, rfl, rfl⟩ (fun _ hr _ => hr.grow hext) ?_
      refine (ih (p.name :: seen) _).bind fun qs c₂ h₂ hn₂ => yields_pure hn₂ fun hc _ hP => ?_
      refine List.forall_mem_cons.2 ⟨⟨?_, hP.1.2⟩, hP.2⟩
      exact hc.symbols.vars _ _ (h₂.symbols.vars _ _ (c₁.symbols.variableAt?_addVariable v))

theorem yields_returnType (name? : Option Surface.Name) :
    Yields Γ g? c P (returnType name?) (fun _ n => n = c.loopCount) fun t => t ≠ .error := by
  cases name? with
  | none => exact yields_pure rfl fun _ _ _ => nofun
  | some name =>
    show Yields Γ g? c P (if name.text = "void" then return .void else typeOf name) _ _
    by_cases hvoid : name.text = "void"
    · rw [if_pos hvoid]
      exact yields_pure rfl fun _ _ _ => nofun
    · rw [if_neg hvoid]
      exact (yields_typeOf name).imp (fun _ _ => id) (fun _ _ => id) fun _ ht => ht.2

theorem yields_symbolOf (d : Declaration) (c : Checker) :
    Yields Γ g? c P (symbolOf d)
      (fun s n => (s.declaration? = some d ∧ s.builtin? = none) ∧ n = c.loopCount)
      (FunctionSymbol.Sound Γ.symbols) := by
  unfold symbolOf
  refine (yields_parameters d.head.parameters [] c).bind fun ps c₁ _ hn₁ => ?_
  refine (yields_returnType d.head.returns?).bind fun t c₂ _ hn₂ => ?_
  exact yields_pure ⟨⟨rfl, rfl⟩, hn₂.trans hn₁⟩ fun _ _ hP => ⟨hP.2, hP.1.2, nofun⟩

end Checking

namespace Checker

/-- The functions of the innermost layer were declared by the given statements. -/
def Written (all : List Surface.Stmt) (c : Checker) : Prop :=
  ∀ f ∈ c.scope.funcs, ∃ s d, c.symbols.functionAt? f = some s ∧ s.declaration? = some d ∧
    s.builtin? = none ∧ .function d.head d.body ∈ all

theorem Written.mono (h : c.Written all) {c' : Checker} (hsymbols : c.symbols.Extends c'.symbols)
    (hfuncs : c'.scope.inner.funcs = c.scope.inner.funcs) : c'.Written all := by
  intro f hf
  obtain ⟨s, d, hs, hd⟩ := h f (by unfold Scope.funcs at hf ⊢; rwa [← hfuncs])
  exact ⟨s, d, hsymbols.funcs f s hs, hd⟩

/-- What entering signatures of the given statements leaves alone. -/
structure Enters (all : List Surface.Stmt) (c c' : Checker) : Prop where
  symbols : c.symbols.Extends c'.symbols
  diagnostics : c'.diagnostics = [] → c.diagnostics = []
  loops : c'.loops = c.loops
  loopCount : c'.loopCount = c.loopCount
  outer : c'.scope.outer = c.scope.outer
  written : c.Written all → c'.Written all

theorem Enters.refl (c : Checker) : c.Enters all c := ⟨.refl _, id, rfl, rfl, rfl, id⟩

theorem Enters.trans {c₁ c₂ : Checker} (h : c.Enters all c₁) (h' : c₁.Enters all c₂) :
    c.Enters all c₂ where
  symbols := h.symbols.trans h'.symbols
  diagnostics hd := h.diagnostics (h'.diagnostics hd)
  loops := h'.loops.trans h.loops
  loopCount := h'.loopCount.trans h.loopCount
  outer := h'.outer.trans h.outer
  written hw := h'.written (h.written hw)

end Checker

namespace Checking

/-- The function is in the innermost layer afterwards, or something was reported. -/
theorem declareFunction_cases (span : Span) (s : FunctionSymbol) (c : Checker) :
    (∃ scope, c.scope.declareFunction? s (c.symbols.addFunction s).1 = some scope ∧
        (declareFunction span s c).2 =
          { c with symbols := (c.symbols.addFunction s).2, scope := scope }) ∨
      ∃ problem, (declareFunction span s c).2 =
        (report span problem { c with symbols := (c.symbols.addFunction s).2 }).2 := by
  unfold declareFunction
  simp only [get_bind]
  cases c.scope.declareFunction? s (c.symbols.addFunction s).1 with
  | some scope => exact .inl ⟨scope, rfl, rfl⟩
  | none => exact .inr ⟨_, rfl⟩

theorem enters_declareFunction (span : Span) {s : FunctionSymbol} {d : Declaration}
    (hd : s.declaration? = some d) (hb : s.builtin? = none) (hmem : .function d.head d.body ∈ all)
    (c : Checker) : c.Enters all (declareFunction span s c).2 := by
  have hext := c.symbols.extends_addFunction hb
  rcases declareFunction_cases span s c with ⟨scope, hscope, hstate⟩ | ⟨problem, hstate⟩
  · obtain ⟨houter, -, hfuncs⟩ := Scope.declareFunction?_eq_some hscope
    rw [hstate]
    refine ⟨hext, id, rfl, rfl, houter, fun hw f hf => ?_⟩
    obtain ⟨e, he, hf⟩ := List.mem_flatMap.1 hf
    obtain ⟨o, ho, rfl⟩ := List.mem_map.1 hf
    rw [hfuncs] at he
    rcases Layer.mem_addOverload he ho with rfl | ⟨e', he', ho⟩
    · exact ⟨s, d, c.symbols.functionAt?_addFunction s, hd, hb, hmem⟩
    · obtain ⟨s', d', hs', hd'⟩ := hw o.function
        (List.mem_flatMap.2 ⟨e', he', List.mem_map.2 ⟨o, ho, rfl⟩⟩)
      exact ⟨s', d', hext.funcs _ _ hs', hd'⟩
  · rw [hstate]
    exact ⟨hext, fun hd => absurd hd (diagnostics_report span problem _), rfl, rfl, rfl,
      fun hw => hw.mono hext rfl⟩

theorem ready_declareFunction (span : Span) {s : FunctionSymbol} (hb : s.builtin? = none) (c : Checker)
    (hdiagnostics : (declareFunction span s c).2.diagnostics = []) (hs : s.Sound c.symbols)
    (hr : c.Ready (fun _ => True) none) : (declareFunction span s c).2.Ready (fun _ => True) none := by
  have hext := c.symbols.extends_addFunction hb
  rcases declareFunction_cases span s c with ⟨scope, hscope, hstate⟩ | ⟨problem, hstate⟩
  · have hgrown := hr.grow hext
    rw [hstate]
    refine ⟨hgrown.scope.declareFunction? hscope ?_, hgrown.depth, hgrown.global, hgrown.body⟩
    exact ⟨hs.mono hext, c.symbols.functionAt?_addFunction s, trivial⟩
  · rw [hstate] at hdiagnostics
    exact absurd hdiagnostics (diagnostics_report span problem _)

theorem enters_function {d : Declaration} (hmem : .function d.head d.body ∈ all) (c : Checker) :
    c.Enters all (function d c).2 := by
  have hsymbol : Yields ⟨(symbolOf d c).2.symbols, fun _ => True⟩ none c True (symbolOf d) _ _ :=
    yields_symbolOf d c
  obtain ⟨⟨hd, hb⟩, hn⟩ := hsymbol.shape
  have hfirst : c.Enters all (symbolOf d c).2 :=
    ⟨hsymbol.follows.symbols, hsymbol.follows.diagnostics, hsymbol.follows.loops, hn,
      hsymbol.follows.outer, fun hw => hw.mono hsymbol.follows.symbols hsymbol.follows.funcs⟩
  exact hfirst.trans (enters_declareFunction d.head.name.span hd hb hmem _)

theorem ready_function (d : Declaration) (c : Checker) (hdiagnostics : (function d c).2.diagnostics = [])
    (hr : c.Ready (fun _ => True) none) : (function d c).2.Ready (fun _ => True) none := by
  have hsymbol : Yields ⟨(symbolOf d c).2.symbols, fun _ => True⟩ none c True (symbolOf d) _ _ :=
    yields_symbolOf d c
  obtain ⟨⟨hd, hb⟩, -⟩ := hsymbol.shape
  have hbefore := (enters_declareFunction d.head.name.span hd hb (List.mem_singleton_self _)
    (symbolOf d c).2).diagnostics hdiagnostics
  obtain ⟨hr', hs⟩ := hsymbol.sound ⟨hbefore, .refl _⟩ hr trivial
  exact ready_declareFunction d.head.name.span hb _ hdiagnostics hs hr'

theorem enters_signatures {ss : List Surface.Stmt} (hss : ss ⊆ all) (c : Checker) :
    c.Enters all (signatures ss c).2 := by
  induction ss generalizing c with
  | nil => exact .refl c
  | cons s ss ih =>
    obtain ⟨hs, hrest⟩ := List.cons_subset.1 hss
    cases s with
    | function h body => exact (enters_function hs c).trans (ih hrest _)
    | _ => exact ih hrest c

theorem ready_signatures (ss : List Surface.Stmt) (c : Checker)
    (hdiagnostics : (signatures ss c).2.diagnostics = []) (hr : c.Ready (fun _ => True) none) :
    (signatures ss c).2.Ready (fun _ => True) none := by
  induction ss generalizing c with
  | nil => exact hr
  | cons s ss ih =>
    cases s with
    | function h body =>
      have henters := enters_signatures (List.Subset.refl ss) (function ⟨h, body⟩ c).2
      have hbefore := henters.diagnostics hdiagnostics
      exact ih _ hdiagnostics (ready_function ⟨h, body⟩ c hbefore hr)
    | _ => exact ih c hdiagnostics hr

/-- The statements of a script, checked after its signatures, jump nowhere out of it, and their loops
are numbered from the first. -/
theorem yields_globals (options : Options) (symbols : SymbolTable) (parent : Scope)
    (ss : List Surface.Stmt) :
    Yields Γ none (signatures ss (.start symbols options parent none)).2 P
      (stmts (ss.filter fun s => !s.isFunction)) (fun ss' n => Shaped [] 0 (.block ss') n)
      fun ss' => (Typed.Stmt.block ss').Scoped (Typed.Instr.WellTyped Γ none) [] := by
  let c : Checker := .start symbols options parent none
  have henters : c.Enters ss (signatures ss c).2 := enters_signatures (List.Subset.refl ss) c
  have htargets : (signatures ss c).2.targets = [] := by
    unfold Checker.targets
    rw [henters.loops]
    rfl
  have hyields : Yields Γ none (signatures ss c).2 P _ _ _ :=
    yields_stmts (ss.filter fun s => !s.isFunction) _
  rw [htargets, henters.loopCount] at hyields
  exact hyields

end Checking

end Scripting
