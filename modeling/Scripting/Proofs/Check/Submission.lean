import Scripting.Proofs.Check.Signatures
import Scripting.Proofs.Typing.Safety

/-!
# Checked scripts

If nothing is reported about a script, its global code and the bodies of its functions are well typed,
every function it declares has a body, and the names it leaves behind can be used by those that build
on it.
-/

namespace Scripting

open Typed (Instr)

variable {Γ : Context} {g? : Option FunctionSymbol} {options : Options} {symbols : SymbolTable}
  {parent : Scope}

/-! ## Global code -/

theorem Checker.Ready.of_scope {callable : FuncId → Prop} (h : parent.Fits ⟨symbols, callable⟩ none)
    (options : Options) : (Checker.start symbols options parent none).Ready callable none :=
  ⟨h.push, nofun, fun _ => rfl, nofun⟩

theorem extends_checkGlobals (options : Options) (symbols : SymbolTable) (parent : Scope)
    (ss : List Surface.Stmt) : symbols.Extends (checkGlobals options symbols parent ss).2 := by
  have henters := Checking.enters_signatures (List.Subset.refl ss) (.start symbols options parent none)
  have hyields : Checking.Yields ⟨symbols, fun _ => True⟩ none _ True _ _ _ :=
    Checking.yields_globals options symbols parent ss
  exact henters.symbols.trans hyields.follows.symbols

theorem written_checkGlobals (options : Options) (symbols : SymbolTable) (parent : Scope)
    (ss : List Surface.Stmt) :
    ∀ f ∈ (checkGlobals options symbols parent ss).1.funcs, ∃ a d,
      (checkGlobals options symbols parent ss).2.functionAt? f = some a ∧ a.declaration? = some d ∧
        a.builtin? = none ∧ .function d.head d.body ∈ ss := by
  have henters := Checking.enters_signatures (List.Subset.refl ss) (.start symbols options parent none)
  have hyields : Checking.Yields ⟨symbols, fun _ => True⟩ none _ True _ _ _ :=
    Checking.yields_globals options symbols parent ss
  exact (henters.written fun f hf => nomatch hf).mono hyields.follows.symbols hyields.follows.funcs

/-- What the global code of a script declares can be used, and what it does is well typed. -/
structure Globals.Sound (Γ : Context) (t : SymbolTable) (g : Globals) : Prop where
  vars : ∀ x ∈ g.vars, ∃ v, Context.Usable ⟨t, Γ.callable⟩ none x v
  funcs : ∀ f ∈ g.funcs, ∃ a, Context.Callable ⟨t, Γ.callable⟩ f a
  statements : (Typed.Stmt.block g.statements).Scoped (Instr.WellTyped Γ none) []

theorem sound_checkGlobals {ss : List Surface.Stmt} {g : Globals} {t : SymbolTable}
    (hcheck : checkGlobals options symbols parent ss = (g, t)) (hclean : g.diagnostics = [])
    (hparent : parent.Fits ⟨symbols, Γ.callable⟩ none) (hext : t.Extends Γ.symbols)
    (hfuncs : ∀ f ∈ g.funcs, Γ.callable f) : g.Sound Γ t := by
  cases hcheck
  let c : Checker := .start symbols options parent none
  let c₁ : Checker := (Checking.signatures ss c).2
  let c₂ : Checker := (Checking.stmts (ss.filter fun s => !s.isFunction) c₁).2
  have henters : c.Enters ss c₁ := Checking.enters_signatures (List.Subset.refl ss) c
  have hyields : Checking.Yields Γ none c₁ True _ _ _ :=
    Checking.yields_globals options symbols parent ss
  have hfollows : c₁.Follows c₂ := hyields.follows
  -- While signatures are entered, every function counts as callable.
  have hall : parent.Fits ⟨symbols, fun _ => True⟩ none := hparent.mono ⟨.refl _, fun _ _ => trivial⟩
  have hready₁ : c₁.Ready (fun _ => True) none :=
    Checking.ready_signatures ss c (hfollows.diagnostics hclean) (.of_scope hall options)
  have hscope : c₁.scope.Fits ⟨c₁.symbols, Γ.callable⟩ none := by
    refine hready₁.scope.restrict fun l hl d hd o ho => ?_
    rcases List.mem_cons.1 hl with rfl | hl
    · refine hfuncs _ (List.mem_flatMap.2 ⟨d, ?_, List.mem_map.2 ⟨o, ho, rfl⟩⟩)
      exact hfollows.funcs ▸ hd
    · have houter : c₁.scope.outer = parent.layers := henters.outer
      rw [houter] at hl
      obtain ⟨s, hs, -⟩ := hparent.funcs l hl d hd o ho
      exact hs.callable
  obtain ⟨hready₂, hstatements⟩ := hyields.sound ⟨hclean, hext⟩
    ⟨hscope, hready₁.depth, hready₁.global, hready₁.body⟩ trivial
  refine ⟨fun x hx => ?_, fun f hf => ?_, hstatements⟩
  · obtain ⟨d, hd, rfl⟩ := List.mem_map.1 hx
    exact hready₂.scope.vars c₂.scope.inner List.mem_cons_self d hd
  · obtain ⟨d, hd, hf⟩ := List.mem_flatMap.1 hf
    obtain ⟨o, ho, rfl⟩ := List.mem_map.1 hf
    obtain ⟨a, ha, -⟩ := hready₂.scope.funcs c₂.scope.inner List.mem_cons_self d hd o ho
    exact ⟨a, ha⟩

/-! ## Scopes of submissions -/

theorem Scope.Fits.addVariable {s : Scope} (h : s.Fits Γ g?) {t : SymbolTable} {x : VarId}
    {v : VariableSymbol} (hx : Γ.Usable g? x v) : (s.addVariable t x).Fits Γ g? := by
  unfold Scope.addVariable
  cases hs : s.declareVariable? (t.variableName x) x with
  | none => exact h
  | some s' => exact h.declareVariable? hs hx

theorem Scope.Fits.addFunction {s : Scope} (h : s.Fits Γ g?) {f : FuncId} {a : FunctionSymbol}
    (hf : Γ.Callable f a) : (s.addFunction Γ.symbols f).Fits Γ g? := by
  unfold Scope.addFunction
  rw [hf.found]
  cases hs : s.declareFunction? a f with
  | none => simpa [hs] using h
  | some s' => simpa [hs] using h.declareFunction? hs hf

theorem Scope.Fits.foldl {α : Type} {add : Scope → α → Scope} {list : List α} {s : Scope}
    (hadd : ∀ s, s.Fits Γ g? → ∀ a ∈ list, (add s a).Fits Γ g?) (hs : s.Fits Γ g?) :
    (list.foldl add s).Fits Γ g? := by
  induction list generalizing s with
  | nil => exact hs
  | cons a list ih =>
    obtain ⟨ha, hlist⟩ := List.forall_mem_cons.1 fun b hb s hs => hadd s hs b hb
    exact ih (fun s hs b hb => hlist b hb s hs) (ha s hs)

theorem Scope.Fits.extend {s : Scope} (h : s.Fits Γ none) {g : Globals}
    (hvars : ∀ x ∈ g.vars, ∃ v, Γ.Usable none x v) (hfuncs : ∀ f ∈ g.funcs, ∃ a, Γ.Callable f a) :
    (g.extend Γ.symbols s).Fits Γ none := by
  unfold Globals.extend
  refine Scope.Fits.foldl (fun s hs x hx => ?_) (Scope.Fits.foldl (fun s hs f hf => ?_) h.push)
  · obtain ⟨v, hv⟩ := hvars x hx
    exact hs.addVariable hv
  · obtain ⟨a, ha⟩ := hfuncs f hf
    exact hs.addFunction ha

/-! ## Bodies -/

theorem Context.Usable.inBody {x : VarId} {v : VariableSymbol} (h : Γ.Usable none x v) :
    Γ.Usable g? x v := by
  have hglobal : v.kind = .global := by
    by_contra hk
    exact h.inCall hk rfl
  exact ⟨h.found, h.value, fun hk => absurd hglobal hk, fun hk => nomatch hk.symm.trans hglobal⟩

theorem Scope.Fits.inBody {s : Scope} (h : s.Fits Γ none) : s.Fits Γ g? := by
  refine ⟨fun l hl d hd => ?_, h.funcs⟩
  obtain ⟨v, hv⟩ := h.vars l hl d hd
  exact ⟨v, hv.inBody⟩

/-- The parameters of a function are in scope in its body. -/
theorem Scope.Fits.declareParameters {s : Scope} {a : FunctionSymbol} (h : s.Fits Γ (some a))
    (ha : a.Sound Γ.symbols) : (Checker.declareParameters s a.parameters).Fits Γ (some a) := by
  unfold Checker.declareParameters
  refine Scope.Fits.foldl (fun s hs p hp => ?_) h
  cases hdeclared : s.declareVariable? p.name p.target with
  | none => exact hs
  | some s' =>
    obtain ⟨hfound, hvalue⟩ := ha.parameters p hp
    refine hs.declareVariable? hdeclared ⟨hfound, hvalue, nofun, fun _ g hg => ?_⟩
    cases hg
    exact ⟨p, hp, rfl⟩

theorem Checker.Ready.of_body {callable : FuncId → Prop} (h : parent.Fits ⟨symbols, callable⟩ none)
    {f : FuncId} {a : FunctionSymbol} (hf : symbols.functionAt? f = some a) (ha : a.Sound symbols)
    (options : Options) : (Checker.start symbols options parent (some f)).Ready callable (some a) := by
  refine ⟨?_, nofun, nofun, fun g hg => ?_⟩
  · have hscope : (Checker.start symbols options parent (some f)).scope =
        Checker.declareParameters parent.push a.parameters := by
      unfold Checker.start
      rw [Option.bind_some, hf]
    rw [hscope]
    exact h.push.inBody.declareParameters ha
  · cases hg
    exact ⟨f, rfl, hf, ha.returns⟩

theorem extends_checkBody (options : Options) (symbols : SymbolTable) (parent : Scope) (f : FuncId)
    (returns : Ty) (d : Declaration) :
    symbols.Extends (checkBody options symbols parent f returns d).2.2 := by
  have hyields : Checking.Yields ⟨symbols, fun _ => True⟩ none
      (.start symbols options parent (some f)) True (Checking.block d.body) _ _ :=
    Checking.yields_block d.body _
  exact hyields.follows.symbols

/-- What is reported about a body: the problems of its statements, and a way through it that does not
return. -/
theorem problems_checkBody (options : Options) (symbols : SymbolTable) (parent : Scope) (f : FuncId)
    (returns : Ty) (d : Declaration) :
    (checkBody options symbols parent f returns d).2.1 =
      (Checking.block d.body (.start symbols options parent (some f))).2.diagnostics ++
        if returns.needsReturn &&
            !Typed.Code.allPathsReturn (checkBody options symbols parent f returns d).1 then
          [⟨d.head.name.span, .allPathsMustReturn⟩]
        else [] := rfl

theorem bodyOf_checkBody (hparent : parent.Fits ⟨symbols, Γ.callable⟩ none) {f : FuncId}
    {a : FunctionSymbol} (hf : symbols.functionAt? f = some a) (ha : a.Sound symbols) {d : Declaration}
    (hclean : (checkBody options symbols parent f a.returns d).2.1 = [])
    (hext : (checkBody options symbols parent f a.returns d).2.2.Extends Γ.symbols) :
    Typed.Code.BodyOf Γ a (checkBody options symbols parent f a.returns d).1 := by
  have hyields : Checking.Yields Γ (some a) (.start symbols options parent (some f)) True
      (Checking.block d.body) _ _ := Checking.yields_block d.body _
  rw [problems_checkBody] at hclean
  obtain ⟨hdiagnostics, hmissing⟩ := List.append_eq_nil_iff.1 hclean
  obtain ⟨-, htyped⟩ := hyields.sound ⟨hdiagnostics, hext⟩ (.of_body hparent hf ha options) trivial
  have hclosed := Typed.Stmt.Scoped.closed_lowerBody htyped a.returns
  refine ⟨htyped.wellTyped_lowerBody, hclosed, fun hvoid => ?_⟩
  have hneeds : a.returns.needsReturn = true := by simp [Ty.needsReturn, hvoid, ha.returns]
  by_contra hpaths
  rw [hneeds, Bool.eq_false_of_not_eq_true hpaths] at hmissing
  cases hmissing

theorem extends_checkBodies (options : Options) (parent : Scope) (symbols : SymbolTable)
    (fs : List FuncId) : symbols.Extends (checkBodies options parent symbols fs).2.2 := by
  induction fs generalizing symbols with
  | nil => exact .refl symbols
  | cons f fs ih =>
    unfold checkBodies
    split
    · exact ih symbols
    case h_2 returns d _ => exact (extends_checkBody options symbols parent f returns d).trans (ih _)

theorem checkBodies_cons {f : FuncId} {a : FunctionSymbol} (hf : symbols.functionAt? f = some a)
    {d : Declaration} (hd : a.declaration? = some d) (fs : List FuncId) :
    checkBodies options parent symbols (f :: fs) =
      let body := checkBody options symbols parent f a.returns d
      let rest := checkBodies options parent body.2.2 fs
      ((f, body.1) :: rest.1, body.2.1 ++ rest.2.1, rest.2.2) := by
  have hfound : ((symbols.functionAt? f).bind fun s => s.declaration?.map (s.returns, ·)) =
      some (a.returns, d) := by
    rw [hf, Option.bind_some, hd]
    rfl
  rw [checkBodies, hfound]

/-- A function that was declared in a script has its body among those that are checked. -/
theorem exists_body_checkBodies {fs : List FuncId}
    (hfs : ∀ f ∈ fs, ∃ a d, symbols.functionAt? f = some a ∧ a.declaration? = some d) :
    ∀ f ∈ fs, ∃ code, (f, code) ∈ (checkBodies options parent symbols fs).1 := by
  induction fs generalizing symbols with
  | nil => exact nofun
  | cons f fs ih =>
    obtain ⟨⟨a, d, hf, hd⟩, hfs⟩ := List.forall_mem_cons.1 hfs
    have hgrown := extends_checkBody options symbols parent f a.returns d
    have hrest : ∀ g ∈ fs, ∃ b e,
        (checkBody options symbols parent f a.returns d).2.2.functionAt? g = some b ∧
          b.declaration? = some e := by
      intro g hg
      obtain ⟨b, e, hg, he⟩ := hfs g hg
      exact ⟨b, e, hgrown.funcs g b hg, he⟩
    rw [checkBodies_cons hf hd]
    refine List.forall_mem_cons.2 ⟨⟨_, List.mem_cons_self⟩, fun g hg => ?_⟩
    obtain ⟨code, hcode⟩ := ih hrest g hg
    exact ⟨code, List.mem_cons_of_mem _ hcode⟩

theorem bodyOf_checkBodies (hparent : parent.Fits ⟨symbols, Γ.callable⟩ none) {fs : List FuncId}
    (hfs : ∀ f ∈ fs, ∃ a d, symbols.functionAt? f = some a ∧ a.declaration? = some d ∧ a.Sound symbols)
    (hclean : (checkBodies options parent symbols fs).2.1 = [])
    (hext : (checkBodies options parent symbols fs).2.2.Extends Γ.symbols) :
    ∀ b ∈ (checkBodies options parent symbols fs).1,
      ∃ a, Γ.symbols.functionAt? b.1 = some a ∧ Typed.Code.BodyOf Γ a b.2 := by
  induction fs generalizing symbols with
  | nil => exact nofun
  | cons f fs ih =>
    obtain ⟨⟨a, d, hf, hd, ha⟩, hfs⟩ := List.forall_mem_cons.1 hfs
    rw [checkBodies_cons hf hd] at hclean hext ⊢
    obtain ⟨hproblems, hmore⟩ := List.append_eq_nil_iff.1 hclean
    have hgrown := extends_checkBody options symbols parent f a.returns d
    have hrest : (checkBody options symbols parent f a.returns d).2.2.Extends Γ.symbols :=
      (extends_checkBodies options parent _ fs).trans hext
    refine List.forall_mem_cons.2 ⟨⟨a, (hgrown.trans hrest).funcs f a hf, ?_⟩, ?_⟩
    · exact bodyOf_checkBody hparent hf ha hproblems hrest
    · refine ih (hparent.mono ⟨hgrown, fun _ => id⟩) (fun g hg => ?_) hmore hext
      obtain ⟨b, e, hg, he, hb⟩ := hfs g hg
      exact ⟨b, e, hgrown.funcs g b hg, he, hb.mono hgrown⟩

end Scripting
