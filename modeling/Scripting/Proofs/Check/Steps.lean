import Scripting.Check.State
import Scripting.Proofs.Typing.Rules

/-!
# Steps of a check

A check never stops, so a step is described by two kinds of facts (`Checking.Yields`). Some hold in any
case: what the step leaves alone in the state, and the shape of its result. Others hold only if nothing
was reported: the names in scope stand for symbols that can be used, and the result is well typed. This
module has the rules for sequences and for the steps that other checks are made of.
-/

namespace Scripting

open Typed (Label)

variable {α β : Type} {Γ : Context} {g? : Option FunctionSymbol} {c : Checker}

/-! ## Scopes -/

theorem mem_of_lookup [BEq α] [LawfulBEq α] {l : List (α × β)} {a : α} {b : β}
    (h : l.lookup a = some b) : (a, b) ∈ l := by
  obtain ⟨before, after, heq, -⟩ := List.lookup_eq_some_iff.1 h
  rw [heq]
  exact List.mem_append_right before List.mem_cons_self

theorem Layer.exists_overload {l : Layer} {name : String} {types : List Ty} {f : FuncId}
    (h : l.findFunction? name types = some f) : ∃ d ∈ l.funcs, ⟨types, f⟩ ∈ d.2 := by
  obtain ⟨o, ho, rfl⟩ := Option.map_eq_some_iff.1 h
  have htypes : o.types = types := by simpa using List.find?_some ho
  subst htypes
  have hmem := List.mem_of_find?_eq_some ho
  unfold Layer.overloads at hmem
  cases hname : l.funcs.lookup name with
  | none => simp [hname] at hmem
  | some os =>
    rw [hname] at hmem
    exact ⟨(name, os), mem_of_lookup hname, hmem⟩

/-- Every name in the scope stands for symbols that can be used, and functions are entered under the
types of their parameters. -/
structure Scope.Fits (Γ : Context) (g? : Option FunctionSymbol) (s : Scope) : Prop where
  vars : ∀ l ∈ s.layers, ∀ d ∈ l.vars, ∃ v, Γ.Usable g? d.2 v
  funcs : ∀ l ∈ s.layers, ∀ d ∈ l.funcs, ∀ o ∈ d.2, ∃ f, Γ.Callable o.function f ∧ f.types = o.types

namespace Scope.Fits

variable {s : Scope}

theorem mono {Δ : Context} (h : s.Fits Γ g?) (hle : Γ.Le Δ) : s.Fits Δ g? := by
  constructor
  · intro l hl d hd
    obtain ⟨v, hv⟩ := h.vars l hl d hd
    exact ⟨v, hv.mono hle⟩
  · intro l hl d hd o ho
    obtain ⟨f, hf, ht⟩ := h.funcs l hl d hd o ho
    exact ⟨f, hf.mono hle, ht⟩

theorem push (h : s.Fits Γ g?) : s.push.Fits Γ g? := by
  constructor
  · intro l hl
    rcases List.mem_cons.1 hl with rfl | hl
    · exact nofun
    · exact h.vars l hl
  · intro l hl
    rcases List.mem_cons.1 hl with rfl | hl
    · exact nofun
    · exact h.funcs l hl

theorem declareVariable? (h : s.Fits Γ g?) {name : String} {x : VarId} {s' : Scope}
    (hs : s.declareVariable? name x = some s') {v : VariableSymbol} (hv : Γ.Usable g? x v) :
    s'.Fits Γ g? := by
  unfold Scope.declareVariable? Layer.declareVariable? at hs
  split at hs
  case h_1 => cases hs
  case h_2 =>
    cases hs
    constructor
    · intro l hl d hd
      rcases List.mem_cons.1 hl with rfl | hl
      · rcases List.mem_append.1 hd with hd | hd
        · exact h.vars s.inner List.mem_cons_self d hd
        · obtain rfl := List.mem_singleton.1 hd
          exact ⟨v, hv⟩
      · exact h.vars l (List.mem_cons_of_mem s.inner hl) d hd
    · intro l hl
      rcases List.mem_cons.1 hl with rfl | hl
      · exact h.funcs s.inner List.mem_cons_self
      · exact h.funcs l (List.mem_cons_of_mem s.inner hl)

theorem exists_usable (h : s.Fits Γ g?) {name : String} {x : VarId}
    (hx : s.findVariable? name = some x) : ∃ v, Γ.Usable g? x v := by
  obtain ⟨l, hl, hx⟩ := List.exists_of_findSome?_eq_some hx
  exact h.vars l hl (name, x) (mem_of_lookup hx)

theorem exists_callable (h : s.Fits Γ g?) {name : String} {types : List Ty} {f : FuncId}
    (hf : s.findFunction? name types = some f) : ∃ t, Γ.Callable f t ∧ t.types = types := by
  obtain ⟨l, hl, hf⟩ := List.exists_of_findSome?_eq_some hf
  obtain ⟨d, hd, ho⟩ := Layer.exists_overload hf
  exact h.funcs l hl d hd _ ho

end Scope.Fits

theorem Ty.isValue_of_ofName? {name : String} {t : Ty} (h : Ty.ofName? name = some t) : t.IsValue := by
  unfold Ty.ofName? at h
  split at h <;> cases h <;> exact ⟨nofun, nofun⟩

/-! ## States -/

namespace Checker

/-- What a step of a check leaves alone: symbols stay, what was reported stays, and so do the loops
around it, the layers of scope around it and the functions in its own layer. -/
structure Follows (c c' : Checker) : Prop where
  symbols : c.symbols.Extends c'.symbols
  diagnostics : c'.diagnostics = [] → c.diagnostics = []
  loops : c'.loops = c.loops
  outer : c'.scope.outer = c.scope.outer
  funcs : c'.scope.inner.funcs = c.scope.inner.funcs

theorem Follows.refl (c : Checker) : c.Follows c := ⟨.refl _, id, rfl, rfl, rfl⟩

theorem Follows.trans {c₁ c₂ : Checker} (h : c.Follows c₁) (h' : c₁.Follows c₂) : c.Follows c₂ :=
  ⟨h.symbols.trans h'.symbols, fun hd => h.diagnostics (h'.diagnostics hd), h'.loops.trans h.loops,
    h'.outer.trans h.outer, h'.funcs.trans h.funcs⟩

/-- Nothing was reported, and the symbols are part of those of the context. -/
structure Clean (Γ : Context) (c : Checker) : Prop where
  diagnostics : c.diagnostics = []
  symbols : c.symbols.Extends Γ.symbols

theorem Follows.clean {c' : Checker} (h : c.Follows c') (hc : c'.Clean Γ) : c.Clean Γ :=
  ⟨h.diagnostics hc.diagnostics, h.symbols.trans hc.symbols⟩

/-- The state is that of checking the body of `g?`: names in scope can be used, where functions that
satisfy `callable` can be called. -/
structure Ready (callable : FuncId → Prop) (g? : Option FunctionSymbol) (c : Checker) : Prop where
  scope : c.scope.Fits ⟨c.symbols, callable⟩ g?
  depth : c.depthReported = true → c.diagnostics ≠ []
  global : g? = none → c.function? = none
  body : ∀ g, g? = some g →
    ∃ f, c.function? = some f ∧ c.symbols.functionAt? f = some g ∧ g.returns ≠ .error

theorem Ready.grow {callable : FuncId → Prop} (h : c.Ready callable g?) {t : SymbolTable}
    (ht : c.symbols.Extends t) : ({ c with symbols := t } : Checker).Ready callable g? := by
  refine ⟨h.scope.mono ⟨ht, fun _ => id⟩, h.depth, h.global, fun g hg => ?_⟩
  obtain ⟨f, hf, hfound, hreturns⟩ := h.body g hg
  exact ⟨f, hf, ht.funcs f g hfound, hreturns⟩

/-- The labels that jumps may go to. -/
def targets (c : Checker) : List Label :=
  c.loops.flatMap fun (onBreak, onContinue) => [onBreak, onContinue]

theorem Follows.targets {c' : Checker} (h : c.Follows c') : c'.targets = c.targets :=
  congrArg (List.flatMap _) h.loops

end Checker

namespace Checking

/-- The state that is asked for is that of the step. -/
theorem get_bind (f : Checker → Checking β) (c : Checker) : (get >>= f) c = f c c := rfl

/-- From `c`, the step gives a result of shape `S`, which may depend on the number of loops begun. If
nothing is reported, and the state was ready and `P` held before, the state is ready after it and the
result satisfies `Q`. -/
structure Yields (Γ : Context) (g? : Option FunctionSymbol) (c : Checker) (P : Prop)
    (step : Checking α) (S : α → Nat → Prop) (Q : α → Prop) : Prop where
  follows : c.Follows (step c).2
  shape : S (step c).1 (step c).2.loopCount
  sound : (step c).2.Clean Γ → c.Ready Γ.callable g? → P →
    (step c).2.Ready Γ.callable g? ∧ Q (step c).1

variable {P P' : Prop} {S S' : α → Nat → Prop} {Q Q' : α → Prop} {T : β → Nat → Prop} {R : β → Prop}

theorem yields_pure {a : α} (hS : S a c.loopCount)
    (hQ : c.Clean Γ → c.Ready Γ.callable g? → P → Q a) : Yields Γ g? c P (pure a) S Q :=
  ⟨.refl c, hS, fun hc hr hP => ⟨hr, hQ hc hr hP⟩⟩

theorem Yields.bind {step : Checking α} {f : α → Checking β} (h : Yields Γ g? c P step S Q)
    (hf : ∀ a c', c.Follows c' → S a c'.loopCount → Yields Γ g? c' (P ∧ Q a) (f a) T R) :
    Yields Γ g? c P (step >>= f) T R := by
  have hnext := hf (step c).1 (step c).2 h.follows h.shape
  refine ⟨h.follows.trans hnext.follows, hnext.shape, fun hc hr hP => ?_⟩
  obtain ⟨hr', hQ⟩ := h.sound (hnext.follows.clean hc) hr hP
  exact hnext.sound hc hr' ⟨hP, hQ⟩

theorem Yields.imp {step : Checking α} (h : Yields Γ g? c P step S Q)
    (hP : c.Clean Γ → c.Ready Γ.callable g? → P' → P) (hS : ∀ a n, S a n → S' a n)
    (hQ : ∀ a, Q a → Q' a) : Yields Γ g? c P' step S' Q' := by
  refine ⟨h.follows, hS _ _ h.shape, fun hc hr hP' => ?_⟩
  obtain ⟨hr', hq⟩ := h.sound hc hr (hP (h.follows.clean hc) hr hP')
  exact ⟨hr', hQ _ hq⟩

/-- The step in a place where more is known. -/
theorem Yields.given {step : Checking α} (h : Yields Γ g? c P step S Q)
    (hP : c.Clean Γ → c.Ready Γ.callable g? → P' → P) : Yields Γ g? c P' step S Q :=
  h.imp hP (fun _ _ => id) fun _ => id

theorem yields_get {f : Checker → Checking β} (h : Yields Γ g? c P (f c) T R) :
    Yields Γ g? c P (get >>= f) T R :=
  ⟨h.follows, h.shape, h.sound⟩

theorem yields_after {step : Checking α} {f : α → Checking β} {a : α} {c' : Checker}
    (heq : step c = (a, c')) (hfollows : c.Follows c')
    (hready : c'.Clean Γ → c.Ready Γ.callable g? → P → c'.Ready Γ.callable g?)
    (h : Yields Γ g? c' P (f a) T R) : Yields Γ g? c P (step >>= f) T R := by
  have hrun : (step >>= f) c = f a c' := congrArg (fun r : α × Checker => f r.1 r.2) heq
  refine ⟨hrun ▸ hfollows.trans h.follows, hrun ▸ h.shape, fun hc hr hP => ?_⟩
  rw [hrun] at hc ⊢
  exact h.sound hc (hready (h.follows.clean hc) hr hP) hP

theorem diagnostics_report (span : Span) (problem : Problem) (c : Checker) :
    (report span problem c).2.diagnostics ≠ [] :=
  List.append_ne_nil_of_right_ne_nil _ nofun

/-- After a report nothing is promised but the shape of the result. -/
theorem yields_report (span : Span) (problem : Problem) :
    Yields Γ g? c P (report span problem) (fun _ n => n = c.loopCount) fun _ => False := by
  have hne := diagnostics_report span problem c
  exact ⟨⟨.refl _, fun h => absurd h hne, rfl, rfl, rfl⟩, rfl, fun hc => absurd hc.diagnostics hne⟩

theorem yields_reported {span : Span} {problem : Problem} {a : α} (hS : S a c.loopCount) :
    Yields Γ g? c P (do report span problem; return a) S Q := by
  refine (yields_report span problem).bind fun _ c' _ hn => ?_
  exact yields_pure (hn.symm ▸ hS) fun _ _ hP => hP.2.elim

theorem yields_report_if {p : Prop} [Decidable p] {span : Span} {problem : Problem} {step : Checking α}
    (h : ∀ c' : Checker, c'.loopCount = c.loopCount → Yields Γ g? c' P step S Q) :
    Yields Γ g? c P (if p then do report span problem; step else step) S Q := by
  split
  · refine (yields_report span problem).bind fun _ c' _ hn => ?_
    exact (h c' hn).given fun _ _ hP => hP.1
  · exact h c rfl

/-! ## Brackets -/

theorem yields_nested {span : Span} {standIn : α} {step : Checking α} (hS : S standIn c.loopCount)
    (h : ∀ depth, Yields Γ g? { c with depth := depth } P step S Q) :
    Yields Γ g? c P (nested span standIn step) S Q := by
  have hdepth : ∀ (c' : Checker) (depth : Nat), c'.Follows { c' with depth := depth } :=
    fun _ _ => ⟨.refl _, id, rfl, rfl, rfl⟩
  unfold nested
  by_cases hlimit : c.depth < c.options.maxDepth
  · have henter : enter span c = (true, { c with depth := c.depth + 1 }) := by
      show (if _ then _ else _ : Checking Bool) c = _
      rw [if_pos hlimit]
      rfl
    refine yields_after henter (hdepth c _) (fun _ hr _ => ⟨hr.scope, hr.depth, hr.global, hr.body⟩) ?_
    refine (h _).bind fun a c' _ ha => ?_
    exact yields_after rfl (hdepth c' _) (fun _ hr _ => ⟨hr.scope, hr.depth, hr.global, hr.body⟩)
      (yields_pure ha fun _ _ hP => hP.2)
  · cases hreported : c.depthReported with
    | true =>
      have henter : enter span c = (false, c) := by
        show (if _ then _ else _ : Checking Bool) c = _
        rw [if_neg hlimit, hreported]
        rfl
      refine yields_after henter (.refl c) (fun _ hr _ => hr) ?_
      exact yields_pure hS fun hc hr _ => absurd hc.diagnostics (hr.depth hreported)
    | false =>
      let c' : Checker := (report span (.nestingTooDeep c.options.maxDepth)
        { c with depthReported := true }).2
      have henter : enter span c = (false, c') := by
        show (if _ then _ else _ : Checking Bool) c = _
        rw [if_neg hlimit, hreported]
        rfl
      have hne : c'.diagnostics ≠ [] := diagnostics_report span _ _
      refine yields_after henter ⟨.refl _, fun hd => absurd hd hne, rfl, rfl, rfl⟩
        (fun hc => absurd hc.diagnostics hne) ?_
      exact yields_pure hS fun hc => absurd hc.diagnostics hne

theorem yields_inLayer {step : Checking α}
    (h : Yields Γ g? { c with scope := c.scope.push } P step S Q) :
    Yields Γ g? c P (inLayer step) S Q := by
  let c' : Checker := (step { c with scope := c.scope.push }).2
  have hpop : c'.scope.pop = c.scope := by
    unfold Scope.pop Scope.pop?
    rw [h.follows.outer]
    rfl
  refine ⟨⟨h.follows.symbols, h.follows.diagnostics, h.follows.loops, congrArg Scope.outer hpop,
    congrArg (·.inner.funcs) hpop⟩, h.shape, fun hc hr hP => ?_⟩
  obtain ⟨hr', hQ⟩ := h.sound ⟨hc.diagnostics, hc.symbols⟩
    ⟨hr.scope.push, hr.depth, hr.global, hr.body⟩ hP
  refine ⟨⟨?_, hr'.depth, hr'.global, hr'.body⟩, hQ⟩
  show c'.scope.pop.Fits _ g?
  rw [hpop]
  exact hr.scope.mono ⟨h.follows.symbols, fun _ => id⟩

theorem yields_inLoop {step : Checking α} {onBreak onContinue : Label}
    (hx : onBreak = .numbered "break" (c.loopCount + 1))
    (hy : onContinue = .numbered "continue" (c.loopCount + 1))
    (h : Yields Γ g?
      { c with loopCount := c.loopCount + 1, loops := (onBreak, onContinue) :: c.loops } P step S Q) :
    Yields Γ g? c P (inLoop step) (fun r n => r.2 = (onBreak, onContinue) ∧ S r.1 n)
      fun r => Q r.1 := by
  subst hx hy
  refine ⟨⟨h.follows.symbols, h.follows.diagnostics, congrArg List.tail h.follows.loops,
    h.follows.outer, h.follows.funcs⟩, ⟨rfl, h.shape⟩, fun hc hr hP => ?_⟩
  obtain ⟨hr', hQ⟩ := h.sound ⟨hc.diagnostics, hc.symbols⟩ ⟨hr.scope, hr.depth, hr.global, hr.body⟩ hP
  exact ⟨⟨hr'.scope, hr'.depth, hr'.global, hr'.body⟩, hQ⟩

/-! ## Declarations -/

theorem yields_declareVariable (name : String) (span : Span) (readOnly : Bool) (type : Ty) :
    Yields Γ g? c type.IsValue (declareVariable name span readOnly type)
      (fun _ n => n = c.loopCount) fun x => ∃ v, Γ.Usable g? x v ∧ v.type = type := by
  let v : VariableSymbol := ⟨name, type, readOnly, if c.function?.isNone then .global else .local_⟩
  let x : VarId := (c.symbols.addVariable v).1
  let t : SymbolTable := (c.symbols.addVariable v).2
  have hext : c.symbols.Extends t := c.symbols.extends_addVariable v
  have husable : (g? = none → c.function? = none) → type.IsValue →
      Context.Usable ⟨t, Γ.callable⟩ g? x v := by
    intro hglobal ht
    refine ⟨c.symbols.variableAt?_addVariable v, ht, fun hk hg => ?_, fun hk => ?_⟩
    · exact hk (by simp [v, hglobal hg])
    · exact absurd hk (by simp only [v]; split <;> exact nofun)
  unfold declareVariable
  refine yields_get ?_
  cases hscope : c.scope.declareVariable? name x with
  | some scope =>
    have hinner : scope.outer = c.scope.outer ∧ scope.inner.funcs = c.scope.inner.funcs := by
      obtain ⟨l, hl, rfl⟩ := Option.map_eq_some_iff.1 hscope
      unfold Layer.declareVariable? at hl
      split at hl
      · cases hl
      · cases hl
        exact ⟨rfl, rfl⟩
    simp only [SymbolTable.addVariable, x, v] at hscope ⊢
    rw [hscope]
    refine yields_after rfl ⟨hext, id, rfl, hinner.1, hinner.2⟩ (fun _ hr ht => ?_)
      (yields_pure rfl fun hc hr ht => ?_)
    · have hgrown := hr.grow hext
      exact ⟨hgrown.scope.declareVariable? hscope (husable hr.global ht), hgrown.depth, hgrown.global,
        hgrown.body⟩
    · exact ⟨v, (husable hr.global ht).mono ⟨hc.symbols, fun _ => id⟩, rfl⟩
  | none =>
    simp only [SymbolTable.addVariable, x, v] at hscope ⊢
    rw [hscope]
    exact yields_after rfl ⟨hext, id, rfl, rfl, rfl⟩ (fun _ hr _ => hr.grow hext) (yields_reported rfl)

theorem yields_typeOf (name : Surface.Name) :
    Yields Γ g? c P (typeOf name) (fun _ n => n = c.loopCount) Ty.IsValue := by
  unfold typeOf
  cases ht : Ty.ofName? name.text with
  | some t => exact yields_pure rfl fun _ _ _ => Ty.isValue_of_ofName? ht
  | none => exact yields_reported rfl

end Checking

end Scripting
