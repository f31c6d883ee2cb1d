import Scripting.Proofs.Check.Containment
import Scripting.Proofs.Check.Steps

/-!
# Implicit declarations of failed values

An assignment to an unknown name declares it, with the type of the value. If the value is a stand-in for an
operator that was not found, the assignment is not one: it is of the type of the stand-in, and whoever uses
it objects to that type as to any other. So the mistake may be reported a second time. An application has
nothing to say about operands that failed; about all others it says exactly whether there is such an
operator, conversion or function (`Surface.Expr.objections`).
-/

namespace Scripting

/-! ## Scopes -/

namespace Scope

variable {s s' : Scope} {name : String} {x : VarId}

/-- A declaration is found under its name only. -/
theorem findVariable?_of_declareVariable? (h : s.declareVariable? name x = some s') {other : String}
    {y : VarId} (hy : s'.findVariable? other = some y) :
    s.findVariable? other = some y ∨ other = name ∧ y = x := by
  obtain ⟨-, rfl⟩ := declareVariable?_eq_some h
  unfold findVariable? layers at hy ⊢
  rw [List.findSome?_cons] at hy ⊢
  have hinner : Layer.findVariable? { s.inner with vars := s.inner.vars ++ [(name, x)] } other =
      (s.inner.findVariable? other).or (List.lookup other [(name, x)]) := List.lookup_append
  rw [hinner] at hy
  cases hfound : s.inner.findVariable? other with
  | some z =>
    rw [hfound] at hy
    exact .inl hy
  | none =>
    rw [hfound, Option.none_or, List.lookup_cons] at hy
    by_cases hname : other = name
    · rw [beq_iff_eq.2 hname] at hy
      exact .inr ⟨hname, (Option.some.inj hy).symm⟩
    · rw [beq_eq_false_iff_ne.2 hname] at hy
      exact .inl hy

theorem findVariable?_declared (h : s.declareVariable? name x = some s') :
    s'.findVariable? name = some x := by
  obtain ⟨hnone, rfl⟩ := declareVariable?_eq_some h
  have hinner : Layer.findVariable? { s.inner with vars := s.inner.vars ++ [(name, x)] } name =
      (s.inner.findVariable? name).or (List.lookup name [(name, x)]) := List.lookup_append
  unfold findVariable? layers
  rw [List.findSome?_cons, hinner, hnone, Option.none_or, List.lookup_cons_self]

theorem inner_findVariable?_of_none (h : s.findVariable? name = none) :
    s.inner.findVariable? name = none := by
  unfold findVariable? layers at h
  rw [List.findSome?_eq_none_iff] at h
  exact h s.inner List.mem_cons_self

end Scope

theorem Checker.Keeps.findFunction? {c c' : Checker} (h : c.Keeps c') :
    c'.scope.findFunction? = c.scope.findFunction? := by
  funext name types
  have hinner : c'.scope.inner.findFunction? name types = c.scope.inner.findFunction? name types := by
    unfold Layer.findFunction? Layer.overloads
    rw [h.funcs]
  unfold Scope.findFunction? Scope.layers
  rw [List.findSome?_cons, List.findSome?_cons, hinner, h.outer]

/-! ## What applications object to -/

namespace Surface.Expr

/-- The node applies an operator, a conversion or a function to its operands. -/
def Applies : Surface.Expr → Prop
  | unary .. | binary .. | call .. => True
  | assign .. | number .. | text .. | boolean .. | name _ => False

/-- The report, unless what it misses is there. -/
def missing (isThere : Bool) (span : Span) (problem : Problem) : List Diagnostic :=
  if isThere then [] else [⟨span, problem⟩]

/-- With one argument, the name of a type is that of a conversion. -/
def callObjections (s : Scope) (f : Surface.Name) (es : List Surface.Expr) (ts : List Ty) : List Diagnostic :=
  match Ty.ofName? f.text, es, ts with
  | some target, [e], [t] =>
    missing (Conversion.classify t target).exists? e.span (.cannotConvert t.name target.name)
  | _, _, _ =>
    missing (s.findFunction? f.text ts).isSome f.span (.undefinedFunction (signature f.text ts))

theorem callObjections_of_ordinary {f : Surface.Name} {es : List Surface.Expr} {span : Span}
    (h : (call f es span).Ordinary) (s : Scope) (ts : List Ty) :
    callObjections s f es ts =
      missing (s.findFunction? f.text ts).isSome f.span (.undefinedFunction (signature f.text ts)) := by
  unfold callObjections
  split
  next htarget =>
    rcases h with hnone | hlength
    · rw [hnone] at htarget
      cases htarget
    · exact absurd rfl hlength
  next => rfl

/-- What is wrong with operands of the given types: that there is no such operator, conversion or function. -/
def objections (s : Scope) : Surface.Expr → List Ty → List Diagnostic
  | unary o _ _, [t] =>
    missing (UnaryOp.find? o.kind t).isSome o.span (.undefinedUnaryOperator o.value t.name)
  | binary _ o _ _, [l, r] =>
    missing (BinaryOp.find? o.kind l r).isSome o.span (.undefinedBinaryOperator o.value l.name r.name)
  | call f es _, ts => callObjections s f es ts
  | _, _ => []

theorem objections_congr {s s' : Scope} (h : s'.findFunction? = s.findFunction?) (e : Surface.Expr)
    (ts : List Ty) : e.objections s' ts = e.objections s ts := by
  unfold objections callObjections
  rw [h]

end Surface.Expr

namespace Checking

open Surface.Expr (missing)

variable {c : Checker}

/-- The diagnostics grow by the objections, unless an operand `failed`. -/
def Objects (failed : Prop) (objections : List Diagnostic) (c c' : Checker) : Prop :=
  (failed → c'.diagnostics = c.diagnostics) ∧ (¬ failed → c'.diagnostics = c.diagnostics ++ objections)

namespace Objects

variable {failed : Prop} {ds : List Diagnostic} {c' : Checker}

theorem silent (h : failed) : Objects failed ds c c :=
  ⟨fun _ => rfl, fun hok => absurd h hok⟩

theorem nothing (h : ¬ failed) : Objects failed [] c c :=
  ⟨fun hfailed => absurd hfailed h, fun _ => (List.append_nil _).symm⟩

theorem report (h : ¬ failed) (span : Span) (problem : Problem) :
    Objects failed [⟨span, problem⟩] c (Checking.report span problem c).2 :=
  ⟨fun hfailed => absurd hfailed h, fun _ => rfl⟩

theorem congr {p : Prop} (h : Objects failed ds c c') (hp : failed ↔ p) : Objects p ds c c' :=
  propext hp ▸ h

end Objects

theorem objects_unary (operator : Token) (r : Checked) (c : Checker) :
    Objects r.Failed
      (missing (UnaryOp.find? operator.kind r.1.type).isSome operator.span
        (.undefinedUnaryOperator operator.value r.1.type.name)) c
      (unary operator r c).2 := by
  obtain ⟨e, standIn⟩ := r
  unfold unary
  dsimp only
  split
  next herror => exact .silent (.inl herror)
  next herror =>
    split
    next hstandIn => exact .silent (.inr hstandIn)
    next hstandIn =>
      have hok : ¬ Checked.Failed (e, standIn) := not_or.2 ⟨herror, hstandIn⟩
      cases UnaryOp.find? operator.kind e.type with
      | some o => exact .nothing hok
      | none => exact .report hok _ _

theorem objects_binary (operator : Token) (left right : Checked) (c : Checker) :
    Objects (left.Failed ∨ right.Failed)
      (missing (BinaryOp.find? operator.kind left.1.type right.1.type).isSome operator.span
        (.undefinedBinaryOperator operator.value left.1.type.name right.1.type.name)) c
      (binary operator left right c).2 := by
  obtain ⟨l, leftStandIn⟩ := left
  obtain ⟨r, rightStandIn⟩ := right
  unfold binary
  dsimp only
  split
  next herror =>
    simp only [Bool.or_eq_true, decide_eq_true_eq] at herror
    exact .silent (herror.imp .inl .inl)
  next herror =>
    split
    next hstandIn => exact .silent ((Bool.or_eq_true _ _ ▸ hstandIn).imp .inr .inr)
    next hstandIn =>
      simp only [Bool.or_eq_true, decide_eq_true_eq, not_or] at herror hstandIn
      have hok : ¬ (Checked.Failed (l, leftStandIn) ∨ Checked.Failed (r, rightStandIn)) :=
        not_or.2 ⟨not_or.2 ⟨herror.1, hstandIn.1⟩, not_or.2 ⟨herror.2, hstandIn.2⟩⟩
      cases BinaryOp.find? operator.kind l.type r.type with
      | some o => exact .nothing hok
      | none => exact .report hok _ _

theorem objects_call (callee : Surface.Name) (arguments : List Checked) (c : Checker) :
    Objects (∃ r ∈ arguments, Checked.Failed r)
      (missing (c.scope.findFunction? callee.text (arguments.map (·.1.type))).isSome callee.span
        (.undefinedFunction (signature callee.text (arguments.map (·.1.type))))) c
      (call callee arguments c).2 := by
  have htypes : (arguments.map (·.1)).map (·.type) = arguments.map (·.1.type) := List.map_map
  unfold call
  split
  next hfailed => exact .silent ((any_failed_iff arguments).1 hfailed)
  next hok =>
    rw [any_failed_iff] at hok
    rw [get_bind, htypes]
    cases c.scope.findFunction? callee.text (arguments.map (·.1.type)) with
    | some f => exact .nothing hok
    | none => exact .report hok _ _

/-- A written conversion is refused only if there is none at all. -/
theorem objects_convert (span : Span) (r : Checked) {target : Ty} (htarget : target ≠ .error)
    (c : Checker) :
    Objects r.Failed
      (missing (Conversion.classify r.1.type target).exists? span
        (.cannotConvert r.1.type.name target.name)) c
      (convert span r.1 target true r.2 c).2 := by
  obtain ⟨e, standIn⟩ := r
  have hsilent : (standIn || e.type = .error || target = .error) = true ↔ Checked.Failed (e, standIn) := by
    simp only [Bool.or_eq_true, decide_eq_true_eq, Checked.Failed, htarget, or_false]
    exact or_comm
  have hfound : ∀ {conversion : Conversion}, conversion.exists? = true →
      Objects (Checked.Failed (e, standIn))
        (missing conversion.exists? span (.cannotConvert e.type.name target.name)) c c := by
    intro conversion hexists
    rw [missing, if_pos hexists]
    exact ⟨fun _ => rfl, fun _ => (List.append_nil _).symm⟩
  unfold convert
  dsimp only
  cases Conversion.classify e.type target with
  | none =>
    by_cases hfailed : Checked.Failed (e, standIn)
    · dsimp only
      rw [hsilent.2 hfailed]
      exact .silent hfailed
    · dsimp only
      rw [Bool.eq_false_iff.2 fun h => hfailed (hsilent.1 h)]
      exact .report hfailed _ _
  | identity | implicit | explicit => exact hfound rfl

/-- Once the values of its operands were found, an application says what it objects to, unless one of them
failed. -/
theorem objects_finish {e : Surface.Expr} (happlies : e.Applies) {rs : List Checked}
    (hlength : rs.length = e.operands.length) (c : Checker) :
    Objects (∃ r ∈ rs, Checked.Failed r) (e.objections c.scope (rs.map (·.1.type))) c
      (finish e rs c).2 := by
  cases e with
  | number | text | boolean | name | assign => exact absurd happlies id
  | unary o d span =>
    obtain ⟨r, rfl⟩ := List.length_eq_one_iff.1 hlength
    exact (objects_unary o r c).congr (by simp)
  | binary l o r span =>
    obtain ⟨left, right, rfl⟩ := List.length_eq_two.1 hlength
    exact (objects_binary o left right c).congr (by simp)
  | call f es span =>
    show Objects _ (Surface.Expr.callObjections c.scope f es (rs.map (·.1.type))) c
      (callOrConvert f (es.map (·.span)) rs c).2
    by_cases hnode : (Surface.Expr.call f es span).Ordinary
    · rw [callOrConvert_of_ordinary hnode, Surface.Expr.callObjections_of_ordinary hnode]
      exact objects_call f rs c
    · obtain ⟨htype, hone⟩ := not_or.1 hnode
      obtain ⟨d, rfl⟩ := List.length_eq_one_iff.1 (not_not.1 hone)
      obtain ⟨r, rfl⟩ := List.length_eq_one_iff.1 hlength
      obtain ⟨target, htarget⟩ := Option.ne_none_iff_exists'.1 htype
      have hconvert := objects_convert d.span r (Ty.isValue_of_ofName? htarget).2 c
      unfold callOrConvert Surface.Expr.callObjections
      rw [htarget]
      have hsingle : r.Failed ↔ ∃ s ∈ [r], Checked.Failed s := by simp
      exact hconvert.congr hsingle

end Checking

/-! ## What expressions declare -/

/-- A name that stands for another variable than before stands for one that can be assigned and has the type
of a value. -/
structure Checker.Introduces (c c' : Checker) : Prop where
  symbols : c.symbols.Extends c'.symbols
  vars : ∀ name x, c'.scope.findVariable? name = some x → c.scope.findVariable? name = some x ∨
    ∃ v, c'.symbols.variableAt? x = some v ∧ v.readOnly = false ∧ v.type ≠ .void

namespace Checker.Introduces

variable {c c₁ c₂ : Checker}

theorem of_scope_eq (hsymbols : c.symbols.Extends c₁.symbols) (hscope : c₁.scope = c.scope) :
    c.Introduces c₁ where
  symbols := hsymbols
  vars name x hx := .inl (by rwa [hscope] at hx)

theorem trans (h : c.Introduces c₁) (h' : c₁.Introduces c₂) : c.Introduces c₂ where
  symbols := h.symbols.trans h'.symbols
  vars name x hx := by
    rcases h'.vars name x hx with hx | hnew
    · rcases h.vars name x hx with hx | ⟨v, hv, hassignable⟩
      · exact .inl hx
      · exact .inr ⟨v, h'.symbols.vars x v hv, hassignable⟩
    · exact .inr hnew

end Checker.Introduces

namespace Checking

theorem introduces_nested {α : Type} {span : Span} {standIn : α} {step : Checking α}
    (h : ∀ c : Checker, c.Introduces (step c).2) (c : Checker) :
    c.Introduces (nested span standIn step c).2 := by
  rw [nested_apply]
  by_cases hlimit : c.depth < c.options.maxDepth
  · rw [enter_of_lt hlimit, if_pos rfl]
    have hinside := h { c with depth := c.depth + 1 }
    exact ⟨hinside.symbols, hinside.vars⟩
  · rw [enter_of_not_lt hlimit, if_neg Bool.false_ne_true]
    dsimp only
    split
    · exact .of_scope_eq (.refl _) rfl
    · exact .of_scope_eq (.refl _) rfl

theorem introduces_declareVariable (name : String) (span : Span) {type : Ty} (htype : type ≠ .void)
    (c : Checker) : c.Introduces (declareVariable name span false type c).2 := by
  have hext := c.symbols.extends_addVariable (c.declared name type false)
  cases hscope : c.scope.declareVariable? name
      (c.symbols.addVariable (c.declared name type false)).1 with
  | none =>
    rw [declareVariable_of_none hscope]
    exact .of_scope_eq hext rfl
  | some scope =>
    rw [declareVariable_of_some hscope]
    refine ⟨hext, fun other x hx => ?_⟩
    rcases Scope.findVariable?_of_declareVariable? hscope hx with hold | ⟨-, rfl⟩
    · exact .inl hold
    · exact .inr ⟨_, c.symbols.variableAt?_addVariable _, rfl, htype⟩

theorem composesExpr_introduces :
    ComposesExpr (fun _ => True) fun _ _ step => ∀ c : Checker, c.Introduces (step c).2 where
  pure _ _ := .of_scope_eq (.refl _) rfl
  bind_of h hR hf c := (h c).trans (hf _ (hR c) _)
  get hf c := hf c c
  report _ _ _ := .of_scope_eq (.refl _) rfl
  nested _ h := introduces_nested h
  declareImplicitly _ htype := introduces_declareVariable _ _ htype

theorem introduces_value (e : Surface.Expr) (c : Checker) : c.Introduces (value e c).2 :=
  ComposesExpr.of_value composesExpr_introduces (.of_forall fun _ => trivial) c

/-! ## The assignment of a stand-in -/

/-- The conversion of a stand-in is never reported. -/
theorem convert_standIn (span : Span) (e : Typed.Expr) (target : Ty) (written : Bool) (c : Checker) :
    (convert span e target written true c).2 = c := by
  unfold convert
  dsimp only
  cases Conversion.classify e.type target with
  | none | identity | implicit => rfl
  | explicit => cases written <;> rfl

/-- A stand-in is the operand that is left over, which did not have the error type. -/
theorem standIn_unary {operator : Token} {r : Checked} {c : Checker} (h : (unary operator r c).1.2 = true) :
    (unary operator r c).1.1 = r.1 ∧ r.1.type ≠ .error := by
  obtain ⟨e, standIn⟩ := r
  unfold unary at h ⊢
  dsimp only at h ⊢
  split at h
  next => cases h
  next herror =>
    refine ⟨?_, herror⟩
    rw [if_neg herror]
    split at h
    next hstandIn => rw [if_pos hstandIn]; rfl
    next hstandIn =>
      rw [if_neg hstandIn]
      cases hfound : UnaryOp.find? operator.kind e.type with
      | some o => rw [hfound] at h; cases h
      | none => rfl

theorem standIn_binary {operator : Token} {left right : Checked} {c : Checker}
    (h : (binary operator left right c).1.2 = true) :
    (binary operator left right c).1.1 = left.1 ∧ left.1.type ≠ .error := by
  obtain ⟨l, leftStandIn⟩ := left
  obtain ⟨r, rightStandIn⟩ := right
  unfold binary at h ⊢
  dsimp only at h ⊢
  split at h
  next => cases h
  next herror =>
    have hleft : l.type ≠ .error := by
      simp only [Bool.or_eq_true, decide_eq_true_eq, not_or] at herror
      exact herror.1
    refine ⟨?_, hleft⟩
    rw [if_neg herror]
    split at h
    next hstandIn => rw [if_pos hstandIn]; rfl
    next hstandIn =>
      rw [if_neg hstandIn]
      cases hfound : BinaryOp.find? operator.kind l.type r.type with
      | some o => rw [hfound] at h; cases h
      | none => rfl

theorem standIn_finish {e : Surface.Expr} {rs : List Checked} (hlength : rs.length = e.operands.length)
    {c : Checker} (h : (finish e rs c).1.2 = true) :
    ∃ r ∈ rs, (finish e rs c).1.1 = r.1 ∧ r.1.type ≠ .error := by
  cases e with
  | number | text | boolean | name | call => cases h
  | assign x o d span =>
    obtain ⟨r, rfl⟩ := List.length_eq_one_iff.1 hlength
    cases h
  | unary o d span =>
    obtain ⟨r, rfl⟩ := List.length_eq_one_iff.1 hlength
    exact ⟨r, .head _, standIn_unary h⟩
  | binary l o r span =>
    obtain ⟨left, right, rfl⟩ := List.length_eq_two.1 hlength
    exact ⟨left, .head _, standIn_binary h⟩

/-- After the assignment of `r` to the name nothing more is reported, and the assignment has the type of the
variable, which is that of `r` if the name was unknown. -/
structure Assigns (name : String) (r : Checked) (c : Checker) (out : Typed.Expr × Checker) : Prop where
  diagnostics : out.2.diagnostics = c.diagnostics
  hasValue : out.1.type ≠ .void
  target : ∃ x, out.2.scope.findVariable? name = some x ∧ out.1.type = out.2.symbols.variableType x
  unknown : c.scope.findVariable? name = none → out.1.type = r.1.type

section

variable {target : Surface.Name} {operator : Token} {r : Checked} {c : Checker}

theorem assigns_unknown (hplain : operator.kind.compound? = none)
    (himplicit : c.options.implicitDeclarations = true) (hnone : c.scope.findVariable? target.text = none)
    (hvalue : r.1.type ≠ .void) (valueSpan : Span) :
    Assigns target.text r c (assign target operator valueSpan r c) := by
  have hscope := Scope.declareVariable?_of_none (Scope.inner_findVariable?_of_none hnone)
    (c.symbols.addVariable (c.declared target.text r.1.type false)).1
  have hbind : ∀ (step : Checking VarId) (f : VarId → Typed.Expr),
    (step >>= fun x => pure (f x)) c = (f (step c).1, (step c).2) := fun _ _ => rfl
  have hallowed : (operator.kind.compound?.isNone && c.options.implicitDeclarations) = true := by
    rw [hplain, himplicit]
    rfl
  have htype : SymbolTable.variableType
      (c.symbols.addVariable (c.declared target.text r.1.type false)).2
      (c.symbols.addVariable (c.declared target.text r.1.type false)).1 = r.1.type := by
    rw [SymbolTable.variableType, c.symbols.variableAt?_addVariable]
    rfl
  unfold assign
  rw [get_bind, hnone]
  dsimp only
  rw [if_pos hallowed, hbind, declareVariable_of_some hscope]
  exact ⟨rfl, hvalue, ⟨_, Scope.findVariable?_declared hscope, htype.symm⟩, fun _ => rfl⟩

theorem assigns_known (hplain : operator.kind.compound? = none) {x : VarId}
    (hfound : c.scope.findVariable? target.text = some x) {v : VariableSymbol}
    (hv : c.symbols.variableAt? x = some v) (hassignable : v.readOnly = false) (hvalue : v.type ≠ .void)
    (hstandIn : r.2 = true) (valueSpan : Span) :
    Assigns target.text r c (assign target operator valueSpan r c) := by
  have htype : c.symbols.variableType x = v.type := by
    rw [SymbolTable.variableType, hv]
    rfl
  have hassign : assign target operator valueSpan r c =
      (.assign x (convert valueSpan r.1 v.type false true c).1 v.type, c) := by
    have hbind : ∀ (step : Checking Typed.Expr) (f : Typed.Expr → Typed.Expr),
      (step >>= fun e => pure (f e)) c = (f (step c).1, (step c).2) := fun _ _ => rfl
    obtain ⟨e, standIn⟩ := r
    obtain rfl : standIn = true := hstandIn
    unfold assign
    rw [get_bind, hfound]
    unfold assignTo
    dsimp only
    rw [get_bind, hv, hplain, htype]
    dsimp only
    rw [Option.map_some, Option.getD_some, hassignable, if_neg Bool.false_ne_true, hbind, convert_standIn]
  rw [hassign]
  refine ⟨rfl, hvalue, ⟨x, hfound, htype.symm⟩, fun hnone => ?_⟩
  rw [hfound] at hnone
  cases hnone

end

/-! ## Places -/

namespace Site

variable {c : Checker}

theorem lt_of_mem_operands {p q : Site} (h : q ∈ p.operands) : p.state.depth < p.state.options.maxDepth := by
  by_contra hlimit
  rw [operands, if_neg hlimit] at h
  cases h

theorem valued_of_mem_operands {p q : Site} (h : q ∈ p.operands) : q.valued = true := by
  rw [operands, if_pos (lt_of_mem_operands h)] at h
  exact valued_of_mem_inTurn h

/-- An application reports what its operands do, and then what it objects to, unless one of them failed. -/
theorem reported_of_applies {e : Surface.Expr} (happlies : e.Applies) {q : Site}
    (hq : q ∈ (Site.mk c e false).operands) :
    let p : Site := ⟨c, e, false⟩
    p.reported = p.operands.flatMap reported ++ p.own ∧
      ((∃ s ∈ p.operands, s.result.Failed) → p.own = []) ∧
      ((∀ s ∈ p.operands, ¬ s.result.Failed) →
        p.own = e.objections c.scope (p.operands.map (·.result.1.type))) := by
  intro p
  have hlimit : c.depth < c.options.maxDepth := lt_of_mem_operands hq
  have hoperands : p.operands = inTurn { c with depth := c.depth + 1 } e.operands := if_pos hlimit
  have hvalues := values_result { c with depth := c.depth + 1 } e.operands
  have hdiagnostics := values_diagnostics { c with depth := c.depth + 1 } e.operands
  have hfunctions := (steady_values e.operands { c with depth := c.depth + 1 }).findFunction?
  rw [← hoperands] at hvalues hdiagnostics
  have hlength := length_values { c with depth := c.depth + 1 } e.operands
  rw [hvalues] at hlength
  have hobjects := objects_finish happlies hlength (values e.operands { c with depth := c.depth + 1 }).2
  have hcheck : (p.check p.state).2.diagnostics = (finish e (p.operands.map result)
      (values e.operands { c with depth := c.depth + 1 }).2).2.diagnostics := by
    show (Checking.expr e c).2.diagnostics = _
    rw [expr_eq, nested_apply, enter_of_lt hlimit, if_pos rfl, ← hvalues]
    rfl
  have hfailed : (∃ r ∈ p.operands.map result, Checked.Failed r) ↔ ∃ s ∈ p.operands, s.result.Failed := by
    simp only [List.mem_map, exists_exists_and_eq_and]
  have hscope : ∀ types, e.objections (values e.operands { c with depth := c.depth + 1 }).2.scope types =
      e.objections c.scope types := e.objections_congr hfunctions
  rw [Objects, hfailed, hscope, ← hcheck, hdiagnostics, List.map_map] at hobjects
  by_cases hsome : ∃ s ∈ p.operands, s.result.Failed
  · obtain ⟨hown, hreported⟩ := own_eq ((hobjects.1 hsome).trans (List.append_nil _).symm)
    rw [hown]
    exact ⟨hreported, fun _ => rfl, fun hnone => absurd hsome (by simpa using hnone)⟩
  · obtain ⟨hown, hreported⟩ := own_eq (hobjects.2 hsome)
    rw [hown]
    exact ⟨hreported, fun h => absurd h hsome, fun _ => rfl⟩

/-- A stand-in is of the type of a value. -/
theorem isValue_of_standIn {e : Surface.Expr} (h : (value e c).1.2 = true) :
    (value e c).1.1.type.IsValue := by
  refine ⟨requireValue_ne_void _ _ _, ?_⟩
  have hexpr : (Checking.expr e c).1.2 = true := by
    rw [value, requireValue_apply] at h
    split at h <;> exact h
  -- it is an operand, which has a value
  have hvalue : (Checking.expr e c).1.1.type.IsValue := by
    rw [expr_eq, nested_apply] at hexpr ⊢
    split at hexpr
    next henter =>
      rw [if_pos henter]
      obtain ⟨r, hr, heq, hne⟩ := standIn_finish (length_values _ _) hexpr
      rw [values_result] at hr
      obtain ⟨q, hq, rfl⟩ := List.mem_map.1 hr
      show Ty.IsValue (finish e _ _).1.1.type
      rw [heq]
      exact ⟨result_ne_void (valued_of_mem_inTurn hq), hne⟩
    next => cases hexpr
  rw [value, requireValue_apply, if_neg hvalue.1]
  exact hvalue.2

theorem eq_of_mem_assign {x : Surface.Name} {o : Token} {e : Surface.Expr} {span : Span} {valued : Bool}
    {r : Site} (hr : r ∈ (Site.mk c (.assign x o e span) valued).operands) :
    r = ⟨{ c with depth := c.depth + 1 }, e, true⟩ := by
  rw [operands, if_pos (lt_of_mem_operands hr)] at hr
  exact List.mem_singleton.1 hr

/-- The assignment of a stand-in to a name that was unknown before. The value may have declared it. -/
theorem assigns_of_standIn {x : Surface.Name} {o : Token} {e : Surface.Expr} {span : Span} {r : Site}
    (hr : r ∈ (Site.mk c (.assign x o e span) true).operands) (hplain : o.kind.compound? = none)
    (himplicit : c.options.implicitDeclarations = true) (hunknown : c.scope.findVariable? x.text = none)
    (hstandIn : r.result.2 = true) :
    Assigns x.text r.result (r.check r.state).2 (assign x o e.span r.result (r.check r.state).2) := by
  obtain rfl := eq_of_mem_assign hr
  have hoptions := (steady_value e { c with depth := c.depth + 1 }).options
  cases hfound : (value e { c with depth := c.depth + 1 }).2.scope.findVariable? x.text with
  | none =>
    refine assigns_unknown hplain ?_ hfound (requireValue_ne_void _ _ _) e.span
    rw [← himplicit]
    exact congrArg Options.implicitDeclarations hoptions
  | some y =>
    rcases (introduces_value e _).vars _ _ hfound with hold | ⟨v, hv, hassignable, hvalue⟩
    · exact absurd (hold.symm.trans hunknown) (Option.some_ne_none y)
    · exact assigns_known hplain hfound hv hassignable hvalue hstandIn e.span

theorem check_assign {x : Surface.Name} {o : Token} {e : Surface.Expr} {span : Span} {r : Site}
    (hr : r ∈ (Site.mk c (.assign x o e span) true).operands) :
    let out := assign x o e.span r.result (r.check r.state).2
    out.1.type ≠ .void →
      value (.assign x o e span) c = ((out.1, false), { out.2 with depth := out.2.depth - 1 }) := by
  intro out hvalue
  have hlimit : c.depth < c.options.maxDepth := lt_of_mem_operands hr
  obtain rfl := eq_of_mem_assign hr
  have hexpr : Checking.expr (.assign x o e span) c =
      ((out.1, false), { out.2 with depth := out.2.depth - 1 }) := by
    unfold Checking.expr
    rw [nested_apply, enter_of_lt hlimit, if_pos rfl]
    rfl
  rw [value, requireValue_apply, hexpr]
  exact if_neg hvalue

end Site

/-- **Behind an implicit declaration a failure may be reported again.** The value of an assignment to an
unknown name is a stand-in for an operator that was not found, and the assignment is an operand of an
application. The assignment reports nothing more; it is not a stand-in, and has the type that the name then
has, which is that of the stand-in unless the value declares the name itself. The application says nothing
if one of its operands failed. If none did, it reports exactly what it objects to about their types, and
that includes the type of the stand-in. -/
theorem implicit_declaration_may_report_again {c : Checker} {k : Surface.Expr} (hk : k.Applies) {q r : Site}
    (hq : q ∈ (Site.mk c k false).operands) {x : Surface.Name} {o : Token} {e : Surface.Expr} {span : Span}
    (hassign : q.expr = .assign x o e span) (hplain : o.kind.compound? = none)
    (himplicit : q.state.options.implicitDeclarations = true)
    (hunknown : q.state.scope.findVariable? x.text = none) (hr : r ∈ q.operands)
    (hstandIn : r.result.2 = true) :
    let p : Site := ⟨c, k, false⟩
    let after := (q.check q.state).2
    q.reported = r.reported ∧ q.result.2 = false ∧
      (∃ v, after.scope.findVariable? x.text = some v ∧ q.result.1.type = after.symbols.variableType v) ∧
      ((r.check r.state).2.scope.findVariable? x.text = none →
        q.result.1.type = r.result.1.type ∧ ¬ q.result.Failed) ∧
      p.reported = p.operands.flatMap Site.reported ++ p.own ∧
      ((∃ s ∈ p.operands, s.result.Failed) → p.own = []) ∧
      ((∀ s ∈ p.operands, ¬ s.result.Failed) →
        p.own = k.objections c.scope (p.operands.map (·.result.1.type))) := by
  intro p after
  have hvalued := Site.valued_of_mem_operands hq
  have happlication := Site.reported_of_applies hk hq
  obtain ⟨c', _, _⟩ := q
  obtain rfl : _ = Surface.Expr.assign x o e span := hassign
  obtain rfl : _ = true := hvalued
  have hassigns := Site.assigns_of_standIn hr hplain himplicit hunknown hstandIn
  have hcheck := Site.check_assign hr hassigns.hasValue
  generalize assign x o e.span r.result (r.check r.state).2 = out at hassigns hcheck
  have hresult : Site.result ⟨c', .assign x o e span, true⟩ = (out.1, false) := congrArg Prod.fst hcheck
  have hafter : after = { out.2 with depth := out.2.depth - 1 } := congrArg Prod.snd hcheck
  obtain rfl := Site.eq_of_mem_assign hr
  rw [hresult, hafter]
  refine ⟨?_, rfl, hassigns.target, fun hnone => ⟨hassigns.unknown hnone, ?_⟩, happlication⟩
  · rw [Site.reported, reported, Site.check, if_pos rfl, hcheck]
    exact congrArg (List.drop c'.diagnostics.length) hassigns.diagnostics
  · rintro (herror | hfalse)
    · exact (Site.isValue_of_standIn hstandIn).2 ((hassigns.unknown hnone).symm.trans herror)
    · cases hfalse

/-- `true + 1`, for which there is no operator. -/
def mistake : Surface.Expr :=
  .binary (.boolean true ⟨"a", 6, 10⟩) ⟨.punct .plus, "+", "a", 11, 12⟩ (.number 1 ⟨"a", 13, 14⟩) ⟨"a", 6, 14⟩

/-- `x = true + 1`. -/
def assignedMistake : Surface.Expr :=
  .assign ⟨"x", "a", 2, 3⟩ ⟨.punct .assignment, "=", "a", 4, 5⟩ mistake ⟨"a", 2, 14⟩

/-- There is a negation of truth values, so `!(x = true + 1)` has nothing to object to. -/
theorem negation_of_mistake_reports_nothing_more :
    let c := Checker.start ⟨#[], #[]⟩ .standard .empty none
    let p : Site := ⟨c, .unary ⟨.punct .not, "!", "a", 0, 1⟩ assignedMistake ⟨"a", 0, 15⟩, false⟩
    let q : Site := ⟨{ c with depth := 1 }, assignedMistake, true⟩
    let r : Site := ⟨{ c with depth := 2 }, mistake, true⟩
    (r.result.2 = true ∧ r.reported.map (·.problem) = [.undefinedBinaryOperator "+" "boolean" "int"]) ∧
      q.reported = r.reported ∧ q.result.1.type = r.result.1.type ∧ ¬ q.result.Failed ∧ p.own = [] := by
  intro c p q r
  have hclosed : r.result.2 = true ∧
      r.reported.map (·.problem) = [.undefinedBinaryOperator "+" "boolean" "int"] ∧
      r.result.1.type = .boolean ∧ (r.check r.state).2.scope.findVariable? "x" = none ∧
      (UnaryOp.find? (.punct .not) .boolean).isSome = true := by decide +kernel
  obtain ⟨hstandIn, hreported, htype, hunknown, hfound⟩ := hclosed
  obtain ⟨hsame, -, -, hfresh, -, -, hown⟩ := implicit_declaration_may_report_again
    (c := c) (k := p.expr) trivial (q := q) (r := r) (.head _) rfl rfl rfl rfl (.head _) hstandIn
  obtain ⟨hq, hok⟩ := hfresh hunknown
  refine ⟨⟨hstandIn, hreported⟩, hsame, hq, hok, ?_⟩
  refine (hown (List.forall_mem_singleton.2 hok)).trans ?_
  show Surface.Expr.missing (UnaryOp.find? (.punct .not) q.result.1.type).isSome _ _ = []
  rw [hq, htype, Surface.Expr.missing, if_pos hfound]

/-- `-(x = true + 1)` is reported twice: the second report is about the stand-in. -/
theorem minus_of_mistake_is_reported_twice :
    let c := Checker.start ⟨#[], #[]⟩ .standard .empty none
    ((Site.mk c (.unary ⟨.punct .dash, "-", "a", 0, 1⟩ assignedMistake ⟨"a", 0, 15⟩) false).reported).map
        (·.problem) =
      [.undefinedBinaryOperator "+" "boolean" "int", .undefinedUnaryOperator "-" "boolean"] := by
  decide +kernel

end Checking

end Scripting
