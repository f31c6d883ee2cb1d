import Scripting.Proofs.Check.Context

/-!
# Checks come back

A check of a statement or an expression ends in the context it began in, also where the limit of nesting
cuts it short: at the same depth, inside the same loops, with the layers of scope around it untouched. Its
own layer may have more variables, under names that were free in it. Blocks and `for` loops open a layer,
which is gone when they end.
-/

namespace Scripting

variable {α : Type}

/-! ## Scopes that grow -/

/-- Variables were added to the innermost layer, under names that were free in it, and nothing else was
changed. -/
structure Scope.ExtendedBy (s s' : Scope) (added : List (String × VarId)) : Prop where
  outer : s'.outer = s.outer
  funcs : s'.inner.funcs = s.inner.funcs
  vars : s'.inner.vars = s.inner.vars ++ added
  free : ∀ p ∈ added, s.inner.findVariable? p.1 = none
  nodup : (added.map (·.1)).Nodup

namespace Scope.ExtendedBy

variable {s s₁ s₂ : Scope} {added more : List (String × VarId)}

theorem refl (s : Scope) : s.ExtendedBy s [] where
  outer := rfl
  funcs := rfl
  vars := (List.append_nil _).symm
  free := List.forall_mem_nil _
  nodup := List.nodup_nil

/-- The layer answers as before, and beyond that for the names that were added. -/
theorem findVariable?_inner (h : s.ExtendedBy s₁ added) (name : String) :
    s₁.inner.findVariable? name = (s.inner.findVariable? name).or (added.lookup name) := by
  unfold Layer.findVariable?
  rw [h.vars, List.lookup_append]

theorem trans (h : s.ExtendedBy s₁ added) (h' : s₁.ExtendedBy s₂ more) :
    s.ExtendedBy s₂ (added ++ more) where
  outer := h'.outer.trans h.outer
  funcs := h'.funcs.trans h.funcs
  vars := by rw [h'.vars, h.vars, List.append_assoc]
  free := by
    refine List.forall_mem_append.2 ⟨h.free, fun p hp => ?_⟩
    have hfree := h'.free p hp
    rw [h.findVariable?_inner] at hfree
    exact (Option.or_eq_none_iff.1 hfree).1
  nodup := by
    rw [List.map_append]
    refine h.nodup.append h'.nodup ?_
    -- a name added later is free in a layer that has those added before
    intro name hname hmore
    obtain ⟨p, hp, rfl⟩ := List.mem_map.1 hmore
    obtain ⟨q, hq, hqp⟩ := List.mem_map.1 hname
    have hfree := h'.free p hp
    rw [h.findVariable?_inner, Option.or_eq_none_iff, List.lookup_eq_none_iff] at hfree
    exact absurd hqp.symm (bne_iff_ne.1 (hfree.2 q hq))

theorem findVariable?_inner_of_some (h : s.ExtendedBy s₁ added) {name : String} {x : VarId}
    (hx : s.inner.findVariable? name = some x) : s₁.inner.findVariable? name = some x := by
  rw [h.findVariable?_inner, hx]
  rfl

theorem findFunction?_eq (h : s.ExtendedBy s₁ added) (name : String) (types : List Ty) :
    s₁.findFunction? name types = s.findFunction? name types := by
  unfold Scope.findFunction? Scope.layers
  rw [h.outer, List.findSome?_cons, List.findSome?_cons]
  unfold Layer.findFunction? Layer.overloads
  rw [h.funcs]

theorem of_declareVariable? {name : String} {x : VarId} (h : s.declareVariable? name x = some s₁) :
    s.ExtendedBy s₁ [(name, x)] := by
  obtain ⟨hfree, rfl⟩ := Scope.declareVariable?_eq_some h
  exact ⟨rfl, rfl, rfl, List.forall_mem_singleton.2 hfree, List.nodup_singleton _⟩

end Scope.ExtendedBy

namespace Checker

/-- The context is that of before: depth and loops are the same, diagnostics were only added, and the
scope has at most more variables in its innermost layer, where no name changed its meaning. -/
structure Restores (c c' : Checker) : Prop where
  depth : c'.depth = c.depth
  loops : c'.loops = c.loops
  diagnostics : c.diagnostics <+: c'.diagnostics
  scope : ∃ added, c.scope.ExtendedBy c'.scope added
  variables_kept : ∀ name x, c.scope.inner.findVariable? name = some x →
    c'.scope.inner.findVariable? name = some x
  functions_kept : ∀ name types, c'.scope.findFunction? name types = c.scope.findFunction? name types

end Checker

namespace Checking

/-! ## Checks that add fresh names only -/

/-- The step is steady, and what it adds to the scope are variables under free names. -/
structure Extending (step : Checking α) : Prop where
  steady : Steady step
  extends_scope : ∀ c : Checker, ∃ added, c.scope.ExtendedBy (step c).2.scope added

theorem Extending.restores {step : Checking α} (h : Extending step) (c : Checker) :
    c.Restores (step c).2 := by
  have hkeeps := h.steady c
  obtain ⟨added, hadded⟩ := h.extends_scope c
  exact ⟨hkeeps.depth, hkeeps.loops, hkeeps.diagnostics, ⟨added, hadded⟩,
    fun _ _ => hadded.findVariable?_inner_of_some, hadded.findFunction?_eq⟩

/-- The step leaves the scope alone. -/
theorem Extending.of_scope_eq {step : Checking α} (hsteady : Steady step)
    (h : ∀ c : Checker, (step c).2.scope = c.scope) : Extending step :=
  ⟨hsteady, fun c => ⟨[], (h c).symm ▸ .refl c.scope⟩⟩

theorem scope_enter (span : Span) (c : Checker) : (enter span c).2.scope = c.scope := by
  by_cases hlimit : c.depth < c.options.maxDepth
  · rw [enter_of_lt hlimit]
  · rw [enter_of_not_lt hlimit]
    dsimp only
    split <;> rfl

/-- Around a step, the limit of nesting changes nothing in the scope but to leave the step out. -/
theorem scope_nested (span : Span) (standIn : α) (step : Checking α) (c : Checker) :
    (nested span standIn step c).2.scope =
      if (enter span c).1 then (step (enter span c).2).2.scope else c.scope := by
  rw [nested_apply]
  split
  · rfl
  · exact scope_enter span c

theorem extending_nested {span : Span} {standIn : α} {step : Checking α} (h : Extending step) :
    Extending (nested span standIn step) where
  steady := steady_nested h.steady
  extends_scope c := by
    obtain ⟨added, hadded⟩ := h.extends_scope (enter span c).2
    rw [scope_nested]
    split
    · exact ⟨added, scope_enter span c ▸ hadded⟩
    · exact ⟨[], .refl c.scope⟩

theorem scope_inLayer {step : Checking α} (h : Steady step) (c : Checker) :
    (inLayer step c).2.scope = c.scope := by
  rw [inLayer_eq h]

theorem extending_inLoop {step : Checking α} (h : Extending step) : Extending (inLoop step) where
  steady := steady_inLoop h.steady
  extends_scope c := h.extends_scope { c with
    loopCount := c.loopCount + 1
    loops := (.numbered "break" (c.loopCount + 1), .numbered "continue" (c.loopCount + 1)) :: c.loops }

theorem extending_declareVariable (name : String) (span : Span) (readOnly : Bool) (type : Ty) :
    Extending (declareVariable name span readOnly type) where
  steady := steady_declareVariable name span readOnly type
  extends_scope c := by
    cases hscope : c.scope.declareVariable? name
        (c.symbols.addVariable (c.declared name type readOnly)).1 with
    | some scope =>
      rw [declareVariable_of_some hscope]
      exact ⟨_, .of_declareVariable? hscope⟩
    | none =>
      rw [declareVariable_of_none hscope]
      exact ⟨[], .refl c.scope⟩

theorem composes_extending : Composes (fun _ => True) fun _ => Extending where
  pure a := .of_scope_eq (steady_pure a) fun _ => rfl
  bind_of h hR hf := by
    refine ⟨ComposesExpr.bind_of (n := 0) (k := 0) composesExpr_steady h.steady hR fun a ha => (hf a ha).steady, fun c => ?_⟩
    obtain ⟨added, hadded⟩ := h.extends_scope c
    obtain ⟨more, hmore⟩ := (hf _ (hR c)).extends_scope _
    exact ⟨added ++ more, hadded.trans hmore⟩
  get hf := ⟨steady_get fun c => (hf c).steady, fun c => (hf c).extends_scope c⟩
  report _ _ := .of_scope_eq (steady_report _ _) fun _ => rfl
  nested _ := extending_nested
  inLayer h := .of_scope_eq (steady_inLayer h.steady) (scope_inLayer h.steady)
  inLoop := extending_inLoop
  declareVariable _ := extending_declareVariable _ _ _ _
  addVariable v hf := ⟨Composes.addVariable (n := 0) composes_steady v fun x => (hf x).steady,
    fun c => (hf (c.symbols.addVariable v).1).extends_scope
      { c with symbols := (c.symbols.addVariable v).2 }⟩

theorem extending_stmt (s : Surface.Stmt) : Extending (stmt s) :=
  Composes.of_stmt composes_extending s (.of_forall fun _ => trivial)

theorem extending_expr (e : Surface.Expr) : Extending (expr e) :=
  ComposesExpr.of_expr composes_extending.toComposesExpr e (.of_forall fun _ => trivial)

theorem extending_value (e : Surface.Expr) : Extending (value e) :=
  ComposesExpr.of_value composes_extending.toComposesExpr (.of_forall fun _ => trivial)

/-! ## Statements with a layer of their own -/

theorem scope_block (ss : List Surface.Stmt) (c : Checker) : (block ss c).2.scope = c.scope :=
  scope_inLayer (steady_stmts ss) c

theorem scope_stmt_block (ss : List Surface.Stmt) (span : Span) (c : Checker) :
    (stmt (.block ss span) c).2.scope = c.scope := by
  have hinside := scope_block ss (enter span c).2
  unfold stmt
  rw [scope_nested]
  split
  · exact hinside.trans (scope_enter span c)
  · rfl

theorem scope_stmt_forLoop (first : Surface.Stmt) (cond increment : Surface.Expr) (body : Surface.Stmt)
    (span : Span) (c : Checker) :
    (stmt (.forLoop first cond increment body span) c).2.scope = c.scope := by
  unfold stmt
  rw [scope_nested]
  split
  · refine (scope_inLayer ?_ _).trans (scope_enter span c)
    refine (steady_stmt first).bind fun i => (steady_condition cond).bind fun c => ?_
    refine (steady_expr increment).bind fun n => (steady_inLoop (steady_stmt body)).bind fun b => ?_
    exact steady_pure _
  · rfl

/-- **Checking restores its context**: from every state, for every statement and every expression, whatever
is wrong with it and wherever the limit of nesting is hit. Blocks and `for` loops leave the scope exactly as
it was. -/
theorem checks_restore_context (c : Checker) :
    (∀ s, c.Restores (stmt s c).2) ∧
    (∀ e, c.Restores (expr e c).2 ∧ c.Restores (value e c).2) ∧
    (∀ ss span, (stmt (.block ss span) c).2.scope = c.scope ∧ (block ss c).2.scope = c.scope) ∧
    ∀ first cond increment body span,
      (stmt (.forLoop first cond increment body span) c).2.scope = c.scope :=
  ⟨fun s => (extending_stmt s).restores c,
    fun e => ⟨(extending_expr e).restores c, (extending_value e).restores c⟩,
    fun ss span => ⟨scope_stmt_block ss span c, scope_block ss c⟩,
    fun first cond increment body span => scope_stmt_forLoop first cond increment body span c⟩

end Checking

end Scripting
