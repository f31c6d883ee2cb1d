import Scripting.Proofs.Check.Composition
import Scripting.Proofs.Check.Signatures

/-!
# What a check leaves alone

Checking a statement or an expression, whatever is wrong with it, comes back to the depth of nesting and
to the loops it started in. The layers of scope around it are as before, and its own layer is only
extended by variables; symbols and diagnostics are only added (`Checker.Keeps`). This is shown of the
elementary steps, and put together from there (`composes_steady`).
-/

namespace Scripting

variable {α β : Type}

theorem Scope.declareVariable?_eq_some {s s' : Scope} {name : String} {x : VarId}
    (h : s.declareVariable? name x = some s') :
    s.inner.findVariable? name = none ∧
      s' = { s with inner := { s.inner with vars := s.inner.vars ++ [(name, x)] } } := by
  obtain ⟨l, hl, rfl⟩ := Option.map_eq_some_iff.1 h
  unfold Layer.declareVariable? at hl
  split at hl
  case h_1 => cases hl
  case h_2 hnone =>
    cases hl
    exact ⟨hnone, rfl⟩

theorem Scope.declareVariable?_of_none {s : Scope} {name : String}
    (h : s.inner.findVariable? name = none) (x : VarId) :
    s.declareVariable? name x =
      some { s with inner := { s.inner with vars := s.inner.vars ++ [(name, x)] } } := by
  unfold Scope.declareVariable? Layer.declareVariable?
  rw [h]
  rfl

namespace Checker

def declared (c : Checker) (name : String) (type : Ty) (readOnly : Bool) : VariableSymbol :=
  ⟨name, type, readOnly, if c.function?.isNone then .global else .local_⟩

/-- The state is as before, but for what was added: symbols, diagnostics, and variables of the innermost
layer of scope. -/
structure Keeps (c c' : Checker) : Prop where
  symbols : c.symbols.Extends c'.symbols
  diagnostics : c.diagnostics <+: c'.diagnostics
  options : c'.options = c.options
  function : c'.function? = c.function?
  loops : c'.loops = c.loops
  depth : c'.depth = c.depth
  outer : c'.scope.outer = c.scope.outer
  vars : c.scope.inner.vars <+: c'.scope.inner.vars
  funcs : c'.scope.inner.funcs = c.scope.inner.funcs

theorem Keeps.refl (c : Checker) : c.Keeps c :=
  ⟨.refl _, List.prefix_rfl, rfl, rfl, rfl, rfl, rfl, List.prefix_rfl, rfl⟩

theorem Keeps.trans {c c₁ c₂ : Checker} (h : c.Keeps c₁) (h' : c₁.Keeps c₂) : c.Keeps c₂ where
  symbols := h.symbols.trans h'.symbols
  diagnostics := h.diagnostics.trans h'.diagnostics
  options := h'.options.trans h.options
  function := h'.function.trans h.function
  loops := h'.loops.trans h.loops
  depth := h'.depth.trans h.depth
  outer := h'.outer.trans h.outer
  vars := h.vars.trans h'.vars
  funcs := h'.funcs.trans h.funcs

end Checker

namespace Checking

/-- From every state, the step comes back to that state, but for what it adds. -/
def Steady (step : Checking α) : Prop := ∀ c : Checker, c.Keeps (step c).2

theorem steady_pure (a : α) : Steady (pure a) := Checker.Keeps.refl

theorem Steady.bind {step : Checking α} {f : α → Checking β} (h : Steady step)
    (hf : ∀ a, Steady (f a)) : Steady (step >>= f) :=
  fun c => (h c).trans (hf (step c).1 (step c).2)

theorem steady_get {f : Checker → Checking β} (hf : ∀ c, Steady (f c)) : Steady (get >>= f) :=
  fun c => hf c c

theorem steady_report (span : Span) (problem : Problem) : Steady (report span problem) :=
  fun c => { Checker.Keeps.refl c with diagnostics := List.prefix_append _ _ }

theorem steady_reported (span : Span) (problem : Problem) (a : α) :
    Steady (do report span problem; return a) :=
  (steady_report span problem).bind fun _ => steady_pure a

theorem steady_report_if {p : Prop} [Decidable p] {span : Span} {problem : Problem}
    {step : Checking α} (h : Steady step) :
    Steady (if p then do report span problem; step else step) := by
  split
  · exact (steady_report span problem).bind fun _ => h
  · exact h

/-! ## Brackets and declarations -/

theorem nested_apply (span : Span) (standIn : α) (step : Checking α) (c : Checker) :
    nested span standIn step c =
      if (enter span c).1 then
        ((step (enter span c).2).1,
          { (step (enter span c).2).2 with depth := (step (enter span c).2).2.depth - 1 })
      else (standIn, (enter span c).2) := by
  show (if (enter span c).1 then _ else _ : Checking α) (enter span c).2 = _
  split <;> rfl

theorem enter_of_lt {span : Span} {c : Checker} (h : c.depth < c.options.maxDepth) :
    enter span c = (true, { c with depth := c.depth + 1 }) := by
  show (if _ then _ else _ : Checking Bool) c = _
  rw [if_pos h]
  rfl

theorem enter_of_not_lt {span : Span} {c : Checker} (h : ¬ c.depth < c.options.maxDepth) :
    enter span c =
      (false, if c.depthReported then c else
        (report span (.nestingTooDeep c.options.maxDepth) { c with depthReported := true }).2) := by
  show (if _ then _ else _ : Checking Bool) c = _
  rw [if_neg h]
  cases c.depthReported <;> rfl

theorem steady_nested {span : Span} {standIn : α} {step : Checking α} (h : Steady step) :
    Steady (nested span standIn step) := by
  intro c
  rw [nested_apply]
  by_cases hlimit : c.depth < c.options.maxDepth
  · have hinside := h { c with depth := c.depth + 1 }
    rw [enter_of_lt hlimit, if_pos rfl]
    refine { hinside with depth := ?_ }
    show (step { c with depth := c.depth + 1 }).2.depth - 1 = c.depth
    rw [hinside.depth]
    rfl
  · rw [enter_of_not_lt hlimit, if_neg Bool.false_ne_true]
    dsimp only
    split
    · exact .refl c
    · exact { Checker.Keeps.refl c with diagnostics := List.prefix_append _ _ }

/-- After a step in a new layer the scope is the one before. -/
theorem Steady.pop_push {step : Checking α} (h : Steady step) (c : Checker) :
    (step { c with scope := c.scope.push }).2.scope.pop = c.scope := by
  unfold Scope.pop Scope.pop?
  rw [(h { c with scope := c.scope.push }).outer]
  rfl

theorem inLayer_eq {step : Checking α} (h : Steady step) (c : Checker) :
    inLayer step c = ((step { c with scope := c.scope.push }).1,
      { (step { c with scope := c.scope.push }).2 with scope := c.scope }) := by
  have hpop := h.pop_push c
  show ((step { c with scope := c.scope.push }).1,
    { (step { c with scope := c.scope.push }).2 with
      scope := (step { c with scope := c.scope.push }).2.scope.pop }) = _
  rw [hpop]

theorem steady_inLayer {step : Checking α} (h : Steady step) : Steady (inLayer step) := by
  intro c
  have hinside := h { c with scope := c.scope.push }
  rw [inLayer_eq h]
  exact { hinside with outer := rfl, vars := List.prefix_rfl, funcs := rfl }

theorem steady_inLoop {step : Checking α} (h : Steady step) : Steady (inLoop step) := by
  intro c
  have hinside := h { c with
    loopCount := c.loopCount + 1
    loops := (.numbered "break" (c.loopCount + 1), .numbered "continue" (c.loopCount + 1)) :: c.loops }
  exact { hinside with loops := congrArg List.tail hinside.loops }

theorem declareVariable_of_some {name : String} {span : Span} {readOnly : Bool} {type : Ty} {c : Checker}
    {scope : Scope}
    (h : c.scope.declareVariable? name (c.symbols.addVariable (c.declared name type readOnly)).1 =
      some scope) :
    declareVariable name span readOnly type c =
      ((c.symbols.addVariable (c.declared name type readOnly)).1,
        { c with symbols := (c.symbols.addVariable (c.declared name type readOnly)).2, scope := scope }) := by
  unfold declareVariable
  rw [get_bind]
  simp only [SymbolTable.addVariable, Checker.declared] at h ⊢
  rw [h]
  rfl

theorem declareVariable_of_none {name : String} {span : Span} {readOnly : Bool} {type : Ty} {c : Checker}
    (h : c.scope.declareVariable? name (c.symbols.addVariable (c.declared name type readOnly)).1 = none) :
    declareVariable name span readOnly type c =
      ((c.symbols.addVariable (c.declared name type readOnly)).1,
        (report span (.variableAlreadyDeclared name)
          { c with symbols := (c.symbols.addVariable (c.declared name type readOnly)).2 }).2) := by
  unfold declareVariable
  rw [get_bind]
  simp only [SymbolTable.addVariable, Checker.declared] at h ⊢
  rw [h]
  rfl

theorem steady_declareVariable (name : String) (span : Span) (readOnly : Bool) (type : Ty) :
    Steady (declareVariable name span readOnly type) := by
  intro c
  have hext := c.symbols.extends_addVariable (c.declared name type readOnly)
  cases hscope : c.scope.declareVariable? name
      (c.symbols.addVariable (c.declared name type readOnly)).1 with
  | some scope =>
    obtain ⟨-, rfl⟩ := Scope.declareVariable?_eq_some hscope
    rw [declareVariable_of_some hscope]
    exact { Checker.Keeps.refl c with symbols := hext, vars := List.prefix_append _ _ }
  | none =>
    rw [declareVariable_of_none hscope]
    exact { Checker.Keeps.refl c with symbols := hext, diagnostics := List.prefix_append _ _ }

theorem composesExpr_steady : ComposesExpr (fun _ => True) fun _ => Steady where
  pure := steady_pure
  bind_of h hR hf c := (h c).trans (hf _ (hR c) _)
  get := steady_get
  report _ _ := steady_report _ _
  nested _ := steady_nested
  declareImplicitly _ _ := steady_declareVariable _ _ _ _

theorem composes_steady : Composes (fun _ => True) fun _ => Steady where
  toComposesExpr := composesExpr_steady
  inLayer := steady_inLayer
  inLoop := steady_inLoop
  declareVariable _ := steady_declareVariable _ _ _ _
  addVariable v hf c := by
    have hadded : c.Keeps { c with symbols := (c.symbols.addVariable v).2 } :=
      { Checker.Keeps.refl c with symbols := c.symbols.extends_addVariable v }
    exact hadded.trans (hf _ _)

theorem steady_typeOf (name : Surface.Name) : Steady (typeOf name) :=
  Composes.of_typeOf composes_steady trivial

/-! ## Expressions -/

theorem steady_requireValue {span : Span} {step : Checking Checked} (h : Steady step) :
    Steady (requireValue span step) :=
  ComposesExpr.of_requireValue (n := 0) composesExpr_steady trivial h

theorem steady_convert (span : Span) (e : Typed.Expr) (target : Ty) (written standIn : Bool) :
    Steady (convert span e target written standIn) :=
  ComposesExpr.of_convert composesExpr_steady trivial e target written standIn

theorem steady_named (name : Surface.Name) : Steady (named name) :=
  ComposesExpr.of_named composesExpr_steady trivial

theorem steady_unary (operator : Token) (operand : Checked) : Steady (unary operator operand) :=
  ComposesExpr.of_unary composesExpr_steady trivial operand

theorem steady_binary (operator : Token) (left right : Checked) :
    Steady (binary operator left right) :=
  ComposesExpr.of_binary composesExpr_steady trivial left right

theorem steady_assign (target : Surface.Name) (operator : Token) (valueSpan : Span) (value : Checked) :
    Steady (assign target operator valueSpan value) :=
  ComposesExpr.of_assign composesExpr_steady trivial trivial trivial (steady_declareVariable _ _ _ _)

theorem steady_callOrConvert (callee : Surface.Name) (spans : List Span) (arguments : List Checked) :
    Steady (callOrConvert callee spans arguments) :=
  ComposesExpr.of_callOrConvert composesExpr_steady trivial (fun _ _ => trivial) arguments

theorem steady_expr (e : Surface.Expr) : Steady (expr e) :=
  ComposesExpr.of_expr composesExpr_steady e (.of_forall fun _ => trivial)

theorem steady_values (es : List Surface.Expr) : Steady (values es) :=
  ComposesExpr.of_values composesExpr_steady es fun _ _ => .of_forall fun _ => trivial

theorem steady_value (e : Surface.Expr) : Steady (value e) := steady_requireValue (steady_expr e)

/-! ## Statements -/

theorem steady_exprStmt (span : Span) {step : Checking Checked} (h : Steady step) :
    Steady (exprStmt span step) :=
  Composes.of_exprStmt (n := 0) composes_steady trivial h

theorem steady_option_mapM {f : α → Checking β} (hf : ∀ a, Steady (f a)) (a? : Option α) :
    Steady (a?.mapM f) :=
  Composes.of_option_mapM composes_steady fun a _ => hf a

theorem steady_declare (d : Surface.VariableDecl) : Steady (declare d) :=
  Composes.of_declare composes_steady (.of_forall fun _ => trivial)

theorem steady_condition (e : Surface.Expr) : Steady (condition e) :=
  Composes.of_condition composes_steady (.of_forall fun _ => trivial)

theorem steady_leaveLoop (keyword : Keyword) (span : Span) : Steady (leaveLoop keyword span) :=
  Composes.of_leaveLoop composes_steady keyword trivial

theorem steady_returnFrom (f : FunctionSymbol) (span : Span) (value? : Option (Span × Checked)) :
    Steady (returnFrom f span value?) :=
  Composes.of_returnFrom composes_steady f trivial fun _ _ => trivial

theorem steady_stmt (s : Surface.Stmt) : Steady (stmt s) :=
  Composes.of_stmt composes_steady s (.of_forall fun _ => trivial)

theorem steady_stmts (ss : List Surface.Stmt) : Steady (stmts ss) :=
  Composes.of_stmts composes_steady ss fun _ _ => .of_forall fun _ => trivial

/-! ## Signatures -/

theorem steady_parameters (seen : List String) (ps : List Surface.Parameter) :
    Steady (parameters seen ps) :=
  Composes.of_parameters composes_steady seen fun _ _ => .of_forall fun _ => trivial

theorem steady_returnType (name? : Option Surface.Name) : Steady (returnType name?) :=
  Composes.of_returnType composes_steady fun _ _ => trivial

theorem steady_symbolOf (d : Declaration) : Steady (symbolOf d) :=
  Composes.of_symbolOf composes_steady (.of_forall fun _ => trivial)

theorem declareFunction_of_some {span : Span} {a : FunctionSymbol} {c : Checker} {scope : Scope}
    (h : c.scope.declareFunction? a (c.symbols.addFunction a).1 = some scope) :
    (declareFunction span a c).2 =
      { c with symbols := (c.symbols.addFunction a).2, scope := scope } := by
  unfold declareFunction
  simp only [get_bind, h]
  rfl

theorem declareFunction_of_none {span : Span} {a : FunctionSymbol} {c : Checker}
    (h : c.scope.declareFunction? a (c.symbols.addFunction a).1 = none) :
    (declareFunction span a c).2 = (report span (.functionAlreadyDeclared a.signature)
      { c with symbols := (c.symbols.addFunction a).2 }).2 := by
  unfold declareFunction
  simp only [get_bind, h]
  rfl

end Checking

end Scripting
