import Scripting.Proofs.Check.Context
import Scripting.Proofs.Lowering.Writes
import Scripting.Proofs.Symbol.Renumbering

/-!
# Writes of checked trees

If nothing is reported, the assignments in a checked tree are to variables that may be assigned
(`Checking.Guarded`). Whatever is reported, every declaration in it is of a variable that was new when the
declaration was checked (`Checking.Binds`). So the variables that are declared come in the order of their
handles, behind all that there were before.
-/

namespace Scripting

open Typed (Write)

variable {α β : Type} {T : SymbolTable}

def SymbolTable.Writable (t : SymbolTable) (x : VarId) : Prop :=
  ∃ v, t.variableAt? x = some v ∧ v.readOnly = false

/-- The variable is a parameter, which cannot be assigned. -/
def SymbolTable.IsParameter (t : SymbolTable) (x : VarId) : Prop :=
  ∃ v, t.variableAt? x = some v ∧ v.readOnly = true ∧ v.kind = .parameter

theorem SymbolTable.IsParameter.mono {t : SymbolTable} {x : VarId} (h : t.IsParameter x)
    (hext : t.Extends T) : T.IsParameter x := by
  obtain ⟨v, hv, hparameter⟩ := h
  exact ⟨v, hext.vars _ _ hv, hparameter⟩

def Typed.Write.Allowed (t : SymbolTable) : Write → Prop
  | declaration _ => True
  | assignment x => t.Writable x

namespace Checking

/-! ## Names that resolve -/

/-- The step is steady, and names that resolve before it do so after it. -/
structure Resolving (step : Checking α) : Prop where
  steady : Steady step
  resolves : ∀ c : Checker, c.scope.Resolves c.symbols → (step c).2.scope.Resolves (step c).2.symbols

/-- The step leaves the scope alone. -/
theorem Resolving.of_scope_eq {step : Checking α} (hsteady : Steady step)
    (h : ∀ c : Checker, (step c).2.scope = c.scope) : Resolving step :=
  ⟨hsteady, fun c hc => (h c).symm ▸ hc.mono (hsteady c).symbols⟩

/-- A nested step is the step from one level deeper, or what stands in for it, and then names and symbols
are as before. -/
theorem nested_cases (span : Span) (standIn : α) (step : Checking α) (c : Checker) :
    (∃ depth, nested span standIn step c = ((step { c with depth := c.depth + 1 }).1,
      { (step { c with depth := c.depth + 1 }).2 with depth := depth })) ∨
    ∃ c' : Checker, nested span standIn step c = (standIn, c') ∧ c'.scope = c.scope ∧
      c'.symbols = c.symbols ∧ c'.function? = c.function? := by
  rw [nested_apply]
  by_cases hlimit : c.depth < c.options.maxDepth
  · rw [enter_of_lt hlimit, if_pos rfl]
    exact .inl ⟨_, rfl⟩
  · rw [enter_of_not_lt hlimit, if_neg Bool.false_ne_true]
    refine .inr ⟨_, rfl, ?_⟩
    cases c.depthReported with
    | true => exact ⟨rfl, rfl, rfl⟩
    | false => exact ⟨rfl, rfl, rfl⟩

theorem resolving_nested {span : Span} {standIn : α} {step : Checking α} (h : Resolving step) :
    Resolving (nested span standIn step) where
  steady := steady_nested h.steady
  resolves c hc := by
    rcases nested_cases span standIn step c with ⟨depth, heq⟩ | ⟨c', heq, hscope, hsymbols, -⟩
    · rw [heq]
      exact h.resolves { c with depth := c.depth + 1 } hc
    · rw [heq]
      show c'.scope.Resolves c'.symbols
      rw [hscope, hsymbols]
      exact hc

theorem resolving_declareVariable (name : String) (span : Span) (readOnly : Bool) (type : Ty) :
    Resolving (declareVariable name span readOnly type) where
  steady := steady_declareVariable name span readOnly type
  resolves c hc := by
    have hgrown := hc.mono (c.symbols.extends_addVariable (c.declared name type readOnly))
    cases hscope : c.scope.declareVariable? name
        (c.symbols.addVariable (c.declared name type readOnly)).1 with
    | some scope =>
      rw [declareVariable_of_some hscope]
      exact hgrown.declareVariable? hscope (c.symbols.variableAt?_addVariable _) rfl
    | none =>
      rw [declareVariable_of_none hscope]
      exact hgrown

/-- Whether or not its name was free, the variable is new, and its handle is the next one. -/
theorem symbols_declareVariable (name : String) (span : Span) (readOnly : Bool) (type : Ty) (c : Checker) :
    (declareVariable name span readOnly type c).1 =
        (c.symbols.addVariable (c.declared name type readOnly)).1 ∧
      (declareVariable name span readOnly type c).2.symbols =
        (c.symbols.addVariable (c.declared name type readOnly)).2 := by
  cases hscope : c.scope.declareVariable? name
      (c.symbols.addVariable (c.declared name type readOnly)).1 with
  | some scope =>
    rw [declareVariable_of_some hscope]
    exact ⟨rfl, rfl⟩
  | none =>
    rw [declareVariable_of_none hscope]
    exact ⟨rfl, rfl⟩

theorem variableAt?_declareVariable (name : String) (span : Span) (readOnly : Bool) (type : Ty)
    (c : Checker) :
    (declareVariable name span readOnly type c).2.symbols.variableAt?
      (declareVariable name span readOnly type c).1 = some (c.declared name type readOnly) := by
  obtain ⟨hx, hsymbols⟩ := symbols_declareVariable name span readOnly type c
  rw [hx, hsymbols]
  exact c.symbols.variableAt?_addVariable _

theorem composes_resolving : Composes (fun _ => True) fun _ => Resolving where
  pure a := ⟨steady_pure a, fun _ hc => hc⟩
  bind_of h hR hf :=
    ⟨ComposesExpr.bind_of (n := 0) (k := 0) composesExpr_steady h.steady hR fun a ha => (hf a ha).steady,
      fun c hc => (hf _ (hR c)).resolves _ (h.resolves c hc)⟩
  get hf := ⟨steady_get fun c => (hf c).steady, fun c hc => (hf c).resolves c hc⟩
  report _ _ := ⟨steady_report _ _, fun _ hc => hc⟩
  nested _ := resolving_nested
  inLayer h := .of_scope_eq (steady_inLayer h.steady) fun c => by rw [inLayer_eq h.steady]
  inLoop h := ⟨steady_inLoop h.steady, fun _ hc => h.resolves _ hc⟩
  declareVariable _ := resolving_declareVariable _ _ _ _
  addVariable v hf :=
    ⟨Composes.addVariable (n := 0) composes_steady v fun x => (hf x).steady, fun c hc =>
      (hf _).resolves _ (hc.mono (c.symbols.extends_addVariable v))⟩

/-! ## Assignments -/

/-- From a state whose names resolve, the step reports something or gives a result of the kind, where `T`
has all symbols there are after it. -/
structure Guarded (T : SymbolTable) (P : α → Prop) (step : Checking α) : Prop extends Resolving step where
  holds : ∀ c : Checker, c.scope.Resolves c.symbols → (step c).2.diagnostics = [] →
    (step c).2.symbols.Extends T → P (step c).1

namespace Guarded

variable {P : α → Prop} {Q : β → Prop} {step : Checking α}

theorem of_forall (h : Resolving step) (hP : ∀ c, P (step c).1) : Guarded T P step :=
  ⟨h, fun c _ _ _ => hP c⟩

theorem of_pure {b : β} (h : Q b) : Guarded T Q (pure b) := .of_forall (composes_resolving.pure b) fun _ => h

theorem bind {f : α → Checking β} (h : Guarded T P step) (hf : ∀ a, Guarded T (fun b => P a → Q b) (f a)) :
    Guarded T Q (step >>= f) where
  toResolving := ⟨h.steady.bind fun a => (hf a).steady, fun c hc => (hf _).resolves _ (h.resolves c hc)⟩
  holds c hc hclean hext := by
    have hnext := (hf (step c).1).steady (step c).2
    refine (hf (step c).1).holds _ (h.resolves c hc) hclean hext (h.holds c hc ?_ ?_)
    · exact List.prefix_nil.1 (hclean ▸ hnext.diagnostics)
    · exact hnext.symbols.trans hext

theorem of_get {f : Checker → Checking β} (h : ∀ c, Guarded T Q (f c)) : Guarded T Q (get >>= f) :=
  ⟨Composes.toComposesExpr composes_resolving |>.get (n := 0) fun c => (h c).toResolving,
    fun c hc => (h c).holds c hc⟩

theorem imp {P' : α → Prop} (h : Guarded T P step) (hP : ∀ a, P a → P' a) : Guarded T P' step :=
  ⟨h.toResolving, fun c hc hclean hext => hP _ (h.holds c hc hclean hext)⟩

/-- After a report nothing is promised. -/
theorem reported (span : Span) (problem : Problem) (b : β) :
    Guarded T Q (do report span problem; return b) where
  toResolving := ⟨steady_reported span problem b, fun _ hc => hc⟩
  holds c _ hclean := absurd hclean (diagnostics_report span problem c)

theorem report_if {p : Prop} [Decidable p] {span : Span} {problem : Problem} (h : Guarded T P step) :
    Guarded T P (if p then do report span problem; step else step) := by
  split
  · exact bind (P := fun _ => True) (.of_forall ⟨steady_report span problem, fun _ hc => hc⟩ fun _ => trivial)
      fun _ => h.imp fun _ hP _ => hP
  · exact h

theorem nested (h : Guarded T P step) (span : Span) {standIn : α} (hstandIn : P standIn) :
    Guarded T P (nested span standIn step) where
  toResolving := resolving_nested h.toResolving
  holds c hc := by
    rcases nested_cases span standIn step c with ⟨depth, heq⟩ | ⟨c', heq, -⟩
    · rw [heq]
      exact h.holds { c with depth := c.depth + 1 } hc
    · rw [heq]
      exact fun _ _ => hstandIn

end Guarded

abbrev Obeys (T : SymbolTable) (e : Typed.Expr) : Prop := ∀ u ∈ e.writes, u.Allowed T

theorem obeys_error : Obeys T .error := List.forall_mem_nil _

theorem guarded_requireValue (span : Span) {step : Checking Checked}
    (h : Guarded T (fun r => Obeys T r.1) step) :
    Guarded T (fun r => Obeys T r.1) (requireValue span step) := by
  refine h.bind fun r => ?_
  obtain ⟨e, standIn⟩ := r
  dsimp only
  split
  · exact .reported _ _ _
  · exact .of_pure id

theorem guarded_convert (span : Span) (e : Typed.Expr) (target : Ty) (written standIn : Bool) :
    Guarded T (fun e' => Obeys T e → Obeys T e') (convert span e target written standIn) := by
  have hrefused : ∀ (silent : Bool) (problem : Problem), Guarded T (fun e' => Obeys T e → Obeys T e') (do
      unless silent do report span problem
      return Typed.Expr.error) := by
    intro silent problem
    cases silent with
    | true => exact .of_pure fun _ => obeys_error
    | false => exact .reported _ _ _
  unfold convert
  dsimp only
  split
  · exact hrefused _ _
  · exact .of_pure id
  · exact .of_pure id
  · split
    · exact .of_pure id
    · exact hrefused _ _

theorem guarded_named (name : Surface.Name) : Guarded T (Obeys T) (named name) := by
  refine .of_get fun c => ?_
  split
  · exact .of_pure (List.forall_mem_nil _)
  · exact .reported _ _ _

theorem guarded_unary (operator : Token) (operand : Checked) :
    Guarded T (fun r => Obeys T operand.1 → Obeys T r.1) (unary operator operand) := by
  obtain ⟨e, standIn⟩ := operand
  unfold unary
  dsimp only
  split
  · exact .of_pure fun _ => obeys_error
  · split
    · exact .of_pure id
    · split
      · exact .of_pure id
      · exact .reported _ _ _

theorem guarded_binary (operator : Token) (left right : Checked) :
    Guarded T (fun r => Obeys T right.1 → Obeys T left.1 → Obeys T r.1) (binary operator left right) := by
  unfold binary
  dsimp only
  split
  · exact .of_pure fun _ _ => obeys_error
  · split
    · exact .of_pure fun _ hl => hl
    · split
      · exact .of_pure fun hr hl => List.forall_mem_append.2 ⟨hl, hr⟩
      · exact .reported _ _ _

/-- An assignment to a variable in scope is reported unless the variable may be assigned. -/
theorem guarded_assignTo {x : VarId} (hx : T.Writable x) (target : Surface.Name) (operator : Token)
    (valueSpan : Span) (value : Checked) :
    Guarded T (fun e => Obeys T value.1 → Obeys T e) (assignTo x target operator valueSpan value) := by
  have hassigned : ∀ e : Typed.Expr, Obeys T e → ∀ u ∈ e.writes ++ [Write.assignment x], u.Allowed T :=
    fun e he => List.forall_mem_append.2 ⟨he, List.forall_mem_singleton.2 hx⟩
  refine .of_get fun c => .report_if ?_
  split
  · refine (guarded_convert valueSpan value.1 _ false value.2).bind fun e' => .of_pure fun he' he => ?_
    exact hassigned e' (he' he)
  · split
    · exact .of_pure fun _ => obeys_error
    · split
      · exact .of_pure fun he => hassigned value.1 he
      · exact .reported _ _ _

theorem diagnostics_report_if {p : Prop} [Decidable p] (hp : p) {span : Span} {problem : Problem}
    {step : Checking α} (h : Steady step) (c : Checker) :
    ((if p then do report span problem; step else step) c).2.diagnostics ≠ [] := by
  rw [if_pos hp]
  intro hnil
  refine diagnostics_report span problem c (List.prefix_nil.1 (hnil ▸ ?_))
  exact (h (report span problem c).2).diagnostics

/-- An assignment to a variable that may not be assigned is reported. -/
theorem diagnostics_assignTo_of_readOnly {x : VarId} {v : VariableSymbol} {c : Checker}
    (hv : c.symbols.variableAt? x = some v) (hreadOnly : v.readOnly = true) (target : Surface.Name)
    (operator : Token) (valueSpan : Span) (value : Checked) :
    (assignTo x target operator valueSpan value c).2.diagnostics ≠ [] := by
  obtain ⟨e, standIn⟩ := value
  unfold assignTo
  dsimp only
  rw [get_bind]
  refine diagnostics_report_if (by rw [hv]; exact hreadOnly) ?_ c
  split
  · exact (steady_convert _ _ _ _ _).bind fun _ => steady_pure _
  · split
    · exact steady_pure _
    · split
      · exact steady_pure _
      · exact steady_reported _ _ _

theorem guarded_assign (target : Surface.Name) (operator : Token) (valueSpan : Span) (value : Checked) :
    Guarded T (fun e => Obeys T value.1 → Obeys T e) (assign target operator valueSpan value) where
  toResolving := ComposesExpr.of_assign (Composes.toComposesExpr composes_resolving) trivial trivial trivial
    (resolving_declareVariable _ _ _ _)
  holds c hc := by
    unfold assign
    rw [get_bind]
    cases hx : c.scope.findVariable? target.text with
    | some x =>
      intro hclean hext
      obtain ⟨v, hv⟩ := hc.exists_variable hx
      cases hreadOnly : v.readOnly with
      | true => exact absurd hclean (diagnostics_assignTo_of_readOnly hv hreadOnly _ _ _ _)
      | false =>
        have hsteady : Steady (assignTo x target operator valueSpan value) :=
          ComposesExpr.of_assignTo composesExpr_steady trivial trivial trivial x value
        have hwritable : T.Writable x := ⟨v, hext.vars _ _ ((hsteady c).symbols.vars _ _ hv), hreadOnly⟩
        exact (guarded_assignTo hwritable target operator valueSpan value).holds c hc hclean hext
    | none =>
      dsimp only
      split
      · intro _ hext hvalue
        refine List.forall_mem_append.2 ⟨hvalue, List.forall_mem_singleton.2 ?_⟩
        exact ⟨_, hext.vars _ _ (variableAt?_declareVariable _ _ _ _ c), rfl⟩
      · exact fun hclean => absurd hclean (diagnostics_report _ _ c)

theorem guarded_callOrConvert (callee : Surface.Name) (spans : List Span) (arguments : List Checked) :
    Guarded T (fun e => (∀ r ∈ arguments, Obeys T r.1) → Obeys T e)
      (callOrConvert callee spans arguments) := by
  unfold callOrConvert
  split
  case h_1 target span e standIn _ =>
    exact (guarded_convert span e target true standIn).imp fun e' he' he => he' (he _ List.mem_cons_self)
  case h_2 =>
    unfold call
    dsimp only
    split
    · exact .of_pure fun _ => obeys_error
    · refine .of_get fun c => ?_
      split
      · refine .of_pure fun harguments => ?_
        rw [Obeys, Typed.Expr.writes, Typed.Expr.writesList_eq_flatMap, List.forall_mem_flatMap]
        exact List.forall_mem_map.2 harguments
      · exact .reported _ _ _

mutual

theorem guarded_expr (e : Surface.Expr) : Guarded T (fun r => Obeys T r.1) (expr e) := by
  unfold expr
  refine .nested ?_ e.span obeys_error
  cases e with
  | number | text | boolean => exact .of_pure (List.forall_mem_nil _)
  | name x => exact (guarded_named x).bind fun _ => .of_pure id
  | binary l o r _ =>
    refine (guarded_requireValue l.span (guarded_expr l)).bind fun left => ?_
    exact (guarded_requireValue r.span (guarded_expr r)).bind fun right => guarded_binary o left right
  | unary o e _ =>
    exact (guarded_requireValue e.span (guarded_expr e)).bind fun operand => guarded_unary o operand
  | assign x o e _ =>
    refine (guarded_requireValue e.span (guarded_expr e)).bind fun value => ?_
    exact (guarded_assign x o e.span value).bind fun _ => .of_pure id
  | call f es _ =>
    refine (guarded_values es).bind fun arguments => ?_
    exact (guarded_callOrConvert f _ arguments).bind fun _ => .of_pure id

theorem guarded_values (es : List Surface.Expr) :
    Guarded T (fun rs => ∀ r ∈ rs, Obeys T r.1) (values es) := by
  unfold values
  cases es with
  | nil => exact .of_pure (List.forall_mem_nil _)
  | cons e es =>
    refine (guarded_requireValue e.span (guarded_expr e)).bind fun first => ?_
    exact (guarded_values es).bind fun rest => .of_pure fun hrest hfirst =>
      List.forall_mem_cons.2 ⟨hfirst, hrest⟩

end

theorem guarded_value (e : Surface.Expr) : Guarded T (fun r => Obeys T r.1) (value e) :=
  guarded_requireValue e.span (guarded_expr e)

theorem guarded_condition (e : Surface.Expr) : Guarded T (Obeys T) (condition e) :=
  (guarded_value e).bind fun r => guarded_convert e.span r.1 .boolean false r.2

end Checking

/-! ## Declarations -/

def Checker.declaredKind (c : Checker) : VarKind := if c.function?.isNone then .global else .local_

/-- Since the first state the variables were declared, in this order, all of them new and of the kind that
is declared here. -/
structure Checker.Declares (c c' : Checker) (xs : List VarId) : Prop where
  symbols : c.symbols.Extends c'.symbols
  function : c'.function? = c.function?
  sorted : xs.Pairwise fun x y => x.index < y.index
  fresh : ∀ x ∈ xs, c.symbols.vars.size ≤ x.index
  found : ∀ x ∈ xs, ∃ v, c'.symbols.variableAt? x = some v ∧ v.kind = c.declaredKind

namespace Checker.Declares

variable {c₀ c c' : Checker} {xs : List VarId}

theorem nil (c : Checker) : c.Declares c [] :=
  ⟨.refl _, rfl, .nil, List.forall_mem_nil _, List.forall_mem_nil _⟩

theorem mono (h : c₀.Declares c xs) (hsymbols : c.symbols.Extends c'.symbols)
    (hfunction : c'.function? = c.function?) : c₀.Declares c' xs where
  symbols := h.symbols.trans hsymbols
  function := hfunction.trans h.function
  sorted := h.sorted
  fresh := h.fresh
  found x hx := by
    obtain ⟨v, hv, hkind⟩ := h.found x hx
    exact ⟨v, hsymbols.vars _ _ hv, hkind⟩

theorem lt_size (h : c₀.Declares c xs) : ∀ x ∈ xs, x.index < c.symbols.vars.size := by
  intro x hx
  obtain ⟨v, hv, -⟩ := h.found x hx
  exact SymbolTable.lt_size_of_variableAt? hv

theorem declareVariable (h : c₀.Declares c xs) (name : String) (span : Span) (readOnly : Bool) (type : Ty) :
    c₀.Declares (Checking.declareVariable name span readOnly type c).2
      (xs ++ [(Checking.declareVariable name span readOnly type c).1]) := by
  have hkeeps := Checking.steady_declareVariable name span readOnly type c
  have hnew : (Checking.declareVariable name span readOnly type c).1.index = c.symbols.vars.size :=
    congrArg VarId.index (Checking.symbols_declareVariable name span readOnly type c).1
  have hgrown := h.mono hkeeps.symbols hkeeps.function
  refine ⟨hgrown.symbols, hgrown.function, ?_, ?_, ?_⟩
  · refine List.pairwise_append.2 ⟨h.sorted, List.pairwise_singleton _ _, fun x hx y hy => ?_⟩
    obtain rfl := List.mem_singleton.1 hy
    rw [hnew]
    exact h.lt_size x hx
  · refine List.forall_mem_append.2 ⟨h.fresh, List.forall_mem_singleton.2 ?_⟩
    rw [hnew]
    exact h.symbols.vars_size_le
  · refine List.forall_mem_append.2 ⟨hgrown.found, List.forall_mem_singleton.2 ?_⟩
    refine ⟨_, Checking.variableAt?_declareVariable name span readOnly type c, ?_⟩
    unfold Checker.declared Checker.declaredKind
    rw [h.function]

end Checker.Declares

namespace Checking

/-- Besides being guarded, the step goes on from declarations of `D` to declarations of `V` of its result. -/
structure Binds (T : SymbolTable) (D : List VarId) (V : α → List VarId) (P : α → Prop)
    (step : Checking α) : Prop extends Guarded T P step where
  declares : ∀ c₀ c : Checker, c₀.Declares c D → c₀.Declares (step c).2 (V (step c).1)

/-- A guarded step whose result declares nothing. -/
theorem Guarded.binds {P : α → Prop} {step : Checking α} (h : Guarded T P step) (D : List VarId) :
    Binds T D (fun _ => D) P step :=
  ⟨h, fun _ c hc => hc.mono (h.steady c).symbols (h.steady c).function⟩

namespace Binds

variable {D : List VarId} {V : α → List VarId} {U : β → List VarId} {P : α → Prop} {Q : β → Prop}
  {step : Checking α}

theorem of_pure {b : β} (hU : U b = D) (h : Q b) : Binds T D U Q (pure b) :=
  ⟨.of_pure h, fun _ _ hc => hU.symm ▸ hc⟩

theorem bind {f : α → Checking β} (h : Binds T D V P step)
    (hf : ∀ a, Binds T (V a) U (fun b => P a → Q b) (f a)) : Binds T D U Q (step >>= f) :=
  ⟨h.toGuarded.bind fun a => (hf a).toGuarded, fun c₀ c hc => (hf _).declares c₀ _ (h.declares c₀ c hc)⟩

theorem of_get {f : Checker → Checking β} (h : ∀ c, Binds T D U Q (f c)) : Binds T D U Q (get >>= f) :=
  ⟨.of_get fun c => (h c).toGuarded, fun c₀ c hc => (h c).declares c₀ c hc⟩

theorem reported (span : Span) (problem : Problem) {b : β} (hU : U b = D) :
    Binds T D U Q (do report span problem; return b) :=
  ⟨.reported span problem b, fun _ _ hc => hU.symm ▸ hc.mono (.refl _) rfl⟩

theorem report_if {p : Prop} [Decidable p] {span : Span} {problem : Problem} (h : Binds T D V P step) :
    Binds T D V P (if p then do report span problem; step else step) := by
  refine ⟨h.toGuarded.report_if, fun c₀ c hc => ?_⟩
  split
  · exact h.declares c₀ (report span problem c).2 (hc.mono (.refl _) rfl)
  · exact h.declares c₀ c hc

theorem nested (h : Binds T D V P step) (span : Span) {standIn : α} (hstandIn : P standIn)
    (hV : V standIn = D) : Binds T D V P (nested span standIn step) where
  toGuarded := h.toGuarded.nested span hstandIn
  declares c₀ c hc := by
    rcases nested_cases span standIn step c with ⟨depth, heq⟩ | ⟨c', heq, -, hsymbols, hfunction⟩
    · rw [heq]
      have hinside := h.declares c₀ { c with depth := c.depth + 1 } (hc.mono (.refl _) rfl)
      exact hinside.mono (.refl _) rfl
    · rw [heq]
      exact hV.symm ▸ hc.mono (hsymbols ▸ .refl _) hfunction

theorem inLayer (h : Binds T D V P step) : Binds T D V P (inLayer step) where
  toResolving := Composes.inLayer (n := 0) composes_resolving h.toResolving
  holds c hc := by
    rw [inLayer_eq h.steady]
    exact h.holds { c with scope := c.scope.push } hc.push
  declares c₀ c hc := by
    rw [inLayer_eq h.steady]
    exact (h.declares c₀ { c with scope := c.scope.push } (hc.mono (.refl _) rfl)).mono (.refl _) rfl

theorem inLoop (h : Binds T D V P step) : Binds T D (fun r => V r.1) (fun r => P r.1) (inLoop step) where
  toResolving := Composes.inLoop (n := 0) composes_resolving h.toResolving
  holds _ hc := h.holds _ hc
  declares c₀ c hc := (h.declares c₀ { c with
    loopCount := c.loopCount + 1
    loops := (.numbered "break" (c.loopCount + 1), .numbered "continue" (c.loopCount + 1)) :: c.loops }
      (hc.mono (.refl _) rfl)).mono (.refl _) rfl

end Binds

/-- The step gives a statement whose declarations are of new variables, behind those of `D`, and whose
assignments are to variables that may be assigned, unless something is reported. -/
abbrev BindsStmt (T : SymbolTable) (D : List VarId) (step : Checking Typed.Stmt) : Prop :=
  Binds T D (fun s => D ++ s.writes.filterMap Write.declared?) (fun s => ∀ u ∈ s.writes, u.Allowed T) step

section Statements

variable {D : List VarId}

/-- An instruction that is no declaration declares nothing. -/
theorem declared_expr (e : Typed.Expr) : D ++ e.writes.filterMap Write.declared? = D := by
  rw [e.declared_writes, List.append_nil]

theorem binds_exprStmt (span : Span) {step : Checking Checked}
    (h : Guarded T (fun r => Obeys T r.1) step) : BindsStmt T D (exprStmt span step) := by
  refine (h.binds D).bind fun r => .of_get fun c => .report_if ?_
  exact .of_pure (declared_expr r.1) id

theorem binds_declareVariable (name : String) (span : Span) (readOnly : Bool) (type : Ty) :
    Binds T D (fun x => D ++ [x]) (fun _ => True) (declareVariable name span readOnly type) :=
  ⟨.of_forall (resolving_declareVariable name span readOnly type) fun _ => trivial,
    fun _ _ hc => hc.declareVariable name span readOnly type⟩

theorem binds_declare (d : Surface.VariableDecl) : BindsStmt T D (declare d) := by
  have htype : Guarded T (fun _ => True) (d.type?.mapM typeOf) :=
    .of_forall (Composes.of_option_mapM composes_resolving fun _ _ => composes_resolving.of_typeOf trivial)
      fun _ => trivial
  refine (htype.binds D).bind fun written? => ((guarded_value d.value).binds D).bind fun r => ?_
  refine (binds_declareVariable _ _ _ _).bind fun x => ?_
  refine ((guarded_convert d.value.span r.1 _ false r.2).binds _).bind fun e => .of_pure ?_ ?_
  · show D ++ (e.writes ++ [Write.declaration x]).filterMap Write.declared? = D ++ [x]
    rw [List.filterMap_append, e.declared_writes]
    rfl
  · exact fun he _ hr _ => List.forall_mem_append.2 ⟨he hr, List.forall_mem_singleton.2 trivial⟩

theorem binds_leaveLoop (keyword : Keyword) (span : Span) : BindsStmt T D (leaveLoop keyword span) := by
  refine .of_get fun c => ?_
  split
  · exact .of_pure (List.append_nil D) (List.forall_mem_nil _)
  · exact .reported _ _ (List.append_nil D)

theorem binds_returnFrom (f : FunctionSymbol) (span : Span) (value? : Option (Span × Checked)) :
    Binds T D (fun s => D ++ s.writes.filterMap Write.declared?)
      (fun s => (∀ r ∈ value?, Obeys T r.2.1) → ∀ u ∈ s.writes, u.Allowed T) (returnFrom f span value?) := by
  unfold returnFrom
  split
  case h_1 valueSpan e standIn =>
    split
    · exact .reported _ _ (List.append_nil D)
    · refine ((guarded_convert valueSpan e f.returns false standIn).binds D).bind fun e' => ?_
      exact .of_pure (declared_expr e') fun he' he => he' (he _ rfl)
  case h_2 => exact .report_if (.of_pure (List.append_nil D) fun _ => List.forall_mem_nil _)

theorem binds_returns (value? : Option Surface.Expr) (span : Span) : BindsStmt T D (returns value? span) := by
  have hvalue : Guarded T (fun checked? => ∀ r ∈ checked?, Obeys T r.2.1)
      (value?.mapM fun e => do return (e.span, ← value e)) := by
    cases value? with
    | none => exact .of_pure nofun
    | some e =>
      refine Guarded.bind (P := fun r : Span × Checked => Obeys T r.2.1)
        ((guarded_value e).bind fun r => .of_pure id) fun r => .of_pure fun hr r' hr' => ?_
      cases hr'
      exact hr
  refine (hvalue.binds D).bind fun checked? => .of_get fun c => ?_
  split
  · exact binds_returnFrom _ span checked?
  · refine .reported _ _ ?_
    cases checked? with
    | none => exact List.append_nil D
    | some r => exact declared_expr r.2.1

mutual

theorem binds_stmt (s : Surface.Stmt) (D : List VarId) : BindsStmt T D (stmt s) := by
  unfold stmt
  refine .nested ?_ s.span (List.forall_mem_nil _) (List.append_nil D)
  cases s with
  | block ss _ => exact (binds_stmts ss D).inLayer.bind fun _ => .of_pure rfl id
  | expr e => exact binds_exprStmt e.span (guarded_expr e)
  | declare d => exact binds_declare d
  | ifThen c t _ =>
    refine ((guarded_condition c).binds D).bind fun c' => (binds_stmt t D).bind fun t' => .of_pure ?_ ?_
    · simp [Typed.Stmt.writes]
    · exact fun ht hc => List.forall_mem_append.2 ⟨hc, ht⟩
  | ifElse c t e _ =>
    refine ((guarded_condition c).binds D).bind fun c' => (binds_stmt t D).bind fun t' => ?_
    refine (binds_stmt e _).bind fun e' => .of_pure ?_ ?_
    · simp [Typed.Stmt.writes]
    · exact fun he ht hc => List.forall_mem_append.2 ⟨List.forall_mem_append.2 ⟨hc, ht⟩, he⟩
  | whileLoop c b _ =>
    refine ((guarded_condition c).binds D).bind fun c' => (binds_stmt b D).inLoop.bind fun r => ?_
    refine .of_pure ?_ ?_
    · simp [Typed.Stmt.writes]
    · exact fun hb hc => List.forall_mem_append.2 ⟨hc, hb⟩
  | doWhile b c _ =>
    refine (binds_stmt b D).inLoop.bind fun r => ((guarded_condition c).binds _).bind fun c' => ?_
    refine .of_pure ?_ ?_
    · simp [Typed.Stmt.writes]
    · exact fun hc hb => List.forall_mem_append.2 ⟨hb, hc⟩
  | forLoop i c n b _ =>
    refine .inLayer ((binds_stmt i D).bind fun i' => ((guarded_condition c).binds _).bind fun c' => ?_)
    refine ((guarded_expr n).binds _).bind fun n' => (binds_stmt b _).inLoop.bind fun r => .of_pure ?_ ?_
    · simp [Typed.Stmt.writes]
    · intro hb hn hc hi
      simp only [Typed.Stmt.writes, List.forall_mem_append]
      exact ⟨⟨⟨hi, hc⟩, hb⟩, hn⟩
  | breakLoop span => exact binds_leaveLoop .break_ span
  | continueLoop span => exact binds_leaveLoop .continue_ span
  | returns v? span => exact binds_returns v? span
  | function h body => exact .reported _ _ (List.append_nil D)

theorem binds_stmts (ss : List Surface.Stmt) (D : List VarId) :
    Binds T D (fun ss' => D ++ (Typed.Stmt.writesList ss').filterMap Write.declared?)
      (fun ss' => ∀ u ∈ Typed.Stmt.writesList ss', u.Allowed T) (stmts ss) := by
  unfold stmts
  cases ss with
  | nil => exact .of_pure (List.append_nil D) (List.forall_mem_nil _)
  | cons s ss =>
    refine (binds_stmt s D).bind fun s' => (binds_stmts ss _).bind fun ss' => .of_pure ?_ ?_
    · simp [Typed.Stmt.writesList]
    · exact fun hss hs => List.forall_mem_append.2 ⟨hs, hss⟩

end

theorem binds_block (ss : List Surface.Stmt) (D : List VarId) : BindsStmt T D (block ss) :=
  (binds_stmts ss D).inLayer.bind fun _ => .of_pure rfl id

end Statements

/-! ## Parameters -/

/-- The step keeps a property of the table of symbols. -/
def Maintains (K : SymbolTable → Prop) (step : Checking α) : Prop :=
  ∀ c : Checker, K c.symbols → K (step c).2.symbols

theorem composes_maintains {K : SymbolTable → Prop}
    (hK : ∀ (t : SymbolTable) (v : VariableSymbol), K t → K (t.addVariable v).2) :
    Composes (fun _ => True) fun _ => Maintains K where
  pure _ _ hc := hc
  bind_of h hR hf c hc := hf _ (hR c) _ (h c hc)
  get hf c := hf c c
  report _ _ _ hc := hc
  nested _ h c hc := by
    rcases nested_cases _ _ _ c with ⟨depth, heq⟩ | ⟨c', heq, -, hsymbols, -⟩
    · rw [heq]
      exact h { c with depth := c.depth + 1 } hc
    · rw [heq]
      exact hsymbols ▸ hc
  inLayer h c := h { c with scope := c.scope.push }
  inLoop h _ hc := h _ hc
  declareVariable _ c hc := by
    rw [(symbols_declareVariable _ _ _ _ c).2]
    exact hK _ _ hc
  addVariable v hf c hc := hf _ _ (hK c.symbols v hc)

/-- Each parameter of a function has a variable of its own, entered from left to right. -/
theorem sorted_parameters (seen : List String) (ps : List Surface.Parameter) (c : Checker) :
    ((parameters seen ps c).1.map (·.target)).Pairwise (fun x y => x.index < y.index) ∧
      ∀ q ∈ (parameters seen ps c).1, c.symbols.vars.size ≤ q.target.index ∧
        (parameters seen ps c).2.symbols.IsParameter q.target := by
  induction ps generalizing seen c with
  | nil => exact ⟨.nil, List.forall_mem_nil _⟩
  | cons p ps ih =>
    let c₁ : Checker := (typeOf p.type c).2
    have hle : c.symbols.vars.size ≤ c₁.symbols.vars.size := (steady_typeOf p.type c).symbols.vars_size_le
    by_cases hseen : seen.contains p.name = true
    · have heq : parameters seen (p :: ps) c =
          parameters seen ps (report p.span (.parameterAlreadyDeclared p.name) c₁).2 := by
        show (if seen.contains p.name then _ else _ : Checking (List ParameterSymbol)) c₁ = _
        rw [if_pos hseen]
        rfl
      rw [heq]
      obtain ⟨hsorted, hnew⟩ := ih seen (report p.span (.parameterAlreadyDeclared p.name) c₁).2
      exact ⟨hsorted, fun q hq => ⟨Nat.le_trans hle (hnew q hq).1, (hnew q hq).2⟩⟩
    · let type : Ty := (typeOf p.type c).1
      let v : VariableSymbol := ⟨p.name, type, true, .parameter⟩
      let c₂ : Checker := { c₁ with symbols := (c₁.symbols.addVariable v).2 }
      have heq : parameters seen (p :: ps) c =
          (⟨p.name, type, (c₁.symbols.addVariable v).1⟩ :: (parameters (p.name :: seen) ps c₂).1,
            (parameters (p.name :: seen) ps c₂).2) := by
        show (if seen.contains p.name then _ else _ : Checking (List ParameterSymbol)) c₁ = _
        rw [if_neg hseen]
        rfl
      have hsize : c₂.symbols.vars.size = c₁.symbols.vars.size + 1 := Array.size_push _
      have hadded : c₂.symbols.IsParameter (c₁.symbols.addVariable v).1 :=
        ⟨v, c₁.symbols.variableAt?_addVariable v, rfl, rfl⟩
      rw [heq]
      obtain ⟨hsorted, hnew⟩ := ih (p.name :: seen) c₂
      rw [hsize] at hnew
      refine ⟨List.pairwise_cons.2 ⟨fun x hx => ?_, hsorted⟩, List.forall_mem_cons.2 ⟨⟨hle, ?_⟩, ?_⟩⟩
      · obtain ⟨q, hq, rfl⟩ := List.mem_map.1 hx
        exact Nat.lt_of_succ_le (hnew q hq).1
      · exact hadded.mono (steady_parameters (p.name :: seen) ps c₂).symbols
      · exact fun q hq => ⟨Nat.le_trans hle (Nat.le_of_succ_le (hnew q hq).1), (hnew q hq).2⟩

end Checking

/-- Each parameter of the function is a variable of its own, which cannot be assigned. -/
structure FunctionSymbol.OwnsParameters (t : SymbolTable) (a : FunctionSymbol) : Prop where
  nodup : (a.parameters.map (·.target)).Nodup
  parameters : ∀ p ∈ a.parameters, t.IsParameter p.target

theorem FunctionSymbol.OwnsParameters.mono {t : SymbolTable} {a : FunctionSymbol} (h : a.OwnsParameters t)
    (hext : t.Extends T) : a.OwnsParameters T :=
  ⟨h.nodup, fun p hp => (h.parameters p hp).mono hext⟩

def SymbolTable.ParametersOwned (t : SymbolTable) : Prop :=
  ∀ f a, t.functionAt? f = some a → a.OwnsParameters t

theorem SymbolTable.ParametersOwned.addVariable {t : SymbolTable} (h : t.ParametersOwned)
    (v : VariableSymbol) : (t.addVariable v).2.ParametersOwned :=
  fun f a ha => (h f a ha).mono (t.extends_addVariable v)

theorem SymbolTable.ParametersOwned.addFunction {t : SymbolTable} (h : t.ParametersOwned)
    {a : FunctionSymbol} (ha : a.OwnsParameters t) : (t.addFunction a).2.ParametersOwned := by
  intro f b hb
  have hpush : (t.funcs.push a)[f.index]? = some b := hb
  rw [Array.getElem?_push] at hpush
  split at hpush
  · cases hpush
    exact ⟨ha.nodup, ha.parameters⟩
  · exact ⟨(h f b hpush).nodup, (h f b hpush).parameters⟩

namespace Checking

theorem composes_owned : Composes (fun _ => True) fun _ => Maintains SymbolTable.ParametersOwned :=
  composes_maintains fun _ v h => h.addVariable v

theorem ownsParameters_symbolOf (d : Declaration) (c : Checker) :
    (symbolOf d c).1.OwnsParameters (symbolOf d c).2.symbols := by
  obtain ⟨hsorted, hnew⟩ := sorted_parameters [] d.head.parameters c
  refine ⟨hsorted.imp fun {x y} hlt heq => ?_, fun p hp => ?_⟩
  · subst heq
    exact Nat.lt_irrefl _ hlt
  · exact (hnew p hp).2.mono (steady_returnType d.head.returns? _).symbols

theorem maintains_signatures (ss : List Surface.Stmt) :
    Maintains SymbolTable.ParametersOwned (signatures ss) := by
  have hdeclare : ∀ (d : Declaration) (c : Checker), c.symbols.ParametersOwned →
      (function d c).2.symbols.ParametersOwned := by
    intro d c hc
    have hsymbols : (symbolOf d c).2.symbols.ParametersOwned :=
      composes_owned.of_symbolOf (.of_forall fun _ => trivial) c hc
    have hadded := hsymbols.addFunction (ownsParameters_symbolOf d c)
    show (declareFunction d.head.name.span (symbolOf d c).1 (symbolOf d c).2).2.symbols.ParametersOwned
    rcases declareFunction_cases d.head.name.span (symbolOf d c).1 (symbolOf d c).2 with
      ⟨scope, -, hstate⟩ | ⟨problem, hstate⟩
    · rw [hstate]
      exact hadded
    · rw [hstate]
      exact hadded
  induction ss with
  | nil => exact fun _ hc => hc
  | cons s ss ih =>
    cases s with
    | function h body => exact fun c hc => ih _ (hdeclare ⟨h, body⟩ c hc)
    | _ => exact ih

end Checking

end Scripting
