import Scripting.Proofs.Check.Context
import Scripting.Proofs.Typed.Correspondence

/-!
# Two checks side by side

The same script is checked twice, from states that differ. A `Simulation` says which states correspond,
and when the second check is lost: from then on the first need not follow it. For each function of the
check there is one lemma: from corresponding states the two calls lead to corresponding states and give
related trees, unless the second is lost.
-/

namespace Scripting

open Typed (Label Correspondence)

variable {α β α' β' : Type}

namespace Checker

/-- Symbols are only added, and so are diagnostics. -/
structure Grows (c c' : Checker) : Prop where
  symbols : c.symbols.Extends c'.symbols
  diagnostics : c'.diagnostics = [] → c.diagnostics = []

theorem Keeps.grows {c c' : Checker} (h : c.Keeps c') : c.Grows c' := by
  refine ⟨h.symbols, fun hnil => ?_⟩
  exact List.prefix_nil.1 (hnil ▸ h.diagnostics)

theorem Grows.reported {c c' : Checker} (h : c.Grows c') (hne : c.diagnostics ≠ []) :
    c'.diagnostics ≠ [] := fun hnil => hne (h.diagnostics hnil)

def beginLoop (c : Checker) : Checker :=
  { c with
    loopCount := c.loopCount + 1
    loops := (.numbered "break" (c.loopCount + 1), .numbered "continue" (c.loopCount + 1)) :: c.loops }

def endLoop (c : Checker) : Checker := { c with loops := c.loops.tail }

end Checker

namespace Checking

/-- Which states of two checks correspond, and when the second one is lost. -/
structure Pairing where
  Rel : Checker → Checker → Prop
  Lost : Checker → Prop
  lost_mono : ∀ {c c'}, c.Grows c' → Lost c → Lost c'

namespace Pairing

variable (M : Pairing)

/-- The steps lead to corresponding states and results, unless the second is lost. -/
def Agree (Q : α → β → Prop) (x : Checking α) (y : Checking β) (c c' : Checker) : Prop :=
  ¬ M.Lost (y c').2 → M.Rel (x c).2 (y c').2 ∧ Q (x c).1 (y c').1

/-- From corresponding states the steps agree. -/
def Lockstep (Q : α → β → Prop) (x : Checking α) (y : Checking β) : Prop :=
  ∀ c c', M.Rel c c' → M.Agree Q x y c c'

variable {M} {Q Q' : α → β → Prop} {P : α' → β' → Prop} {c c' : Checker}

theorem lost_of_same (h : M.Lost c) (hsymbols : c'.symbols = c.symbols)
    (hdiagnostics : c'.diagnostics = c.diagnostics) : M.Lost c' :=
  M.lost_mono ⟨hsymbols ▸ .refl _, fun hnil => hdiagnostics ▸ hnil⟩ h

theorem lockstep_pure {a : α} {b : β} (h : Q a b) : M.Lockstep Q (pure a) (pure b) :=
  fun _ _ hrel _ => ⟨hrel, h⟩

theorem Agree.bind {x : Checking α} {y : Checking β} {f : α → Checking α'} {g : β → Checking β'}
    (h : M.Agree Q x y c c') (hf : ∀ a b, Q a b → M.Lockstep P (f a) (g b))
    (hg : ∀ b, Steady (g b)) : M.Agree P (x >>= f) (y >>= g) c c' := by
  intro hlost
  have hbefore : ¬ M.Lost (y c').2 := fun h => hlost (M.lost_mono (hg _ _).grows h)
  obtain ⟨hrel, hQ⟩ := h hbefore
  exact hf _ _ hQ _ _ hrel hlost

theorem Lockstep.bind {x : Checking α} {y : Checking β} {f : α → Checking α'} {g : β → Checking β'}
    (h : M.Lockstep Q x y) (hf : ∀ a b, Q a b → M.Lockstep P (f a) (g b))
    (hg : ∀ b, Steady (g b)) : M.Lockstep P (x >>= f) (y >>= g) :=
  fun c c' hrel => (h c c' hrel).bind hf hg

theorem agree_get {f : Checker → Checking α} {g : Checker → Checking β}
    (h : M.Agree Q (f c) (g c') c c') : M.Agree Q (get >>= f) (get >>= g) c c' := h

/-- A step that starts by looking at the state. -/
theorem lockstep_get {f : Checker → Checking α} {g : Checker → Checking β}
    (hg : Steady (get >>= g)) (h : ∀ c c', M.Rel c c' → ¬ M.Lost c' → M.Lockstep Q (f c) (g c')) :
    M.Lockstep Q (get >>= f) (get >>= g) := by
  intro c c' hrel hlost
  exact h c c' hrel (fun hl => hlost (M.lost_mono (hg c').grows hl)) c c' hrel hlost

end Pairing

/-- What two checks of the same script need to stay in lockstep: handles and labels correspond, and the
elementary steps of the check keep corresponding states. -/
structure Simulation extends Pairing where
  handles : Correspondence
  labels : Label → Label → Prop
  enter : ∀ span, toPairing.Lockstep Eq (enter span) (enter span)
  leave : ∀ {c c'}, Rel c c' → Rel { c with depth := c.depth - 1 } { c' with depth := c'.depth - 1 }
  report : ∀ span problem, toPairing.Lockstep Eq (report span problem) (report span problem)
  push : ∀ {c c'}, Rel c c' → Rel { c with scope := c.scope.push } { c' with scope := c'.scope.push }
  restore : ∀ {c c' c₁ c₁'}, Rel c c' → Rel c₁ c₁' → c.symbols.Extends c₁.symbols →
    c'.symbols.Extends c₁'.symbols → Rel { c₁ with scope := c.scope } { c₁' with scope := c'.scope }
  beginLoop : ∀ {c c'}, Rel c c' → Rel c.beginLoop c'.beginLoop
  endLoop : ∀ {c c'}, Rel c c' → Rel c.endLoop c'.endLoop
  loops : ∀ {c c'}, Rel c c' →
    List.Forall₂ (fun l l' => labels l.1 l'.1 ∧ labels l.2 l'.2) c.loops c'.loops
  findVariable : ∀ {c c'}, Rel c c' → ¬ Lost c' → ∀ name,
    Option.Rel (fun x x' => handles.vars x x' (c.symbols.variableType x) ∧
      c'.symbols.variableAt? x' = c.symbols.variableAt? x)
      (c.scope.findVariable? name) (c'.scope.findVariable? name)
  findFunction : ∀ {c c'}, Rel c c' → ¬ Lost c' → ∀ name types,
    Option.Rel (fun f f' => handles.funcs f f' (c.symbols.returnType f) ∧
      c'.symbols.returnType f' = c.symbols.returnType f)
      (c.scope.findFunction? name types) (c'.scope.findFunction? name types)
  inFunction : ∀ {c c'}, Rel c c' → c'.function?.isSome = c.function?.isSome
  function : ∀ {c c'}, Rel c c' →
    Option.Rel (fun f f' => f'.name = f.name ∧ f'.returns = f.returns)
      (c.function?.bind c.symbols.functionAt?) (c'.function?.bind c'.symbols.functionAt?)
  implicit : ∀ {c c'}, Rel c c' →
    c'.options.implicitDeclarations = c.options.implicitDeclarations ∨
      c'.options.implicitDeclarations = false ∧ ∀ span problem, Lost (Checking.report span problem c').2
  declareVariable : ∀ name span readOnly type,
    toPairing.Lockstep (fun x x' => handles.vars x x' type)
      (declareVariable name span readOnly type) (declareVariable name span readOnly type)

namespace Simulation

open Pairing

variable {M : Simulation} {Q : α → β → Prop} {c c' : Checker}

/-- Checked expressions are related, and both stand in for an operator or none does. -/
def Checked (M : Simulation) (r r' : Checking.Checked) : Prop :=
  r.1.Related M.handles r'.1 ∧ r'.2 = r.2

theorem lockstep_reported (span : Span) (problem : Problem) {a : α} {b : β} (h : Q a b) :
    M.Lockstep Q (do Checking.report span problem; return a)
      (do Checking.report span problem; return b) :=
  (M.report span problem).bind (fun _ _ _ => lockstep_pure h) fun _ => steady_pure _

theorem lockstep_report_if {p : Prop} [Decidable p] {span : Span} {problem : Problem}
    {x : Checking α} {y : Checking β} (h : M.Lockstep Q x y) (hy : Steady y) :
    M.Lockstep Q (if p then do Checking.report span problem; x else x)
      (if p then do Checking.report span problem; y else y) := by
  split
  · exact (M.report span problem).bind (fun _ _ _ => h) fun _ => hy
  · exact h

/-! ## Brackets -/

/-- Going one level deeper loses nothing. -/
theorem lost_of_entered {span : Span} (hentered : (Checking.enter span c).1 = true)
    (h : M.Lost (Checking.enter span c).2) : M.Lost c := by
  by_cases hlimit : c.depth < c.options.maxDepth
  · rw [enter_of_lt hlimit] at h
    exact lost_of_same h rfl rfl
  · rw [enter_of_not_lt hlimit] at hentered
    cases hentered

theorem lockstep_nested {span : Span} {a : α} {b : β} (h : Q a b) {x : Checking α} {y : Checking β}
    (hxy : M.Lockstep Q x y) (hy : Steady (nested span b y)) :
    M.Lockstep Q (nested span a x) (nested span b y) := by
  intro c c' hrel hlost
  have hbefore : ¬ M.Lost c' := fun hl => hlost (M.lost_mono (hy c').grows hl)
  have henter := M.enter span c c' hrel
  rw [nested_apply] at hlost ⊢
  rw [nested_apply]
  cases hentered : (Checking.enter span c').1 with
  | true =>
    rw [hentered, if_pos rfl] at hlost
    obtain ⟨hrel₁, heq⟩ := henter fun hl => hbefore (lost_of_entered hentered hl)
    obtain ⟨hrel₂, hQ⟩ := hxy _ _ hrel₁ fun hl => hlost (lost_of_same hl rfl rfl)
    rw [heq, hentered, if_pos rfl]
    exact ⟨M.leave hrel₂, hQ⟩
  | false =>
    rw [hentered, if_neg Bool.false_ne_true] at hlost
    obtain ⟨hrel₁, heq⟩ := henter hlost
    rw [heq, hentered, if_neg Bool.false_ne_true]
    exact ⟨hrel₁, h⟩

theorem lockstep_inLayer {x : Checking α} {y : Checking β} (h : M.Lockstep Q x y) (hx : Steady x)
    (hy : Steady y) : M.Lockstep Q (inLayer x) (inLayer y) := by
  intro c c' hrel hlost
  rw [inLayer_eq hy] at hlost ⊢
  rw [inLayer_eq hx]
  have hinside := h _ _ (M.push hrel) fun hl => hlost (lost_of_same hl rfl rfl)
  exact ⟨M.restore hrel hinside.1 (hx { c with scope := c.scope.push }).symbols
    (hy { c' with scope := c'.scope.push }).symbols, hinside.2⟩

theorem lockstep_inLoop {x : Checking α} {y : Checking β} (h : M.Lockstep Q x y) :
    M.Lockstep (fun r r' => Q r.1 r'.1 ∧ M.labels r.2.1 r'.2.1 ∧ M.labels r.2.2 r'.2.2)
      (inLoop x) (inLoop y) := by
  intro c c' hrel hlost
  have hbegin := M.beginLoop hrel
  have hlabels := (List.forall₂_cons.1 (M.loops hbegin)).1
  obtain ⟨hend, hQ⟩ := h _ _ hbegin fun hl => hlost (lost_of_same hl rfl rfl)
  exact ⟨M.endLoop hend, hQ, hlabels⟩

theorem lockstep_typeOf (name : Surface.Name) : M.Lockstep Eq (typeOf name) (typeOf name) := by
  unfold typeOf
  split
  · exact lockstep_pure rfl
  · exact lockstep_reported _ _ rfl

/-! ## Expressions -/

theorem lockstep_requireValue (span : Span) {x y : Checking Checking.Checked}
    (h : M.Lockstep M.Checked x y) :
    M.Lockstep (fun r r' => M.Checked r r') (requireValue span x) (requireValue span y) := by
  refine h.bind (fun r r' hr => ?_) fun r' => ?_
  · obtain ⟨e, standIn⟩ := r
    obtain ⟨e', standIn'⟩ := r'
    obtain ⟨he, rfl⟩ : e.Related M.handles e' ∧ standIn' = standIn := hr
    dsimp only
    rw [he.type_eq]
    split
    · exact lockstep_reported _ _ ⟨.error, rfl⟩
    · exact lockstep_pure ⟨he, rfl⟩
  · obtain ⟨e', standIn'⟩ := r'
    dsimp only
    split
    · exact steady_reported _ _ _
    · exact steady_pure _

theorem lockstep_convert (span : Span) {e e' : Typed.Expr} (h : e.Related M.handles e') (target : Ty)
    (written standIn : Bool) :
    M.Lockstep (Typed.Expr.Related M.handles) (convert span e target written standIn)
      (convert span e' target written standIn) := by
  have hrefused : ∀ (silent : Bool) (problem : Problem),
      M.Lockstep (Typed.Expr.Related M.handles)
        (do
          unless silent do Checking.report span problem
          return Typed.Expr.error)
        (do
          unless silent do Checking.report span problem
          return Typed.Expr.error) := by
    intro silent problem
    cases silent with
    | true => exact lockstep_pure .error
    | false => exact lockstep_reported _ _ .error
  unfold convert
  rw [h.type_eq]
  dsimp only
  split
  · exact hrefused _ _
  · exact lockstep_pure h
  · exact lockstep_pure (.convert target h)
  · split
    · exact lockstep_pure (.convert target h)
    · exact hrefused _ _

theorem lockstep_named (name : Surface.Name) :
    M.Lockstep (Typed.Expr.Related M.handles) (named name) (named name) := by
  refine lockstep_get (steady_named name) fun c c' hrel hlost => ?_
  have hfound := M.findVariable hrel hlost name.text
  generalize c.scope.findVariable? name.text = x?, c'.scope.findVariable? name.text = x?' at hfound
  cases hfound with
  | none => exact lockstep_reported _ _ .error
  | @some x x' hx =>
    have htype : c'.symbols.variableType x' = c.symbols.variableType x := by
      unfold SymbolTable.variableType
      rw [hx.2]
    dsimp only
    rw [htype]
    exact lockstep_pure (.name hx.1)

theorem lockstep_unary (operator : Token) {r r' : Checking.Checked} (h : M.Checked r r') :
    M.Lockstep M.Checked (unary operator r) (unary operator r') := by
  obtain ⟨e, standIn⟩ := r
  obtain ⟨e', standIn'⟩ := r'
  obtain ⟨he, rfl⟩ : e.Related M.handles e' ∧ standIn' = standIn := h
  unfold unary
  dsimp only
  rw [he.type_eq]
  split
  · exact lockstep_pure ⟨.error, rfl⟩
  · split
    · exact lockstep_pure ⟨he, rfl⟩
    · split
      · exact lockstep_pure ⟨.unary _ he, rfl⟩
      · exact lockstep_reported _ _ ⟨he, rfl⟩

theorem lockstep_binary (operator : Token) {l l' r r' : Checking.Checked} (hl : M.Checked l l')
    (hr : M.Checked r r') : M.Lockstep M.Checked (binary operator l r) (binary operator l' r') := by
  obtain ⟨l, left⟩ := l
  obtain ⟨l', left'⟩ := l'
  obtain ⟨r, right⟩ := r
  obtain ⟨r', right'⟩ := r'
  obtain ⟨hl, rfl⟩ : l.Related M.handles l' ∧ left' = left := hl
  obtain ⟨hr, rfl⟩ : r.Related M.handles r' ∧ right' = right := hr
  unfold binary
  dsimp only
  rw [hl.type_eq, hr.type_eq]
  split
  · exact lockstep_pure ⟨.error, rfl⟩
  · split
    · exact lockstep_pure ⟨hl, rfl⟩
    · split
      · exact lockstep_pure ⟨.binary _ hl hr, rfl⟩
      · exact lockstep_reported _ _ ⟨hl, rfl⟩

theorem agree_assignTo {x x' : VarId} (target : Surface.Name) (operator : Token) (valueSpan : Span)
    {r r' : Checking.Checked} (h : M.Checked r r') {c c' : Checker} (hrel : M.Rel c c')
    (hx : M.handles.vars x x' (c.symbols.variableType x))
    (hat : c'.symbols.variableAt? x' = c.symbols.variableAt? x) :
    M.Agree (Typed.Expr.Related M.handles) (assignTo x target operator valueSpan r)
      (assignTo x' target operator valueSpan r') c c' := by
  obtain ⟨e, standIn⟩ := r
  obtain ⟨e', standIn'⟩ := r'
  obtain ⟨he, rfl⟩ : e.Related M.handles e' ∧ standIn' = standIn := h
  have htype : c'.symbols.variableType x' = c.symbols.variableType x := by
    unfold SymbolTable.variableType
    rw [hat]
  refine agree_get ?_
  dsimp only
  rw [htype, hat]
  generalize c.symbols.variableType x = type at hx
  cases operator.kind.compound? with
  | none =>
    refine lockstep_report_if ?_ ((steady_convert _ _ _ _ _).bind fun _ => steady_pure _) c c' hrel
    exact (lockstep_convert valueSpan he type false standIn').bind
      (fun _ _ hv => lockstep_pure (.assign hx hv)) fun _ => steady_pure _
  | some mark =>
    dsimp only
    rw [he.type_eq]
    by_cases hsilent : (standIn' || e.type = .error || type = .error) = true
    · simp only [if_pos hsilent]
      exact lockstep_report_if (lockstep_pure .error) (steady_pure _) c c' hrel
    · simp only [if_neg hsilent]
      cases BinaryOp.find? (.punct mark) type e.type with
      | some o => exact lockstep_report_if (lockstep_pure (.compound hx o he)) (steady_pure _) c c' hrel
      | none =>
        exact lockstep_report_if (lockstep_reported _ _ .error) (steady_reported _ _ _) c c' hrel

theorem lockstep_assign (target : Surface.Name) (operator : Token) (valueSpan : Span)
    {r r' : Checking.Checked} (h : M.Checked r r') :
    M.Lockstep (Typed.Expr.Related M.handles) (assign target operator valueSpan r)
      (assign target operator valueSpan r') := by
  intro c c' hrel hlost
  have hlost₀ : ¬ M.Lost c' := fun hl => hlost (M.lost_mono (steady_assign _ _ _ _ c').grows hl)
  have hfound := M.findVariable hrel hlost₀ target.text
  revert hlost
  refine agree_get ?_
  generalize c.scope.findVariable? target.text = x?, c'.scope.findVariable? target.text = x?' at hfound
  cases hfound with
  | some hx => exact agree_assignTo target operator valueSpan h hrel hx.1 hx.2
  | none =>
    dsimp only
    have hdeclared : M.Lockstep (Typed.Expr.Related M.handles) (do
          let x ← Checking.declareVariable target.text target.span false r.1.type
          return .assign x r.1 r.1.type) (do
          let x ← Checking.declareVariable target.text target.span false r'.1.type
          return .assign x r'.1 r'.1.type) := by
      rw [h.1.type_eq]
      exact (M.declareVariable _ _ _ _).bind (fun _ _ hx => lockstep_pure (.assign hx h.1))
        fun _ => steady_pure _
    rcases M.implicit hrel with himplicit | ⟨hstrict, hreported⟩
    · rw [himplicit]
      split
      · exact hdeclared c c' hrel
      · exact lockstep_reported _ _ .error c c' hrel
    · rw [hstrict, Bool.and_false, if_neg Bool.false_ne_true]
      exact fun hlost => absurd (hreported _ _) hlost

theorem lockstep_call (callee : Surface.Name) {rs rs' : List Checking.Checked}
    (h : List.Forall₂ M.Checked rs rs') :
    M.Lockstep (Typed.Expr.Related M.handles) (call callee rs) (call callee rs') := by
  have hstandIn : rs'.any (·.2) = rs.any (·.2) := by
    induction h with
    | nil => rfl
    | cons hr _ ih => rw [List.any_cons, List.any_cons, hr.2, ih]
  have htypes : (rs'.map (·.1)).map (·.type) = (rs.map (·.1)).map (·.type) := by
    clear hstandIn
    induction h with
    | nil => rfl
    | cons hr _ ih =>
      simp only [List.map_cons, hr.1.type_eq]
      exact congrArg _ ih
  have hes : List.Forall₂ (Typed.Expr.Related M.handles) (rs.map (·.1)) (rs'.map (·.1)) :=
    List.forall₂_map_left_iff.2 (List.forall₂_map_right_iff.2 (h.imp fun _ _ hr => hr.1))
  unfold call
  dsimp only
  rw [hstandIn, htypes]
  split
  · exact lockstep_pure .error
  · refine lockstep_get (steady_get fun c => ?_) fun c c' hrel hlost => ?_
    · split
      · exact steady_pure _
      · exact steady_reported _ _ _
    · generalize (rs.map (·.1)).map (·.type) = types
      have hfound := M.findFunction hrel hlost callee.text types
      generalize c.scope.findFunction? callee.text types = f?,
        c'.scope.findFunction? callee.text types = f?' at hfound
      cases hfound with
      | none => exact lockstep_reported _ _ .error
      | some hf =>
        dsimp only
        rw [hf.2]
        exact lockstep_pure (.of_forall₂ hf.1 hes)

theorem lockstep_callOrConvert (callee : Surface.Name) (spans : List Span)
    {rs rs' : List Checking.Checked} (h : List.Forall₂ M.Checked rs rs') :
    M.Lockstep (Typed.Expr.Related M.handles) (callOrConvert callee spans rs)
      (callOrConvert callee spans rs') := by
  unfold callOrConvert
  split
  case h_1 target span e standIn htarget =>
    cases h with
    | @cons _ r' _ _ hr hrest =>
      cases hrest
      obtain ⟨e', standIn'⟩ := r'
      obtain ⟨he, rfl⟩ : e.Related M.handles e' ∧ standIn' = standIn := hr
      rw [htarget]
      exact lockstep_convert span he target true _
  case h_2 hne =>
    split
    case h_1 target span e' standIn' htarget =>
      cases h with
      | @cons r _ _ _ hr hrest =>
        cases hrest
        exact absurd rfl (hne target span r.1 r.2 htarget rfl)
    case h_2 => exact lockstep_call callee h

mutual

theorem lockstep_expr (e : Surface.Expr) : M.Lockstep M.Checked (expr e) (expr e) := by
  have hsteady := steady_expr e
  unfold expr at hsteady ⊢
  refine lockstep_nested ⟨.error, rfl⟩ ?_ hsteady
  cases e with
  | number | text | boolean => exact lockstep_pure ⟨.literal _, rfl⟩
  | name x =>
    exact (lockstep_named x).bind (fun _ _ he => lockstep_pure ⟨he, rfl⟩) fun _ => steady_pure _
  | binary l o r _ =>
    refine (lockstep_requireValue l.span (lockstep_expr l)).bind (fun left left' hl => ?_) fun left' =>
      (steady_value r).bind fun right' => steady_binary o left' right'
    exact (lockstep_requireValue r.span (lockstep_expr r)).bind
      (fun _ _ hr => lockstep_binary o hl hr) fun right' => steady_binary o left' right'
  | unary o e _ =>
    exact (lockstep_requireValue e.span (lockstep_expr e)).bind (fun _ _ he => lockstep_unary o he)
      fun operand' => steady_unary o operand'
  | assign x o e _ =>
    refine (lockstep_requireValue e.span (lockstep_expr e)).bind (fun _ _ he => ?_) fun value' =>
      (steady_assign x o e.span value').bind fun _ => steady_pure _
    exact (lockstep_assign x o e.span he).bind (fun _ _ he' => lockstep_pure ⟨he', rfl⟩)
      fun _ => steady_pure _
  | call f es _ =>
    refine (lockstep_values es).bind (fun _ _ hes => ?_) fun rs' =>
      (steady_callOrConvert f _ rs').bind fun _ => steady_pure _
    exact (lockstep_callOrConvert f _ hes).bind (fun _ _ he => lockstep_pure ⟨he, rfl⟩)
      fun _ => steady_pure _

theorem lockstep_values (es : List Surface.Expr) :
    M.Lockstep (List.Forall₂ M.Checked) (values es) (values es) := by
  unfold values
  cases es with
  | nil => exact lockstep_pure .nil
  | cons e es =>
    refine (lockstep_requireValue e.span (lockstep_expr e)).bind (fun r r' hr => ?_) fun _ =>
      (steady_values es).bind fun _ => steady_pure _
    exact (lockstep_values es).bind (fun _ _ hrs => lockstep_pure (.cons hr hrs)) fun _ => steady_pure _

end

/-! ## Statements -/

abbrev Stmt (M : Simulation) : Typed.Stmt → Typed.Stmt → Prop :=
  Typed.Stmt.Related M.handles M.labels

theorem lockstep_exprStmt (span : Span) {x y : Checking Checking.Checked}
    (h : M.Lockstep M.Checked x y) : M.Lockstep M.Stmt (exprStmt span x) (exprStmt span y) := by
  refine h.bind (fun r r' hr => ?_) fun _ => steady_get fun _ => steady_report_if (steady_pure _)
  obtain ⟨e, standIn⟩ := r
  obtain ⟨e', standIn'⟩ := r'
  obtain ⟨he, -⟩ : e.Related M.handles e' ∧ standIn' = standIn := hr
  have hlast : M.Lockstep M.Stmt (pure (.instr (.eval e))) (pure (.instr (.eval e'))) :=
    lockstep_pure (.instr (.eval he))
  refine lockstep_get (steady_get fun _ => steady_report_if (steady_pure _)) fun c c' hrel _ => ?_
  dsimp only
  rw [M.inFunction hrel]
  -- related expressions have the same form, so both are allowed as statements or none is
  cases he <;> exact lockstep_report_if hlast (steady_pure _)

theorem lockstep_option_mapM {γ : Type} {f : γ → Checking α} {g : γ → Checking β}
    (h : ∀ a, M.Lockstep Q (f a) (g a)) (a? : Option γ) :
    M.Lockstep (Option.Rel Q) (a?.mapM f) (a?.mapM g) := by
  cases a? with
  | none => exact lockstep_pure .none
  | some a => exact (h a).bind (fun _ _ hQ => lockstep_pure (.some hQ)) fun _ => steady_pure _

theorem lockstep_value (e : Surface.Expr) : M.Lockstep M.Checked (value e) (value e) :=
  lockstep_requireValue e.span (lockstep_expr e)

theorem lockstep_declare (d : Surface.VariableDecl) : M.Lockstep M.Stmt (declare d) (declare d) := by
  refine (lockstep_option_mapM lockstep_typeOf d.type?).bind (fun written? written?' hw => ?_)
    fun _ => (steady_value d.value).bind fun _ => (steady_declareVariable _ _ _ _).bind fun _ =>
      (steady_convert _ _ _ _ _).bind fun _ => steady_pure _
  obtain rfl : written? = written?' := by
    cases hw with
    | none => rfl
    | some h => rw [h]
  refine (lockstep_value d.value).bind (fun r r' hr => ?_) fun _ =>
    (steady_declareVariable _ _ _ _).bind fun _ => (steady_convert _ _ _ _ _).bind fun _ => steady_pure _
  obtain ⟨e, standIn⟩ := r
  obtain ⟨e', standIn'⟩ := r'
  obtain ⟨he, rfl⟩ : e.Related M.handles e' ∧ standIn' = standIn := hr
  dsimp only
  rw [he.type_eq]
  refine (M.declareVariable _ _ _ _).bind (fun x x' hx => ?_) fun _ =>
    (steady_convert _ _ _ _ _).bind fun _ => steady_pure _
  exact (lockstep_convert _ he _ false _).bind (fun _ _ hv => lockstep_pure (.instr (.declare hx hv)))
    fun _ => steady_pure _

theorem lockstep_condition (e : Surface.Expr) :
    M.Lockstep (Typed.Expr.Related M.handles) (condition e) (condition e) := by
  refine (lockstep_value e).bind (fun r r' hr => ?_) fun r' => steady_convert _ r'.1 _ _ r'.2
  obtain ⟨e, standIn⟩ := r
  obtain ⟨e', standIn'⟩ := r'
  obtain ⟨he, rfl⟩ : e.Related M.handles e' ∧ standIn' = standIn := hr
  exact lockstep_convert _ he .boolean false _

theorem lockstep_leaveLoop (keyword : Keyword) (span : Span) :
    M.Lockstep M.Stmt (leaveLoop keyword span) (leaveLoop keyword span) := by
  refine lockstep_get (steady_leaveLoop keyword span) fun c c' hrel _ => ?_
  have hloops := M.loops hrel
  generalize c.loops = ls, c'.loops = ls' at hloops
  cases hloops with
  | nil => exact lockstep_reported _ _ .error
  | @cons l l' _ _ hl _ =>
    refine lockstep_pure (.instr (.jump ?_))
    split
    · exact hl.1
    · exact hl.2

theorem lockstep_returnFrom {f f' : FunctionSymbol} (hf : f'.name = f.name ∧ f'.returns = f.returns)
    (span : Span) {value? value?' : Option (Span × Checking.Checked)}
    (h : Option.Rel (fun v v' => v'.1 = v.1 ∧ M.Checked v.2 v'.2) value? value?') :
    M.Lockstep M.Stmt (returnFrom f span value?) (returnFrom f' span value?') := by
  unfold returnFrom
  rw [hf.1, hf.2]
  cases h with
  | none => exact lockstep_report_if (lockstep_pure (.instr .retNone)) (steady_pure _)
  | @some v v' hv =>
    obtain ⟨at', e', standIn'⟩ := v'
    obtain ⟨span, e, standIn⟩ := v
    obtain ⟨rfl, he, rfl⟩ : at' = span ∧ e.Related M.handles e' ∧ standIn' = standIn := hv
    dsimp only
    split
    · exact lockstep_reported _ _ (.instr .retNone)
    · exact (lockstep_convert _ he _ false _).bind (fun _ _ hv => lockstep_pure (.instr (.ret hv)))
        fun _ => steady_pure _

theorem lockstep_returns (value? : Option Surface.Expr) (span : Span) :
    M.Lockstep M.Stmt (returns value? span) (returns value? span) := by
  have hvalue : ∀ e : Surface.Expr,
      M.Lockstep (fun v v' => v'.1 = v.1 ∧ M.Checked v.2 v'.2)
        (do return (e.span, ← value e)) (do return (e.span, ← value e)) := fun e =>
    (lockstep_value e).bind (fun _ _ hr => lockstep_pure ⟨rfl, hr⟩) fun _ => steady_pure _
  refine (lockstep_option_mapM hvalue value?).bind (fun checked? checked?' hc => ?_) fun checked? => ?_
  · intro c c' hrel
    refine agree_get ?_
    have hfunction := M.function hrel
    generalize c.function?.bind c.symbols.functionAt? = f?, c'.function?.bind c'.symbols.functionAt? = f?'
      at hfunction
    cases hfunction with
    | some hf => exact lockstep_returnFrom hf span hc c c' hrel
    | none =>
      refine lockstep_reported _ _ (.instr ?_) c c' hrel
      cases hc with
      | none => exact .retNone
      | some hv => exact .ret hv.2.1
  · refine steady_get fun c => ?_
    split
    · exact steady_returnFrom _ span checked?
    · exact steady_reported _ _ _

mutual

theorem lockstep_stmt (s : Surface.Stmt) : M.Lockstep M.Stmt (stmt s) (stmt s) := by
  have hsteady := steady_stmt s
  unfold stmt at hsteady ⊢
  refine lockstep_nested .error ?_ hsteady
  cases s with
  | block ss _ =>
    exact (lockstep_inLayer (lockstep_stmts ss) (steady_stmts ss) (steady_stmts ss)).bind
      (fun _ _ hs => lockstep_pure hs) fun _ => steady_pure _
  | expr e => exact lockstep_exprStmt e.span (lockstep_expr e)
  | declare d => exact lockstep_declare d
  | ifThen c t _ =>
    refine (lockstep_condition c).bind (fun _ _ hc => ?_) fun _ =>
      (steady_stmt t).bind fun _ => steady_pure _
    exact (lockstep_stmt t).bind (fun _ _ ht => lockstep_pure (.ifThen hc ht)) fun _ => steady_pure _
  | ifElse c t e _ =>
    refine (lockstep_condition c).bind (fun _ _ hc => ?_) fun _ =>
      (steady_stmt t).bind fun _ => (steady_stmt e).bind fun _ => steady_pure _
    refine (lockstep_stmt t).bind (fun _ _ ht => ?_) fun _ => (steady_stmt e).bind fun _ => steady_pure _
    exact (lockstep_stmt e).bind (fun _ _ he => lockstep_pure (.ifElse hc ht he)) fun _ => steady_pure _
  | whileLoop c b _ =>
    refine (lockstep_condition c).bind (fun _ _ hc => ?_) fun _ =>
      (steady_inLoop (steady_stmt b)).bind fun _ => steady_pure _
    exact (lockstep_inLoop (lockstep_stmt b)).bind
      (fun _ _ hb => lockstep_pure (.whileLoop hc hb.1 hb.2.1 hb.2.2)) fun _ => steady_pure _
  | doWhile b c _ =>
    refine (lockstep_inLoop (lockstep_stmt b)).bind (fun _ _ hb => ?_) fun _ =>
      (steady_condition c).bind fun _ => steady_pure _
    exact (lockstep_condition c).bind
      (fun _ _ hc => lockstep_pure (.doWhile hb.1 hc hb.2.1 hb.2.2)) fun _ => steady_pure _
  | forLoop i c n b _ =>
    have hbody := steady_inLoop (steady_stmt b)
    have hinside : Steady (do
        let i ← stmt i
        let c ← condition c
        let (n, _) ← expr n
        let (b, onBreak, onContinue) ← inLoop (stmt b)
        return Typed.Stmt.forLoop i c n b onBreak onContinue) :=
      (steady_stmt i).bind fun _ => (steady_condition c).bind fun _ => (steady_expr n).bind fun _ =>
        hbody.bind fun _ => steady_pure _
    refine lockstep_inLayer ?_ hinside hinside
    refine (lockstep_stmt i).bind (fun _ _ hi => ?_) fun _ =>
      (steady_condition c).bind fun _ => (steady_expr n).bind fun _ => hbody.bind fun _ => steady_pure _
    refine (lockstep_condition c).bind (fun _ _ hc => ?_) fun _ =>
      (steady_expr n).bind fun _ => hbody.bind fun _ => steady_pure _
    refine (lockstep_expr n).bind (fun _ _ hn => ?_) fun _ => hbody.bind fun _ => steady_pure _
    exact (lockstep_inLoop (lockstep_stmt b)).bind
      (fun _ _ hb => lockstep_pure (.forLoop hi hc hn.1 hb.1 hb.2.1 hb.2.2)) fun _ => steady_pure _
  | breakLoop span => exact lockstep_leaveLoop .break_ span
  | continueLoop span => exact lockstep_leaveLoop .continue_ span
  | returns v? span => exact lockstep_returns v? span
  | function h body => exact lockstep_reported _ _ .nil

theorem lockstep_stmts (ss : List Surface.Stmt) :
    M.Lockstep (fun ss ss' => M.Stmt (.block ss) (.block ss')) (stmts ss) (stmts ss) := by
  unfold stmts
  cases ss with
  | nil => exact lockstep_pure .nil
  | cons s ss =>
    refine (lockstep_stmt s).bind (fun _ _ hs => ?_) fun _ => (steady_stmts ss).bind fun _ => steady_pure _
    exact (lockstep_stmts ss).bind (fun _ _ hss => lockstep_pure (.cons hs hss)) fun _ => steady_pure _

end

theorem lockstep_block (ss : List Surface.Stmt) : M.Lockstep M.Stmt (block ss) (block ss) :=
  (lockstep_inLayer (lockstep_stmts ss) (steady_stmts ss) (steady_stmts ss)).bind
    (fun _ _ hs => lockstep_pure hs) fun _ => steady_pure _

end Simulation

end Checking

end Scripting
