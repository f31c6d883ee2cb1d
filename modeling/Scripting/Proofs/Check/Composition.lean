import Scripting.Proofs.Surface.Nodes
import Scripting.Submission.Check

/-!
# What checks are put together from

Every function of the check is put together from a few steps: giving a result, looking at the state,
reporting, the brackets around a part of the check, and declaring a variable. A property of steps that is
kept so (`Composes`) therefore holds of the whole check of a tree. Reports are made at nodes of the tree
only, and nesting that is too deep is reported by its bracket only, so the property may depend on that. It
may also depend on how many levels deep a step goes, which is the height of what it checks. Expressions
need fewer steps (`ComposesExpr`): the variables they declare can be assigned and have the type of a value.
There is one lemma for each function of the check.
-/

namespace Scripting

def Problem.isNesting : Problem → Bool
  | nestingTooDeep _ => true
  | _ => false

theorem Typed.Expr.type_error_ne_void : Typed.Expr.error.type ≠ .void := by decide

namespace Checking

open Surface (Node)

theorem requireValue_apply (span : Span) (step : Checking Checked) (c : Checker) :
    requireValue span step c =
      if (step c).1.1.type = .void then
        ((.error, (step c).1.2), (report span .expressionMustHaveValue (step c).2).2)
      else step c := by
  show (if (step c).1.1.type = .void then _ else _ : Checking Checked) (step c).2 = _
  split <;> rfl

theorem requireValue_ne_void (span : Span) (step : Checking Checked) (c : Checker) :
    (requireValue span step c).1.1.type ≠ .void := by
  rw [requireValue_apply]
  split
  next => exact Typed.Expr.type_error_ne_void
  next h => exact h

/-- The property holds of the elementary steps that expressions are checked with, if those that report do so
at places where `W` holds, and is kept where steps are put together; `Q n` is the property of steps that go
`n` levels deep. What follows a step may depend on what the step is known to give. -/
structure ComposesExpr (W : Span → Prop) (Q : Nat → {α : Type} → Checking α → Prop) : Prop where
  pure : ∀ {α : Type} (a : α), Q 0 (pure a)
  bind_of : ∀ {α β : Type} {R : α → Prop} {n k : Nat} {step : Checking α} {f : α → Checking β}, Q n step →
    (∀ c, R (step c).1) → (∀ a, R a → Q k (f a)) → Q (max n k) (step >>= f)
  get : ∀ {α : Type} {n : Nat} {f : Checker → Checking α}, (∀ c, Q n (f c)) → Q n (get >>= f)
  report : ∀ {span : Span} {problem : Problem}, W span → problem.isNesting = false →
    Q 0 (report span problem)
  nested : ∀ {α : Type} {n : Nat} {span : Span} {standIn : α} {step : Checking α}, W span → Q n step →
    Q (n + 1) (nested span standIn step)
  declareImplicitly : ∀ {name : String} {span : Span} {type : Ty}, W span → type ≠ .void →
    Q 0 (declareVariable name span false type)

/-- The property composes in the check of statements and signatures too. -/
structure Composes (W : Span → Prop) (Q : Nat → {α : Type} → Checking α → Prop) : Prop
    extends ComposesExpr W Q where
  inLayer : ∀ {α : Type} {n : Nat} {step : Checking α}, Q n step → Q n (inLayer step)
  inLoop : ∀ {α : Type} {n : Nat} {step : Checking α}, Q n step → Q n (inLoop step)
  declareVariable : ∀ {name : String} {span : Span} {readOnly : Bool} {type : Ty}, W span →
    Q 0 (declareVariable name span readOnly type)
  addVariable : ∀ {α : Type} {n : Nat} {f : VarId → Checking α} (v : VariableSymbol), (∀ x, Q n (f x)) →
    Q n (MonadState.get >>= fun c : Checker =>
      set { c with symbols := (c.symbols.addVariable v).2 } >>= fun _ => f (c.symbols.addVariable v).1)
  declareImplicitly := fun h _ => declareVariable h

variable {α β : Type} {W : Span → Prop} {Q : Nat → {α : Type} → Checking α → Prop} {n k : Nat}

namespace ComposesExpr

variable (hQ : ComposesExpr W Q)

include hQ

theorem bind {step : Checking α} {f : α → Checking β} (h : Q n step) (hf : ∀ a, Q k (f a)) :
    Q (max n k) (step >>= f) :=
  hQ.bind_of (R := fun _ => True) h (fun _ => trivial) fun a _ => hf a

/-- What follows goes no deeper. -/
theorem bind_left {step : Checking α} {f : α → Checking β} (h : Q n step) (hf : ∀ a, Q 0 (f a)) :
    Q n (step >>= f) :=
  Nat.max_zero n ▸ hQ.bind h hf

/-- Only what follows goes deeper. -/
theorem bind_right {step : Checking α} {f : α → Checking β} (h : Q 0 step) (hf : ∀ a, Q n (f a)) :
    Q n (step >>= f) :=
  Nat.zero_max n ▸ hQ.bind h hf

theorem bind_pure {step : Checking α} (h : Q n step) (f : α → β) :
    Q n (step >>= fun a => Pure.pure (f a)) :=
  hQ.bind_left h fun a => hQ.pure (f a)

theorem reported {span : Span} (h : W span) {problem : Problem} (hproblem : problem.isNesting = false)
    (a : α) : Q 0 (do Checking.report span problem; return a) :=
  hQ.bind_pure (hQ.report h hproblem) fun _ => a

theorem report_if {p : Prop} [Decidable p] {span : Span} (h : W span) {problem : Problem}
    (hproblem : problem.isNesting = false) {step : Checking α} (hstep : Q n step) :
    Q n (if p then do Checking.report span problem; step else step) := by
  split
  · exact hQ.bind_right (hQ.report h hproblem) fun _ => hstep
  · exact hstep

/-! ## Expressions -/

theorem of_requireValue {span : Span} (hspan : W span) {step : Checking Checked} (h : Q n step) :
    Q n (requireValue span step) := by
  refine hQ.bind_left h fun r => ?_
  obtain ⟨e, standIn⟩ := r
  dsimp only
  split
  · exact hQ.reported hspan rfl _
  · exact hQ.pure _

theorem of_convert {span : Span} (h : W span) (e : Typed.Expr) (target : Ty) (written standIn : Bool) :
    Q 0 (convert span e target written standIn) := by
  have hrefused : ∀ (silent : Bool) (problem : Problem), problem.isNesting = false → Q 0 (do
      unless silent do Checking.report span problem
      return Typed.Expr.error) := by
    intro silent problem hproblem
    cases silent with
    | true => exact hQ.pure _
    | false => exact hQ.reported h hproblem _
  unfold convert
  dsimp only
  split
  · exact hrefused _ _ rfl
  · exact hQ.pure _
  · exact hQ.pure _
  · split
    · exact hQ.pure _
    · exact hrefused _ _ rfl

theorem of_requireType {span : Span} (hspan : W span) {step : Checking Checked} (h : Q n step) (target : Ty)
    (written : Bool) : Q n (requireType span step target written) :=
  hQ.bind_left (hQ.of_requireValue hspan h) fun r => hQ.of_convert hspan r.1 target written r.2

theorem of_named {name : Surface.Name} (h : W name.span) : Q 0 (named name) := by
  refine hQ.get fun c => ?_
  split
  · exact hQ.pure _
  · exact hQ.reported h rfl _

theorem of_unary {operator : Token} (h : W operator.span) (operand : Checked) :
    Q 0 (unary operator operand) := by
  obtain ⟨e, standIn⟩ := operand
  unfold unary
  dsimp only
  split
  · exact hQ.pure _
  · split
    · exact hQ.pure _
    · split
      · exact hQ.pure _
      · exact hQ.reported h rfl _

theorem of_binary {operator : Token} (h : W operator.span) (left right : Checked) :
    Q 0 (binary operator left right) := by
  unfold binary
  dsimp only
  split
  · exact hQ.pure _
  · split
    · exact hQ.pure _
    · split
      · exact hQ.pure _
      · exact hQ.reported h rfl _

theorem of_assignTo {target : Surface.Name} {operator : Token} {valueSpan : Span}
    (htarget : W target.span) (hoperator : W operator.span) (hvalue : W valueSpan) (x : VarId)
    (value : Checked) : Q 0 (assignTo x target operator valueSpan value) := by
  refine hQ.get fun c => hQ.report_if htarget rfl ?_
  split
  · exact hQ.bind_pure (hQ.of_convert hvalue _ _ _ _) _
  · split
    · exact hQ.pure _
    · split
      · exact hQ.pure _
      · exact hQ.reported hoperator rfl _

theorem of_assign {target : Surface.Name} {operator : Token} {valueSpan : Span}
    (htarget : W target.span) (hoperator : W operator.span) (hvalue : W valueSpan) {value : Checked}
    (hdeclare : Q 0 (declareVariable target.text target.span false value.1.type)) :
    Q 0 (assign target operator valueSpan value) := by
  refine hQ.get fun c => ?_
  split
  · exact hQ.of_assignTo htarget hoperator hvalue _ value
  · split
    · exact hQ.bind_pure hdeclare _
    · exact hQ.reported htarget rfl _

theorem of_call {callee : Surface.Name} (h : W callee.span) (arguments : List Checked) :
    Q 0 (call callee arguments) := by
  unfold call
  dsimp only
  split
  · exact hQ.pure _
  · refine hQ.get fun c => ?_
    split
    · exact hQ.pure _
    · exact hQ.reported h rfl _

theorem of_callOrConvert {callee : Surface.Name} (h : W callee.span) {spans : List Span}
    (hspans : ∀ s ∈ spans, W s) (arguments : List Checked) :
    Q 0 (callOrConvert callee spans arguments) := by
  unfold callOrConvert
  split
  · exact hQ.of_convert (hspans _ List.mem_cons_self) _ _ _ _
  · exact hQ.of_call h _

mutual

theorem of_expr (e : Surface.Expr) (h : (Node.expr e).Everywhere W) : Q e.height (expr e) := by
  unfold expr
  cases e with
  | number | text | boolean => exact hQ.nested h.span (hQ.pure _)
  | name x => exact hQ.nested h.span (hQ.bind_pure (hQ.of_named (h.child (.head _)).span) _)
  | binary l o r _ =>
    have hl : (Node.expr l).Everywhere W := h.child (.head _)
    have ho : (Node.operator o).Everywhere W := h.child (.tail _ (.head _))
    have hr : (Node.expr r).Everywhere W := h.child (.tail _ (.tail _ (.head _)))
    refine hQ.nested h.span (hQ.bind (hQ.of_requireValue hl.span (of_expr l hl)) fun left => ?_)
    exact hQ.bind_left (hQ.of_requireValue hr.span (of_expr r hr)) fun right =>
      hQ.of_binary ho.span left right
  | unary o e _ =>
    have ho : (Node.operator o).Everywhere W := h.child (.head _)
    have he : (Node.expr e).Everywhere W := h.child (.tail _ (.head _))
    refine hQ.nested h.span (hQ.bind_left (hQ.of_requireValue he.span (of_expr e he)) fun operand => ?_)
    exact hQ.of_unary ho.span operand
  | assign x o e _ =>
    have hx : (Node.name x).Everywhere W := h.child (.head _)
    have ho : (Node.operator o).Everywhere W := h.child (.tail _ (.head _))
    have he : (Node.expr e).Everywhere W := h.child (.tail _ (.tail _ (.head _)))
    have hassign : Q (max e.height 0) (requireValue e.span (expr e) >>= fun value => do
        return (← assign x o e.span value, false)) := by
      refine hQ.bind_of (R := fun value => value.1.type ≠ .void) (hQ.of_requireValue he.span (of_expr e he))
        (requireValue_ne_void e.span (expr e)) fun value hvalue => ?_
      exact hQ.bind_pure (hQ.of_assign hx.span ho.span he.span (hQ.declareImplicitly hx.span hvalue)) _
    exact hQ.nested h.span (Nat.max_zero e.height ▸ hassign)
  | call f es _ =>
    have hf : (Node.name f).Everywhere W := h.child (.head _)
    have hes : ∀ e ∈ es, (Node.expr e).Everywhere W :=
      fun e he => h.child (.tail _ (List.mem_map_of_mem he))
    have hspans : ∀ s ∈ es.map (·.span), W s := by
      intro s hs
      obtain ⟨e, he, rfl⟩ := List.mem_map.1 hs
      exact (hes e he).span
    refine hQ.nested h.span (hQ.bind_left (of_values es hes) fun arguments => ?_)
    exact hQ.bind_pure (hQ.of_callOrConvert hf.span hspans arguments) _

theorem of_values (es : List Surface.Expr) (h : ∀ e ∈ es, (Node.expr e).Everywhere W) :
    Q (Surface.Expr.heightList es) (values es) := by
  unfold values
  cases es with
  | nil => exact hQ.pure _
  | cons e es =>
    obtain ⟨he, hes⟩ := List.forall_mem_cons.1 h
    refine hQ.bind (hQ.of_requireValue he.span (of_expr e he)) fun first => ?_
    exact hQ.bind_pure (of_values es hes) _

end

theorem of_value {e : Surface.Expr} (h : (Node.expr e).Everywhere W) : Q e.height (value e) :=
  hQ.of_requireValue h.span (hQ.of_expr e h)

end ComposesExpr

namespace Composes

variable (hQ : Composes W Q)

include hQ

/-! ## Statements -/

theorem of_typeOf {name : Surface.Name} (h : W name.span) : Q 0 (typeOf name) := by
  unfold typeOf
  split
  · exact hQ.pure _
  · exact hQ.reported h rfl _

theorem of_exprStmt {span : Span} (hspan : W span) {step : Checking Checked} (h : Q n step) :
    Q n (exprStmt span step) :=
  hQ.bind_left h fun _ => hQ.get fun _ => hQ.report_if hspan rfl (hQ.pure _)

theorem of_option_mapM {f : α → Checking β} {a? : Option α} (hf : ∀ a ∈ a?.toList, Q 0 (f a)) :
    Q 0 (a?.mapM f) := by
  cases a? with
  | none => exact hQ.pure _
  | some a => exact hQ.bind_pure (hf a (.head _)) _

theorem of_declare {d : Surface.VariableDecl} (h : (Node.stmt (.declare d)).Everywhere W) :
    Q d.value.height (declare d) := by
  have hname : (Node.name d.name).Everywhere W := h.child (.head _)
  have htype : ∀ x ∈ d.type?.toList, (Node.name x).Everywhere W := fun x hx =>
    h.child (.tail _ (List.mem_append_left _ (List.mem_map_of_mem hx)))
  have hvalue : (Node.expr d.value).Everywhere W :=
    h.child (.tail _ (List.mem_append_right _ (.head _)))
  refine hQ.bind_right (hQ.of_option_mapM fun x hx => hQ.of_typeOf (htype x hx).span) fun written? => ?_
  refine hQ.bind_left (hQ.of_value hvalue) fun r => ?_
  refine hQ.bind_left (hQ.declareVariable hname.span) fun x => ?_
  exact hQ.bind_pure (hQ.of_convert hvalue.span _ _ _ _) _

theorem of_condition {e : Surface.Expr} (h : (Node.expr e).Everywhere W) : Q e.height (condition e) :=
  hQ.of_requireType h.span (hQ.of_expr e h) .boolean false

theorem of_leaveLoop (keyword : Keyword) {span : Span} (h : W span) : Q 0 (leaveLoop keyword span) := by
  refine hQ.get fun c => ?_
  split
  · exact hQ.pure _
  · exact hQ.reported h rfl _

theorem of_returnFrom (f : FunctionSymbol) {span : Span} (hspan : W span)
    {value? : Option (Span × Checked)} (hvalue : ∀ r ∈ value?.toList, W r.1) :
    Q 0 (returnFrom f span value?) := by
  unfold returnFrom
  split
  · have hvalue := hvalue _ (.head _)
    split
    · exact hQ.reported hvalue rfl _
    · exact hQ.bind_pure (hQ.of_convert hvalue _ _ _ _) _
  · exact hQ.report_if hspan rfl (hQ.pure _)

theorem of_returns {value? : Option Surface.Expr} {span : Span}
    (h : (Node.stmt (.returns value? span)).Everywhere W) :
    Q ((value?.map Surface.Expr.height).getD 0) (returns value? span) := by
  have hvalue : ∀ e ∈ value?.toList, (Node.expr e).Everywhere W :=
    fun e he => h.child (List.mem_map_of_mem he)
  have hchecked : Q ((value?.map Surface.Expr.height).getD 0)
      (value?.mapM fun e => do return (e.span, ← value e)) := by
    cases value? with
    | none => exact hQ.pure _
    | some e => exact hQ.bind_pure (hQ.bind_pure (hQ.of_value (hvalue e (.head _))) _) _
  -- what is returned carries its span along, which is that of the expression
  have hreturns : Q (max ((value?.map Surface.Expr.height).getD 0) 0) (returns value? span) := by
    refine hQ.bind_of (R := fun checked? => ∀ r ∈ checked?.toList, W r.1) hchecked (fun c => ?_) ?_
    · cases value? with
      | none => exact List.forall_mem_nil _
      | some e => exact List.forall_mem_singleton.2 (hvalue e (.head _)).span
    · intro checked? hspans
      refine hQ.get fun c => ?_
      split
      · exact hQ.of_returnFrom _ h.span hspans
      · exact hQ.reported h.span rfl _
  rwa [Nat.max_zero] at hreturns

mutual

theorem of_stmt (s : Surface.Stmt) (h : (Node.stmt s).Everywhere W) : Q s.height (stmt s) := by
  unfold stmt
  cases s with
  | block ss _ =>
    have hss : ∀ s ∈ ss, (Node.stmt s).Everywhere W := fun s hs => h.child (List.mem_map_of_mem hs)
    exact hQ.nested h.span (hQ.bind_pure (hQ.inLayer (of_stmts ss hss)) _)
  | expr e =>
    have he : (Node.expr e).Everywhere W := h.child (.head _)
    exact hQ.nested h.span (hQ.of_exprStmt he.span (hQ.of_expr e he))
  | declare d => exact hQ.nested h.span (hQ.of_declare h)
  | ifThen c t _ =>
    refine hQ.nested h.span (hQ.bind (hQ.of_condition (h.child (.head _))) fun _ => ?_)
    exact hQ.bind_pure (of_stmt t (h.child (.tail _ (.head _)))) _
  | ifElse c t e _ =>
    refine hQ.nested h.span (hQ.bind (hQ.of_condition (h.child (.head _))) fun _ => ?_)
    refine hQ.bind (of_stmt t (h.child (.tail _ (.head _)))) fun _ => ?_
    exact hQ.bind_pure (of_stmt e (h.child (.tail _ (.tail _ (.head _))))) _
  | whileLoop c b _ =>
    refine hQ.nested h.span (hQ.bind (hQ.of_condition (h.child (.head _))) fun _ => ?_)
    exact hQ.bind_pure (hQ.inLoop (of_stmt b (h.child (.tail _ (.head _))))) _
  | doWhile b c _ =>
    refine hQ.nested h.span (hQ.bind (hQ.inLoop (of_stmt b (h.child (.head _)))) fun _ => ?_)
    exact hQ.bind_pure (hQ.of_condition (h.child (.tail _ (.head _)))) _
  | forLoop i c n b _ =>
    refine hQ.nested h.span (hQ.inLayer (hQ.bind (of_stmt i (h.child (.head _))) fun _ => ?_))
    refine hQ.bind (hQ.of_condition (h.child (.tail _ (.head _)))) fun _ => ?_
    refine hQ.bind (hQ.of_expr n (h.child (.tail _ (.tail _ (.head _))))) fun _ => ?_
    refine hQ.bind_pure (hQ.inLoop (of_stmt b ?_)) _
    exact h.child (.tail _ (.tail _ (.tail _ (.head _))))
  | breakLoop span => exact hQ.nested h.span (hQ.of_leaveLoop .break_ h.span)
  | continueLoop span => exact hQ.nested h.span (hQ.of_leaveLoop .continue_ h.span)
  | returns v? span => exact hQ.nested h.span (hQ.of_returns h)
  | function head body =>
    exact hQ.nested h.span (hQ.reported (h.child (m := .name head.name) (.head _)).span rfl _)

theorem of_stmts (ss : List Surface.Stmt) (h : ∀ s ∈ ss, (Node.stmt s).Everywhere W) :
    Q (Surface.Stmt.heightList ss) (stmts ss) := by
  unfold stmts
  cases ss with
  | nil => exact hQ.pure _
  | cons s ss =>
    obtain ⟨hs, hss⟩ := List.forall_mem_cons.1 h
    exact hQ.bind (of_stmt s hs) fun _ => hQ.bind_pure (of_stmts ss hss) _

end

theorem of_block {ss : List Surface.Stmt} (h : ∀ s ∈ ss, (Node.stmt s).Everywhere W) :
    Q (Surface.Stmt.heightList ss) (block ss) :=
  hQ.bind_pure (hQ.inLayer (hQ.of_stmts ss h)) _

/-! ## Signatures -/

theorem of_parameters (seen : List String) {ps : List Surface.Parameter}
    (h : ∀ p ∈ ps, (Node.parameter p).Everywhere W) : Q 0 (parameters seen ps) := by
  induction ps generalizing seen with
  | nil => exact hQ.pure _
  | cons p ps ih =>
    obtain ⟨hp, hps⟩ := List.forall_mem_cons.1 h
    have htype : (Node.name p.type).Everywhere W := hp.child (.head _)
    unfold parameters
    refine hQ.bind_left (hQ.of_typeOf htype.span) fun type => ?_
    split
    · exact hQ.bind_left (hQ.report hp.span rfl) fun _ => ih seen hps
    · exact hQ.addVariable ⟨p.name, type, true, .parameter⟩ fun x =>
        hQ.bind_pure (ih (p.name :: seen) hps) (⟨p.name, type, x⟩ :: ·)

theorem of_returnType {name? : Option Surface.Name} (h : ∀ x ∈ name?.toList, W x.span) :
    Q 0 (returnType name?) := by
  cases name? with
  | none => exact hQ.pure _
  | some name =>
    show Q 0 (if name.text = "void" then return .void else typeOf name)
    split
    · exact hQ.pure _
    · exact hQ.of_typeOf (h name (.head _))

theorem of_symbolOf {d : Declaration} (h : (Node.stmt (.function d.head d.body)).Everywhere W) :
    Q 0 (symbolOf d) := by
  have hparameters : ∀ p ∈ d.head.parameters, (Node.parameter p).Everywhere W := fun p hp =>
    h.child (.tail _ (List.mem_append_left _ (List.mem_map_of_mem hp)))
  have hreturns : ∀ x ∈ d.head.returns?.toList, (Node.name x).Everywhere W := fun x hx =>
    h.child (.tail _ (List.mem_append_right _ (List.mem_append_left _ (List.mem_map_of_mem hx))))
  refine hQ.bind_left (hQ.of_parameters [] hparameters) fun _ => ?_
  exact hQ.bind_pure (hQ.of_returnType fun x hx => (hreturns x hx).span) _

section Functions

/-! Not every property that composes holds of declaring functions, so that is asked for apart. -/

variable (hdeclare : ∀ {span}, W span → ∀ a, Q 0 (declareFunction span a))

include hdeclare

theorem of_signatures {ss : List Surface.Stmt} (h : ∀ s ∈ ss, (Node.stmt s).Everywhere W) :
    Q 0 (signatures ss) := by
  induction ss with
  | nil => exact hQ.pure _
  | cons s ss ih =>
    obtain ⟨hs, hss⟩ := List.forall_mem_cons.1 h
    cases s with
    | function head body =>
      have hname : (Node.name head.name).Everywhere W := hs.child (.head _)
      have hfunction : Q 0 (function ⟨head, body⟩) :=
        hQ.bind_left (hQ.of_symbolOf hs) fun a => hdeclare hname.span a
      exact hQ.bind_left hfunction fun _ => ih hss
    | _ => exact ih hss

theorem of_globalCode {ss : List Surface.Stmt} (h : ∀ s ∈ ss, (Node.stmt s).Everywhere W) :
    Q (Surface.Stmt.heightList (ss.filter fun s => !s.isFunction)) (globalCode ss) := by
  refine hQ.bind_right (hQ.of_signatures hdeclare h) fun _ => ?_
  exact hQ.of_stmts _ fun s hs => h s (List.mem_filter.1 hs).1

end Functions

end Composes

end Checking

end Scripting
