import Mathlib.Logic.Relation
import Scripting.Proofs.Check.Context

/-!
# One report for one mistake

An expression that failed is of the error type, or a stand-in for an operator that was not found. Whatever
uses it adds no report and fails in turn, so on the way from an expression down to any of its leaves there
is at most one report. The reports are told apart by the place they are made at (`Site`): an expression
with the state it is checked in. What a place reports is what its operands report, in turn, and then what
it reports itself.
-/

namespace Scripting

namespace Surface.Expr

/-- The expressions that a node uses the values of, from left to right. -/
def operands : Surface.Expr → List Surface.Expr
  | binary l _ r _ => [l, r]
  | unary _ e _ | assign _ _ e _ => [e]
  | call _ es _ => es
  | number .. | text .. | boolean .. | name _ => []

/-- The node is neither an assignment nor the conversion to a type. -/
def Ordinary : Surface.Expr → Prop
  | assign .. => False
  | call f es _ => Ty.ofName? f.text = none ∨ es.length ≠ 1
  | _ => True

/-- The expression is made of literals, names, operators and calls of functions. -/
inductive Plain : Surface.Expr → Prop
  | intro {e : Surface.Expr} (node : e.Ordinary) (operands : ∀ d ∈ e.operands, d.Plain) : e.Plain

end Surface.Expr

namespace Checking

variable {α β : Type} {c : Checker}

/-! ## What a step reports -/

/-- What the step adds to the diagnostics. -/
def reported (step : Checking α) (c : Checker) : List Diagnostic :=
  (step c).2.diagnostics.drop c.diagnostics.length

theorem reported_of_eq {step : Checking α} {ds : List Diagnostic}
    (h : (step c).2.diagnostics = c.diagnostics ++ ds) : reported step c = ds := by
  rw [reported, h, List.drop_left]

theorem Steady.diagnostics_eq {step : Checking α} (h : Steady step) (c : Checker) :
    (step c).2.diagnostics = c.diagnostics ++ reported step c := by
  obtain ⟨ds, hds⟩ := (h c).diagnostics
  rw [reported_of_eq hds.symm, hds]

@[simp]
theorem reported_pure (a : α) (c : Checker) : reported (pure a) c = [] :=
  reported_of_eq (List.append_nil _).symm

@[simp]
theorem reported_report (span : Span) (problem : Problem) (c : Checker) :
    reported (report span problem) c = [⟨span, problem⟩] :=
  reported_of_eq rfl

theorem reported_get (f : Checker → Checking β) (c : Checker) :
    reported (get >>= f) c = reported (f c) c := rfl

theorem reported_bind {step : Checking α} {f : α → Checking β} (h : Steady step)
    (hf : ∀ a, Steady (f a)) (c : Checker) :
    reported (step >>= f) c = reported step c ++ reported (f (step c).1) (step c).2 := by
  apply reported_of_eq
  have hrest := (hf (step c).1).diagnostics_eq (step c).2
  rw [h.diagnostics_eq c, List.append_assoc] at hrest
  exact hrest

/-- Nothing is reported after the step. -/
theorem reported_bind_pure {step : Checking α} (h : Steady step) (f : α → β) (c : Checker) :
    reported (step >>= fun a => pure (f a)) c = reported step c := by
  rw [reported_bind h fun _ => steady_pure _, reported_pure, List.append_nil]

theorem reported_reported (span : Span) (problem : Problem) (a : α) (c : Checker) :
    reported (do report span problem; return a) c = [⟨span, problem⟩] :=
  reported_of_eq rfl

theorem reported_nested {span : Span} {standIn : α} {step : Checking α}
    (h : c.depth < c.options.maxDepth) :
    reported (nested span standIn step) c = reported step { c with depth := c.depth + 1 } := by
  rw [reported, reported, nested_apply, enter_of_lt h, if_pos rfl]

/-! ## What a node does with its operands -/

/-- The expression is of the error type, or only a stand-in. -/
def Checked.Failed (r : Checked) : Prop := r.1.type = .error ∨ r.2 = true

/-- What a node adds to what was found about its operands, of which some may have `failed`. It then fails
as well, without a report. Otherwise it may report one problem, and then it fails. -/
inductive Adds (failed : Prop) : Checked → List Diagnostic → Prop
  | silent {r : Checked} (h : failed) (hr : r.Failed) (hvalue : r.1.type ≠ .void) : Adds failed r []
  | report {r : Checked} (h : ¬ failed) (hr : r.Failed) (hvalue : r.1.type ≠ .void) (d : Diagnostic) :
    Adds failed r [d]
  | nothing (h : ¬ failed) (r : Checked) : Adds failed r []

namespace Adds

variable {failed : Prop} {r : Checked} {ds : List Diagnostic}

theorem eq_nil (h : Adds failed r ds) (hfailed : failed) : ds = [] ∧ r.Failed := by
  cases h with
  | silent _ hr _ => exact ⟨rfl, hr⟩
  | report h => exact absurd hfailed h
  | nothing h => exact absurd hfailed h

theorem length_le (h : Adds failed r ds) : ds.length ≤ 1 := by
  cases h with
  | silent | nothing => exact Nat.zero_le 1
  | report => exact Nat.le_refl 1

theorem not_failed (h : Adds failed r ds) (hds : ds ≠ []) : ¬ failed ∧ r.Failed := by
  cases h with
  | silent | nothing => exact absurd rfl hds
  | report h hr => exact ⟨h, hr⟩

end Adds

/-- The step ends with the diagnostics `before` and what `Adds` allows. -/
def Contained (failed : Prop) (before : List Diagnostic) (out : Checked × Checker) : Prop :=
  ∃ ds, out.2.diagnostics = before ++ ds ∧ Adds failed out.1 ds

namespace Contained

variable {failed : Prop} {before : List Diagnostic} {r : Checked}

theorem silent (h : failed) (hr : r.Failed) (hvalue : r.1.type ≠ .void) :
    Contained failed c.diagnostics (r, c) :=
  ⟨[], (List.append_nil _).symm, .silent h hr hvalue⟩

theorem nothing (h : ¬ failed) (r : Checked) : Contained failed c.diagnostics (r, c) :=
  ⟨[], (List.append_nil _).symm, .nothing h r⟩

theorem report (h : ¬ failed) (hr : r.Failed) (hvalue : r.1.type ≠ .void) (span : Span)
    (problem : Problem) :
    Contained failed c.diagnostics ((do Checking.report span problem; return r : Checking Checked) c) :=
  ⟨[⟨span, problem⟩], rfl, .report h hr hvalue _⟩

theorem congr {p q : Prop} {out : Checked × Checker} (h : Contained p before out) (hpq : p ↔ q) :
    Contained q before out :=
  propext hpq ▸ h

/-- What must have a value fails with one report, if it has none. -/
theorem requireValue {step : Checking Checked} (h : Contained failed before (step c)) (span : Span) :
    Contained failed before (requireValue span step c) := by
  rw [requireValue_apply]
  split
  next hvoid =>
    obtain ⟨ds, hds, hadds⟩ := h
    cases hadds with
    | silent _ _ hvalue => exact absurd hvoid hvalue
    | report _ _ hvalue => exact absurd hvoid hvalue
    | nothing hfailed =>
      rw [List.append_nil] at hds
      exact ⟨_, congrArg (· ++ _) hds, .report hfailed (.inl rfl) Typed.Expr.type_error_ne_void _⟩
  next => exact h

end Contained

theorem contained_named (name : Surface.Name) (c : Checker) :
    Contained False c.diagnostics ((do return (← named name, false) : Checking Checked) c) := by
  show Contained False c.diagnostics (((named name c).1, false), (named name c).2)
  unfold named
  rw [get_bind]
  cases c.scope.findVariable? name.text with
  | some x => exact .nothing id _
  | none => exact .report id (.inl rfl) Typed.Expr.type_error_ne_void _ _

theorem contained_unary (operator : Token) {operand : Checked} (hvalue : operand.1.type ≠ .void)
    (c : Checker) : Contained operand.Failed c.diagnostics (unary operator operand c) := by
  obtain ⟨e, standIn⟩ := operand
  unfold unary
  dsimp only
  split
  next herror => exact .silent (.inl herror) (.inl rfl) Typed.Expr.type_error_ne_void
  next herror =>
    split
    next hstandIn => exact .silent (.inr hstandIn) (.inr rfl) hvalue
    next hstandIn =>
      have hok : ¬ Checked.Failed (e, standIn) := not_or.2 ⟨herror, hstandIn⟩
      cases UnaryOp.find? operator.kind e.type with
      | some o => exact .nothing hok _
      | none => exact .report (r := (e, true)) hok (.inr rfl) hvalue _ _

theorem contained_binary (operator : Token) {left right : Checked} (hvalue : left.1.type ≠ .void)
    (c : Checker) :
    Contained (left.Failed ∨ right.Failed) c.diagnostics (binary operator left right c) := by
  obtain ⟨l, leftStandIn⟩ := left
  obtain ⟨r, rightStandIn⟩ := right
  unfold binary
  dsimp only
  split
  next herror =>
    have hfailed : Checked.Failed (l, leftStandIn) ∨ Checked.Failed (r, rightStandIn) := by
      simp only [Bool.or_eq_true, decide_eq_true_eq] at herror
      exact herror.imp .inl .inl
    exact .silent hfailed (.inl rfl) Typed.Expr.type_error_ne_void
  next herror =>
    split
    next hstandIn =>
      exact .silent ((Bool.or_eq_true _ _ ▸ hstandIn).imp .inr .inr) (.inr rfl) hvalue
    next hstandIn =>
      have hok : ¬ (Checked.Failed (l, leftStandIn) ∨ Checked.Failed (r, rightStandIn)) := by
        simp only [Bool.or_eq_true, decide_eq_true_eq, not_or] at herror hstandIn
        rintro ((h | h) | (h | h))
        · exact herror.1 h
        · exact hstandIn.1 h
        · exact herror.2 h
        · exact hstandIn.2 h
      cases BinaryOp.find? operator.kind l.type r.type with
      | some o => exact .nothing hok _
      | none => exact .report (r := (l, true)) hok (.inr rfl) hvalue _ _

theorem any_failed_iff (arguments : List Checked) :
    (arguments.any (·.2) || ((arguments.map (·.1)).map (·.type)).contains .error) = true ↔
      ∃ r ∈ arguments, Checked.Failed r := by
  simp only [Bool.or_eq_true, List.any_eq_true, List.contains_iff_mem, List.mem_map,
    exists_exists_and_eq_and, Checked.Failed]
  constructor
  · rintro (⟨r, hr, hstandIn⟩ | ⟨r, hr, herror⟩)
    · exact ⟨r, hr, .inr hstandIn⟩
    · exact ⟨r, hr, .inl herror⟩
  · rintro ⟨r, hr, herror | hstandIn⟩
    · exact .inr ⟨r, hr, herror⟩
    · exact .inl ⟨r, hr, hstandIn⟩

theorem contained_call (callee : Surface.Name) (arguments : List Checked) (c : Checker) :
    Contained (∃ r ∈ arguments, Checked.Failed r) c.diagnostics
      ((do return (← call callee arguments, false) : Checking Checked) c) := by
  show Contained _ c.diagnostics (((call callee arguments c).1, false), (call callee arguments c).2)
  unfold call
  split
  next hfailed =>
    exact .silent ((any_failed_iff arguments).1 hfailed) (.inl rfl) Typed.Expr.type_error_ne_void
  next hok =>
    rw [any_failed_iff] at hok
    rw [get_bind]
    cases c.scope.findFunction? callee.text ((arguments.map (·.1)).map (·.type)) with
    | some f => exact .nothing hok _
    | none => exact .report hok (.inl rfl) Typed.Expr.type_error_ne_void _ _

/-- What is done at a node once the values of its operands were found. -/
def finish : Surface.Expr → List Checked → Checking Checked
  | .number n _, _ => return (.literal (.int n), false)
  | .text s _, _ => return (.literal (.text s), false)
  | .boolean b _, _ => return (.literal (.boolean b), false)
  | .name n, _ => return (← named n, false)
  | .binary _ o _ _, [left, right] => binary o left right
  | .unary o _ _, [operand] => unary o operand
  | .assign n o e _, [value] => return (← assign n o e.span value, false)
  | .call f es _, arguments => return (← callOrConvert f (es.map (·.span)) arguments, false)
  | _, _ => return (.error, false)

/-- An expression is checked operands first. -/
theorem expr_eq (e : Surface.Expr) :
    expr e = nested e.span (.error, false) (values e.operands >>= finish e) := by
  unfold expr
  cases e <;> rfl

theorem callOrConvert_of_ordinary {f : Surface.Name} {es : List Surface.Expr} {span : Span}
    (h : (Surface.Expr.call f es span).Ordinary) (arguments : List Checked) :
    callOrConvert f (es.map (·.span)) arguments = call f arguments := by
  unfold callOrConvert
  split
  next htarget hspans =>
    have hone := congrArg List.length hspans
    rw [List.length_map] at hone
    rcases h with hnone | hlength
    · rw [hnone] at htarget
      cases htarget
    · exact absurd hone hlength
  next => rfl

theorem contained_finish {e : Surface.Expr} (hnode : e.Ordinary) {rs : List Checked}
    (hlength : rs.length = e.operands.length) (hvalues : ∀ r ∈ rs, r.1.type ≠ .void) (c : Checker) :
    Contained (∃ r ∈ rs, Checked.Failed r) c.diagnostics (finish e rs c) := by
  cases e with
  | number | text | boolean =>
    obtain rfl := List.eq_nil_of_length_eq_zero hlength
    exact .nothing (by simp) _
  | name x =>
    obtain rfl := List.eq_nil_of_length_eq_zero hlength
    exact (contained_named x c).congr (by simp)
  | binary l o r _ =>
    obtain ⟨left, right, rfl⟩ := List.length_eq_two.1 hlength
    exact (contained_binary o (hvalues left (by simp)) c).congr (by simp)
  | unary o e _ =>
    obtain ⟨operand, rfl⟩ := List.length_eq_one_iff.1 hlength
    exact (contained_unary o (hvalues operand (by simp)) c).congr (by simp)
  | assign => exact absurd hnode id
  | call f es _ =>
    show Contained _ _ ((do return (← callOrConvert f (es.map (·.span)) rs, false) : Checking Checked) c)
    rw [callOrConvert_of_ordinary hnode]
    exact contained_call f rs c

/-! ## Places -/

/-- A place in a check: an expression, the state it is checked in, and whether it must have a value. -/
structure Site where
  state : Checker
  expr : Surface.Expr
  valued : Bool

namespace Site

/-- The check of the expression as it is needed at the place. -/
def check (p : Site) : Checking Checked := if p.valued then value p.expr else Checking.expr p.expr

def result (p : Site) : Checked := (p.check p.state).1

def reported (p : Site) : List Diagnostic := Checking.reported p.check p.state

/-- The places of values that are found one after the other. -/
def inTurn (c : Checker) : List Surface.Expr → List Site
  | [] => []
  | e :: es => ⟨c, e, true⟩ :: inTurn (value e c).2 es

/-- The places of the operands, none if the expression is too deep to be looked at. -/
def operands (p : Site) : List Site :=
  if p.state.depth < p.state.options.maxDepth then
    inTurn { p.state with depth := p.state.depth + 1 } p.expr.operands
  else []

/-- What is reported about the expression, but not about its operands. -/
def own (p : Site) : List Diagnostic := p.reported.drop (p.operands.flatMap reported).length

theorem map_expr_inTurn (c : Checker) (es : List Surface.Expr) : (inTurn c es).map expr = es := by
  induction es generalizing c with
  | nil => rfl
  | cons e es ih => exact congrArg (e :: ·) (ih _)

theorem values_cons (c : Checker) (e : Surface.Expr) (es : List Surface.Expr) :
    values (e :: es) c =
      ((value e c).1 :: (values es (value e c).2).1, (values es (value e c).2).2) := by
  conv_lhs => unfold values
  rfl

theorem values_result (c : Checker) (es : List Surface.Expr) :
    (values es c).1 = (inTurn c es).map result := by
  induction es generalizing c with
  | nil =>
    unfold values
    rfl
  | cons e es ih =>
    rw [values_cons]
    exact congrArg ((value e c).1 :: ·) (ih (value e c).2)

theorem length_values (c : Checker) (es : List Surface.Expr) : (values es c).1.length = es.length := by
  rw [values_result, List.length_map, ← List.length_map (f := expr), map_expr_inTurn]

theorem values_diagnostics (c : Checker) (es : List Surface.Expr) :
    (values es c).2.diagnostics = c.diagnostics ++ (inTurn c es).flatMap reported := by
  induction es generalizing c with
  | nil =>
    unfold values
    exact (List.append_nil _).symm
  | cons e es ih =>
    rw [values_cons, ih (value e c).2, (steady_value e).diagnostics_eq c, List.append_assoc]
    rfl

theorem expr_mem_operands {p q : Site} (hq : q ∈ p.operands) : q.expr ∈ p.expr.operands := by
  unfold operands at hq
  split at hq
  · rw [← map_expr_inTurn { p.state with depth := p.state.depth + 1 } p.expr.operands]
    exact List.mem_map_of_mem hq
  · cases hq

theorem plain_of_mem {p q : Site} (hp : p.expr.Plain) (hq : q ∈ p.operands) : q.expr.Plain := by
  obtain ⟨-, hoperands⟩ := hp
  exact hoperands _ (expr_mem_operands hq)

theorem result_ne_void {p : Site} (h : p.valued = true) : p.result.1.type ≠ .void := by
  unfold result check
  rw [if_pos h]
  exact requireValue_ne_void _ _ _

theorem valued_of_mem_inTurn {c : Checker} {es : List Surface.Expr} {q : Site} (h : q ∈ inTurn c es) :
    q.valued = true := by
  induction es generalizing c with
  | nil => cases h
  | cons e es ih =>
    rcases List.mem_cons.1 h with rfl | h
    · rfl
    · exact ih h

/-- At the limit of nesting the expression is not looked at, and that is reported once. -/
theorem contained_of_limit {p : Site} (h : ¬ p.state.depth < p.state.options.maxDepth) :
    Contained False p.state.diagnostics (Checking.expr p.expr p.state) := by
  rw [expr_eq, nested_apply, enter_of_not_lt h, if_neg Bool.false_ne_true]
  dsimp only
  split
  · exact .nothing id _
  · exact ⟨[_], rfl, .report id (.inl rfl) Typed.Expr.type_error_ne_void _⟩

theorem contained_expr {p : Site} (hnode : p.expr.Ordinary) :
    Contained (∃ q ∈ p.operands, q.result.Failed) (p.state.diagnostics ++ p.operands.flatMap reported)
      (Checking.expr p.expr p.state) := by
  by_cases hlimit : p.state.depth < p.state.options.maxDepth
  · have hoperands : p.operands =
        inTurn { p.state with depth := p.state.depth + 1 } p.expr.operands := if_pos hlimit
    rw [expr_eq, nested_apply, enter_of_lt hlimit, if_pos rfl, hoperands]
    generalize hc : { p.state with depth := p.state.depth + 1 } = c
    have hdiagnostics := values_diagnostics c p.expr.operands
    have hresults := values_result c p.expr.operands
    have hvalues : ∀ r ∈ (values p.expr.operands c).1, r.1.type ≠ .void := by
      intro r hr
      rw [hresults] at hr
      obtain ⟨q, hq, rfl⟩ := List.mem_map.1 hr
      exact result_ne_void (valued_of_mem_inTurn hq)
    have hfinish := contained_finish hnode (length_values c _) hvalues (values p.expr.operands c).2
    have hstate : c.diagnostics = p.state.diagnostics := by rw [← hc]
    rw [hdiagnostics, hstate] at hfinish
    refine hfinish.congr ?_
    rw [hresults]
    simp only [List.mem_map, exists_exists_and_eq_and]
  · have hoperands : p.operands = [] := if_neg hlimit
    rw [hoperands, List.flatMap_nil, List.append_nil]
    exact (contained_of_limit hlimit).congr (by simp)

theorem contained {p : Site} (hnode : p.expr.Ordinary) :
    Contained (∃ q ∈ p.operands, q.result.Failed) (p.state.diagnostics ++ p.operands.flatMap reported)
      (p.check p.state) := by
  unfold check
  split
  · exact (contained_expr hnode).requireValue _
  · exact contained_expr hnode

/-- What is reported after the operands is the place's own. -/
theorem own_eq {p : Site} {ds : List Diagnostic}
    (h : (p.check p.state).2.diagnostics = p.state.diagnostics ++ p.operands.flatMap reported ++ ds) :
    p.own = ds ∧ p.reported = p.operands.flatMap reported ++ ds := by
  rw [List.append_assoc] at h
  have hreported : p.reported = p.operands.flatMap reported ++ ds := reported_of_eq h
  exact ⟨by rw [own, hreported, List.drop_left], hreported⟩

/-- A place reports what its operands do, and then what it adds itself. -/
theorem reported_eq {p : Site} (hnode : p.expr.Ordinary) :
    p.reported = p.operands.flatMap reported ++ p.own ∧
      Adds (∃ q ∈ p.operands, q.result.Failed) p.result p.own := by
  obtain ⟨ds, hds, hadds⟩ := contained hnode
  obtain ⟨hown, hreported⟩ := own_eq hds
  rw [hown]
  exact ⟨hreported, hadds⟩

/-- An expression with a report fails. -/
theorem failed_of_reported {e : Surface.Expr} (he : e.Plain) {c : Checker} {valued : Bool}
    (h : (Site.mk c e valued).reported ≠ []) : (Site.mk c e valued).result.Failed := by
  induction he generalizing c valued with
  | @intro e hnode _ ih =>
    obtain ⟨heq, hadds⟩ := reported_eq (p := ⟨c, e, valued⟩) hnode
    by_cases hown : (Site.mk c e valued).own = []
    · rw [heq, hown, List.append_nil, Ne, List.flatMap_eq_nil_iff] at h
      obtain ⟨q, hq, hreported⟩ := not_forall₂.1 h
      have hfailed : q.result.Failed := ih q.expr (expr_mem_operands hq) hreported
      exact (hadds.eq_nil ⟨q, hq, hfailed⟩).2
    · exact (hadds.not_failed hown).2

/-- The second place is that of an operand of the first. -/
def Uses (p q : Site) : Prop := q ∈ p.operands

section

variable {p q : Site} {path : List Site}

theorem plain_of_reaches (hp : p.expr.Plain) (hq : Relation.ReflTransGen Uses p q) : q.expr.Plain := by
  induction hq with
  | refl => exact hp
  | tail _ huses ih => exact plain_of_mem ih huses

theorem own_path_eq_nil (hp : p.expr.Plain) (hpath : List.IsChain Uses (p :: path))
    (h : p.reported = []) : (p :: path).flatMap own = [] := by
  induction path generalizing p with
  | nil =>
    obtain ⟨hnode, -⟩ := hp
    rw [(reported_eq hnode).1] at h
    rw [List.flatMap_singleton]
    exact (List.append_eq_nil_iff.1 h).2
  | cons q path ih =>
    obtain ⟨huses, hrest⟩ := List.isChain_cons_cons.1 hpath
    have hq := plain_of_mem hp huses
    obtain ⟨hnode, -⟩ := hp
    rw [(reported_eq hnode).1] at h
    obtain ⟨hoperands, hown⟩ := List.append_eq_nil_iff.1 h
    rw [List.flatMap_cons, hown, List.nil_append]
    exact ih hq hrest (List.flatMap_eq_nil_iff.1 hoperands q huses)

/-- Where a node reports something, its operands did not fail, so nothing was reported below. -/
theorem length_own_path_le (hp : p.expr.Plain) (hpath : List.IsChain Uses (p :: path)) :
    ((p :: path).flatMap own).length ≤ 1 := by
  induction path generalizing p with
  | nil =>
    obtain ⟨hnode, -⟩ := hp
    rw [List.flatMap_singleton]
    exact (reported_eq hnode).2.length_le
  | cons q path ih =>
    obtain ⟨huses, hrest⟩ := List.isChain_cons_cons.1 hpath
    have hq := plain_of_mem hp huses
    obtain ⟨hnode, -⟩ := hp
    have hadds := (reported_eq hnode).2
    rw [List.flatMap_cons]
    by_cases hown : p.own = []
    · rw [hown, List.nil_append]
      exact ih hq hrest
    · have hsilent : q.reported = [] := by
        by_contra hreported
        exact (hadds.not_failed hown).1 ⟨q, huses, failed_of_reported hq hreported⟩
      rw [own_path_eq_nil hq hrest hsilent, List.append_nil]
      exact hadds.length_le

end

end Site

/-! ## What uses the value -/

/-- A problem with a name: of a type, or of a variable to be declared or assigned. -/
def isAboutName (d : Diagnostic) : Bool :=
  match d.problem with
  | .undefinedType _ | .variableAlreadyDeclared _ | .readOnlyAssignment _ | .undefinedVariable _ => true
  | _ => false

/-- What is not about a name. -/
def beyondNames (ds : List Diagnostic) : List Diagnostic := ds.filter (!isAboutName ·)

/-- Beyond names there is at most one report, and none about what `failed`. -/
def Discreet (failed : Prop) (ds : List Diagnostic) : Prop :=
  (beyondNames ds).length ≤ 1 ∧ (failed → beyondNames ds = [])

theorem beyondNames_append (ds ds' : List Diagnostic) :
    beyondNames (ds ++ ds') = beyondNames ds ++ beyondNames ds' :=
  List.filter_append ds ds'

section

variable {failed : Prop} {ds ds' : List Diagnostic}

theorem discreet_of_nil (h : beyondNames ds = []) : Discreet failed ds := by
  refine ⟨?_, fun _ => h⟩
  rw [h]
  exact Nat.zero_le 1

theorem discreet_of_length_le (hlength : ds.length ≤ 1) (h : failed → ds = []) : Discreet failed ds := by
  refine ⟨(List.length_filter_le _ _).trans hlength, fun hfailed => ?_⟩
  rw [h hfailed]
  rfl

theorem Discreet.after (h : Discreet failed ds) (hnames : beyondNames ds' = []) :
    Discreet failed (ds' ++ ds) := by
  rw [Discreet, beyondNames_append, hnames, List.nil_append]
  exact h

end

theorem discreet_pure {failed : Prop} (a : α) (c : Checker) : Discreet failed (reported (pure a) c) := by
  rw [reported_pure]
  exact discreet_of_nil rfl

theorem discreet_convert (span : Span) (r : Checked) (target : Ty) (written : Bool) (c : Checker) :
    Discreet r.Failed (reported (convert span r.1 target written r.2) c) := by
  obtain ⟨e, standIn⟩ := r
  -- a refusal is reported unless the expression failed
  have hrefused : ∀ problem : Problem, Discreet (Checked.Failed (e, standIn)) (reported (do
      unless standIn || e.type = .error || target = .error do report span problem
      return Typed.Expr.error) c) := by
    intro problem
    cases hsilent : standIn || e.type = .error || target = .error with
    | true => exact discreet_pure Typed.Expr.error c
    | false =>
      refine discreet_of_length_le (Nat.le_of_eq (congrArg List.length (reported_reported span problem _ c)))
        fun hfailed => ?_
      simp only [Bool.or_eq_false_iff, decide_eq_false_iff_not] at hsilent
      rcases hfailed with herror | hstandIn
      · exact absurd herror hsilent.1.2
      · exact absurd hstandIn (Bool.eq_false_iff.1 hsilent.1.1)
  unfold convert
  dsimp only
  split
  · exact hrefused _
  · exact discreet_pure _ c
  · exact discreet_pure _ c
  · split
    · exact discreet_pure _ c
    · exact hrefused _

theorem beyondNames_typeOf (type? : Option Surface.Name) (c : Checker) :
    beyondNames (reported (type?.mapM typeOf) c) = [] := by
  cases type? with
  | none =>
    show beyondNames (reported (pure none) c) = []
    rw [reported_pure]
    rfl
  | some name =>
    show beyondNames (reported (typeOf name >>= fun t => pure (some t)) c) = []
    rw [reported_bind_pure (steady_typeOf name)]
    unfold typeOf
    split
    · rw [reported_pure]
      rfl
    · rw [reported_reported]
      rfl

theorem beyondNames_declareVariable (name : String) (span : Span) (readOnly : Bool) (type : Ty)
    (c : Checker) : beyondNames (reported (declareVariable name span readOnly type) c) = [] := by
  cases hscope : c.scope.declareVariable? name
      (c.symbols.addVariable (c.declared name type readOnly)).1 with
  | some scope =>
    rw [reported, declareVariable_of_some hscope, List.drop_length]
    rfl
  | none =>
    rw [reported, declareVariable_of_none hscope]
    show beyondNames ((c.diagnostics ++ [_]).drop c.diagnostics.length) = []
    rw [List.drop_left]
    rfl

theorem discreet_report_if {p failed : Prop} [Decidable p] {span : Span} {problem : Problem}
    {step : Checking α} (hname : isAboutName ⟨span, problem⟩ = true) (hsteady : Steady step)
    (h : ∀ c, Discreet failed (reported step c)) (c : Checker) :
    Discreet failed (reported (if p then do report span problem; step else step) c) := by
  split
  · rw [reported_bind (steady_report span problem) fun _ => hsteady, reported_report]
    refine (h _).after ?_
    rw [beyondNames, List.filter_cons_of_neg (by rw [hname]; decide), List.filter_nil]
  · exact h c

theorem discreet_assignTo (x : VarId) (target : Surface.Name) (operator : Token) (valueSpan : Span)
    (r : Checked) (c : Checker) :
    Discreet r.Failed (reported (assignTo x target operator valueSpan r) c) := by
  unfold assignTo
  dsimp only
  rw [reported_get]
  cases operator.kind.compound? with
  | none =>
    refine discreet_report_if rfl ((steady_convert _ _ _ _ _).bind fun _ => steady_pure _) (fun c' => ?_) c
    rw [reported_bind_pure (steady_convert _ _ _ _ _)]
    exact discreet_convert valueSpan r _ false c'
  | some mark =>
    dsimp only
    generalize c.symbols.variableType x = type
    by_cases hsilent : (r.2 || r.1.type = .error || type = .error) = true
    · rw [if_pos hsilent]
      exact discreet_report_if rfl (steady_pure _) (discreet_pure _) c
    · have hok : ¬ r.Failed := by
        simp only [Bool.or_eq_true, decide_eq_true_eq, not_or] at hsilent
        exact not_or.2 ⟨hsilent.1.2, hsilent.1.1⟩
      rw [if_neg hsilent]
      cases BinaryOp.find? (.punct mark) type r.1.type with
      | some o => exact discreet_report_if rfl (steady_pure _) (discreet_pure _) c
      | none =>
        refine discreet_report_if rfl (steady_reported _ _ _) (fun c' => ?_) c
        rw [reported_reported]
        exact discreet_of_length_le (Nat.le_refl 1) fun hfailed => absurd hfailed hok

theorem discreet_assign (target : Surface.Name) (operator : Token) (valueSpan : Span) (r : Checked)
    (c : Checker) : Discreet r.Failed (reported (assign target operator valueSpan r) c) := by
  unfold assign
  rw [reported_get]
  split
  · exact discreet_assignTo _ target operator valueSpan r c
  · split
    · rw [reported_bind_pure (steady_declareVariable _ _ _ _)]
      exact discreet_of_nil (beyondNames_declareVariable _ _ _ _ c)
    · rw [reported_reported]
      exact discreet_of_nil rfl

/-- Where the value of an expression goes. -/
inductive Consumer
  /-- nowhere: the expression is a statement -/
  | statement
  | declaration (name : Surface.Name) (readOnly : Bool) (type? : Option Surface.Name) (span : Span)
  | assignment (target : Surface.Name) (operator : Token) (span : Span)
  | condition
  | returned (span : Span)

namespace Consumer

/-- A statement stands at global level, an assignment is not nested too deep, and what is returned is
returned from a function with a value. -/
def Fits (c : Checker) : Consumer → Prop
  | statement => c.function? = none
  | assignment .. => c.depth < c.options.maxDepth
  | returned _ => ∃ f, c.function?.bind c.symbols.functionAt? = some f ∧ f.returns ≠ .void
  | declaration .. | condition => True

/-- All that is reported where the expression is used so. -/
def reported (k : Consumer) (e : Surface.Expr) (c : Checker) : List Diagnostic :=
  match k with
  | statement => Checking.reported (exprStmt e.span (expr e)) c
  | declaration name readOnly type? span =>
    Checking.reported (declare ⟨name, readOnly, type?, e, span⟩) c
  | assignment target operator span => Checking.reported (expr (.assign target operator e span)) c
  | condition => Checking.reported (Checking.condition e) c
  | returned span => Checking.reported (returns (some e) span) c

def site (k : Consumer) (e : Surface.Expr) (c : Checker) : Site :=
  match k with
  | statement => ⟨c, e, false⟩
  | declaration _ _ type? _ => ⟨(type?.mapM typeOf c).2, e, true⟩
  | assignment .. => ⟨{ c with depth := c.depth + 1 }, e, true⟩
  | condition | returned _ => ⟨c, e, true⟩

theorem reported_statement (e : Surface.Expr) {c : Checker} (h : c.function? = none) :
    reported statement e c = (site statement e c).reported := by
  have hf : ∀ r : Checked, Steady (exprStmt e.span (pure r)) :=
    fun r => steady_exprStmt e.span (steady_pure r)
  have hfunction : (expr e c).2.function? = none := (steady_expr e c).function.trans h
  have hafter : Checking.reported (exprStmt e.span (pure (expr e c).1)) (expr e c).2 = [] := by
    show Checking.reported (if ((expr e c).2.function?.isSome && _) = true then _ else _) _ = []
    rw [hfunction]
    exact reported_pure _ _
  have hbind := reported_bind (steady_expr e) hf c
  rw [hafter, List.append_nil] at hbind
  exact hbind

theorem reported_condition (e : Surface.Expr) (c : Checker) :
    reported condition e c = (site condition e c).reported ++
      Checking.reported (convert e.span (value e c).1.1 .boolean false (value e c).1.2) (value e c).2 :=
  reported_bind (steady_value e) (fun r => steady_convert e.span r.1 .boolean false r.2) c

/-- The assignment of the value, or its declaration. -/
theorem reported_assignment (target : Surface.Name) (operator : Token) (span : Span) (e : Surface.Expr)
    {c : Checker} (h : c.depth < c.options.maxDepth) :
    let p := site (assignment target operator span) e c
    reported (assignment target operator span) e c = p.reported ++
      Checking.reported (assign target operator e.span p.result) (value e p.state).2 := by
  have hassign : ∀ r : Checked, Steady (do return (← assign target operator e.span r, false)) :=
    fun r => (steady_assign target operator e.span r).bind fun _ => steady_pure _
  show Checking.reported (expr (.assign target operator e span)) c = _
  unfold expr
  rw [reported_nested h]
  refine (reported_bind (steady_value e) hassign _).trans ?_
  rw [reported_bind_pure (steady_assign _ _ _ _)]
  rfl

theorem reported_returned (span : Span) (e : Surface.Expr) {f : FunctionSymbol} {c : Checker}
    (h : c.function?.bind c.symbols.functionAt? = some f) :
    reported (returned span) e c = (site (returned span) e c).reported ++
      Checking.reported (returnFrom f span (some (e.span, (value e c).1))) (value e c).2 := by
  have hkeeps := steady_value e c
  have hf : (value e c).2.function?.bind (value e c).2.symbols.functionAt? = some f := by
    obtain ⟨g, hg, hat⟩ := Option.bind_eq_some_iff.1 h
    rw [hkeeps.function, hg]
    exact hkeeps.symbols.funcs g f hat
  have hsame : returns (some e) span c =
      (value e >>= fun r => returnFrom f span (some (e.span, r))) c := by
    have hbind : ∀ (x : Checking (Option (Span × Checked))) (g : _ → Checking Typed.Stmt),
      (x >>= g) c = g (x c).1 (x c).2 := fun _ _ => rfl
    have hmap : ((some e).mapM (fun e => do return (e.span, ← value e)) : Checking _) c =
      (some (e.span, (value e c).1), (value e c).2) := rfl
    unfold returns
    rw [hbind, hmap, get_bind, hf]
    rfl
  have hreported : reported (returned span) e c =
      Checking.reported (value e >>= fun r => returnFrom f span (some (e.span, r))) c := by
    show Checking.reported (returns (some e) span) c = _
    unfold Checking.reported
    rw [hsame]
  exact hreported.trans <| reported_bind (steady_value e) (fun r => steady_returnFrom f span _) c

theorem discreet_returned {f : FunctionSymbol} (hvalue : f.returns ≠ .void) (span valueSpan : Span)
    (r : Checked) (c : Checker) :
    Discreet r.Failed (Checking.reported (returnFrom f span (some (valueSpan, r))) c) := by
  unfold returnFrom
  dsimp only
  rw [if_neg hvalue, reported_bind_pure (steady_convert _ _ _ _ _)]
  exact discreet_convert valueSpan r f.returns false c

theorem exists_reported_declaration (name : Surface.Name) (readOnly : Bool) (type? : Option Surface.Name)
    (span : Span) (e : Surface.Expr) (c : Checker) :
    let k := declaration name readOnly type? span
    ∃ before after, k.reported e c = before ++ (k.site e c).reported ++ after ∧
      Discreet (k.site e c).result.Failed (before ++ after) := by
  intro k
  have hconvert : ∀ (type : Ty) (r : Checked) (x : VarId), Steady (do
      return Typed.Stmt.instr (.declare x (← convert e.span r.1 type false r.2))) :=
    fun type r x => (steady_convert _ _ _ _ _).bind fun _ => steady_pure _
  have hdeclare : ∀ (type : Ty) (r : Checked), Steady (do
      let x ← declareVariable name.text name.span readOnly type
      return Typed.Stmt.instr (.declare x (← convert e.span r.1 type false r.2))) :=
    fun type r => (steady_declareVariable _ _ _ _).bind fun x => hconvert type r x
  have htype := steady_option_mapM steady_typeOf type?
  have hreported := reported_bind htype
    (fun written? => (steady_value e).bind fun r => hdeclare (written?.getD r.1.type) r) c
  rw [reported_bind (steady_value e) fun r => hdeclare _ r,
    reported_bind (steady_declareVariable _ _ _ _) fun x => hconvert _ _ x,
    reported_bind_pure (steady_convert _ _ _ _ _), ← List.append_assoc] at hreported
  refine ⟨_, _, hreported, Discreet.after (Discreet.after (discreet_convert _ _ _ _ _) ?_) ?_⟩
  · exact beyondNames_declareVariable _ _ _ _ _
  · exact beyondNames_typeOf type? c

/-- The expression is reported about as at its place. Beyond names there is at most one more report, and
none if the expression failed. -/
theorem exists_reported_eq (k : Consumer) (e : Surface.Expr) {c : Checker} (hfits : k.Fits c) :
    ∃ before after, k.reported e c = before ++ (k.site e c).reported ++ after ∧
      Discreet (k.site e c).result.Failed (before ++ after) := by
  cases k with
  | statement =>
    refine ⟨[], [], ?_, discreet_of_nil rfl⟩
    rw [reported_statement e hfits, List.append_nil, List.nil_append]
  | declaration name readOnly type? span => exact exists_reported_declaration name readOnly type? span e c
  | assignment target operator span =>
    exact ⟨[], _, reported_assignment target operator span e hfits, discreet_assign target operator _ _ _⟩
  | condition => exact ⟨[], _, reported_condition e c, discreet_convert e.span _ .boolean false _⟩
  | returned span =>
    obtain ⟨f, hf, hvalue⟩ := hfits
    exact ⟨[], _, reported_returned span e hf, discreet_returned hvalue span e.span _ _⟩

end Consumer

/-- Errors are contained. At each place inside an expression the reports are those of the operands and
the place's own; a place with a report fails; and where an operand failed, the place fails too, without a
report of its own. On each way down from the expression there is at most one report, that of the consumer
about the value included. If anything was reported about the expression, the consumer reports nothing but
problems with its own names. -/
theorem errors_are_contained {e : Surface.Expr} (he : e.Plain) (k : Consumer) {c : Checker}
    (hfits : k.Fits c) :
    (∀ p, Relation.ReflTransGen Site.Uses (k.site e c) p →
      p.reported = p.operands.flatMap Site.reported ++ p.own ∧
      (p.reported ≠ [] → p.result.Failed) ∧
      ((∃ q ∈ p.operands, q.result.Failed) → p.own = [] ∧ p.result.Failed)) ∧
    ∃ before after, k.reported e c = before ++ (k.site e c).reported ++ after ∧
      ((k.site e c).reported ≠ [] → beyondNames (before ++ after) = []) ∧
      ∀ path, List.IsChain Site.Uses (k.site e c :: path) →
        ((k.site e c :: path).flatMap Site.own).length + (beyondNames (before ++ after)).length ≤ 1 := by
  have hsite : (k.site e c).expr = e := by cases k <;> rfl
  have hplain : (k.site e c).expr.Plain := hsite.symm ▸ he
  constructor
  · intro p hp
    have hp := Site.plain_of_reaches hplain hp
    obtain ⟨hnode, -⟩ := id hp
    obtain ⟨heq, hadds⟩ := Site.reported_eq hnode
    exact ⟨heq, Site.failed_of_reported hp, hadds.eq_nil⟩
  · obtain ⟨before, after, heq, hlength, hfailed⟩ := k.exists_reported_eq e hfits
    have hsilent : (k.site e c).reported ≠ [] → beyondNames (before ++ after) = [] :=
      fun h => hfailed (Site.failed_of_reported hplain h)
    refine ⟨before, after, heq, hsilent, fun path hpath => ?_⟩
    by_cases hreported : (k.site e c).reported = []
    · rw [Site.own_path_eq_nil hplain hpath hreported, List.length_nil, Nat.zero_add]
      exact hlength
    · rw [hsilent hreported]
      exact Site.length_own_path_le hplain hpath

/-- `-missing + (1 + true)`, with two mistakes beside each other. -/
def twoMistakes : Surface.Expr :=
  .binary (.unary ⟨.punct .dash, "-", "a", 15, 16⟩ (.name ⟨"missing", "a", 16, 23⟩) ⟨"a", 15, 23⟩)
    ⟨.punct .plus, "+", "a", 24, 25⟩
    (.binary (.number 1 ⟨"a", 27, 28⟩) ⟨.punct .plus, "+", "a", 29, 30⟩ (.boolean true ⟨"a", 31, 35⟩)
      ⟨"a", 27, 35⟩) ⟨"a", 15, 35⟩

/-- The declaration `var ok: bool = ..`. -/
def declaringOk : Consumer := .declaration ⟨"ok", "a", 4, 6⟩ false (some ⟨"bool", "a", 8, 12⟩) ⟨"a", 0, 36⟩

theorem twoMistakes_plain : twoMistakes.Plain := by
  refine .intro trivial fun d hd => ?_
  rcases List.mem_pair.1 hd with rfl | rfl
  · refine .intro trivial fun d hd => ?_
    obtain rfl := List.mem_singleton.1 hd
    exact .intro trivial fun d hd => by cases hd
  · refine .intro trivial fun d hd => ?_
    rcases List.mem_pair.1 hd with rfl | rfl
    · exact .intro trivial fun d hd => by cases hd
    · exact .intro trivial fun d hd => by cases hd

/-- Both mistakes are reported, and nothing else: neither the sum nor the declaration adds to them. -/
theorem two_mistakes_are_contained :
    let c := Checker.start ⟨#[], #[]⟩ .standard .empty none
    (declaringOk.reported twoMistakes c).map (·.problem) =
        [.undefinedVariable "missing", .undefinedBinaryOperator "+" "int" "boolean"] ∧
      ∀ path, List.IsChain Site.Uses (declaringOk.site twoMistakes c :: path) →
        ((declaringOk.site twoMistakes c :: path).flatMap Site.own).length ≤ 1 := by
  refine ⟨by decide +kernel, fun path hpath => ?_⟩
  obtain ⟨-, before, after, -, -, hpaths⟩ := errors_are_contained twoMistakes_plain declaringOk trivial
  exact (Nat.le_add_right _ _).trans (hpaths path hpath)

end Checking

end Scripting
