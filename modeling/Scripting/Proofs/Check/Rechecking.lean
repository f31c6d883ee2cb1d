import Scripting.Proofs.Check.Settled

/-!
# Checking what is printed

A settled expression has at every node what the check finds for it. So the tree that it is printed as checks
to the expression itself: nothing is reported, nothing is declared, and the state stays as it is
(`Checking.expr_surface`). Conversions that the check put in are printed, and take a level of nesting each.
-/

namespace Scripting

variable {α β : Type} {t : SymbolTable} {s : Scope} {c : Checker}

abbrev Checker.deeper (c : Checker) : Checker := { c with depth := c.depth + 1 }

theorem Surface.Name.text_of_withoutSpan {name : Surface.Name} {text : String}
    (h : name.withoutSpan = (⟨text, .nowhere⟩ : Surface.Name).withoutSpan) : name.text = text :=
  congrArg Surface.Name.text h

/-- What is printed for a variable is its name. -/
theorem Scope.Finds.text_of_withoutSpan {x : VarId} {v : VariableSymbol} {name : Surface.Name}
    (h : s.Finds t x v) (hname : name.withoutSpan = (⟨t.variableName x, .nowhere⟩ : Surface.Name).withoutSpan) :
    name.text = v.name :=
  (Surface.Name.text_of_withoutSpan hname).trans (SymbolTable.variableName_of_some h.symbol)

namespace Checking

/-! ## Steps that change nothing -/

theorem bind_of_eq {step : Checking α} {f : α → Checking β} {a : α} (h : step c = (a, c)) :
    (step >>= f) c = f a c := by
  show f (step c).1 (step c).2 = _
  rw [h]

theorem nested_of_eq {span : Span} {standIn a : α} {step : Checking α} (hdepth : c.depth < c.options.maxDepth)
    (h : step c.deeper = (a, c.deeper)) : nested span standIn step c = (a, c) := by
  rw [nested_apply, enter_of_lt hdepth, if_pos rfl, h]
  rfl

theorem requireValue_of_eq {span : Span} {step : Checking Checked} {b : Typed.Expr}
    (h : step c = ((b, false), c)) (hvalue : b.type ≠ .void) : requireValue span step c = ((b, false), c) := by
  rw [requireValue_apply, h, if_neg hvalue]

/-! ## Names and operators -/

theorem named_found {name : Surface.Name} {x : VarId} {v : VariableSymbol}
    (hv : c.scope.Finds c.symbols x v) (hname : name.text = v.name) :
    named name c = (.name x v.type, c) := by
  unfold named
  rw [get_bind, hname, hv.found, ← SymbolTable.variableType_of_some hv.symbol]
  rfl

/-- Operators take values only. -/
theorem isValue_of_unary {k : TokenKind} {o : UnaryOp} {ty : Ty} (h : UnaryOp.find? k ty = some o) :
    ty.IsValue := by
  have hoperand : ∀ o ∈ UnaryOp.all, o.operand ≠ .void ∧ o.operand ≠ .error := by decide
  obtain ⟨hmem, -, rfl⟩ := UnaryOp.of_find? h
  exact hoperand o hmem

theorem isValue_of_binary {k : TokenKind} {o : BinaryOp} {l r : Ty} (h : BinaryOp.find? k l r = some o) :
    l.IsValue ∧ r.IsValue := by
  have hoperands : ∀ o ∈ BinaryOp.all, (o.left ≠ .void ∧ o.left ≠ .error) ∧ o.right ≠ .void ∧ o.right ≠ .error := by
    decide
  obtain ⟨hmem, -, rfl, rfl⟩ := BinaryOp.of_find? h
  exact hoperands o hmem

theorem unary_found {operator : Token} {o : UnaryOp} {e : Typed.Expr}
    (h : UnaryOp.find? operator.kind e.type = some o) : unary operator (e, false) c = ((.unary o e, false), c) := by
  unfold unary
  dsimp only
  rw [if_neg (isValue_of_unary h).2, if_neg Bool.false_ne_true, h]
  rfl

theorem expr_unary_found {operator : Token} {operand : Surface.Expr} {span : Span} {o : UnaryOp} {e : Typed.Expr}
    (hdepth : c.depth < c.options.maxDepth) (he : expr operand c.deeper = ((e, false), c.deeper))
    (h : UnaryOp.find? operator.kind e.type = some o) :
    expr (.unary operator operand span) c = ((.unary o e, false), c) := by
  unfold expr
  refine nested_of_eq hdepth ((bind_of_eq (requireValue_of_eq he (isValue_of_unary h).1)).trans ?_)
  exact unary_found h

theorem binary_found {operator : Token} {o : BinaryOp} {l r : Typed.Expr}
    (h : BinaryOp.find? operator.kind l.type r.type = some o) :
    binary operator (l, false) (r, false) c = ((.binary l o r, false), c) := by
  obtain ⟨hl, hr⟩ := isValue_of_binary h
  unfold binary
  dsimp only
  rw [decide_eq_false hl.2, decide_eq_false hr.2, Bool.or_false, if_neg Bool.false_ne_true,
    if_neg Bool.false_ne_true, h]
  rfl

theorem expr_binary_found {left right : Surface.Expr} {operator : Token} {span : Span} {o : BinaryOp}
    {l r : Typed.Expr} (hdepth : c.depth < c.options.maxDepth)
    (hl : expr left c.deeper = ((l, false), c.deeper)) (hr : expr right c.deeper = ((r, false), c.deeper))
    (h : BinaryOp.find? operator.kind l.type r.type = some o) :
    expr (.binary left operator right span) c = ((.binary l o r, false), c) := by
  obtain ⟨hlvalue, hrvalue⟩ := isValue_of_binary h
  unfold expr
  refine nested_of_eq hdepth ((bind_of_eq (requireValue_of_eq hl hlvalue.1)).trans ?_)
  exact (bind_of_eq (requireValue_of_eq hr hrvalue.1)).trans (binary_found h)

/-! ## Conversions and assignments -/

theorem ne_void_of_converts {source target : Ty}
    (h : Conversion.classify source target ∈ [.implicit, .explicit]) : source ≠ .void := by
  rintro rfl
  revert h
  cases target <;> decide

theorem convert_self (span : Span) (e : Typed.Expr) (written standIn : Bool) :
    convert span e e.type written standIn c = (e, c) := by
  have hclass : Conversion.classify e.type e.type = .identity := if_pos rfl
  unfold convert
  dsimp only
  rw [hclass]
  rfl

theorem convert_settled {ty : Ty} {e : Typed.Expr} (h : (Typed.Expr.convert ty e).Settled t s) (span : Span) :
    convert span e ty true false c = (.convert ty e, c) := by
  obtain ⟨-, hclass⟩ := h
  unfold convert
  dsimp only
  rcases List.mem_pair.1 hclass with hclass | hclass
  · rw [hclass]
    rfl
  · rw [hclass]
    rfl

theorem assign_eq_assignTo {name : Surface.Name} {x : VarId} {v : VariableSymbol}
    (hv : c.scope.Finds c.symbols x v) (hname : name.text = v.name) (operator : Token) (span : Span) (r : Checked) :
    assign name operator span r c = assignTo x name operator span r c := by
  unfold assign
  rw [get_bind, hname, hv.found]

theorem assign_found {name : Surface.Name} {operator : Token} {x : VarId} {v : VariableSymbol} {e : Typed.Expr}
    (hv : c.scope.Finds c.symbols x v) (hname : name.text = v.name) (hwritable : v.readOnly = false)
    (hplain : operator.kind.compound? = none) (htype : e.type = v.type) (span : Span) :
    assign name operator span (e, false) c = (.assign x e v.type, c) := by
  rw [assign_eq_assignTo hv hname]
  unfold assignTo
  dsimp only
  rw [get_bind, hv.symbol, hplain, SymbolTable.variableType_of_some hv.symbol, ← htype]
  dsimp only
  rw [Option.map_some, Option.getD_some, hwritable, if_neg Bool.false_ne_true, bind_of_eq (convert_self ..)]
  rfl

theorem compound_found {name : Surface.Name} {operator : Token} {x : VarId} {v : VariableSymbol} {o : BinaryOp}
    {e : Typed.Expr} (hv : c.scope.Finds c.symbols x v) (hname : name.text = v.name)
    (hwritable : v.readOnly = false) (hmark : operator.kind.compound? = some o.mark)
    (h : BinaryOp.find? (.punct o.mark) v.type e.type = some o) (span : Span) :
    assign name operator span (e, false) c = (.compound x o e v.type, c) := by
  obtain ⟨hl, hr⟩ := isValue_of_binary h
  rw [assign_eq_assignTo hv hname]
  unfold assignTo
  dsimp only
  rw [get_bind, hv.symbol, hmark, SymbolTable.variableType_of_some hv.symbol]
  dsimp only
  rw [Option.map_some, Option.getD_some, hwritable, if_neg Bool.false_ne_true, decide_eq_false hl.2,
    decide_eq_false hr.2, Bool.or_false, Bool.or_false, if_neg Bool.false_ne_true, h]
  rfl

theorem expr_assign_of_eq {name : Surface.Name} {operator : Token} {value : Surface.Expr} {span : Span}
    {e e' : Typed.Expr} (hdepth : c.depth < c.options.maxDepth)
    (he : expr value c.deeper = ((e, false), c.deeper)) (hvalue : e.type ≠ .void)
    (h : assign name operator value.span (e, false) c.deeper = (e', c.deeper)) :
    expr (.assign name operator value span) c = ((e', false), c) := by
  unfold expr
  exact nested_of_eq hdepth ((bind_of_eq (requireValue_of_eq he hvalue)).trans (bind_of_eq h))

/-! ## Calls -/

theorem call_found {callee : Surface.Name} {f : FuncId} {a : FunctionSymbol} {es : List Typed.Expr}
    (ha : c.symbols.functionAt? f = some a) (hname : callee.text = a.name)
    (hfound : c.scope.findFunction? a.name (es.map (·.type)) = some f) (hvalues : ∀ e ∈ es, e.type.IsValue) :
    call callee (es.map fun e => (e, false)) c = (.call f es a.returns, c) := by
  have hes : (es.map fun e => ((e, false) : Checked)).map (·.1) = es := by
    rw [List.map_map]
    exact List.map_id es
  have hplain : (es.map fun e => ((e, false) : Checked)).any (·.2) = false := by simp
  have herror : (es.map (·.type)).contains .error = false := by
    rw [List.contains_eq_mem, decide_eq_false]
    intro hmem
    obtain ⟨e, he, htype⟩ := List.mem_map.1 hmem
    exact (hvalues e he).2 htype
  unfold call
  rw [hes, hplain, herror, Bool.or_false, if_neg Bool.false_ne_true, get_bind, hname, hfound,
    ← SymbolTable.returnType_of_some ha]
  rfl

/-- A call that is no conversion. -/
theorem callOrConvert_eq_call {callee : Surface.Name} {spans : List Span} {rs : List Checked}
    (h : Ty.ofName? callee.text = none ∨ rs.length ≠ 1) : callOrConvert callee spans rs = call callee rs := by
  unfold callOrConvert
  split
  · next htarget =>
    rcases h with hnone | hlength
    · cases hnone.symm.trans htarget
    · exact absurd rfl hlength
  · rfl

/-- Checking arguments again gives them back, if that is so for each. -/
theorem values_surface {es : List Typed.Expr} {us : List Surface.Expr}
    (hes : ∀ e ∈ es, e.type ≠ .void ∧ ∀ u : Surface.Expr,
      u.withoutSpans = (e.surface c.symbols).withoutSpans → c.depth + u.height ≤ c.options.maxDepth →
      expr u c = ((e, false), c))
    (hus : Surface.Expr.allWithoutSpans us = Surface.Expr.allWithoutSpans (Typed.Expr.surfaceList c.symbols es))
    (hdepth : c.depth + Surface.Expr.heightList us ≤ c.options.maxDepth) :
    values us c = (es.map fun e => (e, false), c) := by
  induction es generalizing us with
  | nil =>
    obtain rfl := Surface.Expr.allWithoutSpans_eq_nil hus
    rfl
  | cons e es ih =>
    obtain ⟨⟨hvalue, he⟩, hes⟩ := List.forall_mem_cons.1 hes
    obtain ⟨u, us, rfl, hu, hus⟩ := Surface.Expr.allWithoutSpans_eq_cons hus
    rw [Surface.Expr.heightList] at hdepth
    unfold values
    rw [bind_of_eq (requireValue_of_eq (he u hu (by omega)) hvalue), bind_of_eq (ih hes hus (by omega))]
    rfl

theorem expr_call_of_eq {callee : Surface.Name} {us : List Surface.Expr} {span : Span} (es : List Typed.Expr)
    {e' : Typed.Expr} (hdepth : c.depth < c.options.maxDepth)
    (hes : values us c.deeper = (es.map fun e => (e, false), c.deeper))
    (h : callOrConvert callee (us.map (·.span)) (es.map fun e => (e, false)) c.deeper = (e', c.deeper)) :
    expr (.call callee us span) c = ((e', false), c) := by
  unfold expr
  exact nested_of_eq hdepth ((bind_of_eq hes).trans (bind_of_eq h))

theorem callOrConvert_settled {callee : Surface.Name} {ty : Ty} {e : Typed.Expr} (hname : callee.text = ty.name)
    (h : (Typed.Expr.convert ty e).Settled t s) (span : Span) :
    callOrConvert callee [span] [(e, false)] c = (.convert ty e, c) := by
  unfold callOrConvert
  rw [hname, h.1]
  exact convert_settled h span

/-! ## Expressions -/

theorem kind_of_withoutSpan {operator : Token} {p : Punct}
    (h : operator.withoutSpan = (Surface.Expr.mark p).withoutSpan) : operator.kind = .punct p :=
  (Token.withoutSpan_inj.1 h).1

/-- What a settled expression is printed as checks to the expression, and the state stays as it is. -/
theorem expr_surface {b : Typed.Expr} {u : Surface.Expr} (hb : ∀ p ∈ b.parts, p.Settled c.symbols c.scope)
    (hu : u.withoutSpans = (b.surface c.symbols).withoutSpans)
    (hdepth : c.depth + u.height ≤ c.options.maxDepth) : expr u c = ((b, false), c) := by
  induction b generalizing u c with
  | literal v =>
    cases v with
    | boolean b =>
      obtain ⟨span, rfl⟩ := Surface.Expr.withoutSpans_eq_boolean hu
      unfold expr
      exact nested_of_eq hdepth rfl
    | text text =>
      obtain ⟨span, rfl⟩ := Surface.Expr.withoutSpans_eq_text hu
      unfold expr
      exact nested_of_eq hdepth rfl
    | int n =>
      obtain ⟨span, rfl⟩ := Surface.Expr.withoutSpans_eq_number hu
      unfold expr
      exact nested_of_eq hdepth rfl
  | name x ty =>
    obtain ⟨v, hv, rfl⟩ := hb _ List.mem_cons_self
    obtain ⟨name, rfl, hname⟩ := Surface.Expr.withoutSpans_eq_name hu
    unfold expr
    exact nested_of_eq hdepth (bind_of_eq (named_found (c := c.deeper) hv (hv.text_of_withoutSpan hname)))
  | assign x e ty ih =>
    obtain ⟨⟨hvoid, hsame, v, hv, rfl, hwritable⟩, he⟩ := List.forall_mem_cons.1 hb
    have htype : e.type = v.type := by
      rcases hsame with rfl | htype
      · exact (he _ List.mem_cons_self).elim
      · exact htype
    obtain ⟨name, operator, value, span, rfl, hname, hoperator, hvalue⟩ := Surface.Expr.withoutSpans_eq_assign hu
    have hplain : operator.kind.compound? = none := by
      rw [kind_of_withoutSpan hoperator]
      rfl
    rw [Surface.Expr.height] at hdepth
    refine expr_assign_of_eq (by omega) (ih (c := c.deeper) he hvalue (by dsimp only; omega)) hvoid ?_
    exact assign_found (c := c.deeper) hv (hv.text_of_withoutSpan hname) hwritable hplain htype value.span
  | compound x o e ty ih =>
    obtain ⟨⟨hnode, ⟨p, hp⟩, v, hv, rfl, hwritable⟩, he⟩ := List.forall_mem_cons.1 hb
    obtain ⟨name, operator, value, span, rfl, hname, hoperator, hvalue⟩ := Surface.Expr.withoutSpans_eq_assign hu
    have hmark : operator.kind.compound? = some o.mark := by
      rw [kind_of_withoutSpan hoperator, (Punct.compound_of_compound? hp).1]
      exact hp
    rw [Surface.Expr.height] at hdepth
    refine expr_assign_of_eq (by omega) (ih (c := c.deeper) he hvalue (by dsimp only; omega))
      (isValue_of_binary hnode).2.1 ?_
    exact compound_found (c := c.deeper) hv (hv.text_of_withoutSpan hname) hwritable hmark hnode value.span
  | unary o e ih =>
    obtain ⟨hnode, he⟩ := List.forall_mem_cons.1 hb
    obtain ⟨operator, operand, span, rfl, hoperator, hoperand⟩ := Surface.Expr.withoutSpans_eq_unary hu
    rw [Surface.Expr.height] at hdepth
    refine expr_unary_found (by omega) (ih (c := c.deeper) he hoperand (by dsimp only; omega)) ?_
    exact (kind_of_withoutSpan hoperator).symm ▸ hnode
  | binary l o r hl hr =>
    obtain ⟨hnode, hparts⟩ := List.forall_mem_cons.1 hb
    obtain ⟨hleft, hright⟩ := List.forall_mem_append.1 hparts
    obtain ⟨left, operator, right, span, rfl, hl', hoperator, hr'⟩ := Surface.Expr.withoutSpans_eq_binary hu
    rw [Surface.Expr.height] at hdepth
    refine expr_binary_found (by omega) (hl (c := c.deeper) hleft hl' (by dsimp only; omega))
      (hr (c := c.deeper) hright hr' (by dsimp only; omega)) ?_
    exact (kind_of_withoutSpan hoperator).symm ▸ hnode
  | convert ty e ih =>
    obtain ⟨hnode, he⟩ := List.forall_mem_cons.1 hb
    obtain ⟨callee, us, span, rfl, hname, hus⟩ := Surface.Expr.withoutSpans_eq_call hu
    obtain ⟨u, us, rfl, hu, hnil⟩ := Surface.Expr.allWithoutSpans_eq_cons hus
    obtain rfl := Surface.Expr.allWithoutSpans_eq_nil hnil
    rw [Surface.Expr.height] at hdepth
    refine expr_call_of_eq [e] (by omega) (values_surface (c := c.deeper) ?_ hus (by dsimp only; omega)) ?_
    · exact List.forall_mem_singleton.2 ⟨ne_void_of_converts hnode.2, fun u hu hd => ih he hu hd⟩
    · exact callOrConvert_settled (Surface.Name.text_of_withoutSpan hname) hnode u.span
  | call f es ty ih =>
    obtain ⟨⟨a, ha, rfl, hfound, -, hcall, hvalues⟩, hparts⟩ := List.forall_mem_cons.1 hb
    rw [Typed.Expr.partsList_eq_flatMap, List.forall_mem_flatMap] at hparts
    obtain ⟨callee, us, span, rfl, hname, hus⟩ := Surface.Expr.withoutSpans_eq_call hu
    have hname : callee.text = a.name :=
      (Surface.Name.text_of_withoutSpan hname).trans (SymbolTable.functionName_of_some ha)
    rw [Surface.Expr.height] at hdepth
    refine expr_call_of_eq es (by omega) (values_surface (c := c.deeper) ?_ hus (by dsimp only; omega)) ?_
    · exact fun e he => ⟨(hvalues e he).1, fun u hu hd => ih e he (hparts e he) hu hd⟩
    · rw [callOrConvert_eq_call (by rwa [hname, List.length_map])]
      exact call_found ha hname hfound hvalues
  | error => exact (hb _ List.mem_cons_self).elim

end Checking

end Scripting
