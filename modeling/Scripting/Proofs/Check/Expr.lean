import Scripting.Check.Expr
import Scripting.Proofs.Check.Steps

/-!
# Checked expressions

Checking an expression begins no loop and gives a strict expression. If nothing is reported, the
expression is well typed and no stand-in. There is one lemma for each function of the check.
-/

namespace Scripting

/-- The operators of compound assignments evaluate both operands, and their result has the type of the
first. -/
theorem BinaryOp.of_compound {kind : TokenKind} {mark : Punct} (hmark : kind.compound? = some mark)
    {left right : Ty} {o : BinaryOp} (ho : BinaryOp.find? (.punct mark) left right = some o) :
    o ∈ BinaryOp.all ∧ o.kind.Strict ∧ o.left = left ∧ o.right = right ∧ o.result = left := by
  let marks : List Punct := [.plus, .dash, .star, .slash, .percent, .ampersand, .pipe, .hat]
  have hmarks : mark ∈ marks := by
    cases kind with
    | punct p => cases p <;> cases hmark <;> decide
    | _ => cases hmark
  have htable : ∀ o ∈ BinaryOp.all, o.mark ∈ marks →
      o.kind ≠ .logicalAnd ∧ o.kind ≠ .logicalOr ∧ o.result = o.left := by decide
  obtain ⟨hmem, hkind, rfl, rfl⟩ := of_find? ho
  obtain rfl : o.mark = mark := TokenKind.punct.inj hkind
  obtain ⟨hand, hor, hresult⟩ := htable o hmem hmarks
  exact ⟨hmem, ⟨hand, hor⟩, rfl, rfl, hresult⟩

theorem Conversion.eq_of_identity {source target : Ty} (h : classify source target = .identity) :
    source = target := by
  revert h
  cases source <;> cases target <;> decide

namespace Checking

variable {Γ : Context} {g? : Option FunctionSymbol} {c : Checker} {P : Prop}

/-- The expression is well typed and no stand-in. -/
structure Checked.Sound (Γ : Context) (g? : Option FunctionSymbol) (r : Checked) : Prop where
  typed : r.1.WellTyped Γ g?
  real : r.2 = false

/-- The expression is well typed, no stand-in, and has a value. -/
structure Checked.Valued (Γ : Context) (g? : Option FunctionSymbol) (r : Checked) : Prop
    extends r.Sound Γ g? where
  value : r.1.type ≠ .void

theorem Checked.Valued.isValue {r : Checked} (h : r.Valued Γ g?) : r.1.type.IsValue :=
  ⟨h.value, h.typed.type_ne_error⟩

theorem yields_requireValue {span : Span} {step : Checking Checked}
    (h : Yields Γ g? c P step (fun r n => r.1.Strict ∧ n = c.loopCount) (Checked.Sound Γ g?)) :
    Yields Γ g? c P (requireValue span step) (fun r n => r.1.Strict ∧ n = c.loopCount)
      (Checked.Valued Γ g?) := by
  unfold requireValue
  refine h.bind fun r c' _ hs => ?_
  obtain ⟨e, standIn⟩ := r
  by_cases hv : e.type = .void
  · simp only [if_pos hv]
    exact yields_reported ⟨.error, hs.2⟩
  · simp only [if_neg hv]
    exact yields_pure hs fun _ _ hP => ⟨hP.2, hv⟩

/-- A refused conversion is reported, unless it is one of an expression without a value. -/
theorem yields_refused (e : Typed.Expr) (standIn : Bool) (target : Ty) (span : Span)
    (problem : Problem) {Q : Typed.Expr → Prop} :
    Yields Γ g? c (Checked.Valued Γ g? (e, standIn) ∧ target.IsValue)
      (do
        unless standIn || e.type = .error || target = .error do report span problem
        return Typed.Expr.error)
      (fun e' n => e'.Strict ∧ n = c.loopCount) Q := by
  by_cases hsilent : (standIn || e.type = .error || target = .error) = true
  · simp only [if_pos hsilent]
    refine yields_pure ⟨.error, rfl⟩ fun _ _ hP => ?_
    have hreal : standIn = false := hP.1.real
    have herror : e.type ≠ .error := hP.1.typed.type_ne_error
    simp [hreal, herror, hP.2.2] at hsilent
  · simp only [if_neg hsilent]
    exact yields_reported ⟨.error, rfl⟩

theorem yields_convert {e : Typed.Expr} (he : e.Strict) (span : Span) (target : Ty)
    (written standIn : Bool) :
    Yields Γ g? c (Checked.Valued Γ g? (e, standIn) ∧ target.IsValue)
      (convert span e target written standIn) (fun e' n => e'.Strict ∧ n = c.loopCount)
      fun e' => e'.WellTyped Γ g? ∧ e'.type = target := by
  have hconverted : Yields Γ g? c (Checked.Valued Γ g? (e, standIn) ∧ target.IsValue)
      (pure (Typed.Expr.convert target e)) (fun e' n => e'.Strict ∧ n = c.loopCount)
      fun e' => e'.WellTyped Γ g? ∧ e'.type = target :=
    yields_pure ⟨.convert target he, rfl⟩ fun _ _ hP => ⟨.convert hP.1.typed hP.1.value hP.2, rfl⟩
  unfold convert
  dsimp only
  cases hkind : Conversion.classify e.type target with
  | none => exact yields_refused e standIn target span _
  | identity => exact yields_pure ⟨he, rfl⟩ fun _ _ hP => ⟨hP.1.typed, Conversion.eq_of_identity hkind⟩
  | implicit => exact hconverted
  | explicit =>
    cases written with
    | true => exact hconverted
    | false => exact yields_refused e standIn target span _

theorem yields_named (name : Surface.Name) :
    Yields Γ g? c P (named name) (fun e n => e.Strict ∧ n = c.loopCount)
      fun e => e.WellTyped Γ g? := by
  unfold named
  refine yields_get ?_
  cases hx : c.scope.findVariable? name.text with
  | none => exact yields_reported ⟨.error, rfl⟩
  | some x =>
    refine yields_pure ⟨.name x _, rfl⟩ fun hc hr _ => ?_
    obtain ⟨v, hv⟩ := hr.scope.exists_usable hx
    have htype : c.symbols.variableType x = v.type := by
      unfold SymbolTable.variableType
      rw [hv.found]
      rfl
    rw [htype]
    exact .name (hv.mono ⟨hc.symbols, fun _ => id⟩)

theorem yields_unary (operator : Token) {operand : Checked} (h : operand.1.Strict) :
    Yields Γ g? c (operand.Valued Γ g?) (unary operator operand)
      (fun r n => r.1.Strict ∧ n = c.loopCount) (Checked.Sound Γ g?) := by
  obtain ⟨e, standIn⟩ := operand
  unfold unary
  by_cases herror : e.type = .error
  · simp only [if_pos herror]
    exact yields_pure ⟨.error, rfl⟩ fun _ _ hv => absurd herror hv.typed.type_ne_error
  · simp only [if_neg herror]
    cases standIn with
    | true => exact yields_pure ⟨h, rfl⟩ fun _ _ hv => nomatch hv.real
    | false =>
      cases ho : UnaryOp.find? operator.kind e.type with
      | none => exact yields_reported ⟨h, rfl⟩
      | some o =>
        obtain ⟨hmem, -, htype⟩ := UnaryOp.of_find? ho
        exact yields_pure ⟨.unary o h, rfl⟩ fun _ _ hv => ⟨.unary hv.typed hmem htype, rfl⟩

theorem yields_binary (operator : Token) {left right : Checked} (hl : left.1.Strict)
    (hr : right.1.Strict) :
    Yields Γ g? c (left.Valued Γ g? ∧ right.Valued Γ g?) (binary operator left right)
      (fun r n => r.1.Strict ∧ n = c.loopCount) (Checked.Sound Γ g?) := by
  obtain ⟨l, leftStandIn⟩ := left
  obtain ⟨r, rightStandIn⟩ := right
  unfold binary
  dsimp only
  by_cases herror : (l.type = .error || r.type = .error) = true
  · rw [if_pos herror]
    refine yields_pure ⟨.error, rfl⟩ fun _ _ hv => ?_
    simp [hv.1.typed.type_ne_error, hv.2.typed.type_ne_error] at herror
  · rw [if_neg herror]
    by_cases hstandIn : (leftStandIn || rightStandIn) = true
    · rw [if_pos hstandIn]
      refine yields_pure ⟨hl, rfl⟩ fun _ _ hv => ?_
      have hleft : leftStandIn = false := hv.1.real
      have hright : rightStandIn = false := hv.2.real
      simp [hleft, hright] at hstandIn
    · rw [if_neg hstandIn]
      cases ho : BinaryOp.find? operator.kind l.type r.type with
      | none => exact yields_reported ⟨hl, rfl⟩
      | some o =>
        obtain ⟨hmem, -, hleft, hright⟩ := BinaryOp.of_find? ho
        exact yields_pure ⟨.binary o hl hr, rfl⟩ fun _ _ hv =>
          ⟨.binary hv.1.typed hv.2.typed hmem hleft hright, rfl⟩

theorem yields_assignTo (x : VarId) (target : Surface.Name) (operator : Token) (valueSpan : Span)
    {value : Checked} (h : value.1.Strict) :
    Yields Γ g? c (value.Valued Γ g? ∧ ∃ v, Context.Usable ⟨c.symbols, Γ.callable⟩ g? x v)
      (assignTo x target operator valueSpan value) (fun e n => e.Strict ∧ n = c.loopCount)
      fun e => e.WellTyped Γ g? := by
  obtain ⟨e, standIn⟩ := value
  unfold assignTo
  refine yields_get ?_
  dsimp only
  generalize htype : c.symbols.variableType x = type
  suffices hassign : ∀ c' : Checker, c'.loopCount = c.loopCount →
      Yields Γ g? c' (Checked.Valued Γ g? (e, standIn) ∧ ∃ v, Γ.Usable g? x v ∧ v.type = type) _
        (fun (e : Typed.Expr) n => e.Strict ∧ n = c.loopCount) fun e => e.WellTyped Γ g? by
    refine (yields_report_if hassign).given fun hc _ hP => ⟨hP.1, ?_⟩
    obtain ⟨v, hv⟩ := hP.2
    refine ⟨v, hv.mono ⟨hc.symbols, fun _ => id⟩, ?_⟩
    rw [← htype]
    unfold SymbolTable.variableType
    rw [hv.found]
    rfl
  intro c' hn
  cases hmark : operator.kind.compound? with
  | none =>
    refine Yields.bind (S := fun e n => e.Strict ∧ n = c'.loopCount)
      (Q := fun e => e.WellTyped Γ g? ∧ e.type = type)
      ((yields_convert h valueSpan type false standIn).given fun _ _ hP => ⟨hP.1, ?_⟩)
      fun e' c'' _ he' => ?_
    · obtain ⟨v, hv, rfl⟩ := hP.2
      exact hv.value
    · refine yields_pure ⟨.assign x type he'.1, he'.2.trans hn⟩ fun _ _ hP => ?_
      obtain ⟨⟨-, v, hv, rfl⟩, htyped, heq⟩ := hP
      exact .assign hv htyped heq
  | some mark =>
    dsimp only
    by_cases hsilent : (standIn || e.type = .error || type = .error) = true
    · rw [if_pos hsilent]
      refine yields_pure ⟨.error, hn⟩ fun _ _ hP => ?_
      obtain ⟨hvalued, v, hv, rfl⟩ := hP
      have hreal : standIn = false := hvalued.real
      simp [hreal, hvalued.typed.type_ne_error, hv.value.2] at hsilent
    · rw [if_neg hsilent]
      cases ho : BinaryOp.find? (.punct mark) type e.type with
      | none => exact yields_reported ⟨.error, hn⟩
      | some o =>
        obtain ⟨hmem, hstrict, hleft, hright, hresult⟩ := BinaryOp.of_compound hmark ho
        refine yields_pure ⟨.compound x type hstrict h, hn⟩ fun _ _ hP => ?_
        obtain ⟨hvalued, v, hv, rfl⟩ := hP
        exact .compound hv hvalued.typed hmem hleft hright hresult

theorem yields_assign (target : Surface.Name) (operator : Token) (valueSpan : Span) {value : Checked}
    (h : value.1.Strict) :
    Yields Γ g? c (value.Valued Γ g?) (assign target operator valueSpan value)
      (fun e n => e.Strict ∧ n = c.loopCount) fun e => e.WellTyped Γ g? := by
  unfold assign
  refine yields_get ?_
  cases hx : c.scope.findVariable? target.text with
  | some x =>
    exact (yields_assignTo x target operator valueSpan h).given
      fun _ hr hv => ⟨hv, hr.scope.exists_usable hx⟩
  | none =>
    dsimp only
    split
    · refine Yields.bind ((yields_declareVariable target.text target.span false value.1.type).given
        fun _ _ hv => hv.isValue) fun x c' _ hn => ?_
      refine yields_pure ⟨.assign x _ h, hn⟩ fun _ _ hP => ?_
      obtain ⟨hvalued, v, hv, htype⟩ := hP
      rw [← htype]
      exact .assign hv hvalued.typed htype.symm
    · exact yields_reported ⟨.error, rfl⟩

theorem yields_call (callee : Surface.Name) {arguments : List Checked}
    (h : ∀ r ∈ arguments, r.1.Strict) :
    Yields Γ g? c (∀ r ∈ arguments, r.Valued Γ g?) (call callee arguments)
      (fun e n => e.Strict ∧ n = c.loopCount) fun e => e.WellTyped Γ g? := by
  unfold call
  dsimp only
  split
  case isTrue hstop =>
    refine yields_pure ⟨.error, rfl⟩ fun _ _ hv => ?_
    rcases Bool.or_eq_true_iff.1 hstop with hstandIn | herror
    · obtain ⟨r, hr, hreal⟩ := List.any_eq_true.1 hstandIn
      exact absurd hreal (by simp [(hv r hr).real])
    · obtain ⟨e, he, htype⟩ := List.mem_map.1 (List.contains_iff_mem.1 herror)
      obtain ⟨r, hr, rfl⟩ := List.mem_map.1 he
      exact absurd htype (hv r hr).typed.type_ne_error
  case isFalse =>
    refine yields_get ?_
    split
    case h_2 => exact yields_reported ⟨.error, rfl⟩
    case h_1 f hf =>
      refine yields_pure ⟨.call f _ (List.forall_mem_map.2 h), rfl⟩ fun hc hr hv => ?_
      obtain ⟨s, hs, htypes⟩ := hr.scope.exists_callable hf
      have hreturns : c.symbols.returnType f = s.returns := by
        unfold SymbolTable.returnType
        rw [hs.found]
        rfl
      rw [hreturns]
      exact .call (hs.mono ⟨hc.symbols, fun _ => id⟩)
        (List.forall_mem_map.2 fun r hr => (hv r hr).typed) htypes.symm

theorem yields_callOrConvert (callee : Surface.Name) (spans : List Span) {arguments : List Checked}
    (h : ∀ r ∈ arguments, r.1.Strict) :
    Yields Γ g? c (∀ r ∈ arguments, r.Valued Γ g?) (callOrConvert callee spans arguments)
      (fun e n => e.Strict ∧ n = c.loopCount) fun e => e.WellTyped Γ g? := by
  unfold callOrConvert
  split
  case h_1 target span e standIn htarget =>
    exact (yields_convert (h _ List.mem_cons_self) span target true standIn).imp
      (fun _ _ hv => ⟨hv _ List.mem_cons_self, Ty.isValue_of_ofName? htarget⟩) (fun _ _ => id)
      fun _ he => he.1
  case h_2 => exact yields_call callee h

mutual

theorem yields_expr {P : Prop} (e : Surface.Expr) (c : Checker) :
    Yields Γ g? c P (expr e) (fun r n => r.1.Strict ∧ n = c.loopCount) (Checked.Sound Γ g?) := by
  unfold expr
  refine yields_nested ⟨.error, rfl⟩ fun depth => ?_
  cases e with
  | number k span => exact yields_pure ⟨.literal _, rfl⟩ fun _ _ _ => ⟨.literal _, rfl⟩
  | text s span => exact yields_pure ⟨.literal _, rfl⟩ fun _ _ _ => ⟨.literal _, rfl⟩
  | boolean b span => exact yields_pure ⟨.literal _, rfl⟩ fun _ _ _ => ⟨.literal _, rfl⟩
  | name x =>
    exact (yields_named x).bind fun e c' _ he => yields_pure he fun _ _ hP => ⟨hP.2, rfl⟩
  | binary l o r span =>
    refine (yields_requireValue (yields_expr l _)).bind fun left c₁ _ hl => ?_
    refine (yields_requireValue (yields_expr r c₁)).bind fun right c₂ _ hr => ?_
    exact (yields_binary o hl.1 hr.1).imp (fun _ _ hP => ⟨hP.1.2, hP.2⟩)
      (fun _ _ hs => ⟨hs.1, hs.2.trans (hr.2.trans hl.2)⟩) fun _ => id
  | unary o e span =>
    refine (yields_requireValue (yields_expr e _)).bind fun operand c₁ _ he => ?_
    exact (yields_unary o he.1).imp (fun _ _ hP => hP.2) (fun _ _ hs => ⟨hs.1, hs.2.trans he.2⟩)
      fun _ => id
  | assign x o e span =>
    refine (yields_requireValue (yields_expr e _)).bind fun value c₁ _ he => ?_
    refine ((yields_assign x o e.span he.1).given fun _ _ hP => hP.2).bind fun e' c₂ _ he' => ?_
    exact yields_pure ⟨he'.1, he'.2.trans he.2⟩ fun _ _ hP => ⟨hP.2, rfl⟩
  | call f es span =>
    refine (yields_values es _).bind fun arguments c₁ _ hes => ?_
    refine ((yields_callOrConvert f _ hes.1).given fun _ _ hP => hP.2).bind fun e' c₂ _ he' => ?_
    exact yields_pure ⟨he'.1, he'.2.trans hes.2⟩ fun _ _ hP => ⟨hP.2, rfl⟩

theorem yields_values {P : Prop} (es : List Surface.Expr) (c : Checker) :
    Yields Γ g? c P (values es) (fun rs n => (∀ r ∈ rs, r.1.Strict) ∧ n = c.loopCount)
      fun rs => ∀ r ∈ rs, Checked.Valued Γ g? r := by
  unfold values
  cases es with
  | nil => exact yields_pure ⟨nofun, rfl⟩ fun _ _ _ => nofun
  | cons e es =>
    refine (yields_requireValue (yields_expr e c)).bind fun first c₁ _ he => ?_
    refine (yields_values es c₁).bind fun rest c₂ _ hes => ?_
    exact yields_pure ⟨List.forall_mem_cons.2 ⟨he.1, hes.1⟩, hes.2.trans he.2⟩ fun _ _ hP =>
      List.forall_mem_cons.2 ⟨hP.1.2, hP.2⟩

end

theorem yields_value (e : Surface.Expr) (c : Checker) :
    Yields Γ g? c P (value e) (fun r n => r.1.Strict ∧ n = c.loopCount) (Checked.Valued Γ g?) :=
  yields_requireValue (yields_expr e c)

end Checking

end Scripting
