import Scripting.Proofs.Check.ImplicitDeclaration
import Scripting.Proofs.Surface.Legible
import Scripting.Proofs.Typed.Printing

/-!
# Expressions that are checked without a report

A checked expression keeps what its check found: operators, conversions, variables and functions. If nothing
was reported, all of it is found again in the state that the check left, under the names and types that the
expression has (`Typed.Expr.Settled`). Only what failed before can be left out silently: an operand of the error
type takes the whole operation with it. So either every node of the expression is settled, or a name in
scope stands for something that failed (`Checking.quiet_expr`).
-/

namespace Scripting

variable {α β : Type} {T : Prop} {t t' : SymbolTable} {s s' : Scope} {c c₁ c₂ : Checker}

/-! ## Names in scope -/

/-- Every name in the scope stands for a symbol of that name. -/
structure Scope.Named (t : SymbolTable) (s : Scope) : Prop where
  vars : ∀ name x, s.findVariable? name = some x → ∃ v, t.variableAt? x = some v ∧ v.name = name
  funcs : ∀ name types f, s.findFunction? name types = some f →
    ∃ a, t.functionAt? f = some a ∧ a.name = name

/-- The variable is found under its name, which is an identifier. -/
structure Scope.Finds (t : SymbolTable) (s : Scope) (x : VarId) (v : VariableSymbol) : Prop where
  symbol : t.variableAt? x = some v
  found : s.findVariable? v.name = some x
  writable : Token.Writable (.identifier, v.name)

theorem Scope.Named.exists_finds {name : String} {x : VarId} (h : s.Named t)
    (hx : s.findVariable? name = some x) (hname : Token.Writable (.identifier, name)) : ∃ v, s.Finds t x v := by
  obtain ⟨v, hv, rfl⟩ := h.vars _ _ hx
  exact ⟨v, hv, hx, hname⟩

/-- A declaration leaves other names alone. -/
theorem Scope.findVariable?_of_ne {name other : String} {x : VarId} (h : s.declareVariable? name x = some s')
    (hne : other ≠ name) : s'.findVariable? other = s.findVariable? other := by
  obtain ⟨-, rfl⟩ := declareVariable?_eq_some h
  have hinner : Layer.findVariable? { s.inner with vars := s.inner.vars ++ [(name, x)] } other =
      (s.inner.findVariable? other).or (List.lookup other [(name, x)]) := List.lookup_append
  have hother : List.lookup other [(name, x)] = none := by
    rw [List.lookup_cons, beq_eq_false_iff_ne.2 hne]
    rfl
  unfold findVariable? layers
  rw [List.findSome?_cons, List.findSome?_cons, hinner, hother, Option.or_none]

theorem SymbolTable.variableName_of_some {x : VarId} {v : VariableSymbol} (h : t.variableAt? x = some v) :
    t.variableName x = v.name := by
  rw [variableName, h]
  rfl

theorem SymbolTable.variableType_of_some {x : VarId} {v : VariableSymbol} (h : t.variableAt? x = some v) :
    t.variableType x = v.type := by
  rw [variableType, h]
  rfl

theorem SymbolTable.functionName_of_some {f : FuncId} {a : FunctionSymbol} (h : t.functionAt? f = some a) :
    t.functionName f = a.name := by
  rw [functionName, h]
  rfl

theorem SymbolTable.returnType_of_some {f : FuncId} {a : FunctionSymbol} (h : t.functionAt? f = some a) :
    t.returnType f = a.returns := by
  rw [returnType, h]
  rfl

theorem Scope.Finds.writable_name {x : VarId} {v : VariableSymbol} (h : s.Finds t x v) :
    Token.Writable (.identifier, t.variableName x) := by
  rw [SymbolTable.variableName_of_some h.symbol]
  exact h.writable

namespace Checker

/-- What is found in the first state is found in the second. -/
structure Retains (c c' : Checker) : Prop where
  symbols : c.symbols.Extends c'.symbols
  vars : ∀ name x, c.scope.findVariable? name = some x → c'.scope.findVariable? name = some x
  funcs : c'.scope.findFunction? = c.scope.findFunction?

theorem Retains.refl (c : Checker) : c.Retains c := ⟨.refl _, fun _ _ => id, rfl⟩

theorem Retains.trans (h : c.Retains c₁) (h' : c₁.Retains c₂) : c.Retains c₂ where
  symbols := h.symbols.trans h'.symbols
  vars name x hx := h'.vars name x (h.vars name x hx)
  funcs := h'.funcs.trans h.funcs

/-- Names stand for symbols of that name. If one of them stands for something that failed, or nesting too deep
was reported before, then `T` holds. -/
structure Sane (T : Prop) (c : Checker) : Prop where
  named : c.scope.Named c.symbols
  vars : ∀ name x, c.scope.findVariable? name = some x → c.symbols.variableType x = .error → T
  funcs : ∀ name types f, c.scope.findFunction? name types = some f → c.symbols.returnType f = .error → T
  nesting : c.depthReported = true → T

end Checker

/-! ## Settled expressions -/

namespace Typed.Expr

/-- What the check finds for the node itself is what the node has; only a value that failed is not of the type
of the variable it is assigned to. -/
def Settled (t : SymbolTable) (s : Scope) : Expr → Prop
  | .literal (.int n) => 0 ≤ n.toInt
  | .literal _ => True
  | .name x ty => ∃ v, s.Finds t x v ∧ v.type = ty
  | .assign x e ty => e.type ≠ .void ∧ (e = .error ∨ e.type = ty) ∧
      ∃ v, s.Finds t x v ∧ v.type = ty ∧ v.readOnly = false
  | .compound x o e ty => BinaryOp.find? (.punct o.mark) ty e.type = some o ∧
      (∃ p : Punct, p.compound? = some o.mark) ∧ ∃ v, s.Finds t x v ∧ v.type = ty ∧ v.readOnly = false
  | .unary o e => UnaryOp.find? (.punct o.mark) e.type = some o
  | .binary l o r => BinaryOp.find? (.punct o.mark) l.type r.type = some o
  | .convert ty e =>
    Ty.ofName? ty.name = some ty ∧ Conversion.classify e.type ty ∈ [.implicit, .explicit]
  | .call f es ty => ∃ a, t.functionAt? f = some a ∧ a.returns = ty ∧
      s.findFunction? a.name (es.map type) = some f ∧ Token.Writable (.identifier, a.name) ∧
      (Ty.ofName? a.name = none ∨ es.length ≠ 1) ∧ ∀ e ∈ es, e.type.IsValue
  | .error => False

theorem writable_of_ofName? {ty : Ty} (h : Ty.ofName? ty.name = some ty) :
    Token.Writable (.identifier, ty.name) := by
  cases ty with
  | void | error => cases h
  | _ => exact ⟨⟨by decide, List.all_eq_true.1 (by decide)⟩, by decide⟩

/-- A settled expression can be read again, if its texts are plain. -/
theorem Settled.legible {p : Expr} (h : p.Settled t s)
    (hplain : ∀ text, p = .literal (.text text) → ∀ ch ∈ text.toList, Token.isPlain ch = true) :
    p.Legible t := by
  cases p with
  | literal v =>
    cases v with
    | boolean b => trivial
    | text text => exact hplain text rfl
    | int n => exact h
  | name x ty =>
    obtain ⟨v, hv, -⟩ := h
    exact hv.writable_name
  | assign x e ty =>
    obtain ⟨-, -, v, hv, -⟩ := h
    exact hv.writable_name
  | compound x o e ty =>
    obtain ⟨-, hmark, v, hv, -⟩ := h
    exact ⟨hv.writable_name, hmark⟩
  | unary o e => exact List.mem_of_find?_eq_some h
  | binary l o r => exact List.mem_of_find?_eq_some h
  | convert ty e => exact writable_of_ofName? h.1
  | call f es ty =>
    obtain ⟨a, ha, -, -, hwritable, -⟩ := h
    rw [Legible, SymbolTable.functionName_of_some ha]
    exact hwritable
  | error => exact h.elim

theorem Settled.mono {p : Expr} (h : p.Settled c.symbols c.scope) (hc : c.Retains c₁) :
    p.Settled c₁.symbols c₁.scope := by
  have hfinds : ∀ {x v}, c.scope.Finds c.symbols x v → c₁.scope.Finds c₁.symbols x v := fun hv =>
    ⟨hc.symbols.vars _ _ hv.symbol, hc.vars _ _ hv.found, hv.writable⟩
  cases p with
  | literal v => cases v <;> exact h
  | name x ty =>
    obtain ⟨v, hv, hty⟩ := h
    exact ⟨v, hfinds hv, hty⟩
  | assign x e ty =>
    obtain ⟨hvalue, htype, v, hv, hty⟩ := h
    exact ⟨hvalue, htype, v, hfinds hv, hty⟩
  | compound x o e ty =>
    obtain ⟨hfind, hmark, v, hv, hty⟩ := h
    exact ⟨hfind, hmark, v, hfinds hv, hty⟩
  | call f es ty =>
    obtain ⟨a, ha, hreturns, hfound, hrest⟩ := h
    exact ⟨a, hc.symbols.funcs _ _ ha, hreturns, hc.funcs ▸ hfound, hrest⟩
  | _ => exact h

/-- What is not left out of the expression is settled, and if something is left out, then `T` holds. -/
structure Stable (T : Prop) (e : Expr) (t : SymbolTable) (s : Scope) : Prop where
  settled : ∀ p ∈ e.parts, p = .error ∨ p.Settled t s
  error : .error ∈ e.parts → T
  type : e.type = .error → T

theorem Stable.mono {e : Expr} (h : e.Stable T c.symbols c.scope) (hc : c.Retains c₁) :
    e.Stable T c₁.symbols c₁.scope :=
  ⟨fun p hp => (h.settled p hp).imp_right fun hsettled => hsettled.mono hc, h.error, h.type⟩

theorem stable_error (h : T) : Expr.error.Stable T t s :=
  ⟨List.forall_mem_singleton.2 (.inl rfl), fun _ => h, fun _ => h⟩

/-- An expression is stable if its operands are and the node itself is settled. -/
theorem Stable.of_operands {e : Expr} (es : List Expr) (hparts : e.parts = e :: es.flatMap parts)
    (hes : ∀ a ∈ es, a.Stable T t s) (hnode : e.Settled t s) (htype : e.type = .error → T) :
    e.Stable T t s := by
  refine ⟨?_, fun herror => ?_, htype⟩
  · rw [hparts]
    exact List.forall_mem_cons.2 ⟨.inr hnode, List.forall_mem_flatMap.2 fun a ha => (hes a ha).settled⟩
  · rw [hparts] at herror
    rcases List.mem_cons.1 herror with rfl | hmem
    · exact hnode.elim
    · obtain ⟨a, ha, hmem⟩ := List.mem_flatMap.1 hmem
      exact (hes a ha).error hmem

end Typed.Expr

open Typed.Expr (Stable)

namespace Checking

/-! ## Checks that report nothing -/

/-- If the step reports nothing, then what was found before is found after it, and `Q` holds of the result
with the symbols and names after it. -/
def Quiet (T : Prop) (c : Checker) (step : Checking α) (Q : α → SymbolTable → Scope → Prop) : Prop :=
  c.Sane T → (step c).2.diagnostics = c.diagnostics →
    (step c).2.Sane T ∧ c.Retains (step c).2 ∧ Q (step c).1 (step c).2.symbols (step c).2.scope

variable {P : α → SymbolTable → Scope → Prop} {Q : β → SymbolTable → Scope → Prop}

theorem quiet_pure {b : β} (h : c.Sane T → Q b c.symbols c.scope) : Quiet T c (pure b) Q :=
  fun hc _ => ⟨hc, .refl c, h hc⟩

theorem quiet_get {f : Checker → Checking β} (h : Quiet T c (f c) Q) : Quiet T c (get >>= f) Q := h

/-- The steps of a quiet sequence are quiet. -/
theorem Quiet.bind {step : Checking α} {f : α → Checking β} (h : Quiet T c step P) (hstep : Steady step)
    (hf : ∀ a, Steady (f a))
    (hnext : ∀ a c', c.Retains c' → P a c'.symbols c'.scope → Quiet T c' (f a) Q) :
    Quiet T c (step >>= f) Q := by
  intro hc hquiet
  have hfirst := (hstep c).diagnostics
  have hsecond := (hf (step c).1 (step c).2).diagnostics
  have hdiagnostics : (f (step c).1 (step c).2).2.diagnostics = c.diagnostics := hquiet
  have hmiddle : (step c).2.diagnostics = c.diagnostics := by
    rw [hdiagnostics] at hsecond
    exact (hfirst.eq_of_length_le hsecond.length_le).symm
  obtain ⟨hc₁, hretains₁, hP⟩ := h hc hmiddle
  obtain ⟨hc₂, hretains₂, hQ⟩ := hnext _ _ hretains₁ hP hc₁ (hdiagnostics.trans hmiddle.symm)
  exact ⟨hc₂, hretains₁.trans hretains₂, hQ⟩

theorem Quiet.map {step : Checking α} (h : Quiet T c step P) (hstep : Steady step) {f : α → β}
    (hQ : ∀ a c', c.Retains c' → P a c'.symbols c'.scope → Q (f a) c'.symbols c'.scope) :
    Quiet T c (step >>= fun a => pure (f a)) Q :=
  h.bind hstep (fun _ => steady_pure _) fun a c' hc' ha => quiet_pure fun _ => hQ a c' hc' ha

/-- Reports are only added, so a step that reports is not quiet. -/
theorem diagnostics_ne_of_append {ds ds' : List Diagnostic} {d : Diagnostic} (h : ds ++ [d] <+: ds') :
    ds' ≠ ds := by
  rintro rfl
  have hlength := h.length_le
  rw [List.length_append, List.length_singleton] at hlength
  omega

theorem quiet_reported (span : Span) (problem : Problem) (b : β) :
    Quiet T c (do report span problem; return b) Q :=
  fun _ hquiet => absurd hquiet (diagnostics_ne_of_append List.prefix_rfl)

theorem quiet_report_if {p : Prop} [Decidable p] {span : Span} {problem : Problem} {step : Checking β}
    (hstep : Steady step) (h : ¬ p → Quiet T c step Q) :
    Quiet T c (if p then do report span problem; step else step) Q := by
  split
  · have hlater := (hstep (report span problem c).2).diagnostics
    exact fun _ hquiet => absurd hquiet (diagnostics_ne_of_append hlater)
  · next hp => exact h hp

/-- Only if nesting too deep was reported before is an expression left out silently. -/
theorem quiet_nested {span : Span} {standIn : β} {step : Checking β} (hstandIn : T → Q standIn c.symbols c.scope)
    (h : Quiet T { c with depth := c.depth + 1 } step Q) : Quiet T c (nested span standIn step) Q := by
  intro hc hquiet
  rw [nested_apply] at hquiet ⊢
  by_cases hlimit : c.depth < c.options.maxDepth
  · rw [enter_of_lt hlimit, if_pos rfl] at hquiet ⊢
    obtain ⟨hsane, hretains, hQ⟩ := h ⟨hc.named, hc.vars, hc.funcs, hc.nesting⟩ hquiet
    exact ⟨⟨hsane.named, hsane.vars, hsane.funcs, hsane.nesting⟩,
      ⟨hretains.symbols, hretains.vars, hretains.funcs⟩, hQ⟩
  · rw [enter_of_not_lt hlimit, if_neg Bool.false_ne_true] at hquiet ⊢
    cases hreported : c.depthReported with
    | true =>
      rw [if_pos rfl]
      exact ⟨hc, .refl c, hstandIn (hc.nesting hreported)⟩
    | false =>
      rw [hreported, if_neg Bool.false_ne_true] at hquiet
      exact absurd hquiet (diagnostics_ne_of_append List.prefix_rfl)

/-! ## Values and conversions -/

/-- The result of a check that reported nothing: no operator was missing. -/
structure Found (T : Prop) (r : Checked) (t : SymbolTable) (s : Scope) : Prop where
  stable : r.1.Stable T t s
  plain : r.2 = false

/-- Such a result that has a value. -/
structure FoundValue (T : Prop) (r : Checked) (t : SymbolTable) (s : Scope) : Prop extends Found T r t s where
  value : r.1.type ≠ .void

theorem FoundValue.mono {r : Checked} (h : FoundValue T r c.symbols c.scope) (hc : c.Retains c₁) :
    FoundValue T r c₁.symbols c₁.scope :=
  ⟨⟨h.stable.mono hc, h.plain⟩, h.value⟩

theorem quiet_requireValue {span : Span} {step : Checking Checked} (hstep : Steady step)
    (h : Quiet T c step (Found T)) : Quiet T c (requireValue span step) (FoundValue T) := by
  intro hc hquiet
  rw [requireValue_apply] at hquiet ⊢
  split at hquiet
  · have hbefore := (hstep c).diagnostics
    have hreported : (step c).2.diagnostics ++ [⟨span, .expressionMustHaveValue⟩] = c.diagnostics := hquiet
    exact absurd rfl (diagnostics_ne_of_append (hreported ▸ hbefore))
  · next hvalue =>
    rw [if_neg hvalue]
    obtain ⟨hc₁, hretains, hfound⟩ := h hc hquiet
    exact ⟨hc₁, hretains, hfound, hvalue⟩

theorem eq_any_of_implicit {source target : Ty} (h : Conversion.classify source target = .implicit) :
    target = .any := by
  revert h
  cases source <;> cases target <;> decide

/-- A conversion that is not reported is settled, or one of its types is that of something that failed. -/
theorem quiet_convert (span : Span) {e : Typed.Expr} {target : Ty} (written : Bool)
    (he : FoundValue T (e, false) c.symbols c.scope) (htarget : target = .error → T)
    (hwritten : written = true → Ty.ofName? target.name = some target) :
    Quiet T c (convert span e target written false) fun e' t s =>
      e'.Stable T t s ∧ e'.type ≠ .void ∧ (e' = .error ∨ e'.type = target) := by
  have hrefused : ∀ problem : Problem, Quiet T c (do
      unless false || decide (e.type = .error) || decide (target = .error) do report span problem
      return Typed.Expr.error) fun e' t s =>
        e'.Stable T t s ∧ e'.type ≠ .void ∧ (e' = .error ∨ e'.type = target) := by
    intro problem
    by_cases hfailed : e.type = .error ∨ target = .error
    · have hT : T := hfailed.elim he.stable.type htarget
      simp only [Bool.false_or, Bool.or_eq_true, decide_eq_true_eq, hfailed, if_true]
      exact quiet_pure fun _ => ⟨Typed.Expr.stable_error hT, Typed.Expr.type_error_ne_void, .inl rfl⟩
    · simp only [Bool.false_or, Bool.or_eq_true, decide_eq_true_eq, hfailed, if_false]
      exact quiet_reported span problem _
  have hconverted : Conversion.classify e.type target ∈ [.implicit, .explicit] →
      Ty.ofName? target.name = some target → (Typed.Expr.convert target e).Stable T c.symbols c.scope := by
    intro hclass hname
    refine .of_operands [e] (by simp [Typed.Expr.parts]) (List.forall_mem_singleton.2 he.stable)
      ⟨hname, hclass⟩ ?_
    rintro rfl
    cases hname
  unfold convert
  dsimp only
  cases hclass : Conversion.classify e.type target with
  | none => exact hrefused _
  | identity => exact quiet_pure fun _ => ⟨he.stable, he.value, .inr (Conversion.eq_of_identity hclass)⟩
  | implicit =>
    obtain rfl := eq_any_of_implicit hclass
    exact quiet_pure fun _ => ⟨hconverted (by simp [hclass]) rfl, nofun, .inr rfl⟩
  | explicit =>
    dsimp only
    split
    · next hw =>
      have hname := hwritten hw
      refine quiet_pure fun _ => ⟨hconverted (by simp [hclass]) hname, ?_, .inr rfl⟩
      exact (Ty.isValue_of_ofName? hname).1
    · exact hrefused _

/-! ## Names and operators -/

theorem quiet_named {name : Surface.Name} (hname : Token.Writable (.identifier, name.text)) :
    Quiet T c (named name) (Stable T) := by
  refine quiet_get ?_
  split
  · next x hx =>
    refine quiet_pure fun hc => ?_
    obtain ⟨v, hv⟩ := hc.named.exists_finds hx hname
    refine .of_operands [] rfl (List.forall_mem_nil _) ?_ (hc.vars _ _ hx)
    exact ⟨v, hv, (SymbolTable.variableType_of_some hv.symbol).symm⟩
  · exact quiet_reported _ _ _

theorem quiet_unary {operator : Token} {r : Checked} (hr : FoundValue T r c.symbols c.scope) :
    Quiet T c (unary operator r) (Found T) := by
  obtain ⟨e, standIn⟩ := r
  obtain rfl : standIn = false := hr.plain
  unfold unary
  dsimp only
  split
  · next herror => exact quiet_pure fun _ => ⟨Typed.Expr.stable_error (hr.stable.type herror), rfl⟩
  rw [if_neg Bool.false_ne_true]
  split
  · next o ho =>
    obtain ⟨hmem, hkind, -⟩ := UnaryOp.of_find? ho
    have hresult : ∀ o ∈ UnaryOp.all, o.result ≠ .error := by decide
    refine quiet_pure fun _ => ⟨?_, rfl⟩
    refine .of_operands [e] (by simp [Typed.Expr.parts]) (List.forall_mem_singleton.2 hr.stable)
      ?_ fun herror => absurd herror (hresult o hmem)
    rw [Typed.Expr.Settled, hkind]
    exact ho
  · exact quiet_reported _ _ _

theorem quiet_binary {operator : Token} {l r : Checked} (hl : FoundValue T l c.symbols c.scope)
    (hr : FoundValue T r c.symbols c.scope) : Quiet T c (binary operator l r) (Found T) := by
  obtain ⟨l, leftStandIn⟩ := l
  obtain ⟨r, rightStandIn⟩ := r
  obtain rfl : leftStandIn = false := hl.plain
  obtain rfl : rightStandIn = false := hr.plain
  unfold binary
  dsimp only
  split
  · next herror =>
    rw [Bool.or_eq_true, decide_eq_true_eq, decide_eq_true_eq] at herror
    exact quiet_pure fun _ => ⟨Typed.Expr.stable_error (herror.elim hl.stable.type hr.stable.type), rfl⟩
  rw [Bool.or_false, if_neg Bool.false_ne_true]
  split
  · next o ho =>
    obtain ⟨hmem, hkind, -⟩ := BinaryOp.of_find? ho
    have hresult : ∀ o ∈ BinaryOp.all, o.result ≠ .error := by decide
    refine quiet_pure fun _ => ⟨?_, rfl⟩
    refine .of_operands [l, r] (by simp [Typed.Expr.parts])
      (List.forall_mem_cons.2 ⟨hl.stable, List.forall_mem_singleton.2 hr.stable⟩)
      ?_ fun herror => absurd herror (hresult o hmem)
    rw [Typed.Expr.Settled, hkind]
    exact ho
  · exact quiet_reported _ _ _

/-! ## Assignments -/

theorem exists_mark_of_compound? {k : TokenKind} {mark : Punct} (h : k.compound? = some mark) :
    ∃ p : Punct, p.compound? = some mark := by
  cases k with
  | punct p => exact ⟨p, h⟩
  | _ => cases h

theorem quiet_assignTo {x : VarId} {target : Surface.Name} {operator : Token} {valueSpan : Span} {r : Checked}
    (hx : c.scope.findVariable? target.text = some x) (hname : Token.Writable (.identifier, target.text))
    (hr : FoundValue T r c.symbols c.scope) :
    Quiet T c (assignTo x target operator valueSpan r) (Stable T) := by
  obtain ⟨e, standIn⟩ := r
  obtain rfl : standIn = false := hr.plain
  intro hc
  obtain ⟨v, hv⟩ := hc.named.exists_finds hx hname
  have htype := SymbolTable.variableType_of_some hv.symbol
  have herror : c.symbols.variableType x = .error → T := hc.vars _ _ hx
  revert hc
  refine quiet_get (quiet_report_if ?_ fun hwritable => ?_)
  · split
    · exact (steady_convert _ _ _ _ _).bind fun _ => steady_pure _
    split
    · exact steady_pure _
    split
    · exact steady_pure _
    · exact steady_reported _ _ _
  rw [hv.symbol, Option.map_some, Option.getD_some, Bool.not_eq_true] at hwritable
  split
  · have hconvert := quiet_convert valueSpan false hr herror fun h => by cases h
    refine hconvert.map (steady_convert _ _ _ _ _) ?_
    rintro e' c' hc' ⟨hstable, hvoid, hshape⟩
    refine .of_operands [e'] (by simp [Typed.Expr.parts]) (List.forall_mem_singleton.2 hstable) ?_ herror
    refine Typed.Expr.Settled.mono ?_ hc'
    exact ⟨hvoid, hshape, v, hv, htype.symm, hwritable⟩
  · next mark hmark =>
    split
    · next hfailed =>
      rw [Bool.false_or, Bool.or_eq_true, decide_eq_true_eq, decide_eq_true_eq] at hfailed
      exact quiet_pure fun _ => Typed.Expr.stable_error (hfailed.elim hr.stable.type herror)
    split
    · next o ho =>
      obtain ⟨-, hkind, -⟩ := BinaryOp.of_find? ho
      obtain rfl : o.mark = mark := TokenKind.punct.inj hkind
      refine quiet_pure fun _ => .of_operands [e] (by simp [Typed.Expr.parts])
        (List.forall_mem_singleton.2 hr.stable) ?_ herror
      exact ⟨ho, exists_mark_of_compound? hmark, v, hv, htype.symm, hwritable⟩
    · exact quiet_reported _ _ _

/-- A name that was unknown stands for the variable it is declared as, and every other for what it did. -/
theorem quiet_declareVariable {name : String} {span : Span} {type : Ty}
    (hnone : c.scope.findVariable? name = none) (htype : type = .error → T) :
    Quiet T c (declareVariable name span false type) fun x t s => ∃ v, t.variableAt? x = some v ∧
      s.findVariable? name = some x ∧ v.name = name ∧ v.type = type ∧ v.readOnly = false := by
  intro hc _
  have hscope := Scope.declareVariable?_of_none (Scope.inner_findVariable?_of_none hnone)
    (c.symbols.addVariable (c.declared name type false)).1
  have hext := c.symbols.extends_addVariable (c.declared name type false)
  have hnew := c.symbols.variableAt?_addVariable (c.declared name type false)
  have hfuncs := (steady_declareVariable name span false type c).findFunction?
  rw [declareVariable_of_some hscope] at hfuncs ⊢
  refine ⟨⟨⟨?_, ?_⟩, ?_, ?_, hc.nesting⟩, ⟨hext, ?_, hfuncs⟩, _, hnew,
    Scope.findVariable?_declared hscope, rfl, rfl, rfl⟩
  · intro other x hx
    rcases Scope.findVariable?_of_declareVariable? hscope hx with hold | ⟨rfl, rfl⟩
    · obtain ⟨v, hv, hname⟩ := hc.named.vars _ _ hold
      exact ⟨v, hext.vars _ _ hv, hname⟩
    · exact ⟨_, hnew, rfl⟩
  · intro other types f hf
    obtain ⟨a, ha, hname⟩ := hc.named.funcs other types f (hfuncs ▸ hf)
    exact ⟨a, hext.funcs _ _ ha, hname⟩
  · intro other x hx herror
    rcases Scope.findVariable?_of_declareVariable? hscope hx with hold | ⟨rfl, rfl⟩
    · obtain ⟨v, hv, -⟩ := hc.named.vars _ _ hold
      rw [SymbolTable.variableType_of_some (hext.vars _ _ hv), ← SymbolTable.variableType_of_some hv] at herror
      exact hc.vars _ _ hold herror
    · rw [SymbolTable.variableType_of_some hnew] at herror
      exact htype herror
  · intro other types f hf herror
    have hold : c.scope.findFunction? other types = some f := hfuncs ▸ hf
    obtain ⟨a, ha, -⟩ := hc.named.funcs _ _ _ hold
    rw [SymbolTable.returnType_of_some (hext.funcs _ _ ha), ← SymbolTable.returnType_of_some ha] at herror
    exact hc.funcs _ _ _ hold herror
  · intro other x hx
    have hne : other ≠ name := by
      rintro rfl
      cases hnone.symm.trans hx
    exact (Scope.findVariable?_of_ne hscope hne).trans hx

theorem quiet_assign {target : Surface.Name} {operator : Token} {valueSpan : Span} {r : Checked}
    (hname : Token.Writable (.identifier, target.text)) (hr : FoundValue T r c.symbols c.scope) :
    Quiet T c (assign target operator valueSpan r) (Stable T) := by
  refine quiet_get ?_
  split
  · next x hx => exact quiet_assignTo hx hname hr
  · next hnone =>
    split
    · refine (quiet_declareVariable hnone hr.stable.type).map (steady_declareVariable _ _ _ _) ?_
      rintro x c' hc' ⟨v, hv, hfound, hsame, htype, hwritable⟩
      have hfinds : c'.scope.Finds c'.symbols x v := ⟨hv, hsame.symm ▸ hfound, hsame.symm ▸ hname⟩
      exact .of_operands [r.1] (by simp [Typed.Expr.parts])
        (List.forall_mem_singleton.2 (hr.stable.mono hc')) ⟨hr.value, .inr rfl, v, hfinds, htype, hwritable⟩
        hr.stable.type
    · exact quiet_reported _ _ _

/-! ## Calls -/

theorem quiet_call {callee : Surface.Name} {rs : List Checked}
    (hname : Token.Writable (.identifier, callee.text))
    (hcall : Ty.ofName? callee.text = none ∨ rs.length ≠ 1)
    (hrs : ∀ r ∈ rs, FoundValue T r c.symbols c.scope) : Quiet T c (call callee rs) (Stable T) := by
  have hoperands : ∀ e ∈ rs.map (·.1), e.Stable T c.symbols c.scope := by
    intro e he
    obtain ⟨r, hr, rfl⟩ := List.mem_map.1 he
    exact (hrs r hr).stable
  have hplain : rs.any (·.2) = false := by
    rw [List.any_eq_false]
    exact fun r hr => by simp [(hrs r hr).plain]
  unfold call
  dsimp only
  rw [hplain, Bool.false_or]
  split
  · next herror =>
    obtain ⟨e, he, htype⟩ := List.mem_map.1 (List.contains_iff_mem.1 herror)
    exact quiet_pure fun _ => Typed.Expr.stable_error ((hoperands e he).type htype)
  · next herror =>
    have hvalues : ∀ e ∈ rs.map (·.1), e.type.IsValue := by
      intro e he
      refine ⟨?_, fun htype => herror (List.contains_iff_mem.2 (List.mem_map.2 ⟨e, he, htype⟩))⟩
      obtain ⟨r, hr, rfl⟩ := List.mem_map.1 he
      exact (hrs r hr).value
    refine quiet_get ?_
    split
    · next f hf =>
      refine quiet_pure fun hc => ?_
      obtain ⟨a, ha, hsame⟩ := hc.named.funcs _ _ _ hf
      refine .of_operands (rs.map (·.1)) (by rw [Typed.Expr.parts, Typed.Expr.partsList_eq_flatMap])
        hoperands ?_ (hc.funcs _ _ _ hf)
      refine ⟨a, ha, (SymbolTable.returnType_of_some ha).symm, hsame.symm ▸ hf, hsame.symm ▸ hname, ?_, hvalues⟩
      rw [hsame, List.length_map]
      exact hcall
    · exact quiet_reported _ _ _

theorem ofName?_name {name : String} {ty : Ty} (h : Ty.ofName? name = some ty) :
    Ty.ofName? ty.name = some ty := by
  unfold Ty.ofName? at h
  split at h <;> cases h <;> rfl

theorem quiet_callOrConvert {callee : Surface.Name} {spans : List Span} {rs : List Checked}
    (hname : Token.Writable (.identifier, callee.text)) (hlength : spans.length = rs.length)
    (hrs : ∀ r ∈ rs, FoundValue T r c.symbols c.scope) :
    Quiet T c (callOrConvert callee spans rs) (Stable T) := by
  unfold callOrConvert
  split
  · next target span e standIn htarget =>
    have he := hrs (e, standIn) List.mem_cons_self
    obtain rfl : standIn = false := he.plain
    have hconvert := quiet_convert span true he
      (fun herror => absurd herror (Ty.isValue_of_ofName? htarget).2) fun _ => ofName?_name htarget
    intro hc hquiet
    obtain ⟨hc', hretains, hstable, -⟩ := hconvert hc hquiet
    exact ⟨hc', hretains, hstable⟩
  · next hother =>
    refine quiet_call hname ?_ hrs
    cases htarget : Ty.ofName? callee.text with
    | none => exact .inl rfl
    | some target =>
      refine .inr fun hone => ?_
      obtain ⟨span, rfl⟩ := List.length_eq_one_iff.1 (hlength.trans hone)
      obtain ⟨⟨e, standIn⟩, rfl⟩ := List.length_eq_one_iff.1 hone
      exact hother target span e standIn htarget rfl rfl

/-! ## Expressions -/

open Surface (Node)

mutual

/-- If nothing is reported about an expression that can be written, then the result is settled, or something
that failed before is left out of it. -/
theorem quiet_expr (e : Surface.Expr) (he : (Node.expr e).AllLegible) (c : Checker) :
    Quiet T c (expr e) (Found T) := by
  have hstandIn : ∀ {c : Checker}, T → Found T (.error, false) c.symbols c.scope := fun hT =>
    ⟨Typed.Expr.stable_error hT, rfl⟩
  unfold expr
  refine quiet_nested hstandIn ?_
  cases e with
  | number n _ =>
    exact quiet_pure fun _ => ⟨.of_operands [] rfl (List.forall_mem_nil _) he.self nofun, rfl⟩
  | text | boolean =>
    exact quiet_pure fun _ => ⟨.of_operands [] rfl (List.forall_mem_nil _) trivial nofun, rfl⟩
  | name x =>
    have hname := (he.child (.head _)).self
    exact (quiet_named hname).map (steady_named x) fun e _ _ h => ⟨h, rfl⟩
  | binary l o r _ =>
    have hl := quiet_value l (he.child (.head _))
    have hr := quiet_value r (he.child (.tail _ (.tail _ (.head _))))
    refine (hl _).bind (steady_value l) (fun left => (steady_value r).bind fun right => steady_binary o left right)
      fun left c₁ _ hleft => ?_
    refine (hr c₁).bind (steady_value r) (fun right => steady_binary o left right) fun right c₂ hc₂ hright => ?_
    exact quiet_binary (hleft.mono hc₂) hright
  | unary o e _ =>
    refine (quiet_value e (he.child (.tail _ (.head _))) _).bind (steady_value e) (steady_unary o) ?_
    exact fun r _ _ hr => quiet_unary hr
  | assign x o e _ =>
    have hname := (he.child (.head _)).self
    refine (quiet_value e (he.child (.tail _ (.tail _ (.head _)))) _).bind (steady_value e)
      (fun r => (steady_assign x o e.span r).bind fun _ => steady_pure _) fun r c₁ _ hr => ?_
    exact (quiet_assign hname hr).map (steady_assign x o e.span r) fun e _ _ h => ⟨h, rfl⟩
  | call f es _ =>
    have hname := (he.child (.head _)).self
    have hes : ∀ e ∈ es, (Node.expr e).AllLegible := fun e he' => he.child (.tail _ (List.mem_map_of_mem he'))
    refine (quiet_values es hes _).bind (steady_values es)
      (fun rs => (steady_callOrConvert f _ rs).bind fun _ => steady_pure _) ?_
    rintro rs c₁ - ⟨hlength, hrs⟩
    refine (quiet_callOrConvert hname ?_ hrs).map (steady_callOrConvert f _ rs) fun e _ _ h => ⟨h, rfl⟩
    rw [List.length_map, hlength]

theorem quiet_value (e : Surface.Expr) (he : (Node.expr e).AllLegible) (c : Checker) :
    Quiet T c (value e) (FoundValue T) :=
  quiet_requireValue (steady_expr e) (quiet_expr e he c)

theorem quiet_values (es : List Surface.Expr) (hes : ∀ e ∈ es, (Node.expr e).AllLegible) (c : Checker) :
    Quiet T c (values es) fun rs t s => rs.length = es.length ∧ ∀ r ∈ rs, FoundValue T r t s := by
  unfold values
  cases es with
  | nil => exact quiet_pure fun _ => ⟨rfl, List.forall_mem_nil _⟩
  | cons e es =>
    obtain ⟨he, hes⟩ := List.forall_mem_cons.1 hes
    refine (quiet_value e he c).bind (steady_value e) (fun r => (steady_values es).bind fun _ => steady_pure _) ?_
    intro r c₁ _ hr
    refine (quiet_values es hes c₁).map (steady_values es) ?_
    rintro rs c₂ hc₂ ⟨hlength, hrs⟩
    exact ⟨congrArg Nat.succ hlength, List.forall_mem_cons.2 ⟨hr.mono hc₂, hrs⟩⟩

end

end Checking

end Scripting
