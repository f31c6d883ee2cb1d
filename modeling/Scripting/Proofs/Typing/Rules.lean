import Scripting.Proofs.Lowering.Labels

/-!
# Typing rules

What it means for typed trees to respect the types of their symbols. Trees carry their types, so the
rules say when the types at the nodes fit together. A context knows the symbols and which functions
have something to run when they are called; `g?` is the function whose body is typed, if any.
-/

namespace Scripting

/-- Expressions of the type have values. -/
def Ty.IsValue (t : Ty) : Prop := t ≠ .void ∧ t ≠ .error

/-- The value may be held where the type is expected. -/
def Value.HasType (v : Value) (t : Ty) : Prop := t = .any ∨ v.type = t

/-- What an expression of the type may evaluate to: without a value only if the type is `void`. -/
def Ty.Admits (t : Ty) (v? : Option Value) : Prop := t = .void ∨ ∃ v, v? = some v ∧ v.HasType t

/-! ## Operators -/

theorem UnaryOp.of_find? {token : TokenKind} {operand : Ty} {o : UnaryOp} (h : find? token operand = some o) :
    o ∈ all ∧ .punct o.mark = token ∧ o.operand = operand :=
  ⟨List.mem_of_find?_eq_some h, by simpa using List.find?_some h⟩

theorem BinaryOp.of_find? {token : TokenKind} {left right : Ty} {o : BinaryOp}
    (h : find? token left right = some o) : o ∈ all ∧ .punct o.mark = token ∧ o.left = left ∧ o.right = right :=
  ⟨List.mem_of_find?_eq_some h, by simpa using List.find?_some h⟩

/-! ## Symbols -/

/-- The first table is part of the second, and holds all of its functions that the host provides. -/
structure SymbolTable.Extends (t t' : SymbolTable) : Prop where
  vars : ∀ x v, t.variableAt? x = some v → t'.variableAt? x = some v
  funcs : ∀ f s, t.functionAt? f = some s → t'.functionAt? f = some s
  builtins : ∀ f s, t'.functionAt? f = some s → s.builtin? ≠ none → t.functionAt? f = some s

namespace SymbolTable.Extends

theorem refl (t : SymbolTable) : t.Extends t :=
  ⟨fun _ _ h => h, fun _ _ h => h, fun _ _ h _ => h⟩

theorem trans {t u v : SymbolTable} (h : t.Extends u) (h' : u.Extends v) : t.Extends v where
  vars x s hs := h'.vars x s (h.vars x s hs)
  funcs f s hs := h'.funcs f s (h.funcs f s hs)
  builtins f s hs hb := h.builtins f s (h'.builtins f s hs hb) hb

end SymbolTable.Extends

theorem SymbolTable.variableAt?_addVariable (t : SymbolTable) (v : VariableSymbol) :
    (t.addVariable v).2.variableAt? (t.addVariable v).1 = some v :=
  Array.getElem?_push_size

theorem SymbolTable.functionAt?_addFunction (t : SymbolTable) (s : FunctionSymbol) :
    (t.addFunction s).2.functionAt? (t.addFunction s).1 = some s :=
  Array.getElem?_push_size

theorem SymbolTable.extends_addVariable (t : SymbolTable) (v : VariableSymbol) :
    t.Extends (t.addVariable v).2 := by
  refine ⟨fun x s hs => ?_, fun _ _ h => h, fun _ _ h _ => h⟩
  obtain ⟨hlt, -⟩ := Array.getElem?_eq_some_iff.1 hs
  exact (Array.getElem?_push_lt hlt).trans (Array.getElem?_eq_getElem hlt ▸ hs)

/-- Only the functions that a session starts with are those of the host. -/
theorem SymbolTable.extends_addFunction (t : SymbolTable) {s : FunctionSymbol} (hs : s.builtin? = none) :
    t.Extends (t.addFunction s).2 := by
  refine ⟨fun _ _ h => h, fun f s' hs' => ?_, fun f s' hs' hb => ?_⟩
  · obtain ⟨hlt, -⟩ := Array.getElem?_eq_some_iff.1 hs'
    exact (Array.getElem?_push_lt hlt).trans (Array.getElem?_eq_getElem hlt ▸ hs')
  · have hpush : (t.funcs.push s)[f.index]? = some s' := hs'
    rw [Array.getElem?_push] at hpush
    split at hpush
    · cases hpush
      exact absurd hs hb
    · exact hpush

/-- The types of the arguments and of the result of a function of the host. -/
def Builtin.signature : Builtin → List Ty × Ty
  | .print => ([.string], .void)
  | .input => ([], .string)
  | .random => ([.int], .int)

/-- The types in the signature of the function have values, its parameters are variables of the table,
and a function of the host has the types the host expects. -/
structure FunctionSymbol.Sound (t : SymbolTable) (s : FunctionSymbol) : Prop where
  returns : s.returns ≠ .error
  parameters : ∀ p ∈ s.parameters,
    t.variableAt? p.target = some ⟨p.name, p.type, true, .parameter⟩ ∧ p.type.IsValue
  builtin : ∀ b, s.builtin? = some b → (s.types, s.returns) = b.signature

theorem FunctionSymbol.Sound.mono {t t' : SymbolTable} {s : FunctionSymbol} (h : s.Sound t)
    (hle : t.Extends t') : s.Sound t' where
  returns := h.returns
  parameters p hp := ⟨hle.vars _ _ (h.parameters p hp).1, (h.parameters p hp).2⟩
  builtin := h.builtin

/-- The symbols, and the functions that have something to run. -/
structure Context where
  symbols : SymbolTable
  callable : FuncId → Prop

namespace Context

/-- The variable can be used in the body of `g?`: it is global or belongs to a call, and a parameter is
one of `g?` itself. -/
structure Usable (Γ : Context) (g? : Option FunctionSymbol) (x : VarId) (s : VariableSymbol) :
    Prop where
  found : Γ.symbols.variableAt? x = some s
  value : s.type.IsValue
  inCall : s.kind ≠ .global → g? ≠ none
  parameter : s.kind = .parameter → ∀ g, g? = some g → ∃ p ∈ g.parameters, p.target = x

structure Callable (Γ : Context) (f : FuncId) (s : FunctionSymbol) : Prop
    extends s.Sound Γ.symbols where
  found : Γ.symbols.functionAt? f = some s
  callable : Γ.callable f

/-- The second context has all that the first has. -/
structure Le (Γ Δ : Context) : Prop where
  symbols : Γ.symbols.Extends Δ.symbols
  callable : ∀ f, Γ.callable f → Δ.callable f

variable {Γ Δ : Context} {g? : Option FunctionSymbol}

theorem Le.trans {Θ : Context} (h : Γ.Le Δ) (h' : Δ.Le Θ) : Γ.Le Θ :=
  ⟨h.symbols.trans h'.symbols, fun f hf => h'.callable f (h.callable f hf)⟩

theorem Usable.mono {x : VarId} {s : VariableSymbol} (h : Γ.Usable g? x s) (hle : Γ.Le Δ) :
    Δ.Usable g? x s :=
  ⟨hle.symbols.vars x s h.found, h.value, h.inCall, h.parameter⟩

theorem Callable.mono {f : FuncId} {s : FunctionSymbol} (h : Γ.Callable f s) (hle : Γ.Le Δ) :
    Δ.Callable f s :=
  ⟨h.toSound.mono hle.symbols, hle.symbols.funcs f s h.found, hle.callable f h.callable⟩

end Context

namespace Typed

variable {Γ Δ : Context} {g? : Option FunctionSymbol}

/-! ## Expressions -/

/-- The types at the nodes of the expression fit together. -/
inductive Expr.WellTyped (Γ : Context) (g? : Option FunctionSymbol) : Expr → Prop
  | literal (v) : WellTyped Γ g? (.literal v)
  | name {x s} (hx : Γ.Usable g? x s) : WellTyped Γ g? (.name x s.type)
  | assign {x s e} (hx : Γ.Usable g? x s) (he : e.WellTyped Γ g?) (ht : e.type = s.type) :
    WellTyped Γ g? (.assign x e s.type)
  | compound {x s o e} (hx : Γ.Usable g? x s) (he : e.WellTyped Γ g?) (ho : o ∈ BinaryOp.all)
    (hl : o.left = s.type) (hr : o.right = e.type) (ht : o.result = s.type) :
    WellTyped Γ g? (.compound x o e s.type)
  | unary {o e} (he : e.WellTyped Γ g?) (ho : o ∈ UnaryOp.all) (ht : o.operand = e.type) :
    WellTyped Γ g? (.unary o e)
  | binary {l o r} (hl : l.WellTyped Γ g?) (hr : r.WellTyped Γ g?) (ho : o ∈ BinaryOp.all)
    (htl : o.left = l.type) (htr : o.right = r.type) : WellTyped Γ g? (.binary l o r)
  | convert {t e} (he : e.WellTyped Γ g?) (hv : e.type ≠ .void) (ht : t.IsValue) :
    WellTyped Γ g? (.convert t e)
  | call {f s es} (hf : Γ.Callable f s) (hes : ∀ e ∈ es, e.WellTyped Γ g?)
    (ht : es.map Expr.type = s.types) : WellTyped Γ g? (.call f es s.returns)

theorem Expr.WellTyped.type_ne_error {e : Expr} (h : e.WellTyped Γ g?) : e.type ≠ .error := by
  have hunary : ∀ o ∈ UnaryOp.all, o.result ≠ .error := by decide
  have hbinary : ∀ o ∈ BinaryOp.all, o.result ≠ .error := by decide
  cases h with
  | literal v => cases v <;> exact nofun
  | name hx => exact hx.value.2
  | assign hx _ _ => exact hx.value.2
  | compound hx _ _ _ _ _ => exact hx.value.2
  | unary _ ho _ => exact hunary _ ho
  | binary _ _ ho _ _ => exact hbinary _ ho
  | convert _ _ ht => exact ht.2
  | call hf _ _ => exact hf.returns

theorem Expr.WellTyped.mono {e : Expr} (h : e.WellTyped Γ g?) (hle : Γ.Le Δ) : e.WellTyped Δ g? := by
  induction h with
  | literal v => exact .literal v
  | name hx => exact .name (hx.mono hle)
  | assign hx _ ht ih => exact .assign (hx.mono hle) ih ht
  | compound hx _ ho hl hr ht ih => exact .compound (hx.mono hle) ih ho hl hr ht
  | unary _ ho ht ih => exact .unary ih ho ht
  | binary _ _ ho htl htr ihl ihr => exact .binary ihl ihr ho htl htr
  | convert _ hv ht ih => exact .convert ih hv ht
  | call hf _ ht ih => exact .call (hf.mono hle) ih ht

/-- Lowering keeps the types. -/
theorem Expr.type_lower (e : Expr) : e.lower.type = e.type := by
  cases e <;> rfl

theorem Expr.WellTyped.lower {e : Expr} (h : e.WellTyped Γ g?) : e.lower.WellTyped Γ g? := by
  induction h with
  | literal v => exact .literal v
  | name hx => exact .name hx
  | @assign x s e hx _ ht ih => exact .assign hx ih ((Expr.type_lower e).trans ht)
  | @compound x s o e hx _ ho hl hr ht ih =>
    exact .assign hx (.binary (.name hx) ih ho hl (hr.trans (Expr.type_lower e).symm)) ht
  | @unary o e _ ho ht ih => exact .unary ih ho (ht.trans (Expr.type_lower e).symm)
  | @binary l o r _ _ ho htl htr ihl ihr =>
    exact .binary ihl ihr ho (htl.trans (Expr.type_lower l).symm) (htr.trans (Expr.type_lower r).symm)
  | @convert t e _ hv ht ih => exact .convert ih ((Expr.type_lower e).symm ▸ hv) ht
  | @call f s es hf _ ht ih =>
    show (Expr.call f (Expr.mapNodesList Expr.expand es) s.returns).WellTyped Γ g?
    rw [Expr.mapNodesList_eq_map]
    refine .call hf (List.forall_mem_map.2 ih) ?_
    rw [List.map_map, ← ht]
    exact List.map_congr_left fun e _ => Expr.type_lower e

/-! ## Instructions -/

/-- The expressions of the instruction are well typed and have the types it needs. -/
def Instr.WellTyped (Γ : Context) (g? : Option FunctionSymbol) : Instr → Prop
  | eval e => e.WellTyped Γ g?
  | declare x e => e.WellTyped Γ g? ∧ ∃ s, Γ.Usable g? x s ∧ e.type = s.type
  | label _ | jump _ => True
  | branch _ c _ => c.WellTyped Γ g? ∧ c.type = .boolean
  | ret none => ∃ g, g? = some g ∧ g.returns = .void
  | ret (some e) => e.WellTyped Γ g? ∧ ∃ g, g? = some g ∧ g.returns.IsValue ∧ e.type = g.returns

theorem Instr.WellTyped.mono {i : Instr} (h : i.WellTyped Γ g?) (hle : Γ.Le Δ) :
    i.WellTyped Δ g? := by
  cases i with
  | eval e => exact Expr.WellTyped.mono h hle
  | declare x e =>
    obtain ⟨he, s, hs, ht⟩ := h
    exact ⟨he.mono hle, s, hs.mono hle, ht⟩
  | label l => trivial
  | jump l => trivial
  | branch l c on => exact ⟨h.1.mono hle, h.2⟩
  | ret e? =>
    cases e? with
    | none => exact h
    | some e => exact ⟨h.1.mono hle, h.2⟩

theorem Instr.WellTyped.lower {i : Instr} (h : i.WellTyped Γ g?) :
    ∀ j ∈ i.lower, j.WellTyped Γ g? := by
  intro j hj
  cases i with
  | branch l c on =>
    rw [Instr.lower] at hj
    unfold branchOn at hj
    split at hj
    · split at hj
      · obtain rfl := List.mem_singleton.1 hj
        trivial
      · cases hj
    · obtain rfl := List.mem_singleton.1 hj
      exact ⟨h.1.lower, (Expr.type_lower c).trans h.2⟩
  | eval e =>
    obtain rfl := List.mem_singleton.1 hj
    exact Expr.WellTyped.lower h
  | declare x e =>
    obtain rfl := List.mem_singleton.1 hj
    obtain ⟨he, s, hs, ht⟩ := h
    exact ⟨he.lower, s, hs, (Expr.type_lower e).trans ht⟩
  | label l =>
    obtain rfl := List.mem_singleton.1 hj
    trivial
  | jump l =>
    obtain rfl := List.mem_singleton.1 hj
    trivial
  | ret e? =>
    obtain rfl := List.mem_singleton.1 hj
    cases e? with
    | none => exact h
    | some e =>
      obtain ⟨he, g, hg, hv, ht⟩ := h
      exact ⟨he.lower, g, hg, hv, (Expr.type_lower e).trans ht⟩

def Code.WellTyped (Γ : Context) (g? : Option FunctionSymbol) (code : Code) : Prop :=
  ∀ i ∈ code, i.WellTyped Γ g?

theorem Code.WellTyped.mono {code : Code} (h : code.WellTyped Γ g?) (hle : Γ.Le Δ) :
    code.WellTyped Δ g? :=
  fun i hi => (h i hi).mono hle

theorem Stmt.Scoped.wellTyped_lower {ts : List Label} {s : Stmt}
    (h : s.Scoped (Instr.WellTyped Γ g?) ts) : s.lower.WellTyped Γ g? :=
  h.forall_lowered (fun _ hi => hi.lower) (fun _ => trivial) (fun _ => trivial) 0

theorem Stmt.Scoped.wellTyped_lowerBody {ts : List Label} {s : Stmt} {g : FunctionSymbol}
    (h : s.Scoped (Instr.WellTyped Γ (some g)) ts) :
    (s.lowerBody g.returns).WellTyped Γ (some g) := by
  unfold Stmt.lowerBody
  split
  case isTrue hvoid =>
    refine List.forall_mem_append.2 ⟨h.wellTyped_lower, fun i hi => ?_⟩
    obtain rfl := List.mem_singleton.1 hi
    exact ⟨g, rfl, hvoid.1⟩
  case isFalse => exact h.wellTyped_lower

end Typed

end Scripting
