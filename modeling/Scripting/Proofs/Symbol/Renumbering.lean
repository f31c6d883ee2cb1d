import Mathlib.Order.Monotone.Basic
import Scripting.Proofs.Symbol.Resolution

/-!
# Renumbering symbols

Two tables may hold the same symbols under different handles, as when one of them has entries that
nothing refers to. A renumbering takes the handles of one to those of the other. It changes nothing about
names: what a scope finds and whether it accepts a declaration is the same before and after renumbering.
-/

namespace Scripting

/-- Other numbers for variables and functions. -/
structure Renumbering where
  vars : VarId → VarId
  funcs : FuncId → FuncId

def Renumbering.identity : Renumbering := ⟨id, id⟩

variable (ρ : Renumbering)

def ParameterSymbol.renumber (p : ParameterSymbol) : ParameterSymbol := { p with target := ρ.vars p.target }

def FunctionSymbol.renumber (f : FunctionSymbol) : FunctionSymbol :=
  { f with parameters := f.parameters.map (·.renumber ρ) }

def Overload.renumber (o : Overload) : Overload := { o with function := ρ.funcs o.function }

def Layer.renumber (l : Layer) : Layer where
  vars := l.vars.map fun d => (d.1, ρ.vars d.2)
  funcs := l.funcs.map fun d => (d.1, d.2.map (·.renumber ρ))

def Scope.renumber (s : Scope) : Scope := ⟨s.inner.renumber ρ, s.outer.map (·.renumber ρ)⟩

theorem lookup_map {α β γ : Type} [BEq α] (f : β → γ) (l : List (α × β)) (a : α) :
    (l.map fun d => (d.1, f d.2)).lookup a = (l.lookup a).map f := by
  induction l with
  | nil => rfl
  | cons d l ih =>
    obtain ⟨k, b⟩ := d
    rw [List.map_cons, List.lookup_cons, List.lookup_cons]
    cases a == k with
    | true => rfl
    | false => exact ih

variable {ρ}

@[simp] theorem FunctionSymbol.types_renumber (f : FunctionSymbol) : (f.renumber ρ).types = f.types := by
  unfold FunctionSymbol.types FunctionSymbol.renumber
  rw [List.map_map]
  rfl

theorem FunctionSymbol.targets_renumber (f : FunctionSymbol) :
    (f.renumber ρ).parameters.map (·.target) = (f.parameters.map (·.target)).map ρ.vars := by
  unfold FunctionSymbol.renumber
  rw [List.map_map, List.map_map]
  rfl

theorem FunctionSymbol.signature_renumber (f : FunctionSymbol) :
    (f.renumber ρ).signature = f.signature := by
  unfold FunctionSymbol.signature
  rw [types_renumber]
  rfl

/-! ## Layers -/

namespace Layer

theorem findVariable?_renumber (l : Layer) (name : String) :
    (l.renumber ρ).findVariable? name = (l.findVariable? name).map ρ.vars :=
  lookup_map ρ.vars l.vars name

theorem overloads_renumber (l : Layer) (name : String) :
    (l.renumber ρ).overloads name = (l.overloads name).map (·.renumber ρ) := by
  unfold overloads
  show ((l.funcs.map fun d => (d.1, d.2.map (·.renumber ρ))).lookup name).getD [] = _
  rw [lookup_map]
  cases l.funcs.lookup name <;> rfl

theorem findFunction?_renumber (l : Layer) (name : String) (types : List Ty) :
    (l.renumber ρ).findFunction? name types = (l.findFunction? name types).map ρ.funcs := by
  unfold findFunction?
  rw [overloads_renumber, List.find?_map, Option.map_map, Option.map_map]
  rfl

theorem declareVariable?_renumber (l : Layer) (name : String) (x : VarId) :
    (l.renumber ρ).declareVariable? name (ρ.vars x) = (l.declareVariable? name x).map (·.renumber ρ) := by
  unfold declareVariable?
  rw [findVariable?_renumber]
  cases l.findVariable? name with
  | some y => rfl
  | none => simp [renumber]

theorem addOverload_renumber (name : String) (o : Overload) (fs : List (String × List Overload)) :
    addOverload name (o.renumber ρ) (fs.map fun d => (d.1, d.2.map (·.renumber ρ))) =
      (addOverload name o fs).map fun d => (d.1, d.2.map (·.renumber ρ)) := by
  induction fs with
  | nil => rfl
  | cons d fs ih =>
    obtain ⟨n, os⟩ := d
    rw [List.map_cons]
    unfold addOverload
    split
    · simp
    · rw [List.map_cons, ih]

theorem declareFunction?_renumber (l : Layer) (name : String) (o : Overload) :
    (l.renumber ρ).declareFunction? name (o.renumber ρ) =
      (l.declareFunction? name o).map (·.renumber ρ) := by
  have hfound : (l.renumber ρ).findFunction? name (o.renumber ρ).types =
      (l.findFunction? name o.types).map ρ.funcs := l.findFunction?_renumber name o.types
  unfold declareFunction?
  rw [hfound]
  cases l.findFunction? name o.types with
  | some f => rfl
  | none => exact congrArg some (congrArg (Layer.mk _) (addOverload_renumber name o l.funcs))

end Layer

/-! ## Scopes -/

namespace Scope

theorem layers_renumber (s : Scope) : (s.renumber ρ).layers = s.layers.map (·.renumber ρ) := rfl

theorem push_renumber (s : Scope) : (s.renumber ρ).push = s.push.renumber ρ := rfl

theorem findVariable?_renumber (s : Scope) (name : String) :
    (s.renumber ρ).findVariable? name = (s.findVariable? name).map ρ.vars := by
  unfold findVariable?
  rw [layers_renumber, List.findSome?_map, List.map_findSome?]
  exact congrArg (List.findSome? · s.layers) (funext fun l => l.findVariable?_renumber name)

theorem findFunction?_renumber (s : Scope) (name : String) (types : List Ty) :
    (s.renumber ρ).findFunction? name types = (s.findFunction? name types).map ρ.funcs := by
  unfold findFunction?
  rw [layers_renumber, List.findSome?_map, List.map_findSome?]
  exact congrArg (List.findSome? · s.layers) (funext fun l => l.findFunction?_renumber name types)

theorem declareVariable?_renumber (s : Scope) (name : String) (x : VarId) :
    (s.renumber ρ).declareVariable? name (ρ.vars x) = (s.declareVariable? name x).map (·.renumber ρ) := by
  unfold declareVariable?
  show ((s.inner.renumber ρ).declareVariable? name (ρ.vars x)).map _ = _
  rw [Layer.declareVariable?_renumber, Option.map_map, Option.map_map]
  rfl

theorem declareFunction?_renumber (s : Scope) (a : FunctionSymbol) (f : FuncId) :
    (s.renumber ρ).declareFunction? (a.renumber ρ) (ρ.funcs f) =
      (s.declareFunction? a f).map (·.renumber ρ) := by
  unfold declareFunction?
  rw [FunctionSymbol.types_renumber]
  show ((s.inner.renumber ρ).declareFunction? a.name (Overload.renumber ρ ⟨a.types, f⟩)).map _ = _
  rw [Layer.declareFunction?_renumber, Option.map_map, Option.map_map]
  rfl

theorem vars_renumber (s : Scope) : (s.renumber ρ).vars = s.vars.map ρ.vars := by
  unfold vars
  show (s.inner.vars.map fun d => (d.1, ρ.vars d.2)).map (·.2) = _
  rw [List.map_map, List.map_map]
  rfl

theorem funcs_renumber (s : Scope) : (s.renumber ρ).funcs = s.funcs.map ρ.funcs := by
  unfold funcs
  show (s.inner.funcs.map fun d => (d.1, d.2.map (·.renumber ρ))).flatMap _ = _
  rw [List.flatMap_map, List.map_flatMap]
  refine congrArg (List.flatMap · s.inner.funcs) (funext fun d => ?_)
  show (d.2.map (·.renumber ρ)).map (·.function) = (d.2.map (·.function)).map ρ.funcs
  rw [List.map_map, List.map_map]
  rfl

/-- Scopes that grow in step correspond in the end. -/
theorem foldl_renumber {α : Type} {add add' : Scope → α → Scope} {f : α → α}
    (hadd : ∀ s a, add' (s.renumber ρ) (f a) = (add s a).renumber ρ) (list : List α) (s : Scope) :
    (list.map f).foldl add' (s.renumber ρ) = (list.foldl add s).renumber ρ := by
  induction list generalizing s with
  | nil => rfl
  | cons a list ih =>
    rw [List.map_cons, List.foldl_cons, List.foldl_cons, hadd]
    exact ih (add s a)

theorem declareParameters_renumber (ps : List ParameterSymbol) (s : Scope) :
    Checker.declareParameters (s.renumber ρ) (ps.map (·.renumber ρ)) =
      (Checker.declareParameters s ps).renumber ρ := by
  refine foldl_renumber (fun s p => ?_) ps s
  show ((s.renumber ρ).declareVariable? p.name (ρ.vars p.target)).getD _ = _
  rw [declareVariable?_renumber, Option.getD_map]

end Scope

/-! ## Tables -/

namespace SymbolTable

variable {t t' : SymbolTable}

theorem lt_size_of_variableAt? {x : VarId} {v : VariableSymbol} (h : t.variableAt? x = some v) :
    x.index < t.vars.size := (Array.getElem?_eq_some_iff.1 h).1

theorem lt_size_of_functionAt? {f : FuncId} {a : FunctionSymbol} (h : t.functionAt? f = some a) :
    f.index < t.funcs.size := (Array.getElem?_eq_some_iff.1 h).1

theorem exists_of_mem_builtins (t : SymbolTable) {f : FuncId} (hf : f ∈ t.builtins) :
    ∃ a, t.functionAt? f = some a := by
  obtain ⟨i, -, hi⟩ := List.mem_filterMap.1 hf
  obtain ⟨a, ha, hb⟩ := Option.bind_eq_some_iff.1 hi
  obtain ⟨b, -, rfl⟩ := Option.map_eq_some_iff.1 hb
  exact ⟨a, ha⟩

namespace Extends

theorem variableAt?_eq (h : t.Extends t') {x : VarId} (hx : x.index < t.vars.size) :
    t'.variableAt? x = t.variableAt? x := by
  have hfound : t.variableAt? x = some t.vars[x.index] := Array.getElem?_eq_getElem hx
  rw [hfound]
  exact h.vars x _ hfound

theorem functionAt?_eq (h : t.Extends t') {f : FuncId} (hf : f.index < t.funcs.size) :
    t'.functionAt? f = t.functionAt? f := by
  have hfound : t.functionAt? f = some t.funcs[f.index] := Array.getElem?_eq_getElem hf
  rw [hfound]
  exact h.funcs f _ hfound

theorem vars_size_le (h : t.Extends t') : t.vars.size ≤ t'.vars.size := by
  by_contra hlt
  have hsame : t'.variableAt? ⟨t'.vars.size⟩ = t.variableAt? ⟨t'.vars.size⟩ := 
    h.variableAt?_eq (Nat.lt_of_not_le hlt)
  have hnone : t'.variableAt? ⟨t'.vars.size⟩ = none := Array.getElem?_eq_none (Nat.le_refl _)
  have hsize := Array.getElem?_eq_none_iff.1 (hsame.symm.trans hnone)
  exact hlt hsize

theorem funcs_size_le (h : t.Extends t') : t.funcs.size ≤ t'.funcs.size := by
  by_contra hlt
  have hsame : t'.functionAt? ⟨t'.funcs.size⟩ = t.functionAt? ⟨t'.funcs.size⟩ :=
    h.functionAt?_eq (Nat.lt_of_not_le hlt)
  have hnone : t'.functionAt? ⟨t'.funcs.size⟩ = none := Array.getElem?_eq_none (Nat.le_refl _)
  have hsize := Array.getElem?_eq_none_iff.1 (hsame.symm.trans hnone)
  exact hlt hsize

/-- No functions of the host are added. -/
theorem builtins_eq (h : t.Extends t') : t'.builtins = t.builtins := by
  unfold SymbolTable.builtins
  rw [← Nat.add_sub_cancel' h.funcs_size_le, List.range_add, List.filterMap_append]
  have hnew : List.filterMap (fun i => (t'.functionAt? ⟨i⟩).bind fun f => f.builtin?.map fun _ => (⟨i⟩ : FuncId))
      ((List.range (t'.funcs.size - t.funcs.size)).map (t.funcs.size + ·)) = [] := by
    refine List.filterMap_eq_nil_iff.2 fun i hi => ?_
    obtain ⟨k, -, rfl⟩ := List.mem_map.1 hi
    refine Option.bind_eq_none_iff.2 fun a ha => ?_
    cases hb : a.builtin? with
    | none => rfl
    | some b =>
      have hlt := lt_size_of_functionAt? (h.builtins _ a ha (by rw [hb]; exact Option.some_ne_none b))
      exact absurd hlt (by simp)
  rw [hnew, List.append_nil]
  refine List.filterMap_congr fun i hi => ?_
  rw [h.functionAt?_eq (List.mem_range.1 hi)]

end Extends

end SymbolTable

/-- The second table holds the symbols of the first under their new handles, and goes on with the new
handles of those that the first goes on with. The functions of the host are the same. -/
structure Renumbering.Tables (ρ : Renumbering) (t t' : SymbolTable) : Prop where
  vars : ∀ x, t'.variableAt? (ρ.vars x) = t.variableAt? x
  funcs : ∀ f, t'.functionAt? (ρ.funcs f) = (t.functionAt? f).map (·.renumber ρ)
  nextVar : ∀ k, ρ.vars ⟨t.vars.size + k⟩ = ⟨t'.vars.size + k⟩
  nextFunc : ∀ k, ρ.funcs ⟨t.funcs.size + k⟩ = ⟨t'.funcs.size + k⟩
  builtins : t'.builtins = t.builtins.map ρ.funcs

namespace Renumbering.Tables

variable {t t' : SymbolTable}

theorem variableName_eq (h : ρ.Tables t t') (x : VarId) :
    t'.variableName (ρ.vars x) = t.variableName x := by
  unfold SymbolTable.variableName
  rw [h.vars]

theorem returnType_eq (h : ρ.Tables t t') (f : FuncId) :
    t'.returnType (ρ.funcs f) = t.returnType f := by
  unfold SymbolTable.returnType
  rw [h.funcs]
  cases t.functionAt? f <;> rfl

/-! ### Growing in step -/

theorem newVar (h : ρ.Tables t t') (v : VariableSymbol) :
    (t'.addVariable v).1 = ρ.vars (t.addVariable v).1 := (h.nextVar 0).symm

theorem newFunc (h : ρ.Tables t t') (a : FunctionSymbol) :
    (t'.addFunction (a.renumber ρ)).1 = ρ.funcs (t.addFunction a).1 := (h.nextFunc 0).symm

theorem isNextVar_iff (h : ρ.Tables t t') (x : VarId) :
    (ρ.vars x).index = t'.vars.size ↔ x.index = t.vars.size := by
  constructor
  · intro hx
    have hnone : t'.variableAt? (ρ.vars x) = none := Array.getElem?_eq_none hx.ge
    obtain ⟨k, hk⟩ := Nat.exists_eq_add_of_le (Array.getElem?_eq_none_iff.1 ((h.vars x).symm.trans hnone))
    have hnext := congrArg VarId.index (h.nextVar k)
    rw [← hk] at hnext
    have hsize : (ρ.vars x).index = t'.vars.size + k := hnext
    omega
  · intro hx
    have hnext := congrArg VarId.index (h.nextVar 0)
    rw [Nat.add_zero, ← hx] at hnext
    exact hnext

theorem isNextFunc_iff (h : ρ.Tables t t') (f : FuncId) :
    (ρ.funcs f).index = t'.funcs.size ↔ f.index = t.funcs.size := by
  constructor
  · intro hf
    have hnone : t'.functionAt? (ρ.funcs f) = none := Array.getElem?_eq_none hf.ge
    have hnone' := Option.map_eq_none_iff.1 ((h.funcs f).symm.trans hnone)
    obtain ⟨k, hk⟩ := Nat.exists_eq_add_of_le (Array.getElem?_eq_none_iff.1 hnone')
    have hnext := congrArg FuncId.index (h.nextFunc k)
    rw [← hk] at hnext
    have hsize : (ρ.funcs f).index = t'.funcs.size + k := hnext
    omega
  · intro hf
    have hnext := congrArg FuncId.index (h.nextFunc 0)
    rw [Nat.add_zero, ← hf] at hnext
    exact hnext

theorem addVariable (h : ρ.Tables t t') (v : VariableSymbol) :
    ρ.Tables (t.addVariable v).2 (t'.addVariable v).2 where
  vars x := by
    show (t'.vars.push v)[(ρ.vars x).index]? = (t.vars.push v)[x.index]?
    rw [Array.getElem?_push, Array.getElem?_push]
    simp only [h.isNextVar_iff]
    split
    · rfl
    · exact h.vars x
  funcs := h.funcs
  nextVar k := by
    have hnext := h.nextVar (1 + k)
    simpa [SymbolTable.addVariable, Nat.add_assoc] using hnext
  nextFunc := h.nextFunc
  builtins := h.builtins

theorem addFunction (h : ρ.Tables t t') {a : FunctionSymbol} (ha : a.builtin? = none) :
    ρ.Tables (t.addFunction a).2 (t'.addFunction (a.renumber ρ)).2 where
  vars := h.vars
  funcs f := by
    show (t'.funcs.push (a.renumber ρ))[(ρ.funcs f).index]? = ((t.funcs.push a)[f.index]?).map _
    rw [Array.getElem?_push, Array.getElem?_push]
    simp only [h.isNextFunc_iff]
    split
    · rfl
    · exact h.funcs f
  nextVar := h.nextVar
  nextFunc k := by
    have hnext := h.nextFunc (1 + k)
    simpa [SymbolTable.addFunction, Nat.add_assoc] using hnext
  builtins := by
    rw [(t.extends_addFunction ha).builtins_eq, (t'.extends_addFunction (s := a.renumber ρ) ha).builtins_eq]
    exact h.builtins

/-! ### Scopes of tables -/

theorem scope_addVariable (h : ρ.Tables t t') (s : Scope) (x : VarId) :
    (s.renumber ρ).addVariable t' (ρ.vars x) = (s.addVariable t x).renumber ρ := by
  unfold Scope.addVariable
  rw [h.variableName_eq, Scope.declareVariable?_renumber, Option.getD_map]

theorem scope_addFunction (h : ρ.Tables t t') (s : Scope) (f : FuncId) :
    (s.renumber ρ).addFunction t' (ρ.funcs f) = (s.addFunction t f).renumber ρ := by
  unfold Scope.addFunction
  rw [h.funcs]
  cases t.functionAt? f with
  | none => rfl
  | some a =>
    show ((s.renumber ρ).declareFunction? (a.renumber ρ) (ρ.funcs f)).getD _ = _
    rw [Scope.declareFunction?_renumber, Option.getD_map]
    rfl

theorem scope_root (h : ρ.Tables t t') : Scope.root t' = (Scope.root t).renumber ρ := by
  unfold Scope.root
  rw [h.builtins]
  exact Scope.foldl_renumber h.scope_addFunction t.builtins Scope.empty

theorem scope_extend (h : ρ.Tables t t') {g g' : Globals} (hfuncs : g'.funcs = g.funcs.map ρ.funcs)
    (hvars : g'.vars = g.vars.map ρ.vars) (s : Scope) :
    g'.extend t' (s.renumber ρ) = (g.extend t s).renumber ρ := by
  unfold Globals.extend
  rw [hfuncs, hvars, Scope.push_renumber, Scope.foldl_renumber h.scope_addFunction,
    Scope.foldl_renumber h.scope_addVariable]

theorem scope_lineage (h : ρ.Tables t t') {l l' : Lineage}
    (hl : List.Forall₂ (fun s s' => s'.globals.funcs = s.globals.funcs.map ρ.funcs ∧
      s'.globals.vars = s.globals.vars.map ρ.vars) l l') :
    l'.scope t' = (l.scope t).renumber ρ := by
  induction hl with
  | nil => exact h.scope_root
  | cons hs _ ih =>
    show Globals.extend t' _ (Lineage.scope t' _) = _
    rw [ih]
    exact h.scope_extend hs.1 hs.2 _

end Renumbering.Tables

/-! ## Two renumberings -/

namespace Renumbering

theorem renumber_identity (a : FunctionSymbol) : a.renumber identity = a := by
  unfold FunctionSymbol.renumber
  rw [show ParameterSymbol.renumber identity = id from rfl, List.map_id]

theorem tables_identity (t : SymbolTable) : identity.Tables t t where
  vars _ := rfl
  funcs f := by
    rw [show FunctionSymbol.renumber identity = id from funext renumber_identity, Option.map_id]
    rfl
  nextVar _ := rfl
  nextFunc _ := rfl
  builtins := (List.map_id _).symm

/-- Makes room for `d` numbers from `n` on: those below it stay. -/
def makeRoom (n d i : Nat) : Nat := if i < n then i else i + d

theorem makeRoom_of_lt {n d i : Nat} (h : i < n) : makeRoom n d i = i := if_pos h

theorem makeRoom_of_le {n d i : Nat} (h : n ≤ i) : makeRoom n d i = i + d := if_neg (Nat.not_lt.2 h)

theorem makeRoom_strictMono (n d : Nat) : StrictMono (makeRoom n d) := by
  intro i j hlt
  unfold makeRoom
  split <;> split <;> omega

/-- The handles of the first table stay, and those behind it go behind the second. -/
def past (t t' : SymbolTable) : Renumbering where
  vars x := ⟨makeRoom t.vars.size (t'.vars.size - t.vars.size) x.index⟩
  funcs f := ⟨makeRoom t.funcs.size (t'.funcs.size - t.funcs.size) f.index⟩

variable {t t' : SymbolTable}

theorem past_vars_of_found {x : VarId} {v : VariableSymbol} (h : t.variableAt? x = some v) :
    (past t t').vars x = x :=
  congrArg VarId.mk (makeRoom_of_lt (SymbolTable.lt_size_of_variableAt? h))

theorem past_funcs_of_found {f : FuncId} {a : FunctionSymbol} (h : t.functionAt? f = some a) :
    (past t t').funcs f = f :=
  congrArg FuncId.mk (makeRoom_of_lt (SymbolTable.lt_size_of_functionAt? h))

theorem renumber_past {a : FunctionSymbol}
    (ha : ∀ p ∈ a.parameters, ∃ v, t.variableAt? p.target = some v ∧ v.name = p.name) :
    a.renumber (past t t') = a := by
  have hparameters : a.parameters.map (·.renumber (past t t')) = a.parameters := by
    refine (List.map_congr_left fun p hp => ?_).trans (List.map_id' _)
    obtain ⟨v, hv, -⟩ := ha p hp
    unfold ParameterSymbol.renumber
    rw [past_vars_of_found hv]
  unfold FunctionSymbol.renumber
  rw [hparameters]

theorem tables_past (hext : t.Extends t') (ht : t.Coherent) : (past t t').Tables t t' where
  vars x := by
    cases hx : t.variableAt? x with
    | some v =>
      rw [past_vars_of_found hx]
      exact hext.vars x v hx
    | none =>
      have hle := hext.vars_size_le
      have hsize := Array.getElem?_eq_none_iff.1 hx
      refine Array.getElem?_eq_none ?_
      show t'.vars.size ≤ makeRoom _ _ _
      rw [makeRoom_of_le hsize]
      omega
  funcs f := by
    cases hf : t.functionAt? f with
    | some a =>
      rw [past_funcs_of_found hf, hext.funcs f a hf]
      exact congrArg some (renumber_past (ht f a hf)).symm
    | none =>
      have hle := hext.funcs_size_le
      have hsize := Array.getElem?_eq_none_iff.1 hf
      refine Array.getElem?_eq_none ?_
      show t'.funcs.size ≤ makeRoom _ _ _
      rw [makeRoom_of_le hsize]
      omega
  nextVar k := by
    have hle := hext.vars_size_le
    refine congrArg VarId.mk ((makeRoom_of_le (Nat.le_add_right _ k)).trans ?_)
    omega
  nextFunc k := by
    have hle := hext.funcs_size_le
    refine congrArg FuncId.mk ((makeRoom_of_le (Nat.le_add_right _ k)).trans ?_)
    omega
  builtins := by
    rw [hext.builtins_eq]
    refine (List.map_id' _).symm.trans (List.map_congr_left fun f hf => ?_)
    obtain ⟨a, ha⟩ := t.exists_of_mem_builtins hf
    exact (past_funcs_of_found ha).symm

end Renumbering

end Scripting
