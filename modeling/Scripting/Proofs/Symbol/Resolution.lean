import Scripting.Proofs.Check.Context
import Scripting.Submission.Basic

/-!
# Names that resolve

Every name in a scope stands for a symbol of the table, whether or not anything was reported about the
script that declared it. The same holds of the parameters of the functions in the table.
-/

namespace Scripting

variable {t t' : SymbolTable} {s : Scope}

/-- Every variable in the scope is in the table under its name, which no other variable of its layer has,
and every function is in the table. -/
structure Scope.Resolves (t : SymbolTable) (s : Scope) : Prop where
  names : ∀ l ∈ s.layers, (l.vars.map (·.1)).Nodup
  vars : ∀ l ∈ s.layers, ∀ d ∈ l.vars, ∃ v, t.variableAt? d.2 = some v ∧ v.name = d.1
  funcs : ∀ l ∈ s.layers, ∀ d ∈ l.funcs, ∀ o ∈ d.2, ∃ f, t.functionAt? o.function = some f

/-- The parameters of every function are variables of the table, under their names. -/
def SymbolTable.Coherent (t : SymbolTable) : Prop :=
  ∀ f a, t.functionAt? f = some a → ∀ p ∈ a.parameters,
    ∃ v, t.variableAt? p.target = some v ∧ v.name = p.name

namespace Scope.Resolves

theorem mono (h : s.Resolves t) (hext : t.Extends t') : s.Resolves t' := by
  refine ⟨h.names, ?_, ?_⟩
  · intro l hl d hd
    obtain ⟨v, hv, hname⟩ := h.vars l hl d hd
    exact ⟨v, hext.vars _ _ hv, hname⟩
  · intro l hl d hd o ho
    obtain ⟨f, hf⟩ := h.funcs l hl d hd o ho
    exact ⟨f, hext.funcs _ _ hf⟩

theorem empty : Scope.empty.Resolves t := by
  refine ⟨List.forall_mem_singleton.2 .nil, ?_, ?_⟩ <;>
  · intro l hl
    obtain rfl := List.mem_singleton.1 hl
    exact nofun

theorem push (h : s.Resolves t) : s.push.Resolves t := by
  refine ⟨List.forall_mem_cons.2 ⟨.nil, h.names⟩, ?_, ?_⟩
  · intro l hl
    rcases List.mem_cons.1 hl with rfl | hl
    · exact nofun
    · exact h.vars l hl
  · intro l hl
    rcases List.mem_cons.1 hl with rfl | hl
    · exact nofun
    · exact h.funcs l hl

theorem declareVariable? (h : s.Resolves t) {name : String} {x : VarId} {s' : Scope}
    (hs : s.declareVariable? name x = some s') {v : VariableSymbol} (hv : t.variableAt? x = some v)
    (hname : v.name = name) : s'.Resolves t := by
  obtain ⟨hnew, rfl⟩ := Scope.declareVariable?_eq_some hs
  obtain ⟨hinner, houter⟩ := List.forall_mem_cons.1 h.names
  refine ⟨List.forall_mem_cons.2 ⟨?_, houter⟩, ?_, ?_⟩
  · show ((s.inner.vars ++ [(name, x)]).map (·.1)).Nodup
    rw [List.map_append, List.map_singleton, List.nodup_append]
    refine ⟨hinner, List.nodup_singleton _, fun a ha b hb => ?_⟩
    obtain rfl := List.mem_singleton.1 hb
    rintro rfl
    obtain ⟨d, hd, hname⟩ := List.mem_map.1 ha
    have hne := List.lookup_eq_none_iff.1 hnew d hd
    simp [hname] at hne
  · intro l hl d hd
    rcases List.mem_cons.1 hl with rfl | hl
    · rcases List.mem_append.1 hd with hd | hd
      · exact h.vars s.inner List.mem_cons_self d hd
      · obtain rfl := List.mem_singleton.1 hd
        exact ⟨v, hv, hname⟩
    · exact h.vars l (List.mem_cons_of_mem s.inner hl) d hd
  · intro l hl
    rcases List.mem_cons.1 hl with rfl | hl
    · exact h.funcs s.inner List.mem_cons_self
    · exact h.funcs l (List.mem_cons_of_mem s.inner hl)

theorem declareFunction? (h : s.Resolves t) {a : FunctionSymbol} {f : FuncId} {s' : Scope}
    (hs : s.declareFunction? a f = some s') (hf : t.functionAt? f = some a) : s'.Resolves t := by
  obtain ⟨houter, hvars, hfuncs⟩ := Scope.declareFunction?_eq_some hs
  refine ⟨?_, ?_, ?_⟩
  · intro l hl
    rcases List.mem_cons.1 hl with rfl | hl
    · rw [hvars]
      exact h.names s.inner List.mem_cons_self
    · exact h.names l (List.mem_cons_of_mem s.inner (houter ▸ hl))
  · intro l hl
    rcases List.mem_cons.1 hl with rfl | hl
    · rw [hvars]
      exact h.vars s.inner List.mem_cons_self
    · exact h.vars l (List.mem_cons_of_mem s.inner (houter ▸ hl))
  · intro l hl d hd o ho
    rcases List.mem_cons.1 hl with rfl | hl
    · rw [hfuncs] at hd
      rcases Layer.mem_addOverload hd ho with rfl | ⟨d', hd', ho⟩
      · exact ⟨a, hf⟩
      · exact h.funcs s.inner List.mem_cons_self d' hd' o ho
    · exact h.funcs l (List.mem_cons_of_mem s.inner (houter ▸ hl)) d hd o ho

theorem exists_variable (h : s.Resolves t) {name : String} {x : VarId}
    (hx : s.findVariable? name = some x) : ∃ v, t.variableAt? x = some v := by
  obtain ⟨l, hl, hx⟩ := List.exists_of_findSome?_eq_some hx
  obtain ⟨v, hv, -⟩ := h.vars l hl (name, x) (mem_of_lookup hx)
  exact ⟨v, hv⟩

theorem exists_function (h : s.Resolves t) {name : String} {types : List Ty} {f : FuncId}
    (hf : s.findFunction? name types = some f) : ∃ a, t.functionAt? f = some a := by
  obtain ⟨l, hl, hf⟩ := List.exists_of_findSome?_eq_some hf
  obtain ⟨d, hd, ho⟩ := Layer.exists_overload hf
  exact h.funcs l hl d hd _ ho

theorem exists_of_mem_vars (h : s.Resolves t) {x : VarId} (hx : x ∈ s.vars) :
    ∃ v, t.variableAt? x = some v := by
  obtain ⟨d, hd, rfl⟩ := List.mem_map.1 hx
  obtain ⟨v, hv, -⟩ := h.vars s.inner List.mem_cons_self d hd
  exact ⟨v, hv⟩

theorem exists_of_mem_funcs (h : s.Resolves t) {f : FuncId} (hf : f ∈ s.funcs) :
    ∃ a, t.functionAt? f = some a := by
  obtain ⟨d, hd, hf⟩ := List.mem_flatMap.1 hf
  obtain ⟨o, ho, rfl⟩ := List.mem_map.1 hf
  exact h.funcs s.inner List.mem_cons_self d hd o ho

/-! ## Scopes built from a table -/

theorem addVariable (h : s.Resolves t) {x : VarId} {v : VariableSymbol}
    (hx : t.variableAt? x = some v) : (s.addVariable t x).Resolves t := by
  have hname : t.variableName x = v.name := by
    unfold SymbolTable.variableName
    rw [hx]
    rfl
  unfold Scope.addVariable
  cases hs : s.declareVariable? (t.variableName x) x with
  | none => exact h
  | some s' => exact h.declareVariable? hs hx hname.symm

theorem addFunction (h : s.Resolves t) (f : FuncId) : (s.addFunction t f).Resolves t := by
  unfold Scope.addFunction
  cases hf : t.functionAt? f with
  | none => exact h
  | some a =>
    rw [Option.bind_some]
    cases hs : s.declareFunction? a f with
    | none => exact h
    | some s' => exact h.declareFunction? hs hf

theorem foldl {α : Type} {add : Scope → α → Scope} {list : List α}
    (hadd : ∀ s, s.Resolves t → ∀ a ∈ list, (add s a).Resolves t) (hs : s.Resolves t) :
    (list.foldl add s).Resolves t := by
  induction list generalizing s with
  | nil => exact hs
  | cons a list ih =>
    refine ih (fun s hs b hb => hadd s hs b (List.mem_cons_of_mem a hb)) ?_
    exact hadd s hs a List.mem_cons_self

theorem declareParameters (h : s.Resolves t) {ps : List ParameterSymbol}
    (hps : ∀ p ∈ ps, ∃ v, t.variableAt? p.target = some v ∧ v.name = p.name) :
    (Checker.declareParameters s ps).Resolves t := by
  refine foldl (fun s hs p hp => ?_) h
  obtain ⟨v, hv, hname⟩ := hps p hp
  cases hdeclared : s.declareVariable? p.name p.target with
  | none => exact hs
  | some s' => exact hs.declareVariable? hdeclared hv hname

theorem root : (Scope.root t).Resolves t := foldl (fun _ hs f _ => hs.addFunction f) empty

theorem extend (h : s.Resolves t) {g : Globals} (hvars : ∀ x ∈ g.vars, ∃ v, t.variableAt? x = some v) :
    (g.extend t s).Resolves t := by
  refine foldl (fun s hs x hx => ?_) (foldl (fun s hs f _ => hs.addFunction f) h.push)
  obtain ⟨v, hv⟩ := hvars x hx
  exact hs.addVariable hv

theorem lineage {l : Lineage} (h : ∀ s ∈ l, ∀ x ∈ s.globals.vars, ∃ v, t.variableAt? x = some v) :
    (l.scope t).Resolves t := by
  induction l with
  | nil => exact root
  | cons s l ih =>
    obtain ⟨hs, hl⟩ := List.forall_mem_cons.1 h
    exact (ih hl).extend hs

end Scope.Resolves

/-! ## Growing tables -/

namespace SymbolTable.Coherent

theorem addVariable (h : t.Coherent) (v : VariableSymbol) : (t.addVariable v).2.Coherent := by
  intro f a ha p hp
  obtain ⟨w, hw, hname⟩ := h f a ha p hp
  exact ⟨w, (t.extends_addVariable v).vars _ _ hw, hname⟩

theorem addFunction (h : t.Coherent) {a : FunctionSymbol}
    (ha : ∀ p ∈ a.parameters, ∃ v, t.variableAt? p.target = some v ∧ v.name = p.name) :
    (t.addFunction a).2.Coherent := by
  intro f b hb
  have hpush : (t.funcs.push a)[f.index]? = some b := hb
  rw [Array.getElem?_push] at hpush
  split at hpush
  · cases hpush
    exact ha
  · exact h f b hpush

theorem addParameters (h : t.Coherent) (ps : List (String × Ty)) :
    (t.addParameters ps).2.Coherent ∧ t.Extends (t.addParameters ps).2 ∧
      ∀ p ∈ (t.addParameters ps).1,
        ∃ v, (t.addParameters ps).2.variableAt? p.target = some v ∧ v.name = p.name := by
  induction ps generalizing t with
  | nil => exact ⟨h, .refl t, List.forall_mem_nil _⟩
  | cons p ps ih =>
    obtain ⟨name, type⟩ := p
    let v : VariableSymbol := ⟨name, type, true, .parameter⟩
    obtain ⟨hcoherent, hext, hparameters⟩ := ih (h.addVariable v)
    refine ⟨hcoherent, (t.extends_addVariable v).trans hext, List.forall_mem_cons.2 ⟨?_, hparameters⟩⟩
    exact ⟨v, hext.vars _ _ (t.variableAt?_addVariable v), rfl⟩

theorem addBuiltin (h : t.Coherent) (builtin : Builtin) (name : String) (ps : List (String × Ty))
    (returns : Ty) : (t.addBuiltin builtin name ps returns).Coherent :=
  (h.addParameters ps).1.addFunction (h.addParameters ps).2.2

theorem initial : SymbolTable.initial.Coherent := by
  have hempty : SymbolTable.Coherent ⟨#[], #[]⟩ := by
    intro f a ha
    simp [SymbolTable.functionAt?] at ha
  exact ((hempty.addBuiltin _ _ _ _).addBuiltin _ _ _ _).addBuiltin _ _ _ _

end SymbolTable.Coherent

end Scripting
