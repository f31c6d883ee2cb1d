import Mathlib.Data.List.Basic
import Scripting.Proofs.Run.Correspondence
import Scripting.Proofs.Submission.Renumbering

/-!
# Running submissions under other tables

A submission does the same in two sessions that hold the same symbols under different handles. It also does
the same when symbols have been added to its session, and the names in force after it stay the same: what
its lineage refers to was in the table before.
-/

namespace Scripting

variable {σ : Type} {ρ : Renumbering} {t t' T : SymbolTable}

/-! ## Running with other numbers -/

theorem Bodies.Renumbered.lookup {bs bs' : List (FuncId × Typed.Code)} (h : Bodies.Renumbered ρ T bs bs')
    (hρ : Function.Injective ρ.funcs) (f : FuncId) :
    Option.Rel (Typed.Code.Related (ρ.handles T) Eq) (bs.lookup f) (bs'.lookup (ρ.funcs f)) := by
  induction h with
  | nil => exact .none
  | @cons b b' bs bs' hb _ ih =>
    obtain ⟨g, code⟩ := b
    obtain ⟨g', code'⟩ := b'
    obtain ⟨rfl, -, hcode⟩ : g' = ρ.funcs g ∧ _ ∧ Typed.Code.Related (ρ.handles T) Eq code code' := hb
    have hbeq : (ρ.funcs f == ρ.funcs g) = (f == g) := by
      rw [Bool.eq_iff_iff, beq_iff_eq, beq_iff_eq]
      exact hρ.eq_iff
    rw [List.lookup_cons, List.lookup_cons, hbeq]
    cases f == g with
    | true => exact .some hcode
    | false => exact ih

theorem Lineage.Renumbered.body? {l l' : Lineage} (h : l.Renumbered ρ T l')
    (hρ : Function.Injective ρ.funcs) (f : FuncId) :
    Option.Rel (Typed.Code.Related (ρ.handles T) Eq) (l.body? f) (l'.body? (ρ.funcs f)) := by
  unfold Lineage.body?
  induction h with
  | nil => exact .none
  | @cons s s' l l' hs _ ih =>
    rw [List.findSome?_cons, List.findSome?_cons]
    generalize s.bodies.lookup f = code?, s'.bodies.lookup (ρ.funcs f) = code?',
      hs.bodies.lookup hρ f = hcode
    cases hcode with
    | none => exact ih
    | some hcode => exact .some hcode

theorem Lineage.Renumbered.bodies {l l' : Lineage} (h : l.Renumbered ρ T l')
    (hρ : Function.Injective ρ.funcs) (host : Host σ) (t t' : SymbolTable) (f : FuncId) :
    Option.Rel (Body.Related (ρ.handles T)) ((l.setting host t).body? f)
      ((l'.setting host t').body? (ρ.funcs f)) := by
  show Option.Rel _ ((l.body? f).map Body.flat) ((l'.body? (ρ.funcs f)).map Body.flat)
  generalize l.body? f = code?, l'.body? (ρ.funcs f) = code?', h.body? hρ f = hcode
  cases hcode with
  | none => exact .none
  | some hcode => exact .some (.flat hcode)

/-- The new numbers are in the same order, and no two functions share one. -/
structure Renumbering.Faithful (ρ : Renumbering) : Prop where
  increasing : ρ.Increasing
  injective : Function.Injective ρ.funcs

theorem Lineage.Renumbered.setting {l l' : Lineage} (h : l.Renumbered ρ t' l')
    (ht : ρ.Tables t t') (hρ : ρ.Faithful) (host : Host σ) :
    Setting.Related ρ (ρ.handles t') (l.setting host t) (l'.setting host t') where
  increasing := hρ.increasing
  host := rfl
  vars hx := ⟨hx.1, hx.1 ▸ ht.vars _⟩
  funcs hf := hf.1 ▸ ht.funcs _
  bodies hf := hf.1 ▸ h.bodies hρ.injective host t t' _

/-! ## Symbols added later -/

theorem SymbolTable.Extends.addFunction_eq (hext : t.Extends t') {f : FuncId}
    (hf : ∃ a, t.functionAt? f = some a) (s : Scope) : s.addFunction t' f = s.addFunction t f := by
  obtain ⟨a, ha⟩ := hf
  unfold Scope.addFunction
  rw [ha, hext.funcs _ _ ha]

theorem SymbolTable.Extends.addVariable_eq (hext : t.Extends t') {x : VarId}
    (hx : ∃ v, t.variableAt? x = some v) (s : Scope) : s.addVariable t' x = s.addVariable t x := by
  obtain ⟨v, hv⟩ := hx
  unfold Scope.addVariable SymbolTable.variableName
  rw [hv, hext.vars _ _ hv]

namespace Lineage.Resolved

variable {l : Lineage}

theorem setting (h : l.Resolved t) (hext : t.Extends t') (host : Host σ) :
    Setting.Related .identity (Renumbering.identity.handles t) (l.setting host t) (l.setting host t') where
  increasing _ _ hlt := hlt
  host := rfl
  vars := by
    rintro x x' τ ⟨rfl, v, hv, -⟩
    exact ⟨rfl, (hext.vars _ _ hv).trans hv.symm⟩
  funcs := by
    rintro f f' τ ⟨hf, a, ha, -⟩
    obtain rfl : f = f' := hf.symm
    show t'.functionAt? f = (t.functionAt? f).map (·.renumber .identity)
    rw [hext.funcs _ _ ha, ha, Option.map_some, Renumbering.renumber_identity]
  bodies hf := hf.1 ▸ Lineage.Renumbered.bodies (List.forall₂_same.2 h) Function.injective_id host t t' _

/-- A submission runs as before when symbols have been added. -/
theorem evaluate_eq {s : Submission} {earlier : Lineage} (h : Lineage.Resolved t (s :: earlier))
    (hext : t.Extends t') (host : Host σ) (fuel : Nat) (globals : Store) (state : σ) :
    s.evaluate host t' earlier .flat fuel globals state =
      s.evaluate host t earlier .flat fuel globals state := by
  have hs := h s List.mem_cons_self
  unfold Submission.evaluate
  split
  · obtain ⟨hresult, hglobals, hhost⟩ :=
      (h.setting hext host).evaluate hs.main fuel (Store.renumbered_identity.2 rfl) state
    have hglobals := Store.renumbered_identity.1 hglobals
    exact (Outcome.mk.injEq ..).to_iff.2 ⟨hresult, hglobals, hhost⟩
  · rfl

/-- The names in force after a lineage stay when symbols are added. -/
theorem scope_eq (h : l.Resolved t) (hext : t.Extends t') : l.scope t' = l.scope t := by
  induction l with
  | nil =>
    show Scope.root t' = Scope.root t
    unfold Scope.root
    rw [hext.builtins_eq]
    exact List.foldl_ext _ _ _ fun s f hf => hext.addFunction_eq (t.exists_of_mem_builtins hf) s
  | cons s l ih =>
    obtain ⟨hs, hl⟩ := List.forall_mem_cons.1 h
    show s.globals.extend t' (Lineage.scope t' l) = s.globals.extend t (Lineage.scope t l)
    unfold Globals.extend
    rw [ih hl, List.foldl_ext (fun s f => s.addFunction t' f) _ _ fun s f hf =>
      hext.addFunction_eq (hs.globals.foundFuncs f hf) s]
    exact List.foldl_ext _ _ _ fun s x hx => hext.addVariable_eq (hs.globals.foundVars x hx) s

end Lineage.Resolved

end Scripting
