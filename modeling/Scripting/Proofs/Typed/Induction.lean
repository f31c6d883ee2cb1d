import Scripting.Typed.Tree

/-!
# Induction over typed trees

Expressions hold lists of expressions and statements hold lists of statements. These principles give
the induction hypothesis for every member of such a list.
-/

namespace Scripting.Typed

@[elab_as_elim, induction_eliminator]
theorem Expr.induction {motive : Expr → Prop}
    (literal : ∀ v, motive (.literal v))
    (name : ∀ x t, motive (.name x t))
    (assign : ∀ x e t, motive e → motive (.assign x e t))
    (compound : ∀ x o e t, motive e → motive (.compound x o e t))
    (unary : ∀ o e, motive e → motive (.unary o e))
    (binary : ∀ l o r, motive l → motive r → motive (.binary l o r))
    (convert : ∀ t e, motive e → motive (.convert t e))
    (call : ∀ f es t, (∀ e ∈ es, motive e) → motive (.call f es t))
    (error : motive .error) (e : Expr) : motive e :=
  @Expr.rec motive (fun es => ∀ e ∈ es, motive e) literal name assign compound unary binary convert
    call error (fun _ h => nomatch h) (fun _ _ first rest => List.forall_mem_cons.2 ⟨first, rest⟩) e

@[elab_as_elim, induction_eliminator]
theorem Stmt.induction {motive : Stmt → Prop}
    (instr : ∀ i, motive (.instr i))
    (block : ∀ ss, (∀ s ∈ ss, motive s) → motive (.block ss))
    (ifThen : ∀ c s, motive s → motive (.ifThen c s))
    (ifElse : ∀ c s t, motive s → motive t → motive (.ifElse c s t))
    (whileLoop : ∀ c s x y, motive s → motive (.whileLoop c s x y))
    (doWhile : ∀ s c x y, motive s → motive (.doWhile s c x y))
    (forLoop : ∀ i c n s x y, motive i → motive s → motive (.forLoop i c n s x y))
    (s : Stmt) : motive s :=
  @Stmt.rec motive (fun ss => ∀ s ∈ ss, motive s) instr block ifThen ifElse whileLoop doWhile forLoop
    (fun _ h => nomatch h) (fun _ _ first rest => List.forall_mem_cons.2 ⟨first, rest⟩) s

theorem Expr.mapNodesList_eq_map (f : Expr → Expr) (es : List Expr) :
    Expr.mapNodesList f es = es.map (Expr.mapNodes f) := by
  induction es with
  | nil => rfl
  | cons e es ih => rw [Expr.mapNodesList, ih, List.map_cons]

end Scripting.Typed
