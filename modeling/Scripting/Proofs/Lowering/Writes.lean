import Scripting.Proofs.Lowering.Labels
import Scripting.Proofs.Typed.Parts

/-!
# Writes

A variable gets a value where it is declared and where it is assigned. The writes of a tree are listed in
the order in which they stand in the code that it is lowered to. Lowering keeps this list
(`Stmt.writes_lowerBody`): no write is lost with a branch that is decided on the spot, and none is copied.
-/

namespace Scripting.Typed

/-- A place in a tree where a variable gets a value. -/
inductive Write
  | declaration (x : VarId)
  | assignment (x : VarId)
deriving DecidableEq

def Write.target : Write → VarId
  | declaration x | assignment x => x

def Write.declared? : Write → Option VarId
  | declaration x => some x
  | assignment _ => none

mutual

/-- The writes of an expression, at any depth. -/
def Expr.writes : Expr → List Write
  | .literal _ | .name .. | .error => []
  | .assign x e _ | .compound x _ e _ => e.writes ++ [.assignment x]
  | .unary _ e | .convert _ e => e.writes
  | .binary l _ r => l.writes ++ r.writes
  | .call _ es _ => Expr.writesList es

def Expr.writesList : List Expr → List Write
  | [] => []
  | e :: es => e.writes ++ Expr.writesList es

end

def Instr.writes : Instr → List Write
  | declare x e => e.writes ++ [.declaration x]
  | eval e | branch _ e _ | ret (some e) => e.writes
  | label _ | jump _ | ret none => []

def Code.writes (code : Code) : List Write := code.flatMap Instr.writes

mutual

/-- The writes of a statement. The increment of a loop stands behind its body. -/
def Stmt.writes : Stmt → List Write
  | .instr i => i.writes
  | .block ss => Stmt.writesList ss
  | .ifThen c s | .whileLoop c s _ _ => c.writes ++ s.writes
  | .ifElse c s t => c.writes ++ s.writes ++ t.writes
  | .doWhile s c _ _ => s.writes ++ c.writes
  | .forLoop i c n s _ _ => i.writes ++ c.writes ++ s.writes ++ n.writes

def Stmt.writesList : List Stmt → List Write
  | [] => []
  | s :: ss => s.writes ++ Stmt.writesList ss

end

/-! ## Expressions -/

namespace Expr

theorem writesList_eq_flatMap (es : List Expr) : Expr.writesList es = es.flatMap Expr.writes := by
  induction es with
  | nil => rfl
  | cons e es ih => rw [Expr.writesList, ih, List.flatMap_cons]

theorem writes_lower (e : Expr) : e.lower.writes = e.writes := by
  induction e with
  | literal v => rfl
  | name x t => rfl
  | assign x e t ih => exact congrArg (· ++ [Write.assignment x]) ih
  | compound x o e t ih => exact congrArg (· ++ [Write.assignment x]) ih
  | unary o e ih => exact ih
  | binary l o r ihl ihr => exact congrArg₂ (· ++ ·) ihl ihr
  | convert t e ih => exact ih
  | call f es t ih =>
    rw [lower_call]
    show Expr.writesList (es.map Expr.lower) = Expr.writesList es
    rw [writesList_eq_flatMap, writesList_eq_flatMap, List.flatMap_map]
    exact List.flatMap_congr ih
  | error => rfl

theorem writes_of_constant? {e : Expr} {b : Bool} (h : e.constant? = some b) : e.writes = [] := by
  cases e with
  | literal v => rfl
  | _ => cases h

/-- Expressions declare nothing. -/
theorem exists_assignment {e : Expr} : ∀ u ∈ e.writes, ∃ x, u = .assignment x := by
  have hassigned : ∀ x (ws : List Write), (∀ u ∈ ws, ∃ x, u = .assignment x) →
      ∀ u ∈ ws ++ [.assignment x], ∃ x, u = .assignment x := fun x ws h =>
    List.forall_mem_append.2 ⟨h, List.forall_mem_singleton.2 ⟨x, rfl⟩⟩
  induction e with
  | literal v => exact List.forall_mem_nil _
  | name x t => exact List.forall_mem_nil _
  | assign x e t ih => exact hassigned x _ ih
  | compound x o e t ih => exact hassigned x _ ih
  | unary o e ih => exact ih
  | binary l o r ihl ihr => exact List.forall_mem_append.2 ⟨ihl, ihr⟩
  | convert t e ih => exact ih
  | call f es t ih =>
    rw [Expr.writes, writesList_eq_flatMap]
    exact List.forall_mem_flatMap.2 ih
  | error => exact List.forall_mem_nil _

@[simp] theorem declared_writes (e : Expr) : e.writes.filterMap Write.declared? = [] := by
  refine List.filterMap_eq_nil_iff.2 fun u hu => ?_
  obtain ⟨x, rfl⟩ := exists_assignment u hu
  rfl

/-- What a part of an expression writes, the expression writes. -/
theorem writes_subset_of_mem_parts {e : Expr} : ∀ p ∈ e.parts, p.writes ⊆ e.writes := by
  induction e with
  | literal v => exact List.forall_mem_singleton.2 (List.Subset.refl _)
  | name x t => exact List.forall_mem_singleton.2 (List.Subset.refl _)
  | assign x e t ih =>
    exact List.forall_mem_cons.2 ⟨List.Subset.refl _, fun p hp =>
      List.Subset.trans (ih p hp) (List.subset_append_left _ _)⟩
  | compound x o e t ih =>
    exact List.forall_mem_cons.2 ⟨List.Subset.refl _, fun p hp =>
      List.Subset.trans (ih p hp) (List.subset_append_left _ _)⟩
  | unary o e ih => exact List.forall_mem_cons.2 ⟨List.Subset.refl _, ih⟩
  | binary l o r ihl ihr =>
    refine List.forall_mem_cons.2 ⟨List.Subset.refl _, List.forall_mem_append.2 ⟨fun p hp => ?_, ?_⟩⟩
    · exact List.Subset.trans (ihl p hp) (List.subset_append_left _ _)
    · exact fun p hp => List.Subset.trans (ihr p hp) (List.subset_append_right _ _)
  | convert t e ih => exact List.forall_mem_cons.2 ⟨List.Subset.refl _, ih⟩
  | call f es t ih =>
    refine List.forall_mem_cons.2 ⟨List.Subset.refl _, fun p hp => ?_⟩
    rw [Expr.partsList_eq_flatMap] at hp
    obtain ⟨e, he, hp⟩ := List.mem_flatMap.1 hp
    rw [Expr.writes, writesList_eq_flatMap]
    exact fun u hu => List.mem_flatMap.2 ⟨e, he, ih e he p hp hu⟩
  | error => exact List.forall_mem_singleton.2 (List.Subset.refl _)

end Expr

/-! ## Instructions -/

theorem Instr.writes_of_mem_exprs {i : Instr} : ∀ e ∈ i.exprs, e.writes ⊆ i.writes := by
  cases i with
  | declare x e => exact List.forall_mem_singleton.2 (List.subset_append_left _ _)
  | ret e? =>
    cases e? with
    | none => exact List.forall_mem_nil _
    | some e => exact List.forall_mem_singleton.2 (List.Subset.refl _)
  | eval e | branch l e on => exact List.forall_mem_singleton.2 (List.Subset.refl _)
  | label l | jump l => exact List.forall_mem_nil _

/-- Only declarations declare. -/
theorem Instr.eq_declare_of_mem {i : Instr} {x : VarId} (h : .declaration x ∈ i.writes) :
    ∃ e, i = .declare x e := by
  have hexpr : ∀ e : Expr, .declaration x ∉ e.writes := fun e he => by
    obtain ⟨y, hy⟩ := Expr.exists_assignment _ he
    cases hy
  cases i with
  | declare y e =>
    rcases List.mem_append.1 h with h | h
    · exact absurd h (hexpr e)
    · cases List.mem_singleton.1 h
      exact ⟨e, rfl⟩
  | ret e? =>
    cases e? with
    | none => cases h
    | some e => exact absurd h (hexpr e)
  | eval e | branch l e on => exact absurd h (hexpr e)
  | label l | jump l => cases h

namespace Code

@[simp] theorem writes_append (code code' : Code) :
    Code.writes (code ++ code') = code.writes ++ code'.writes :=
  List.flatMap_append

theorem writes_singleton (i : Instr) : Code.writes [i] = i.writes := List.flatMap_singleton _ _

end Code

/-- A branch that is decided on the spot is on a literal, which writes nothing. -/
theorem writes_branchOn (l : Label) (c : Expr) (on : Bool) : (branchOn l c on).writes = c.writes := by
  unfold branchOn
  split
  next b hb =>
    rw [Expr.writes_of_constant? hb]
    split <;> rfl
  next => exact Code.writes_singleton _

theorem Instr.writes_lower (i : Instr) : i.lower.writes = i.writes := by
  cases i with
  | branch l c on => exact (writes_branchOn l _ on).trans (Expr.writes_lower c)
  | declare x e =>
    exact (Code.writes_singleton _).trans (congrArg (· ++ [Write.declaration x]) (Expr.writes_lower e))
  | eval e => exact (Code.writes_singleton _).trans (Expr.writes_lower e)
  | ret e? =>
    cases e? with
    | none => rfl
    | some e => exact (Code.writes_singleton _).trans (Expr.writes_lower e)
  | label l => rfl
  | jump l => rfl

/-! ## Statements -/

namespace Stmt

theorem writesList_eq_flatMap (ss : List Stmt) : Stmt.writesList ss = ss.flatMap Stmt.writes := by
  induction ss with
  | nil => rfl
  | cons s ss ih => rw [Stmt.writesList, ih, List.flatMap_cons]

theorem writes_lowered (s : Stmt) (k : Nat) : (s.lowered k).1.writes = s.writes := by
  have hlabel : ∀ l, Code.writes [.label l] = [] := fun _ => rfl
  have hjump : ∀ l l', Code.writes [.jump l, .label l'] = [] := fun _ _ => rfl
  induction s generalizing k with
  | instr i => exact i.writes_lower
  | block ss ih =>
    induction ss generalizing k with
    | nil => rfl
    | cons s ss ihs =>
      obtain ⟨hs, hss⟩ := List.forall_mem_cons.1 ih
      rw [lowered_cons, Code.writes_append, hs, ihs hss]
      rfl
  | ifThen c s ih =>
    rw [lowered_ifThen, Code.writes_append, Code.writes_append, writes_branchOn, Expr.writes_lower, ih,
      hlabel, List.append_nil]
    rfl
  | ifElse c s t ihs iht =>
    simp only [lowered_ifElse, Code.writes_append, writes_branchOn, Expr.writes_lower, ihs, iht, hlabel,
      hjump, List.append_nil]
    rfl
  | whileLoop c s x y ih =>
    simp only [lowered_whileLoop, Code.writes_append, writes_branchOn, Expr.writes_lower, ih, hlabel, hjump,
      List.append_nil, List.nil_append]
    rfl
  | doWhile s c x y ih =>
    simp only [lowered_doWhile, Code.writes_append, writes_branchOn, Expr.writes_lower, ih, hlabel,
      List.append_nil, List.nil_append]
    rfl
  | forLoop i c n s x y ihi ihs =>
    have hlast : ∀ l l' l'', Code.writes [.label l, .eval n.lower, .jump l', .label l''] = n.writes :=
      fun _ _ _ => (List.append_nil _).trans (Expr.writes_lower n)
    simp only [lowered_forLoop, Code.writes_append, writes_branchOn, Expr.writes_lower, ihi, ihs, hlabel,
      hlast, List.append_nil]
    rfl

theorem writes_lower (s : Stmt) : s.lower.writes = s.writes := s.writes_lowered 0

/-- Lowering keeps the writes of a body. -/
theorem writes_lowerBody (s : Stmt) (returns : Ty) : (s.lowerBody returns).writes = s.writes := by
  unfold lowerBody
  split
  · rw [Code.writes_append, writes_lower]
    exact List.append_nil _
  · exact s.writes_lower

end Stmt

end Scripting.Typed
