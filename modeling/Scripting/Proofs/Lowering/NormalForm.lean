import Scripting.Proofs.Lowering.Labels
import Scripting.Proofs.Typed.Parts

/-!
# Normal forms

Lowered code is in normal form: it has no structure, no compound assignment is left in it, and no branch
is decided by a literal. Code in normal form is exactly the code that lowering does not change
(`all_normal_iff`). This holds of all trees, not only of those that a check gives.
-/

namespace Scripting.Typed

/-! ## Expressions -/

def Expr.isCompound : Expr → Bool
  | compound .. => true
  | _ => false

/-- No compound assignment is left in the expression, at any depth. -/
def Expr.Expanded (e : Expr) : Prop := ∀ p ∈ e.parts, p.isCompound = false

namespace Expr

variable {e : Expr} {es : List Expr}

theorem expanded_list (h : ∀ e ∈ es, e.Expanded) : ∀ p ∈ Expr.partsList es, p.isCompound = false := by
  intro p hp
  rw [Expr.partsList_eq_flatMap] at hp
  obtain ⟨e, he, hp⟩ := List.mem_flatMap.1 hp
  exact h e he p hp

theorem expanded_lower (e : Expr) : e.lower.Expanded := by
  induction e with
  | literal v => exact List.forall_mem_singleton.2 rfl
  | name x t => exact List.forall_mem_singleton.2 rfl
  | assign x e t ih => exact List.forall_mem_cons.2 ⟨rfl, ih⟩
  | compound x o e t ih =>
    -- the expansion puts an assignment, an operator and a name around the lowered value
    have hname : (Expr.name x t).Expanded := List.forall_mem_singleton.2 rfl
    exact List.forall_mem_cons.2 ⟨rfl, List.forall_mem_cons.2 ⟨rfl, List.forall_mem_append.2 ⟨hname, ih⟩⟩⟩
  | unary o e ih => exact List.forall_mem_cons.2 ⟨rfl, ih⟩
  | binary l o r ihl ihr => exact List.forall_mem_cons.2 ⟨rfl, List.forall_mem_append.2 ⟨ihl, ihr⟩⟩
  | convert t e ih => exact List.forall_mem_cons.2 ⟨rfl, ih⟩
  | call f es t ih =>
    rw [lower_call]
    exact List.forall_mem_cons.2 ⟨rfl, expanded_list (List.forall_mem_map.2 ih)⟩
  | error => exact List.forall_mem_singleton.2 rfl

theorem Expanded.lower_eq (h : e.Expanded) : e.lower = e := by
  induction e with
  | literal v => rfl
  | name x t => rfl
  | assign x e t ih => exact congrArg (Expr.assign x · t) (ih (List.forall_mem_cons.1 h).2)
  | compound x o e t ih => cases (List.forall_mem_cons.1 h).1
  | unary o e ih => exact congrArg (Expr.unary o) (ih (List.forall_mem_cons.1 h).2)
  | binary l o r ihl ihr =>
    obtain ⟨hl, hr⟩ := List.forall_mem_append.1 (List.forall_mem_cons.1 h).2
    exact congrArg₂ (Expr.binary · o ·) (ihl hl) (ihr hr)
  | convert t e ih => exact congrArg (Expr.convert t) (ih (List.forall_mem_cons.1 h).2)
  | call f es t ih =>
    have hes := (List.forall_mem_cons.1 h).2
    rw [Expr.partsList_eq_flatMap] at hes
    have hsame : es.map Expr.lower = es.map id :=
      List.map_congr_left fun e he => ih e he fun p hp => hes p (List.mem_flatMap.2 ⟨e, he, hp⟩)
    rw [lower_call, hsame, List.map_id]
  | error => rfl

end Expr

/-! ## Instructions -/

def Instr.isDecided : Instr → Bool
  | branch _ c _ => c.constant?.isSome
  | _ => false

namespace Instr

variable {i : Instr}

theorem expanded_of_mem_exprs_mapExprs (i : Instr) : ∀ e ∈ (i.mapExprs Expr.lower).exprs, e.Expanded := by
  rw [exprs_mapExprs]
  exact List.forall_mem_map.2 fun e _ => Expr.expanded_lower e

/-- What lowering an instruction gives is expanded and not decided yet. -/
theorem normal_of_mem_lower {j : Instr} (h : j ∈ i.lower) :
    (∀ e ∈ j.exprs, e.Expanded) ∧ j.isDecided = false := by
  cases i with
  | branch l c on =>
    rw [Instr.lower, branchOn] at h
    split at h
    next b _ =>
      split at h
      · obtain rfl := List.mem_singleton.1 h
        exact ⟨List.forall_mem_nil _, rfl⟩
      · cases h
    next hnone =>
      obtain rfl := List.mem_singleton.1 h
      exact ⟨List.forall_mem_singleton.2 (Expr.expanded_lower c), congrArg Option.isSome hnone⟩
  | _ =>
    obtain rfl := List.mem_singleton.1 h
    exact ⟨expanded_of_mem_exprs_mapExprs _, rfl⟩

theorem mapExprs_eq_self {f : Expr → Expr} (h : ∀ e ∈ i.exprs, f e = e) : i.mapExprs f = i := by
  cases i with
  | eval e => exact congrArg Instr.eval (h e (.head _))
  | declare x e => exact congrArg (Instr.declare x) (h e (.head _))
  | label l => rfl
  | jump l => rfl
  | branch l c on => exact congrArg (Instr.branch l · on) (h c (.head _))
  | ret e? =>
    cases e? with
    | none => rfl
    | some e => exact congrArg (fun e => Instr.ret (some e)) (h e (.head _))

theorem lower_eq_self (hexprs : ∀ e ∈ i.exprs, e.Expanded) (hdecided : i.isDecided = false) :
    i.lower = [i] := by
  have hmap : i.mapExprs Expr.lower = i := mapExprs_eq_self fun e he => (hexprs e he).lower_eq
  cases i with
  | branch l c on =>
    have hc : c.lower = c := (hexprs c (.head _)).lower_eq
    have hnone : c.constant? = none :=
      Option.isNone_iff_eq_none.1 (Option.isSome_eq_false_iff.1 hdecided)
    rw [Instr.lower, hc, branchOn, hnone]
  | _ => exact congrArg (fun j => [j]) hmap

end Instr

/-! ## Statements -/

def Code.stmts (code : Code) : List Stmt := code.map .instr

/-- The statement has parts that are statements. -/
def Stmt.isStructured : Stmt → Bool
  | instr _ => false
  | _ => true

def Stmt.isDecided : Stmt → Bool
  | instr i => i.isDecided
  | _ => false

/-- Nothing is left to be lowered in the statement. -/
structure Stmt.Normal (s : Stmt) : Prop where
  flat : s.isStructured = false
  expanded : ∀ p ∈ s.parts, p.isCompound = false
  undecided : s.isDecided = false

theorem Stmt.parts_expanded_iff {s : Stmt} :
    (∀ p ∈ s.parts, p.isCompound = false) ↔ ∀ e ∈ s.exprs, e.Expanded :=
  List.forall_mem_flatMap

/-- What holds of all that lowering an instruction gives holds throughout lowered code. -/
theorem Stmt.forall_mem_lowered {Q : Instr → Prop} (hQ : ∀ i : Instr, ∀ j ∈ i.lower, Q j) (s : Stmt)
    (k : Nat) : ∀ j ∈ (s.lowered k).1, Q j := by
  have hbranch : ∀ l c on, ∀ j ∈ branchOn l (Expr.lower c) on, Q j := fun l c on => hQ (.branch l c on)
  have hlabel : ∀ l, Q (.label l) := fun l => hQ (.label l) _ (.head _)
  have hjump : ∀ l, Q (.jump l) := fun l => hQ (.jump l) _ (.head _)
  have heval : ∀ e, Q (.eval (Expr.lower e)) := fun e => hQ (.eval e) _ (.head _)
  induction s generalizing k with
  | instr i => exact hQ i
  | block ss ih =>
    induction ss generalizing k with
    | nil => exact List.forall_mem_nil _
    | cons s ss ihs =>
      obtain ⟨hs, hss⟩ := List.forall_mem_cons.1 ih
      rw [Stmt.lowered_cons]
      exact List.forall_mem_append.2 ⟨hs k, ihs hss _⟩
  | ifThen c s ih =>
    rw [Stmt.lowered_ifThen]
    simp only [List.forall_mem_append, List.forall_mem_singleton]
    exact ⟨⟨hbranch _ _ _, ih _⟩, hlabel _⟩
  | ifElse c s t ihs iht =>
    rw [Stmt.lowered_ifElse]
    simp only [List.forall_mem_append, List.forall_mem_cons, List.not_mem_nil, false_imp_iff,
      implies_true, and_true]
    exact ⟨⟨⟨⟨hbranch _ _ _, ihs _⟩, hjump _, hlabel _⟩, iht _⟩, hlabel _⟩
  | whileLoop c s x y ih =>
    rw [Stmt.lowered_whileLoop]
    simp only [List.forall_mem_append, List.forall_mem_cons, List.not_mem_nil, false_imp_iff,
      implies_true, and_true]
    exact ⟨⟨⟨hlabel _, hbranch _ _ _⟩, ih _⟩, hjump _, hlabel _⟩
  | doWhile s c x y ih =>
    rw [Stmt.lowered_doWhile]
    simp only [List.forall_mem_append, List.forall_mem_singleton]
    exact ⟨⟨⟨⟨hlabel _, ih _⟩, hlabel _⟩, hbranch _ _ _⟩, hlabel _⟩
  | forLoop i c n s x y ihi ihs =>
    rw [Stmt.lowered_forLoop]
    simp only [List.forall_mem_append, List.forall_mem_cons, List.not_mem_nil, false_imp_iff,
      implies_true, and_true]
    exact ⟨⟨⟨⟨ihi _, hlabel _⟩, hbranch _ _ _⟩, ihs _⟩, hlabel _, heval _, hjump _, hlabel _⟩

theorem Stmt.normal_of_mem_lower (s : Stmt) : ∀ t ∈ s.lower.stmts, t.Normal := by
  refine List.forall_mem_map.2 (Stmt.forall_mem_lowered (fun i j hj => ?_) s 0)
  obtain ⟨hexprs, hdecided⟩ := Instr.normal_of_mem_lower hj
  exact ⟨rfl, parts_expanded_iff.2 hexprs, hdecided⟩

def Code.lower (code : Code) : Code := code.flatMap Instr.lower

theorem Code.lower_cons (i : Instr) (rest : Code) : Code.lower (i :: rest) = i.lower ++ Code.lower rest :=
  List.flatMap_cons

theorem Code.lower_append (a b : Code) : Code.lower (a ++ b) = Code.lower a ++ Code.lower b :=
  List.flatMap_append

/-- Statements that are code already are lowered one by one, and take no new labels. -/
theorem Code.lowered_stmts (code : Code) (k : Nat) :
    (Stmt.block code.stmts).lowered k = (code.lower, k) := by
  induction code with
  | nil => rfl
  | cons i rest ih =>
    show (Stmt.block (.instr i :: stmts rest)).lowered k = _
    rw [Stmt.lowered_cons, Stmt.lowered_instr, ih, Code.lower_cons]

theorem Code.lower_stmts (code : Code) : (Stmt.block code.stmts).lower = code.lower :=
  congrArg Prod.fst (lowered_stmts code 0)

theorem Stmt.Normal.exists_instr {s : Stmt} (h : s.Normal) : ∃ i : Instr, s = .instr i ∧ i.lower = [i] := by
  cases s with
  | instr i =>
    exact ⟨i, rfl, Instr.lower_eq_self (parts_expanded_iff.1 h.expanded) h.undecided⟩
  | _ => cases h.flat

/-- Statements are in normal form exactly if lowering does not change them. -/
theorem Stmt.all_normal_iff (ss : List Stmt) :
    (∀ s ∈ ss, s.Normal) ↔ (Stmt.block ss).lower.stmts = ss := by
  constructor
  · intro h
    have hcode : ∃ code : Code, ss = code.stmts ∧ code.lower = code := by
      induction ss with
      | nil => exact ⟨[], rfl, rfl⟩
      | cons s ss ih =>
        obtain ⟨hs, hss⟩ := List.forall_mem_cons.1 h
        obtain ⟨i, rfl, hi⟩ := hs.exists_instr
        obtain ⟨code, rfl, hcode⟩ := ih hss
        refine ⟨i :: code, rfl, ?_⟩
        rw [Code.lower_cons, hi, hcode]
        rfl
    obtain ⟨code, rfl, hcode⟩ := hcode
    rw [Code.lower_stmts, hcode]
  · intro h
    rw [← h]
    exact Stmt.normal_of_mem_lower _

theorem Code.stmts_injective : Function.Injective stmts :=
  List.map_injective_iff.2 fun _ _ h => Stmt.instr.inj h

/-- **Lowering reaches a normal form and stays there**: of every statement, the code has no structured
statement, no compound assignment at any depth of an expression and no branch on a literal, and lowering it
again gives the same code. -/
theorem Stmt.lowering_reaches_normal_form (s : Stmt) :
    (∀ t ∈ s.lower.stmts, t.Normal) ∧ (Stmt.block s.lower.stmts).lower = s.lower := by
  have hnormal := s.normal_of_mem_lower
  exact ⟨hnormal, Code.stmts_injective ((Stmt.all_normal_iff _).1 hnormal)⟩

end Scripting.Typed
