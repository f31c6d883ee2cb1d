import Mathlib.Data.List.Nodup
import Scripting.Proofs.Typed.Shape

/-!
# The labels of lowered code

No two labels of the code of a checked statement are the same: those of its loops are numbered by
the check and the others while lowering, under another name (`Numbered.labels_lowered`). Jumps go to
labels of the code or to loops around the statement (`Scoped.targets_lowered`), so that the code of a
whole body is closed (`Scoped.closed_lower`).
-/

namespace Scripting.Typed

/-! ## The code of each form -/

namespace Stmt

theorem lowered_instr (i : Instr) (k : Nat) : (Stmt.instr i).lowered k = (i.lower, k) := rfl

theorem lowered_cons (s : Stmt) (ss : List Stmt) (k : Nat) :
    (Stmt.block (s :: ss)).lowered k =
      ((s.lowered k).1 ++ ((Stmt.block ss).lowered (s.lowered k).2).1,
        ((Stmt.block ss).lowered (s.lowered k).2).2) := rfl

theorem lowered_append (a b : List Stmt) (k : Nat) :
    (Stmt.block (a ++ b)).lowered k =
      (((Stmt.block a).lowered k).1 ++ ((Stmt.block b).lowered ((Stmt.block a).lowered k).2).1,
        ((Stmt.block b).lowered ((Stmt.block a).lowered k).2).2) := by
  induction a generalizing k with
  | nil => rfl
  | cons s a ih => rw [List.cons_append, lowered_cons, lowered_cons, ih, List.append_assoc]

theorem lowered_ifThen (c : Expr) (s : Stmt) (k : Nat) :
    (Stmt.ifThen c s).lowered k =
      (branchOn (.numbered "Label" (k + 1)) c.lower false ++ (s.lowered (k + 1)).1 ++
        [.label (.numbered "Label" (k + 1))], (s.lowered (k + 1)).2) := rfl

theorem lowered_ifElse (c : Expr) (s t : Stmt) (k : Nat) :
    (Stmt.ifElse c s t).lowered k =
      (branchOn (.numbered "Label" (k + 1)) c.lower false ++ (s.lowered (k + 2)).1 ++
        [.jump (.numbered "Label" (k + 2)), .label (.numbered "Label" (k + 1))] ++
        (t.lowered (s.lowered (k + 2)).2).1 ++ [.label (.numbered "Label" (k + 2))],
        (t.lowered (s.lowered (k + 2)).2).2) := rfl

theorem lowered_whileLoop (c : Expr) (s : Stmt) (x y : Label) (k : Nat) :
    (Stmt.whileLoop c s x y).lowered k =
      ([.label y] ++ branchOn x c.lower false ++ (s.lowered k).1 ++ [.jump y, .label x],
        (s.lowered k).2) := rfl

theorem lowered_doWhile (s : Stmt) (c : Expr) (x y : Label) (k : Nat) :
    (Stmt.doWhile s c x y).lowered k =
      ([.label (.numbered "Label" (k + 1))] ++ (s.lowered (k + 1)).1 ++ [.label y] ++
        branchOn (.numbered "Label" (k + 1)) c.lower true ++ [.label x],
        (s.lowered (k + 1)).2) := rfl

theorem lowered_forLoop (i : Stmt) (c n : Expr) (s : Stmt) (x y : Label) (k : Nat) :
    (Stmt.forLoop i c n s x y).lowered k =
      ((i.lowered (k + 1)).1 ++ [.label (.numbered "Label" (k + 1))] ++ branchOn x c.lower false ++
        (s.lowered (i.lowered (k + 1)).2).1 ++
        [.label y, .eval n.lower, .jump (.numbered "Label" (k + 1)), .label x],
        (s.lowered (i.lowered (k + 1)).2).2) := rfl

end Stmt

/-! ## Declared labels -/

def Code.labels (code : Code) : List Label := code.filterMap Instr.label?

namespace Code

theorem mem_labels {code : Code} {l : Label} : l ∈ code.labels ↔ Instr.label l ∈ code := by
  unfold labels
  simp [List.mem_filterMap, Instr.label?_eq_some]

@[simp] theorem labels_nil : labels [] = [] := rfl

@[simp] theorem labels_append (a b : Code) : labels (a ++ b) = labels a ++ labels b :=
  List.filterMap_append

@[simp] theorem labels_cons (i : Instr) (rest : Code) :
    labels (i :: rest) = i.label?.toList ++ labels rest := by
  unfold labels
  rw [List.filterMap_cons]
  cases i.label? <;> rfl

@[simp] theorem labels_branchOn (l : Label) (c : Expr) (on : Bool) : labels (branchOn l c on) = [] := by
  unfold branchOn
  split
  · split <;> rfl
  · rfl

theorem labels_lower {i : Instr} (h : i.label? = none) : labels i.lower = [] := by
  cases i with
  | branch l c on => exact labels_branchOn l c.lower on
  | label l => cases h
  | _ => rfl

end Code

/-- The label is that of a loop with a number from `lo + 1` to `hi`, or one made while lowering, with
a number from `k + 1` to `k'`. -/
def Label.Between (lo hi k k' : Nat) (l : Label) : Prop :=
  ∃ word ∈ words, ∃ n, l = .numbered word n ∧
    if word = "Label" then k < n ∧ n ≤ k' else lo < n ∧ n ≤ hi

theorem Label.between_numbered {word : String} (hw : word ∈ words) {lo hi k k' n : Nat} :
    (Label.numbered word n).Between lo hi k k' ↔
      if word = "Label" then k < n ∧ n ≤ k' else lo < n ∧ n ≤ hi := by
  constructor
  · rintro ⟨word', hw', n', heq, h⟩
    obtain ⟨rfl, rfl⟩ := Label.numbered_inj hw hw' heq
    exact h
  · intro h
    exact ⟨word, hw, n, rfl, h⟩

/-- Labels without repetition, all of them between the given numbers. -/
structure Label.Fresh (lo hi k k' : Nat) (ls : List Label) : Prop where
  le : lo ≤ hi
  le' : k ≤ k'
  nodup : ls.Nodup
  between : ∀ l ∈ ls, l.Between lo hi k k'

namespace Label.Fresh

variable {lo mid hi k k₁ k' : Nat} {ls ls' : List Label}

theorem nil (lo k : Nat) : Fresh lo lo k k [] := ⟨le_rfl, le_rfl, .nil, nofun⟩

theorem perm (h : Fresh lo hi k k' ls) (hp : ls'.Perm ls) : Fresh lo hi k k' ls' :=
  ⟨h.le, h.le', hp.nodup_iff.2 h.nodup, fun l hl => h.between l (hp.subset hl)⟩

theorem append (h : Fresh lo mid k k₁ ls) (h' : Fresh mid hi k₁ k' ls') :
    Fresh lo hi k k' (ls ++ ls') := by
  have hle := h.le
  have hle' := h.le'
  have hle₁ := h'.le
  have hle₁' := h'.le'
  refine ⟨by omega, by omega, List.nodup_append.2 ⟨h.nodup, h'.nodup, ?_⟩, ?_⟩
  · rintro l hl _ hl' rfl
    obtain ⟨word, hw, n, rfl, hn⟩ := h.between l hl
    have hn' := (Label.between_numbered hw).1 (h'.between _ hl')
    split at hn <;> simp_all <;> omega
  · intro l hl
    rcases List.mem_append.1 hl with hl | hl
    · obtain ⟨word, hw, n, rfl, hn⟩ := h.between l hl
      refine ⟨word, hw, n, rfl, ?_⟩
      split at hn <;> simp_all <;> omega
    · obtain ⟨word, hw, n, rfl, hn⟩ := h'.between l hl
      refine ⟨word, hw, n, rfl, ?_⟩
      split at hn <;> simp_all <;> omega

/-- The next number of the lowering. -/
theorem label (lo k : Nat) : Fresh lo lo k (k + 1) [.numbered "Label" (k + 1)] := by
  refine ⟨le_rfl, by omega, List.nodup_singleton _, ?_⟩
  intro l hl
  rw [List.mem_singleton.1 hl]
  exact ⟨"Label", by decide, k + 1, rfl, by simp⟩

/-- The labels of the next loop. -/
theorem loop (lo k : Nat) :
    Fresh lo (lo + 1) k k [.numbered "break" (lo + 1), .numbered "continue" (lo + 1)] := by
  refine ⟨by omega, le_rfl, ?_, ?_⟩
  · rw [List.nodup_cons, List.mem_singleton]
    refine ⟨fun h => ?_, List.nodup_singleton _⟩
    exact absurd (Label.numbered_inj (by decide) (by decide) h).1 (by decide)
  · intro l hl
    rcases List.mem_pair.1 hl with rfl | rfl
    · exact ⟨"break", by decide, lo + 1, rfl, by simp⟩
    · exact ⟨"continue", by decide, lo + 1, rfl, by simp⟩

end Label.Fresh

/-- **Labels are unique.** The code of numbered statements declares no label twice. -/
theorem Stmt.Numbered.labels_lowered {lo hi : Nat} {s : Stmt} (h : s.Numbered lo hi) (k : Nat) :
    Label.Fresh lo hi k (s.lowered k).2 (s.lowered k).1.labels := by
  induction h generalizing k with
  | instr n label =>
    rw [Stmt.lowered_instr, Code.labels_lower label]
    exact .nil n k
  | nil n => exact .nil n k
  | cons _ _ ihs ihss =>
    rw [Stmt.lowered_cons, Code.labels_append]
    exact (ihs k).append (ihss _)
  | ifThen c _ ih =>
    rw [Stmt.lowered_ifThen]
    refine ((Label.Fresh.label _ k).append (ih (k + 1))).perm ?_
    simp [Instr.label?]
  | @ifElse c lo mid hi s t _ _ ihs iht =>
    have hdone : Label.Fresh lo lo (k + 1) (k + 2) [.numbered "Label" (k + 2)] := .label lo (k + 1)
    rw [Stmt.lowered_ifElse]
    refine ((Label.Fresh.label lo k).append (hdone.append
      ((ihs (k + 2)).append (iht _)))).perm (List.perm_iff_count.2 fun l => ?_)
    simp [Instr.label?, List.count_cons]
    omega
  | whileLoop c _ ih =>
    rw [Stmt.lowered_whileLoop]
    refine ((Label.Fresh.loop _ k).append (ih k)).perm (List.perm_iff_count.2 fun l => ?_)
    simp [Instr.label?, List.count_cons]
    omega
  | doWhile c _ ih =>
    rw [Stmt.lowered_doWhile]
    refine ((Label.Fresh.label _ k).append ((Label.Fresh.loop _ (k + 1)).append
      (ih (k + 1)))).perm (List.perm_iff_count.2 fun l => ?_)
    simp [Instr.label?, List.count_cons]
    omega
  | forLoop c n _ _ ihi ihs =>
    rw [Stmt.lowered_forLoop]
    refine ((Label.Fresh.label _ k).append ((ihi (k + 1)).append
      ((Label.Fresh.loop _ _).append (ihs _)))).perm (List.perm_iff_count.2 fun l => ?_)
    simp [Instr.label?, List.count_cons]
    omega

/-! ## Jump targets -/

def Code.targets (code : Code) : List Label := code.filterMap Instr.target?

namespace Code

theorem closed_iff {code : Code} : code.Closed ↔ ∀ l ∈ code.targets, l ∈ code.labels := by
  constructor
  · intro h l hl
    obtain ⟨i, hi, ht⟩ := List.mem_filterMap.1 hl
    exact mem_labels.2 (h i hi l ht)
  · intro h i hi l ht
    exact mem_labels.1 (h l (List.mem_filterMap.2 ⟨i, hi, ht⟩))

@[simp] theorem targets_nil : targets [] = [] := rfl

@[simp] theorem targets_append (a b : Code) : targets (a ++ b) = targets a ++ targets b :=
  List.filterMap_append

@[simp] theorem targets_cons (i : Instr) (rest : Code) :
    targets (i :: rest) = i.target?.toList ++ targets rest := by
  unfold targets
  rw [List.filterMap_cons]
  cases i.target? <;> rfl

theorem eq_of_mem_targets_branchOn {l l' : Label} {c : Expr} {on : Bool}
    (h : l' ∈ targets (branchOn l c on)) : l' = l := by
  unfold branchOn at h
  split at h
  · split at h
    · simpa [Instr.target?] using h
    · cases h
  · simpa [Instr.target?] using h

theorem mem_targets_lower {i : Instr} {l : Label} (h : l ∈ targets i.lower) : i.target? = some l := by
  cases i with
  | branch l' c on => rw [eq_of_mem_targets_branchOn h, Instr.target?]
  | jump l' => simpa [Instr.lower, Instr.mapExprs, Instr.target?, eq_comm] using h
  | _ => cases h

end Code

theorem Stmt.Scoped.targets_lowered {P : Instr → Prop} {ts : List Label} {s : Stmt}
    (h : s.Scoped P ts) (k : Nat) :
    ∀ l ∈ (s.lowered k).1.targets, l ∈ ts ∨ l ∈ (s.lowered k).1.labels := by
  induction h generalizing k with
  | instr _ _ target =>
    intro l hl
    exact .inl (target l (Code.mem_targets_lower hl))
  | @block ts ss hs ih =>
    clear hs
    induction ss generalizing k with
    | nil => exact nofun
    | cons s ss ihs =>
      intro l hl
      obtain ⟨hs, hss⟩ := List.forall_mem_cons.1 ih
      have hfirst := hs k l
      have hrest := ihs hss (s.lowered k).2 l
      rw [Stmt.lowered_cons] at hl ⊢
      simp only [Code.targets_append, Code.labels_append, List.mem_append] at hl ⊢
      tauto
  | ifThen _ _ ih =>
    intro l hl
    have hbody := ih (k + 1) l
    rw [Stmt.lowered_ifThen] at hl ⊢
    simp [Instr.target?, Instr.label?] at hl ⊢
    grind [Code.eq_of_mem_targets_branchOn]
  | @ifElse ts c s t _ _ _ ihs iht =>
    intro l hl
    have hbody := ihs (k + 2) l
    have hother := iht (s.lowered (k + 2)).2 l
    rw [Stmt.lowered_ifElse] at hl ⊢
    simp [Instr.target?, Instr.label?] at hl ⊢
    grind [Code.eq_of_mem_targets_branchOn]
  | whileLoop _ _ ih =>
    intro l hl
    have hbody := ih k l
    rw [Stmt.lowered_whileLoop] at hl ⊢
    simp [Instr.target?, Instr.label?] at hl ⊢
    grind [Code.eq_of_mem_targets_branchOn]
  | doWhile _ _ ih =>
    intro l hl
    have hbody := ih (k + 1) l
    rw [Stmt.lowered_doWhile] at hl ⊢
    simp [Instr.target?, Instr.label?] at hl ⊢
    grind [Code.eq_of_mem_targets_branchOn]
  | @forLoop ts i c n s x y _ _ _ _ ihi ihs =>
    intro l hl
    have hfirst := ihi (k + 1) l
    have hbody := ihs (i.lowered (k + 1)).2 l
    rw [Stmt.lowered_forLoop] at hl ⊢
    simp [Instr.target?, Instr.label?] at hl ⊢
    grind [Code.eq_of_mem_targets_branchOn]

/-- The code of a statement outside loops jumps to its own labels only. -/
theorem Stmt.Scoped.closed_lower {P : Instr → Prop} {s : Stmt} (h : s.Scoped P []) :
    s.lower.Closed := by
  rw [Code.closed_iff]
  intro l hl
  rcases h.targets_lowered 0 l hl with hl | hl
  · cases hl
  · exact hl

theorem Code.Closed.append_ret {code : Code} (h : code.Closed) (e? : Option Expr) :
    Code.Closed (code ++ [.ret e?]) := by
  rw [Code.closed_iff] at h ⊢
  simpa [Instr.target?, Instr.label?] using h

theorem Stmt.Scoped.closed_lowerBody {P : Instr → Prop} {s : Stmt} (h : s.Scoped P [])
    (returns : Ty) : (s.lowerBody returns).Closed := by
  unfold Stmt.lowerBody
  split
  · exact h.closed_lower.append_ret none
  · exact h.closed_lower

/-! ## The instructions of lowered code -/

/-- What holds of lowered instructions, of labels and of jumps holds throughout the code. -/
theorem Stmt.Scoped.forall_lowered {P Q : Instr → Prop} (lower : ∀ i, P i → ∀ j ∈ i.lower, Q j)
    (label : ∀ l, Q (.label l)) (jump : ∀ l, Q (.jump l)) {ts : List Label} {s : Stmt}
    (h : s.Scoped P ts) (k : Nat) : ∀ j ∈ (s.lowered k).1, Q j := by
  have hbranch : ∀ {c : Expr}, (∀ l on, P (.branch l c on)) →
      ∀ l on, ∀ j ∈ branchOn l c.lower on, Q j := fun hc l on => lower _ (hc l on)
  induction h generalizing k with
  | instr hi _ _ => exact lower _ hi
  | @block ts ss hs ih =>
    clear hs
    induction ss generalizing k with
    | nil => exact nofun
    | cons s ss ihs =>
      obtain ⟨hs, hss⟩ := List.forall_mem_cons.1 ih
      rw [Stmt.lowered_cons]
      exact List.forall_mem_append.2 ⟨hs k, ihs hss _⟩
  | ifThen hc _ ih =>
    rw [Stmt.lowered_ifThen]
    simp only [List.forall_mem_append, List.forall_mem_singleton]
    exact ⟨⟨hbranch hc _ _, ih _⟩, label _⟩
  | ifElse hc _ _ ihs iht =>
    rw [Stmt.lowered_ifElse]
    simp only [List.forall_mem_append, List.forall_mem_cons, List.not_mem_nil, false_imp_iff,
      implies_true, and_true]
    exact ⟨⟨⟨⟨hbranch hc _ _, ihs _⟩, jump _, label _⟩, iht _⟩, label _⟩
  | whileLoop hc _ ih =>
    rw [Stmt.lowered_whileLoop]
    simp only [List.forall_mem_append, List.forall_mem_cons, List.not_mem_nil, false_imp_iff,
      implies_true, and_true]
    exact ⟨⟨⟨label _, hbranch hc _ _⟩, ih _⟩, jump _, label _⟩
  | doWhile _ hc ih =>
    rw [Stmt.lowered_doWhile]
    simp only [List.forall_mem_append, List.forall_mem_singleton]
    exact ⟨⟨⟨⟨label _, ih _⟩, label _⟩, hbranch hc _ _⟩, label _⟩
  | @forLoop ts i c n s x y _ hc hn _ ihi ihs =>
    have heval : Q (.eval n.lower) := lower _ hn _ (List.mem_singleton_self _)
    rw [Stmt.lowered_forLoop]
    simp only [List.forall_mem_append, List.forall_mem_cons, List.not_mem_nil, false_imp_iff,
      implies_true, and_true]
    exact ⟨⟨⟨⟨ihi _, label _⟩, hbranch hc _ _⟩, ihs _⟩, label _, heval, jump _, label _⟩

end Scripting.Typed
