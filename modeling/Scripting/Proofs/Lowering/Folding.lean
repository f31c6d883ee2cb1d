import Scripting.Proofs.Graph.Liveness
import Scripting.Proofs.Lowering.NormalForm

/-!
# Branches on literals

A branch on a literal is decided twice: lowering replaces it by a jump or drops it, and a flow graph leaves
out the edge that is never taken. The two agree. The code and its lowering have the same live positions, but
for the branches that were dropped (`Code.live_lower_iff`), so the same instructions are left in their graphs
and the same is found out about returning.
-/

namespace Scripting.Typed

/-! ## Instructions -/

theorem Expr.constant?_lower (c : Expr) : c.lower.constant? = c.constant? := by
  cases c <;> rfl

def Instr.acts : Instr → Bool
  | eval _ | declare _ _ | ret _ => true
  | label _ | jump _ | branch .. => false

/-- Control passes the two instructions alike, and they do the same up to the lowering of expressions. -/
structure Instr.PassedAlike (i j : Instr) : Prop where
  label : j.label? = i.label?
  continues : j.continues = i.continues
  jumps : j.jumps? = i.jumps?
  acts : j.acts = i.acts
  lowered : i.acts = true → j = i.mapExprs Expr.lower

/-- Control passes through the instruction as if it were not there. -/
structure Instr.Idle (i : Instr) : Prop where
  label : i.label? = none
  continues : i.continues = true
  jumps : i.jumps? = none
  acts : i.acts = false

/-- An instruction is dropped where control only passes through it, or becomes one like it. -/
theorem Instr.lower_cases (i : Instr) :
    (i.lower = [] ∧ i.Idle) ∨ ∃ j, i.lower = [j] ∧ i.PassedAlike j := by
  cases i with
  | branch l c on =>
    have hlower : (Instr.branch l c on).lower = branchOn l c.lower on := rfl
    rw [hlower, branchOn, Expr.constant?_lower]
    cases hc : c.constant? with
    | none =>
      have hc' : c.lower.constant? = none := by rw [Expr.constant?_lower, hc]
      refine .inr ⟨_, rfl, rfl, ?_, ?_, rfl, fun h => by cases h⟩
      · simp [Instr.continues, hc, hc']
      · simp [Instr.jumps?, hc, hc']
    | some b =>
      by_cases hb : b = on
      · subst hb
        exact .inr ⟨.jump l, if_pos rfl, rfl, by simp [Instr.continues, hc], by simp [Instr.jumps?, hc],
          rfl, fun h => by cases h⟩
      · refine .inl ⟨if_neg hb, rfl, ?_, ?_, rfl⟩
        · simp [Instr.continues, hc, hb]
        · simp [Instr.jumps?, hc, hb]
  | _ => exact .inr ⟨_, rfl, rfl, rfl, rfl, rfl, fun _ => rfl⟩

theorem Instr.idle_of_lower_eq {i : Instr} (h : i.lower = []) : i.Idle := by
  rcases i.lower_cases with ⟨-, hidle⟩ | ⟨j, hlower, -⟩
  · exact hidle
  · rw [h] at hlower
    cases hlower

theorem Instr.passedAlike_of_lower_eq {i j : Instr} (h : i.lower = [j]) : i.PassedAlike j := by
  rcases i.lower_cases with ⟨hlower, -⟩ | ⟨j', hlower, halike⟩
  · rw [h] at hlower
    cases hlower
  · obtain ⟨rfl, -⟩ := List.cons.inj (h.symm.trans hlower)
    exact halike

namespace Code

variable {code p q front : Code}

/-! ## Labels -/

theorem after?_lower (l : Label) (code : Code) :
    Run.after? Instr.label? l code.lower = (Run.after? Instr.label? l code).map lower := by
  induction code with
  | nil => rfl
  | cons i rest ih =>
    rw [lower_cons, Run.after?]
    rcases i.lower_cases with ⟨hi, hidle⟩ | ⟨j, hi, halike⟩
    · rw [hi, List.nil_append, ih]
      cases Run.after? Instr.label? l rest with
      | none => simp [hidle.label]
      | some suffix => rfl
    · rw [hi, List.singleton_append, Run.after?, ih, halike.label]
      cases Run.after? Instr.label? l rest with
      | none => by_cases hl : i.label? = some l <;> simp [hl]
      | some suffix => rfl

theorem Closed.lower (h : code.Closed) : code.lower.Closed := by
  intro j hj l hl
  obtain ⟨i, hi, hj⟩ := List.mem_flatMap.1 hj
  have htarget : i.target? = some l := by
    refine mem_targets_lower ?_
    exact List.mem_filterMap.2 ⟨j, hj, hl⟩
  exact List.mem_flatMap.2 ⟨.label l, h i hi l htarget, .head _⟩

/-! ## Positions -/

/-- The position is not one that lowering drops. -/
def Kept (p : Code) : Prop := ∀ i rest, p = i :: rest → i.lower ≠ []

theorem kept_nil : Kept [] := fun _ _ h => by cases h

theorem kept_cons {i : Instr} (h : i.lower ≠ []) (rest : Code) : Kept (i :: rest) := by
  rintro _ _ ⟨⟩
  exact h

theorem lower_cons_of_eq {i j : Instr} (h : i.lower = [j]) (rest : Code) :
    Code.lower (i :: rest) = j :: Code.lower rest := by
  rw [lower_cons, h, List.singleton_append]

theorem lower_suffix (h : p <:+ code) : p.lower <:+ code.lower := by
  obtain ⟨front, rfl⟩ := h
  exact ⟨Code.lower front, (lower_append front p).symm⟩

theorem eq_nil_of_kept (hkept : Kept (front ++ p)) (h : front.lower = []) : front = [] := by
  cases front with
  | nil => rfl
  | cons i front =>
    rw [lower_cons, List.append_eq_nil_iff] at h
    exact absurd h.1 (hkept i _ rfl)

/-- What stands before a suffix is dropped if the rest becomes the same. -/
theorem lower_eq_nil_of_append (h : Code.lower (front ++ p) = p.lower) : front.lower = [] := by
  rw [lower_append] at h
  exact List.append_left_eq_self.1 h

/-- Positions that become the same differ by dropped instructions before a kept one. -/
theorem Kept.exists_front (hkept : Kept p) (hp : p <:+ code) (hq : q <:+ code) (h : q.lower = p.lower) :
    ∃ front : Code, q = front ++ p ∧ front.lower = [] := by
  rcases List.suffix_or_suffix_of_suffix hp hq with ⟨front, rfl⟩ | ⟨front, rfl⟩
  · exact ⟨front, rfl, lower_eq_nil_of_append h⟩
  · rw [eq_nil_of_kept hkept (lower_eq_nil_of_append h.symm)]
    exact ⟨[], rfl, rfl⟩

/-- Every position of lowered code comes from one that is kept. -/
theorem exists_of_suffix_lower {j : Instr} {rest' : Code} (h : j :: rest' <:+ code.lower) :
    ∃ i rest, i :: rest <:+ code ∧ i.lower = [j] ∧ Code.lower rest = rest' := by
  induction code with
  | nil => cases List.eq_nil_of_suffix_nil h
  | cons i rest ih =>
    have hlater : j :: rest' <:+ Code.lower rest →
        ∃ k rest₁, k :: rest₁ <:+ i :: rest ∧ k.lower = [j] ∧ Code.lower rest₁ = rest' := by
      intro h
      obtain ⟨k, rest₁, hs, hk, hrest⟩ := ih h
      exact ⟨k, rest₁, hs.trans (List.suffix_cons _ _), hk, hrest⟩
    rcases i.lower_cases with ⟨hi, -⟩ | ⟨j', hi, -⟩
    · rw [lower_cons, hi, List.nil_append] at h
      exact hlater h
    · rw [lower_cons_of_eq hi] at h
      rcases List.suffix_cons_iff.1 h with heq | h
      · obtain ⟨rfl, rfl⟩ := List.cons.inj heq
        exact ⟨i, rest, List.suffix_refl _, hi, rfl⟩
      · exact hlater h

/-! ## Live positions stay live -/

/-- Control that comes to a position comes to its lowering. -/
theorem Live.lowered (h : code.Live p) : code.lower.Live p.lower := by
  refine ⟨fun q => ∃ p, code.Live p ∧ Code.lower p = q, ⟨?_, ?_⟩, p, h, rfl⟩
  · rintro _ ⟨p, hp, rfl⟩
    exact lower_suffix hp.suffix
  · rintro _ ⟨p, hp, rfl⟩
    clear h
    -- dropped instructions before the position are skipped, going back
    induction hn : code.length - p.length using Nat.strong_induction_on generalizing p with
    | _ n ih =>
      subst hn
      rcases hp.entered with rfl | ⟨q, hq, hpass⟩
      · exact .inl rfl
      · cases hpass with
        | @next i _ hi =>
          rcases i.lower_cases with ⟨hlower, -⟩ | ⟨j, hlower, halike⟩
          · have hsame : Code.lower (i :: p) = Code.lower p := by rw [lower_cons, hlower, List.nil_append]
            have hlength := hq.suffix.length_le
            rw [List.length_cons] at hlength
            rw [← hsame]
            exact ih _ (by rw [List.length_cons]; omega) _ hq rfl
          · exact .inr ⟨_, ⟨_, hq, lower_cons_of_eq hlower p⟩, .next (halike.continues.trans hi)⟩
        | @jump i rest l suffix hi hl =>
          rcases i.lower_cases with ⟨-, hidle⟩ | ⟨j, hlower, halike⟩
          · rw [hidle.jumps] at hi
            cases hi
          · have hafter : Run.after? Instr.label? l code.lower = some (Code.lower suffix) := by
              rw [after?_lower, hl]
              rfl
            exact .inr ⟨_, ⟨_, hq, lower_cons_of_eq hlower rest⟩, .jump (halike.jumps.trans hi) hafter⟩

/-- Positions that control comes to if it comes to their lowering: the beginning, those that are kept, and
those behind them. -/
inductive Reentered (code : Code) : Code → Prop
  | start : Reentered code code
  | kept {p : Code} (hp : p <:+ code) (hkept : Kept p) (h : code.lower.Live p.lower) : Reentered code p
  | next {i : Instr} {rest : Code} (h : Reentered code (i :: rest)) (hi : i.continues = true) :
    Reentered code rest

theorem Reentered.suffix (h : Reentered code p) : p <:+ code := by
  induction h with
  | start => exact List.suffix_refl _
  | kept hp => exact hp
  | next _ _ ih => exact (List.suffix_cons _ _).trans ih

/-- Control passes through dropped instructions. -/
theorem Reentered.through {i : Instr} (h : Reentered code (i :: front ++ p)) (hi : i.continues = true)
    (hfront : front.lower = []) : ∃ q, Reentered code q ∧ code.Passes q p := by
  induction front generalizing i with
  | nil => exact ⟨_, h, .next hi⟩
  | cons d front ih =>
    rw [lower_cons, List.append_eq_nil_iff] at hfront
    exact ih (h.next hi) (Instr.idle_of_lower_eq hfront.1).continues hfront.2

/-- Control comes to a kept position as it comes to its lowering. -/
theorem Kept.entered (hkept : Kept p) (hp : p <:+ code) (h : code.lower.Live p.lower) :
    p = code ∨ ∃ q, Reentered code q ∧ code.Passes q p := by
  rcases h.entered with heq | ⟨q, hq, hpass⟩
  · -- only dropped instructions stand before it
    obtain ⟨front, rfl, hfront⟩ := hkept.exists_front hp (List.suffix_refl code) heq.symm
    cases front with
    | nil => exact .inl rfl
    | cons d front =>
      rw [lower_cons, List.append_eq_nil_iff] at hfront
      exact .inr (Reentered.start.through (Instr.idle_of_lower_eq hfront.1).continues hfront.2)
  · right
    generalize htarget : p.lower = target at hpass
    cases hpass with
    | @next j _ hj =>
      subst htarget
      obtain ⟨i, rest, hs, hi, hrest⟩ := exists_of_suffix_lower hq.suffix
      obtain ⟨front, rfl, hfront⟩ := hkept.exists_front hp ((List.suffix_cons _ _).trans hs) hrest
      have hlive : code.lower.Live (Code.lower (i :: (front ++ p))) := by
        rw [lower_cons_of_eq hi, hrest]
        exact hq
      have hentered : Reentered code (i :: (front ++ p)) := .kept hs (kept_cons (by simp [hi]) _) hlive
      exact hentered.through ((Instr.passedAlike_of_lower_eq hi).continues.symm.trans hj) hfront
    | @jump j rest' l suffix' hj hl =>
      obtain ⟨i, rest, hs, hi, rfl⟩ := exists_of_suffix_lower hq.suffix
      have hentered : Reentered code (i :: rest) := by
        refine .kept hs (kept_cons (by simp [hi]) _) ?_
        rw [lower_cons_of_eq hi]
        exact hq
      rw [after?_lower] at hl
      obtain ⟨suffix, hafter, rfl⟩ := Option.map_eq_some_iff.1 hl
      -- of two positions that are kept and become the same, each is the other
      have hlabel : Kept (.label l :: suffix) := kept_cons (i := .label l) (List.cons_ne_nil _ _) suffix
      have hsuffix := (FlowGraph.labelled_of_after hafter).2
      obtain ⟨front, rfl, hfront⟩ := hlabel.exists_front hsuffix hp htarget
      rw [eq_nil_of_kept hkept hfront, List.nil_append]
      exact ⟨_, hentered, .jump ((Instr.passedAlike_of_lower_eq hi).jumps.symm.trans hj) hafter⟩

/-- **Folding keeps liveness**: a position that is kept is live exactly if its lowering is. -/
theorem live_lower_iff (hp : p <:+ code) (hkept : Kept p) : code.lower.Live p.lower ↔ code.Live p := by
  refine ⟨fun h => ⟨Reentered code, ⟨fun q hq => hq.suffix, ?_⟩, .kept hp hkept h⟩, Live.lowered⟩
  intro q hq
  cases hq with
  | start => exact .inl rfl
  | kept hq hkept h => exact hkept.entered hq h
  | next h hi => exact .inr ⟨_, h, .next hi⟩

/-! ## The code that is left -/

/-- What is left of lowered code is what is left of the code, as far as it does something. -/
theorem select_lower (hp : p <:+ code) :
    (select code.lower.Live p.lower).filter Instr.acts =
      ((select code.Live p).filter Instr.acts).map (Instr.mapExprs Expr.lower) := by
  induction p with
  | nil => rfl
  | cons i rest ih =>
    have hrest := ih ((List.suffix_cons _ _).trans hp)
    rcases i.lower_cases with ⟨hi, hidle⟩ | ⟨j, hi, halike⟩
    · rw [lower_cons, hi, List.nil_append, hrest, select]
      split
      · rw [List.filter_cons_of_neg (by simp [hidle.acts])]
      · rfl
    · have hiff := live_lower_iff hp (kept_cons (by simp [hi]) rest)
      rw [lower_cons_of_eq hi] at hiff ⊢
      rw [select, select]
      by_cases hlive : code.Live (i :: rest)
      · rw [if_pos (hiff.2 hlive), if_pos hlive]
        cases hacts : i.acts with
        | true =>
          rw [List.filter_cons_of_pos (halike.acts.trans hacts), List.filter_cons_of_pos hacts,
            List.map_cons, hrest, halike.lowered hacts]
        | false =>
          rw [List.filter_cons_of_neg (by simp [halike.acts, hacts]),
            List.filter_cons_of_neg (by simp [hacts]), hrest]
      · rw [if_neg (mt hiff.1 hlive), if_neg hlive, hrest]

/-- **Branches on literals are decided alike** by lowering and by the flow graph. For code whose jumps have
their labels, both the code and its lowering have a graph; the same is found about whether all paths return;
and the expression statements, declarations and returns that pruning leaves are the same, in the same order,
up to the lowering of their expressions. -/
theorem folding_agrees_with_graph (code : Code) (h : code.Closed) :
    Code.allPathsReturn (Stmt.block code.stmts).lower = code.allPathsReturn ∧
      ∃ g g', FlowGraph.ofCode code = .ok g ∧ FlowGraph.ofCode (Stmt.block code.stmts).lower = .ok g' ∧
        g'.code.filter Instr.acts = (g.code.filter Instr.acts).map (Instr.mapExprs Expr.lower) := by
  obtain ⟨u, hw, hu⟩ := FlowGraph.exists_wired h
  obtain ⟨u', hw', hu'⟩ := FlowGraph.exists_wired h.lower
  have hg := FlowGraph.ofCode_eq hw
  have hg' := FlowGraph.ofCode_eq hw'
  rw [lower_stmts]
  refine ⟨?_, u.prune, u'.prune, hg, hg', ?_⟩
  · have hend : code.lower.Live [] ↔ code.Live [] := live_lower_iff List.nil_suffix kept_nil
    unfold allPathsReturn
    rw [hg, hg', Bool.eq_iff_iff]
    rw [hu.allPathsReturn_prune_iff h, hu'.allPathsReturn_prune_iff h.lower, hend]
  · rw [hu.code_prune h, hu'.code_prune h.lower]
    exact select_lower (List.suffix_refl code)

/-- Skips a statement for good, never goes back, and returns; behind that stands a loop that nothing leads
to. -/
def decidedTwice : Code :=
  [.declare ⟨0⟩ (.literal (.int 1)), .branch ⟨"on"⟩ (.literal (.boolean true)) true,
    .eval (.assign ⟨0⟩ (.literal (.int 2)) .int), .label ⟨"on"⟩,
    .branch ⟨"round"⟩ (.literal (.boolean true)) false, .eval (.name ⟨0⟩ .int), .ret none,
    .label ⟨"round"⟩, .jump ⟨"round"⟩]

theorem decidedTwice_agrees :
    decidedTwice.Closed ∧ decidedTwice.allPathsReturn = true ∧
      Code.allPathsReturn (Stmt.block decidedTwice.stmts).lower = decidedTwice.allPathsReturn ∧
      ∃ g g', FlowGraph.ofCode decidedTwice = .ok g ∧
        FlowGraph.ofCode (Stmt.block decidedTwice.stmts).lower = .ok g' ∧
        g'.code.filter Instr.acts = (g.code.filter Instr.acts).map (Instr.mapExprs Expr.lower) := by
  have hclosed : decidedTwice.Closed := by simp [decidedTwice, Closed, Instr.target?]
  exact ⟨hclosed, rfl, folding_agrees_with_graph decidedTwice hclosed⟩

end Code

end Scripting.Typed
