import Scripting.Check.Stmt
import Scripting.Proofs.Check.Expr

/-!
# Checked statements

Checking a statement gives one whose jumps go to the loops around it and whose own loops are numbered
in turn. If nothing is reported, its instructions are well typed.
-/

namespace Scripting.Checking

open Typed (Instr Label)

variable {Γ : Context} {g? : Option FunctionSymbol} {c : Checker} {P : Prop}

/-- The shape of a checked statement: its jumps go to `ts` or to loops inside it, and `lo` loops had
begun before it, `hi` after it. -/
structure Shaped (ts : List Label) (lo : Nat) (s : Typed.Stmt) (hi : Nat) : Prop where
  jumps : s.Scoped Instr.Strict ts
  numbered : s.Numbered lo hi

/-- The step yields a statement for the place where the checker stands, well typed if nothing is
reported. -/
abbrev YieldsStmt (Γ : Context) (g? : Option FunctionSymbol) (c : Checker) (P : Prop)
    (step : Checking Typed.Stmt) : Prop :=
  Yields Γ g? c P step (Shaped c.targets c.loopCount)
    (Typed.Stmt.Scoped (Instr.WellTyped Γ g?) c.targets)

theorem shaped_instr (i : Instr) (hi : i.Strict) (hlabel : i.label? = none) (htarget : i.target? = none)
    {ts : List Label} {lo n : Nat} (hn : n = lo) : Shaped ts lo (.instr i) n := by
  subst hn
  exact ⟨.instr hi hlabel (fun _ hl => nomatch htarget.symm.trans hl), .instr _ hlabel⟩

theorem scoped_instr (i : Instr) (hi : i.WellTyped Γ g?) (hlabel : i.label? = none)
    (htarget : i.target? = none) (ts : List Label) :
    (Typed.Stmt.instr i).Scoped (Instr.WellTyped Γ g?) ts :=
  .instr hi hlabel fun _ hl => nomatch htarget.symm.trans hl

theorem shaped_error {ts : List Label} {lo : Nat} : Shaped ts lo .error lo :=
  shaped_instr (.eval .error) .error rfl rfl rfl

theorem yields_exprStmt (span : Span) {step : Checking Checked}
    (h : Yields Γ g? c P step (fun r n => r.1.Strict ∧ n = c.loopCount) (Checked.Sound Γ g?)) :
    YieldsStmt Γ g? c P (exprStmt span step) := by
  unfold exprStmt
  refine h.bind fun r c₁ _ hs => ?_
  refine yields_get (yields_report_if fun c₂ hn => ?_)
  exact yields_pure (shaped_instr (.eval r.1) hs.1 rfl rfl (hn.trans hs.2)) fun _ _ hP =>
    scoped_instr (.eval r.1) hP.2.typed rfl rfl _

theorem yields_typeOf? (name? : Option Surface.Name) :
    Yields Γ g? c P (name?.mapM typeOf) (fun _ n => n = c.loopCount)
      fun type? => ∀ t, type? = some t → t.IsValue := by
  cases name? with
  | none => exact yields_pure rfl fun _ _ _ => nofun
  | some name =>
    refine (yields_typeOf name).bind fun t c₁ _ hn => yields_pure hn fun _ _ hP t' ht' => ?_
    cases ht'
    exact hP.2

theorem yields_declare (d : Surface.VariableDecl) : YieldsStmt Γ g? c P (declare d) := by
  unfold declare
  refine (yields_typeOf? d.type?).bind fun written? c₁ _ hn₁ => ?_
  refine (yields_value d.value c₁).bind fun r c₂ _ hr => ?_
  obtain ⟨e, standIn⟩ := r
  dsimp only
  generalize htype : written?.getD e.type = type
  refine Yields.bind ((yields_declareVariable d.name.text d.name.span d.readOnly type).given
    fun _ _ hP => ?_) fun x c₃ _ hn₃ => ?_
  · subst htype
    cases written? with
    | none => exact hP.2.isValue
    | some t => exact hP.1.2 t rfl
  · refine Yields.bind ((yields_convert hr.1 d.value.span type false standIn).given
      fun _ _ hP => ?_) fun e' c₄ _ he' => ?_
    · obtain ⟨⟨-, hvalued⟩, v, hv, rfl⟩ := hP
      exact ⟨hvalued, hv.value⟩
    · refine yields_pure (shaped_instr (.declare x e') he'.1 rfl rfl ?_) fun _ _ hP => ?_
      · rw [he'.2, hn₃, hr.2, hn₁]
      · obtain ⟨⟨-, v, hv, rfl⟩, htyped, heq⟩ := hP
        exact scoped_instr (.declare x e') ⟨htyped, v, hv, heq⟩ rfl rfl _

theorem yields_condition (e : Surface.Expr) (c : Checker) :
    Yields Γ g? c P (condition e) (fun e n => e.Strict ∧ n = c.loopCount)
      fun e => e.WellTyped Γ g? ∧ e.type = .boolean := by
  unfold condition requireType
  refine (yields_value e c).bind fun r c₁ _ hr => ?_
  exact (yields_convert hr.1 e.span .boolean false r.2).imp (fun _ _ hP => ⟨hP.2, nofun, nofun⟩)
    (fun _ _ hs => ⟨hs.1, hs.2.trans hr.2⟩) fun _ => id

theorem yields_leaveLoop (keyword : Keyword) (span : Span) :
    YieldsStmt Γ g? c P (leaveLoop keyword span) := by
  unfold leaveLoop
  refine yields_get ?_
  cases hloops : c.loops with
  | nil => exact yields_reported shaped_error
  | cons loop loops =>
    obtain ⟨onBreak, onContinue⟩ := loop
    dsimp only
    generalize htarget : (if keyword = .break_ then onBreak else onContinue) = target
    have hmem : target ∈ c.targets := by
      unfold Checker.targets
      rw [hloops, ← htarget]
      split <;> simp
    have hjump : ∀ l, (Instr.jump target).target? = some l → l ∈ c.targets := by
      rintro l hl
      cases hl
      exact hmem
    exact yields_pure ⟨.instr trivial rfl hjump, .instr _ rfl⟩ fun _ _ _ => .instr trivial rfl hjump

theorem yields_returnFrom (f : FunctionSymbol) (span : Span) {value? : Option (Span × Checked)}
    (h : ∀ r ∈ value?, r.2.1.Strict) :
    YieldsStmt Γ g? c ((∀ r ∈ value?, r.2.Valued Γ g?) ∧ g? = some f ∧ f.returns ≠ .error)
      (returnFrom f span value?) := by
  unfold returnFrom
  cases value? with
  | none =>
    dsimp only
    split
    · exact yields_reported (shaped_instr (.ret none) trivial rfl rfl rfl)
    case isFalse hreturns =>
      refine yields_pure (shaped_instr (.ret none) trivial rfl rfl rfl) fun _ _ hP => ?_
      refine scoped_instr (.ret none) ⟨f, hP.2.1, ?_⟩ rfl rfl _
      simpa [hP.2.2] using hreturns
  | some r =>
    obtain ⟨valueSpan, e, standIn⟩ := r
    dsimp only
    by_cases hvoid : f.returns = .void
    · rw [if_pos hvoid]
      exact yields_reported (shaped_instr (.ret none) trivial rfl rfl rfl)
    · rw [if_neg hvoid]
      refine Yields.bind ((yields_convert (h _ rfl) valueSpan f.returns false standIn).given
        fun _ _ hP => ⟨hP.1 _ rfl, hvoid, hP.2.2⟩) fun e' c₁ _ he' => ?_
      refine yields_pure (shaped_instr (.ret (some e')) he'.1 rfl rfl he'.2) fun _ _ hP => ?_
      obtain ⟨⟨-, hf, herror⟩, htyped, heq⟩ := hP
      exact scoped_instr (.ret (some e')) ⟨htyped, f, hf, ⟨hvoid, herror⟩, heq⟩ rfl rfl _

theorem yields_returns (value? : Option Surface.Expr) (span : Span) :
    YieldsStmt Γ g? c P (returns value? span) := by
  have hvalue : Yields Γ g? c P (value?.mapM fun e => return (e.span, ← value e))
      (fun value? n => (∀ r ∈ value?, r.2.1.Strict) ∧ n = c.loopCount)
      fun value? => ∀ r ∈ value?, r.2.Valued Γ g? := by
    cases value? with
    | none => exact yields_pure ⟨nofun, rfl⟩ fun _ _ _ => nofun
    | some e =>
      have hone : Yields Γ g? c P (do return (e.span, ← value e))
          (fun r n => r.2.1.Strict ∧ n = c.loopCount) fun r => r.2.Valued Γ g? :=
        (yields_value e c).bind fun r c₁ _ hr => yields_pure hr fun _ _ hP => hP.2
      show Yields Γ g? c P ((do return (e.span, ← value e)) >>= fun r => pure (some r)) _ _
      refine hone.bind fun r c₁ _ hr => ?_
      refine yields_pure ⟨fun r' hr' => ?_, hr.2⟩ fun _ _ hP r' hr' => ?_
      · cases hr'
        exact hr.1
      · cases hr'
        exact hP.2
  unfold returns
  refine hvalue.bind fun checked? c₁ hfollows hchecked => yields_get ?_
  rw [← hfollows.targets, ← hchecked.2]
  split
  case h_1 f hf =>
    refine (yields_returnFrom f span hchecked.1).given fun _ hr hP => ⟨hP.2, ?_⟩
    cases hg : g? with
    | none => rw [hr.global hg] at hf; cases hf
    | some g =>
      obtain ⟨i, hi, hfound, hreturns⟩ := hr.body g hg
      rw [hi] at hf
      cases hfound.symm.trans hf
      exact ⟨rfl, hreturns⟩
  case h_2 =>
    refine yields_reported (shaped_instr (.ret (checked?.map (·.2.1))) ?_ rfl rfl rfl)
    cases checked? with
    | none => trivial
    | some r => exact hchecked.1 r rfl

theorem yields_loopBody {step : Checking Typed.Stmt} (c : Checker)
    (h : ∀ c : Checker, YieldsStmt Γ g? c P step) {onBreak onContinue : Label}
    (hx : onBreak = .numbered "break" (c.loopCount + 1))
    (hy : onContinue = .numbered "continue" (c.loopCount + 1)) :
    Yields Γ g? c P (inLoop step)
      (fun r n => r.2 = (onBreak, onContinue) ∧
        Shaped (onBreak :: onContinue :: c.targets) (c.loopCount + 1) r.1 n)
      fun r => r.1.Scoped (Instr.WellTyped Γ g?) (onBreak :: onContinue :: c.targets) :=
  yields_inLoop hx hy (h _)

mutual

theorem yields_stmt {P : Prop} (s : Surface.Stmt) (c : Checker) : YieldsStmt Γ g? c P (stmt s) := by
  unfold stmt
  refine yields_nested shaped_error fun depth => ?_
  -- The depth no longer matters.
  show YieldsStmt Γ g? { c with depth := depth } P _
  generalize ({ c with depth := depth } : Checker) = c
  cases s with
  | block ss span =>
    refine (yields_inLayer (yields_stmts ss _)).bind fun ss' c₁ _ hss => ?_
    exact yields_pure hss fun _ _ hP => hP.2
  | expr e => exact yields_exprStmt e.span (yields_expr e c)
  | declare d => exact yields_declare d
  | ifThen e s span =>
    refine (yields_condition e c).bind fun e' c₁ h₁ he => ?_
    refine (yields_stmt s c₁).bind fun s' c₂ h₂ hs => ?_
    rw [h₁.targets, he.2] at hs
    refine yields_pure ⟨.ifThen (fun _ _ => he.1) hs.jumps, .ifThen e' hs.numbered⟩ fun _ _ hP => ?_
    rw [h₁.targets] at hP
    exact .ifThen (fun _ _ => hP.1.2) hP.2
  | ifElse e s t span =>
    refine (yields_condition e c).bind fun e' c₁ h₁ he => ?_
    refine (yields_stmt s c₁).bind fun s' c₂ h₂ hs => ?_
    refine (yields_stmt t c₂).bind fun t' c₃ _ ht => ?_
    rw [h₁.targets, he.2] at hs
    rw [h₂.targets, h₁.targets] at ht
    refine yields_pure ⟨.ifElse (fun _ _ => he.1) hs.jumps ht.jumps,
      .ifElse e' hs.numbered ht.numbered⟩ fun _ _ hP => ?_
    rw [h₂.targets, h₁.targets] at hP
    exact .ifElse (fun _ _ => hP.1.1.2) hP.1.2 hP.2
  | whileLoop e s span =>
    refine (yields_condition e c).bind fun e' c₁ h₁ he => ?_
    refine (yields_loopBody c₁ (fun c' => yields_stmt s c') rfl rfl).bind fun r c₂ _ hr => ?_
    obtain ⟨s', onBreak, onContinue⟩ := r
    obtain ⟨hlabels, hs⟩ := hr
    cases hlabels
    rw [← he.2, ← h₁.targets]
    exact yields_pure ⟨.whileLoop (fun _ _ => he.1) hs.jumps, .whileLoop e' hs.numbered⟩ fun _ _ hP =>
      .whileLoop (fun _ _ => hP.1.2) hP.2
  | doWhile s e span =>
    refine (yields_loopBody c (fun c' => yields_stmt s c') rfl rfl).bind fun r c₁ h₁ hr => ?_
    obtain ⟨s', onBreak, onContinue⟩ := r
    obtain ⟨hlabels, hs⟩ := hr
    cases hlabels
    refine (yields_condition e c₁).bind fun e' c₂ h₂ he => ?_
    rw [← he.2] at hs
    exact yields_pure ⟨.doWhile hs.jumps fun _ _ => he.1, .doWhile e' hs.numbered⟩ fun _ _ hP =>
      .doWhile hP.1.2 fun _ _ => hP.2
  | forLoop first e n s span =>
    refine yields_inLayer ?_
    show YieldsStmt Γ g? { c with scope := c.scope.push } P _
    generalize ({ c with scope := c.scope.push } : Checker) = c
    refine (yields_stmt first c).bind fun first' c₁ h₁ hfirst => ?_
    refine (yields_condition e c₁).bind fun e' c₂ h₂ he => ?_
    refine (yields_expr n c₂).bind fun n' c₃ h₃ hn => ?_
    refine (yields_loopBody c₃ (fun c' => yields_stmt s c') rfl rfl).bind fun r c₄ _ hr => ?_
    obtain ⟨s', onBreak, onContinue⟩ := r
    obtain ⟨hlabels, hs⟩ := hr
    cases hlabels
    have htargets : c₃.targets = c.targets := by rw [h₃.targets, h₂.targets, h₁.targets]
    rw [← he.2, ← hn.2] at hfirst
    rw [htargets] at hs
    refine yields_pure ⟨.forLoop hfirst.jumps (fun _ _ => he.1) hn.1 hs.jumps,
      .forLoop e' n'.1 hfirst.numbered hs.numbered⟩ fun _ _ hP => ?_
    obtain ⟨⟨⟨⟨-, hfirst'⟩, he'⟩, hn'⟩, hs'⟩ := hP
    rw [htargets] at hs'
    exact .forLoop hfirst' (fun _ _ => he') hn'.typed hs'
  | breakLoop span => exact yields_leaveLoop .break_ span
  | continueLoop span => exact yields_leaveLoop .continue_ span
  | returns value? span => exact yields_returns value? span
  | function h body => exact yields_reported ⟨.block nofun, .nil _⟩

theorem yields_stmts {P : Prop} (ss : List Surface.Stmt) (c : Checker) :
    Yields Γ g? c P (stmts ss) (fun ss' n => Shaped c.targets c.loopCount (.block ss') n)
      fun ss' => (Typed.Stmt.block ss').Scoped (Instr.WellTyped Γ g?) c.targets := by
  unfold stmts
  cases ss with
  | nil => exact yields_pure ⟨.block nofun, .nil _⟩ fun _ _ _ => .block nofun
  | cons s ss =>
    refine (yields_stmt s c).bind fun s' c₁ h₁ hs => ?_
    refine (yields_stmts ss c₁).bind fun ss' c₂ _ hss => ?_
    rw [h₁.targets] at hss
    refine yields_pure ⟨hs.jumps.cons hss.jumps, .cons hs.numbered hss.numbered⟩ fun _ _ hP => ?_
    rw [h₁.targets] at hP
    exact hP.1.2.cons hP.2

end

theorem yields_block (ss : List Surface.Stmt) (c : Checker) : YieldsStmt Γ g? c P (block ss) :=
  (yields_inLayer (yields_stmts ss _)).bind fun _ _ _ hss => yields_pure hss fun _ _ hP => hP.2

end Scripting.Checking
