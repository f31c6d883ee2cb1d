import Scripting.Proofs.Check.Context
import Scripting.Proofs.Lowering.Checked
import Scripting.Proofs.Run.Outcome
import Scripting.Run.Recording

/-!
# The value of a script in its two forms

Global code can be run as statements or as the code they are lowered to. Both do the same, but not every
value that the one has is the value of the other: the increment of a `for` loop is an instruction of the
lowered code, which records its value, while the loop as a statement does not. Apart from that the values are
the same. `Stmt.sameValue` finds out from the statements whether a `for` loop can have the last word.
-/

namespace Scripting

variable {σ : Type}

namespace Typed

/-- Whether both forms have recorded the same value wherever a pass of a loop begins: before the loop, after
its body and where it is continued. -/
def sameAtTop (before after continued : Bool) : Bool := before && (after && continued)

theorem sameAtTop_eq_true {before after continued : Bool} :
    sameAtTop before after continued = true ↔ before = true ∧ after = true ∧ continued = true := by
  simp [sameAtTop]

mutual

/-- Whether both forms have recorded the same value after the statement, if `same` tells whether they had
before. -/
def Stmt.sameValue (same : Bool) : Stmt → Bool
  | .instr (.eval _) | .instr (.declare ..) => true
  | .instr _ => same
  | .block ss => Stmt.sameValueList same ss
  | .ifThen _ s => same && s.sameValue same
  | .ifElse _ s t => s.sameValue same && t.sameValue same
  | .whileLoop _ s x y =>
    let top := sameAtTop same (s.sameValue same) (s.sameAt y same)
    top && s.sameAt x top
  | .doWhile s _ x y =>
    let top := sameAtTop same (s.sameValue same) (s.sameAt y same)
    s.sameValue top && s.sameAt y top && s.sameAt x top
  | .forLoop .. => false

def Stmt.sameValueList (same : Bool) : List Stmt → Bool
  | [] => same
  | s :: ss => Stmt.sameValueList (s.sameValue same) ss

/-- Whether they have wherever the statement jumps to the label. -/
def Stmt.sameAt (l : Label) (same : Bool) : Stmt → Bool
  | .instr (.eval _) | .instr (.declare ..) => true
  | .instr (.jump l') => l' ≠ l || same
  | .instr _ => same
  | .block ss => Stmt.sameAtList l same ss
  | .ifThen _ s => s.sameAt l same
  | .ifElse _ s t => s.sameAt l same && t.sameAt l same
  | .whileLoop _ s x y | .doWhile s _ x y =>
    l = x || l = y || s.sameAt l (sameAtTop same (s.sameValue same) (s.sameAt y same))
  | .forLoop i _ _ s x y => i.sameAt l same && (l = x || l = y || s.sameAt l false)

def Stmt.sameAtList (l : Label) (same : Bool) : List Stmt → Bool
  | [] => true
  | s :: ss => s.sameAt l same && Stmt.sameAtList l (s.sameValue same) ss

end

theorem Stmt.sameValueList_append (same : Bool) (ss ts : List Stmt) :
    Stmt.sameValueList same (ss ++ ts) = Stmt.sameValueList (Stmt.sameValueList same ss) ts := by
  induction ss generalizing same with
  | nil => rfl
  | cons s ss ih => exact ih (s.sameValue same)

/-- A last statement with a value settles the matter. -/
theorem Stmt.sameValueList_of_hasValue {i : Instr} (h : i.HasValue) (same : Bool) (ss : List Stmt) :
    Stmt.sameValueList same (ss ++ [.instr i]) = true := by
  rw [Stmt.sameValueList_append]
  cases i with
  | eval | declare => rfl
  | label | jump | branch | ret => exact h.elim

mutual

def Stmt.hasFor : Stmt → Bool
  | .instr _ => false
  | .block ss => Stmt.hasForList ss
  | .ifThen _ s | .whileLoop _ s _ _ | .doWhile s _ _ _ => s.hasFor
  | .ifElse _ s t => s.hasFor || t.hasFor
  | .forLoop .. => true

def Stmt.hasForList : List Stmt → Bool
  | [] => false
  | s :: ss => s.hasFor || Stmt.hasForList ss

end

/-- Without `for` loops, the values do not part. -/
theorem Stmt.sameValue_of_hasFor {s : Stmt} (h : s.hasFor = false) :
    s.sameValue true = true ∧ ∀ l, s.sameAt l true = true := by
  induction s with
  | instr i => cases i <;> simp [Stmt.sameValue, Stmt.sameAt]
  | block ss ih =>
    show Stmt.sameValueList true ss = true ∧ ∀ l, Stmt.sameAtList l true ss = true
    replace h : Stmt.hasForList ss = false := h
    induction ss with
    | nil => exact ⟨rfl, fun _ => rfl⟩
    | cons s ss ihss =>
      obtain ⟨hfirst, hrest⟩ := List.forall_mem_cons.1 ih
      obtain ⟨hs, hss⟩ := Bool.or_eq_false_iff.1 h
      obtain ⟨hvalue, hat⟩ := hfirst hs
      simp only [Stmt.sameValueList, Stmt.sameAtList, hvalue, hat, Bool.true_and]
      exact ihss hrest hss
  | ifThen c s ih =>
    obtain ⟨hvalue, hat⟩ := ih h
    simp [Stmt.sameValue, Stmt.sameAt, hvalue, hat]
  | ifElse c s t ihs iht =>
    obtain ⟨hs, ht⟩ := Bool.or_eq_false_iff.1 h
    simp [Stmt.sameValue, Stmt.sameAt, ihs hs, iht ht]
  | whileLoop c s x y ih =>
    obtain ⟨hvalue, hat⟩ := ih h
    simp [Stmt.sameValue, Stmt.sameAt, sameAtTop, hvalue, hat]
  | doWhile s c x y ih =>
    obtain ⟨hvalue, hat⟩ := ih h
    simp [Stmt.sameValue, Stmt.sameAt, sameAtTop, hvalue, hat]
  | forLoop => cases h

/-! ## Simulation -/

section

variable {w : Setting σ} {call : Calls σ} {code : Code} {f : Nat}

/-- An instruction that records a value records the same one, whatever was recorded before. -/
theorem Code.matches_hasValue {i : Instr} (h : i.HasValue)
    (hcall : ∀ f vs, Run.Below Run.AnyLast (call f vs) (call f vs)) (rest : Code) {m m' : Machine σ}
    (hm : m.Alike Run.AnyLast m') (f z : Nat) :
    Run.Matches (fun _ => Eq) f z (code.exit w call rest)
      (fun n => code.runFrom w call n (i :: rest) m') (i.run w call m) := by
  have hstep : Run.Matches _ f z (code.exit w call rest)
      (fun n => code.runFrom w call n (i :: rest) m') (i.run w call m) :=
    Code.matches_step Run.AnyLast.equivalence hcall i rest hm f z
  cases hr : i.run w call m with
  | ok flow m₁ =>
    obtain ⟨d, hd⟩ := Code.exists_takes_step code rest (h.run_eq hcall hm hr)
    exact .ok d (.refl (fun _ => rfl) m₁) hd
  | error e m₁ =>
    rw [hr] at hstep
    cases hstep with
    | error d he hm₁ hx => exact .error d he hm₁ hx
    | outOfFuel hx => exact .outOfFuel hx

theorem Stmt.Simulated.hasValue {i : Instr} (hvalue : i.HasValue) (hi : i.Strict)
    (hcall : ∀ f vs, Run.Below Run.AnyLast (call f vs) (call f vs)) :
    (Stmt.instr i).Simulated w call code f Run.AnyLast fun _ => Eq := by
  intro k rest m m' _ hm
  rw [Stmt.run]
  cases i with
  | eval e =>
    have hrun : (Instr.eval e.lower).run w call = (Instr.eval e).run w call := by
      rw [Instr.run, Instr.run, Expr.Strict.eval_lower hi]
    exact hrun ▸ Code.matches_hasValue (i := .eval e.lower) trivial hcall rest hm f _
  | declare x e =>
    have hrun : (Instr.declare x e.lower).run w call = (Instr.declare x e).run w call := by
      rw [Instr.run, Instr.run, Expr.Strict.eval_lower hi]
    exact hrun ▸ Code.matches_hasValue (i := .declare x e.lower) trivial hcall rest hm f _
  | label | jump | branch | ret => exact hvalue.elim

theorem Stmt.Simulated.jump {S : Option Value → Option Value → Prop} {l : Label}
    {T : Flow → Option Value → Option Value → Prop} (hS : Equivalence S)
    (hcall : ∀ f vs, Run.Below S (call f vs) (call f vs))
    (hT : ∀ v? v?', S v? v?' → T (.jump l) v? v?') :
    (Stmt.instr (.jump l)).Simulated w call code f S T := by
  intro k rest m m' hsuffix hm
  have hrun : (Stmt.instr (.jump l)).run w call f m = .ok (.jump l) m := rfl
  have hkeeps : (Stmt.instr (.jump l)).Simulated w call code f S fun _ => S :=
    .instr hS hcall (i := .jump l) trivial
  have hmatch := hkeeps k rest m m' hsuffix hm
  rw [hrun] at hmatch ⊢
  cases hmatch with
  | ok d hm₁ hx => exact .ok d (hm₁.imp hT) hx

/-- Both forms have recorded the same value where `same` holds. -/
abbrev Recorded (same : Bool) : Option Value → Option Value → Prop := Run.SameIf (same = true)

/-- Whether they have after the flow, by what is known for the end of a statement and for the jumps out of
it. Of returns nothing is known. -/
def knownAfter (normal : Bool) (jump : Label → Bool) : Flow → Bool
  | .normal => normal
  | .jump l => jump l
  | .returned _ => false

/-- What they have recorded where a statement is left. -/
abbrev RecordedAfter (normal : Bool) (jump : Label → Bool) (flow : Flow) :
    Option Value → Option Value → Prop :=
  Recorded (knownAfter normal jump flow)

/-- Where a statement is left other than at its end, only the jumps matter. -/
theorem RecordedAfter.leave {normal normal' : Bool} {jump jump' : Label → Bool}
    (hjump : ∀ l, jump' l = true → jump l = true) (flow : Flow) (hflow : flow ≠ .normal)
    (v? v?' : Option Value) (h : RecordedAfter normal jump flow v? v?') :
    RecordedAfter normal' jump' flow v? v?' := by
  intro hknown
  cases flow with
  | normal => exact absurd rfl hflow
  | jump l => exact h (hjump l hknown)
  | returned => cases hknown

theorem RecordedAfter.imp {normal normal' : Bool} {jump jump' : Label → Bool}
    (hnormal : normal' = true → normal = true) (hjump : ∀ l, jump' l = true → jump l = true)
    (flow : Flow) (v? v?' : Option Value) (h : RecordedAfter normal jump flow v? v?') :
    RecordedAfter normal' jump' flow v? v?' := by
  by_cases hflow : flow = .normal
  · subst hflow
    exact fun hknown => h (hnormal hknown)
  · exact RecordedAfter.leave hjump flow hflow v? v?' h

/-- What is known about the body of a loop tells what is known about the loop. -/
theorem exits_recorded {x y : Label} {normal again after : Bool} {jump leave : Label → Bool}
    (hnormal : again = true → normal = true) (hcontinue : again = true → jump y = true)
    (hbreak : after = true → jump x = true)
    (hleave : ∀ l, l ≠ x → l ≠ y → leave l = true → jump l = true) :
    Code.Exits x y (RecordedAfter normal jump) (Recorded again) (RecordedAfter after leave) where
  normal _ _ hv hp := hv (hnormal hp)
  continues _ _ hv hp := hv (hcontinue hp)
  breaks _ _ hv hp := hv (hbreak hp)
  jump l hx hy _ _ hv hp := hv (hleave l hx hy hp)
  returned _ _ _ _ hp := absurd hp Bool.false_ne_true

/-- Where the values are the same whenever a pass begins, the body keeps them so. -/
theorem Stmt.sameValue_of_top {s : Stmt} {y : Label} {same top : Bool}
    (htop : sameAtTop same (s.sameValue same) (s.sameAt y same) = top) (h : top = true) :
    s.sameValue top = true ∧ s.sameAt y top = true := by
  subst h
  obtain ⟨rfl, hvalue, hat⟩ := sameAtTop_eq_true.1 htop
  exact ⟨hvalue, hat⟩

/-- A jump to no label of the loop is one of its body. -/
theorem sameAt_of_leave {l x y : Label} {b : Bool} (hx : l ≠ x) (hy : l ≠ y)
    (h : (l = x || l = y || b) = true) : b = true := by
  simpa [hx, hy] using h

section

variable {P : Instr → Prop} (hP : ∀ i, P i → i.Strict)
  (hcall : ∀ {S}, Equivalence S → ∀ f vs, Run.Below S (call f vs) (call f vs))
  (hnodup : code.labels.Nodup)

include hP hcall hnodup

theorem Stmt.Scoped.simulated_sameValue {ts : List Label} {s : Stmt} (h : s.Scoped P ts) (same : Bool) :
    s.Simulated w call code f (Recorded same)
      (RecordedAfter (s.sameValue same) fun l => s.sameAt l same) := by
  have hcond : ∀ {c : Expr}, (∀ l on, P (.branch l c on)) → c.Strict :=
    fun {c} hc => hP (.branch ⟨""⟩ c true) (hc _ _)
  have hS := Run.SameIf.equivalence
  induction h generalizing same with
  | @instr ts i hi _ _ =>
    have hkeeps : (Stmt.instr i).Simulated w call code f (Recorded same)
        (RecordedAfter same fun _ => same) := by
      refine (Stmt.Simulated.instr (hS _) (hcall (hS _)) (hP i hi)).imp (fun _ _ hv => hv) ?_
      intro flow v? v?' hv hp
      cases flow with
      | normal | jump l => exact hv hp
      | returned => cases hp
    have hrecords : i.HasValue →
        (Stmt.instr i).Simulated w call code f (Recorded same) (RecordedAfter true fun _ => true) :=
      fun hvalue => (Stmt.Simulated.hasValue hvalue (hP i hi) (hcall Run.AnyLast.equivalence)).imp
        (fun _ _ _ => trivial) fun flow v? v?' hv _ => hv
    cases i with
    | eval | declare => exact hrecords trivial
    | label | branch | ret => exact hkeeps
    | jump l =>
      refine .jump (hS _) (hcall (hS _)) fun v? v?' hv hp => hv ?_
      simpa [knownAfter, Stmt.sameAt] using hp
  | @block ts ss hs ih =>
    have hlabel : ∀ s ∈ ss, s.label? = none := fun s hs' => (hs s hs').label?_eq_none
    refine .block ?_
    suffices hall : ∀ rest ⊆ ss, ∀ same, SimulatedIn w call code f (Recorded same)
        (RecordedAfter (Stmt.sameValueList same rest) fun l => Stmt.sameAtList l same rest) ss rest from
      hall ss (List.Subset.refl ss) same
    intro rest
    induction rest with
    | nil => exact fun _ same => .nil fun _ _ hv hp => hv hp
    | cons s rest ihrest =>
      intro hrest same
      obtain ⟨hs', hrest⟩ := List.cons_subset.1 hrest
      refine .cons hlabel (ih s hs' same) (fun _ _ hv => hv) ((ihrest hrest _).imp ?_) ?_
      · exact RecordedAfter.imp (fun h => h) fun l hl => (Bool.and_eq_true_iff.1 hl).2
      · exact RecordedAfter.leave fun l hl => (Bool.and_eq_true_iff.1 hl).1
  | ifThen hc _ ih =>
    refine .ifThen (hS _) (hcall (hS _)) hnodup (hcond hc) ((ih same).imp (fun _ _ hv => hv) ?_) ?_
    · exact RecordedAfter.imp (fun h => (Bool.and_eq_true_iff.1 h).2) fun l hl => hl
    · exact fun v? v?' hv hp => hv (Bool.and_eq_true_iff.1 hp).1
  | ifElse hc _ _ ihs iht =>
    refine .ifElse (hS _) (hcall (hS _)) hnodup (hcond hc) ((ihs same).imp (fun _ _ hv => hv) ?_)
      ((iht same).imp (fun _ _ hv => hv) ?_)
    · exact RecordedAfter.imp (fun h => (Bool.and_eq_true_iff.1 h).1)
        fun l hl => (Bool.and_eq_true_iff.1 hl).1
    · exact RecordedAfter.imp (fun h => (Bool.and_eq_true_iff.1 h).2)
        fun l hl => (Bool.and_eq_true_iff.1 hl).2
  | @whileLoop ts c s x y hc _ ih =>
    simp only [Stmt.sameValue, Stmt.sameAt]
    generalize htop : sameAtTop same (s.sameValue same) (s.sameAt y same) = top
    refine Stmt.Simulated.imp (S := Recorded top) (.whileLoop (hS _) (hcall (hS _)) hnodup (hcond hc)
      (ih top) (exits_recorded (fun h => (Stmt.sameValue_of_top htop h).1)
        (fun h => (Stmt.sameValue_of_top htop h).2) ?_ fun l => sameAt_of_leave) ?_)
      (fun v? v?' hv hp => hv (sameAtTop_eq_true.1 (htop.trans hp)).1) fun _ _ _ hv => hv
    · exact fun hp => (Bool.and_eq_true_iff.1 hp).2
    · exact fun v? v?' hv hp => hv (Bool.and_eq_true_iff.1 hp).1
  | @doWhile ts s c x y _ hc ih =>
    simp only [Stmt.sameValue, Stmt.sameAt]
    generalize htop : sameAtTop same (s.sameValue same) (s.sameAt y same) = top
    refine Stmt.Simulated.imp (S := Recorded top) (.doWhile
      (R := Recorded (s.sameValue top && s.sameAt y top)) hnodup (hS _) (hcall (hS _)) (ih top) (hcond hc)
      (exits_recorded (fun h => (Bool.and_eq_true_iff.1 h).1) (fun h => (Bool.and_eq_true_iff.1 h).2) ?_
        fun l => sameAt_of_leave) ?_ ?_)
      (fun v? v?' hv hp => hv (sameAtTop_eq_true.1 (htop.trans hp)).1) fun _ _ _ hv => hv
    · exact fun hp => (Bool.and_eq_true_iff.1 hp).2
    · exact fun v? v?' hv hp => hv (Bool.and_eq_true_iff.2 (Stmt.sameValue_of_top htop hp))
    · exact fun v? v?' hv hp => hv (Bool.and_eq_true_iff.1 hp).1
  | @forLoop ts i c n s x y _ hc hn _ ihi ihs =>
    have hnothing : ∀ {p : Prop}, false = true → p := fun h => absurd h Bool.false_ne_true
    refine .forLoop (S := Recorded false) (hS _) (hcall (hS _)) hnodup (fun _ _ => hnothing) (ihi same)
      (hcond hc) (hP (.eval n) hn) (ihs false) (exits_recorded hnothing hnothing hnothing ?_)
      (fun _ _ => hnothing) ?_
    · exact fun l hx hy hp => sameAt_of_leave hx hy (Bool.and_eq_true_iff.1 hp).2
    · exact RecordedAfter.leave fun l hl => (Bool.and_eq_true_iff.1 hl).1

end

/-- Where the values stay together, the code settles on just what the statement settles on. -/
theorem Stmt.Scoped.settles_lower {s : Stmt} (h : s.Scoped Instr.Strict []) {lo hi : Nat}
    (hn : s.Numbered lo hi) (hvalue : s.sameValue true = true) {m m₁ : Machine σ}
    (hr : Run.Settles (fun fuel => s.run w (Run.call w fuel) fuel) m (.ok .normal m₁)) :
    s.lower.Settles w m (.ok .normal m₁) := by
  obtain ⟨-, n, hrun⟩ := hr
  replace hrun : s.run w (Run.call w n) n m = .ok .normal m₁ := hrun n le_rfl
  have hnodup : s.lower.labels.Nodup := (hn.labels_lowered 0).nodup
  have hmatch := h.simulated_sameValue (f := n) (w := w) (fun _ hi => hi)
    (fun hS => Run.call_below hS.refl w (le_refl n)) hnodup true 0 [] m m
    (by rw [List.append_nil]; exact List.suffix_refl _) (.refl (fun _ _ => rfl) m)
  rw [hrun] at hmatch
  obtain ⟨d, hm₁, hx⟩ := hmatch
  obtain ⟨v?, hlast, rfl⟩ := hm₁.exists_last
  rw [← hlast hvalue] at hx
  have hcode := (hx.trans (Code.takes_exit_nil (fun l hl => by cases hl) _ _)).after 0
    (Run.finished_ok _ _)
  rw [List.append_nil] at hcode
  exact Code.settles hcode (Run.finished_ok _ _)

end

/-! ## Returns -/

mutual

def Stmt.hasReturn : Stmt → Bool
  | .instr (.ret _) => true
  | .instr _ => false
  | .block ss => Stmt.hasReturnList ss
  | .ifThen _ s | .whileLoop _ s _ _ | .doWhile s _ _ _ => s.hasReturn
  | .ifElse _ s t | .forLoop s _ _ t _ _ => s.hasReturn || t.hasReturn

def Stmt.hasReturnList : List Stmt → Bool
  | [] => false
  | s :: ss => s.hasReturn || Stmt.hasReturnList ss

end

theorem Stmt.hasReturn_of_mem {ss : List Stmt} (h : Stmt.hasReturnList ss = false) {s : Stmt}
    (hs : s ∈ ss) : s.hasReturn = false := by
  induction ss with
  | nil => cases hs
  | cons t ss ih =>
    rw [Stmt.hasReturnList, Bool.or_eq_false_iff] at h
    rcases List.mem_cons.1 hs with rfl | hs
    · exact h.1
    · exact ih h.2 hs

end Typed

def Flow.Stays (flow : Flow) : Prop := ∀ v?, flow ≠ .returned v?

theorem Flow.stays_normal : Stays .normal := fun _ h => by cases h

theorem Run.Gives.pass_stays {body : Run σ Flow} (h : Gives body Flow.Stays) (x y : Typed.Label) :
    Gives (Run.pass x y body) fun flow? => ∀ flow ∈ flow?, flow.Stays := by
  refine h.bind fun flow hflow => ?_
  cases flow with
  | normal => exact gives_none
  | returned v? => exact absurd rfl (hflow v?)
  | jump l =>
    by_cases hy : l = y
    · simp only [if_pos hy]
      exact gives_none
    · by_cases hx : l = x
      · simp only [if_neg hy, if_pos hx]
        exact gives_some Flow.stays_normal
      · simp only [if_neg hy, if_neg hx]
        exact gives_some hflow

theorem Typed.Stmt.gives_stays {w : Setting σ} {call : Calls σ} {s : Typed.Stmt}
    (h : s.hasReturn = false) (f : Nat) : Run.Gives (s.run w call f) Flow.Stays := by
  induction s with
  | instr i =>
    rw [Stmt.run]
    rintro m flow m' hrun v? rfl
    obtain ⟨e?, rfl⟩ := Instr.run_eq_returned hrun
    cases h
  | block ss ih =>
    rw [Stmt.run_block]
    exact Run.gives_steps Flow.stays_normal (fun s hs => ih s hs (Stmt.hasReturn_of_mem h hs)) f
      (List.Subset.refl ss)
  | ifThen c s ih =>
    rw [Stmt.run]
    refine Run.gives_of_bind fun v => ?_
    cases v with
    | true => exact ih h
    | false => exact Run.gives_pure Flow.stays_normal
  | ifElse c s t ihs iht =>
    obtain ⟨hs, ht⟩ := Bool.or_eq_false_iff.1 h
    rw [Stmt.run]
    refine Run.gives_of_bind fun v => ?_
    cases v with
    | true => exact ihs hs
    | false => exact iht ht
  | whileLoop c s x y ih =>
    rw [Stmt.run]
    refine Run.gives_repeatPasses (Run.gives_of_bind fun v => ?_) f
    cases v with
    | true => exact (ih h).pass_stays x y
    | false => exact Run.gives_some Flow.stays_normal
  | doWhile s c x y ih =>
    rw [Stmt.run]
    refine Run.gives_repeatPasses (((ih h).pass_stays x y).bind fun flow? hflow => ?_) f
    cases flow? with
    | some flow => exact Run.gives_pure hflow
    | none =>
      refine Run.gives_of_bind fun v => ?_
      cases v with
      | true => exact Run.gives_none
      | false => exact Run.gives_some Flow.stays_normal
  | forLoop i c n s x y ihi ihs =>
    obtain ⟨hi, hs⟩ := Bool.or_eq_false_iff.1 h
    rw [Stmt.run]
    refine (ihi hi).bind fun flow hflow => ?_
    cases flow with
    | returned v? => exact Run.gives_pure hflow
    | jump l => exact Run.gives_pure hflow
    | normal =>
      refine Run.gives_repeatPasses (Run.gives_of_bind fun v => ?_) f
      cases v with
      | false => exact Run.gives_some Flow.stays_normal
      | true =>
        refine ((ihs hs).pass_stays x y).bind fun flow? hflow? => ?_
        cases flow? with
        | some flow => exact Run.gives_pure hflow?
        | none => exact Run.gives_of_bind fun _ => Run.gives_none

namespace Checking

variable {α β : Type}

/-- Outside functions, the step gives a result of the kind or leaves something reported. -/
structure OrReports (Q : α → Prop) (step : Checking α) : Prop where
  steady : Steady step
  holds : ∀ c : Checker, c.function? = none → Q (step c).1 ∨ (step c).2.diagnostics ≠ []

namespace OrReports

variable {P : α → Prop} {Q : β → Prop} {step : Checking α}

theorem of_pure {b : β} (h : Q b) : OrReports Q (pure b) := ⟨steady_pure b, fun _ _ => .inl h⟩

theorem of_forall (hsteady : Steady step) (h : ∀ c : Checker, P (step c).1) : OrReports P step :=
  ⟨hsteady, fun c _ => .inl (h c)⟩

theorem of_steady (hsteady : Steady step) : OrReports (fun _ => True) step :=
  of_forall hsteady fun _ => trivial

theorem bind {g : α → Checking β} (h : OrReports P step) (hg : ∀ a, OrReports (fun b => P a → Q b) (g a)) :
    OrReports Q (step >>= g) := by
  refine ⟨h.steady.bind fun a => (hg a).steady, fun c hc => ?_⟩
  obtain ⟨hsteady, hholds⟩ := hg (step c).1
  rcases h.holds c hc with hP | hreported
  · exact (hholds _ ((h.steady c).function.trans hc)).imp_left fun hQ => hQ hP
  · refine .inr fun hnil => hreported ?_
    exact List.prefix_nil.1 (hnil ▸ (hsteady (step c).2).diagnostics)

theorem of_get {g : Checker → Checking β} (h : ∀ c, OrReports Q (g c)) : OrReports Q (get >>= g) :=
  ⟨steady_get fun c => (h c).steady, fun c hc => (h c).holds c hc⟩

theorem report_if {p : Prop} [Decidable p] {span : Span} {problem : Problem} (h : OrReports P step) :
    OrReports P (if p then do report span problem; step else step) := by
  refine ⟨steady_report_if h.steady, fun c hc => ?_⟩
  split
  · exact h.holds _ hc
  · exact h.holds c hc

theorem nested (h : OrReports P step) (span : Span) {standIn : α} (hstandIn : P standIn) :
    OrReports P (nested span standIn step) := by
  refine ⟨steady_nested h.steady, fun c hc => ?_⟩
  rw [nested_apply]
  by_cases hlimit : c.depth < c.options.maxDepth
  · rw [enter_of_lt hlimit, if_pos rfl]
    exact h.holds { c with depth := c.depth + 1 } hc
  · rw [enter_of_not_lt hlimit, if_neg Bool.false_ne_true]
    exact .inl hstandIn

theorem inLayer (h : OrReports P step) : OrReports P (inLayer step) := by
  refine ⟨steady_inLayer h.steady, fun c hc => ?_⟩
  rw [inLayer_eq h.steady]
  exact h.holds { c with scope := c.scope.push } hc

theorem inLoop (h : OrReports P step) : OrReports (fun r => P r.1) (inLoop step) :=
  ⟨steady_inLoop h.steady, fun _ hc => h.holds _ hc⟩

end OrReports

theorem orReports_exprStmt (span : Span) {step : Checking Checked} (h : Steady step) :
    OrReports (fun s => s.hasReturn = false) (exprStmt span step) :=
  (OrReports.of_steady h).bind fun _ => .of_get fun _ => .report_if (.of_pure fun _ => rfl)

theorem orReports_leaveLoop (keyword : Keyword) (span : Span) :
    OrReports (fun s => s.hasReturn = false) (leaveLoop keyword span) := by
  refine .of_get fun c => ?_
  split
  · exact .of_pure rfl
  · exact (OrReports.of_steady (steady_report span _)).bind fun _ => .of_pure fun _ => rfl

theorem orReports_returns (v? : Option Surface.Expr) (span : Span) :
    OrReports (fun s => s.hasReturn = false) (returns v? span) := by
  have hvalue : Steady (v?.mapM fun e => do return (e.span, ← value e)) :=
    steady_option_mapM (fun e => (steady_value e).bind fun _ => steady_pure _) v?
  refine (OrReports.of_steady hvalue).bind fun checked? => ⟨steady_get fun c => ?_, fun c hc => .inr ?_⟩
  · split
    · exact steady_returnFrom _ span checked?
    · exact steady_reported _ _ _
  · rw [get_bind, hc]
    exact diagnostics_report span .invalidReturn c

mutual

theorem orReports_stmt (s : Surface.Stmt) : OrReports (fun s' => s'.hasReturn = false) (stmt s) := by
  unfold stmt
  refine .nested ?_ s.span rfl
  cases s with
  | block ss _ => exact (orReports_stmts ss).inLayer.bind fun ss' => .of_pure fun h => h
  | expr e => exact orReports_exprStmt e.span (steady_expr e)
  | declare d => exact .of_forall (steady_declare d) fun _ => rfl
  | ifThen c t _ =>
    refine (OrReports.of_steady (steady_condition c)).bind fun c' => ?_
    exact (orReports_stmt t).bind fun t' => .of_pure fun ht _ => ht
  | ifElse c t e _ =>
    refine (OrReports.of_steady (steady_condition c)).bind fun c' => ?_
    refine (orReports_stmt t).bind fun t' => (orReports_stmt e).bind fun e' => .of_pure ?_
    exact fun he ht _ => Bool.or_eq_false_iff.2 ⟨ht, he⟩
  | whileLoop c b _ =>
    refine (OrReports.of_steady (steady_condition c)).bind fun c' => ?_
    exact (orReports_stmt b).inLoop.bind fun r => .of_pure fun hb _ => hb
  | doWhile b c _ =>
    refine (orReports_stmt b).inLoop.bind fun r => ?_
    exact (OrReports.of_steady (steady_condition c)).bind fun c' => .of_pure fun _ hb => hb
  | forLoop i c n b _ =>
    refine .inLayer ((orReports_stmt i).bind fun i' => ?_)
    refine (OrReports.of_steady (steady_condition c)).bind fun c' => ?_
    refine (OrReports.of_steady (steady_expr n)).bind fun n' => (orReports_stmt b).inLoop.bind fun r => ?_
    exact .of_pure fun hb _ _ hi => Bool.or_eq_false_iff.2 ⟨hi, hb⟩
  | breakLoop span => exact orReports_leaveLoop .break_ span
  | continueLoop span => exact orReports_leaveLoop .continue_ span
  | returns v? span => exact orReports_returns v? span
  | function h body => exact .of_forall (steady_reported _ _ _) fun _ => rfl

theorem orReports_stmts (ss : List Surface.Stmt) :
    OrReports (fun ss' => Typed.Stmt.hasReturnList ss' = false) (stmts ss) := by
  unfold stmts
  cases ss with
  | nil => exact .of_pure rfl
  | cons s ss =>
    refine (orReports_stmt s).bind fun s' => (orReports_stmts ss).bind fun ss' => .of_pure ?_
    exact fun hss hs => Bool.or_eq_false_iff.2 ⟨hs, hss⟩

end

theorem function?_function (d : Declaration) (c : Checker) :
    (function d c).2.function? = c.function? := by
  have hsymbol := (steady_symbolOf d c).function
  show (declareFunction d.head.name.span (symbolOf d c).1 (symbolOf d c).2).2.function? = _
  rcases declareFunction_cases d.head.name.span (symbolOf d c).1 (symbolOf d c).2 with
    ⟨scope, -, hstate⟩ | ⟨problem, hstate⟩
  · rw [hstate, ← hsymbol]
  · rw [hstate, ← hsymbol]
    rfl

theorem function?_signatures (ss : List Surface.Stmt) (c : Checker) :
    (signatures ss c).2.function? = c.function? := by
  induction ss generalizing c with
  | nil => rfl
  | cons s ss ih =>
    cases s with
    | function h body => exact (ih (function ⟨h, body⟩ c).2).trans (function?_function ⟨h, body⟩ c)
    | _ => exact ih c

/-- Global code about which nothing is reported does not return. -/
theorem hasReturn_globals {options : Options} {symbols : SymbolTable} {parent : Scope}
    {ss : List Surface.Stmt} (h : (checkGlobals options symbols parent ss).1.diagnostics = []) :
    Typed.Stmt.hasReturnList (checkGlobals options symbols parent ss).1.statements = false :=
  ((orReports_stmts _).holds _ (function?_signatures ss (.start symbols options parent none))).resolve_right
    (not_not.2 h)

end Checking

/-! ## Evaluation -/

theorem Run.Settles.unique {α : Type} {x : Nat → Run σ α} {m : Machine σ} {r r' : Run.Result σ α}
    (h : Run.Settles x m r) (h' : Run.Settles x m r') : r = r' := by
  obtain ⟨-, n, hn⟩ := h
  obtain ⟨-, n', hn'⟩ := h'
  exact (hn _ (Nat.le_max_left n n')).symm.trans (hn' _ (Nat.le_max_right n n'))

namespace Body

variable {w : Setting σ} {m : Machine σ}

/-- What the body gives with some fuel is what it settles on. -/
theorem settles {body : Body} {n : Nat} {r : Run.Result σ Flow}
    (h : body.run w (Run.call w n) n m = r) (hr : Run.Finished r) :
    Run.Settles (fun fuel => body.run w (Run.call w fuel) fuel) m r := by
  subst h
  refine ⟨hr, n, fun fuel hle => ?_⟩
  have hcall := Run.call_below (S := Eq) (fun _ => rfl) w hle
  exact (body.run_below (fun _ => rfl) hcall hle).eq hr

theorem evaluate_eq_ok {body : Body} {fuel : Nat} {globals globals₁ : Store} {host host₁ : σ}
    {v? : Option Value} :
    evaluate w fuel body globals host = ⟨.ok v?, globals₁, host₁⟩ ↔
      ∃ flow m₁, body.run w (Run.call w fuel) fuel ⟨globals, [], none, host⟩ = .ok flow m₁ ∧
        (∀ l, flow ≠ .jump l) ∧ m₁.last? = v? ∧ m₁.globals = globals₁ ∧ m₁.host = host₁ := by
  unfold evaluate Run.main
  rw [Run.bind_apply]
  cases body.run w (Run.call w fuel) fuel ⟨globals, [], none, host⟩ with
  | error e m₁ => simp
  | ok flow m₁ =>
    cases flow with
    | jump l => simp
    | normal => simp [Run.bind_apply, Outcome.mk.injEq]
    | returned v? => simp [Run.bind_apply, Outcome.mk.injEq]

theorem settles_evaluate {body : Body} {globals globals₁ : Store} {host host₁ : σ}
    {v? : Option Value} :
    Outcome.Settles (fun fuel => evaluate w fuel body globals host) ⟨.ok v?, globals₁, host₁⟩ ↔
      ∃ flow m₁, Run.Settles (fun fuel => body.run w (Run.call w fuel) fuel) ⟨globals, [], none, host⟩
          (.ok flow m₁) ∧
        (∀ l, flow ≠ .jump l) ∧ m₁.last? = v? ∧ m₁.globals = globals₁ ∧ m₁.host = host₁ := by
  constructor
  · rintro ⟨-, n, hn⟩
    obtain ⟨flow, m₁, hrun, hflow⟩ := evaluate_eq_ok.1 (hn n le_rfl)
    exact ⟨flow, m₁, settles hrun (Run.finished_ok _ _), hflow⟩
  · rintro ⟨flow, m₁, ⟨-, n, hn⟩, hflow⟩
    refine ⟨by simp, n, fun fuel hle => ?_⟩
    exact evaluate_eq_ok.2 ⟨flow, m₁, hn fuel hle, hflow⟩

theorem run_structured (ss : List Typed.Stmt) (call : Calls σ) (fuel : Nat) :
    (Body.structured ss).run w call fuel = (Typed.Stmt.block ss).run w call fuel := by
  rw [Typed.Stmt.run]
  rfl

/-- Statements without returns come to the same end as their code, if their values stay together. -/
theorem settles_structured_iff {ss : List Typed.Stmt} {n : Nat} (hshape : Checking.Shaped [] 0 (.block ss) n)
    (hreturn : Typed.Stmt.hasReturnList ss = false) (hvalue : Typed.Stmt.sameValueList true ss = true)
    {flow : Flow} {m₁ : Machine σ} :
    Run.Settles (fun fuel => (Body.structured ss).run w (Run.call w fuel) fuel) m (.ok flow m₁) ↔
      Run.Settles (fun fuel => (Body.flat (Typed.Stmt.block ss).lower).run w (Run.call w fuel) fuel) m
        (.ok flow m₁) := by
  simp only [run_structured]
  have hright : ∀ {flow : Flow} {m₁ : Machine σ},
      Run.Settles (fun fuel => (Typed.Stmt.block ss).run w (Run.call w fuel) fuel) m (.ok flow m₁) →
        Run.Settles (fun fuel => (Body.flat (Typed.Stmt.block ss).lower).run w (Run.call w fuel) fuel) m
          (.ok flow m₁) := by
    intro flow m₁ h
    obtain ⟨-, k, hk⟩ := id h
    have hrun : (Typed.Stmt.block ss).run w (Run.call w k) k m = .ok flow m₁ := hk k le_rfl
    have hnormal : flow = .normal := by
      cases flow with
      | normal => rfl
      | returned v? =>
        exact absurd rfl (Typed.Stmt.gives_stays (s := .block ss) hreturn k m _ m₁ hrun v?)
      | jump l => cases hshape.jumps.gives_run k m _ m₁ hrun l rfl
    subst hnormal
    exact hshape.jumps.settles_lower hshape.numbered hvalue h
  refine ⟨hright, fun h => ?_⟩
  rcases hshape.jumps.sameBehaviour_lower (w := w) hshape.numbered m with
    ⟨-, hdiverges⟩ | ⟨r, r', hr, hr', hagree⟩
  · obtain ⟨hfin, k, hk⟩ := h
    exact absurd ((hk k le_rfl).symm ▸ hfin) (hdiverges k)
  · obtain rfl : r' = .ok flow m₁ := hr'.unique h
    cases hagree with
    | ok hflow _ =>
      subst hflow
      rw [← (hright hr).unique h]
      exact hr

end Body

theorem Submission.settles_structured_iff (options : Options) (symbols : SymbolTable) (earlier : Lineage)
    (syntaxErrors : List Diagnostic) (ss : List Surface.Stmt) :
    let s := (Submission.ofScript options symbols earlier syntaxErrors ss).1
    Typed.Stmt.sameValueList true s.globals.statements = true →
      ∀ (host : Host σ) (t : SymbolTable) (l : Lineage) (globals : Store) (state : σ)
        (v? : Option Value) (globals₁ : Store) (state₁ : σ),
        Outcome.Settles (fun fuel => s.evaluate host t l .structured fuel globals state)
            ⟨.ok v?, globals₁, state₁⟩ ↔
          Outcome.Settles (fun fuel => s.evaluate host t l .flat fuel globals state)
            ⟨.ok v?, globals₁, state₁⟩ := by
  intro s hvalue host t l globals state v? globals₁ state₁
  unfold Submission.evaluate
  by_cases hclean : s.diagnostics.isEmpty
  · obtain ⟨n, hshape⟩ := Checking.shaped_globals options symbols (Lineage.scope symbols earlier) ss
    have hglobals : s.globals.diagnostics = [] := by
      have hnil : s.syntaxErrors ++ s.globals.diagnostics ++ s.bodyDiagnostics = [] :=
        List.isEmpty_iff.1 hclean
      exact (List.append_eq_nil_iff.1 (List.append_eq_nil_iff.1 hnil).1).2
    have hreturn := Checking.hasReturn_globals hglobals
    simp only [if_pos hclean]
    rw [Body.settles_evaluate, Body.settles_evaluate]
    refine exists₂_congr fun flow m₁ => and_congr_left fun _ => ?_
    exact Body.settles_structured_iff hshape hreturn hvalue
  · simp only [if_neg hclean]

/-- What a submission comes to with some fuel is what it settles on. -/
theorem Submission.settles_of_evaluate {host : Host σ} {t : SymbolTable} {s : Submission} {l : Lineage}
    {form : Form} {fuel : Nat} {globals : Store} {state : σ} {v? : Option Value} :
    let outcome := fun fuel => s.evaluate host t l form fuel globals state
    (outcome fuel).result = .ok v? →
      Outcome.Settles outcome ⟨.ok v?, (outcome fuel).globals, (outcome fuel).host⟩ := by
  intro outcome hresult
  have heq : outcome fuel = ⟨.ok v?, (outcome fuel).globals, (outcome fuel).host⟩ := by rw [← hresult]
  generalize (outcome fuel).globals = globals₁, (outcome fuel).host = state₁ at heq
  by_cases hclean : s.diagnostics.isEmpty
  · have hevaluate : outcome =
        fun fuel => Scripting.evaluate (Lineage.setting host t (s :: l)) fuel (s.body form) globals state :=
      funext fun _ => if_pos hclean
    rw [hevaluate] at heq ⊢
    obtain ⟨flow, m₁, hrun, hflow⟩ := Body.evaluate_eq_ok.1 heq
    exact Body.settles_evaluate.2 ⟨flow, m₁, Body.settles hrun (Run.finished_ok _ _), hflow⟩
  · have hevaluate : outcome = fun _ => ⟨.ok none, globals, state⟩ := funext fun _ => if_neg hclean
    rw [hevaluate] at heq ⊢
    exact ⟨by simp, 0, fun _ _ => heq⟩

/-- **The forms have the same value**, unless a `for` loop has the last word. They do if there is no `for`
loop in the global code of a submission, or if it ends in an expression or a declaration. Then the one form
ends without an error exactly if the other does, with the same value, the same variables and the same host. -/
theorem forms_have_same_value (options : Options) (symbols : SymbolTable) (earlier : Lineage)
    (source file : String) :
    let s := (compile options symbols earlier source file).1
    (Typed.Stmt.hasForList s.globals.statements = false ∨
        (∃ i, s.globals.statements.getLast? = some (.instr i) ∧ i.HasValue) →
      Typed.Stmt.sameValueList true s.globals.statements = true) ∧
    (Typed.Stmt.sameValueList true s.globals.statements = true →
      ∀ {σ : Type} (host : Host σ) (t : SymbolTable) (l : Lineage) (globals : Store) (state : σ)
        (v? : Option Value) (globals₁ : Store) (state₁ : σ),
        Outcome.Settles (fun fuel => s.evaluate host t l .structured fuel globals state)
            ⟨.ok v?, globals₁, state₁⟩ ↔
          Outcome.Settles (fun fuel => s.evaluate host t l .flat fuel globals state)
            ⟨.ok v?, globals₁, state₁⟩) := by
  intro s
  constructor
  · rintro (hfor | ⟨i, hlast, hvalue⟩)
    · exact (Typed.Stmt.sameValue_of_hasFor (s := .block s.globals.statements) hfor).1
    · obtain ⟨front, heq⟩ := List.getLast?_eq_some_iff.1 hlast
      rw [heq]
      exact Typed.Stmt.sameValueList_of_hasValue hvalue true front
  · obtain ⟨syntaxErrors, ss, hscript⟩ : ∃ syntaxErrors ss,
        s = (Submission.ofScript options symbols earlier syntaxErrors ss).1 := by
      unfold s compile
      split
      · exact ⟨_, _, rfl⟩
      · exact ⟨_, _, rfl⟩
    rw [hscript]
    intro hvalue σ
    exact Submission.settles_structured_iff options symbols earlier syntaxErrors ss hvalue

/-- Adds up some numbers in a `for` loop, and then tells the sum. -/
def addingUp : Submission × SymbolTable :=
  compile .standard .initial [] "var sum = 0; for (var i = 1; i < 4; i += 1) \x7b sum += i; \x7d sum" "adding"

/-- The sum is the value of both forms. -/
theorem addingUp_has_same_value :
    let outcome (form : Form) (fuel : Nat) : Outcome Recording :=
      addingUp.1.evaluate Recording.host addingUp.2 [] form fuel .empty (.ofAnswers [] [])
    (Typed.Stmt.hasForList addingUp.1.globals.statements = true ∧
        Typed.Stmt.sameValueList true addingUp.1.globals.statements = true) ∧
      ∃ globals₁ state₁, Outcome.Settles (outcome .structured) ⟨.ok (some (.int 6)), globals₁, state₁⟩ ∧
        Outcome.Settles (outcome .flat) ⟨.ok (some (.int 6)), globals₁, state₁⟩ := by
  intro outcome
  obtain ⟨hfor, hvalue, hresult⟩ : Typed.Stmt.hasForList addingUp.1.globals.statements = true ∧
      Typed.Stmt.sameValueList true addingUp.1.globals.statements = true ∧
      (outcome .structured 100).result = .ok (some (.int 6)) := by decide +kernel
  have hsettles : Outcome.Settles (outcome .structured) _ := Submission.settles_of_evaluate hresult
  have hsame := (forms_have_same_value .standard .initial []
    "var sum = 0; for (var i = 1; i < 4; i += 1) \x7b sum += i; \x7d sum" "adding").2 hvalue Recording.host
  exact ⟨⟨hfor, hvalue⟩, _, _, hsettles, (hsame _ _ _ _ _ _ _).1 hsettles⟩

/-- Counts in a `for` loop, with a statement in it that has a value. -/
def counting : Submission × SymbolTable :=
  compile .standard .initial [] "for (var i = 0; i < 3; i += 1) \x7b 5; \x7d" "counting"

/-- Its code ends with the value of the last increment, but the loop itself with that of the statement. -/
theorem counting_values_differ :
    counting.1.diagnostics.isEmpty = true ∧
      (counting.1.evaluate Recording.host counting.2 [] .flat 100 .empty (.ofAnswers [] [])).result =
        .ok (some (.int 3)) ∧
      (counting.1.evaluate Recording.host counting.2 [] .structured 100 .empty (.ofAnswers [] [])).result =
        .ok (some (.int 5)) := by
  decide +kernel

end Scripting
