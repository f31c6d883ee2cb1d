import Scripting.Proofs.Run.Concatenation
import Scripting.Proofs.Run.Correspondence
import Scripting.Proofs.Run.Frames

/-!
# Outcomes

What evaluating a program comes to, given enough fuel (`Outcome.Settles`), is read off what its code settles
on. Of the value of the last statement before, an outcome shows at most the value.
-/

namespace Scripting

variable {σ : Type}

/-- What a run of global code leaves behind. -/
def Outcome.ofResult : Run.Result σ Flow → Outcome σ
  | .ok _ m => ⟨.ok m.last?, m.globals, m.host⟩
  | .error e m => ⟨.error e, m.globals, m.host⟩

/-- Given enough fuel, the evaluation has the outcome. -/
def Outcome.Settles (x : Nat → Outcome σ) (o : Outcome σ) : Prop :=
  o.result ≠ .error .outOfFuel ∧ ∃ n, ∀ fuel, n ≤ fuel → x fuel = o

/-- The variables, the host and errors are the same, and the values too if `valued`. -/
structure Outcome.Agrees (valued : Prop) (o o' : Outcome σ) : Prop where
  globals : o'.globals = o.globals
  host : o'.host = o.host
  error : ∀ e, o'.result = .error e ↔ o.result = .error e
  value : valued → o'.result = o.result

theorem Outcome.Agrees.symm {valued : Prop} {o o' : Outcome σ} (h : o.Agrees valued o') :
    o'.Agrees valued o where
  globals := h.globals.symm
  host := h.host.symm
  error e := (h.error e).symm
  value hv := (h.value hv).symm

theorem Outcome.Agrees.imp {p q : Prop} {o o' : Outcome σ} (h : o.Agrees p o') (hq : q → p) :
    o.Agrees q o' :=
  { h with value := fun hv => h.value (hq hv) }

/-- Both evaluations come to an end or neither does, and what they come to agrees. -/
structure Outcome.EndAlike (valued : Prop) (x y : Nat → Outcome σ) : Prop where
  right : ∀ o, Settles x o → ∃ o', Settles y o' ∧ o.Agrees valued o'
  left : ∀ o', Settles y o' → ∃ o, Settles x o ∧ o.Agrees valued o'

theorem Outcome.EndAlike.imp {p q : Prop} {x y : Nat → Outcome σ} (h : EndAlike p x y) (hq : q → p) :
    EndAlike q x y where
  right o ho := by
    obtain ⟨o', ho', hagrees⟩ := h.right o ho
    exact ⟨o', ho', hagrees.imp hq⟩
  left o' ho' := by
    obtain ⟨o, ho, hagrees⟩ := h.left o' ho'
    exact ⟨o, ho, hagrees.imp hq⟩

theorem Outcome.finished_iff {r : Run.Result σ Flow} :
    (ofResult r).result ≠ .error .outOfFuel ↔ Run.Finished r := by
  cases r with
  | ok flow m => exact ⟨fun _ => Run.finished_ok flow m, fun _ => nofun⟩
  | error e m => exact ⟨fun h => Run.finished_error.2 fun he => h (he ▸ rfl),
      fun h he => Run.finished_error.1 h (Except.error.inj he)⟩

/-- The outcome of running the code from the given variables and state of the host. -/
def Typed.Code.outcome (w : Setting σ) (code : Code) (globals : Store) (host : σ) (fuel : Nat) : Outcome σ :=
  .ofResult (code.run w (Run.call w fuel) fuel ⟨globals, [], none, host⟩)

/-- Code that answers its own jumps is evaluated by running it. -/
theorem Typed.Code.Closed.evaluate_eq {code : Code} (h : code.Closed) (w : Setting σ) (fuel : Nat)
    (globals : Store) (host : σ) :
    evaluate w fuel (.flat code) globals host = code.outcome w globals host fuel := by
  have hjump := h.run_ne_jump w (Run.call w fuel) fuel ⟨globals, [], none, host⟩
  have hbody : (Body.flat code).run w (Run.call w fuel) fuel = code.run w (Run.call w fuel) fuel := rfl
  unfold evaluate Run.main Code.outcome
  rw [Run.bind_apply, hbody]
  generalize code.run w (Run.call w fuel) fuel ⟨globals, [], none, host⟩ = r at hjump
  cases r with
  | error e m => rfl
  | ok flow m =>
    cases flow with
    | normal => rfl
    | returned v? => rfl
    | jump l => exact absurd rfl (hjump m l)

namespace Typed.Code

variable {w : Setting σ} {code code' front back : Code} {m m' : Machine σ} {globals : Store} {host : σ}

theorem settles_outcome {o : Outcome σ} :
    Outcome.Settles (code.outcome w globals host) o ↔
      ∃ r, code.Settles w ⟨globals, [], none, host⟩ r ∧ o = .ofResult r := by
  constructor
  · rintro ⟨hresult, n, hn⟩
    have ho : code.outcome w globals host n = o := hn n le_rfl
    rw [← ho] at hresult
    exact ⟨_, Code.settles rfl (Outcome.finished_iff.1 hresult), ho.symm⟩
  · rintro ⟨r, ⟨hfin, n, hn⟩, rfl⟩
    exact ⟨Outcome.finished_iff.2 hfin, n, fun fuel hle => congrArg Outcome.ofResult (hn fuel hle)⟩

/-- What the code comes to with some fuel is what it settles on. -/
theorem settles_of_outcome {fuel : Nat}
    (h : (code.outcome w globals host fuel).result ≠ .error .outOfFuel) :
    Outcome.Settles (code.outcome w globals host) (code.outcome w globals host fuel) :=
  settles_outcome.2 ⟨_, Code.settles rfl (Outcome.finished_iff.1 h), rfl⟩

/-- Code that differs in its labels only has the same outcome, whatever the fuel. -/
theorem Related.outcome_eq {L : Label → Label → Prop} (h : Code.Related .same L code code')
    (hw : Setting.Related .identity .same w w) (hL : Label.Paired L) :
    code'.outcome w globals host = code.outcome w globals host := by
  funext fuel
  have hrun := h.parallel_run hw (hw.call fuel) hL fuel ⟨globals, [], none, host⟩ _
    (Machine.renumbered_identity.2 rfl)
  unfold outcome
  generalize code.run w (Run.call w fuel) fuel _ = r, code'.run w (Run.call w fuel) fuel _ = r' at hrun
  cases hrun with
  | ok hm _ =>
    rw [Machine.renumbered_identity.1 hm]
    rfl
  | error hm e => rw [Machine.renumbered_identity.1 hm]

/-- Where global code comes to its end, no frame is left. -/
theorem Closed.settles_normal (h : code.Closed) (hret : ∀ e?, Instr.ret e? ∉ code) {v? : Option Value}
    {globals₁ : Store} {host₁ : σ}
    (ho : Outcome.Settles (code.outcome w globals host) ⟨.ok v?, globals₁, host₁⟩) :
    code.Settles w ⟨globals, [], none, host⟩ (.ok .normal ⟨globals₁, [], v?, host₁⟩) := by
  obtain ⟨r, hr, ho⟩ := settles_outcome.1 ho
  obtain ⟨-, n, hn⟩ := id hr
  have hrun : code.run w (Run.call w n) n ⟨globals, [], none, host⟩ = r := hn n le_rfl
  have hconfined := code.confined_run (w := w) (Run.confined_call w n) n ⟨globals, [], none, host⟩
  rw [hrun] at hconfined
  cases r with
  | error e m₁ => cases ho
  | ok flow m₁ =>
    obtain rfl := h.eq_normal hret hrun
    obtain ⟨globals', frames', last?', host'⟩ := m₁
    obtain rfl : frames' = [] := hconfined.nil rfl
    cases ho
    exact hr

/-- It matters at most to the value what the value of the last statement was before. -/
theorem Closed.settles_alike (h : code.Closed) (hret : ∀ e?, Instr.ret e? ∉ code)
    (hm : m.Alike Run.AnyLast m') {r : Run.Result σ Flow} (hr : code.Settles w m r) :
    ∃ r', code.Settles w m' r' ∧ (Outcome.ofResult r).Agrees code.EndsInValue (.ofResult r') := by
  obtain ⟨hfin, n, hn⟩ := hr
  have hrun : code.run w (Run.call w n) n m = r := hn n le_rfl
  have hcall := Run.call_below Run.AnyLast.refl w (le_refl n)
  have hagree := code.run_below Run.AnyLast.refl hcall le_rfl m m' hm (hrun ▸ hfin)
  have hfin' := hagree.finished.1 (hrun ▸ hfin)
  rw [hrun] at hagree
  generalize hrun' : code.run w (Run.call w n) n m' = r' at hagree hfin'
  refine ⟨r', Code.settles hrun' hfin', ?_⟩
  cases hagree with
  | @ok flow flow' m₁ m₁' hflow hm₁ =>
    subst hflow
    obtain rfl := h.eq_normal hret hrun
    refine ⟨hm₁.globals.symm, hm₁.host.symm, fun e => ⟨nofun, nofun⟩, fun hends => ?_⟩
    have hsame := hrun'.symm.trans (hends.run_eq hcall n hm hrun)
    cases hsame
    rfl
  | error hm₁ => exact ⟨hm₁.globals.symm, hm₁.host.symm, fun _ => Iff.rfl, fun _ => rfl⟩

/-! ## Code behind code -/

namespace Separate

theorem outcome_error (h : Separate front back) {e : Halt} {globals₁ : Store} {host₁ : σ}
    (hfront : Outcome.Settles (front.outcome w globals host) ⟨.error e, globals₁, host₁⟩) :
    Outcome.Settles (outcome w (front ++ back) globals host) ⟨.error e, globals₁, host₁⟩ := by
  obtain ⟨r, hr, ho⟩ := settles_outcome.1 hfront
  cases r with
  | ok flow m₁ => cases ho
  | error e₁ m₁ => exact settles_outcome.2 ⟨_, h.settles_error hr, ho⟩

/-- If the first piece ends without error, both end as the second does from there, or not at all. -/
theorem outcome_ok (h : Separate front back) (hret : ∀ e?, Instr.ret e? ∉ front ++ back)
    {v? : Option Value} {globals₁ : Store} {host₁ : σ}
    (hfront : Outcome.Settles (front.outcome w globals host) ⟨.ok v?, globals₁, host₁⟩) :
    Outcome.EndAlike back.EndsInValue (back.outcome w globals₁ host₁)
      (outcome w (front ++ back) globals host) := by
  have hret₁ : ∀ e?, Instr.ret e? ∉ front := fun e? he => hret e? (List.mem_append_left back he)
  have hret₂ : ∀ e?, Instr.ret e? ∉ back := fun e? he => hret e? (List.mem_append_right front he)
  have hr := h.front.settles_normal hret₁ hfront
  -- where the second piece is run alone, it starts without a last value
  have halike : (Machine.mk globals₁ [] none host₁).Alike Run.AnyLast ⟨globals₁, [], v?, host₁⟩ :=
    ⟨rfl, rfl, trivial, rfl⟩
  have halike' : (Machine.mk globals₁ [] v? host₁).Alike Run.AnyLast ⟨globals₁, [], none, host₁⟩ :=
    ⟨rfl, rfl, trivial, rfl⟩
  constructor
  · intro o hback
    obtain ⟨r₂, hr₂, rfl⟩ := settles_outcome.1 hback
    obtain ⟨r₂', hr₂', hagrees⟩ := h.back.settles_alike hret₂ halike hr₂
    exact ⟨_, settles_outcome.2 ⟨r₂', (h.settles_iff hr r₂').2 hr₂', rfl⟩, hagrees⟩
  · intro o' hboth
    obtain ⟨r₂', hr₂', rfl⟩ := settles_outcome.1 hboth
    obtain ⟨r₂, hr₂, hagrees⟩ := h.back.settles_alike hret₂ halike' ((h.settles_iff hr r₂').1 hr₂')
    exact ⟨_, settles_outcome.2 ⟨r₂, hr₂, rfl⟩, hagrees.symm⟩

end Separate

end Typed.Code

end Scripting
