import Scripting.Proofs.Graph.Pruning
import Scripting.Proofs.Run.Jumps
import Scripting.Proofs.Run.Instr

/-!
# Runs follow the flow graph

`Code.traced` runs code and writes down each passage of control from one block to another, with the
machine before and after the instruction that ends the block; without the record it is the run itself
(`traced_snd`). `Trace` says what such a record can be. Each passage is along an edge, whose condition
was true then (`Wired.follows`), and a run that comes to an end leaves along an edge to the exit
(`Trace.leaves`).
-/

namespace Scripting.Typed

variable {σ : Type}

/-- A passage of control from one block to another. -/
structure Passage (σ : Type) where
  source : Nat
  target : Nat
  /-- the machine before the last instruction of `source` -/
  before : Machine σ
  /-- the machine with which `target` is entered -/
  after : Machine σ

namespace Code

/-- The passage made by going on to the rest of a suffix: none inside a block. -/
def passage (code suffix rest : Code) (before after : Machine σ) : List (Passage σ) :=
  if blockOf code suffix = blockOf code rest then []
  else [⟨blockOf code suffix, blockOf code rest, before, after⟩]

/-- Runs what is left of the code, and records the passages between blocks. A jump enters the block
that its label opens. -/
def traced (w : Setting σ) (call : Calls σ) (code : Code) :
    Nat → Code → Machine σ → List (Passage σ) × EStateM.Result Halt (Machine σ) Flow
  | _, [], m => ([], .ok .normal m)
  | 0, _ :: _, m => ([], .error .outOfFuel m)
  | fuel + 1, i :: rest, m =>
    match i.run w call m with
    | .error e m' => ([], .error e m')
    | .ok (.returned v?) m' =>
      ([⟨blockOf code (i :: rest), blockOf code [], m, m'⟩], .ok (.returned v?) m')
    | .ok .normal m' =>
      let (passages, result) := traced w call code fuel rest m'
      (code.passage (i :: rest) rest m m' ++ passages, result)
    | .ok (.jump l) m' =>
      match Run.after? Instr.label? l code with
      | none => ([], .ok (.jump l) m')
      | some suffix =>
        let (passages, result) := traced w call code fuel suffix m'
        (⟨blockOf code (i :: rest), blockOf code (.label l :: suffix), m, m'⟩ ::
          code.passage (.label l :: suffix) suffix m' m' ++ passages, result)

/-- Recording passages does not change a run. -/
theorem traced_snd (w : Setting σ) (call : Calls σ) (code : Code) :
    ∀ (fuel : Nat) (suffix : Code) (m : Machine σ),
      (traced w call code fuel suffix m).2 =
        Run.steps Instr.label? (Instr.run w call) code fuel suffix m := by
  intro fuel
  induction fuel with
  | zero => intro suffix m; cases suffix <;> rfl
  | succ fuel ih =>
    intro suffix m
    cases suffix with
    | nil => rfl
    | cons i rest =>
      rw [traced, Run.steps, Run.bind_apply]
      cases i.run w call m with
      | error e m' => rfl
      | ok flow m' =>
        cases flow with
        | normal => exact ih rest m'
        | returned v? => rfl
        | jump l =>
          simp only
          cases Run.after? Instr.label? l code with
          | none => rfl
          | some suffix => exact ih suffix m'

/-- What is left of the code, and the machine, lead to the passages and to the result. -/
inductive Trace (w : Setting σ) (call : Calls σ) (code : Code) :
    Code → Machine σ → List (Passage σ) → EStateM.Result Halt (Machine σ) Flow → Prop
  | done (m) : Trace w call code [] m [] (.ok .normal m)
  | outOfFuel (i rest m) : Trace w call code (i :: rest) m [] (.error .outOfFuel m)
  | error {i rest m e m'} (hi : i.run w call m = .error e m') :
    Trace w call code (i :: rest) m [] (.error e m')
  | returned {i rest m v? m'} (hs : i :: rest <:+ code) (hi : i.run w call m = .ok (.returned v?) m') :
    Trace w call code (i :: rest) m [⟨blockOf code (i :: rest), blockOf code [], m, m'⟩]
      (.ok (.returned v?) m')
  | next {i rest m m' ps r} (hs : i :: rest <:+ code) (hi : i.run w call m = .ok .normal m')
    (h : Trace w call code rest m' ps r) :
    Trace w call code (i :: rest) m (code.passage (i :: rest) rest m m' ++ ps) r
  | jump {i rest m l m' suffix ps r} (hs : i :: rest <:+ code)
    (hi : i.run w call m = .ok (.jump l) m') (hl : Run.after? Instr.label? l code = some suffix)
    (h : Trace w call code suffix m' ps r) :
    Trace w call code (i :: rest) m
      (⟨blockOf code (i :: rest), blockOf code (.label l :: suffix), m, m'⟩ ::
        code.passage (.label l :: suffix) suffix m' m' ++ ps) r
  | lost (i rest m) {l m'} : Trace w call code (i :: rest) m [] (.ok (.jump l) m')

theorem trace_traced (w : Setting σ) (call : Calls σ) {code : Code} :
    ∀ (fuel : Nat) {suffix : Code} (m : Machine σ), suffix <:+ code →
      Trace w call code suffix m (code.traced w call fuel suffix m).1
        (code.traced w call fuel suffix m).2 := by
  intro fuel
  induction fuel with
  | zero =>
    intro suffix m hs
    cases suffix with
    | nil => exact .done m
    | cons i rest => exact .outOfFuel i rest m
  | succ fuel ih =>
    intro suffix m hs
    cases suffix with
    | nil => exact .done m
    | cons i rest =>
      rw [traced]
      cases hi : i.run w call m with
      | error e m' => exact .error hi
      | ok flow m' =>
        cases flow with
        | normal => exact .next hs hi (ih m' ((List.suffix_cons i rest).trans hs))
        | returned v? => exact .returned hs hi
        | jump l =>
          simp only
          cases hl : Run.after? Instr.label? l code with
          | none => exact .lost i rest m
          | some suffix =>
            obtain ⟨j, -, hsuffix, -⟩ := Run.after?_eq_some hl
            exact .jump hs hi hl (ih m' ((List.suffix_cons j suffix).trans hsuffix))

/-! ## Blocks and suffixes -/

/-- Going on by one instruction stays in the block, or leaves it for the next. -/
theorem blockOf_cons {code : Code} {i : Instr} {rest : Code} (h : i :: rest <:+ code) :
    (runs (i :: rest) = [i] :: runs rest ∧ blockOf code rest = blockOf code (i :: rest) + 1) ∨
      blockOf code rest = blockOf code (i :: rest) := by
  unfold blockOf
  rcases runs_cons i rest with hc | ⟨r, rs, hr, hc, -, -⟩
  · obtain ⟨before, cut, hcode⟩ := runs_of_suffix h hc
    refine .inl ⟨hc, ?_⟩
    rw [hc, hcode]
    simp only [List.length_append, List.length_cons]
    omega
  · rw [hr, hc]
    exact .inr rfl

theorem exists_block {code suffix r : Code} {rs : List Code} (h : suffix <:+ code)
    (hr : runs suffix = r :: rs) :
    0 < blockOf code suffix ∧ ∃ cut, (runs code)[blockOf code suffix - 1]? = some (cut ++ r) := by
  obtain ⟨before, cut, hcode⟩ := runs_of_suffix h hr
  have hn : blockOf code suffix = before.length + 1 := by
    unfold blockOf
    rw [hcode, hr]
    simp only [List.length_append, List.length_cons]
    omega
  refine ⟨by omega, cut, ?_⟩
  rw [hn, hcode, Nat.add_sub_cancel]
  simp

end Code

/-! ## Guards -/

/-- A condition that was true leaves an edge, whose condition was true as well. -/
theorem FlowGraph.exists_keeps {w : Setting σ} {call : Calls σ} {c : Expr} {m m' : Machine σ}
    (h : c.holds w call m = .ok true m') :
    ∃ c?, Keeps (some c) c? ∧ ∀ guard, c? = some guard → guard.holds w call m = .ok true m' := by
  unfold Keeps
  rw [Option.bind_some]
  cases hc : c.constant? with
  | none => exact ⟨some c, rfl, fun guard hg => by cases hg; exact h⟩
  | some v =>
    cases v with
    | true => exact ⟨none, rfl, fun guard hg => by cases hg⟩
    | false =>
      rw [Expr.constant?_eq_some.1 hc, Expr.holds_literal] at h
      cases h

/-! ## Edges along which control passes -/

namespace FlowGraph

variable {w : Setting σ} {call : Calls σ} {code : Code} {u : FlowGraph}

/-- The passages start at `n`, each where the one before ended, and each is along an edge whose
condition was true. -/
def Follows (w : Setting σ) (call : Calls σ) (g : FlowGraph) : Nat → List (Passage σ) → Prop
  | _, [] => True
  | n, p :: ps =>
    p.source = n ∧
      (∃ e ∈ g.edges, e.source = p.source ∧ e.target = p.target ∧
        ∀ guard, e.condition? = some guard → guard.holds w call p.before = .ok true p.after) ∧
      Follows w call g p.target ps

/-- An edge for a passage: one without a condition, or with one that was true. -/
theorem follows_cons {n : Nat} {p : Passage σ} {ps : List (Passage σ)} {c? : Option Expr}
    (hn : p.source = n) (he : u.HasEdge p.source p.target c?)
    (hc : ∀ guard, c? = some guard → guard.holds w call p.before = .ok true p.after)
    (hps : Follows w call u p.target ps) : Follows w call u n (p :: ps) := by
  obtain ⟨e, he, hs, ht, rfl⟩ := he
  exact ⟨hn, ⟨e, he, hs, ht, hc⟩, hps⟩

theorem Follows.linked {p : Passage σ} {ps : List (Passage σ)} :
    ∀ {n : Nat}, Follows w call u n ps → p ∈ ps → u.Linked p.source p.target := by
  induction ps with
  | nil => intro n _ hp; cases hp
  | cons q ps ih =>
    rintro n ⟨-, ⟨e, he, hs, ht, -⟩, hps⟩ hp
    rcases List.mem_cons.1 hp with rfl | hp
    · exact ⟨e, he, hs, ht⟩
    · exact ih hps hp

/-- The edges that leave a block are those its last instruction calls for. -/
theorem Wired.hasEdge_of_leads (h : Wired code u) {i : Instr} {rest : Code} (hs : i :: rest <:+ code)
    (hr : Code.runs (i :: rest) = [i] :: Code.runs rest) {t : Nat} {c? : Option Expr}
    (hl : (⟨Code.blockOf code (i :: rest), .basic, [i], [], []⟩ : Block).Leads
      (ofRuns (Code.runs code)) t c?) :
    u.HasEdge (Code.blockOf code (i :: rest)) t c? := by
  obtain ⟨hpos, cut, hcut⟩ := Code.exists_block hs hr
  obtain ⟨b, hb, hid, hcode⟩ := mem_basicBlocks_iff.2
    (mem_skeleton_ofRuns.2 (.inr (.inl ⟨rfl, hpos, hcut⟩)))
  refine (h.hasEdge_iff _ t c?).2 (.inr ⟨b, hb, hid.symm, ?_⟩)
  unfold Block.Leads at hl ⊢
  rw [hcode, List.getLast?_append_of_ne_nil _ (List.cons_ne_nil i []), hid]
  exact hl

/-- A jump enters the block that its label opens. -/
theorem labelled_of_after {l : Label} {suffix : Code}
    (h : Run.after? Instr.label? l code = some suffix) :
    (ofRuns (Code.runs code)).labelled l = .ok (Code.blockOf code (.label l :: suffix)) ∧
      .label l :: suffix <:+ code := by
  obtain ⟨i, hi, hs, hnot⟩ := Run.after?_eq_some h
  obtain rfl := Instr.label?_eq_some.1 hi
  refine ⟨?_, hs⟩
  obtain ⟨r, rs, hr, hhead⟩ : ∃ r rs, Code.runs (.label l :: suffix) = (.label l :: r) :: rs ∧
      ∀ q ∈ rs, q ∈ Code.runs suffix := by
    rcases Code.runs_cons (.label l) suffix with hc | ⟨r, rs, hr, hc, -, -⟩
    · exact ⟨[], _, hc, fun q hq => hq⟩
    · exact ⟨r, rs, hc, fun q hq => hr ▸ List.mem_cons_of_mem _ hq⟩
  obtain ⟨before, cut, hcode⟩ := Code.runs_of_suffix hs hr
  have hpiece : cut ++ .label l :: r ∈ Code.runs code := by
    rw [hcode]
    exact List.mem_append_right _ List.mem_cons_self
  -- a label stands first in its piece, so nothing is cut off
  have hcut : cut = [] := by
    cases cut with
    | nil => rfl
    | cons j cut =>
      have := Code.label_first hpiece (.label l) (by simp)
      cases this
  subst hcut
  have hn : Code.blockOf code (.label l :: suffix) = before.length + 1 := by
    unfold Code.blockOf
    rw [hcode, hr]
    simp only [List.length_append, List.length_cons]
    omega
  rw [hn, hcode]
  refine labelled_ofRuns rfl fun q hq hl => ?_
  have hmem : Instr.label l ∈ suffix := by
    rw [← Code.flatten_runs suffix]
    exact List.mem_flatten_of_mem (hhead q hq) (List.mem_of_head? hl)
  exact hnot _ hmem rfl

/-- Going on by one instruction follows the graph. -/
theorem Wired.follows_passage (h : Wired code u) {i : Instr} {rest : Code} (hs : i :: rest <:+ code)
    {m m' : Machine σ} (hi : i.run w call m = .ok .normal m') {ps : List (Passage σ)}
    (hps : Follows w call u (Code.blockOf code rest) ps) :
    Follows w call u (Code.blockOf code (i :: rest)) (code.passage (i :: rest) rest m m' ++ ps) := by
  unfold Code.passage
  rcases Code.blockOf_cons hs with ⟨hr, hnext⟩ | hsame
  · rw [if_neg (by omega), List.singleton_append]
    rcases Instr.run_eq_normal hi with hc | ⟨l, c, on, rfl, hc⟩
    · have hl : (⟨Code.blockOf code (i :: rest), .basic, [i], [], []⟩ : Block).Leads
          (ofRuns (Code.runs code)) (Code.blockOf code rest) none := by
        cases i with
        | eval e => exact ⟨hnext, rfl⟩
        | declare x e => exact ⟨hnext, rfl⟩
        | label l => exact ⟨hnext, rfl⟩
        | _ => cases hc
      exact follows_cons rfl (h.hasEdge_of_leads hs hr hl) (fun guard hg => by cases hg) hps
    · -- not taken: the condition had the other value
      obtain ⟨c?, hk, hguard⟩ := exists_keeps (w := w)
        (show (if on then c.negate else c).holds w call m = .ok true m' by
          cases on with
          | true => exact Expr.holds_negate hc
          | false => exact hc)
      exact follows_cons rfl (h.hasEdge_of_leads hs hr (.inr ⟨hnext, hk⟩)) hguard hps
  · rw [if_pos hsame.symm, List.nil_append, ← hsame]
    exact hps

/-- A jump follows the graph into the block of its label. -/
theorem Wired.follows_jump (h : Wired code u) {i : Instr} {rest suffix : Code} (hs : i :: rest <:+ code)
    {l : Label} {m m' : Machine σ} (hi : i.run w call m = .ok (.jump l) m')
    (hl : Run.after? Instr.label? l code = some suffix) {ps : List (Passage σ)}
    (hps : Follows w call u (Code.blockOf code suffix) ps) :
    Follows w call u (Code.blockOf code (i :: rest))
      (⟨Code.blockOf code (i :: rest), Code.blockOf code (.label l :: suffix), m, m'⟩ ::
        code.passage (.label l :: suffix) suffix m' m' ++ ps) := by
  obtain ⟨htarget, hsuffix⟩ := labelled_of_after hl
  have htail : Follows w call u (Code.blockOf code (.label l :: suffix))
      (code.passage (.label l :: suffix) suffix m' m' ++ ps) :=
    h.follows_passage hsuffix rfl hps
  rw [List.cons_append]
  rcases Instr.run_eq_jump hi with ⟨rfl, -⟩ | ⟨c, on, rfl, hc⟩
  · have hr := Code.runs_cons_of_closes (i := .jump l) rfl rest
    exact follows_cons rfl (h.hasEdge_of_leads hs hr ⟨htarget, rfl⟩) (fun guard hg => by cases hg) htail
  · -- taken: the condition had the value that is asked for
    have hr := Code.runs_cons_of_closes (i := .branch l c on) rfl rest
    obtain ⟨c?, hk, hguard⟩ := exists_keeps (w := w)
      (show (if on then c else c.negate).holds w call m = .ok true m' by
        cases on with
        | true => exact hc
        | false => exact Expr.holds_negate hc)
    exact follows_cons rfl (h.hasEdge_of_leads hs hr (.inl ⟨htarget, hk⟩)) hguard htail

/-- A return follows the graph to the exit. -/
theorem Wired.follows_return (h : Wired code u) {i : Instr} {rest : Code} (hs : i :: rest <:+ code)
    {v? : Option Value} {m m' : Machine σ} (hi : i.run w call m = .ok (.returned v?) m') :
    Follows w call u (Code.blockOf code (i :: rest))
      [⟨Code.blockOf code (i :: rest), Code.blockOf code [], m, m'⟩] := by
  obtain ⟨e?, rfl⟩ := Instr.run_eq_returned hi
  have hr := Code.runs_cons_of_closes (i := .ret e?) rfl rest
  exact follows_cons rfl (h.hasEdge_of_leads hs hr ⟨Code.blockOf_nil, rfl⟩)
    (fun guard hg => by cases hg) trivial

/-- **Runs follow the graph.** What is left of a run passes along edges whose conditions are true. -/
theorem Wired.follows (h : Wired code u) {suffix : Code} {m : Machine σ} {ps : List (Passage σ)}
    {r : EStateM.Result Halt (Machine σ) Flow} (ht : Code.Trace w call code suffix m ps r) :
    Follows w call u (Code.blockOf code suffix) ps := by
  induction ht with
  | done | outOfFuel | error | lost => trivial
  | returned hs hi => exact h.follows_return hs hi
  | next hs hi _ ih => exact h.follows_passage hs hi ih
  | jump hs hi hl _ ih => exact h.follows_jump hs hi hl ih

/-- Passages from blocks that stay follow the pruned graph too. -/
theorem Rooted.follows_prune (h : u.Rooted) {ps : List (Passage σ)} :
    ∀ {n : Nat}, u.Fed n → Follows w call u n ps → Follows w call u.prune n ps := by
  induction ps with
  | nil => intros; trivial
  | cons p ps ih =>
    rintro n hn ⟨rfl, ⟨e, he, hs, ht, hc⟩, hps⟩
    have hedge : u.HasEdge p.source p.target e.condition? := ⟨e, he, hs, ht, rfl⟩
    exact follows_cons rfl (h.hasEdge_prune hn hedge) hc (ih (hn.step hedge.linked) hps)

end FlowGraph

/-! ## Leaving the code -/

namespace Code

variable {w : Setting σ} {call : Calls σ} {code : Code}

/-- Where passages that start at `n` end. -/
def endOf (n : Nat) (ps : List (Passage σ)) : Nat := (ps.getLast?.map (·.target)).getD n

theorem endOf_append (n : Nat) (ps qs : List (Passage σ)) :
    endOf n (ps ++ qs) = endOf (endOf n ps) qs := by
  unfold endOf
  cases qs with
  | nil => simp
  | cons q qs => rw [List.getLast?_append_of_ne_nil _ (List.cons_ne_nil q qs), List.getLast?_cons]; rfl

theorem endOf_cons (n : Nat) (p : Passage σ) (ps : List (Passage σ)) :
    endOf n (p :: ps) = endOf p.target ps := endOf_append n [p] ps

theorem endOf_passage (suffix rest : Code) (m m' : Machine σ) :
    endOf (blockOf code suffix) (code.passage suffix rest m m') = blockOf code rest := by
  unfold passage endOf
  by_cases h : blockOf code suffix = blockOf code rest
  · rw [if_pos h]
    exact h
  · rw [if_neg h]
    rfl

/-- A run that comes to its end, by a return or not, has passed to the exit. -/
theorem Trace.leaves {suffix : Code} {m : Machine σ} {ps : List (Passage σ)}
    {r : EStateM.Result Halt (Machine σ) Flow} (ht : Trace w call code suffix m ps r) {flow : Flow}
    {m' : Machine σ} (hr : r = .ok flow m') (hf : ∀ l, flow ≠ .jump l) :
    endOf (blockOf code suffix) ps = blockOf code [] := by
  induction ht with
  | done | returned => rfl
  | outOfFuel | error => cases hr
  | next hs hi _ ih =>
    rw [endOf_append, endOf_passage]
    exact ih hr
  | jump hs hi hl _ ih =>
    rw [List.cons_append, endOf_cons, endOf_append, endOf_passage]
    exact ih hr
  | lost =>
    cases hr
    exact absurd rfl (hf _)

/-- Block `n` of the code ends in an instruction that is no return. -/
def EndsOpen (code : Code) (n : Nat) : Prop :=
  0 < n ∧ ∃ front i, (runs code)[n - 1]? = some (front ++ [i]) ∧ ∀ e?, i ≠ .ret e?

/-- A block that control leaves at an instruction without returning ends in no return. -/
theorem endsOpen_of_run {i : Instr} {rest : Code} (hs : i :: rest <:+ code)
    (hr : runs (i :: rest) = [i] :: runs rest) {flow : Flow} {m m' : Machine σ}
    (hi : i.run w call m = .ok flow m') (hflow : ∀ v?, flow ≠ .returned v?) :
    code.EndsOpen (blockOf code (i :: rest)) := by
  obtain ⟨hpos, cut, hcut⟩ := exists_block hs hr
  refine ⟨hpos, cut, i, hcut, ?_⟩
  rintro e? rfl
  obtain ⟨v?, hv⟩ := Instr.run_ret hi
  exact hflow v? hv

theorem endsOpen_of_mem_passage {i : Instr} {rest : Code} {m m' m₁ m₂ : Machine σ}
    (hs : i :: rest <:+ code) (hi : i.run w call m = .ok .normal m') {p : Passage σ}
    (hp : p ∈ code.passage (i :: rest) rest m₁ m₂) : code.EndsOpen p.source := by
  unfold passage at hp
  rcases blockOf_cons hs with ⟨hr, hnext⟩ | hsame
  · rw [if_neg (by omega), List.mem_singleton] at hp
    subst hp
    exact endsOpen_of_run hs hr hi nofun
  · rw [if_pos hsame.symm] at hp
    cases hp

/-- Before control falls off the end, it never leaves a block by a return. -/
theorem Trace.endsOpen {suffix : Code} {m : Machine σ} {ps : List (Passage σ)}
    {r : EStateM.Result Halt (Machine σ) Flow} (ht : Trace w call code suffix m ps r) {m' : Machine σ}
    (hr : r = .ok .normal m') : ∀ p ∈ ps, code.EndsOpen p.source := by
  induction ht with
  | done | outOfFuel | error | lost => exact List.forall_mem_nil _
  | returned => cases hr
  | next hs hi _ ih => exact List.forall_mem_append.2 ⟨fun _ => endsOpen_of_mem_passage hs hi, ih hr⟩
  | @jump i rest m₀ l m₁ suffix ps r hs hi hl _ ih =>
    have hlabel := (FlowGraph.labelled_of_after hl).2
    have hc : i.closes = true := by
      rcases Instr.run_eq_jump hi with ⟨rfl, -⟩ | ⟨c, on, rfl, -⟩ <;> rfl
    have hleft : code.EndsOpen (blockOf code (i :: rest)) :=
      endsOpen_of_run hs (runs_cons_of_closes hc rest) hi nofun
    have hrun : (Instr.label l).run w call m₁ = .ok .normal m₁ := rfl
    have hentered : ∀ p ∈ code.passage (.label l :: suffix) suffix m₁ m₁, code.EndsOpen p.source :=
      fun _ => endsOpen_of_mem_passage hlabel hrun
    exact List.forall_mem_append.2 ⟨List.forall_mem_cons.2 ⟨hleft, hentered⟩, ih hr⟩

/-- Every passage of a run, from the entry on. -/
def journey (w : Setting σ) (call : Calls σ) (code : Code) (fuel : Nat) (m : Machine σ) :
    List (Passage σ) :=
  ⟨0, 1, m, m⟩ :: (code.traced w call fuel code m).1

theorem journey_follows {u : FlowGraph} (h : FlowGraph.Wired code u) (w : Setting σ)
    (call : Calls σ) (fuel : Nat) (m : Machine σ) :
    u.prune.Follows w call 0 (code.journey w call fuel m) := by
  refine h.rooted.follows_prune (.inl .refl) ?_
  refine FlowGraph.follows_cons rfl ((h.hasEdge_iff 0 1 none).2 (.inl ⟨rfl, rfl, rfl⟩))
    (fun guard hg => by cases hg) ?_
  have := h.follows (trace_traced w call fuel m (List.suffix_refl code))
  rwa [blockOf_self] at this

/-- The last passage of a run that comes to its end is to the exit. -/
theorem journey_leaves (fuel : Nat) (m : Machine σ) {flow : Flow} {m' : Machine σ}
    (h : code.run w call fuel m = .ok flow m') (hf : ∀ l, flow ≠ .jump l) :
    ∃ p, (code.journey w call fuel m).getLast? = some p ∧ p.target = (runs code).length + 1 := by
  unfold Code.run at h
  rw [← traced_snd] at h
  have hend := (trace_traced w call fuel m (List.suffix_refl code)).leaves h hf
  rw [blockOf_self, blockOf_nil] at hend
  unfold journey
  rw [List.getLast?_cons]
  refine ⟨_, rfl, ?_⟩
  unfold endOf at hend
  rw [← hend]
  cases (code.traced w call fuel code m).1.getLast? <;> rfl

/-- The blocks of the pruned graph hold the runs of the code. -/
theorem code_of_mem_prune {u : FlowGraph} (h : FlowGraph.Wired code u) {b : Block}
    (hb : b ∈ u.prune.blocks) : (b.id = 0 ∧ b.code = []) ∨
      (0 < b.id ∧ (runs code)[b.id - 1]? = some b.code) ∨ b.id = (runs code).length + 1 := by
  have hm : (b.id, b.kind, b.code) ∈ u.skeleton :=
    (FlowGraph.pruned_prune h.wellFormed).skeleton _ (List.mem_map_of_mem hb)
  rw [h.skeleton, FlowGraph.mem_skeleton_ofRuns] at hm
  rcases hm with ⟨h0, -, hc⟩ | ⟨-, hpos, hr⟩ | ⟨hn, -, -⟩
  · exact .inl ⟨h0, hc⟩
  · exact .inr (.inl ⟨hpos, hr⟩)
  · exact .inr (.inr hn)

/-- Where all paths return, control does not fall off the end. -/
theorem not_normal_of_allPathsReturn (h : code.Closed) (hr : code.allPathsReturn = true)
    (w : Setting σ) (call : Calls σ) (fuel : Nat) (m m' : Machine σ) :
    code.run w call fuel m ≠ .ok .normal m' := by
  intro hrun
  obtain ⟨u, hw, hu⟩ := FlowGraph.exists_wired h
  have hp := FlowGraph.pruned_prune hu.wellFormed
  have hstop : u.prune.stop = (runs code).length + 1 := hp.stop.trans hu.stop
  unfold allPathsReturn at hr
  rw [FlowGraph.ofCode_eq hw] at hr
  have hall := (hp.wellFormed.allPathsReturn_iff hu.stop_mem_prune).1 hr
  -- the last passage is to the exit, so it comes from a block that returns
  obtain ⟨p, hlast, htarget⟩ := journey_leaves fuel m hrun (fun l hl => by cases hl)
  have hmem := List.mem_of_getLast? hlast
  have hlink := (journey_follows hu w call fuel m).linked hmem
  obtain ⟨b, hb, hid⟩ : ∃ b ∈ u.prune.blocks, b.id = p.source := by
    obtain ⟨e, he, hs, -⟩ := hlink
    obtain ⟨b, hb, hid⟩ := List.mem_map.1 (hp.wellFormed.source_mem e he)
    exact ⟨b, hb, hid.trans hs⟩
  have hret : b.returns = true := hall b hb (by rw [hid, hstop, ← htarget]; exact hlink)
  unfold Block.returns at hret
  -- but control leaves the entry and the blocks of this run without a return
  rcases List.mem_cons.1 hmem with rfl | hmem
  · rcases code_of_mem_prune hu hb with ⟨-, hc⟩ | ⟨hpos, -⟩ | hn
    · rw [hc] at hret
      cases hret
    · simp only at hid
      omega
    · simp only at hid
      omega
  · unfold Code.run at hrun
    rw [← traced_snd] at hrun
    obtain ⟨hpos, front, i, hi, hopen⟩ :=
      (trace_traced w call fuel m (List.suffix_refl code)).endsOpen hrun p hmem
    have hlt := (List.getElem?_eq_some_iff.1 hi).1
    rcases code_of_mem_prune hu hb with ⟨h0, -⟩ | ⟨-, hc⟩ | hn
    · omega
    · rw [hid, hi, Option.some.injEq] at hc
      rw [← hc, List.getLast?_append_of_ne_nil _ (List.cons_ne_nil i []), List.getLast?_singleton] at hret
      cases i with
      | ret e? => exact hopen e? rfl
      | _ => cases hret
    · omega

/-- Code whose jumps have their labels answers its jumps itself. -/
theorem Closed.run_ne_jump (h : code.Closed) (w : Setting σ) (call : Calls σ) (fuel : Nat)
    (m m' : Machine σ) (l : Label) : code.run w call fuel m ≠ .ok (.jump l) m' := by
  let Q : Flow → Prop := fun flow => ∀ k, flow = .jump k → Run.after? Instr.label? k code ≠ none
  refine Run.steps_rule (S := fun x => ∀ m m', x m ≠ .ok (.jump l) m') (Q := Q) nofun ?_ ?_ ?_ fuel
    (List.Subset.refl code) m m'
  · intro m m' hrun
    cases hrun
  · intro flow hflow hnone m m' hrun
    cases hrun
    exact hflow l rfl (hnone l rfl)
  · intro i hi next hnext m m' hrun
    obtain ⟨flow, m₁, hflow, hrun⟩ := Run.bind_eq_ok.1 hrun
    refine hnext flow ?_ m₁ m' hrun
    rintro k rfl hnone
    have htarget : i.target? = some k := by
      rcases Instr.run_eq_jump hflow with ⟨rfl, -⟩ | ⟨c, on, rfl, -⟩ <;> rfl
    exact Run.after?_eq_none.1 hnone _ (h i hi k htarget) rfl

/-- **The flow graph over-approximates runs.** Every run of code, whatever it runs on, is a path of the
pruned graph from the entry: each passage between blocks is along an edge, whose condition, evaluated
where the block ends, was true; a run that comes to its end, by a return or not, leaves along an edge
to the exit. Where all paths return, no run falls off the end. -/
theorem runs_follow_flow_graph (code : Code) (h : code.Closed) :
    ∃ g, FlowGraph.ofCode code = .ok g ∧
      ∀ (w : Setting σ) (call : Calls σ) (fuel : Nat) (m : Machine σ),
        (code.traced w call fuel code m).2 = code.run w call fuel m ∧
        g.Follows w call 0 (code.journey w call fuel m) ∧
        (∀ m', (code.run w call fuel m = .ok .normal m' ∨
            ∃ v?, code.run w call fuel m = .ok (.returned v?) m') →
          ∃ p, (code.journey w call fuel m).getLast? = some p ∧ p.target = g.stop) ∧
        (code.allPathsReturn = true → ∀ m', code.run w call fuel m ≠ .ok .normal m') := by
  obtain ⟨u, hw, hu⟩ := FlowGraph.exists_wired h
  have hstop : u.prune.stop = (runs code).length + 1 :=
    (FlowGraph.pruned_prune hu.wellFormed).stop.trans hu.stop
  refine ⟨u.prune, FlowGraph.ofCode_eq hw, fun w call fuel m => ⟨?_, ?_, ?_, ?_⟩⟩
  · exact traced_snd w call code fuel code m
  · exact journey_follows hu w call fuel m
  · rw [hstop]
    rintro m' (hrun | ⟨v?, hrun⟩)
    · exact journey_leaves fuel m hrun (fun l hl => by cases hl)
    · exact journey_leaves fuel m hrun (fun l hl => by cases hl)
  · intro hr m'
    exact not_normal_of_allPathsReturn h hr w call fuel m m'

/-- Waits until variable 0 is false, then returns. -/
def waitLoop : Code :=
  [.label ⟨"again"⟩, .branch ⟨"again"⟩ (.name ⟨0⟩ .boolean) true, .ret none]

/-- Runs of a loop follow its graph, and do not fall off its end. -/
theorem waitLoop_follows_flow_graph :
    waitLoop.Closed ∧ waitLoop.allPathsReturn = true ∧
      ∃ g, FlowGraph.ofCode waitLoop = .ok g ∧
        ∀ (w : Setting Unit) (call : Calls Unit) (fuel : Nat) (m : Machine Unit),
          g.Follows w call 0 (waitLoop.journey w call fuel m) ∧
            ∀ m', waitLoop.run w call fuel m ≠ .ok .normal m' := by
  have hclosed : waitLoop.Closed := by simp [waitLoop, Closed, Instr.target?]
  have hreturns : waitLoop.allPathsReturn = true := by rfl
  obtain ⟨g, hg, h⟩ := runs_follow_flow_graph (σ := Unit) waitLoop hclosed
  exact ⟨hclosed, hreturns, g, hg, fun w call fuel m =>
    ⟨(h w call fuel m).2.1, (h w call fuel m).2.2.2 hreturns⟩⟩

end Code

end Scripting.Typed
