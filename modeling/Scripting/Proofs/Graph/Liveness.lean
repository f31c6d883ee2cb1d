import Scripting.Proofs.Graph.Execution

/-!
# Live positions of code

Where control stands in a piece of code is what is left of it: a suffix. From each position control passes
to the next one or to a label (`Code.Passes`); a branch on a literal passes one way only. A position is live
if control can come to it from the beginning, or round and round without end (`Code.Live`). Liveness does not
mention blocks: the blocks that pruning leaves are those of live positions (`Wired.fed_iff_live`), all paths
return if the end of the code is not live (`Wired.allPathsReturn_prune_iff`), and what is left of the code
are the instructions at live positions (`Wired.code_prune`).
-/

namespace Scripting.Typed

/-! ## Passing from one instruction to another -/

/-- Control may go on behind the instruction. -/
def Instr.continues : Instr → Bool
  | jump _ | ret _ => false
  | branch _ c on => c.constant? ≠ some on
  | _ => true

/-- The label that the instruction jumps to, unless a literal keeps it from that. -/
def Instr.jumps? : Instr → Option Label
  | jump l => some l
  | branch l c on => if c.constant? = some !on then none else some l
  | _ => none

theorem Instr.continues_of_not_closes {i : Instr} (h : i.closes = false) : i.continues = true := by
  cases i with
  | jump | branch | ret => cases h
  | _ => rfl

theorem Instr.target?_of_jumps? {i : Instr} {l : Label} (h : i.jumps? = some l) : i.target? = some l := by
  cases i with
  | jump => exact h
  | branch l' c on =>
    change (if c.constant? = some !on then none else some l') = some l at h
    split at h
    · cases h
    · exact h
  | _ => cases h

theorem Expr.constant?_negate (c : Expr) : c.negate.constant? = c.constant?.map (!·) := by
  unfold Expr.negate
  cases hc : c.constant? <;> rfl

/-- An edge is made unless its condition is false for good. -/
theorem FlowGraph.exists_keeps_iff {c : Expr} : (∃ c?, Keeps (some c) c?) ↔ c.constant? ≠ some false := by
  unfold Keeps
  rw [Option.bind_some]
  cases c.constant? with
  | none => simp
  | some b => cases b <;> simp

namespace Code

/-- Control may pass from a position of the code to another. -/
inductive Passes (code : Code) : Code → Code → Prop
  | next {i rest} (h : i.continues = true) : Passes code (i :: rest) rest
  | jump {i rest l suffix} (h : i.jumps? = some l) (hl : Run.after? Instr.label? l code = some suffix) :
    Passes code (i :: rest) (.label l :: suffix)

/-- The positions are the beginning of the code, or control passes to them from others among them. -/
structure Carries (code : Code) (T : Code → Prop) : Prop where
  suffix : ∀ p, T p → p <:+ code
  entered : ∀ p, T p → p = code ∨ ∃ q, T q ∧ code.Passes q p

/-- Control can come to the position from the beginning of the code, or going round without end. -/
def Live (code p : Code) : Prop := ∃ T, code.Carries T ∧ T p

variable {code p q : Code}

theorem Passes.suffix (h : code.Passes q p) (hq : q <:+ code) : p <:+ code := by
  cases h with
  | next => exact (List.suffix_cons _ _).trans hq
  | jump _ hl =>
    obtain ⟨i, hi, hs, -⟩ := Run.after?_eq_some hl
    rwa [Instr.label?_eq_some.1 hi] at hs

theorem carries_live (code : Code) : code.Carries code.Live where
  suffix := by
    rintro p ⟨T, hT, hp⟩
    exact hT.suffix p hp
  entered := by
    rintro p ⟨T, hT, hp⟩
    rcases hT.entered p hp with h | ⟨q, hq, hpass⟩
    · exact .inl h
    · exact .inr ⟨q, ⟨T, hT, hq⟩, hpass⟩

theorem Live.suffix (h : code.Live p) : p <:+ code := (carries_live code).suffix p h

theorem Live.entered (h : code.Live p) : p = code ∨ ∃ q, code.Live q ∧ code.Passes q p :=
  (carries_live code).entered p h

theorem live_self (code : Code) : code.Live code := by
  refine ⟨(· = code), ⟨?_, fun p hp => .inl hp⟩, rfl⟩
  rintro p rfl
  exact List.suffix_refl p

/-- Control that comes to a position passes on from there. -/
theorem Live.pass (h : code.Live q) (hpass : code.Passes q p) : code.Live p := by
  refine ⟨fun r => code.Live r ∨ r = p, ⟨?_, ?_⟩, .inr rfl⟩
  · rintro r (hr | rfl)
    · exact hr.suffix
    · exact hpass.suffix h.suffix
  · rintro r (hr | rfl)
    · exact hr.entered.imp_right fun ⟨q, hq, hp⟩ => ⟨q, .inl hq, hp⟩
    · exact .inr ⟨q, .inl h, hpass⟩

/-! ## Positions and blocks -/

/-- A position other than the first has one before it. -/
theorem eq_or_exists_cons_of_suffix (h : p <:+ code) : p = code ∨ ∃ j, j :: p <:+ code := by
  obtain ⟨front, rfl⟩ := h
  rcases List.eq_nil_or_concat front with rfl | ⟨front, j, rfl⟩
  · exact .inl rfl
  · exact .inr ⟨j, front, List.concat_append.symm⟩

theorem length_runs_cons_le (i : Instr) (rest : Code) :
    (runs rest).length ≤ (runs (i :: rest)).length := by
  rcases runs_cons i rest with h | ⟨r, rs, hr, h, -, -⟩
  · rw [h]
    exact Nat.le_succ _
  · rw [h, hr]
    exact Nat.le_refl _

theorem length_runs_le (h : p <:+ code) : (runs p).length ≤ (runs code).length := by
  obtain ⟨front, rfl⟩ := h
  induction front with
  | nil => exact Nat.le_refl _
  | cons i front ih => exact ih.trans (length_runs_cons_le i _)

/-- The position is the first of a block. -/
def Starts (code p : Code) : Prop := p = code ∨ ∃ j, j :: p <:+ code ∧ runs (j :: p) = [j] :: runs p

/-- Before the first position of a block there are more blocks. -/
theorem Starts.length_runs_lt (h : Starts code p) (hq : q <:+ code) (hp : p <:+ q) (hne : p ≠ q) :
    (runs p).length < (runs q).length := by
  rcases h with rfl | ⟨j, hj, hruns⟩
  · exact absurd (hp.eq_of_length_le hq.length_le) hne
  · obtain rfl | ⟨j', hj'⟩ := eq_or_exists_cons_of_suffix hp
    · exact absurd rfl hne
    · have hsame : j' :: p = j :: p :=
        List.IsSuffix.eq_of_length (List.suffix_of_suffix_length_le (hj'.trans hq) hj (by simp)) (by simp)
      have hle := length_runs_le hj'
      rw [hsame, hruns, List.length_cons] at hle
      omega

/-- A block has one first position. -/
theorem Starts.eq (hp : Starts code p) (hq : Starts code q) (hps : p <:+ code) (hqs : q <:+ code)
    (h : blockOf code p = blockOf code q) : p = q := by
  have hlength : (runs p).length = (runs q).length := by
    have := length_runs_le hps
    have := length_runs_le hqs
    unfold blockOf at h
    omega
  by_contra hne
  rcases List.suffix_or_suffix_of_suffix hps hqs with hsub | hsub
  · exact absurd hlength (hp.length_runs_lt hqs hsub hne).ne
  · exact absurd hlength (hq.length_runs_lt hps hsub (Ne.symm hne)).ne'

theorem starts_label {l : Label} {rest : Code} (h : .label l :: rest <:+ code) :
    Starts code (.label l :: rest) := by
  rcases eq_or_exists_cons_of_suffix h with heq | ⟨j, hj⟩
  · exact .inl heq
  · refine .inr ⟨j, hj, ?_⟩
    rcases runs_cons j (.label l :: rest) with hc | ⟨r, rs, hr, -, -, hopen⟩
    · exact hc
    · -- the piece of a label opens with it
      have hhead : r = .label l :: r.tail := by
        rcases runs_cons (.label l) rest with hc | ⟨r', rs', -, hc, -, -⟩
        · obtain ⟨rfl, -⟩ := List.cons.inj (hr.symm.trans hc)
          rfl
        · obtain ⟨rfl, -⟩ := List.cons.inj (hr.symm.trans hc)
          rfl
      rw [hhead] at hopen
      cases hopen

/-- Every piece ends at some position, and the instruction there is the last of the piece. -/
theorem exists_last {k : Nat} {r : Code} (h : (runs code)[k]? = some r) :
    ∃ j rest, j :: rest <:+ code ∧ runs (j :: rest) = [j] :: runs rest ∧
      (runs (j :: rest)).length + k = (runs code).length ∧ r.getLast? = some j := by
  induction code generalizing k r with
  | nil => cases h
  | cons i rest ih =>
    rcases runs_cons i rest with hc | ⟨q, qs, hq, hc, -, -⟩
    · cases k with
      | zero =>
        rw [hc] at h
        obtain rfl : [i] = r := by simpa using h
        exact ⟨i, rest, List.suffix_refl _, hc, rfl, rfl⟩
      | succ k =>
        rw [hc, List.getElem?_cons_succ] at h
        obtain ⟨j, rest', hs, hruns, hlength, hlast⟩ := ih h
        refine ⟨j, rest', hs.trans (List.suffix_cons _ _), hruns, ?_, hlast⟩
        rw [hc, List.length_cons]
        omega
    · have hsame : (runs (i :: rest)).length = (runs rest).length := by rw [hc, hq]; rfl
      cases k with
      | zero =>
        obtain rfl : i :: q = r := by simpa [hc] using h
        obtain ⟨j, rest', hs, hruns, hlength, hlast⟩ := ih (k := 0) (r := q) (by rw [hq]; rfl)
        refine ⟨j, rest', hs.trans (List.suffix_cons _ _), hruns, by omega, ?_⟩
        rw [List.getLast?_cons, hlast]
        rfl
      | succ k =>
        rw [hc, List.getElem?_cons_succ] at h
        obtain ⟨j, rest', hs, hruns, hlength, hlast⟩ := ih (k := k + 1) (r := r) (by
          rw [hq, List.getElem?_cons_succ]
          exact h)
        exact ⟨j, rest', hs.trans (List.suffix_cons _ _), hruns, by omega, hlast⟩

theorem blockOf_of_ends {i : Instr} {rest : Code} (h : i :: rest <:+ code)
    (hruns : runs (i :: rest) = [i] :: runs rest) : blockOf code rest = blockOf code (i :: rest) + 1 := by
  have hle := length_runs_le h
  unfold blockOf
  rw [hruns, List.length_cons] at hle ⊢
  omega

theorem blockOf_lt_of_ne_nil (code : Code) (hne : p ≠ []) : blockOf code p < (runs code).length + 1 := by
  have hpos : 0 < (runs p).length := List.length_pos_of_ne_nil (mt runs_eq_nil.1 hne)
  unfold blockOf
  omega

theorem blockOf_pos (h : p <:+ code) : 0 < blockOf code p := by
  have := length_runs_le h
  unfold blockOf
  omega

end Code

/-! ## Edges between positions -/

namespace FlowGraph

open Code (Live Starts blockOf runs)

variable {code p : Code} {u : FlowGraph}

theorem Wired.linked_of_continues (h : Wired code u) {i : Instr} {rest : Code} (hs : i :: rest <:+ code)
    (hruns : runs (i :: rest) = [i] :: runs rest) (hi : i.continues = true) :
    u.Linked (blockOf code (i :: rest)) (blockOf code rest) := by
  have hnext := Code.blockOf_of_ends hs hruns
  suffices hleads : ∃ c?, (⟨blockOf code (i :: rest), .basic, [i], [], []⟩ : Block).Leads
      (ofRuns (runs code)) (blockOf code rest) c? by
    obtain ⟨c?, hleads⟩ := hleads
    exact (h.hasEdge_of_leads hs hruns hleads).linked
  cases i with
  | eval | declare | label => exact ⟨none, hnext, rfl⟩
  | jump | ret => cases hi
  | branch l c on =>
    have hc : (if on then c.negate else c).constant? ≠ some false := by
      have hc : c.constant? ≠ some on := of_decide_eq_true hi
      cases on with
      | true =>
        rw [if_pos rfl, Expr.constant?_negate]
        simpa using hc
      | false => exact hc
    obtain ⟨c?, hkeeps⟩ := exists_keeps_iff.2 hc
    exact ⟨c?, .inr ⟨hnext, hkeeps⟩⟩

theorem Wired.linked_of_jumps (h : Wired code u) {i : Instr} {rest suffix : Code} {l : Label}
    (hs : i :: rest <:+ code) (hi : i.jumps? = some l)
    (hl : Run.after? Instr.label? l code = some suffix) :
    u.Linked (blockOf code (i :: rest)) (blockOf code (.label l :: suffix)) := by
  have htarget := (labelled_of_after hl).1
  cases i with
  | jump l' =>
    obtain rfl : l' = l := Option.some.inj hi
    have hruns := Code.runs_cons_of_closes (i := .jump l') rfl rest
    have hedge : u.HasEdge (blockOf code (.jump l' :: rest)) _ none :=
      h.hasEdge_of_leads hs hruns ⟨htarget, rfl⟩
    exact hedge.linked
  | branch l' c on =>
    have hruns := Code.runs_cons_of_closes (i := .branch l' c on) rfl rest
    obtain rfl : l' = l := Option.some.inj (Instr.target?_of_jumps? hi)
    change (if c.constant? = some !on then none else some l') = some l' at hi
    split at hi
    next => cases hi
    next hc =>
      have hc : (if on then c else c.negate).constant? ≠ some false := by
        cases on with
        | true => exact hc
        | false =>
          rw [if_neg Bool.false_ne_true, Expr.constant?_negate]
          simpa using hc
      obtain ⟨c?, hkeeps⟩ := exists_keeps_iff.2 hc
      exact (h.hasEdge_of_leads hs hruns (.inl ⟨htarget, hkeeps⟩)).linked
  | _ => cases hi

/-- An edge leaves the entry, or it leaves the last position of a block: by a return, for the next
position, or for a label. -/
theorem Wired.linked_cases (h : Wired code u) (hclosed : code.Closed) {s t : Nat} (hlink : u.Linked s t) :
    (s = 0 ∧ t = 1) ∨ ∃ i rest, i :: rest <:+ code ∧ runs (i :: rest) = [i] :: runs rest ∧
      blockOf code (i :: rest) = s ∧
      ((∃ e?, i = .ret e?) ∧ t = blockOf code [] ∨ i.continues = true ∧ t = blockOf code rest ∨
        ∃ l suffix, i.jumps? = some l ∧ Run.after? Instr.label? l code = some suffix ∧
          t = blockOf code (.label l :: suffix)) := by
  obtain ⟨c?, hedge⟩ := hlink.hasEdge
  rcases (h.hasEdge_iff s t c?).1 hedge with ⟨hs, ht, -⟩ | ⟨b, hb, rfl, hleads⟩
  · exact .inl ⟨hs, ht⟩
  obtain ⟨hpos, hrun⟩ := mem_basicBlocks_ofRuns hb
  obtain ⟨i, rest, hs, hruns, hlength, hlast⟩ := Code.exists_last hrun
  have hblock : blockOf code (i :: rest) = b.id := by
    unfold blockOf
    omega
  have hnext := Code.blockOf_of_ends hs hruns
  have hlabel : ∀ l, i.target? = some l → (ofRuns (runs code)).labelled l = .ok t →
      ∃ suffix, Run.after? Instr.label? l code = some suffix ∧ t = blockOf code (.label l :: suffix) := by
    intro l hl ht
    have hmem : Instr.label l ∈ code := hclosed i (hs.subset List.mem_cons_self) l hl
    cases hafter : Run.after? Instr.label? l code with
    | none => exact absurd rfl (Run.after?_eq_none.1 hafter _ hmem)
    | some suffix =>
      rw [(labelled_of_after hafter).1, Except.ok.injEq] at ht
      exact ⟨suffix, rfl, ht.symm⟩
  refine .inr ⟨i, rest, hs, hruns, hblock, ?_⟩
  unfold Block.Leads at hleads
  rw [hlast] at hleads
  cases i with
  | eval | declare | label => exact .inr (.inl ⟨rfl, by rw [hnext, hblock]; exact hleads.1⟩)
  | jump l =>
    obtain ⟨suffix, hafter, ht⟩ := hlabel l rfl hleads.1
    exact .inr (.inr ⟨l, suffix, rfl, hafter, ht⟩)
  | ret e? => exact .inl ⟨⟨e?, rfl⟩, by rw [Code.blockOf_nil]; exact hleads.1⟩
  | branch l c on =>
    rcases hleads with ⟨ht, hkeeps⟩ | ⟨ht, hkeeps⟩
    · obtain ⟨suffix, hafter, ht⟩ := hlabel l rfl ht
      refine .inr (.inr ⟨l, suffix, if_neg ?_, hafter, ht⟩)
      have hc := exists_keeps_iff.1 ⟨c?, hkeeps⟩
      cases on with
      | true => exact hc
      | false =>
        rw [if_neg Bool.false_ne_true, Expr.constant?_negate] at hc
        simpa using hc
    · refine .inr (.inl ⟨decide_eq_true ?_, by rw [hnext, hblock]; exact ht⟩)
      have hc := exists_keeps_iff.1 ⟨c?, hkeeps⟩
      cases on with
      | true =>
        rw [if_pos rfl, Expr.constant?_negate] at hc
        simpa using hc
      | false => exact hc

/-! ## Blocks that stay -/

/-- What leads to a live position comes from a live position of another block, or from the entry. -/
theorem Wired.exists_linked_of_live (h : Wired code u) (hp : code.Live p) :
    ∃ s, (s = 0 ∨ ∃ q, code.Live q ∧ q ≠ [] ∧ blockOf code q = s) ∧ u.Linked s (blockOf code p) := by
  -- going back inside a block makes the position longer, up to the whole code
  induction hn : code.length - p.length using Nat.strong_induction_on generalizing p with
  | _ n ih =>
    subst hn
    rcases hp.entered with rfl | ⟨q, hq, hpass⟩
    · refine ⟨0, .inl rfl, ?_⟩
      rw [Code.blockOf_self]
      exact ((h.hasEdge_iff 0 1 none).2 (.inl ⟨rfl, rfl, rfl⟩)).linked
    · cases hpass with
      | @next i _ hi =>
        rcases Code.runs_cons i p with hruns | ⟨r, rs, hr, hruns, -, -⟩
        · exact ⟨_, .inr ⟨_, hq, List.cons_ne_nil _ _, rfl⟩, h.linked_of_continues hq.suffix hruns hi⟩
        · have hsame : blockOf code (i :: p) = blockOf code p := by
            unfold blockOf
            rw [hruns, hr]
            rfl
          have hlength := hq.suffix.length_le
          rw [List.length_cons] at hlength
          obtain ⟨s, hs, hlink⟩ := ih _ (by rw [List.length_cons]; omega) hq rfl
          exact ⟨s, hs, hsame ▸ hlink⟩
      | jump hi hl =>
        exact ⟨_, .inr ⟨_, hq, List.cons_ne_nil _ _, rfl⟩, h.linked_of_jumps hq.suffix hi hl⟩

theorem Wired.exists_mem_skeleton (h : Wired code u) (hp : p <:+ code) (hne : p ≠ []) :
    ∃ r, (blockOf code p, .basic, r) ∈ u.skeleton := by
  obtain ⟨r, rs, hr⟩ := List.exists_cons_of_ne_nil (mt Code.runs_eq_nil.1 hne)
  obtain ⟨hpos, cut, hcut⟩ := Code.exists_block hp hr
  rw [h.skeleton]
  exact ⟨_, mem_skeleton_ofRuns.2 (.inr (.inl ⟨rfl, hpos, hcut⟩))⟩

theorem Wired.fed_of_live (h : Wired code u) (hp : code.Live p) (hne : p ≠ []) :
    u.Fed (blockOf code p) := by
  let S : Nat → Prop := fun n => n = 0 ∨ ∃ q, code.Live q ∧ q ≠ [] ∧ blockOf code q = n
  have hS : Supported u S := by
    intro b hb hk hs
    rcases hs with h0 | ⟨q, hq, -, hid⟩
    · have hm : (b.id, b.kind, b.code) ∈ u.skeleton := List.mem_map_of_mem hb
      rw [hk] at hm
      exact absurd h0 (h.rooted.pos_of_basic _ _ hm).ne'
    · rw [← hid]
      exact h.exists_linked_of_live hq
  obtain ⟨r, hr⟩ := h.exists_mem_skeleton hp.suffix hne
  have hstays := (pruneTimes_keeps u.blocks.length h.wellFormed hS).1 _ hr (.inr ⟨p, hp, hne, rfl⟩)
  exact (h.rooted.mem_prune_iff.1 hstays).2

/-- Control comes to the first position of a block along an edge. -/
theorem Wired.entered_of_starts (h : Wired code u) (hclosed : code.Closed) (hp : p <:+ code) (hne : p ≠ [])
    (hstart : Starts code p) (hf : u.Fed (blockOf code p)) :
    p = code ∨ ∃ q, (q <:+ code ∧ q ≠ [] ∧ u.Fed (blockOf code q)) ∧ code.Passes q p := by
  rcases hf.exists_linked with h0 | ⟨s, hs, hlink⟩
  · exact absurd h0 (Code.blockOf_pos hp).ne'
  rcases h.linked_cases hclosed hlink with ⟨-, ht⟩ | ⟨i, rest, hi, hruns, rfl, hcase⟩
  · exact .inl (hstart.eq (.inl rfl) hp (List.suffix_refl _) (ht.trans Code.blockOf_self.symm))
  refine .inr ⟨i :: rest, ⟨hi, List.cons_ne_nil _ _, hs⟩, ?_⟩
  rcases hcase with ⟨-, ht⟩ | ⟨hcontinues, ht⟩ | ⟨l, suffix, hjumps, hl, ht⟩
  · have hlt := Code.blockOf_lt_of_ne_nil code hne
    rw [ht, Code.blockOf_nil] at hlt
    exact absurd hlt (Nat.lt_irrefl _)
  · obtain rfl := hstart.eq (.inr ⟨i, hi, hruns⟩) hp ((List.suffix_cons _ _).trans hi) ht
    exact .next hcontinues
  · have hsuffix := (labelled_of_after hl).2
    obtain rfl := hstart.eq (Code.starts_label hsuffix) hp hsuffix ht
    exact .jump hjumps hl

theorem Wired.live_of_fed (h : Wired code u) (hclosed : code.Closed) (hp : p <:+ code) (hne : p ≠ [])
    (hf : u.Fed (blockOf code p)) : code.Live p := by
  refine ⟨fun q => q <:+ code ∧ q ≠ [] ∧ u.Fed (blockOf code q), ⟨fun q hq => hq.1, ?_⟩, hp, hne, hf⟩
  clear hp hne hf
  rintro p ⟨hp, hne, hf⟩
  by_cases hstart : Starts code p
  · exact h.entered_of_starts hclosed hp hne hstart hf
  rcases Code.eq_or_exists_cons_of_suffix hp with heq | ⟨i, hi⟩
  · exact .inl heq
  rcases Code.runs_cons i p with hruns | ⟨r, rs, hr, hruns, hcloses, -⟩
  · exact absurd (.inr ⟨i, hi, hruns⟩) hstart
  · have hsame : blockOf code (i :: p) = blockOf code p := by
      unfold blockOf
      rw [hruns, hr]
      rfl
    exact .inr ⟨i :: p, ⟨hi, List.cons_ne_nil _ _, hsame.symm ▸ hf⟩,
      .next (Instr.continues_of_not_closes hcloses)⟩

/-- **Blocks and positions.** Pruning leaves the blocks of live positions. -/
theorem Wired.fed_iff_live (h : Wired code u) (hclosed : code.Closed) (hp : p <:+ code) (hne : p ≠ []) :
    u.Fed (blockOf code p) ↔ code.Live p :=
  ⟨h.live_of_fed hclosed hp hne, fun hl => h.fed_of_live hl hne⟩

/-! ## Leaving the code -/

/-- The instruction at the last position of a block is the last of its code. -/
theorem Wired.mem_skeleton_of_ends (h : Wired code u) {i : Instr} {rest : Code} (hs : i :: rest <:+ code)
    (hruns : runs (i :: rest) = [i] :: runs rest) :
    ∃ cut, (blockOf code (i :: rest), .basic, cut ++ [i]) ∈ u.skeleton := by
  obtain ⟨hpos, cut, hcut⟩ := Code.exists_block hs hruns
  rw [h.skeleton]
  exact ⟨cut, mem_skeleton_ofRuns.2 (.inr (.inl ⟨rfl, hpos, hcut⟩))⟩

theorem Wired.start_mem_prune (h : Wired code u) : (0, .start, []) ∈ u.prune.skeleton := by
  have hstart : (0, BlockKind.start, []) ∈ u.skeleton := by
    rw [h.skeleton]
    exact mem_skeleton_ofRuns.2 (.inl ⟨rfl, rfl, rfl⟩)
  exact h.wellFormed.mem_pruneTimes hstart (by decide) _

/-- A block that stays, and from which control may leave, ends in a return if all paths return. -/
theorem Wired.returns_of_allPathsReturn (h : Wired code u) (hall : u.prune.allPathsReturn = true)
    {k : Nat × BlockKind × Code} (hk : k ∈ u.prune.skeleton) (hf : u.Fed k.1)
    (hlink : u.Linked k.1 u.stop) : ∃ e?, k.2.2.getLast? = some (.ret e?) := by
  have hp := pruned_prune h.wellFormed
  obtain ⟨b, hb, rfl⟩ := List.mem_map.1 hk
  obtain ⟨c?, hedge⟩ := hlink.hasEdge
  have hstays : u.prune.Linked b.id u.prune.stop := by
    rw [hp.stop]
    exact (h.rooted.hasEdge_prune hf hedge).linked
  have hreturns := (hp.wellFormed.allPathsReturn_iff h.stop_mem_prune).1 hall b hb hstays
  unfold Block.returns at hreturns
  split at hreturns
  next e? hlast => exact ⟨e?, hlast⟩
  next => cases hreturns

/-- **All paths return** if control cannot come to the end of the code. -/
theorem Wired.allPathsReturn_prune_iff (h : Wired code u) (hclosed : code.Closed) :
    u.prune.allPathsReturn = true ↔ ¬ code.Live [] := by
  have hp := pruned_prune h.wellFormed
  have hstop : u.stop = blockOf code [] := by
    rw [h.stop, Code.blockOf_nil]
    rfl
  constructor
  · intro hall hlive
    rcases hlive.entered with rfl | ⟨q, hq, hpass⟩
    · have hlink : u.Linked 0 u.stop := by
        rw [hstop, Code.blockOf_self]
        exact ((h.hasEdge_iff 0 1 none).2 (.inl ⟨rfl, rfl, rfl⟩)).linked
      obtain ⟨e?, hlast⟩ := h.returns_of_allPathsReturn hall h.start_mem_prune (.inl .refl) hlink
      cases hlast
    · cases hpass with
      | @next i _ hi =>
        have hf := h.fed_of_live hq (List.cons_ne_nil _ _)
        obtain ⟨cut, hcut⟩ := h.mem_skeleton_of_ends hq.suffix rfl
        obtain ⟨e?, hlast⟩ := h.returns_of_allPathsReturn hall (h.rooted.mem_prune_iff.2 ⟨hcut, hf⟩) hf
          (hstop ▸ h.linked_of_continues hq.suffix rfl hi)
        rw [List.getLast?_concat, Option.some.injEq] at hlast
        subst hlast
        cases hi
  · intro hlive
    by_contra hopen
    obtain ⟨b, hb, hplace, hlink, hreturns⟩ := h.exists_open_exit (Bool.eq_false_iff.2 hopen)
    rw [hp.stop] at hlink
    rcases h.linked_cases hclosed (hp.linked hlink) with ⟨-, ht⟩ | ⟨i, rest, hi, hruns, hid, hcase⟩
    · -- the code is empty
      have hnil : code = [] := by
        rw [hstop, Code.blockOf_nil] at ht
        exact Code.runs_eq_nil.1 (List.eq_nil_of_length_eq_zero (by omega))
      subst hnil
      exact hlive (Code.live_self [])
    obtain ⟨cut, hcut⟩ := h.mem_skeleton_of_ends hi hruns
    have hmem : (b.id, b.kind, b.code) ∈ u.prune.skeleton := List.mem_map_of_mem hb
    have heq := h.wellFormed.skeleton_unique (hp.skeleton _ hmem) hcut hid.symm
    rcases hcase with ⟨⟨e?, rfl⟩, -⟩ | ⟨hcontinues, ht⟩ | ⟨l, suffix, -, -, ht⟩
    · have hcode : b.code = cut ++ [.ret e?] := congrArg (·.2.2) heq
      unfold Block.returns at hreturns
      rw [hcode, List.getLast?_concat] at hreturns
      cases hreturns
    · have hnil : rest = [] := by
        by_contra hne
        have := Code.blockOf_lt_of_ne_nil code hne
        rw [hstop, Code.blockOf_nil] at ht
        omega
      subst hnil
      rw [heq] at hmem
      have hf := (h.rooted.mem_prune_iff.1 hmem).2
      exact hlive ((h.live_of_fed hclosed hi (List.cons_ne_nil _ _) hf).pass (.next hcontinues))
    · have := Code.blockOf_lt_of_ne_nil code (List.cons_ne_nil (Instr.label l) suffix)
      rw [hstop, Code.blockOf_nil] at ht
      omega

end FlowGraph

/-! ## The code that is left -/

open scoped Classical in
/-- The instructions at the positions of a set. -/
noncomputable def Code.select (P : Code → Prop) : Code → Code
  | [] => []
  | i :: rest => if P (i :: rest) then i :: Code.select P rest else Code.select P rest

open scoped Classical in
/-- Of runs that are numbered from `n`, the code of those whose numbers are in the set. -/
noncomputable def Code.keepRuns (F : Nat → Prop) : Nat → List Code → Code
  | _, [] => []
  | n, r :: rs => if F n then r ++ Code.keepRuns F (n + 1) rs else Code.keepRuns F (n + 1) rs

theorem Code.select_congr {P Q : Code → Prop} {code : Code} (h : ∀ p, p <:+ code → p ≠ [] → (P p ↔ Q p)) :
    Code.select P code = Code.select Q code := by
  induction code with
  | nil => rfl
  | cons i rest ih =>
    have hrest := ih fun p hp => h p (hp.trans (List.suffix_cons _ _))
    have hfirst := h (i :: rest) (List.suffix_refl _) (List.cons_ne_nil _ _)
    rw [Code.select, Code.select, hrest]
    by_cases hP : P (i :: rest)
    · rw [if_pos hP, if_pos (hfirst.1 hP)]
    · rw [if_neg hP, if_neg (mt hfirst.2 hP)]

/-- Keeping runs by their numbers is keeping positions by their blocks. -/
theorem Code.keepRuns_runs (F : Nat → Prop) {code p : Code} (hp : p <:+ code) :
    Code.keepRuns F (blockOf code p) (runs p) = Code.select (fun q => F (blockOf code q)) p := by
  induction p with
  | nil => rfl
  | cons i rest ih =>
    have hrest := ih ((List.suffix_cons _ _).trans hp)
    rw [Code.select, ← hrest]
    rcases runs_cons i rest with hruns | ⟨r, rs, hr, hruns, -, -⟩
    · rw [hruns, blockOf_of_ends hp hruns, keepRuns]
      rfl
    · have hsame : blockOf code rest = blockOf code (i :: rest) := by
        unfold blockOf
        rw [hruns, hr]
        rfl
      rw [hruns, hr, hsame, keepRuns, keepRuns]
      split
      · rfl
      · rfl

namespace FlowGraph

open Code (blockOf runs)

def code (g : FlowGraph) : Code := g.basicBlocks.flatMap (·.code)

theorem code_eq_skeleton (g : FlowGraph) :
    g.code = (g.skeleton.filter (·.2.1 = .basic)).flatMap (·.2.2) := by
  unfold code basicBlocks skeleton
  rw [List.filter_map, List.flatMap_map]
  rfl

/-- Pruning takes blocks out and leaves the order of the others. -/
theorem skeleton_pruneTimes (n : Nat) (g : FlowGraph) :
    (pruneTimes n g).skeleton = g.skeleton.filter (·.1 ∈ (pruneTimes n g).ids) := by
  have hsame : ∀ g : FlowGraph, g.skeleton = g.skeleton.filter (·.1 ∈ g.ids) := by
    intro g
    refine (List.filter_eq_self.2 fun k hk => ?_).symm
    rw [ids_eq_skeleton]
    exact decide_eq_true (List.mem_map_of_mem hk)
  induction n generalizing g with
  | zero => exact hsame g
  | succ n ih =>
    rw [pruneTimes]
    cases ho : g.orphan? with
    | none => exact hsame g
    | some b =>
      have hremoved : ∀ m, m ∈ (pruneTimes n (g.removeBlock b)).ids → m ≠ b.id := by
        intro m hm
        rw [ids_eq_skeleton, ih, List.mem_map] at hm
        obtain ⟨k, hk, rfl⟩ := hm
        have hk := List.mem_of_mem_filter hk
        rw [skeleton_removeBlock, List.mem_filter] at hk
        exact of_decide_eq_true hk.2
      show (pruneTimes n (g.removeBlock b)).skeleton = _
      rw [ih, skeleton_removeBlock, List.filter_filter]
      refine List.filter_congr fun k _ => ?_
      by_cases hk : k.1 ∈ (pruneTimes n (g.removeBlock b)).ids
      · simp [hk, hremoved k.1 hk]
      · simp [hk]

variable {code : Code} {u : FlowGraph}

theorem Rooted.mem_ids_prune_iff {g : FlowGraph} (h : g.Rooted) {k : Nat × BlockKind × Code}
    (hk : k ∈ g.skeleton) (hbasic : k.2.1 = .basic) : k.1 ∈ g.prune.ids ↔ g.Fed k.1 := by
  obtain ⟨n, kind, r⟩ := k
  obtain rfl : kind = .basic := hbasic
  rw [ids_eq_skeleton, List.mem_map]
  constructor
  · rintro ⟨k', hk', hid⟩
    have hsame := h.skeleton_unique ((pruned_prune h.toWellFormed).skeleton k' hk') hk hid
    rw [hsame] at hk'
    exact (h.mem_prune_iff.1 hk').2
  · intro hf
    exact ⟨_, h.mem_prune_iff.2 ⟨hk, hf⟩, rfl⟩

open scoped Classical in
theorem keepRuns_eq (F : Nat → Prop) (n : Nat) (rs : List Code) :
    Code.keepRuns F n rs =
      (((blocksFrom n rs).map fun b => (b.id, b.kind, b.code)).filter
        fun k => k.2.1 = .basic ∧ F k.1).flatMap (·.2.2) := by
  induction rs generalizing n with
  | nil => rfl
  | cons r rs ih =>
    rw [Code.keepRuns, ih, blocksFrom, List.map_cons]
    split
    next hF =>
      rw [List.filter_cons_of_pos (by simpa using hF), List.flatMap_cons]
    next hF =>
      rw [List.filter_cons_of_neg (by simpa using hF)]

/-- **What pruning leaves of the code** are the instructions at live positions. -/
theorem Wired.code_prune (h : Wired code u) (hclosed : code.Closed) :
    u.prune.code = Code.select code.Live code := by
  classical
  have hpositions : Code.select (fun q => u.Fed (blockOf code q)) code = Code.select code.Live code :=
    Code.select_congr fun p hp hne => h.fed_iff_live hclosed hp hne
  have hkept : u.prune.skeleton.filter (·.2.1 = .basic) =
      u.skeleton.filter fun k => k.2.1 = .basic ∧ u.Fed k.1 := by
    unfold prune
    rw [skeleton_pruneTimes, List.filter_filter]
    refine List.filter_congr fun k hk => ?_
    by_cases hbasic : k.2.1 = .basic
    · have hiff := h.rooted.mem_ids_prune_iff hk hbasic
      unfold prune at hiff
      simp only [hbasic, hiff, true_and, decide_true, Bool.true_and]
    · simp [hbasic]
  rw [← hpositions, ← Code.keepRuns_runs u.Fed (List.suffix_refl code), Code.blockOf_self, keepRuns_eq,
    code_eq_skeleton, hkept, h.skeleton]
  rfl

end FlowGraph

end Scripting.Typed
