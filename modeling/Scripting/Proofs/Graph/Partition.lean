import Mathlib.Data.List.Chain
import Scripting.Proofs.Lowering.NormalForm

/-!
# Cutting code into blocks

The blocks of a flow graph are the code, cut in front of every label and behind every jump and return, and
nowhere else. This is said without the function that cuts: `Code.Cut` names what a list of blocks must
satisfy; the straight runs satisfy it (`Code.cut_runs`) and nothing else does (`Code.Cut.eq_runs`). Both directions
follow the code from its front, where the first instruction is a block of its own or joins the block behind it.
-/

namespace Scripting.Typed

namespace Code

/-- The last instruction of the block jumps or returns. -/
def Closes (block : Code) : Prop := ∃ i, block.getLast? = some i ∧ i.closes = true

/-- The blocks are the code, cut in front of labels and behind jumps and returns only. -/
structure Cut (code : Code) (blocks : List Code) : Prop where
  joined : blocks.flatten = code
  nonempty : ∀ b ∈ blocks, b ≠ []
  /-- labels stand first -/
  labels : ∀ b ∈ blocks, ∀ i ∈ b.tail, i.label? = none
  /-- jumps and returns stand last -/
  exits : ∀ b ∈ blocks, ∀ i ∈ b.dropLast, i.closes = false
  /-- every block but the first opens with a label or stands behind a jump or return -/
  needed : blocks.IsChain fun b c => opens c = true ∨ Closes b

/-! ## Straight runs are such blocks -/

theorem closes_cons {i : Instr} {r : Code} (h : Closes r) : Closes (i :: r) := by
  obtain ⟨j, hj, hcloses⟩ := h
  exact ⟨j, by rw [List.getLast?_cons, hj, Option.getD_some], hcloses⟩

theorem isChain_runs (code : Code) : (runs code).IsChain fun b c => opens c = true ∨ Closes b := by
  induction code with
  | nil => exact .nil
  | cons i rest ih =>
    rw [runs]
    cases h : runs rest with
    | nil => exact .singleton _
    | cons r rs =>
      rw [h] at ih
      dsimp only
      split
      · next hcut =>
        rcases Bool.or_eq_true_iff.1 hcut with hi | hr
        · exact .cons_cons (.inr ⟨i, rfl, hi⟩) ih
        · exact .cons_cons (.inl hr) ih
      · -- the first block grows at its front, so it ends as it did
        obtain ⟨hfirst, hrest⟩ := List.isChain_cons.1 ih
        exact List.isChain_cons.2 ⟨fun c hc => (hfirst c hc).imp_right closes_cons, hrest⟩

theorem cut_runs (code : Code) : Cut code (runs code) where
  joined := flatten_runs code
  nonempty _ := ne_nil_of_mem_runs
  labels _ := label_first
  exits _ := closes_last
  needed := isChain_runs code

/-! ## Only straight runs are -/

namespace Cut

variable {i : Instr} {rest b : Code} {bs : List Code}

theorem tail (h : Cut (i :: rest) ([i] :: bs)) : Cut rest bs where
  joined := List.tail_eq_of_cons_eq h.joined
  nonempty := (List.forall_mem_cons.1 h.nonempty).2
  labels := (List.forall_mem_cons.1 h.labels).2
  exits := (List.forall_mem_cons.1 h.exits).2
  needed := h.needed.tail

/-- A first block of one instruction is needed: it closes, or a label follows. -/
theorem runs_of_alone (h : Cut (i :: rest) ([i] :: bs)) (hbs : bs = runs rest) :
    runs (i :: rest) = [i] :: bs := by
  rw [runs, ← hbs]
  cases bs with
  | nil => rfl
  | cons c cs =>
    have hcut : opens c = true ∨ Closes [i] := (List.isChain_cons_cons.1 h.needed).1
    dsimp only
    rw [if_pos]
    rcases hcut with hopen | ⟨j, hj, hcloses⟩
    · rw [hopen, Bool.or_true]
    · obtain rfl : i = j := Option.some.inj hj
      rw [hcloses, Bool.true_or]

/-- In a longer first block nothing forces a cut behind the first instruction. -/
theorem uncut (h : Cut (i :: rest) ((i :: b) :: bs)) (hb : b ≠ []) : i.closes = false ∧ opens b = false := by
  obtain ⟨j, b, rfl⟩ := List.exists_cons_of_ne_nil hb
  refine ⟨h.exits _ List.mem_cons_self i List.mem_cons_self, ?_⟩
  have hj : j.label? = none := h.labels _ List.mem_cons_self j List.mem_cons_self
  cases j with
  | label l => cases hj
  | _ => rfl

/-- Without its first instruction, a longer first block is still one. -/
theorem shorten (h : Cut (i :: rest) ((i :: b) :: bs)) (hb : b ≠ []) : Cut rest (b :: bs) := by
  obtain ⟨j, b, rfl⟩ := List.exists_cons_of_ne_nil hb
  refine ⟨List.tail_eq_of_cons_eq h.joined, ?_, ?_, ?_, ?_⟩
  · exact List.forall_mem_cons.2 ⟨hb, (List.forall_mem_cons.1 h.nonempty).2⟩
  · obtain ⟨hfirst, hothers⟩ := List.forall_mem_cons.1 h.labels
    exact List.forall_mem_cons.2 ⟨fun k hk => hfirst k (.tail _ hk), hothers⟩
  · obtain ⟨hfirst, hothers⟩ := List.forall_mem_cons.1 h.exits
    exact List.forall_mem_cons.2 ⟨fun k hk => hfirst k (.tail _ hk), hothers⟩
  · -- both blocks have the same last instruction
    obtain ⟨hfirst, hothers⟩ := List.isChain_cons.1 h.needed
    exact List.isChain_cons.2 ⟨hfirst, hothers⟩

theorem eq_runs {code : Code} {blocks : List Code} (h : Cut code blocks) : blocks = runs code := by
  induction code generalizing blocks with
  | nil =>
    cases blocks with
    | nil => rfl
    | cons b bs =>
      have hb : b = [] := (List.append_eq_nil_iff.1 h.joined).1
      exact absurd hb (h.nonempty b List.mem_cons_self)
  | cons i rest ih =>
    cases blocks with
    | nil => cases h.joined
    | cons b bs =>
      obtain ⟨j, b, rfl⟩ := List.exists_cons_of_ne_nil (h.nonempty b List.mem_cons_self)
      obtain rfl : j = i := (List.cons.inj h.joined).1
      cases b with
      | nil => exact (h.runs_of_alone (ih h.tail)).symm
      | cons k b =>
        obtain ⟨hcloses, hopens⟩ := h.uncut (List.cons_ne_nil k b)
        rw [runs, ← ih (h.shorten (List.cons_ne_nil k b))]
        dsimp only
        rw [hcloses, hopens]
        rfl

end Cut

end Code

/-! ## Statements -/

namespace Stmt

variable {ss : List Stmt}

theorem exists_code (h : ∀ s ∈ ss, s.isStructured = false) : ∃ code : Code, ss = code.stmts := by
  induction ss with
  | nil => exact ⟨[], rfl⟩
  | cons s ss ih =>
    obtain ⟨hs, hss⟩ := List.forall_mem_cons.1 h
    obtain ⟨code, rfl⟩ := ih hss
    cases s with
    | instr i => exact ⟨i :: code, rfl⟩
    | _ => cases hs

theorem ofStmts?_eq_none (h : ∃ s ∈ ss, s.isStructured = true) : Code.ofStmts? ss = none := by
  induction ss with
  | nil => simp at h
  | cons s ss ih =>
    cases s with
    | instr i =>
      obtain ⟨s, hs, hstruct⟩ := h
      rcases List.mem_cons.1 hs with rfl | hs
      · cases hstruct
      · show (Code.ofStmts? ss).map (i :: ·) = none
        rw [ih ⟨s, hs, hstruct⟩]
        rfl
    | _ => rfl

/-- **Cutting loses nothing**: statements without structure are cut into blocks that put together are the
statements, none of them empty, with labels only at the front of a block and jumps and returns only at its
end, each block but the first opening with a label or standing behind a jump or return; and there is no other
way to do so. Statements of which one has structure are refused. -/
theorem cutting_loses_nothing (ss : List Stmt) :
    ((∀ s ∈ ss, s.isStructured = false) →
      ∃ code : Code, code.stmts = ss ∧ ∃ blocks, Stmt.runs ss = .ok blocks ∧ code.Cut blocks ∧
        ∀ others, code.Cut others → others = blocks) ∧
    ((∃ s ∈ ss, s.isStructured = true) → Stmt.runs ss = .error .structuredCode) := by
  refine ⟨fun hflat => ?_, fun hstruct => ?_⟩
  · obtain ⟨code, rfl⟩ := exists_code hflat
    exact ⟨code, rfl, code.runs, Stmt.runs_map_instr code, code.cut_runs, fun _ => Code.Cut.eq_runs⟩
  · unfold Stmt.runs
    rw [ofStmts?_eq_none hstruct]

/-- Labels one behind the other, jumps one behind the other, and something left over at both ends. -/
def patchwork : List Stmt :=
  [.instr (.eval .error), .instr (.label ⟨"a"⟩), .instr (.label ⟨"b"⟩), .instr (.eval .error), .instr (.jump ⟨"a"⟩),
    .instr (.ret none), .instr (.eval .error)]

/-- The patchwork is cut into its blocks, and is refused with a block statement behind it. -/
theorem patchwork_loses_nothing :
    (∀ s ∈ patchwork, s.isStructured = false) ∧
      (∃ code : Code, code.stmts = patchwork ∧ ∃ blocks, Stmt.runs patchwork = .ok blocks ∧ code.Cut blocks ∧
        ∀ others, code.Cut others → others = blocks) ∧
      (∃ s ∈ patchwork ++ [Stmt.block []], s.isStructured = true) ∧
      Stmt.runs (patchwork ++ [Stmt.block []]) = .error .structuredCode := by
  have hflat : ∀ s ∈ patchwork, s.isStructured = false := by decide
  have hblock : ∃ s ∈ patchwork ++ [Stmt.block []], s.isStructured = true :=
    ⟨.block [], List.mem_append_right _ List.mem_cons_self, rfl⟩
  exact ⟨hflat, (cutting_loses_nothing patchwork).1 hflat, hblock, (cutting_loses_nothing _).2 hblock⟩

end Stmt

end Scripting.Typed
