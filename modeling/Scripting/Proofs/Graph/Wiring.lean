import Mathlib.Data.List.Infix
import Mathlib.Data.List.Nodup
import Scripting.Proofs.Graph.Runs

/-!
# The edges of a flow graph

A graph is well formed if numbers are not used twice, edges join blocks of the graph, and each block
lists the edges at it (`WellFormed`). Adding an edge between blocks keeps this (`WellFormed.addEdge`).

Wiring adds nothing but the edges that the last instructions of the blocks call for (`Block.Leads`),
and succeeds if every jump has its label in the code (`exists_wired`).
-/

namespace Scripting.Typed

namespace FlowGraph

def HasEdge (g : FlowGraph) (s t : Nat) (c? : Option Expr) : Prop :=
  ∃ e ∈ g.edges, e.source = s ∧ e.target = t ∧ e.condition? = c?

def Linked (g : FlowGraph) (s t : Nat) : Prop := ∃ e ∈ g.edges, e.source = s ∧ e.target = t

def ids (g : FlowGraph) : List Nat := g.blocks.map (·.id)

/-- Numbers are used once, edges join blocks, and blocks know their edges. -/
structure WellFormed (g : FlowGraph) : Prop where
  blockIds : g.ids.Nodup
  edgeIds : (g.edges.map (·.id)).Nodup
  fresh : ∀ e ∈ g.edges, e.id < g.nextEdge
  incoming : ∀ b ∈ g.blocks, b.incoming = (g.edges.filter (·.target = b.id)).map (·.id)
  outgoing : ∀ b ∈ g.blocks, b.outgoing = (g.edges.filter (·.source = b.id)).map (·.id)
  source_mem : ∀ e ∈ g.edges, e.source ∈ g.ids
  target_mem : ∀ e ∈ g.edges, e.target ∈ g.ids

theorem HasEdge.linked {g : FlowGraph} {s t : Nat} {c? : Option Expr} (h : g.HasEdge s t c?) :
    g.Linked s t := by
  obtain ⟨e, he, hs, ht, -⟩ := h
  exact ⟨e, he, hs, ht⟩

theorem Linked.hasEdge {g : FlowGraph} {s t : Nat} (h : g.Linked s t) : ∃ c?, g.HasEdge s t c? := by
  obtain ⟨e, he, hs, ht⟩ := h
  exact ⟨e.condition?, e, he, hs, ht, rfl⟩

/-- What adding edges leaves alone: numbers, kinds and code of the blocks. -/
def skeleton (g : FlowGraph) : List (Nat × BlockKind × Code) :=
  g.blocks.map fun b => (b.id, b.kind, b.code)

theorem ids_eq_skeleton (g : FlowGraph) : g.ids = g.skeleton.map (·.1) := by
  unfold ids skeleton
  rw [List.map_map]
  rfl

/-! ## Adding edges -/

@[simp] theorem skeleton_addEdge (g : FlowGraph) (s t : Nat) (c? : Option Expr) :
    (g.addEdge s t c?).skeleton = g.skeleton := by
  unfold skeleton addEdge
  rw [List.map_map]
  rfl

@[simp] theorem ids_addEdge (g : FlowGraph) (s t : Nat) (c? : Option Expr) :
    (g.addEdge s t c?).ids = g.ids := by
  rw [ids_eq_skeleton, ids_eq_skeleton, skeleton_addEdge]

theorem hasEdge_addEdge (g : FlowGraph) (a b s t : Nat) (c? d? : Option Expr) :
    (g.addEdge a b d?).HasEdge s t c? ↔ g.HasEdge s t c? ∨ s = a ∧ t = b ∧ c? = d? := by
  unfold HasEdge addEdge
  constructor
  · rintro ⟨e, he, rfl, rfl, rfl⟩
    rcases List.mem_append.1 he with he | he
    · exact .inl ⟨e, he, rfl, rfl, rfl⟩
    · rw [List.mem_singleton] at he
      subst he
      exact .inr ⟨rfl, rfl, rfl⟩
  · rintro (⟨e, he, h⟩ | ⟨rfl, rfl, rfl⟩)
    · exact ⟨e, List.mem_append_left _ he, h⟩
    · exact ⟨_, List.mem_append_right _ (List.mem_singleton.2 rfl), rfl, rfl, rfl⟩

theorem edges_addEdge (g : FlowGraph) (s t : Nat) (c? : Option Expr) :
    (g.addEdge s t c?).edges = g.edges ++ [⟨g.nextEdge, s, t, c?⟩] := rfl

theorem forall_mem_edges_addEdge {g : FlowGraph} {s t : Nat} {c? : Option Expr} {P : Edge → Prop} :
    (∀ e ∈ (g.addEdge s t c?).edges, P e) ↔ (∀ e ∈ g.edges, P e) ∧ P ⟨g.nextEdge, s, t, c?⟩ := by
  rw [edges_addEdge, List.forall_mem_append, List.forall_mem_singleton]

/-- The numbers of the edges at block `n`, when there is one edge more; `place` is one end of an edge. -/
theorem edgeIds_append (es : List Edge) (e : Edge) (place : Edge → Nat) (n : Nat) :
    ((es ++ [e]).filter (place · = n)).map (·.id) =
      if n = place e then (es.filter (place · = n)).map (·.id) ++ [e.id]
      else (es.filter (place · = n)).map (·.id) := by
  rw [List.filter_append, List.map_append]
  by_cases h : n = place e
  · simp [h]
  · simp [h, Ne.symm h]

theorem WellFormed.addEdge {g : FlowGraph} (h : g.WellFormed) {s t : Nat} (hs : s ∈ g.ids)
    (ht : t ∈ g.ids) (c? : Option Expr) : (g.addEdge s t c?).WellFormed where
  blockIds := by rw [ids_addEdge]; exact h.blockIds
  edgeIds := by
    rw [edges_addEdge, List.map_append, List.map_singleton, ← List.concat_eq_append]
    refine List.Nodup.concat ?_ h.edgeIds
    intro hm
    obtain ⟨e, he, hid⟩ := List.mem_map.1 hm
    exact absurd hid (h.fresh e he).ne
  fresh := forall_mem_edges_addEdge.2
    ⟨fun e he => Nat.lt_succ_of_lt (h.fresh e he), Nat.lt_succ_self g.nextEdge⟩
  incoming := by
    intro b' hb'
    obtain ⟨b, hb, rfl⟩ := List.mem_map.1 hb'
    show (if b.id = t then b.incoming ++ [g.nextEdge] else b.incoming) = _
    rw [h.incoming b hb]
    exact (edgeIds_append g.edges ⟨g.nextEdge, s, t, c?⟩ (·.target) b.id).symm
  outgoing := by
    intro b' hb'
    obtain ⟨b, hb, rfl⟩ := List.mem_map.1 hb'
    show (if b.id = s then b.outgoing ++ [g.nextEdge] else b.outgoing) = _
    rw [h.outgoing b hb]
    exact (edgeIds_append g.edges ⟨g.nextEdge, s, t, c?⟩ (·.source) b.id).symm
  source_mem := by
    rw [ids_addEdge]
    exact forall_mem_edges_addEdge.2 ⟨h.source_mem, hs⟩
  target_mem := by
    rw [ids_addEdge]
    exact forall_mem_edges_addEdge.2 ⟨h.target_mem, ht⟩

/-- What becomes of the condition of an edge: one that is always met is dropped, and one that never
is leaves no edge. -/
def Keeps (cond? c? : Option Expr) : Prop :=
  match cond?.bind Expr.constant? with
  | some false => False
  | some true => c? = none
  | none => c? = cond?

theorem keeps_none {c? : Option Expr} : Keeps none c? ↔ c? = none := Iff.rfl

theorem hasEdge_connect (g : FlowGraph) (a b s t : Nat) (c? cond? : Option Expr) :
    (g.connect a b cond?).HasEdge s t c? ↔ g.HasEdge s t c? ∨ s = a ∧ t = b ∧ Keeps cond? c? := by
  unfold connect Keeps
  cases cond?.bind Expr.constant? with
  | none => exact hasEdge_addEdge g a b s t c? cond?
  | some v =>
    cases v with
    | false => simp
    | true => exact hasEdge_addEdge g a b s t c? none

@[simp] theorem skeleton_connect (g : FlowGraph) (s t : Nat) (c? : Option Expr) :
    (g.connect s t c?).skeleton = g.skeleton := by
  unfold connect
  split <;> simp

@[simp] theorem stop_connect (g : FlowGraph) (s t : Nat) (c? : Option Expr) :
    (g.connect s t c?).stop = g.stop := by
  unfold connect
  split <;> rfl

theorem WellFormed.connect {g : FlowGraph} (h : g.WellFormed) {s t : Nat} (hs : s ∈ g.ids)
    (ht : t ∈ g.ids) (c? : Option Expr) : (g.connect s t c?).WellFormed := by
  unfold FlowGraph.connect
  split
  · exact h
  · exact h.addEdge hs ht none
  · exact h.addEdge hs ht c?

/-! ## The blocks of straight runs -/

theorem skeleton_ofRuns (runs : List Code) :
    (ofRuns runs).skeleton =
      (0, .start, []) :: (runs.mapIdx fun k r => (k + 1, .basic, r)) ++
        [(runs.length + 1, .stop, [])] := by
  have from_eq : ∀ n, (blocksFrom n runs).map (fun b => (b.id, b.kind, b.code)) =
      (runs.mapIdx fun k r => (n + k, .basic, r)) ++ [(n + runs.length, .stop, [])] := by
    induction runs with
    | nil => intro n; rfl
    | cons r rs ih =>
      intro n
      rw [blocksFrom, List.map_cons, ih (n + 1), List.mapIdx_cons, List.cons_append]
      simp only [List.length_cons, Nat.add_zero, Nat.add_assoc, Nat.add_comm 1]
  unfold skeleton ofRuns
  rw [List.map_cons, from_eq 1]
  simp only [Nat.add_comm 1, List.cons_append]

theorem mem_skeleton_ofRuns {runs : List Code} {n : Nat} {k : BlockKind} {r : Code} :
    (n, k, r) ∈ (ofRuns runs).skeleton ↔
      (n = 0 ∧ k = .start ∧ r = []) ∨ (k = .basic ∧ 0 < n ∧ runs[n - 1]? = some r) ∨
        (n = runs.length + 1 ∧ k = .stop ∧ r = []) := by
  rw [skeleton_ofRuns]
  simp only [List.cons_append, List.mem_cons, List.mem_append, List.mem_mapIdx, List.not_mem_nil,
    or_false, Prod.mk.injEq]
  refine or_congr_right (or_congr_left ?_)
  constructor
  · rintro ⟨i, hi, rfl, rfl, rfl⟩
    exact ⟨rfl, by omega, by simp [hi]⟩
  · rintro ⟨rfl, hn, hr⟩
    obtain ⟨hlt, rfl⟩ := List.getElem?_eq_some_iff.1 hr
    exact ⟨n - 1, hlt, by omega, rfl, rfl⟩

theorem mem_ids_ofRuns {runs : List Code} {n : Nat} :
    n ∈ (ofRuns runs).ids ↔ n ≤ runs.length + 1 := by
  rw [ids_eq_skeleton, List.mem_map]
  constructor
  · rintro ⟨⟨n, k, r⟩, h, rfl⟩
    rcases mem_skeleton_ofRuns.1 h with ⟨rfl, -⟩ | ⟨-, hn, hr⟩ | ⟨rfl, -⟩
    · exact Nat.zero_le _
    · have := (List.getElem?_eq_some_iff.1 hr).1
      show n ≤ _
      omega
    · exact Nat.le_refl _
  · intro h
    by_cases h0 : n = 0
    · exact ⟨(n, .start, []), mem_skeleton_ofRuns.2 (.inl ⟨h0, rfl, rfl⟩), rfl⟩
    · by_cases hl : n = runs.length + 1
      · exact ⟨(n, .stop, []), mem_skeleton_ofRuns.2 (.inr (.inr ⟨hl, rfl, rfl⟩)), rfl⟩
      · have hr : runs[n - 1]? = some runs[n - 1] := List.getElem?_eq_getElem (by omega)
        exact ⟨(n, .basic, runs[n - 1]), mem_skeleton_ofRuns.2 (.inr (.inl ⟨rfl, by omega, hr⟩)), rfl⟩

theorem ids_ofRuns (runs : List Code) : (ofRuns runs).ids = List.range (runs.length + 2) := by
  rw [ids_eq_skeleton, skeleton_ofRuns]
  refine List.ext_getElem (by simp) fun i h₁ h₂ => ?_
  rcases i with _ | i
  · simp
  · rcases Nat.lt_or_ge i runs.length with h | h
    · simp [h]
    · obtain rfl : i = runs.length := by simp at h₂; omega
      simp

theorem edges_nil_of_mem_ofRuns {runs : List Code} {b : Block} (hb : b ∈ (ofRuns runs).blocks) :
    b.incoming = [] ∧ b.outgoing = [] := by
  have from_nil : ∀ n, ∀ b ∈ blocksFrom n runs, b.incoming = [] ∧ b.outgoing = [] := by
    clear hb
    induction runs with
    | nil =>
      intro n b hb
      rw [blocksFrom, List.mem_singleton] at hb
      exact hb ▸ ⟨rfl, rfl⟩
    | cons r rs ih =>
      intro n b hb
      rw [blocksFrom, List.mem_cons] at hb
      rcases hb with rfl | hb
      · exact ⟨rfl, rfl⟩
      · exact ih (n + 1) b hb
  rcases List.mem_cons.1 hb with rfl | hb
  · exact ⟨rfl, rfl⟩
  · exact from_nil 1 b hb

theorem wellFormed_ofRuns (runs : List Code) : (ofRuns runs).WellFormed where
  blockIds := by rw [ids_ofRuns]; exact List.nodup_range
  edgeIds := List.nodup_nil
  fresh := by intro e he; cases he
  incoming := by intro b hb; exact (edges_nil_of_mem_ofRuns hb).1
  outgoing := by intro b hb; exact (edges_nil_of_mem_ofRuns hb).2
  source_mem := by intro e he; cases he
  target_mem := by intro e he; cases he

/-! ## Targets of jumps -/

theorem labelled_eq (g : FlowGraph) (l : Label) :
    g.labelled l =
      match g.skeleton.reverse.find? (fun b => b.2.2.head?.bind Instr.label? = some l) with
      | some b => .ok b.1
      | none => .error (.undeclaredLabel l.name) := by
  unfold labelled skeleton
  rw [← List.map_reverse, List.find?_map]
  have same : (fun b : Block => decide (b.code.head?.bind Instr.label? = some l)) =
      (fun b : Nat × BlockKind × Code => decide (b.2.2.head?.bind Instr.label? = some l)) ∘
        fun b : Block => (b.id, b.kind, b.code) := rfl
  rw [same]
  cases List.find? _ g.blocks.reverse <;> rfl

theorem labelled_congr {g g' : FlowGraph} (h : g'.skeleton = g.skeleton) (l : Label) :
    g'.labelled l = g.labelled l := by
  rw [labelled_eq, labelled_eq, h]

theorem labelled_mem {g : FlowGraph} {l : Label} {n : Nat} (h : g.labelled l = .ok n) :
    n ∈ g.ids := by
  unfold labelled at h
  split at h
  case h_1 b hb =>
    cases h
    exact List.mem_map_of_mem (List.mem_reverse.1 (List.mem_of_find?_eq_some hb))
  case h_2 => cases h

/-- A jump goes to the last of the runs that its label opens. -/
theorem labelled_ofRuns {l : Label} {before rs : List Code} {r : Code}
    (hr : r.head? = some (.label l)) (hrs : ∀ q ∈ rs, q.head? ≠ some (.label l)) :
    (ofRuns (before ++ r :: rs)).labelled l = .ok (before.length + 1) := by
  have hl : ∀ q : Code, q.head?.bind Instr.label? = some l ↔ q.head? = some (.label l) := by
    intro q
    rw [Option.bind_eq_some_iff]
    constructor
    · rintro ⟨i, hi, h⟩
      rw [hi, Instr.label?_eq_some.1 h]
    · intro h
      exact ⟨_, h, rfl⟩
  have parts : (ofRuns (before ++ r :: rs)).skeleton =
      ((0, .start, []) :: before.mapIdx fun k q => (k + 1, .basic, q)) ++
        (before.length + 1, .basic, r) ::
          ((rs.mapIdx fun k q => (k + 1 + before.length + 1, .basic, q)) ++
            [((before ++ r :: rs).length + 1, .stop, [])]) := by
    rw [skeleton_ofRuns, List.mapIdx_append, List.mapIdx_cons]
    simp
  have none_behind : ∀ b ∈ ((rs.mapIdx fun k q => (k + 1 + before.length + 1, BlockKind.basic, q)) ++
      [((before ++ r :: rs).length + 1, BlockKind.stop, [])]).reverse,
      ¬ decide (b.2.2.head?.bind Instr.label? = some l) = true := by
    intro b hb
    rw [decide_eq_true_iff, hl]
    rcases List.mem_append.1 (List.mem_reverse.1 hb) with hb | hb
    · obtain ⟨i, hi, rfl⟩ := List.mem_mapIdx.1 hb
      exact hrs _ (List.getElem_mem hi)
    · rw [List.mem_singleton.1 hb]
      simp
  rw [labelled_eq, parts, List.reverse_append, List.reverse_cons, List.append_assoc,
    List.find?_append, List.find?_eq_none.2 none_behind, Option.none_or, List.singleton_append,
    List.find?_cons_of_pos (by rw [decide_eq_true_iff, hl]; exact hr)]

end FlowGraph

/-! ## Wiring -/

open FlowGraph (Keeps)

/-- Where control goes at the end of a block, and under which condition: where the last instruction
says, or on to the next block. -/
def Block.Leads (g : FlowGraph) (b : Block) (t : Nat) (c? : Option Expr) : Prop :=
  match b.code.getLast? with
  | some (.jump l) => g.labelled l = .ok t ∧ c? = none
  | some (.branch l c on) =>
    (g.labelled l = .ok t ∧ Keeps (some (if on then c else c.negate)) c?) ∨
      (t = b.id + 1 ∧ Keeps (some (if on then c.negate else c)) c?)
  | some (.ret _) => t = g.stop ∧ c? = none
  | _ => t = b.id + 1 ∧ c? = none

namespace FlowGraph

/-- `g` is `g₀` with more edges. -/
structure Grown (g₀ g : FlowGraph) : Prop where
  skeleton : g.skeleton = g₀.skeleton
  stop : g.stop = g₀.stop
  wellFormed : g.WellFormed

theorem Grown.connect {g₀ g : FlowGraph} (h : Grown g₀ g) {s t : Nat} (hs : s ∈ g₀.ids)
    (ht : t ∈ g₀.ids) (c? : Option Expr) : Grown g₀ (g.connect s t c?) where
  skeleton := by rw [skeleton_connect, h.skeleton]
  stop := by rw [stop_connect, h.stop]
  wellFormed := by
    have ids_eq : g.ids = g₀.ids := by rw [ids_eq_skeleton, ids_eq_skeleton, h.skeleton]
    exact h.wellFormed.connect (ids_eq ▸ hs) (ids_eq ▸ ht) c?

/-- Wiring a block adds the edges that lead away from it. -/
theorem exists_wireBlock {g₀ g : FlowGraph} (h : Grown g₀ g) {b : Block} (hb : b.id ∈ g₀.ids)
    (hnext : b.id + 1 ∈ g₀.ids) (hstop : g₀.stop ∈ g₀.ids)
    (hl : ∀ i ∈ b.code, ∀ l, i.target? = some l → ∃ n, g₀.labelled l = .ok n) :
    ∃ g', g.wireBlock b = .ok g' ∧ Grown g₀ g' ∧
      ∀ s t c?, g'.HasEdge s t c? ↔ g.HasEdge s t c? ∨ s = b.id ∧ b.Leads g₀ t c? := by
  unfold wireBlock Block.Leads
  have hlast : ∀ i, b.code.getLast? = some i → i ∈ b.code := fun i hi => List.mem_of_getLast? hi
  have hplain : ∃ g', (Except.ok (g.connect b.id (b.id + 1) none) : Except Fault FlowGraph) = .ok g' ∧
      Grown g₀ g' ∧ ∀ s t c?, g'.HasEdge s t c? ↔
        g.HasEdge s t c? ∨ s = b.id ∧ t = b.id + 1 ∧ c? = none :=
    ⟨_, rfl, h.connect hb hnext none, fun s t c? => hasEdge_connect g b.id (b.id + 1) s t c? none⟩
  cases hc : b.code.getLast? with
  | none => exact hplain
  | some i =>
    cases i with
    | eval e => exact hplain
    | declare x e => exact hplain
    | label l => exact hplain
    | jump l =>
      obtain ⟨n, hn⟩ := hl _ (hlast _ hc) l rfl
      refine ⟨g.connect b.id n none, ?_, h.connect hb (labelled_mem hn) none, fun s t c? => ?_⟩
      · simp only [labelled_congr h.skeleton, hn]
        rfl
      · rw [hasEdge_connect, keeps_none]
        constructor
        · rintro (he | ⟨rfl, rfl, rfl⟩)
          · exact .inl he
          · exact .inr ⟨rfl, hn, rfl⟩
        · rintro (he | ⟨rfl, ht, rfl⟩)
          · exact .inl he
          · rw [hn, Except.ok.injEq] at ht
            exact .inr ⟨rfl, ht.symm, rfl⟩
    | branch l c on =>
      obtain ⟨n, hn⟩ := hl _ (hlast _ hc) l rfl
      refine ⟨_, ?_, (h.connect hb (labelled_mem hn) (some (if on then c else c.negate))).connect hb
        hnext (some (if on then c.negate else c)), fun s t c? => ?_⟩
      · simp only [labelled_congr h.skeleton, hn]
        rfl
      · rw [hasEdge_connect, hasEdge_connect]
        constructor
        · rintro ((he | ⟨rfl, rfl, hk⟩) | ⟨rfl, rfl, hk⟩)
          · exact .inl he
          · exact .inr ⟨rfl, .inl ⟨hn, hk⟩⟩
          · exact .inr ⟨rfl, .inr ⟨rfl, hk⟩⟩
        · rintro (he | ⟨rfl, ⟨ht, hk⟩ | ⟨rfl, hk⟩⟩)
          · exact .inl (.inl he)
          · rw [hn, Except.ok.injEq] at ht
            exact .inl (.inr ⟨rfl, ht.symm, hk⟩)
          · exact .inr ⟨rfl, rfl, hk⟩
    | ret v? =>
      refine ⟨_, rfl, h.connect hb (h.stop ▸ hstop) none, fun s t c? => ?_⟩
      rw [hasEdge_connect, keeps_none, h.stop]

/-- Wiring blocks one after the other adds the edges that lead away from each of them. -/
theorem exists_wireBlocks {g₀ : FlowGraph} (hstop : g₀.stop ∈ g₀.ids) {bs : List Block}
    (hbs : ∀ b ∈ bs, b.id ∈ g₀.ids ∧ b.id + 1 ∈ g₀.ids ∧
      ∀ i ∈ b.code, ∀ l, i.target? = some l → ∃ n, g₀.labelled l = .ok n) :
    ∀ {g : FlowGraph}, Grown g₀ g → ∃ g', bs.foldlM wireBlock g = .ok g' ∧ Grown g₀ g' ∧
      ∀ s t c?, g'.HasEdge s t c? ↔
        g.HasEdge s t c? ∨ ∃ b ∈ bs, s = b.id ∧ b.Leads g₀ t c? := by
  induction bs with
  | nil =>
    intro g h
    exact ⟨g, rfl, h, fun s t c? => by simp⟩
  | cons b bs ih =>
    intro g h
    obtain ⟨hb, hnext, hl⟩ := hbs b List.mem_cons_self
    obtain ⟨g₁, hw, h₁, edges₁⟩ := exists_wireBlock h hb hnext hstop hl
    obtain ⟨g₂, hw₂, h₂, edges₂⟩ := ih (fun b hb => hbs b (List.mem_cons_of_mem _ hb)) h₁
    refine ⟨g₂, ?_, h₂, fun s t c? => ?_⟩
    · rw [List.foldlM_cons, hw]
      exact hw₂
    · rw [edges₂, edges₁]
      simp only [List.mem_cons, exists_eq_or_imp, or_assoc]

theorem exists_labelled {runs : List Code} {l : Label} {r : Code} (hr : r ∈ runs)
    (hl : r.head? = some (.label l)) : ∃ n, (ofRuns runs).labelled l = .ok n := by
  rw [labelled_eq]
  cases hf : List.find? _ (ofRuns runs).skeleton.reverse with
  | some b => exact ⟨b.1, rfl⟩
  | none =>
    obtain ⟨i, hi, rfl⟩ := List.getElem_of_mem hr
    have hmem : (i + 1, BlockKind.basic, runs[i]) ∈ (ofRuns runs).skeleton :=
      mem_skeleton_ofRuns.2 (.inr (.inl ⟨rfl, by omega, by simp [hi]⟩))
    have := List.find?_eq_none.1 hf _ (List.mem_reverse.2 hmem)
    rw [decide_eq_true_iff, hl] at this
    exact absurd rfl this

/-- `u` is the graph of the code before pruning. -/
structure Wired (code : Code) (u : FlowGraph) : Prop extends
    Grown (ofRuns (Code.runs code)) u where
  hasEdge_iff : ∀ s t c?, u.HasEdge s t c? ↔ (s = 0 ∧ t = 1 ∧ c? = none) ∨
    ∃ b ∈ (ofRuns (Code.runs code)).basicBlocks, s = b.id ∧ b.Leads (ofRuns (Code.runs code)) t c?

theorem mem_basicBlocks_ofRuns {runs : List Code} {b : Block}
    (hb : b ∈ (ofRuns runs).basicBlocks) : 0 < b.id ∧ runs[b.id - 1]? = some b.code := by
  unfold basicBlocks at hb
  rw [List.mem_filter, decide_eq_true_iff] at hb
  have hm : (b.id, b.kind, b.code) ∈ (ofRuns runs).skeleton := List.mem_map_of_mem hb.1
  rw [mem_skeleton_ofRuns, hb.2] at hm
  rcases hm with ⟨-, h, -⟩ | ⟨-, h⟩ | ⟨-, h, -⟩
  · cases h
  · exact h
  · cases h

/-- Code whose jumps have their labels can be wired. -/
theorem exists_wired {code : Code} (h : code.Closed) :
    ∃ u, (ofRuns (Code.runs code)).wire = .ok u ∧ Wired code u := by
  have hstop : (ofRuns (Code.runs code)).stop ∈ (ofRuns (Code.runs code)).ids :=
    mem_ids_ofRuns.2 (Nat.le_refl _)
  have hfirst : Grown (ofRuns (Code.runs code)) ((ofRuns (Code.runs code)).connect 0 1 none) :=
    Grown.connect ⟨rfl, rfl, wellFormed_ofRuns _⟩ (mem_ids_ofRuns.2 (Nat.zero_le _))
      (mem_ids_ofRuns.2 (by omega)) none
  have hblocks : ∀ b ∈ (ofRuns (Code.runs code)).basicBlocks,
      b.id ∈ (ofRuns (Code.runs code)).ids ∧ b.id + 1 ∈ (ofRuns (Code.runs code)).ids ∧
        ∀ i ∈ b.code, ∀ l, i.target? = some l → ∃ n, (ofRuns (Code.runs code)).labelled l = .ok n := by
    intro b hb
    obtain ⟨hpos, hr⟩ := mem_basicBlocks_ofRuns hb
    have hlt := (List.getElem?_eq_some_iff.1 hr).1
    refine ⟨mem_ids_ofRuns.2 (by omega), mem_ids_ofRuns.2 (by omega), fun i hi l hl => ?_⟩
    have hmem : i ∈ code := by
      rw [← Code.flatten_runs code]
      exact List.mem_flatten_of_mem (List.mem_of_getElem? hr) hi
    obtain ⟨r, hr, hhead⟩ := Code.exists_run_of_label (h i hmem l hl)
    exact exists_labelled hr hhead
  obtain ⟨u, hw, hg, edges⟩ := exists_wireBlocks hstop hblocks hfirst
  refine ⟨u, hw, hg, fun s t c? => ?_⟩
  rw [edges, hasEdge_connect, keeps_none]
  have no_edge : ¬ (ofRuns (Code.runs code)).HasEdge s t c? := by
    rintro ⟨e, he, -⟩
    cases he
  simp only [no_edge, false_or]

theorem ofCode_eq {code : Code} {u : FlowGraph} (h : (ofRuns (Code.runs code)).wire = .ok u) :
    ofCode code = .ok u.prune := by
  unfold ofCode
  rw [h]
  rfl

end FlowGraph

end Scripting.Typed
