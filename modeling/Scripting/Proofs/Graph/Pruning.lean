import Mathlib.Data.Fintype.Card
import Mathlib.Data.Set.Finite.Basic
import Mathlib.Logic.Relation
import Scripting.Proofs.Graph.Wiring

/-!
# Pruning

Pruning removes blocks that no edge ends in, one after the other. With a block go the edges at it, each from the
lists of the two blocks that it joins; where the lists agree, this leaves the edges out of every list
(`WellFormed.removeBlock_eq`). A set of blocks in which each is the target of an edge from the set survives
(`prune_keeps`), and what survives is such a set (`exists_linked_of_mem_prune`). So exactly those blocks stay that
can be reached from the entry or from a cycle (`mem_prune_iff`): unreachable code goes, unless it loops.
-/

namespace Scripting.Typed

namespace FlowGraph

variable {g : FlowGraph} {b : Block}

/-! ## Removing a block -/

theorem WellFormed.mem_numbers (h : g.WellFormed) {e : Edge} (he : e ∈ g.edges) {p : Edge → Bool} :
    e.id ∈ (g.edges.filter p).map (·.id) ↔ p e = true := by
  rw [List.mem_map]
  constructor
  · rintro ⟨e', he', hid⟩
    obtain ⟨hmem, hp⟩ := List.mem_filter.1 he'
    rwa [← List.inj_on_of_nodup_map h.edgeIds hmem he hid]
  · intro hp
    exact ⟨e, List.mem_filter.2 ⟨he, hp⟩, rfl⟩

theorem WellFormed.mem_incoming (h : g.WellFormed) (hb : b ∈ g.blocks) {e : Edge} (he : e ∈ g.edges) :
    e.id ∈ b.incoming ↔ e.target = b.id := by
  rw [h.incoming b hb, h.mem_numbers he, decide_eq_true_iff]

theorem WellFormed.mem_outgoing (h : g.WellFormed) (hb : b ∈ g.blocks) {e : Edge} (he : e ∈ g.edges) :
    e.id ∈ b.outgoing ↔ e.source = b.id := by
  rw [h.outgoing b hb, h.mem_numbers he, decide_eq_true_iff]

/-- The graph with the edges of some numbers left out of every list. -/
def withoutEdges (g : FlowGraph) (ns : List Nat) : FlowGraph :=
  { g with
    blocks := g.blocks.map fun c =>
      { c with
        incoming := c.incoming.filter (· ∉ ns)
        outgoing := c.outgoing.filter (· ∉ ns) }
    edges := g.edges.filter (·.id ∉ ns) }

/-- The numbers are those of edges with the property. -/
def Numbers (g : FlowGraph) (p : Edge → Prop) (ns : List Nat) : Prop :=
  ∀ n ∈ ns, ∃ e ∈ g.edges, e.id = n ∧ p e

/-- Numbers of edges are used once, and blocks list edges at them only. A graph keeps this when a block goes
before its edges do. -/
structure Listed (g : FlowGraph) : Prop where
  edgeIds : (g.edges.map (·.id)).Nodup
  incoming : ∀ b ∈ g.blocks, g.Numbers (·.target = b.id) b.incoming
  outgoing : ∀ b ∈ g.blocks, g.Numbers (·.source = b.id) b.outgoing

theorem numbers_map_filter (g : FlowGraph) (p : Edge → Prop) [DecidablePred p] :
    g.Numbers p ((g.edges.filter p).map (·.id)) := by
  refine List.forall_mem_map.2 fun e he => ?_
  obtain ⟨hmem, hp⟩ := List.mem_filter.1 he
  exact ⟨e, hmem, rfl, of_decide_eq_true hp⟩

theorem withoutEdges_nil (g : FlowGraph) : g.withoutEdges [] = g := by
  simp [withoutEdges]

theorem withoutEdges_withoutEdges (g : FlowGraph) (ms ns : List Nat) :
    (g.withoutEdges ms).withoutEdges ns = g.withoutEdges (ms ++ ns) := by
  simp [withoutEdges, List.filter_filter, Bool.and_comm]

theorem Numbers.withoutEdges {p : Edge → Prop} {ms : List Nat} (h : g.Numbers p ms) (ns : List Nat) :
    (g.withoutEdges ns).Numbers p (ms.filter (· ∉ ns)) := by
  intro n hn
  obtain ⟨hmem, hkept⟩ := List.mem_filter.1 hn
  obtain ⟨e, he, rfl, hp⟩ := h n hmem
  exact ⟨e, List.mem_filter.2 ⟨he, hkept⟩, rfl, hp⟩

theorem Listed.withoutEdges (h : g.Listed) (ns : List Nat) : (g.withoutEdges ns).Listed where
  edgeIds := h.edgeIds.sublist (List.filter_sublist.map _)
  incoming := List.forall_mem_map.2 fun b hb => (h.incoming b hb).withoutEdges ns
  outgoing := List.forall_mem_map.2 fun b hb => (h.outgoing b hb).withoutEdges ns

/-- A list without an edge's number stays as it is when the edge goes. -/
theorem Numbers.filter_eq_self {p : Edge → Prop} {ms : List Nat} (h : g.Numbers p ms) {n : Nat}
    (hn : ∀ e ∈ g.edges, e.id = n → ¬ p e) : ms.filter (· ∉ [n]) = ms := by
  refine List.filter_eq_self.2 fun m hm => decide_eq_true fun hmem => ?_
  obtain ⟨e, he, hid, hp⟩ := h m hm
  exact hn e he (hid.trans (List.mem_singleton.1 hmem)) hp

/-- It is enough to take an edge out of the lists of the blocks that it joins: no other block lists it. -/
theorem Listed.removeEdge_eq (h : g.Listed) (n : Nat) : g.removeEdge n = g.withoutEdges [n] := by
  unfold FlowGraph.removeEdge
  split
  · next hnone =>
    have hne : ∀ e ∈ g.edges, e.id ≠ n := fun e he => by simpa using List.find?_eq_none.1 hnone e he
    refine (congrArg₂ (FlowGraph.mk · · g.stop g.nextEdge) ?_ ?_).symm
    · refine Eq.trans (List.map_congr_left fun b hb => ?_) (List.map_id _)
      rw [(h.incoming b hb).filter_eq_self fun e he hid => absurd hid (hne e he),
        (h.outgoing b hb).filter_eq_self fun e he hid => absurd hid (hne e he)]
      rfl
    · exact List.filter_eq_self.2 fun e he => decide_eq_true fun hmem => hne e he (List.mem_singleton.1 hmem)
  · next e hfind =>
    have he : e ∈ g.edges := List.mem_of_find?_eq_some hfind
    have hid : e.id = n := by simpa using List.find?_some hfind
    have honly : ∀ e' ∈ g.edges, e'.id = n → e' = e := fun e' he' hid' =>
      List.inj_on_of_nodup_map h.edgeIds he' he (hid'.trans hid.symm)
    have hdrop : ∀ ms : List Nat, ms.filter (· ≠ n) = ms.filter (· ∉ [n]) := fun ms => by simp
    refine congrArg₂ (FlowGraph.mk · · g.stop g.nextEdge) (List.map_congr_left fun b hb => ?_) ?_
    · refine congrArg₂ (Block.mk b.id b.kind b.code) ?_ ?_
      · split
        · exact hdrop b.incoming
        · next hne =>
          refine ((h.incoming b hb).filter_eq_self fun e' he' hid' => ?_).symm
          rw [honly e' he' hid']
          exact Ne.symm hne
      · split
        · exact hdrop b.outgoing
        · next hne =>
          refine ((h.outgoing b hb).filter_eq_self fun e' he' hid' => ?_).symm
          rw [honly e' he' hid']
          exact Ne.symm hne
    · simp

theorem Listed.foldl_removeEdge (h : g.Listed) (ns : List Nat) :
    ns.foldl FlowGraph.removeEdge g = g.withoutEdges ns := by
  induction ns generalizing g with
  | nil => exact (withoutEdges_nil g).symm
  | cons n ns ih =>
    rw [List.foldl_cons, h.removeEdge_eq, ih (h.withoutEdges [n]), withoutEdges_withoutEdges]
    rfl

/-- Removing a block leaves it out, and the edges at it out of every list. -/
theorem WellFormed.removeBlock_eq (h : g.WellFormed) (b : Block) :
    g.removeBlock b =
      FlowGraph.withoutEdges { g with blocks := g.blocks.filter (·.id ≠ b.id) } (b.incoming ++ b.outgoing) := by
  apply Listed.foldl_removeEdge
  refine ⟨h.edgeIds, fun c hc => ?_, fun c hc => ?_⟩
  · rw [h.incoming c (List.mem_of_mem_filter hc)]
    exact numbers_map_filter { g with blocks := _ } _
  · rw [h.outgoing c (List.mem_of_mem_filter hc)]
    exact numbers_map_filter { g with blocks := _ } _

/-- Removing a block removes the edges at it. -/
theorem WellFormed.edges_removeBlock (h : g.WellFormed) (hb : b ∈ g.blocks) :
    (g.removeBlock b).edges = g.edges.filter fun e => e.source ≠ b.id ∧ e.target ≠ b.id := by
  rw [h.removeBlock_eq b]
  refine List.filter_congr fun e he => ?_
  rw [decide_eq_decide, List.mem_append, not_or, h.mem_incoming hb he, h.mem_outgoing hb he, and_comm]

/-- What removing an edge leaves alone, removing many leaves alone. -/
theorem foldl_removeEdge {α : Type} {f : FlowGraph → α} (hf : ∀ g n, f (g.removeEdge n) = f g) (ns : List Nat)
    (g : FlowGraph) : f (ns.foldl removeEdge g) = f g := by
  induction ns generalizing g with
  | nil => rfl
  | cons n ns ih => exact (ih _).trans (hf g n)

theorem stop_removeBlock (g : FlowGraph) (b : Block) : (g.removeBlock b).stop = g.stop := by
  refine foldl_removeEdge (fun g n => ?_) _ _
  unfold removeEdge
  split <;> rfl

theorem skeleton_removeEdge (g : FlowGraph) (n : Nat) : (g.removeEdge n).skeleton = g.skeleton := by
  unfold removeEdge
  split
  · rfl
  · unfold skeleton
    rw [List.map_map]
    rfl

theorem skeleton_removeBlock : (g.removeBlock b).skeleton = g.skeleton.filter (·.1 ≠ b.id) := by
  unfold removeBlock
  rw [foldl_removeEdge skeleton_removeEdge]
  unfold skeleton
  rw [List.filter_map]
  rfl

theorem mem_ids_removeBlock {n : Nat} : n ∈ (g.removeBlock b).ids ↔ n ∈ g.ids ∧ n ≠ b.id := by
  rw [ids_eq_skeleton, ids_eq_skeleton, skeleton_removeBlock]
  simp only [List.mem_map, List.mem_filter, decide_eq_true_iff]
  constructor
  · rintro ⟨k, ⟨hk, hne⟩, rfl⟩
    exact ⟨⟨k, hk, rfl⟩, hne⟩
  · rintro ⟨⟨k, hk, rfl⟩, hne⟩
    exact ⟨k, ⟨hk, hne⟩, rfl⟩

/-- The numbers that a block keeps are those of the edges that stay. -/
theorem filter_withoutEdges (g : FlowGraph) (ns : List Nat) (p : Edge → Bool) :
    ((g.edges.filter p).map (·.id)).filter (· ∉ ns) = ((g.withoutEdges ns).edges.filter p).map (·.id) := by
  unfold withoutEdges
  rw [List.filter_map, List.filter_filter, List.filter_filter]
  congr 1
  refine List.filter_congr fun e _ => ?_
  rw [Bool.and_comm]
  rfl

theorem WellFormed.removeBlock (h : g.WellFormed) (hb : b ∈ g.blocks) : (g.removeBlock b).WellFormed where
  blockIds := by
    rw [ids_eq_skeleton, skeleton_removeBlock]
    exact (ids_eq_skeleton g ▸ h.blockIds).sublist (List.filter_sublist.map _)
  edgeIds := by
    rw [h.edges_removeBlock hb]
    exact h.edgeIds.sublist (List.filter_sublist.map _)
  fresh := by
    intro e he
    rw [h.removeBlock_eq b] at he ⊢
    exact h.fresh e (List.mem_of_mem_filter he)
  incoming := by
    rw [h.removeBlock_eq b]
    refine List.forall_mem_map.2 fun c hc => ?_
    show c.incoming.filter _ = _
    rw [h.incoming c (List.mem_of_mem_filter hc)]
    exact filter_withoutEdges { g with blocks := _ } _ _
  outgoing := by
    rw [h.removeBlock_eq b]
    refine List.forall_mem_map.2 fun c hc => ?_
    show c.outgoing.filter _ = _
    rw [h.outgoing c (List.mem_of_mem_filter hc)]
    exact filter_withoutEdges { g with blocks := _ } _ _
  source_mem := by
    intro e he
    rw [h.edges_removeBlock hb, List.mem_filter, decide_eq_true_iff] at he
    exact mem_ids_removeBlock.2 ⟨h.source_mem e he.1, he.2.1⟩
  target_mem := by
    intro e he
    rw [h.edges_removeBlock hb, List.mem_filter, decide_eq_true_iff] at he
    exact mem_ids_removeBlock.2 ⟨h.target_mem e he.1, he.2.2⟩

theorem WellFormed.hasEdge_removeBlock (h : g.WellFormed) (hb : b ∈ g.blocks) {s t : Nat}
    {c? : Option Expr} :
    (g.removeBlock b).HasEdge s t c? ↔ g.HasEdge s t c? ∧ s ≠ b.id ∧ t ≠ b.id := by
  unfold HasEdge
  rw [h.edges_removeBlock hb]
  constructor
  · rintro ⟨e, he, rfl, rfl, rfl⟩
    rw [List.mem_filter, decide_eq_true_iff] at he
    exact ⟨⟨e, he.1, rfl, rfl, rfl⟩, he.2⟩
  · rintro ⟨⟨e, he, rfl, rfl, rfl⟩, hne⟩
    exact ⟨e, List.mem_filter.2 ⟨he, decide_eq_true hne⟩, rfl, rfl, rfl⟩

/-! ## Orphans -/

theorem orphan?_eq_some (h : g.orphan? = some b) : b ∈ g.blocks ∧ b.kind = .basic ∧ b.incoming = [] := by
  unfold orphan? at h
  exact ⟨List.mem_of_find?_eq_some h, by simpa using List.find?_some h⟩

theorem WellFormed.not_linked_of_orphan (h : g.WellFormed) (ho : g.orphan? = some b) (s : Nat) :
    ¬ g.Linked s b.id := by
  rintro ⟨e, he, -, ht⟩
  obtain ⟨hb, -, hin⟩ := orphan?_eq_some ho
  have := (h.mem_incoming hb he).2 ht
  rw [hin] at this
  cases this

theorem WellFormed.exists_linked (h : g.WellFormed) (hnone : g.orphan? = none) (hb : b ∈ g.blocks)
    (hk : b.kind = .basic) : ∃ s, g.Linked s b.id := by
  unfold orphan? at hnone
  have hin := List.find?_eq_none.1 hnone b hb
  simp only [hk, true_and, decide_eq_true_iff] at hin
  rw [h.incoming b hb, List.map_eq_nil_iff] at hin
  obtain ⟨e, he⟩ := List.exists_mem_of_ne_nil _ hin
  rw [List.mem_filter, decide_eq_true_iff] at he
  exact ⟨e.source, e, he.1, rfl, he.2⟩

theorem length_removeBlock_lt (hb : b ∈ g.blocks) : (g.removeBlock b).blocks.length < g.blocks.length := by
  have hskeleton : ∀ g : FlowGraph, g.blocks.length = g.skeleton.length := fun _ => (List.length_map _).symm
  rw [hskeleton, hskeleton, skeleton_removeBlock]
  exact List.length_filter_lt_length_iff_exists.2 ⟨_, List.mem_map_of_mem hb, by simp⟩

/-! ## Pruning step by step -/

/-- What a graph shares with one it was pruned from. -/
structure Pruned (g₀ g : FlowGraph) : Prop where
  wellFormed : g.WellFormed
  stop : g.stop = g₀.stop
  skeleton : ∀ k ∈ g.skeleton, k ∈ g₀.skeleton
  hasEdge : ∀ s t c?, g.HasEdge s t c? → g₀.HasEdge s t c?

theorem pruned_pruneTimes (n : Nat) : ∀ {g : FlowGraph}, g.WellFormed → Pruned g (pruneTimes n g) := by
  induction n with
  | zero => intro g h; exact ⟨h, rfl, fun _ hk => hk, fun _ _ _ he => he⟩
  | succ n ih =>
    intro g h
    rw [pruneTimes]
    cases ho : g.orphan? with
    | none => exact ⟨h, rfl, fun _ hk => hk, fun _ _ _ he => he⟩
    | some b =>
      have hb := (orphan?_eq_some ho).1
      obtain ⟨hw, hs, hk, he⟩ := ih (h.removeBlock hb)
      refine ⟨hw, hs.trans (stop_removeBlock g b), fun k hm => ?_, fun s t c? hst => ?_⟩
      · have := hk k hm
        rw [skeleton_removeBlock] at this
        exact List.mem_of_mem_filter this
      · exact ((h.hasEdge_removeBlock hb).1 (he s t c? hst)).1

theorem orphan?_pruneTimes (n : Nat) :
    ∀ {g : FlowGraph}, g.blocks.length ≤ n → (pruneTimes n g).orphan? = none := by
  induction n with
  | zero =>
    intro g h
    have hnil : g.blocks = [] := List.eq_nil_of_length_eq_zero (Nat.le_zero.1 h)
    show g.orphan? = none
    unfold orphan?
    rw [hnil, List.find?_nil]
  | succ n ih =>
    intro g h
    rw [pruneTimes]
    cases ho : g.orphan? with
    | none => exact ho
    | some b =>
      have := length_removeBlock_lt (orphan?_eq_some ho).1
      exact ih (by omega)

/-- Every block of the set that holds code is the target of an edge from the set. -/
def Supported (g : FlowGraph) (S : Nat → Prop) : Prop :=
  ∀ b ∈ g.blocks, b.kind = .basic → S b.id → ∃ s, S s ∧ g.Linked s b.id

/-- A set whose blocks are targets of edges from the set survives, with the edges inside it. -/
theorem pruneTimes_keeps {S : Nat → Prop} (n : Nat) :
    ∀ {g : FlowGraph}, g.WellFormed → Supported g S →
      (∀ k ∈ g.skeleton, S k.1 → k ∈ (pruneTimes n g).skeleton) ∧
        ∀ s t c?, S s → S t → g.HasEdge s t c? → (pruneTimes n g).HasEdge s t c? := by
  induction n with
  | zero => intro g _ _; exact ⟨fun _ hk _ => hk, fun _ _ _ _ _ he => he⟩
  | succ n ih =>
    intro g h hS
    rw [pruneTimes]
    cases ho : g.orphan? with
    | none => exact ⟨fun _ hk _ => hk, fun _ _ _ _ _ he => he⟩
    | some b =>
      obtain ⟨hb, hk, -⟩ := orphan?_eq_some ho
      -- the orphan is outside the set, so nothing of the set is touched
      have hout : ¬ S b.id := by
        intro hs
        obtain ⟨s, -, hl⟩ := hS b hb hk hs
        exact h.not_linked_of_orphan ho s hl
      have hne : ∀ {n}, S n → n ≠ b.id := by
        rintro n hn rfl
        exact hout hn
      have hS' : Supported (g.removeBlock b) S := by
        intro c' hc' hk' hs'
        rw [h.removeBlock_eq b] at hc'
        obtain ⟨c, hc, rfl⟩ := List.mem_map.1 hc'
        obtain ⟨s, hs, hl⟩ := hS c (List.mem_of_mem_filter hc) hk' hs'
        obtain ⟨c?, he⟩ := hl.hasEdge
        exact ⟨s, hs, ((h.hasEdge_removeBlock hb).2 ⟨he, hne hs, hne hs'⟩).linked⟩
      obtain ⟨hblocks, hedges⟩ := ih (h.removeBlock hb) hS'
      refine ⟨fun k hk hs => hblocks k ?_ hs, fun s t c? hs ht he => hedges s t c? hs ht ?_⟩
      · rw [skeleton_removeBlock]
        exact List.mem_filter.2 ⟨hk, decide_eq_true (hne hs)⟩
      · exact (h.hasEdge_removeBlock hb).2 ⟨he, hne hs, hne ht⟩

/-- The entry and the exit are never removed. -/
theorem WellFormed.mem_pruneTimes (h : g.WellFormed) {k : Nat × BlockKind × Code} (hk : k ∈ g.skeleton)
    (hkind : k.2.1 ≠ .basic) (n : Nat) : k ∈ (pruneTimes n g).skeleton := by
  have hS : Supported g (· = k.1) := by
    intro b hb hbasic hid
    have hm : (b.id, b.kind, b.code) ∈ g.skeleton := List.mem_map_of_mem hb
    rw [← List.inj_on_of_nodup_map (ids_eq_skeleton g ▸ h.blockIds) hm hk hid] at hkind
    exact absurd hbasic hkind
  exact (pruneTimes_keeps n h hS).1 k hk rfl

/-! ## What is left -/

/-- Control can pass from `s` to `t`. -/
def Reaches (g : FlowGraph) : Nat → Nat → Prop := Relation.ReflTransGen g.Linked

/-- Control can pass from `n` back to `n`. -/
def OnCycle (g : FlowGraph) (n : Nat) : Prop := Relation.TransGen g.Linked n n

/-- Control can pass to `n` from the entry or from a cycle. -/
def Fed (g : FlowGraph) (n : Nat) : Prop := g.Reaches 0 n ∨ ∃ c, g.OnCycle c ∧ g.Reaches c n

theorem pruned_prune (h : g.WellFormed) : Pruned g g.prune := pruned_pruneTimes _ h

theorem Pruned.linked {g₀ : FlowGraph} (h : Pruned g₀ g) {s t : Nat} (hl : g.Linked s t) :
    g₀.Linked s t := by
  obtain ⟨c?, he⟩ := hl.hasEdge
  exact (h.hasEdge s t c? he).linked

theorem Reaches.of_pruned {g₀ : FlowGraph} (h : Pruned g₀ g) {s t : Nat} (hr : g.Reaches s t) :
    g₀.Reaches s t :=
  Relation.ReflTransGen.mono (fun _ _ => h.linked) s t hr

theorem exists_linked_of_mem_prune (h : g.WellFormed) {n : Nat} {r : Code}
    (hn : (n, .basic, r) ∈ g.prune.skeleton) : ∃ s, g.prune.Linked s n := by
  obtain ⟨b, hb, heq⟩ := List.mem_map.1 hn
  obtain ⟨rfl, hk, rfl⟩ : b.id = n ∧ b.kind = .basic ∧ b.code = r := by simpa using heq
  exact (pruned_prune h).wellFormed.exists_linked (orphan?_pruneTimes _ (Nat.le_refl _)) hb hk

theorem Fed.step {s t : Nat} (hs : g.Fed s) (hl : g.Linked s t) : g.Fed t := by
  rcases hs with hs | ⟨c, hc, hs⟩
  · exact .inl (hs.tail hl)
  · exact .inr ⟨c, hc, hs.tail hl⟩

/-- Whatever is fed is the entry or is fed by something before it. -/
theorem Fed.exists_linked {n : Nat} (hn : g.Fed n) : n = 0 ∨ ∃ s, g.Fed s ∧ g.Linked s n := by
  rcases hn with hn | ⟨c, hc, hn⟩
  · rcases Relation.ReflTransGen.cases_tail hn with rfl | ⟨s, hs, hl⟩
    · exact .inl rfl
    · exact .inr ⟨s, .inl hs, hl⟩
  · rcases Relation.ReflTransGen.cases_tail hn with rfl | ⟨s, hs, hl⟩
    · obtain ⟨s, hs, hl⟩ := Relation.TransGen.tail'_iff.1 hc
      exact .inr ⟨s, .inr ⟨n, hc, hs⟩, hl⟩
    · exact .inr ⟨s, .inr ⟨c, hc, hs⟩, hl⟩

/-- The shape of graphs of code: the entry holds no code, and control leaves only the entry and blocks
that hold code. -/
structure Rooted (g : FlowGraph) : Prop extends g.WellFormed where
  pos_of_basic : ∀ n r, (n, .basic, r) ∈ g.skeleton → 0 < n
  source : ∀ s t, g.Linked s t → s = 0 ∨ ∃ r, (s, .basic, r) ∈ g.skeleton

theorem Rooted.supported_fed (h : g.Rooted) : Supported g g.Fed := by
  intro b hb hk hs
  rcases hs.exists_linked with h0 | hl
  · have hm : (b.id, b.kind, b.code) ∈ g.skeleton := List.mem_map_of_mem hb
    rw [hk] at hm
    have := h.pos_of_basic _ _ hm
    omega
  · exact hl

theorem WellFormed.skeleton_unique (h : g.WellFormed) {j k : Nat × BlockKind × Code}
    (hj : j ∈ g.skeleton) (hk : k ∈ g.skeleton) (heq : j.1 = k.1) : j = k :=
  List.inj_on_of_nodup_map (ids_eq_skeleton g ▸ h.blockIds) hj hk heq

/-- A block that stays, but is not fed, is the target of an edge from another such block. -/
theorem Rooted.exists_unfed (h : g.Rooted) {n : Nat} {r : Code}
    (hn : (n, .basic, r) ∈ g.prune.skeleton) (hf : ¬ g.Fed n) :
    ∃ s, g.Linked s n ∧ ¬ g.Fed s ∧ ∃ q, (s, .basic, q) ∈ g.prune.skeleton := by
  have hp := pruned_prune h.toWellFormed
  obtain ⟨s, hl⟩ := exists_linked_of_mem_prune h.toWellFormed hn
  have hl₀ := hp.linked hl
  have hs : ¬ g.Fed s := fun hs => hf (hs.step hl₀)
  refine ⟨s, hl₀, hs, ?_⟩
  rcases h.source s n hl₀ with rfl | ⟨q, hq⟩
  · exact absurd (.inl .refl) hs
  · obtain ⟨e, he, rfl, -⟩ := hl
    have hm := hp.wellFormed.source_mem e he
    rw [ids_eq_skeleton, List.mem_map] at hm
    obtain ⟨k, hk, hid⟩ := hm
    rw [h.skeleton_unique (hp.skeleton k hk) hq hid] at hk
    exact ⟨q, hk⟩

/-- **What pruning leaves.** A block of code stays exactly if control can pass to it from the entry or
from a cycle. -/
theorem Rooted.mem_prune_iff (h : g.Rooted) {n : Nat} {r : Code} :
    (n, .basic, r) ∈ g.prune.skeleton ↔ (n, .basic, r) ∈ g.skeleton ∧ g.Fed n := by
  constructor
  · intro hn
    refine ⟨(pruned_prune h.toWellFormed).skeleton _ hn, ?_⟩
    by_contra hf
    -- the blocks that stay unfed form no cycle, so going back from one to the other must end
    let U : Set Nat := {n | ¬ g.Fed n ∧ ∃ r, (n, .basic, r) ∈ g.prune.skeleton}
    have hfin : U.Finite := by
      refine (List.finite_toSet g.prune.ids).subset ?_
      rintro m ⟨-, q, hq⟩
      show m ∈ g.prune.ids
      rw [ids_eq_skeleton]
      exact List.mem_map.2 ⟨_, hq, rfl⟩
    have : Finite U := hfin
    let before : U → U → Prop := fun a b => Relation.TransGen g.Linked a b
    have : IsTrans U before := ⟨fun a b c => Relation.TransGen.trans⟩
    have : Std.Irrefl before := ⟨fun a ha => a.2.1 (.inr ⟨a, ha, .refl⟩)⟩
    have hwf : WellFounded before := Finite.wellFounded_of_trans_of_irrefl before
    refine hwf.induction (C := fun _ => False) ⟨n, hf, r, hn⟩ ?_
    rintro ⟨m, hm, q, hq⟩ ih
    obtain ⟨s, hl, hs, p, hp⟩ := h.exists_unfed hq hm
    exact ih ⟨s, hs, p, hp⟩ (.single hl)
  · rintro ⟨hn, hf⟩
    exact (pruneTimes_keeps _ h.toWellFormed h.supported_fed).1 _ hn hf

/-- Edges between blocks that are fed stay. -/
theorem Rooted.hasEdge_prune (h : g.Rooted) {s t : Nat} {c? : Option Expr} (hs : g.Fed s)
    (he : g.HasEdge s t c?) : g.prune.HasEdge s t c? :=
  (pruneTimes_keeps _ h.toWellFormed h.supported_fed).2 s t c? hs (hs.step he.linked) he

/-- Pruning does not change what can be reached from the entry. -/
theorem Rooted.reaches_prune_iff (h : g.Rooted) {n : Nat} : g.prune.Reaches 0 n ↔ g.Reaches 0 n := by
  refine ⟨Reaches.of_pruned (pruned_prune h.toWellFormed), fun hn => ?_⟩
  induction hn with
  | refl => exact .refl
  | tail hs hl ih =>
    obtain ⟨c?, he⟩ := hl.hasEdge
    exact ih.tail (h.hasEdge_prune (.inl hs) he).linked

/-! ## Leaving the code -/

theorem WellFormed.block?_id (h : g.WellFormed) (hb : b ∈ g.blocks) : g.block? b.id = some b := by
  unfold block?
  cases hf : g.blocks.find? (·.id = b.id) with
  | none => simpa using List.find?_eq_none.1 hf b hb
  | some c =>
    have hid : c.id = b.id := by simpa using List.find?_some hf
    rw [List.inj_on_of_nodup_map h.blockIds (List.mem_of_find?_eq_some hf) hb hid]

theorem WellFormed.edge?_id (h : g.WellFormed) {e : Edge} (he : e ∈ g.edges) :
    g.edge? e.id = some e := by
  unfold edge?
  cases hf : g.edges.find? (·.id = e.id) with
  | none => simpa using List.find?_eq_none.1 hf e he
  | some c =>
    have hid : c.id = e.id := by simpa using List.find?_some hf
    rw [List.inj_on_of_nodup_map h.edgeIds (List.mem_of_find?_eq_some hf) he hid]

/-- All paths return if control leaves only from blocks that end in a return. -/
theorem WellFormed.allPathsReturn_iff (h : g.WellFormed) (hstop : g.stop ∈ g.ids) :
    g.allPathsReturn = true ↔ ∀ b ∈ g.blocks, g.Linked b.id g.stop → b.returns = true := by
  obtain ⟨exit, hexit, hid⟩ := List.mem_map.1 hstop
  have hsource : ∀ e ∈ g.edges, ∃ b ∈ g.blocks, b.id = e.source ∧
      ((((g.edge? e.id).bind (g.block? ·.source)).map (·.returns)).getD false = b.returns) := by
    intro e he
    obtain ⟨b, hb, hs⟩ := List.mem_map.1 (h.source_mem e he)
    refine ⟨b, hb, hs, ?_⟩
    rw [h.edge?_id he, Option.bind_some, ← hs, h.block?_id hb]
    rfl
  unfold allPathsReturn
  rw [← hid, h.block?_id hexit]
  simp only [List.all_eq_true]
  constructor
  · rintro hall b hb ⟨e, he, hs, ht⟩
    obtain ⟨c, hc, hcs, hret⟩ := hsource e he
    rw [← List.inj_on_of_nodup_map h.blockIds hc hb (hcs.trans hs), ← hret]
    exact hall e.id ((h.mem_incoming hexit he).2 ht)
  · intro hall n hn
    rw [h.incoming exit hexit, List.mem_map] at hn
    obtain ⟨e, he, rfl⟩ := hn
    rw [List.mem_filter, decide_eq_true_iff] at he
    obtain ⟨c, hc, hcs, hret⟩ := hsource e he.1
    rw [hret]
    exact hall c hc ⟨e, he.1, hcs.symm, he.2⟩

/-! ## Graphs of code -/

theorem Wired.rooted {code : Code} (h : Wired code g) : g.Rooted where
  toWellFormed := h.wellFormed
  pos_of_basic := by
    intro n r hn
    rw [h.skeleton, mem_skeleton_ofRuns] at hn
    rcases hn with ⟨-, hk, -⟩ | ⟨-, hpos, -⟩ | ⟨-, hk, -⟩
    · cases hk
    · exact hpos
    · cases hk
  source := by
    intro s t hl
    obtain ⟨c?, he⟩ := hl.hasEdge
    rcases (h.hasEdge_iff s t c?).1 he with ⟨rfl, -⟩ | ⟨b, hb, rfl, -⟩
    · exact .inl rfl
    · obtain ⟨hpos, hr⟩ := mem_basicBlocks_ofRuns hb
      refine .inr ⟨b.code, ?_⟩
      rw [h.skeleton]
      exact mem_skeleton_ofRuns.2 (.inr (.inl ⟨rfl, hpos, hr⟩))

theorem Wired.stop_mem_prune {code : Code} (h : Wired code g) : g.prune.stop ∈ g.prune.ids := by
  have hstop : ((Code.runs code).length + 1, BlockKind.stop, []) ∈ g.skeleton := by
    rw [h.skeleton]
    exact mem_skeleton_ofRuns.2 (.inr (.inr ⟨rfl, rfl, rfl⟩))
  rw [(pruned_prune h.wellFormed).stop, h.stop, ids_eq_skeleton]
  exact List.mem_map.2 ⟨_, h.wellFormed.mem_pruneTimes hstop (by simp) _, rfl⟩

theorem mem_basicBlocks_iff {n : Nat} {r : Code} :
    (∃ b ∈ g.basicBlocks, b.id = n ∧ b.code = r) ↔ (n, .basic, r) ∈ g.skeleton := by
  unfold basicBlocks skeleton
  simp only [List.mem_filter, decide_eq_true_iff, List.mem_map, Prod.mk.injEq]
  constructor
  · rintro ⟨b, ⟨hb, hk⟩, hn, hr⟩
    exact ⟨b, hb, hn, hk, hr⟩
  · rintro ⟨b, hb, hn, hk, hr⟩
    exact ⟨b, ⟨hb, hk⟩, hn, hr⟩

/-- What keeps unreachable blocks in the graph: cycles that cannot be reached. -/
theorem Wired.reaches_iff {code : Code} (h : Wired code g) :
    (∀ b ∈ g.prune.basicBlocks, g.prune.Reaches 0 b.id) ↔ ∀ n, g.OnCycle n → g.Reaches 0 n := by
  constructor
  · intro hall n hn
    obtain ⟨s, hl, -⟩ := Relation.TransGen.head'_iff.1 hn
    rcases h.rooted.source n s hl with rfl | ⟨r, hr⟩
    · exact .refl
    · obtain ⟨b, hb, rfl, -⟩ := mem_basicBlocks_iff.2
        (h.rooted.mem_prune_iff.2 ⟨hr, .inr ⟨n, hn, .refl⟩⟩)
      exact h.rooted.reaches_prune_iff.1 (hall b hb)
  · intro hcycles b hb
    rw [h.rooted.reaches_prune_iff]
    rcases (h.rooted.mem_prune_iff.1 (mem_basicBlocks_iff.1 ⟨b, hb, rfl, rfl⟩)).2 with hr | ⟨c, hc, hr⟩
    · exact hr
    · exact (hcycles c hc).trans hr

/-- If not all paths are seen to return, some block without a return leads to the exit. -/
theorem Wired.exists_open_exit {code : Code} (h : Wired code g) (hr : g.prune.allPathsReturn = false) :
    ∃ b ∈ g.prune.blocks, (b.id = 0 ∨ b ∈ g.prune.basicBlocks) ∧ g.prune.Linked b.id g.prune.stop ∧
      b.returns = false := by
  have hp := pruned_prune h.wellFormed
  by_contra hnone
  push Not at hnone
  rw [(hp.wellFormed.allPathsReturn_iff h.stop_mem_prune).2] at hr
  · cases hr
  · intro b hb hl
    by_contra hret
    refine hnone b hb ?_ hl (by simpa using hret)
    rcases h.rooted.source _ _ (hp.linked hl) with h0 | ⟨r, hm⟩
    · exact .inl h0
    · have hk : (b.id, b.kind, b.code) ∈ g.skeleton := hp.skeleton _ (List.mem_map_of_mem hb)
      have := h.wellFormed.skeleton_unique hk hm rfl
      have hkind : b.kind = .basic := congrArg (·.2.1) this
      exact .inr (List.mem_filter.2 ⟨hb, decide_eq_true hkind⟩)

end FlowGraph

namespace Code

/-- **What pruning misses.** A block of the code stays in its graph exactly if control can pass to it
from the entry or from a cycle of the graph before pruning. So every block that stays is reachable
exactly if every cycle is; and then paths are only said not to return if control can pass from the
entry to the exit through a block without a return. -/
theorem pruned_blocks_reachable_iff (code : Code) (h : code.Closed) :
    ∃ u g, (FlowGraph.ofRuns code.runs).wire = .ok u ∧ FlowGraph.ofCode code = .ok g ∧
      (∀ n r, (∃ b ∈ g.basicBlocks, b.id = n ∧ b.code = r) ↔
        (∃ b ∈ u.basicBlocks, b.id = n ∧ b.code = r) ∧
          (u.Reaches 0 n ∨ ∃ c, u.OnCycle c ∧ u.Reaches c n)) ∧
      ((∀ b ∈ g.basicBlocks, g.Reaches 0 b.id) ↔ ∀ n, u.OnCycle n → u.Reaches 0 n) ∧
      ((∀ n, u.OnCycle n → u.Reaches 0 n) → code.allPathsReturn = false →
        ∃ b ∈ g.blocks, g.Reaches 0 b.id ∧ g.Linked b.id g.stop ∧ b.returns = false) := by
  obtain ⟨u, hw, hu⟩ := FlowGraph.exists_wired h
  refine ⟨u, u.prune, hw, FlowGraph.ofCode_eq hw, fun n r => ?_, hu.reaches_iff, fun hcycles hr => ?_⟩
  · rw [FlowGraph.mem_basicBlocks_iff, FlowGraph.mem_basicBlocks_iff]
    exact hu.rooted.mem_prune_iff
  · unfold allPathsReturn at hr
    rw [FlowGraph.ofCode_eq hw] at hr
    obtain ⟨b, hb, hplace, hl, hopen⟩ := hu.exists_open_exit hr
    refine ⟨b, hb, ?_, hl, hopen⟩
    rcases hplace with h0 | hbasic
    · rw [h0]
      exact .refl
    · exact hu.reaches_iff.2 hcycles b hbasic

/-- Returns at once; behind that stands a loop that nothing leads to. -/
def deadLoop : Code :=
  [.ret (some (.literal (.int 1))), .label ⟨"continue1"⟩,
    .branch ⟨"break1"⟩ (.name ⟨2⟩ .boolean) false, .jump ⟨"continue1"⟩, .label ⟨"break1"⟩]

theorem deadLoop_closed : deadLoop.Closed := by simp [deadLoop, Closed, Instr.target?]

theorem deadLoop_reachable_iff :
    deadLoop.Closed ∧ ∃ u g, (FlowGraph.ofRuns deadLoop.runs).wire = .ok u ∧
      FlowGraph.ofCode deadLoop = .ok g ∧
      ((∀ b ∈ g.basicBlocks, g.Reaches 0 b.id) ↔ ∀ n, u.OnCycle n → u.Reaches 0 n) := by
  obtain ⟨u, g, hu, hg, -, hiff, -⟩ := pruned_blocks_reachable_iff deadLoop deadLoop_closed
  exact ⟨deadLoop_closed, u, g, hu, hg, hiff⟩

/-- The loop stays in the graph although nothing leads to it, and the code counts as not returning
although control cannot get to the exit but by the return. -/
theorem deadLoop_stays :
    deadLoop.Closed ∧ ∃ g, FlowGraph.ofCode deadLoop = .ok g ∧
      (∃ b ∈ g.basicBlocks, ¬ g.Reaches 0 b.id) ∧ deadLoop.allPathsReturn = false ∧
      ¬ ∃ b ∈ g.blocks, g.Reaches 0 b.id ∧ g.Linked b.id g.stop ∧ b.returns = false := by
  obtain ⟨g, hg⟩ : ∃ g, FlowGraph.ofCode deadLoop = .ok g := ⟨_, rfl⟩
  have hshape : (FlowGraph.ofCode deadLoop).map (fun g => (g.edges.map fun e => (e.source, e.target),
      g.blocks.map fun b => (b.id, b.kind, b.returns), g.stop)) =
      .ok ([(0, 1), (1, 5), (2, 4), (2, 3), (3, 2), (4, 5)],
        [(0, .start, false), (1, .basic, true), (2, .basic, false), (3, .basic, false),
          (4, .basic, false), (5, .stop, false)], 5) := by rfl
  rw [hg] at hshape
  obtain ⟨hedges, hblocks, hstop⟩ : g.edges.map (fun e => (e.source, e.target)) =
        [(0, 1), (1, 5), (2, 4), (2, 3), (3, 2), (4, 5)] ∧
      g.blocks.map (fun b => (b.id, b.kind, b.returns)) =
        [(0, .start, false), (1, .basic, true), (2, .basic, false), (3, .basic, false),
          (4, .basic, false), (5, .stop, false)] ∧ g.stop = 5 := by
    simpa [Except.map] using hshape
  -- from the entry control gets to the return and to the exit only
  have hreach : ∀ n, g.Reaches 0 n → n = 0 ∨ n = 1 ∨ n = 5 := by
    intro n hn
    induction hn with
    | refl => exact .inl rfl
    | @tail s t _ hl ih =>
      obtain ⟨e, he, hs, ht⟩ := hl
      have hm : (s, t) ∈ g.edges.map (fun e => (e.source, e.target)) :=
        List.mem_map.2 ⟨e, he, by rw [hs, ht]⟩
      rw [hedges] at hm
      simp only [List.mem_cons, Prod.mk.injEq, List.not_mem_nil, or_false] at hm
      omega
  refine ⟨deadLoop_closed, g, hg, ?_, rfl, ?_⟩
  · have hm : (2, BlockKind.basic, false) ∈ g.blocks.map (fun b => (b.id, b.kind, b.returns)) := by
      rw [hblocks]
      decide
    obtain ⟨b, hb, heq⟩ := List.mem_map.1 hm
    obtain ⟨hid, hk, -⟩ : b.id = 2 ∧ b.kind = .basic ∧ b.returns = false := by simpa using heq
    refine ⟨b, List.mem_filter.2 ⟨hb, decide_eq_true hk⟩, fun hr => ?_⟩
    have := hreach b.id hr
    omega
  · rintro ⟨b, hb, hr, ⟨e, he, hs, ht⟩, hopen⟩
    have hm : (b.id, 5) ∈ g.edges.map (fun e => (e.source, e.target)) :=
      List.mem_map.2 ⟨e, he, by rw [hs, ht, hstop]⟩
    rw [hedges] at hm
    simp only [List.mem_cons, Prod.mk.injEq, List.not_mem_nil, or_false] at hm
    have hid : b.id = 1 := by
      have := hreach b.id hr
      omega
    have hret : (b.id, b.kind, b.returns) ∈ g.blocks.map (fun b => (b.id, b.kind, b.returns)) :=
      List.mem_map.2 ⟨b, hb, rfl⟩
    rw [hblocks, hid, hopen] at hret
    simp at hret

end Code

end Scripting.Typed
