import Scripting.Proofs.Graph.Liveness

/-!
# How a flow graph is kept

A graph keeps each edge in three places: in its own list, in the list of the block it leaves and in the
list of the block it enters. `Consistent` says that the three agree, that nothing enters the entry or
leaves the exit, and how many edges may leave a block.

Wiring is a list of connections made one after the other (`wire_eq`), and pruning removes one block after
the other. Every graph on the way keeps the invariant `Made`: it is well formed, its blocks are those of
the code, and its edges are some of those that the connections draw. Consistency follows from that.
-/

namespace Scripting.Typed

/-- Control is to pass from `source` to `target` under a condition. -/
structure Connection where
  source : Nat
  target : Nat
  condition? : Option Expr

/-- The edge that a connection draws: none if its condition is never met. -/
def Connection.drawn? (c : Connection) : Option Connection :=
  match c.condition?.bind Expr.constant? with
  | some false => none
  | some true => some { c with condition? := none }
  | none => some c

def Edge.connection (e : Edge) : Connection := ⟨e.source, e.target, e.condition?⟩

/-- The connections of a block: where its last instruction says, or on to the next block. -/
def Block.connections (g : FlowGraph) (b : Block) : Except Fault (List Connection) :=
  match b.code.getLast? with
  | some (.jump l) => (g.labelled l).map fun t => [⟨b.id, t, none⟩]
  | some (.branch l c on) => (g.labelled l).map fun t =>
    [⟨b.id, t, some (if on then c else c.negate)⟩, ⟨b.id, b.id + 1, some (if on then c.negate else c)⟩]
  | some (.ret _) => .ok [⟨b.id, g.stop, none⟩]
  | _ => .ok [⟨b.id, b.id + 1, none⟩]

namespace FlowGraph

variable {g g₀ : FlowGraph} {b : Block} {cs : List Connection}

def connectAll (g : FlowGraph) (cs : List Connection) : FlowGraph :=
  cs.foldl (fun g c => g.connect c.source c.target c.condition?) g

/-- The connections that wiring makes: from the entry, then from each block of code in turn. -/
def connections (g : FlowGraph) : Except Fault (List Connection) :=
  g.basicBlocks.foldlM (fun cs b => (b.connections g).map (cs ++ ·)) [⟨0, 1, none⟩]

/-- What the lists of a graph have in common. -/
structure Consistent (g : FlowGraph) : Prop where
  /-- Blocks and edges are found by their numbers. -/
  block : ∀ b ∈ g.blocks, g.block? b.id = some b
  edge : ∀ e ∈ g.edges, g.edge? e.id = some e
  /-- What a block lists are edges at it. -/
  outgoing : ∀ b ∈ g.blocks, ∀ n ∈ b.outgoing, ∃ e ∈ g.edges, e.id = n ∧ e.source = b.id
  incoming : ∀ b ∈ g.blocks, ∀ n ∈ b.incoming, ∃ e ∈ g.edges, e.id = n ∧ e.target = b.id
  /-- An edge joins blocks, and both list it once. -/
  source : ∀ e ∈ g.edges, ∃ b ∈ g.blocks, b.id = e.source ∧ b.outgoing.count e.id = 1
  target : ∀ e ∈ g.edges, ∃ b ∈ g.blocks, b.id = e.target ∧ b.incoming.count e.id = 1
  /-- Nothing enters the entry, and nothing leaves the exit. -/
  start : ∃ b ∈ g.blocks, b.id = 0 ∧ b.kind = .start ∧ b.incoming = []
  stop : ∃ b ∈ g.blocks, b.id = g.stop ∧ b.kind = .stop ∧ b.outgoing = []
  /-- A block is left in two ways only by a branch on something else than a literal truth value. -/
  ways : ∀ b ∈ g.blocks, b.outgoing.length ≤ 2 ∧ (b.outgoing.length = 2 →
    ∃ l c on, b.code.getLast? = some (.branch l c on) ∧ ∀ v, c ≠ .literal (.boolean v))

/-! ## Wiring as a list of connections -/

theorem connectAll_cons (g : FlowGraph) (c : Connection) (cs : List Connection) :
    g.connectAll (c :: cs) = (g.connect c.source c.target c.condition?).connectAll cs := rfl

theorem connectAll_append (g : FlowGraph) (cs ds : List Connection) :
    g.connectAll (cs ++ ds) = (g.connectAll cs).connectAll ds := List.foldl_append

@[simp] theorem skeleton_connectAll (g : FlowGraph) (cs : List Connection) :
    (g.connectAll cs).skeleton = g.skeleton := by
  induction cs generalizing g with
  | nil => rfl
  | cons c cs ih => rw [connectAll_cons, ih, skeleton_connect]

@[simp] theorem stop_connectAll (g : FlowGraph) (cs : List Connection) :
    (g.connectAll cs).stop = g.stop := by
  induction cs generalizing g with
  | nil => rfl
  | cons c cs ih => rw [connectAll_cons, ih, stop_connect]

theorem connections_congr (hs : g.skeleton = g₀.skeleton) (hstop : g.stop = g₀.stop) (b : Block) :
    b.connections g = b.connections g₀ := by
  unfold Block.connections
  simp only [labelled_congr hs, hstop]

/-- Wiring a block makes its connections. -/
theorem wireBlock_eq (g : FlowGraph) (b : Block) :
    g.wireBlock b = (b.connections g).map g.connectAll := by
  unfold wireBlock Block.connections
  cases b.code.getLast? with
  | none => rfl
  | some i =>
    cases i with
    | jump l =>
      dsimp only
      cases g.labelled l <;> rfl
    | branch l c on =>
      dsimp only
      cases g.labelled l <;> rfl
    | _ => rfl

/-- Wiring makes the connections of the graph. -/
theorem wire_eq (g : FlowGraph) : g.wire = g.connections.map g.connectAll := by
  have blocks_eq : ∀ (bs : List Block) (cs : List Connection),
      bs.foldlM wireBlock (g.connectAll cs) =
        (bs.foldlM (fun cs b => (Block.connections g b).map (cs ++ ·)) cs).map g.connectAll := by
    intro bs
    induction bs with
    | nil => intro cs; rfl
    | cons b bs ih =>
      intro cs
      rw [List.foldlM_cons, List.foldlM_cons, wireBlock_eq,
        connections_congr (skeleton_connectAll g cs) (stop_connectAll g cs)]
      cases b.connections g with
      | error e => rfl
      | ok ds =>
        refine Eq.trans ?_ (ih (cs ++ ds))
        rw [connectAll_append]
        rfl
  exact blocks_eq g.basicBlocks [⟨0, 1, none⟩]

/-- The connections of a graph are those of its blocks. -/
theorem exists_connections {bs : List Block} {ds : List Connection}
    (h : bs.foldlM (fun cs b => (Block.connections g b).map (cs ++ ·)) cs = .ok ds) :
    ∃ parts, List.Forall₂ (fun b part => Block.connections g b = .ok part) bs parts ∧
      ds = cs ++ parts.flatten := by
  induction bs generalizing cs with
  | nil =>
    cases h
    exact ⟨[], .nil, (List.append_nil _).symm⟩
  | cons b bs ih =>
    rw [List.foldlM_cons] at h
    cases hb : b.connections g with
    | error e =>
      rw [hb] at h
      cases h
    | ok part =>
      rw [hb] at h
      obtain ⟨parts, hparts, rfl⟩ := ih h
      exact ⟨part :: parts, .cons hb hparts, List.append_assoc ..⟩

/-! ## What connections draw -/

theorem edges_connect (g : FlowGraph) (c : Connection) :
    (g.connect c.source c.target c.condition?).edges.map Edge.connection =
      g.edges.map Edge.connection ++ c.drawn?.toList := by
  unfold connect Connection.drawn?
  cases c.condition?.bind Expr.constant? with
  | none =>
    rw [edges_addEdge, List.map_append]
    rfl
  | some v =>
    cases v with
    | false => exact (List.append_nil _).symm
    | true =>
      rw [edges_addEdge, List.map_append]
      rfl

/-- Connections draw their edges one after the other. -/
theorem edges_connectAll (g : FlowGraph) (cs : List Connection) :
    (g.connectAll cs).edges.map Edge.connection =
      g.edges.map Edge.connection ++ cs.filterMap Connection.drawn? := by
  induction cs generalizing g with
  | nil => exact (List.append_nil _).symm
  | cons c cs ih =>
    rw [connectAll_cons, ih, edges_connect, List.append_assoc, List.filterMap_cons]
    cases c.drawn? <;> rfl

theorem drawn?_ends {c d : Connection} (h : c.drawn? = some d) :
    d.source = c.source ∧ d.target = c.target := by
  unfold Connection.drawn? at h
  split at h
  · cases h
  · cases h
    exact ⟨rfl, rfl⟩
  · cases h
    exact ⟨rfl, rfl⟩

/-- A label stands in a block of code. -/
theorem labelled_ne_zero {runs : List Code} {l : Label} {n : Nat} (h : (ofRuns runs).labelled l = .ok n) :
    n ≠ 0 := by
  rw [labelled_eq] at h
  split at h
  case h_1 k hk =>
    cases h
    rintro h0
    have hm := mem_skeleton_ofRuns.1 (List.mem_reverse.1 (List.mem_of_find?_eq_some hk))
    have hlabel := List.find?_some hk
    rcases hm with ⟨-, -, hcode⟩ | ⟨-, hpos, -⟩ | ⟨hlast, -⟩
    · rw [hcode] at hlabel
      simp at hlabel
    · omega
    · omega
  case h_2 => cases h

/-- The edges that connections draw from block `n`. -/
def ways (cs : List Connection) (n : Nat) : List Connection :=
  (cs.filterMap Connection.drawn?).filter (·.source = n)

theorem ways_append (cs ds : List Connection) (n : Nat) : ways (cs ++ ds) n = ways cs n ++ ways ds n := by
  unfold ways
  rw [List.filterMap_append, List.filter_append]

theorem ways_of_source {m : Nat} (h : ∀ c ∈ cs, c.source = m) (n : Nat) :
    ways cs n = if m = n then cs.filterMap Connection.drawn? else [] := by
  have hsource : ∀ d ∈ cs.filterMap Connection.drawn?, d.source = m := by
    intro d hd
    obtain ⟨c, hc, hdrawn⟩ := List.mem_filterMap.1 hd
    rw [(drawn?_ends hdrawn).1, h c hc]
  unfold ways
  by_cases hn : m = n
  · rw [if_pos hn, List.filter_eq_self]
    intro d hd
    rw [hsource d hd, hn]
    exact decide_eq_true rfl
  · rw [if_neg hn, List.filter_eq_nil_iff]
    intro d hd
    rw [hsource d hd, decide_eq_true_iff]
    exact hn

/-- At most two edges, and two only behind a branch that is not decided. -/
def FewWays (code : Code) (cs : List Connection) : Prop :=
  cs.length ≤ 2 ∧ (cs.length = 2 → ∃ l c on, code.getLast? = some (.branch l c on) ∧ c.constant? = none)

theorem fewWays_of_length {code : Code} (h : cs.length ≤ 1) : FewWays code cs :=
  ⟨by omega, by omega⟩

theorem FewWays.sublist {code : Code} {ds : List Connection} (h : FewWays code ds)
    (hsub : cs.Sublist ds) : FewWays code cs := by
  have hle := hsub.length_le
  exact ⟨hle.trans h.1, fun htwo => h.2 (by have := h.1; omega)⟩

/-- The two edges behind a branch: both if it is not decided, and otherwise one. -/
theorem fewWays_branch {code : Code} {l : Label} {c : Expr} {on : Bool} (n t : Nat)
    (h : code.getLast? = some (.branch l c on)) :
    FewWays code (List.filterMap Connection.drawn?
      [⟨n, t, some (if on then c else c.negate)⟩, ⟨n, n + 1, some (if on then c.negate else c)⟩]) := by
  cases hc : c.constant? with
  | none => exact ⟨List.length_filterMap_le .., fun _ => ⟨l, c, on, h, hc⟩⟩
  | some v =>
    apply fewWays_of_length
    have hnegate := Expr.constant?_negate c
    rw [hc] at hnegate
    cases on <;> cases v <;> simp [Connection.drawn?, hc, hnegate]

/-- The connections of a block begin there and end at blocks behind the entry. -/
structure ConnectsBlock (g : FlowGraph) (b : Block) (cs : List Connection) : Prop where
  source : ∀ c ∈ cs, c.source = b.id
  target_mem : ∀ c ∈ cs, c.target ∈ g.ids
  target_ne : ∀ c ∈ cs, c.target ≠ 0
  ways : FewWays b.code (cs.filterMap Connection.drawn?)

theorem connectsBlock_single {t : Nat} (hmem : t ∈ g.ids) (hne : t ≠ 0) :
    ConnectsBlock g b [⟨b.id, t, none⟩] where
  source := List.forall_mem_singleton.2 rfl
  target_mem := List.forall_mem_singleton.2 hmem
  target_ne := List.forall_mem_singleton.2 hne
  ways := fewWays_of_length (Nat.le_refl 1)

theorem connectsBlock {runs : List Code} (hb : b ∈ (ofRuns runs).basicBlocks)
    (h : Block.connections (ofRuns runs) b = .ok cs) : ConnectsBlock (ofRuns runs) b cs := by
  obtain ⟨-, hrun⟩ := mem_basicBlocks_ofRuns hb
  have hlt := (List.getElem?_eq_some_iff.1 hrun).1
  have hnext : b.id + 1 ∈ (ofRuns runs).ids := mem_ids_ofRuns.2 (by omega)
  unfold Block.connections at h
  split at h
  · cases hl : (ofRuns runs).labelled _ with
    | error e => rw [hl] at h; cases h
    | ok t =>
      rw [hl] at h
      cases h
      exact connectsBlock_single (labelled_mem hl) (labelled_ne_zero hl)
  · next hlast =>
    cases hl : (ofRuns runs).labelled _ with
    | error e => rw [hl] at h; cases h
    | ok t =>
      rw [hl] at h
      cases h
      refine ⟨?_, ?_, ?_, fewWays_branch b.id t hlast⟩
      · simp
      · simpa using ⟨labelled_mem hl, hnext⟩
      · simpa using labelled_ne_zero hl
  · cases h
    exact connectsBlock_single (mem_ids_ofRuns.2 (Nat.le_refl _)) (Nat.succ_ne_zero _)
  · cases h
    exact connectsBlock_single hnext (Nat.succ_ne_zero _)

/-- The connections of a graph begin at the entry and at blocks of code, end behind the entry, and draw
few edges from each block. -/
structure Connects (g : FlowGraph) (cs : List Connection) : Prop where
  source : ∀ c ∈ cs, c.source ∈ g.ids ∧ c.source ≠ g.stop
  target : ∀ c ∈ cs, c.target ∈ g.ids ∧ c.target ≠ 0
  ways : ∀ k ∈ g.skeleton, FewWays k.2.2 (ways cs k.1)

/-- Blocks are left by their own connections. -/
theorem ways_flatten {bs : List Block} {parts : List (List Connection)}
    (h : List.Forall₂ (ConnectsBlock g) bs parts) (hids : (bs.map (·.id)).Nodup) :
    (∀ b ∈ bs, FewWays b.code (ways parts.flatten b.id)) ∧
      ∀ n, (∀ b ∈ bs, b.id ≠ n) → ways parts.flatten n = [] := by
  induction h with
  | nil => exact ⟨by simp, fun n _ => rfl⟩
  | @cons b part bs parts hb _ ih =>
    rw [List.map_cons, List.nodup_cons, List.mem_map] at hids
    obtain ⟨hown, hother⟩ := ih hids.2
    have hsplit : ∀ n, ways (part :: parts).flatten n =
        (if b.id = n then part.filterMap Connection.drawn? else []) ++ ways parts.flatten n := by
      intro n
      rw [List.flatten_cons, ways_append, ways_of_source hb.source]
    constructor
    · refine List.forall_mem_cons.2 ⟨?_, fun c hc => ?_⟩
      · have hnone := hother b.id fun c hc heq => hids.1 ⟨c, hc, heq⟩
        rw [hsplit, if_pos rfl, hnone, List.append_nil]
        exact hb.ways
      · rw [hsplit, if_neg fun heq => hids.1 ⟨c, hc, heq.symm⟩]
        exact hown c hc
    · intro n hn
      obtain ⟨hne, hrest⟩ := List.forall_mem_cons.1 hn
      rw [hsplit, if_neg hne]
      exact hother n hrest

theorem mem_flatten_connections {bs : List Block} {parts : List (List Connection)}
    (h : List.Forall₂ (ConnectsBlock g) bs parts) {c : Connection} (hc : c ∈ parts.flatten) :
    (∃ b ∈ bs, c.source = b.id) ∧ c.target ∈ g.ids ∧ c.target ≠ 0 := by
  induction h with
  | nil => cases hc
  | @cons b part bs parts hb _ ih =>
    rcases List.mem_append.1 hc with hc | hc
    · exact ⟨⟨b, List.mem_cons_self, hb.source c hc⟩, hb.target_mem c hc, hb.target_ne c hc⟩
    · obtain ⟨⟨b', hb', hs⟩, ht⟩ := ih hc
      exact ⟨⟨b', List.mem_cons_of_mem _ hb', hs⟩, ht⟩

theorem connects {runs : List Code} (h : (ofRuns runs).connections = .ok cs) :
    Connects (ofRuns runs) cs := by
  obtain ⟨parts, hparts, rfl⟩ := exists_connections h
  have hblocks : List.Forall₂ (ConnectsBlock (ofRuns runs)) (ofRuns runs).basicBlocks parts := by
    refine List.Forall₂.imp ?_ ((List.forall₂_and_left _ _).2 ⟨fun b hb => hb, hparts⟩)
    exact fun b part hb => connectsBlock hb.1 hb.2
  have hids : ((ofRuns runs).basicBlocks.map (·.id)).Nodup :=
    (wellFormed_ofRuns runs).blockIds.sublist (List.filter_sublist.map _)
  obtain ⟨hown, hother⟩ := ways_flatten hblocks hids
  have hbasic : ∀ b ∈ (ofRuns runs).basicBlocks, 0 < b.id ∧ b.id < runs.length + 1 := by
    intro b hb
    obtain ⟨hpos, hrun⟩ := mem_basicBlocks_ofRuns hb
    have hlt := (List.getElem?_eq_some_iff.1 hrun).1
    omega
  have hfirst : ∀ n, ways [⟨0, 1, none⟩] n = if 0 = n then [⟨0, 1, none⟩] else [] :=
    ways_of_source (List.forall_mem_singleton.2 rfl)
  refine ⟨?_, ?_, fun k hk => ?_⟩
  · refine List.forall_mem_cons.2 ⟨⟨mem_ids_ofRuns.2 (Nat.zero_le _), (Nat.succ_ne_zero _).symm⟩, ?_⟩
    intro c hc
    obtain ⟨⟨b, hb, hs⟩, -⟩ := mem_flatten_connections hblocks hc
    have hrange := hbasic b hb
    rw [hs]
    exact ⟨mem_ids_ofRuns.2 (by omega), hrange.2.ne⟩
  · refine List.forall_mem_cons.2 ⟨⟨mem_ids_ofRuns.2 (Nat.succ_le_succ (Nat.zero_le _)), Nat.one_ne_zero⟩, ?_⟩
    intro c hc
    exact (mem_flatten_connections hblocks hc).2
  · rw [List.singleton_append, ← List.singleton_append, ways_append, hfirst]
    obtain ⟨b, hb, rfl⟩ := List.mem_map.1 hk
    by_cases hkind : b.kind = .basic
    · have hm : b ∈ (ofRuns runs).basicBlocks := List.mem_filter.2 ⟨hb, decide_eq_true hkind⟩
      rw [if_neg (hbasic b hm).1.ne]
      exact hown b hm
    · -- the entry is left by the first connection, and the exit by none
      rw [hother b.id ?_, List.append_nil]
      · apply fewWays_of_length
        split <;> simp
      · intro c hc heq
        have hm := (List.mem_filter.1 hc).1
        rw [List.inj_on_of_nodup_map (wellFormed_ofRuns runs).blockIds hm hb heq] at hc
        exact hkind (of_decide_eq_true (List.mem_filter.1 hc).2)

/-! ## Every graph on the way -/

/-- `g` has blocks of `g₀`, the entry and the exit among them, and some of the edges that the
connections draw. -/
structure Made (g₀ : FlowGraph) (cs : List Connection) (g : FlowGraph) : Prop where
  wellFormed : g.WellFormed
  stop : g.stop = g₀.stop
  skeleton : ∀ k ∈ g.skeleton, k ∈ g₀.skeleton
  ends : ∀ k ∈ g₀.skeleton, k.2.1 ≠ .basic → k ∈ g.skeleton
  edges : (g.edges.map Edge.connection).Sublist (cs.filterMap Connection.drawn?)

theorem Grown.connectAll (h : Grown g₀ g) (hcs : ∀ c ∈ cs, c.source ∈ g₀.ids ∧ c.target ∈ g₀.ids) :
    Grown g₀ (g.connectAll cs) := by
  induction cs generalizing g with
  | nil => exact h
  | cons c cs ih =>
    obtain ⟨hc, hrest⟩ := List.forall_mem_cons.1 hcs
    exact ih (h.connect hc.1 hc.2 c.condition?) hrest

/-- The first connections make a graph of this kind, however many they are. -/
theorem made_connectAll {runs : List Code} (h : Connects (ofRuns runs) cs) {front : List Connection}
    (hfront : front <+: cs) : Made (ofRuns runs) cs ((ofRuns runs).connectAll front) := by
  have hg : Grown (ofRuns runs) ((ofRuns runs).connectAll front) :=
    Grown.connectAll ⟨rfl, rfl, wellFormed_ofRuns runs⟩ fun c hc =>
      ⟨(h.source c (hfront.subset hc)).1, (h.target c (hfront.subset hc)).1⟩
  refine ⟨hg.wellFormed, hg.stop, fun k hk => hg.skeleton ▸ hk, fun k hk _ => hg.skeleton ▸ hk, ?_⟩
  rw [edges_connectAll]
  exact hfront.sublist.filterMap _

theorem Made.removeBlock (h : Made g₀ cs g) (ho : g.orphan? = some b) : Made g₀ cs (g.removeBlock b) := by
  obtain ⟨hb, hkind, -⟩ := orphan?_eq_some ho
  refine ⟨h.wellFormed.removeBlock hb, (stop_removeBlock g b).trans h.stop, fun k hk => ?_, fun k hk hne => ?_, ?_⟩
  · rw [skeleton_removeBlock] at hk
    exact h.skeleton k (List.mem_of_mem_filter hk)
  · rw [skeleton_removeBlock]
    refine List.mem_filter.2 ⟨h.ends k hk hne, decide_eq_true fun heq => hne ?_⟩
    have hm : (b.id, b.kind, b.code) ∈ g.skeleton := List.mem_map_of_mem hb
    rw [h.wellFormed.skeleton_unique (h.ends k hk hne) hm heq]
    exact hkind
  · rw [h.wellFormed.edges_removeBlock hb]
    exact (List.filter_sublist.map _).trans h.edges

theorem Made.pruneTimes (h : Made g₀ cs g) (n : Nat) : Made g₀ cs (pruneTimes n g) := by
  induction n generalizing g with
  | zero => exact h
  | succ n ih =>
    rw [FlowGraph.pruneTimes]
    cases ho : g.orphan? with
    | none => exact h
    | some b => exact ih (h.removeBlock ho)

/-- Every edge was drawn by a connection. -/
theorem Made.exists_connection (h : Made g₀ cs g) {e : Edge} (he : e ∈ g.edges) :
    ∃ c ∈ cs, e.source = c.source ∧ e.target = c.target := by
  have hm : e.connection ∈ cs.filterMap Connection.drawn? := h.edges.subset (List.mem_map_of_mem he)
  obtain ⟨c, hc, hdrawn⟩ := List.mem_filterMap.1 hm
  exact ⟨c, hc, drawn?_ends hdrawn⟩

/-- The edges that leave a block are some of those drawn from it. -/
theorem Made.ways (h : Made g₀ cs g) (hcs : Connects g₀ cs) (hb : b ∈ g.blocks) :
    FewWays b.code ((g.edges.filter (·.source = b.id)).map Edge.connection) := by
  have hm : (b.id, b.kind, b.code) ∈ g.skeleton := List.mem_map_of_mem hb
  refine (hcs.ways _ (h.skeleton _ hm)).sublist ?_
  have hfilter : (g.edges.filter (·.source = b.id)).map Edge.connection =
      (g.edges.map Edge.connection).filter (·.source = b.id) := by
    rw [List.filter_map]
    rfl
  rw [hfilter]
  exact h.edges.filter _

theorem WellFormed.count_outgoing (h : g.WellFormed) {e : Edge} (he : e ∈ g.edges) :
    ∃ b ∈ g.blocks, b.id = e.source ∧ b.outgoing.count e.id = 1 := by
  obtain ⟨b, hb, hid⟩ := List.mem_map.1 (h.source_mem e he)
  refine ⟨b, hb, hid, List.count_eq_one_of_mem ?_ ((h.mem_outgoing hb he).2 hid.symm)⟩
  rw [h.outgoing b hb]
  exact h.edgeIds.sublist (List.filter_sublist.map _)

theorem WellFormed.count_incoming (h : g.WellFormed) {e : Edge} (he : e ∈ g.edges) :
    ∃ b ∈ g.blocks, b.id = e.target ∧ b.incoming.count e.id = 1 := by
  obtain ⟨b, hb, hid⟩ := List.mem_map.1 (h.target_mem e he)
  refine ⟨b, hb, hid, List.count_eq_one_of_mem ?_ ((h.mem_incoming hb he).2 hid.symm)⟩
  rw [h.incoming b hb]
  exact h.edgeIds.sublist (List.filter_sublist.map _)

/-- Whatever wiring and pruning come across is consistent. -/
theorem Made.consistent {runs : List Code} (h : Made (ofRuns runs) cs g) (hcs : Connects (ofRuns runs) cs) :
    g.Consistent where
  block b hb := h.wellFormed.block?_id hb
  edge e he := h.wellFormed.edge?_id he
  outgoing := by
    intro b hb n hn
    rw [h.wellFormed.outgoing b hb] at hn
    obtain ⟨e, he, rfl⟩ := List.mem_map.1 hn
    rw [List.mem_filter, decide_eq_true_iff] at he
    exact ⟨e, he.1, rfl, he.2⟩
  incoming := by
    intro b hb n hn
    rw [h.wellFormed.incoming b hb] at hn
    obtain ⟨e, he, rfl⟩ := List.mem_map.1 hn
    rw [List.mem_filter, decide_eq_true_iff] at he
    exact ⟨e, he.1, rfl, he.2⟩
  source e he := h.wellFormed.count_outgoing he
  target e he := h.wellFormed.count_incoming he
  start := by
    have hm := h.ends (0, .start, []) (mem_skeleton_ofRuns.2 (.inl ⟨rfl, rfl, rfl⟩)) (by decide)
    obtain ⟨b, hb, heq⟩ := List.mem_map.1 hm
    obtain ⟨hid, hkind, -⟩ : b.id = 0 ∧ b.kind = .start ∧ b.code = [] := by simpa using heq
    refine ⟨b, hb, hid, hkind, ?_⟩
    rw [h.wellFormed.incoming b hb, List.map_eq_nil_iff, List.filter_eq_nil_iff]
    intro e he
    obtain ⟨c, hc, -, ht⟩ := h.exists_connection he
    rw [decide_eq_true_iff, hid, ht]
    exact (hcs.target c hc).2
  stop := by
    have hm := h.ends (runs.length + 1, .stop, []) (mem_skeleton_ofRuns.2 (.inr (.inr ⟨rfl, rfl, rfl⟩)))
      (by simp)
    obtain ⟨b, hb, heq⟩ := List.mem_map.1 hm
    obtain ⟨hid, hkind, -⟩ : b.id = runs.length + 1 ∧ b.kind = .stop ∧ b.code = [] := by simpa using heq
    refine ⟨b, hb, hid.trans h.stop.symm, hkind, ?_⟩
    rw [h.wellFormed.outgoing b hb, List.map_eq_nil_iff, List.filter_eq_nil_iff]
    intro e he
    obtain ⟨c, hc, hs, -⟩ := h.exists_connection he
    rw [decide_eq_true_iff, hid, hs]
    exact (hcs.source c hc).2
  ways := by
    intro b hb
    obtain ⟨hle, htwo⟩ := h.ways hcs hb
    rw [List.length_map] at hle htwo
    rw [h.wellFormed.outgoing b hb, List.length_map]
    refine ⟨hle, fun hlength => ?_⟩
    obtain ⟨l, c, on, hlast, hopen⟩ := htwo hlength
    refine ⟨l, c, on, hlast, ?_⟩
    rintro v rfl
    cases hopen

theorem incoming_ne_nil (ho : g.orphan? = none) (hb : b ∈ g.basicBlocks) : b.incoming ≠ [] := by
  obtain ⟨hm, hkind⟩ := List.mem_filter.1 hb
  intro hnil
  exact List.find?_eq_none.1 ho b hm (decide_eq_true ⟨of_decide_eq_true hkind, hnil⟩)

end FlowGraph

namespace Code

/-- **Graphs are kept consistently.** Wiring code whose jumps have their labels makes one connection after
the other, and pruning removes one block after the other. After each connection and after each removal the
lists of the graph agree; and in the end every block of code is entered by some edge. -/
theorem graph_is_consistent (code : Code) (h : code.Closed) :
    ∃ cs u g, (FlowGraph.ofRuns code.runs).connections = .ok cs ∧
      (FlowGraph.ofRuns code.runs).wire = .ok u ∧ FlowGraph.ofCode code = .ok g ∧
      u = (FlowGraph.ofRuns code.runs).connectAll cs ∧ g = FlowGraph.pruneTimes u.blocks.length u ∧
      (∀ n, ((FlowGraph.ofRuns code.runs).connectAll (cs.take n)).Consistent) ∧
      (∀ n, (FlowGraph.pruneTimes n u).Consistent) ∧
      ∀ b ∈ g.basicBlocks, b.incoming ≠ [] := by
  obtain ⟨u, hw, -⟩ := FlowGraph.exists_wired h
  have hcode := FlowGraph.ofCode_eq hw
  obtain ⟨cs, hcs, rfl⟩ : ∃ cs, (FlowGraph.ofRuns code.runs).connections = .ok cs ∧
      (FlowGraph.ofRuns code.runs).connectAll cs = u := by
    rw [FlowGraph.wire_eq] at hw
    cases hcs : (FlowGraph.ofRuns code.runs).connections with
    | error e => rw [hcs] at hw; cases hw
    | ok cs =>
      rw [hcs] at hw
      exact ⟨cs, rfl, Except.ok.inj hw⟩
  have hconnects := FlowGraph.connects hcs
  have hmade := FlowGraph.made_connectAll hconnects (List.prefix_refl cs)
  refine ⟨cs, _, _, hcs, hw, hcode, rfl, rfl, fun n => ?_, fun n => ?_, fun b hb => ?_⟩
  · exact (FlowGraph.made_connectAll hconnects (List.take_prefix n cs)).consistent hconnects
  · exact (hmade.pruneTimes n).consistent hconnects
  · exact FlowGraph.incoming_ne_nil (FlowGraph.orphan?_pruneTimes _ (Nat.le_refl _)) hb

/-- A branch to the block behind it, a block that only leads back to itself, and dead code of which one
block leads to the other. -/
def tangle : Code :=
  [.branch ⟨"again"⟩ (.name ⟨2⟩ .boolean) true, .label ⟨"again"⟩,
    .branch ⟨"again"⟩ (.literal (.boolean true)) true, .jump ⟨"last"⟩, .label ⟨"last"⟩, .ret none]

theorem tangle_is_consistent :
    tangle.Closed ∧ ∃ cs u g, (FlowGraph.ofRuns tangle.runs).connections = .ok cs ∧
      (FlowGraph.ofRuns tangle.runs).wire = .ok u ∧ FlowGraph.ofCode tangle = .ok g ∧
      u = (FlowGraph.ofRuns tangle.runs).connectAll cs ∧ g = FlowGraph.pruneTimes u.blocks.length u ∧
      (∀ n, ((FlowGraph.ofRuns tangle.runs).connectAll (cs.take n)).Consistent) ∧
      (∀ n, (FlowGraph.pruneTimes n u).Consistent) ∧
      ∀ b ∈ g.basicBlocks, b.incoming ≠ [] := by
  have hclosed : tangle.Closed := by simp [tangle, Closed, Instr.target?]
  exact ⟨hclosed, graph_is_consistent tangle hclosed⟩

/-- A branch on a number to the block behind it. -/
def numeric : Code := [.branch ⟨"last"⟩ (.literal (.int 5)) true, .label ⟨"last"⟩]

/-- A number is a literal, but not a truth value, so both ways out of the branch are drawn. -/
theorem numeric_branches_on_literal :
    numeric.Closed ∧ ∃ g, FlowGraph.ofCode numeric = .ok g ∧ ∃ b ∈ g.blocks, b.outgoing.length = 2 ∧
      ¬ ∃ l c on, b.code.getLast? = some (.branch l c on) ∧ ∀ v, c ≠ .literal v := by
  have hclosed : numeric.Closed := by simp [numeric, Closed, Instr.target?]
  refine ⟨hclosed, _, rfl, ⟨1, .basic, _, [0], [1, 2]⟩, .tail _ List.mem_cons_self, rfl, ?_⟩
  rintro ⟨l, c, on, hlast, hliteral⟩
  cases hlast
  exact hliteral _ rfl

end Code

end Scripting.Typed
