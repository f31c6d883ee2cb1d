import Scripting.Proofs.Graph.Wiring
import Scripting.Proofs.Lowering.Checked
import Scripting.Proofs.Submission.Renumbering
import Scripting.Submission.Render

/-!
# The labels of a submission

Whatever is wrong with a script, the code made from it keeps to the rules for labels: in each body every
label is declared once, and jumps go to labels of the same body. So every body has a flow graph, and all
of them can be drawn: the handles in a graph are those of symbols.
-/

namespace Scripting

open Typed (FlowGraph)

namespace Typed

/-- No label is declared twice, and jumps go to labels that are declared. -/
structure Code.Labelled (code : Code) : Prop where
  nodup : code.labels.Nodup
  closed : code.Closed

theorem Stmt.labelled_lower {lo hi : Nat} {s : Stmt} (hn : s.Numbered lo hi)
    {P : Instr → Prop} (hs : s.Scoped P []) : s.lower.Labelled :=
  ⟨(hn.labels_lowered 0).nodup, hs.closed_lower⟩

theorem Stmt.labelled_lowerBody {lo hi : Nat} {s : Stmt} (hn : s.Numbered lo hi)
    {P : Instr → Prop} (hs : s.Scoped P []) (returns : Ty) : (s.lowerBody returns).Labelled := by
  refine ⟨?_, hs.closed_lowerBody returns⟩
  have hlower : s.lower.labels.Nodup := (hn.labels_lowered 0).nodup
  unfold Stmt.lowerBody
  split
  · rw [Code.labels_append]
    exact (List.append_nil _).symm ▸ hlower
  · exact hlower

/-- Code with its labels in order has a flow graph. -/
theorem Code.Labelled.exists_graph {code : Code} (h : code.Labelled) :
    ∃ g, FlowGraph.ofCode code = .ok g := by
  obtain ⟨u, hu, -⟩ := FlowGraph.exists_wired h.closed
  exact ⟨_, FlowGraph.ofCode_eq hu⟩

theorem FlowGraph.ofStmts_map_instr (code : Code) : ofStmts (code.map Stmt.instr) = ofCode code := by
  unfold ofStmts
  rw [Stmt.runs_map_instr]
  rfl

/-- The handles in the blocks and on the edges of the graph are those of symbols. -/
def FlowGraph.Resolved (t : SymbolTable) (g : FlowGraph) : Prop :=
  g.Related (Renumbering.identity.handles t) g

end Typed

/-- The code of a submission: its global code and the bodies of its functions. -/
def Submission.codes (s : Submission) : List Typed.Code := s.main :: s.bodies.map (·.2)

theorem labelled_checkBodies (options : Options) (parent : Scope) (t : SymbolTable) (fs : List FuncId) :
    ∀ b ∈ (checkBodies options parent t fs).1, b.2.Labelled := by
  induction fs generalizing t with
  | nil => exact List.forall_mem_nil _
  | cons f fs ih =>
    unfold checkBodies
    split
    · exact ih t
    case h_2 returns d _ =>
      obtain ⟨n, hshape⟩ := Checking.shaped_body options t parent f d.body
      refine List.forall_mem_cons.2 ⟨?_, ih _⟩
      exact Typed.Stmt.labelled_lowerBody hshape.numbered hshape.jumps returns

theorem labelled_ofScript (options : Options) (t : SymbolTable) (earlier : Lineage)
    (syntaxErrors : List Diagnostic) (ss : List Surface.Stmt) :
    ∀ code ∈ (Submission.ofScript options t earlier syntaxErrors ss).1.codes, code.Labelled := by
  obtain ⟨n, hshape⟩ := Checking.shaped_globals options t (earlier.scope t) ss
  refine List.forall_mem_cons.2 ⟨Typed.Stmt.labelled_lower hshape.numbered hshape.jumps, ?_⟩
  intro code hcode
  obtain ⟨b, hb, rfl⟩ := List.mem_map.1 hcode
  exact labelled_checkBodies options _ _ _ b hb

theorem exists_mapM_ok {α β ε : Type} {f : α → Except ε β} {l : List α}
    (h : ∀ a ∈ l, ∃ b, f a = .ok b) : ∃ bs, l.mapM f = .ok bs := by
  induction l with
  | nil => exact ⟨[], rfl⟩
  | cons a l ih =>
    obtain ⟨⟨b, hb⟩, hl⟩ := List.forall_mem_cons.1 h
    obtain ⟨bs, hbs⟩ := ih hl
    refine ⟨b :: bs, ?_⟩
    rw [List.mapM_cons, hb, hbs]
    rfl

theorem Submission.exists_toDot {s : Submission} (h : ∀ code ∈ s.codes, code.Labelled) (t : SymbolTable) :
    ∃ text, s.toDot t = .ok text := by
  obtain ⟨graphs, hgraphs⟩ := exists_mapM_ok fun code hcode => (h code hcode).exists_graph
  refine ⟨String.join (graphs.map (·.toDot t)), ?_⟩
  unfold Submission.toDot
  rw [← Submission.codes, hgraphs]
  rfl

/-- The flow graphs of code whose handles are those of symbols have only such handles. -/
theorem Submission.Resolved.graph {t : SymbolTable} {s : Submission} (h : s.Resolved t)
    {code : Typed.Code} (hcode : code ∈ s.codes) {g : FlowGraph} (hg : FlowGraph.ofCode code = .ok g) :
    g.Resolved t := by
  have hrelated : code.Related (Renumbering.identity.handles t) Eq code := by
    rcases List.mem_cons.1 hcode with rfl | hcode
    · exact h.main
    · obtain ⟨b, hb, rfl⟩ := List.mem_map.1 hcode
      exact (List.forall₂_same.1 h.bodies b hb).2.2
  have hgraph := hrelated.ofCode
  rw [hg] at hgraph
  cases hgraph with
  | ok hgraph => exact hgraph

/-- **The labels of every submission are in order**, whatever is reported about it and whatever it builds
on. In its global code and in the body of each function no label is declared twice, and jumps go to labels
declared there. There is no structure left, so each has a flow graph, and they can be drawn. In a session,
the handles that a drawing looks up are those of symbols. -/
theorem submissions_are_labelled (options : Options) (syntaxErrors : List Diagnostic)
    (ss : List Surface.Stmt) :
    (∀ (t : SymbolTable) (earlier : Lineage),
        let r := Submission.ofScript options t earlier syntaxErrors ss
        (∀ code ∈ r.1.codes, code.labels.Nodup ∧ (∀ l ∈ code.targets, l ∈ code.labels) ∧
            ∃ g, FlowGraph.ofStmts (code.map .instr) = .ok g) ∧
          ∃ text, r.1.toDot r.2 = .ok text) ∧
      ∀ S : Session, S.Reachable → ∀ base : Lineage, base = [] ∨ base ∈ S.lineages →
        let r := Submission.ofScript options S.symbols base syntaxErrors ss
        ∀ code ∈ r.1.codes, ∃ g, FlowGraph.ofStmts (code.map .instr) = .ok g ∧ g.Resolved r.2 := by
  constructor
  · intro t earlier
    have hcodes := labelled_ofScript options t earlier syntaxErrors ss
    refine ⟨fun code hcode => ?_, ?_⟩
    · have hlabelled := hcodes code hcode
      rw [FlowGraph.ofStmts_map_instr]
      exact ⟨hlabelled.nodup, Typed.Code.closed_iff.1 hlabelled.closed, hlabelled.exists_graph⟩
    · exact Submission.exists_toDot hcodes _
  · intro S hS base hbase r code hcode
    have hresolved := (hS.resolved.base hbase).ofScript hS.resolved.coherent options syntaxErrors ss
    obtain ⟨g, hg⟩ := (labelled_ofScript options S.symbols base syntaxErrors ss code hcode).exists_graph
    rw [FlowGraph.ofStmts_map_instr]
    exact ⟨g, hg, (hresolved.2 _ List.mem_cons_self).graph hcode hg⟩

/-- Loops inside each other, a jump outside of them, and a name that nothing stands for. -/
def strayJumps : List Surface.Stmt :=
  [.whileLoop (.name ⟨"total", .nowhere⟩)
      (.doWhile (.block [.breakLoop .nowhere, .continueLoop .nowhere] .nowhere)
        (.name ⟨"nothing", .nowhere⟩) .nowhere) .nowhere,
    .breakLoop .nowhere]

/-- The labels of the stray jumps are in order, on top of another script that they take a name from. -/
theorem strayJumps_labelled :
    let r := Submission.ofScript .standard Session.shared.symbols [Session.sharing.1, Session.halving.1] []
      strayJumps
    (Session.shared.Reachable ∧ [Session.sharing.1, Session.halving.1] ∈ Session.shared.lineages ∧
        r.1.main ∈ r.1.codes) ∧
      (r.1.main.labels.Nodup ∧ (∀ l ∈ r.1.main.targets, l ∈ r.1.main.labels)) ∧
      ∃ g, FlowGraph.ofStmts (r.1.main.map .instr) = .ok g ∧ g.Resolved r.2 := by
  have hlabelled := submissions_are_labelled .standard [] strayJumps
  have hmain := (hlabelled.1 Session.shared.symbols [Session.sharing.1, Session.halving.1]).1 _
    List.mem_cons_self
  refine ⟨⟨Session.reachable_shared, List.mem_cons_self, List.mem_cons_self⟩, ⟨hmain.1, hmain.2.1⟩, ?_⟩
  exact hlabelled.2 Session.shared Session.reachable_shared _ (.inr List.mem_cons_self) _ List.mem_cons_self

end Scripting
