import Scripting.Proofs.Typed.Correspondence

/-!
# The flow graphs of related code

Code that differs in its handles only has the same flow graph, but for the handles in its blocks and on
its edges. So every way through the one ends in a return if and only if that holds of the other.
-/

namespace Scripting.Typed

variable {α β : Type} {R : Correspondence}

theorem forall₂_find? {P : α → β → Prop} {p : α → Bool} {q : β → Bool} {l : List α} {l' : List β}
    (h : List.Forall₂ P l l') (hp : ∀ a b, P a b → p a = q b) :
    Option.Rel P (l.find? p) (l'.find? q) := by
  induction h with
  | nil => exact .none
  | @cons a b l l' hab _ ih =>
    rw [List.find?_cons, List.find?_cons, ← hp a b hab]
    cases p a with
    | true => exact .some hab
    | false => exact ih

theorem forall₂_filter {P : α → β → Prop} {p : α → Bool} {q : β → Bool} {l : List α} {l' : List β}
    (h : List.Forall₂ P l l') (hp : ∀ a b, P a b → p a = q b) :
    List.Forall₂ P (l.filter p) (l'.filter q) := by
  induction h with
  | nil => exact .nil
  | @cons a b l l' hab _ ih =>
    rw [List.filter_cons, List.filter_cons, ← hp a b hab]
    split
    · exact .cons hab ih
    · exact ih

/-- Both succeed with related results, or both fail alike. -/
inductive SameResult {ε : Type} (P : α → β → Prop) : Except ε α → Except ε β → Prop
  | ok {a b} (h : P a b) : SameResult P (.ok a) (.ok b)
  | error (e) : SameResult P (.error e) (.error e)

/-! ## Straight runs -/

theorem Instr.Related.label?_eq {i i' : Instr} (h : i.Related R Eq i') : i'.label? = i.label? := by
  cases h with
  | label hl => rw [hl]
  | _ => rfl

theorem Instr.Related.closes_eq {L : Label → Label → Prop} {i i' : Instr} (h : i.Related R L i') :
    i'.closes = i.closes := by
  cases h <;> rfl

theorem Code.Related.opens_eq {L : Label → Label → Prop} {code code' : Code}
    (h : Code.Related R L code code') : code'.opens = code.opens := by
  cases h with
  | nil => rfl
  | cons hi _ => cases hi <;> rfl

theorem Code.Related.head_label?_eq {code code' : Code} (h : Code.Related R Eq code code') :
    code'.head?.bind Instr.label? = code.head?.bind Instr.label? := by
  cases h with
  | nil => rfl
  | cons hi _ => exact hi.label?_eq

theorem Code.Related.runs {L : Label → Label → Prop} {code code' : Code}
    (h : Code.Related R L code code') :
    List.Forall₂ (Code.Related R L) code.runs code'.runs := by
  induction h with
  | nil => exact .nil
  | @cons i i' rest rest' hi _ ih =>
    unfold Code.runs
    generalize Code.runs rest = runs, Code.runs rest' = runs' at ih
    cases ih with
    | nil => exact .cons (.cons hi .nil) .nil
    | cons hr hrs =>
      dsimp only
      rw [hi.closes_eq, Code.Related.opens_eq hr]
      split
      · exact .cons (.cons hi .nil) (.cons hr hrs)
      · exact .cons (.cons hi hr) hrs

/-! ## Graphs -/

structure Block.Related (R : Correspondence) (b b' : Block) : Prop where
  id : b'.id = b.id
  kind : b'.kind = b.kind
  code : Code.Related R Eq b.code b'.code
  incoming : b'.incoming = b.incoming
  outgoing : b'.outgoing = b.outgoing

structure Edge.Related (R : Correspondence) (e e' : Edge) : Prop where
  id : e'.id = e.id
  source : e'.source = e.source
  target : e'.target = e.target
  condition : Option.Rel (Expr.Related R) e.condition? e'.condition?

structure FlowGraph.Related (R : Correspondence) (g g' : FlowGraph) : Prop where
  blocks : List.Forall₂ (Block.Related R) g.blocks g'.blocks
  edges : List.Forall₂ (Edge.Related R) g.edges g'.edges
  stop : g'.stop = g.stop
  nextEdge : g'.nextEdge = g.nextEdge

theorem Block.Related.returns_eq {b b' : Block} (h : b.Related R b') : b'.returns = b.returns := by
  unfold Block.returns
  generalize b.code.getLast? = last, b'.code.getLast? = last', forall₂_getLast? h.code = hlast
  cases hlast with
  | none => rfl
  | some hi => cases hi <;> rfl

namespace FlowGraph

theorem related_blocksFrom {runs runs' : List Code} (h : List.Forall₂ (Code.Related R Eq) runs runs')
    (n : Nat) : List.Forall₂ (Block.Related R) (blocksFrom n runs) (blocksFrom n runs') := by
  induction h generalizing n with
  | nil => exact .cons ⟨rfl, rfl, .nil, rfl, rfl⟩ .nil
  | cons hr _ ih => exact .cons ⟨rfl, rfl, hr, rfl, rfl⟩ (ih (n + 1))

theorem related_ofRuns {runs runs' : List Code} (h : List.Forall₂ (Code.Related R Eq) runs runs') :
    (ofRuns runs).Related R (ofRuns runs') :=
  ⟨.cons ⟨rfl, rfl, .nil, rfl, rfl⟩ (related_blocksFrom h 1), .nil,
    congrArg (· + 1) h.length_eq.symm, rfl⟩

namespace Related

variable {g g' : FlowGraph}

theorem addEdge (h : g.Related R g') (source target : Nat) {condition? condition?' : Option Expr}
    (hc : Option.Rel (Expr.Related R) condition? condition?') :
    (g.addEdge source target condition?).Related R (g'.addEdge source target condition?') := by
  refine ⟨?_, ?_, h.stop, congrArg (· + 1) h.nextEdge⟩
  · refine List.forall₂_map_left_iff.2 (List.forall₂_map_right_iff.2 (h.blocks.imp fun b b' hb => ?_))
    refine ⟨hb.id, hb.kind, hb.code, ?_, ?_⟩
    · simp only [hb.id, hb.incoming, h.nextEdge]
    · simp only [hb.id, hb.outgoing, h.nextEdge]
  · exact List.rel_append h.edges (.cons ⟨h.nextEdge, rfl, rfl, hc⟩ .nil)

theorem connect (h : g.Related R g') (source target : Nat) {condition? condition?' : Option Expr}
    (hc : Option.Rel (Expr.Related R) condition? condition?') :
    (g.connect source target condition?).Related R (g'.connect source target condition?') := by
  have hconstant : condition?'.bind Expr.constant? = condition?.bind Expr.constant? := by
    cases hc with
    | none => rfl
    | some he => exact he.constant?_eq
  unfold FlowGraph.connect
  rw [hconstant]
  split
  · exact h
  · exact h.addEdge source target .none
  · exact h.addEdge source target hc

theorem labelled (h : g.Related R g') (l : Label) : g'.labelled l = g.labelled l := by
  have hfound := forall₂_find? (p := fun b => b.code.head?.bind Instr.label? = some l)
    (q := fun b => b.code.head?.bind Instr.label? = some l) (List.rel_reverse h.blocks) fun b b' hb =>
      decide_eq_decide.2 (by rw [Code.Related.head_label?_eq hb.code])
  unfold FlowGraph.labelled
  generalize g.blocks.reverse.find? _ = found, g'.blocks.reverse.find? _ = found' at hfound
  cases hfound with
  | none => rfl
  | some hb => exact congrArg Except.ok hb.id

theorem wireBlock (h : g.Related R g') {b b' : Block} (hb : b.Related R b') :
    SameResult (FlowGraph.Related R) (g.wireBlock b) (g'.wireBlock b') := by
  unfold FlowGraph.wireBlock
  rw [hb.id, h.stop]
  generalize b.code.getLast? = last, b'.code.getLast? = last', forall₂_getLast? hb.code = hlast
  cases hlast with
  | none => exact .ok (h.connect _ _ .none)
  | some hi =>
    cases hi with
    | eval | declare | label | retNone | ret => exact .ok (h.connect _ _ .none)
    | @jump l l' hl =>
      subst hl
      dsimp only
      rw [h.labelled]
      cases g.labelled l with
      | error e => exact .error e
      | ok n => exact .ok (h.connect _ n .none)
    | @branch l l' c c' hl hc on =>
      subst hl
      dsimp only
      rw [h.labelled]
      cases g.labelled l with
      | error e => exact .error e
      | ok n =>
        refine .ok ((h.connect _ n (.some ?_)).connect _ _ (.some ?_))
        · cases on with
          | true => exact hc
          | false => exact hc.negate
        · cases on with
          | true => exact hc.negate
          | false => exact hc

theorem wireBlocks (h : g.Related R g') {bs bs' : List Block}
    (hbs : List.Forall₂ (Block.Related R) bs bs') :
    SameResult (FlowGraph.Related R) (bs.foldlM FlowGraph.wireBlock g)
      (bs'.foldlM FlowGraph.wireBlock g') := by
  induction hbs generalizing g g' with
  | nil => exact .ok h
  | @cons b b' bs bs' hb _ ih =>
    rw [List.foldlM_cons, List.foldlM_cons]
    generalize g.wireBlock b = r, g'.wireBlock b' = r', h.wireBlock hb = hr
    cases hr with
    | error e => exact .error e
    | ok hg => exact ih hg

theorem wire (h : g.Related R g') : SameResult (FlowGraph.Related R) g.wire g'.wire := by
  unfold FlowGraph.wire FlowGraph.basicBlocks
  refine (h.connect 0 1 .none).wireBlocks (forall₂_filter h.blocks fun b b' hb => ?_)
  rw [hb.kind]

/-! ## Pruning -/

theorem block? (h : g.Related R g') (id : Nat) :
    Option.Rel (Block.Related R) (g.block? id) (g'.block? id) :=
  forall₂_find? h.blocks fun b b' hb => by rw [hb.id]

theorem edge? (h : g.Related R g') (id : Nat) :
    Option.Rel (Edge.Related R) (g.edge? id) (g'.edge? id) :=
  forall₂_find? h.edges fun e e' he => by rw [he.id]

theorem removeEdge (h : g.Related R g') (n : Nat) : (g.removeEdge n).Related R (g'.removeEdge n) := by
  unfold FlowGraph.removeEdge
  generalize g.edge? n = found, g'.edge? n = found', h.edge? n = hfound
  cases hfound with
  | none => exact h
  | some he =>
    refine ⟨?_, forall₂_filter h.edges fun e e' he => by rw [he.id], h.stop, h.nextEdge⟩
    refine List.forall₂_map_left_iff.2 (List.forall₂_map_right_iff.2 (h.blocks.imp fun b b' hb => ?_))
    refine ⟨hb.id, hb.kind, hb.code, ?_, ?_⟩
    · simp only [hb.id, hb.incoming, he.target]
    · simp only [hb.id, hb.outgoing, he.source]

theorem removeEdges (h : g.Related R g') (ns : List Nat) :
    (ns.foldl FlowGraph.removeEdge g).Related R (ns.foldl FlowGraph.removeEdge g') := by
  induction ns generalizing g g' with
  | nil => exact h
  | cons n ns ih => exact ih (h.removeEdge n)

theorem removeBlock (h : g.Related R g') {b b' : Block} (hb : b.Related R b') :
    (g.removeBlock b).Related R (g'.removeBlock b') := by
  unfold FlowGraph.removeBlock
  rw [hb.incoming, hb.outgoing]
  apply removeEdges
  refine ⟨forall₂_filter h.blocks fun c c' hc => ?_, h.edges, h.stop, h.nextEdge⟩
  rw [hc.id, hb.id]

theorem pruneTimes (h : g.Related R g') (n : Nat) :
    (FlowGraph.pruneTimes n g).Related R (FlowGraph.pruneTimes n g') := by
  induction n generalizing g g' with
  | zero => exact h
  | succ n ih =>
    have horphan : Option.Rel (Block.Related R) g.orphan? g'.orphan? :=
      forall₂_find? h.blocks fun b b' hb => by rw [hb.kind, hb.incoming]
    unfold FlowGraph.pruneTimes
    generalize g.orphan? = orphan, g'.orphan? = orphan' at horphan
    cases horphan with
    | none => exact h
    | some hb => exact ih (h.removeBlock hb)

theorem prune (h : g.Related R g') : g.prune.Related R g'.prune := by
  unfold FlowGraph.prune
  rw [h.blocks.length_eq]
  exact h.pruneTimes _

/-! ## Returns -/

theorem allPathsReturn (h : g.Related R g') : g'.allPathsReturn = g.allPathsReturn := by
  have hreturns : ∀ e, (((g'.edge? e).bind (g'.block? ·.source)).map (·.returns)).getD false =
      (((g.edge? e).bind (g.block? ·.source)).map (·.returns)).getD false := by
    intro e
    generalize g.edge? e = found, g'.edge? e = found', h.edge? e = hfound
    cases hfound with
    | none => rfl
    | @some e e' he =>
      rw [Option.bind_some, Option.bind_some, he.source]
      generalize g.block? e.source = b?, g'.block? e.source = b?', h.block? e.source = hb?
      cases hb? with
      | none => rfl
      | some hb => exact hb.returns_eq
  unfold FlowGraph.allPathsReturn
  rw [h.stop]
  generalize g.block? g.stop = exit, g'.block? g.stop = exit', h.block? g.stop = hexit
  cases hexit with
  | none => rfl
  | some hb =>
    dsimp only
    rw [hb.incoming]
    simp only [hreturns]

end Related

end FlowGraph

/-- The flow graphs of related code are related. -/
theorem Code.Related.ofCode {code code' : Code} (h : Code.Related R Eq code code') :
    SameResult (FlowGraph.Related R) (FlowGraph.ofCode code) (FlowGraph.ofCode code') := by
  have hwire := (FlowGraph.related_ofRuns h.runs).wire
  unfold FlowGraph.ofCode
  generalize (FlowGraph.ofRuns code.runs).wire = g, (FlowGraph.ofRuns code'.runs).wire = g' at hwire
  cases hwire with
  | error e => exact .error e
  | ok hg => exact .ok hg.prune

/-- Related code returns on all paths alike. -/
theorem Code.Related.allPathsReturn {code code' : Code} (h : Code.Related R Eq code code') :
    code'.allPathsReturn = code.allPathsReturn := by
  unfold Code.allPathsReturn
  generalize FlowGraph.ofCode code = g, FlowGraph.ofCode code' = g', h.ofCode = hg
  cases hg with
  | error e => rfl
  | ok hg => exact hg.allPathsReturn

end Scripting.Typed
