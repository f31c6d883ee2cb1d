import Scripting.Proofs.Submission.Rejection
import Scripting.Proofs.Typed.Mentions
import Scripting.Submission.Render

/-!
# Handles in a session

Every handle in the submissions of a session is that of a symbol, with the type that the code carries for
it, whatever is wrong with the script it comes from. The table of symbols only grows at its end. So what an
earlier submission does and how it is printed stays the same, whatever is submitted later.
-/

namespace Scripting

variable {t t' : SymbolTable} {s : Submission}

/-! ## Mentions of symbols -/

/-- Where a submission mentions symbols: among the names it declares, in its statements, and in the code of
its functions and of its global part. -/
def Submission.mentions (s : Submission) : List Typed.Mention :=
  s.globals.funcs.map (.func · none) ++ s.globals.vars.map (.var · none) ++
    Typed.Stmt.mentionsList s.globals.statements ++
    s.bodies.flatMap (fun b => .func b.1 none :: b.2.mentions) ++ s.main.mentions

theorem Typed.Mention.Holds.of_function {f : FuncId} (h : ∃ a, t.functionAt? f = some a) :
    (Mention.func f none).Holds t := by
  obtain ⟨a, ha⟩ := h
  exact ⟨a, ha, fun _ h => by cases h⟩

theorem Typed.Mention.Holds.of_variable {x : VarId} (h : ∃ v, t.variableAt? x = some v) :
    (Mention.var x none).Holds t := by
  obtain ⟨v, hv⟩ := h
  exact ⟨v, hv, fun _ h => by cases h⟩

theorem Submission.Resolved.holds (h : s.Resolved t) : ∀ m ∈ s.mentions, m.Holds t := by
  have hbodies : ∀ b ∈ s.bodies, (∃ a, t.functionAt? b.1 = some a) ∧
      b.2.Related (Renumbering.identity.handles t) Eq b.2 :=
    fun b hb => (List.forall₂_same.1 h.bodies b hb).2
  unfold Submission.mentions
  simp only [List.forall_mem_append, List.forall_mem_map]
  refine ⟨⟨⟨⟨fun f hf => ?_, fun x hx => ?_⟩, h.globals.statements.holds⟩, fun m hm => ?_⟩, h.main.holds⟩
  · exact .of_function (h.globals.foundFuncs f hf)
  · exact .of_variable (h.globals.foundVars x hx)
  · obtain ⟨b, hb, hm⟩ := List.mem_flatMap.1 hm
    obtain ⟨hf, hcode⟩ := hbodies b hb
    rcases List.mem_cons.1 hm with rfl | hm
    · exact .of_function hf
    · exact hcode.holds m hm

/-! ## Printing under a longer table -/

/-- Of a symbol that it had before, a longer table shows the same. -/
theorem Renumbering.shownAlike_identity (hext : t.Extends t') :
    (identity.handles t).ShownAlike t t' where
  vars := by
    rintro x x' τ ⟨rfl, v, hv, -⟩
    exact (hext.vars _ _ hv).trans hv.symm
  funcs := by
    rintro f f' τ ⟨hf, a, ha, -⟩
    obtain rfl : f = f' := hf.symm
    unfold SymbolTable.functionName
    rw [hext.funcs _ _ ha, ha]

theorem Typed.FlowGraph.related_of_mapM {R : Correspondence} {codes : List Code}
    (h : ∀ code ∈ codes, Code.Related R Eq code code) {graphs : List FlowGraph}
    (hgraphs : codes.mapM ofCode = .ok graphs) : ∀ g ∈ graphs, g.Related R g := by
  induction codes generalizing graphs with
  | nil =>
    cases hgraphs
    exact List.forall_mem_nil _
  | cons code codes ih =>
    obtain ⟨hcode, hcodes⟩ := List.forall_mem_cons.1 h
    have hsame := hcode.ofCode
    rw [List.mapM_cons] at hgraphs
    generalize ofCode code = first, codes.mapM ofCode = others at hgraphs hsame ih
    cases first with
    | error e => cases hgraphs
    | ok g =>
      cases others with
      | error e => cases hgraphs
      | ok gs =>
        cases hgraphs
        cases hsame with
        | ok hg => exact List.forall_mem_cons.2 ⟨hg, ih hcodes rfl⟩

namespace Submission.Resolved

variable (h : s.Resolved t) (hext : t.Extends t')
include h hext

theorem renderList_eq :
    Typed.Stmt.renderList t' 0 s.globals.statements = Typed.Stmt.renderList t 0 s.globals.statements := by
  obtain ⟨ss, heq, hss⟩ := h.globals.statements.of_block
  obtain rfl := Typed.Stmt.block.inj heq
  exact Typed.Stmt.renderList_eq hss
    (fun s _ s' hs indent => hs.render_eq (Renumbering.shownAlike_identity hext) indent) 0

theorem render_eq : s.render t' = s.render t := by
  have hR := Renumbering.shownAlike_identity hext
  have hbodies : s.bodies.map (fun b => renderBody t' b.1 b.2) =
      s.bodies.map (fun b => renderBody t b.1 b.2) := by
    refine List.map_congr_left fun b hb => ?_
    obtain ⟨-, ⟨a, ha⟩, hcode⟩ := List.forall₂_same.1 h.bodies b hb
    unfold renderBody SymbolTable.returnType
    rw [hext.funcs _ _ ha, ha, hcode.render_eq hR]
  unfold Submission.render
  rw [h.main.render_eq hR]
  exact congrArg (String.join · ++ _) hbodies

theorem toDot_eq : s.toDot t' = s.toDot t := by
  have hR := Renumbering.shownAlike_identity hext
  have hcode : ∀ code ∈ s.main :: s.bodies.map (·.2),
      code.Related (Renumbering.identity.handles t) Eq code := by
    refine List.forall_mem_cons.2 ⟨h.main, List.forall_mem_map.2 fun b hb => ?_⟩
    exact (List.forall₂_same.1 h.bodies b hb).2.2
  unfold Submission.toDot
  generalize hgraphs : (s.main :: s.bodies.map (·.2)).mapM Typed.FlowGraph.ofCode = graphs?
  cases graphs? with
  | error e =>
    show Except.error e = Except.error e
    rfl
  | ok graphs =>
    have hdrawings : graphs.map (·.toDot t') = graphs.map (·.toDot t) :=
      List.map_congr_left fun g hg => (Typed.FlowGraph.related_of_mapM hcode hgraphs g hg).toDot_eq hR
    show Except.ok (String.join (graphs.map (·.toDot t'))) = Except.ok (String.join (graphs.map (·.toDot t)))
    rw [hdrawings]

end Submission.Resolved

/-! ## Sessions -/

/-- The first table is the beginning of the second. -/
structure SymbolTable.IsPrefix (t t' : SymbolTable) : Prop where
  vars : t.vars.toList <+: t'.vars.toList
  funcs : t.funcs.toList <+: t'.funcs.toList

theorem isPrefix_of_getElem? {α : Type} {l l' : List α}
    (h : ∀ (i : Nat) (a : α), l[i]? = some a → l'[i]? = some a) :
    l <+: l' := by
  rw [List.prefix_iff_getElem?]
  exact fun i hi => h i _ (List.getElem?_eq_getElem hi)

theorem SymbolTable.Extends.isPrefix (h : t.Extends t') : t.IsPrefix t' where
  vars := isPrefix_of_getElem? fun i v hv => by
    have hv' : t.variableAt? ⟨i⟩ = some v := by rw [← hv, Array.getElem?_toList]; rfl
    rw [Array.getElem?_toList]
    exact h.vars _ _ hv'
  funcs := isPrefix_of_getElem? fun i a ha => by
    have ha' : t.functionAt? ⟨i⟩ = some a := by rw [← ha, Array.getElem?_toList]; rfl
    rw [Array.getElem?_toList]
    exact h.funcs _ _ ha'

/-- **Handles stay valid.** Let a session go on in any way from any point, with scripts that are in order and
scripts that are not. Symbols are only added, behind those there are. Every handle in its submissions is that
of a symbol, whose type is the one that the code carries for it. So a submission made before that point has
the same outcome as then, from any variables and on any host, and it is printed and drawn as before. -/
theorem handles_stay_valid {S S' : Session} (hS : S.Reachable)
    (hlater : Relation.ReflTransGen Session.Step S S') :
    S.symbols.IsPrefix S'.symbols ∧
      (∀ l ∈ S'.lineages, ∀ s ∈ l, ∀ m ∈ s.mentions, m.Holds S'.symbols) ∧
      ∀ (s : Submission) (earlier : Lineage), s :: earlier ∈ S.lineages →
        (∀ {σ : Type} (host : Host σ) (fuel : Nat) (globals : Store) (state : σ),
          s.evaluate host S'.symbols earlier .flat fuel globals state =
            s.evaluate host S.symbols earlier .flat fuel globals state) ∧
        Typed.Stmt.renderList S'.symbols 0 s.globals.statements =
          Typed.Stmt.renderList S.symbols 0 s.globals.statements ∧
        s.render S'.symbols = s.render S.symbols ∧ s.toDot S'.symbols = s.toDot S.symbols := by
  have hext := Session.extends_later hlater
  have hS' : S'.Reachable := hS.trans hlater
  refine ⟨hext.isPrefix, fun l hl s hs => (hS'.resolved.lineages l hl s hs).holds, ?_⟩
  intro s earlier hmem
  have hresolved := hS.resolved.lineages _ hmem
  have hs := hresolved s List.mem_cons_self
  refine ⟨fun host fuel globals state => ?_, hs.renderList_eq hext, hs.render_eq hext, hs.toDot_eq hext⟩
  exact hresolved.evaluate_eq hext host fuel globals state

/-- The misspelt declaration changes neither what the halving does nor how it is printed. -/
theorem halving_stays_valid :
    let S' : Session := Session.shared.submit [Session.sharing.1, Session.halving.1] .standard
      "var share = totl / 2;" "misspelt"
    (Session.shared.Reachable ∧ Relation.ReflTransGen Session.Step Session.shared S' ∧
        [Session.halving.1] ∈ Session.shared.lineages ∧ Session.misspelt.1.diagnostics ≠ []) ∧
      Session.shared.symbols.IsPrefix S'.symbols ∧
      (∀ m ∈ Session.misspelt.1.mentions, m.Holds S'.symbols) ∧
      (∀ state : Recording,
        Session.halving.1.evaluate Recording.host S'.symbols [] .flat 100 .empty state =
          Session.halving.1.evaluate Recording.host Session.shared.symbols [] .flat 100 .empty state) ∧
      Session.halving.1.render S'.symbols = Session.halving.1.render Session.shared.symbols := by
  intro S'
  have hmem : [Session.halving.1] ∈ Session.shared.lineages := List.mem_cons_of_mem _ List.mem_cons_self
  have hlater : Relation.ReflTransGen Session.Step Session.shared S' :=
    .single (.submit _ (.inr List.mem_cons_self) .standard _ _)
  obtain ⟨hgrows, hmentions, hsame⟩ := handles_stay_valid Session.reachable_shared hlater
  obtain ⟨hevaluate, -, hrender, -⟩ := hsame _ _ hmem
  exact ⟨⟨Session.reachable_shared, hlater, hmem, Session.rejected_misspelt⟩, hgrows,
    hmentions _ List.mem_cons_self _ List.mem_cons_self, fun state => hevaluate Recording.host 100 .empty state,
    hrender⟩

end Scripting
