import Scripting.Proofs.Check.Renumbering
import Scripting.Proofs.Graph.Correspondence
import Scripting.Typed.Dot

/-!
# Symbols that code mentions

A tree refers to symbols by handles, and where it names, assigns or calls one it also carries the type of
the symbol. `mentions` lists the handles of a tree with these types, and `Mention.Holds` says that a table
bears one out. Of a table, printed code shows only what it holds for the handles that the code mentions.
-/

namespace Scripting.Typed

/-! ## Mentions -/

/-- The handle of a variable or a function in a tree, with the type that the tree carries for it. -/
inductive Mention
  | var (x : VarId) (type? : Option Ty)
  | func (f : FuncId) (type? : Option Ty)
deriving DecidableEq, Repr

/-- The table has a symbol under the handle, and the type is that of the variable or that which calls of
the function have. -/
def Mention.Holds (t : SymbolTable) : Mention → Prop
  | var x type? => ∃ v, t.variableAt? x = some v ∧ ∀ type ∈ type?, v.type = type
  | func f type? => ∃ a, t.functionAt? f = some a ∧ ∀ type ∈ type?, a.returns = type

mutual

/-- The mentions of symbols in an expression. -/
def Expr.mentions : Expr → List Mention
  | .literal _ | .error => []
  | .name x t => [.var x (some t)]
  | .assign x e t | .compound x _ e t => .var x (some t) :: e.mentions
  | .unary _ e | .convert _ e => e.mentions
  | .binary l _ r => l.mentions ++ r.mentions
  | .call f es t => .func f (some t) :: Expr.mentionsList es

def Expr.mentionsList : List Expr → List Mention
  | [] => []
  | e :: es => e.mentions ++ Expr.mentionsList es

end

def Instr.mentions : Instr → List Mention
  | eval e | branch _ e _ | ret (some e) => e.mentions
  | declare x e => .var x none :: e.mentions
  | label _ | jump _ | ret none => []

mutual

def Stmt.mentions : Stmt → List Mention
  | .instr i => i.mentions
  | .block ss => Stmt.mentionsList ss
  | .ifThen c s => c.mentions ++ s.mentions
  | .ifElse c s t => c.mentions ++ s.mentions ++ t.mentions
  | .whileLoop c s _ _ | .doWhile s c _ _ => c.mentions ++ s.mentions
  | .forLoop i c n s _ _ => i.mentions ++ c.mentions ++ n.mentions ++ s.mentions

def Stmt.mentionsList : List Stmt → List Mention
  | [] => []
  | s :: ss => s.mentions ++ Stmt.mentionsList ss

end

def Code.mentions (code : Code) : List Mention := code.flatMap Instr.mentions

theorem Expr.mentionsList_eq_flatMap (es : List Expr) :
    Expr.mentionsList es = es.flatMap Expr.mentions := by
  induction es with
  | nil => rfl
  | cons e es ih => rw [Expr.mentionsList, ih, List.flatMap_cons]

/-! ## Trees whose handles are those of symbols -/

section Holds

variable {t : SymbolTable}

theorem Mention.Holds.of_var {x x' : VarId} {τ : Ty} (h : (Renumbering.identity.handles t).vars x x' τ) :
    (Mention.var x (some τ)).Holds t := by
  obtain ⟨rfl, v, hv, hτ⟩ := h
  exact ⟨v, hv, fun τ' h => Option.mem_some.1 h ▸ hτ⟩

theorem Mention.Holds.of_declared {x x' : VarId} {τ : Ty}
    (h : (Renumbering.identity.handles t).vars x x' τ) : (Mention.var x none).Holds t := by
  obtain ⟨v, hv, -⟩ := of_var h
  exact ⟨v, hv, fun _ h => by cases h⟩

theorem Mention.Holds.of_func {f f' : FuncId} {τ : Ty}
    (h : (Renumbering.identity.handles t).funcs f f' τ) : (Mention.func f (some τ)).Holds t := by
  obtain ⟨rfl, a, ha, hτ⟩ := h
  exact ⟨a, ha, fun τ' h => Option.mem_some.1 h ▸ hτ⟩

theorem Expr.Related.holds {e e' : Expr} (h : e.Related (Renumbering.identity.handles t) e') :
    ∀ m ∈ e.mentions, m.Holds t := by
  induction h with
  | literal v => exact List.forall_mem_nil _
  | name hx => exact List.forall_mem_singleton.2 (.of_var hx)
  | assign hx _ ih => exact List.forall_mem_cons.2 ⟨.of_var hx, ih⟩
  | compound hx o _ ih => exact List.forall_mem_cons.2 ⟨.of_var hx, ih⟩
  | unary o _ ih => exact ih
  | binary o _ _ ihl ihr => exact List.forall_mem_append.2 ⟨ihl, ihr⟩
  | convert t _ ih => exact ih
  | @call f f' τ es es' hf hlength _ ih =>
    refine List.forall_mem_cons.2 ⟨.of_func hf, ?_⟩
    rw [Expr.mentionsList_eq_flatMap]
    intro m hm
    obtain ⟨e, he, hm⟩ := List.mem_flatMap.1 hm
    -- the argument stands at the same place as one of the other list
    obtain ⟨i, hi, rfl⟩ := List.getElem_of_mem he
    have hzip : (es[i], es'[i]) ∈ es.zip es' :=
      List.mem_iff_getElem.2 ⟨i, by simp; omega, List.getElem_zip⟩
    exact ih _ hzip m hm
  | error => exact List.forall_mem_nil _

theorem Instr.Related.holds {L : Label → Label → Prop} {i i' : Instr}
    (h : i.Related (Renumbering.identity.handles t) L i') : ∀ m ∈ i.mentions, m.Holds t := by
  cases h with
  | eval he => exact he.holds
  | declare hx he => exact List.forall_mem_cons.2 ⟨.of_declared hx, he.holds⟩
  | label | jump | retNone => exact List.forall_mem_nil _
  | branch _ hc on => exact hc.holds
  | ret he => exact he.holds

theorem Code.Related.holds {L : Label → Label → Prop} {code code' : Code}
    (h : Code.Related (Renumbering.identity.handles t) L code code') :
    ∀ m ∈ code.mentions, m.Holds t := by
  unfold Code.mentions
  induction h with
  | nil => exact List.forall_mem_nil _
  | cons hi _ ih => exact List.forall_mem_append.2 ⟨hi.holds, ih⟩

theorem Stmt.Related.holds {L : Label → Label → Prop} {s s' : Stmt}
    (h : s.Related (Renumbering.identity.handles t) L s') : ∀ m ∈ s.mentions, m.Holds t := by
  induction h with
  | instr hi => exact hi.holds
  | nil => exact List.forall_mem_nil _
  | cons _ _ ihs ihss => exact List.forall_mem_append.2 ⟨ihs, ihss⟩
  | ifThen hc _ ih => exact List.forall_mem_append.2 ⟨hc.holds, ih⟩
  | ifElse hc _ _ ihs iht =>
    exact List.forall_mem_append.2 ⟨List.forall_mem_append.2 ⟨hc.holds, ihs⟩, iht⟩
  | whileLoop hc _ _ _ ih => exact List.forall_mem_append.2 ⟨hc.holds, ih⟩
  | doWhile _ hc _ _ ih => exact List.forall_mem_append.2 ⟨hc.holds, ih⟩
  | forLoop _ hc hn _ _ _ ihi ihs =>
    exact List.forall_mem_append.2 ⟨List.forall_mem_append.2
      ⟨List.forall_mem_append.2 ⟨ihi, hc.holds⟩, hn.holds⟩, ihs⟩

end Holds

/-! ## Printed code -/

theorem map_eq_of_forall₂ {α β γ : Type} {P : α → β → Prop} {f : α → γ} {g : β → γ} {l : List α}
    {l' : List β} (h : List.Forall₂ P l l') (hfg : ∀ a b, P a b → g b = f a) : l'.map g = l.map f := by
  induction h with
  | nil => rfl
  | cons hab _ ih => rw [List.map_cons, List.map_cons, hfg _ _ hab, ih]

theorem Stmt.Related.of_block {R : Correspondence} {L : Label → Label → Prop} {ss : List Stmt} {s' : Stmt}
    (h : (Stmt.block ss).Related R L s') :
    ∃ ss', s' = .block ss' ∧ List.Forall₂ (Stmt.Related R L) ss ss' := by
  induction ss generalizing s' with
  | nil =>
    cases h with
    | nil => exact ⟨[], rfl, .nil⟩
  | cons s ss ih =>
    cases h with
    | cons hs hss =>
      obtain ⟨ss', heq, hss⟩ := ih hss
      obtain rfl := Stmt.block.inj heq
      exact ⟨_, rfl, .cons hs hss⟩

/-- The tables show the same for handles that correspond. -/
structure Correspondence.ShownAlike (R : Correspondence) (t t' : SymbolTable) : Prop where
  vars : ∀ {x x' τ}, R.vars x x' τ → t'.variableAt? x' = t.variableAt? x
  funcs : ∀ {f f' τ}, R.funcs f f' τ → t'.functionName f' = t.functionName f

section Render

variable {R : Correspondence} {t t' : SymbolTable}

theorem Expr.Related.parenthesize_eq {e e' : Expr} (h : e.Related R e') (text : String) :
    e'.parenthesize text = e.parenthesize text := by
  cases h <;> rfl

theorem Expr.renderList_eq {es es' : List Expr} (hlength : es.length = es'.length)
    (h : ∀ p ∈ es.zip es', p.2.render t' = p.1.render t) :
    Expr.renderList t' es' = Expr.renderList t es := by
  induction es generalizing es' with
  | nil =>
    obtain rfl := List.length_eq_zero_iff.1 hlength.symm
    rfl
  | cons e es ih =>
    cases es' with
    | nil => cases hlength
    | cons e' es' =>
      obtain ⟨he, hes⟩ := List.forall_mem_cons.1 h
      rw [Expr.renderList, Expr.renderList, he, ih (Nat.succ.inj hlength) hes]

theorem Stmt.renderList_eq {ss ss' : List Stmt} (hss : List.Forall₂ (Stmt.Related R Eq) ss ss')
    (h : ∀ s ∈ ss, ∀ s', s.Related R Eq s' → ∀ indent, s'.render t' indent = s.render t indent)
    (indent : Nat) : Stmt.renderList t' indent ss' = Stmt.renderList t indent ss := by
  induction hss with
  | nil => rfl
  | cons hs _ ih =>
    obtain ⟨hfirst, hrest⟩ := List.forall_mem_cons.1 h
    rw [Stmt.renderList, Stmt.renderList, hfirst _ hs, ih hrest]

variable (hR : R.ShownAlike t t')
include hR

theorem Correspondence.ShownAlike.variableName_eq {x x' : VarId} {τ : Ty} (hx : R.vars x x' τ) :
    t'.variableName x' = t.variableName x := by
  unfold SymbolTable.variableName
  rw [hR.vars hx]

theorem Expr.Related.render_eq {e e' : Expr} (h : e.Related R e') : e'.render t' = e.render t := by
  induction h with
  | literal v => cases v <;> rfl
  | name hx => exact hR.variableName_eq hx
  | assign hx _ ih => rw [Expr.render, Expr.render, hR.variableName_eq hx, ih]
  | compound hx o _ ih => rw [Expr.render, Expr.render, hR.variableName_eq hx, ih]
  | unary o he ih => rw [Expr.render, Expr.render, he.parenthesize_eq, ih]
  | binary o hl hr ihl ihr =>
    rw [Expr.render, Expr.render, hl.parenthesize_eq, hr.parenthesize_eq, ihl, ihr]
  | convert τ _ ih => rw [Expr.render, Expr.render, ih]
  | call hf hlength _ ih =>
    rw [Expr.render, Expr.render, hR.funcs hf, Expr.renderList_eq hlength ih]
  | error => rfl

theorem Instr.Related.render_eq {i i' : Instr} (h : i.Related R Eq i') (indent : Nat) :
    i'.render t' indent = i.render t indent := by
  cases h with
  | eval he => exact congrArg (line indent) (he.render_eq hR)
  | declare hx he =>
    rw [Instr.render, Instr.render, SymbolTable.variableType, SymbolTable.variableType,
      hR.variableName_eq hx, hR.vars hx, he.render_eq hR]
  | label hl =>
    subst hl
    rfl
  | jump hl =>
    subst hl
    rfl
  | branch hl hc on =>
    rw [Instr.render, Instr.render, hl, hc.render_eq hR]
  | retNone => rfl
  | ret he =>
    rw [Instr.render, Instr.render, he.render_eq hR]

theorem Code.Related.render_eq {code code' : Code} (h : Code.Related R Eq code code') (indent : Nat) :
    Code.render t' indent code' = Code.render t indent code := by
  exact congrArg String.join (map_eq_of_forall₂ h fun _ _ hi => hi.render_eq hR indent)

theorem Stmt.Related.render_eq {s s' : Stmt} (h : s.Related R Eq s') (indent : Nat) :
    s'.render t' indent = s.render t indent := by
  induction s generalizing s' indent with
  | instr i =>
    cases h with
    | instr hi => exact hi.render_eq hR indent
  | block ss ih =>
    obtain ⟨ss', rfl, hss⟩ := h.of_block
    rw [Stmt.render, Stmt.render, Stmt.renderList_eq hss fun s hs s' h => ih s hs h]
  | ifThen c s ih =>
    cases h with
    | ifThen hc hs => rw [Stmt.render, Stmt.render, hc.render_eq hR, ih hs]
  | ifElse c s t ihs iht =>
    cases h with
    | ifElse hc hs ht => rw [Stmt.render, Stmt.render, hc.render_eq hR, ihs hs, iht ht]
  | whileLoop c s x y ih =>
    cases h with
    | whileLoop hc hs => rw [Stmt.render, Stmt.render, hc.render_eq hR, ih hs]
  | doWhile s c x y ih =>
    cases h with
    | doWhile hs hc => rw [Stmt.render, Stmt.render, hc.render_eq hR, ih hs]
  | forLoop i c n s x y ihi ihs =>
    cases h with
    | forLoop hi hc hn hs =>
      rw [Stmt.render, Stmt.render, ihi hi, hc.render_eq hR, hn.render_eq hR, ihs hs]

theorem Block.Related.toDot_eq {b b' : Block} (h : b.Related R b') : b'.toDot t' = b.toDot t := by
  have hrender : b'.render t' = b.render t := by
    unfold Block.render
    rw [h.kind, h.code.render_eq hR]
  unfold Block.toDot
  rw [h.id, hrender]

theorem Edge.Related.toDot_eq {e e' : Edge} (h : e.Related R e') : e'.toDot t' = e.toDot t := by
  have hrender : e'.render t' = e.render t := by
    unfold Edge.render
    generalize e.condition? = c?, e'.condition? = c?', h.condition = hc
    cases hc with
    | none => rfl
    | some hc => exact hc.render_eq hR
  unfold Edge.toDot
  rw [h.source, h.target, hrender]

theorem FlowGraph.Related.toDot_eq {g g' : FlowGraph} (h : g.Related R g') : g'.toDot t' = g.toDot t := by
  have hblocks : g'.blocks.map (Block.toDot t') = g.blocks.map (Block.toDot t) :=
    map_eq_of_forall₂ h.blocks fun _ _ hb => hb.toDot_eq hR
  have hedges : g'.edges.map (Edge.toDot t') = g.edges.map (Edge.toDot t) :=
    map_eq_of_forall₂ h.edges fun _ _ he => he.toDot_eq hR
  unfold FlowGraph.toDot
  rw [hblocks, hedges]

end Render

end Scripting.Typed
