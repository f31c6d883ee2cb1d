import Scripting.Proofs.Check.Lockstep
import Scripting.Proofs.Run.Correspondence

/-!
# Checking on or anew

Statements are checked in two ways: right behind others, in the layer of scope that holds what those
declared, or anew, in a layer on top of it. As long as the first way reports nothing, the second stays in
step with it. Names stand for the same symbols, the same symbols are added, and the trees are the same but
for labels: loops are numbered on, or from one again.
-/

namespace Scripting

open Typed (Label Correspondence)

/-! ## Labels with greater numbers -/

/-- The second label has a number that is greater: by `m` for labels of loops, by `d` for those that are
made while lowering. -/
def Typed.Label.Shifted (m d : Nat) (l l' : Label) : Prop :=
  ∃ word ∈ words, ∃ n, l = .numbered word n ∧
    l' = .numbered word (n + if word = "Label" then d else m)

theorem Typed.Label.shifted_loop {word : String} (hw : word ∈ words) (hloop : word ≠ "Label")
    (m d n : Nat) : (Label.numbered word n).Shifted m d (.numbered word (n + m)) :=
  ⟨word, hw, n, rfl, by rw [if_neg hloop]⟩

theorem Typed.Label.shifted_label (m d n : Nat) :
    (Label.numbered "Label" n).Shifted m d (.numbered "Label" (n + d)) :=
  ⟨"Label", by decide, n, rfl, by rw [if_pos rfl]⟩

theorem Typed.Label.paired_shifted (m d : Nat) : Label.Paired (Label.Shifted m d) := by
  rintro l l' k k' ⟨word, hw, n, rfl, rfl⟩ ⟨word', hw', n', rfl, rfl⟩
  constructor
  · intro h
    obtain ⟨rfl, rfl⟩ := numbered_inj hw hw' h
    rfl
  · intro h
    obtain ⟨rfl, hn⟩ := numbered_inj hw hw' h
    rw [Nat.add_right_cancel hn]

/-! ## Merged layers -/

theorem Layer.findFunction?_of_nil {l : Layer} (h : l.funcs = []) (name : String) (types : List Ty) :
    l.findFunction? name types = none := by
  unfold Layer.findFunction? Layer.overloads
  rw [h]
  rfl

/-- The first scope has two layers where the second has one with the variables of both: those of `front`,
then those of the layer on top of it, under other names. Neither layer has functions. -/
inductive Scope.Merges (front : Layer) (rest : List Layer) : Scope → Scope → Prop
  | here {back : Layer} (hfront : front.funcs = []) (hback : back.funcs = [])
    (hnames : ∀ d ∈ back.vars, front.findVariable? d.1 = none) :
    Merges front rest ⟨back, front :: rest⟩ ⟨⟨front.vars ++ back.vars, []⟩, rest⟩
  | inside (l : Layer) {s s' : Scope} (h : Merges front rest s s') :
    Merges front rest ⟨l, s.layers⟩ ⟨l, s'.layers⟩

namespace Scope.Merges

variable {front : Layer} {rest : List Layer} {s s' : Scope}

/-- Names stand for the same variables. -/
theorem findVariable?_eq (h : Merges front rest s s') (name : String) :
    s'.findVariable? name = s.findVariable? name := by
  induction h with
  | @here back _ _ hnames =>
    have hmerged : Layer.findVariable? ⟨front.vars ++ back.vars, []⟩ name =
        (front.findVariable? name).or (back.findVariable? name) := List.lookup_append
    unfold Scope.findVariable? Scope.layers
    rw [List.findSome?_cons, List.findSome?_cons, List.findSome?_cons, hmerged]
    cases hback : back.findVariable? name with
    | none => cases front.findVariable? name <;> rfl
    | some x => rw [hnames _ (mem_of_lookup hback)]; rfl
  | @inside l s s' _ ih =>
    have hlayers : s'.layers.findSome? (·.findVariable? name) =
        s.layers.findSome? (·.findVariable? name) := ih
    show (l :: s'.layers).findSome? _ = (l :: s.layers).findSome? _
    rw [List.findSome?_cons, List.findSome?_cons, hlayers]

/-- Names stand for the same functions. -/
theorem findFunction?_eq (h : Merges front rest s s') (name : String) (types : List Ty) :
    s'.findFunction? name types = s.findFunction? name types := by
  induction h with
  | @here back hfront hback _ =>
    unfold Scope.findFunction? Scope.layers
    rw [List.findSome?_cons, List.findSome?_cons, List.findSome?_cons,
      Layer.findFunction?_of_nil hfront, Layer.findFunction?_of_nil hback, Layer.findFunction?_of_nil rfl]
  | @inside l s s' _ ih =>
    have hlayers : s'.layers.findSome? (·.findFunction? name types) =
        s.layers.findSome? (·.findFunction? name types) := ih
    show (l :: s'.layers).findSome? _ = (l :: s.layers).findSome? _
    rw [List.findSome?_cons, List.findSome?_cons, hlayers]

/-- What the merged layer has room for, the layer on top has. -/
theorem declareVariable? (h : Merges front rest s s') {name : String} {x : VarId} {s₁' : Scope}
    (hs' : s'.declareVariable? name x = some s₁') :
    ∃ s₁, s.declareVariable? name x = some s₁ ∧ Merges front rest s₁ s₁' := by
  obtain ⟨hnone, rfl⟩ := Scope.declareVariable?_eq_some hs'
  cases h with
  | @here back hfront hback hnames =>
    have hmerged : (front.findVariable? name).or (back.findVariable? name) = none :=
      List.lookup_append.symm.trans hnone
    obtain ⟨hnew, hnew'⟩ := Option.or_eq_none_iff.1 hmerged
    refine ⟨_, Scope.declareVariable?_of_none hnew' x, ?_⟩
    dsimp only
    rw [List.append_assoc]
    refine .here hfront hback fun d hd => ?_
    rcases List.mem_append.1 hd with hd | hd
    · exact hnames d hd
    · obtain rfl := List.mem_singleton.1 hd
      exact hnew
  | @inside l s s' h =>
    have hnew : Layer.findVariable? (Scope.mk l s.layers).inner name = none := hnone
    exact ⟨_, Scope.declareVariable?_of_none hnew x, .inside _ h⟩

end Scope.Merges

/-! ## Checks in step -/

/-- The states of the two checks: the first has begun anew, the second goes on in the layer `front`, where
`m` loops were begun before. -/
structure Checker.Merges (m d : Nat) (front : Layer) (rest : List Layer) (c c' : Checker) : Prop where
  symbols : c'.symbols = c.symbols
  options : c'.options = c.options
  scope : c.scope.Merges front rest c'.scope
  global : c.function? = none
  global' : c'.function? = none
  loops : List.Forall₂ (fun l l' => l.1.Shifted m d l'.1 ∧ l.2.Shifted m d l'.2) c.loops c'.loops
  loopCount : c'.loopCount = c.loopCount + m
  depth : c'.depth = c.depth
  depthReported : c'.depthReported = true → c'.diagnostics ≠ []
  diagnostics : c'.diagnostics = [] → c.diagnostics = []

namespace Checker.Merges

variable {m d : Nat} {front : Layer} {rest : List Layer} {c c' : Checker}

/-- Beginning anew on top of what is in scope. -/
theorem anew (hfuncs : c.scope.inner.funcs = []) (hfunction : c.function? = none) (hloops : c.loops = [])
    (hdepth : c.depth = 0) (hreported : c.depthReported = true → c.diagnostics ≠ []) (d : Nat) :
    Merges c.loopCount d c.scope.inner c.scope.outer (.start c.symbols c.options c.scope none) c where
  symbols := rfl
  options := rfl
  scope := by
    have hmerges : Scope.Merges c.scope.inner c.scope.outer ⟨.empty, c.scope.inner :: c.scope.outer⟩
        ⟨⟨c.scope.inner.vars ++ [], []⟩, c.scope.outer⟩ := .here hfuncs rfl nofun
    rwa [List.append_nil, ← hfuncs] at hmerges
  global := rfl
  global' := hfunction
  loops := hloops ▸ .nil
  loopCount := (Nat.zero_add _).symm
  depth := hdepth
  depthReported := hreported
  diagnostics _ := rfl

theorem enter (h : Merges m d front rest c c') (span : Span)
    (hclean : (Checking.enter span c').2.diagnostics = []) :
    Merges m d front rest (Checking.enter span c).2 (Checking.enter span c').2 ∧
      (Checking.enter span c).1 = (Checking.enter span c').1 := by
  by_cases hlimit : c.depth < c.options.maxDepth
  · have hlimit' : c'.depth < c'.options.maxDepth := by rwa [h.depth, h.options]
    rw [Checking.enter_of_lt hlimit, Checking.enter_of_lt hlimit']
    exact ⟨{ h with depth := congrArg (· + 1) h.depth }, rfl⟩
  · -- at the limit something was reported, now or before
    have hlimit' : ¬ c'.depth < c'.options.maxDepth := by rwa [h.depth, h.options]
    rw [Checking.enter_of_not_lt hlimit'] at hclean
    dsimp only at hclean
    split at hclean
    next hreported => exact absurd hclean (h.depthReported hreported)
    next => exact absurd hclean (Checking.diagnostics_report _ _ _)

theorem beginLoop (h : Merges m d front rest c c') : Merges m d front rest c.beginLoop c'.beginLoop := by
  have hcount : c'.loopCount + 1 = c.loopCount + 1 + m := by rw [h.loopCount]; omega
  refine { h with loopCount := hcount, loops := .cons ?_ h.loops }
  dsimp only
  rw [hcount]
  exact ⟨Label.shifted_loop (by decide) (by decide) m d _, Label.shifted_loop (by decide) (by decide) m d _⟩

theorem tail_loops (h : Merges m d front rest c c') :
    List.Forall₂ (fun l l' => l.1.Shifted m d l'.1 ∧ l.2.Shifted m d l'.2) c.loops.tail c'.loops.tail := by
  generalize c.loops = loops, c'.loops = loops', h.loops = hloops
  cases hloops with
  | nil => exact .nil
  | cons _ hrest => exact hrest

theorem declareVariable (h : Merges m d front rest c c') (name : String) (span : Span) (readOnly : Bool)
    (type : Ty) (hclean : (Checking.declareVariable name span readOnly type c').2.diagnostics = []) :
    Merges m d front rest (Checking.declareVariable name span readOnly type c).2
        (Checking.declareVariable name span readOnly type c').2 ∧
      (Checking.declareVariable name span readOnly type c').1 =
        (Checking.declareVariable name span readOnly type c).1 := by
  have hdeclared : c'.declared name type readOnly = c.declared name type readOnly := by
    unfold Checker.declared
    rw [h.global, h.global']
  cases hscope' : c'.scope.declareVariable? name
      (c'.symbols.addVariable (c'.declared name type readOnly)).1 with
  | none =>
    rw [Checking.declareVariable_of_none hscope'] at hclean
    exact absurd hclean (Checking.diagnostics_report _ _ _)
  | some s₁' =>
    obtain ⟨s₁, hscope, hmerges⟩ := h.scope.declareVariable? hscope'
    rw [hdeclared, h.symbols] at hscope
    rw [Checking.declareVariable_of_some hscope', Checking.declareVariable_of_some hscope, hdeclared,
      h.symbols]
    exact ⟨{ h with symbols := rfl, scope := hmerges }, rfl⟩

end Checker.Merges

/-- The simulation of the check that goes on by the one that begins anew. It is lost when something is
reported. -/
def Checking.merging (m d : Nat) (front : Layer) (rest : List Layer) : Checking.Simulation where
  Rel := Checker.Merges m d front rest
  Lost c := c.diagnostics ≠ []
  lost_mono := @Checker.Grows.reported
  handles := .same
  labels := Label.Shifted m d
  enter span _ _ h hlost := h.enter span (not_not.1 hlost)
  leave h := { h with depth := congrArg (· - 1) h.depth }
  report span problem _ _ _ hlost := absurd (Checking.diagnostics_report span problem _) hlost
  push h := { h with scope := .inside .empty h.scope }
  restore h h₁ _ _ := { h₁ with scope := h.scope }
  beginLoop h := h.beginLoop
  endLoop h := { h with loops := h.tail_loops }
  loops h := h.loops
  findVariable {c c'} h _ name := by
    rw [h.scope.findVariable?_eq, h.symbols]
    cases c.scope.findVariable? name with
    | none => exact .none
    | some x => exact .some ⟨rfl, rfl⟩
  findFunction {c c'} h _ name types := by
    rw [h.scope.findFunction?_eq, h.symbols]
    cases c.scope.findFunction? name types with
    | none => exact .none
    | some f => exact .some ⟨rfl, rfl⟩
  inFunction h := by rw [h.global, h.global']
  function h := by
    rw [h.global, h.global']
    exact .none
  implicit h := .inl (congrArg _ h.options)
  declareVariable name span readOnly type _ _ h hlost :=
    h.declareVariable name span readOnly type (not_not.1 hlost)

theorem Checking.stmts_append (a b : List Surface.Stmt) (c : Checker) :
    stmts (a ++ b) c = ((stmts a c).1 ++ (stmts b (stmts a c).2).1, (stmts b (stmts a c).2).2) := by
  induction a generalizing c with
  | nil =>
    unfold stmts
    rfl
  | cons s a ih =>
    have hcons : ∀ ss, stmts (s :: ss) c =
        ((stmt s c).1 :: (stmts ss (stmt s c).2).1, (stmts ss (stmt s c).2).2) := by
      intro ss
      rw [stmts]
      rfl
    rw [List.cons_append, hcons, hcons, ih]
    rfl

end Scripting
