import Scripting.Proofs.Check.Lockstep
import Scripting.Proofs.Check.Submission
import Scripting.Proofs.Graph.Correspondence
import Scripting.Proofs.Symbol.Renumbering

/-!
# Checking with other numbers

Two sessions hold the same symbols under different handles. A script that is checked in both gets the same
diagnostics, and the same trees and code but for the handles, and the sessions still hold the same symbols
afterwards. Handles are compared together with the types that the trees carry for them, so for two equal
sessions this says that all handles in the code of a script are those of symbols with these types.
-/

namespace Scripting

open Checking (Simulation)

variable {ρ : Renumbering} {t t' T : SymbolTable}

/-- Handles correspond if they have the new numbers and belong to symbols of the given type. -/
def Renumbering.handles (ρ : Renumbering) (T : SymbolTable) : Typed.Correspondence where
  vars x x' τ := x' = ρ.vars x ∧ ∃ v, T.variableAt? x' = some v ∧ v.type = τ
  funcs f f' τ := f' = ρ.funcs f ∧ ∃ a, T.functionAt? f' = some a ∧ a.returns = τ

theorem Renumbering.handles_mono (h : T.Extends t) : (ρ.handles T).Le (ρ.handles t) where
  vars := by
    rintro x x' τ ⟨hx, v, hv, hτ⟩
    exact ⟨hx, v, h.vars _ _ hv, hτ⟩
  funcs := by
    rintro f f' τ ⟨hf, a, ha, hτ⟩
    exact ⟨hf, a, h.funcs _ _ ha, hτ⟩

/-- The states differ by the numbers of symbols only, and the names in scope resolve. -/
structure Renumbering.Matches (ρ : Renumbering) (c c' : Checker) : Prop where
  tables : ρ.Tables c.symbols c'.symbols
  coherent : c.symbols.Coherent
  scope : c'.scope = c.scope.renumber ρ
  resolves : c.scope.Resolves c.symbols
  function : c'.function? = c.function?.map ρ.funcs
  options : c'.options = c.options
  loops : c'.loops = c.loops
  loopCount : c'.loopCount = c.loopCount
  depth : c'.depth = c.depth
  depthReported : c'.depthReported = c.depthReported
  diagnostics : c'.diagnostics = c.diagnostics

namespace Renumbering.Matches

variable {c c' : Checker}

theorem report (h : ρ.Matches c c') (span : Span) (problem : Problem) :
    ρ.Matches (Checking.report span problem c).2 (Checking.report span problem c').2 :=
  { h with diagnostics := congrArg (· ++ [_]) h.diagnostics }

theorem enter (h : ρ.Matches c c') (span : Span) :
    ρ.Matches (Checking.enter span c).2 (Checking.enter span c').2 ∧
      (Checking.enter span c).1 = (Checking.enter span c').1 := by
  by_cases hlimit : c.depth < c.options.maxDepth
  · have hlimit' : c'.depth < c'.options.maxDepth := by rwa [h.depth, h.options]
    rw [Checking.enter_of_lt hlimit, Checking.enter_of_lt hlimit']
    exact ⟨{ h with depth := congrArg (· + 1) h.depth }, rfl⟩
  · have hlimit' : ¬ c'.depth < c'.options.maxDepth := by rwa [h.depth, h.options]
    have hmax : c'.options.maxDepth = c.options.maxDepth := congrArg _ h.options
    rw [Checking.enter_of_not_lt hlimit, Checking.enter_of_not_lt hlimit', h.depthReported, hmax]
    refine ⟨?_, rfl⟩
    cases c.depthReported with
    | true => exact h
    | false =>
      have hreported : ρ.Matches { c with depthReported := true } { c' with depthReported := true } :=
        { h with depthReported := rfl }
      exact hreported.report span _

theorem findVariable (h : ρ.Matches c c') (hT : c'.symbols.Extends T) (name : String) :
    Option.Rel (fun x x' => (ρ.handles T).vars x x' (c.symbols.variableType x) ∧
        c'.symbols.variableAt? x' = c.symbols.variableAt? x)
      (c.scope.findVariable? name) (c'.scope.findVariable? name) := by
  rw [h.scope, Scope.findVariable?_renumber]
  cases hx : c.scope.findVariable? name with
  | none => exact .none
  | some x =>
    obtain ⟨v, hv⟩ := h.resolves.exists_variable hx
    refine .some ⟨⟨rfl, v, hT.vars _ _ ((h.tables.vars x).trans hv), ?_⟩, h.tables.vars x⟩
    unfold SymbolTable.variableType
    rw [hv]
    rfl

theorem findFunction (h : ρ.Matches c c') (hT : c'.symbols.Extends T) (name : String)
    (types : List Ty) :
    Option.Rel (fun f f' => (ρ.handles T).funcs f f' (c.symbols.returnType f) ∧
        c'.symbols.returnType f' = c.symbols.returnType f)
      (c.scope.findFunction? name types) (c'.scope.findFunction? name types) := by
  rw [h.scope, Scope.findFunction?_renumber]
  cases hf : c.scope.findFunction? name types with
  | none => exact .none
  | some f =>
    obtain ⟨a, ha⟩ := h.resolves.exists_function hf
    have ha' : c'.symbols.functionAt? (ρ.funcs f) = some (a.renumber ρ) := by rw [h.tables.funcs, ha]; rfl
    refine .some ⟨⟨rfl, a.renumber ρ, hT.funcs _ _ ha', ?_⟩, h.tables.returnType_eq f⟩
    unfold SymbolTable.returnType
    rw [ha]
    rfl

theorem declareVariable (h : ρ.Matches c c') (name : String) (span : Span) (readOnly : Bool) (type : Ty) :
    ρ.Matches (Checking.declareVariable name span readOnly type c).2
        (Checking.declareVariable name span readOnly type c').2 ∧
      ((Checking.declareVariable name span readOnly type c').2.symbols.Extends T →
        (ρ.handles T).vars (Checking.declareVariable name span readOnly type c).1
          (Checking.declareVariable name span readOnly type c').1 type) := by
  have hdeclared : c'.declared name type readOnly = c.declared name type readOnly := by
    unfold Checker.declared
    rw [h.function, Option.isNone_map]
  have hscope : c'.scope.declareVariable? name (c'.symbols.addVariable (c.declared name type readOnly)).1 =
      (c.scope.declareVariable? name (c.symbols.addVariable (c.declared name type readOnly)).1).map
        (·.renumber ρ) := by
    rw [h.scope, h.tables.newVar, Scope.declareVariable?_renumber]
  have hext := c.symbols.extends_addVariable (c.declared name type readOnly)
  have hnew := c.symbols.variableAt?_addVariable (c.declared name type readOnly)
  have hhandles : (c'.symbols.addVariable (c.declared name type readOnly)).2.Extends T →
      (ρ.handles T).vars (c.symbols.addVariable (c.declared name type readOnly)).1
        (c'.symbols.addVariable (c.declared name type readOnly)).1 type := fun hT =>
    ⟨h.tables.newVar _, _, hT.vars _ _ (c'.symbols.variableAt?_addVariable _), rfl⟩
  have hadded : ρ.Matches
      { c with symbols := (c.symbols.addVariable (c.declared name type readOnly)).2 }
      { c' with symbols := (c'.symbols.addVariable (c.declared name type readOnly)).2 } :=
    { h with
      tables := h.tables.addVariable _
      coherent := h.coherent.addVariable _
      resolves := h.resolves.mono hext }
  cases hdeclare : c.scope.declareVariable? name
      (c.symbols.addVariable (c.declared name type readOnly)).1 with
  | some s =>
    rw [hdeclare, ← hdeclared] at hscope
    rw [Checking.declareVariable_of_some hdeclare, Checking.declareVariable_of_some hscope, hdeclared]
    refine ⟨{ hadded with scope := rfl, resolves := ?_ }, hhandles⟩
    exact hadded.resolves.declareVariable? hdeclare hnew rfl
  | none =>
    rw [hdeclare, ← hdeclared] at hscope
    rw [Checking.declareVariable_of_none hdeclare, Checking.declareVariable_of_none hscope, hdeclared]
    exact ⟨hadded.report span _, hhandles⟩

end Renumbering.Matches

/-- The simulation of two checks whose states match, as long as the second has no symbols beyond `T`. -/
def Renumbering.simulation (ρ : Renumbering) (T : SymbolTable) : Simulation where
  Rel := ρ.Matches
  Lost c := ¬ c.symbols.Extends T
  lost_mono hgrows hlost hext := hlost (hgrows.symbols.trans hext)
  handles := ρ.handles T
  labels := Eq
  enter span _ _ h _ := h.enter span
  leave h := { h with depth := congrArg (· - 1) h.depth }
  report span problem _ _ h _ := ⟨h.report span problem, rfl⟩
  push h := { h with scope := congrArg Scope.push h.scope, resolves := h.resolves.push }
  restore h h₁ hext _ := { h₁ with scope := h.scope, resolves := h.resolves.mono hext }
  beginLoop h := by
    refine { h with loopCount := congrArg (· + 1) h.loopCount, loops := ?_ }
    unfold Checker.beginLoop
    dsimp only
    rw [h.loopCount, h.loops]
  endLoop h := { h with loops := congrArg List.tail h.loops }
  loops h := by
    rw [h.loops]
    exact List.forall₂_same.2 fun _ _ => ⟨rfl, rfl⟩
  findVariable h hlost := h.findVariable (not_not.1 hlost)
  findFunction h hlost := h.findFunction (not_not.1 hlost)
  inFunction h := by rw [h.function, Option.isSome_map]
  function {c c'} h := by
    rw [h.function, Option.bind_map]
    cases c.function? with
    | none => exact .none
    | some f =>
      show Option.Rel _ (c.symbols.functionAt? f) (c'.symbols.functionAt? (ρ.funcs f))
      rw [h.tables.funcs]
      cases c.symbols.functionAt? f with
      | none => exact .none
      | some a => exact .some ⟨rfl, rfl⟩
  implicit h := .inl (congrArg _ h.options)
  declareVariable name span readOnly type _ _ h hlost :=
    ⟨(h.declareVariable (T := T) name span readOnly type).1,
      (h.declareVariable name span readOnly type).2 (not_not.1 hlost)⟩

/-! ## Signatures -/

namespace Checking

theorem parameters_of_seen {seen : List String} {p : Surface.Parameter} (h : seen.contains p.name = true)
    (ps : List Surface.Parameter) (c : Checker) :
    parameters seen (p :: ps) c = parameters seen ps
      (report p.span (.parameterAlreadyDeclared p.name) (typeOf p.type c).2).2 := by
  show (if seen.contains p.name then _ else _ : Checking _) (typeOf p.type c).2 = _
  rw [if_pos h]
  rfl

def addParameter (name : String) (type : Ty) (c : Checker) : VarId × Checker :=
  let added := c.symbols.addVariable ⟨name, type, true, .parameter⟩
  (added.1, { c with symbols := added.2 })

theorem parameters_of_new {seen : List String} {p : Surface.Parameter} (h : ¬ seen.contains p.name = true)
    (ps : List Surface.Parameter) (c : Checker) :
    parameters seen (p :: ps) c =
      let added := addParameter p.name (typeOf p.type c).1 (typeOf p.type c).2
      (⟨p.name, (typeOf p.type c).1, added.1⟩ :: (parameters (p.name :: seen) ps added.2).1,
        (parameters (p.name :: seen) ps added.2).2) := by
  show (if seen.contains p.name then _ else _ : Checking _) (typeOf p.type c).2 = _
  rw [if_neg h]
  rfl

/-- The variables of the parameters are in the table, under their names. -/
theorem parameters_found (seen : List String) (ps : List Surface.Parameter) (c : Checker) :
    ∀ p ∈ (parameters seen ps c).1,
      ∃ v, (parameters seen ps c).2.symbols.variableAt? p.target = some v ∧ v.name = p.name := by
  induction ps generalizing seen c with
  | nil => exact List.forall_mem_nil _
  | cons p ps ih =>
    by_cases hseen : seen.contains p.name = true
    · rw [parameters_of_seen hseen]
      exact ih seen _
    · rw [parameters_of_new hseen]
      refine List.forall_mem_cons.2 ⟨⟨⟨p.name, (typeOf p.type c).1, true, .parameter⟩, ?_, rfl⟩, ih _ _⟩
      exact (steady_parameters (p.name :: seen) ps _).symbols.vars _ _
        (SymbolTable.variableAt?_addVariable _ _)

theorem symbolOf_apply (d : Declaration) (c : Checker) :
    symbolOf d c =
      let parameters := parameters [] d.head.parameters c
      let returns := returnType d.head.returns? parameters.2
      (⟨d.head.name.text, parameters.1, returns.1, some d, none⟩, returns.2) := rfl

end Checking

namespace Renumbering.Matches

variable {c c' : Checker}

theorem typeOf (h : ρ.Matches c c') (name : Surface.Name) :
    ρ.Matches (Checking.typeOf name c).2 (Checking.typeOf name c').2 ∧
      (Checking.typeOf name c).1 = (Checking.typeOf name c').1 :=
  Simulation.lockstep_typeOf (M := ρ.simulation (Checking.typeOf name c').2.symbols) name c c' h
    (not_not_intro (.refl _))

theorem returnType (h : ρ.Matches c c') (name? : Option Surface.Name) :
    ρ.Matches (Checking.returnType name? c).2 (Checking.returnType name? c').2 ∧
      (Checking.returnType name? c).1 = (Checking.returnType name? c').1 := by
  cases name? with
  | none => exact ⟨h, rfl⟩
  | some name =>
    unfold Checking.returnType
    by_cases hvoid : name.text = "void"
    · simp only [if_pos hvoid]
      exact ⟨h, rfl⟩
    · simp only [if_neg hvoid]
      exact h.typeOf name

theorem parameters (h : ρ.Matches c c') (seen : List String) (ps : List Surface.Parameter) :
    ρ.Matches (Checking.parameters seen ps c).2 (Checking.parameters seen ps c').2 ∧
      (Checking.parameters seen ps c').1 = (Checking.parameters seen ps c).1.map (·.renumber ρ) := by
  induction ps generalizing seen c c' with
  | nil => exact ⟨h, rfl⟩
  | cons p ps ih =>
    obtain ⟨htyped, heq⟩ := h.typeOf p.type
    by_cases hseen : seen.contains p.name = true
    · rw [Checking.parameters_of_seen hseen, Checking.parameters_of_seen hseen]
      exact ih (htyped.report _ _) seen
    · let v : VariableSymbol := ⟨p.name, (Checking.typeOf p.type c).1, true, .parameter⟩
      have hadded : ρ.Matches
          (Checking.addParameter p.name (Checking.typeOf p.type c).1 (Checking.typeOf p.type c).2).2
          (Checking.addParameter p.name (Checking.typeOf p.type c).1 (Checking.typeOf p.type c').2).2 :=
        { htyped with
          tables := htyped.tables.addVariable v
          coherent := htyped.coherent.addVariable v
          resolves := htyped.resolves.mono ((Checking.typeOf p.type c).2.symbols.extends_addVariable v) }
      obtain ⟨hrest, hparameters⟩ := ih hadded (p.name :: seen)
      rw [Checking.parameters_of_new hseen, Checking.parameters_of_new hseen, ← heq]
      refine ⟨hrest, ?_⟩
      dsimp only
      have htarget : (Checking.addParameter p.name v.type (Checking.typeOf p.type c').2).1 =
          ρ.vars (Checking.addParameter p.name v.type (Checking.typeOf p.type c).2).1 :=
        htyped.tables.newVar v
      rw [hparameters, htarget]
      rfl

theorem symbolOf (h : ρ.Matches c c') (d : Declaration) :
    ρ.Matches (Checking.symbolOf d c).2 (Checking.symbolOf d c').2 ∧
      (Checking.symbolOf d c').1 = (Checking.symbolOf d c).1.renumber ρ := by
  obtain ⟨hparameters, heq⟩ := h.parameters [] d.head.parameters
  obtain ⟨hreturns, heq'⟩ := hparameters.returnType d.head.returns?
  rw [Checking.symbolOf_apply, Checking.symbolOf_apply]
  dsimp only
  rw [heq, ← heq']
  exact ⟨hreturns, rfl⟩

theorem declareFunction (h : ρ.Matches c c') (span : Span) {a : FunctionSymbol} (hb : a.builtin? = none)
    (ha : ∀ p ∈ a.parameters, ∃ v, c.symbols.variableAt? p.target = some v ∧ v.name = p.name) :
    ρ.Matches (Checking.declareFunction span a c).2 (Checking.declareFunction span (a.renumber ρ) c').2 := by
  have hscope : c'.scope.declareFunction? (a.renumber ρ) (c'.symbols.addFunction (a.renumber ρ)).1 =
      (c.scope.declareFunction? a (c.symbols.addFunction a).1).map (·.renumber ρ) := by
    rw [h.scope, h.tables.newFunc, Scope.declareFunction?_renumber]
  have hadded : ρ.Matches { c with symbols := (c.symbols.addFunction a).2 }
      { c' with symbols := (c'.symbols.addFunction (a.renumber ρ)).2 } :=
    { h with
      tables := h.tables.addFunction hb
      coherent := h.coherent.addFunction ha
      resolves := h.resolves.mono (c.symbols.extends_addFunction hb) }
  cases hdeclare : c.scope.declareFunction? a (c.symbols.addFunction a).1 with
  | some s =>
    rw [hdeclare] at hscope
    rw [Checking.declareFunction_of_some hdeclare, Checking.declareFunction_of_some hscope]
    refine { hadded with scope := rfl, resolves := ?_ }
    exact hadded.resolves.declareFunction? hdeclare (c.symbols.functionAt?_addFunction a)
  | none =>
    rw [hdeclare] at hscope
    rw [Checking.declareFunction_of_none hdeclare, Checking.declareFunction_of_none hscope,
      FunctionSymbol.signature_renumber]
    exact hadded.report span _

theorem signature (h : ρ.Matches c c') (d : Declaration) :
    ρ.Matches (Checking.function d c).2 (Checking.function d c').2 := by
  obtain ⟨hsymbol, heq⟩ := h.symbolOf d
  show ρ.Matches (Checking.declareFunction _ (Checking.symbolOf d c).1 (Checking.symbolOf d c).2).2
    (Checking.declareFunction _ (Checking.symbolOf d c').1 (Checking.symbolOf d c').2).2
  rw [heq]
  refine hsymbol.declareFunction d.head.name.span rfl fun p hp => ?_
  obtain ⟨v, hv, hname⟩ := Checking.parameters_found [] d.head.parameters c p hp
  exact ⟨v, (Checking.steady_returnType d.head.returns? _).symbols.vars _ _ hv, hname⟩

theorem signatures (h : ρ.Matches c c') (ss : List Surface.Stmt) :
    ρ.Matches (Checking.signatures ss c).2 (Checking.signatures ss c').2 := by
  induction ss generalizing c c' with
  | nil => exact h
  | cons s ss ih =>
    cases s with
    | function head body => exact ih (h.signature ⟨head, body⟩)
    | _ => exact ih h

theorem start (ht : ρ.Tables t t') (hcoherent : t.Coherent) {parent : Scope} (hparent : parent.Resolves t)
    (options : Options) (function? : Option FuncId) :
    ρ.Matches (.start t options parent function?)
      (.start t' options (parent.renumber ρ) (function?.map ρ.funcs)) := by
  have hfunction : ((function?.map ρ.funcs).bind t'.functionAt?) =
      (function?.bind t.functionAt?).map (·.renumber ρ) := by
    cases function? with
    | none => rfl
    | some f => exact ht.funcs f
  have hscope : (Checker.start t' options (parent.renumber ρ) (function?.map ρ.funcs)).scope =
      (Checker.start t options parent function?).scope.renumber ρ := by
    unfold Checker.start
    rw [hfunction]
    cases function?.bind t.functionAt? with
    | none => rfl
    | some a => exact Scope.declareParameters_renumber a.parameters parent.push
  refine ⟨ht, hcoherent, hscope, ?_, rfl, rfl, rfl, rfl, rfl, rfl, rfl⟩
  unfold Checker.start
  cases hfound : function?.bind t.functionAt? with
  | none => exact hparent.push
  | some a =>
    obtain ⟨f, -, hf⟩ := Option.bind_eq_some_iff.1 hfound
    exact hparent.push.declareParameters (hcoherent f a hf)

end Renumbering.Matches

end Scripting
