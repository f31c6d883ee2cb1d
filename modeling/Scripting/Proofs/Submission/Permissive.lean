import Scripting.Proofs.Check.Lockstep
import Scripting.Proofs.Check.Renumbering
import Scripting.Proofs.Submission.Session

/-!
# More permissive options

Options decide whether an assignment may declare its target and how deep a script may be nested. If
nothing is reported about a script under some options, it is checked under more permissive ones as well:
with the same trees, the same code and the same symbols. The two checks run side by side. Their states
differ by their options only (`Checker.under`), until the stricter one reports something.
-/

namespace Scripting

open Typed (Correspondence)

variable {α β : Type} {strict lax : Options} {t : SymbolTable} {parent : Scope} {ss : List Surface.Stmt}

/-! ## Trees with the same handles and labels -/

namespace Typed

theorem Expr.Related.eq {e e' : Expr} (h : e.Related .same e') : e' = e := by
  induction h with
  | literal v => rfl
  | name hx => rw [hx]
  | assign hx _ ih => rw [hx, ih]
  | compound hx o _ ih => rw [hx, ih]
  | unary o _ ih => rw [ih]
  | binary o _ _ ihl ihr => rw [ihl, ihr]
  | convert t _ ih => rw [ih]
  | @call f f' t es es' hf hlength _ ih =>
    have hes : List.Forall₂ Eq es es' :=
      List.forall₂_iff_zip.2 ⟨hlength, fun {a b} hab => (ih (a, b) hab).symm⟩
    rw [List.forall₂_eq_eq_eq] at hes
    rw [hf, hes]
  | error => rfl

theorem Instr.Related.eq {i i' : Instr} (h : i.Related .same Eq i') : i' = i := by
  cases h with
  | eval he => rw [he.eq]
  | declare hx he => rw [hx, he.eq]
  | label hl => rw [hl]
  | jump hl => rw [hl]
  | branch hl hc on => rw [hl, hc.eq]
  | retNone => rfl
  | ret he => rw [he.eq]

theorem Stmt.Related.eq {s s' : Stmt} (h : s.Related .same Eq s') : s' = s := by
  induction h with
  | instr hi => rw [hi.eq]
  | nil => rfl
  | cons _ _ ihs ihss =>
    cases ihs
    cases ihss
    rfl
  | ifThen hc _ ih => rw [hc.eq, ih]
  | ifElse hc _ _ ihs iht => rw [hc.eq, ihs, iht]
  | whileLoop hc _ hx hy ih => rw [hc.eq, ih, hx, hy]
  | doWhile _ hc hx hy ih => rw [hc.eq, ih, hx, hy]
  | forLoop _ hc hn _ hx hy ihi ihs => rw [ihi, hc.eq, hn.eq, ihs, hx, hy]

end Typed

/-! ## States under other options -/

/-- The second options allow all that the first allow. -/
structure Options.AtMost (strict lax : Options) : Prop where
  implicit : strict.implicitDeclarations = true → lax.implicitDeclarations = true
  depth : strict.maxDepth ≤ lax.maxDepth

def Checker.under (c : Checker) (options : Options) : Checker := { c with options := options }

/-- The first state is the second under the permissive options. If the second has reached the limit of
nesting, that was reported. -/
structure Checker.Permits (strict lax : Options) (c c' : Checker) : Prop where
  eq : c = c'.under lax
  options : c'.options = strict
  depthReported : c'.depthReported = true → c'.diagnostics ≠ []

namespace Checker.Permits

variable {c c' : Checker}

theorem enter (h : Permits strict lax c c') (hle : strict.AtMost lax) (span : Span)
    (hclean : (Checking.enter span c').2.diagnostics = []) :
    Permits strict lax (Checking.enter span c).2 (Checking.enter span c').2 ∧
      (Checking.enter span c).1 = (Checking.enter span c').1 := by
  by_cases hlimit' : c'.depth < c'.options.maxDepth
  · have hlimit : c.depth < c.options.maxDepth := by
      have hdepth := hle.depth
      rw [h.options] at hlimit'
      rw [h.eq]
      exact Nat.lt_of_lt_of_le hlimit' hdepth
    rw [Checking.enter_of_lt hlimit, Checking.enter_of_lt hlimit']
    exact ⟨{ h with eq := by rw [h.eq]; rfl }, rfl⟩
  · rw [Checking.enter_of_not_lt hlimit'] at hclean
    dsimp only at hclean
    split at hclean
    next hreported => exact absurd hclean (h.depthReported hreported)
    next => exact absurd hclean (Checking.diagnostics_report _ _ _)

theorem declareVariable (h : Permits strict lax c c') (name : String) (span : Span) (readOnly : Bool)
    (type : Ty) (hclean : (Checking.declareVariable name span readOnly type c').2.diagnostics = []) :
    Permits strict lax (Checking.declareVariable name span readOnly type c).2
        (Checking.declareVariable name span readOnly type c').2 ∧
      (Checking.declareVariable name span readOnly type c').1 =
        (Checking.declareVariable name span readOnly type c).1 := by
  obtain ⟨rfl, hoptions, hreported⟩ := h
  cases hscope : c'.scope.declareVariable? name
      (c'.symbols.addVariable (c'.declared name type readOnly)).1 with
  | none =>
    rw [Checking.declareVariable_of_none hscope] at hclean
    exact absurd hclean (Checking.diagnostics_report _ _ _)
  | some scope =>
    rw [Checking.declareVariable_of_some hscope,
      Checking.declareVariable_of_some (c := c'.under lax) hscope]
    exact ⟨⟨rfl, hoptions, hreported⟩, rfl⟩

end Checker.Permits

/-- The simulation of the stricter check by the more permissive one. It is lost when something is
reported. -/
def Checking.permitting (hle : strict.AtMost lax) : Checking.Simulation where
  Rel := Checker.Permits strict lax
  Lost c := c.diagnostics ≠ []
  lost_mono := @Checker.Grows.reported
  handles := .same
  labels := Eq
  enter span _ _ h hlost := h.enter hle span (not_not.1 hlost)
  leave h := { h with eq := by rw [h.eq]; rfl }
  report span problem _ _ _ hlost := absurd (Checking.diagnostics_report span problem _) hlost
  push h := { h with eq := by rw [h.eq]; rfl }
  restore h h₁ _ _ := { h₁ with eq := by rw [h.eq, h₁.eq]; rfl }
  beginLoop h := { h with eq := by rw [h.eq]; rfl }
  endLoop h := { h with eq := by rw [h.eq]; rfl }
  loops h := by
    rw [h.eq]
    exact List.forall₂_same.2 fun _ _ => ⟨rfl, rfl⟩
  findVariable {c c'} h _ name := by
    rw [h.eq]
    show Option.Rel _ (c'.scope.findVariable? name) (c'.scope.findVariable? name)
    cases c'.scope.findVariable? name with
    | none => exact .none
    | some x => exact .some ⟨rfl, rfl⟩
  findFunction {c c'} h _ name types := by
    rw [h.eq]
    show Option.Rel _ (c'.scope.findFunction? name types) (c'.scope.findFunction? name types)
    cases c'.scope.findFunction? name types with
    | none => exact .none
    | some f => exact .some ⟨rfl, rfl⟩
  inFunction h := by rw [h.eq]; rfl
  function {c c'} h := by
    rw [h.eq]
    show Option.Rel _ (c'.function?.bind c'.symbols.functionAt?) _
    cases c'.function?.bind c'.symbols.functionAt? with
    | none => exact .none
    | some f => exact .some ⟨rfl, rfl⟩
  implicit {c c'} h := by
    have hlax : c.options = lax := by rw [h.eq]; rfl
    rw [h.options, hlax]
    cases himplicit : strict.implicitDeclarations with
    | true => exact .inl (hle.implicit himplicit).symm
    | false => exact .inr ⟨rfl, fun span problem => Checking.diagnostics_report span problem _⟩
  declareVariable name span readOnly type _ _ h hlost :=
    h.declareVariable name span readOnly type (not_not.1 hlost)

/-! ## Signatures -/

namespace Checking

/-- The step does the same under all options, and has nothing to do with nesting. -/
structure Blind (step : Checking α) : Prop where
  under : ∀ c options, step (c.under options) = ((step c).1, (step c).2.under options)
  depthReported : ∀ c, (step c).2.depthReported = c.depthReported

theorem blind_pure (a : α) : Blind (pure a) := ⟨fun _ _ => rfl, fun _ => rfl⟩

theorem blind_report (span : Span) (problem : Problem) : Blind (report span problem) :=
  ⟨fun _ _ => rfl, fun _ => rfl⟩

theorem Blind.bind {step : Checking α} {f : α → Checking β} (h : Blind step) (hf : ∀ a, Blind (f a)) :
    Blind (step >>= f) where
  under c options := by
    show f (step (c.under options)).1 (step (c.under options)).2 = _
    rw [h.under, (hf _).under]
    rfl
  depthReported c := ((hf _).depthReported _).trans (h.depthReported c)

theorem blind_typeOf (name : Surface.Name) : Blind (typeOf name) := by
  unfold typeOf
  split
  · exact blind_pure _
  · exact (blind_report _ _).bind fun _ => blind_pure _

theorem blind_addParameter (name : String) (type : Ty) : Blind (addParameter name type) :=
  ⟨fun _ _ => rfl, fun _ => rfl⟩

theorem blind_parameters (seen : List String) (ps : List Surface.Parameter) :
    Blind (parameters seen ps) := by
  induction ps generalizing seen with
  | nil => exact blind_pure _
  | cons p ps ih =>
    unfold parameters
    refine (blind_typeOf p.type).bind fun type => ?_
    split
    · exact (blind_report _ _).bind fun _ => ih seen
    · show Blind (addParameter p.name type >>= fun target => do
        return ⟨p.name, type, target⟩ :: (← parameters (p.name :: seen) ps))
      exact (blind_addParameter p.name type).bind fun _ =>
        (ih (p.name :: seen)).bind fun _ => blind_pure _

theorem blind_returnType (name? : Option Surface.Name) : Blind (returnType name?) := by
  cases name? with
  | none => exact blind_pure _
  | some name =>
    show Blind (if name.text = "void" then return .void else typeOf name)
    split
    · exact blind_pure _
    · exact blind_typeOf name

theorem blind_declareFunction (span : Span) (a : FunctionSymbol) : Blind (declareFunction span a) where
  under c options := by
    refine Prod.ext rfl ?_
    cases h : c.scope.declareFunction? a (c.symbols.addFunction a).1 with
    | some scope =>
      rw [declareFunction_of_some h, declareFunction_of_some (c := c.under options) h]
      rfl
    | none =>
      rw [declareFunction_of_none h, declareFunction_of_none (c := c.under options) h]
      rfl
  depthReported c := by
    rcases declareFunction_cases span a c with ⟨scope, -, hstate⟩ | ⟨problem, hstate⟩
    · rw [hstate]
    · rw [hstate]
      rfl

theorem blind_function (d : Declaration) : Blind (function d) := by
  refine Blind.bind ?_ fun a => blind_declareFunction _ a
  refine (blind_parameters [] d.head.parameters).bind fun _ => ?_
  exact (blind_returnType d.head.returns?).bind fun _ => blind_pure _

theorem blind_signatures (ss : List Surface.Stmt) : Blind (signatures ss) := by
  induction ss with
  | nil => exact blind_pure _
  | cons s ss ih =>
    cases s with
    | function h body => exact (blind_function ⟨h, body⟩).bind fun _ => ih
    | _ => exact ih

end Checking

/-! ## Scripts -/

theorem Checker.Permits.start (t : SymbolTable) (parent : Scope) (function? : Option FuncId) :
    Permits strict lax (.start t lax parent function?) (.start t strict parent function?) :=
  ⟨rfl, rfl, nofun⟩

theorem Checker.Permits.signatures {c c' : Checker} (h : Permits strict lax c c')
    (hreported : c'.depthReported = false) (ss : List Surface.Stmt) :
    Permits strict lax (Checking.signatures ss c).2 (Checking.signatures ss c').2 := by
  have hblind := Checking.blind_signatures ss
  have hsame : (Checking.signatures ss c').2 = (Checking.signatures ss c').2.under c'.options :=
    congrArg Prod.snd (hblind.under c' c'.options)
  refine ⟨?_, ?_, fun hr => ?_⟩
  · rw [h.eq, hblind.under]
  · rw [hsame]
    exact h.options
  · rw [hblind.depthReported, hreported] at hr
    cases hr

theorem checkGlobals_permissive (hle : strict.AtMost lax)
    (hclean : (checkGlobals strict t parent ss).1.diagnostics = []) :
    checkGlobals lax t parent ss = checkGlobals strict t parent ss := by
  have hstart : Checker.Permits strict lax (.start t lax parent none) (.start t strict parent none) :=
    .start t parent none
  obtain ⟨hend, hstatements⟩ := (Checking.permitting hle).lockstep_stmts
    (ss.filter fun s => !s.isFunction) _ _ (hstart.signatures rfl ss) (not_not_intro hclean)
  have hcode : Checking.globalCode ss (.start t lax parent none) =
      ((Checking.globalCode ss (.start t strict parent none)).1,
        (Checking.globalCode ss (.start t strict parent none)).2.under lax) :=
    Prod.ext (Typed.Stmt.block.inj hstatements.eq).symm hend.eq
  unfold checkGlobals
  rw [hcode]
  rfl

theorem checkBody_permissive (hle : strict.AtMost lax) {f : FuncId} {returns : Ty} {d : Declaration}
    (hclean : (checkBody strict t parent f returns d).2.1 = []) :
    checkBody lax t parent f returns d = checkBody strict t parent f returns d := by
  have hstart : Checker.Permits strict lax (.start t lax parent (some f)) (.start t strict parent (some f)) :=
    .start t parent (some f)
  obtain ⟨hend, hblock⟩ := (Checking.permitting hle).lockstep_block d.body _ _ hstart
    (not_not_intro (List.append_eq_nil_iff.1 hclean).1)
  have hbody : Checking.block d.body (.start t lax parent (some f)) =
      ((Checking.block d.body (.start t strict parent (some f))).1,
        (Checking.block d.body (.start t strict parent (some f))).2.under lax) :=
    Prod.ext hblock.eq.symm hend.eq
  unfold checkBody
  rw [hbody]
  rfl

theorem checkBodies_permissive (hle : strict.AtMost lax) {fs : List FuncId}
    (hclean : (checkBodies strict parent t fs).2.1 = []) :
    checkBodies lax parent t fs = checkBodies strict parent t fs := by
  induction fs generalizing t with
  | nil => rfl
  | cons f fs ih =>
    unfold checkBodies at hclean ⊢
    split
    next hnone =>
      rw [hnone] at hclean
      exact ih hclean
    next returns d hsome =>
      rw [hsome] at hclean
      obtain ⟨hbody, hrest⟩ := List.append_eq_nil_iff.1 hclean
      rw [checkBody_permissive hle hbody]
      dsimp only
      rw [ih hrest]

theorem ofScript_permissive (hle : strict.AtMost lax) {l : Lineage} {syntaxErrors : List Diagnostic}
    (hclean : (Submission.ofScript strict t l syntaxErrors ss).1.diagnostics = []) :
    Submission.ofScript lax t l syntaxErrors ss = Submission.ofScript strict t l syntaxErrors ss := by
  obtain ⟨hglobals, hbodies⟩ := List.append_eq_nil_iff.1 hclean
  have hsame := checkGlobals_permissive hle (List.append_eq_nil_iff.1 hglobals).2
  unfold Submission.ofScript at hbodies ⊢
  rw [hsame]
  generalize checkGlobals strict t (l.scope t) ss = g at hbodies ⊢
  dsimp only
  rw [checkBodies_permissive hle hbodies]

/-- **Options only reject.** If nothing is reported about a script under some options, then under options
that allow more nothing is reported either, and it becomes the same submission with the same symbols. -/
theorem options_only_reject (hle : strict.AtMost lax) (t : SymbolTable) (l : Lineage)
    (source file : String) (hclean : (compile strict t l source file).1.diagnostics = []) :
    (compile lax t l source file).1.diagnostics = [] ∧
      compile lax t l source file = compile strict t l source file := by
  have heq : compile lax t l source file = compile strict t l source file := by
    unfold compile at hclean ⊢
    cases hscript : Surface.Script.ofSource source file with
    | ok script =>
      rw [hscript] at hclean
      exact ofScript_permissive hle hclean
    | error e =>
      rw [hscript] at hclean
      exact ofScript_permissive hle hclean
  exact ⟨heq ▸ hclean, heq⟩

namespace Session

/-- Calls a function in a loop, six levels deep, and declares all of its variables. -/
def averaging (options : Options) : Submission × SymbolTable :=
  compile options halved.symbols [halving.1]
    "fn step(n: int) -> int \x7b return n + half(total); \x7d var sum = 0; while sum < 9 \x7b sum = step(sum); \x7d"
    "averaging"

end Session

/-- What six levels and no implicit declarations allow is the same submission with nine levels and with
such declarations. -/
theorem averaging_is_permitted :
    let strict : Options := ⟨false, 6⟩
    let lax : Options := ⟨true, 9⟩
    (strict.AtMost lax ∧ (Session.averaging strict).1.diagnostics = []) ∧
      (Session.averaging lax).1.diagnostics = [] ∧ Session.averaging lax = Session.averaging strict := by
  intro strict lax
  have hle : strict.AtMost lax := ⟨nofun, by decide⟩
  have hclean : (Session.averaging strict).1.diagnostics = [] := List.isEmpty_iff.1 (by decide +kernel)
  exact ⟨⟨hle, hclean⟩, options_only_reject hle _ _ _ _ hclean⟩

end Scripting
