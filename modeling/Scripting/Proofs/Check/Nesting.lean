import Scripting.Proofs.Check.Context
import Scripting.Proofs.Check.Submission

/-!
# Nesting that is too deep

The check of a body goes down to statements and expressions as many levels as the body is high, unless it
comes to the limit, which it reports once. `Checking.Descends n` says this of a step that goes `n` levels
down, and it is put together from the elementary steps. Global code and each body of a function are checked
from a fresh state, so the limit is reported once for each of them that is too high.
-/

namespace Scripting

variable {α : Type} {n k : Nat}

def nestingReports (ds : List Diagnostic) : Nat := ds.countP (·.problem.isNesting)

theorem nestingReports_append (ds ds' : List Diagnostic) :
    nestingReports (ds ++ ds') = nestingReports ds + nestingReports ds' :=
  List.countP_append

namespace Checker

/-- Between the states the check went `n` levels down and came back. It reported nesting too deep if that
was beyond the limit and had not been reported before. -/
structure Descends (n : Nat) (c c' : Checker) : Prop where
  options : c'.options = c.options
  depth : c'.depth = c.depth
  reported : c'.depthReported = (c.depthReported || decide (c.options.maxDepth < c.depth + n))
  count : nestingReports c'.diagnostics + c.depthReported.toNat =
    nestingReports c.diagnostics + c'.depthReported.toNat

namespace Descends

variable {c c₁ c₂ : Checker}

theorem refl (h : c.depth ≤ c.options.maxDepth) : c.Descends 0 c where
  options := rfl
  depth := rfl
  reported := by
    have hnot : ¬ c.options.maxDepth < c.depth + 0 := by omega
    rw [decide_eq_false hnot, Bool.or_false]
  count := rfl

theorem trans (h : c.Descends n c₁) (h' : c₁.Descends k c₂) : c.Descends (max n k) c₂ where
  options := h'.options.trans h.options
  depth := h'.depth.trans h.depth
  reported := by
    have hmax : c.options.maxDepth < c.depth + max n k ↔
        c.options.maxDepth < c.depth + n ∨ c.options.maxDepth < c.depth + k := by omega
    rw [h'.reported, h.reported, h.options, h.depth, Bool.or_assoc, ← Bool.decide_or, decide_eq_decide.2 hmax]
  count := by
    have hfirst := h.count
    have hsecond := h'.count
    omega

end Descends

end Checker

namespace Checking

/-- The step goes `n` levels down. -/
def Descends (n : Nat) (step : Checking α) : Prop :=
  ∀ c : Checker, c.depth ≤ c.options.maxDepth → c.Descends n (step c).2

theorem descends_report (span : Span) {problem : Problem} (h : problem.isNesting = false) :
    Descends 0 (report span problem) := by
  intro c hc
  refine { Checker.Descends.refl hc with count := ?_ }
  show nestingReports (c.diagnostics ++ [⟨span, problem⟩]) + _ = _
  rw [nestingReports_append, nestingReports, nestingReports, List.countP_singleton, h]
  rfl

/-- The bracket around a nested part is where the limit is looked at. -/
theorem descends_nested (span : Span) {standIn : α} {step : Checking α} (h : Descends n step) :
    Descends (n + 1) (nested span standIn step) := by
  intro c hc
  rw [nested_apply]
  by_cases hlimit : c.depth < c.options.maxDepth
  · have hinside := h { c with depth := c.depth + 1 } hlimit
    rw [enter_of_lt hlimit, if_pos rfl]
    refine ⟨hinside.options, ?_, ?_, hinside.count⟩
    · show (step { c with depth := c.depth + 1 }).2.depth - 1 = c.depth
      rw [hinside.depth]
      rfl
    · refine hinside.reported.trans ?_
      show (c.depthReported || decide (c.options.maxDepth < c.depth + 1 + n)) = _
      rw [Nat.add_right_comm, Nat.add_assoc]
  · have hbeyond : c.options.maxDepth < c.depth + (n + 1) := by omega
    rw [enter_of_not_lt hlimit, if_neg Bool.false_ne_true]
    cases hreported : c.depthReported with
    | true =>
      rw [if_pos rfl]
      refine ⟨rfl, rfl, ?_, rfl⟩
      rw [hreported]
      rfl
    | false =>
      rw [if_neg Bool.false_ne_true]
      refine ⟨rfl, rfl, ?_, ?_⟩
      · rw [hreported, decide_eq_true hbeyond]
        rfl
      · show nestingReports (c.diagnostics ++ [_]) + c.depthReported.toNat = _
        rw [nestingReports_append, hreported]
        rfl

theorem descends_declareVariable (name : String) (span : Span) (readOnly : Bool) (type : Ty) :
    Descends 0 (declareVariable name span readOnly type) := by
  intro c hc
  have hsame := Checker.Descends.refl hc
  cases hscope : c.scope.declareVariable? name
      (c.symbols.addVariable (c.declared name type readOnly)).1 with
  | some scope =>
    rw [declareVariable_of_some hscope]
    exact ⟨rfl, rfl, hsame.reported, rfl⟩
  | none =>
    rw [declareVariable_of_none hscope]
    have hproblem : Problem.isNesting (.variableAlreadyDeclared name) = false := rfl
    have hreport := descends_report span hproblem
      { c with symbols := (c.symbols.addVariable (c.declared name type readOnly)).2 } hc
    exact ⟨rfl, rfl, hreport.reported, hreport.count⟩

theorem composes_descends : Composes (fun _ => True) fun n => Descends n where
  pure _ _ hc := .refl hc
  bind_of h hR hf c hc := by
    have hstep := h c hc
    refine hstep.trans (hf _ (hR c) _ ?_)
    rw [hstep.depth, hstep.options]
    exact hc
  get hf c hc := hf c c hc
  report _ hproblem := descends_report _ hproblem
  nested _ h := descends_nested _ h
  inLayer h c hc := by
    have hinside := h { c with scope := c.scope.push } hc
    exact ⟨hinside.options, hinside.depth, hinside.reported, hinside.count⟩
  inLoop h c hc := by
    have hinside := h { c with
      loopCount := c.loopCount + 1
      loops := (.numbered "break" (c.loopCount + 1), .numbered "continue" (c.loopCount + 1)) :: c.loops } hc
    exact ⟨hinside.options, hinside.depth, hinside.reported, hinside.count⟩
  declareVariable _ := descends_declareVariable _ _ _ _
  addVariable v hf c hc := by
    have hrest := hf (c.symbols.addVariable v).1 { c with symbols := (c.symbols.addVariable v).2 } hc
    exact ⟨hrest.options, hrest.depth, hrest.reported, hrest.count⟩

theorem descends_declareFunction (span : Span) (a : FunctionSymbol) :
    Descends 0 (declareFunction span a) := by
  intro c hc
  have hsame := Checker.Descends.refl hc
  cases hscope : c.scope.declareFunction? a (c.symbols.addFunction a).1 with
  | some scope =>
    rw [declareFunction_of_some hscope]
    exact ⟨rfl, rfl, hsame.reported, rfl⟩
  | none =>
    rw [declareFunction_of_none hscope]
    have hproblem : Problem.isNesting (.functionAlreadyDeclared a.signature) = false := rfl
    have hreport := descends_report span hproblem
      { c with symbols := (c.symbols.addFunction a).2 } hc
    exact ⟨rfl, rfl, hreport.reported, hreport.count⟩

theorem descends_globalCode (ss : List Surface.Stmt) :
    Descends (Surface.Stmt.heightList (ss.filter fun s => !s.isFunction)) (globalCode ss) :=
  Composes.of_globalCode composes_descends (fun _ a => descends_declareFunction _ a) fun _ _ =>
    .of_forall fun _ => trivial

theorem descends_block (ss : List Surface.Stmt) : Descends (Surface.Stmt.heightList ss) (block ss) :=
  Composes.of_block composes_descends fun _ _ => .of_forall fun _ => trivial

/-- From a fresh state, the limit is reported exactly if the step goes beyond it. -/
theorem Descends.nestingReports_start {step : Checking α} (h : Descends n step) (symbols : SymbolTable)
    (options : Options) (parent : Scope) (function? : Option FuncId) :
    nestingReports (step (.start symbols options parent function?)).2.diagnostics =
      (decide (options.maxDepth < n)).toNat := by
  have hstart := h (.start symbols options parent function?) (Nat.zero_le _)
  have hreported : (step (.start symbols options parent function?)).2.depthReported =
      decide (options.maxDepth < 0 + n) := hstart.reported
  have hcount : nestingReports _ + 0 = 0 + _ := hstart.count
  rw [Nat.add_zero, Nat.zero_add] at hcount
  rw [hcount, hreported, Nat.zero_add]

end Checking

/-! ## Scripts -/

/-- The statements go more levels deep than allowed. -/
def Options.exceededBy (options : Options) (ss : List Surface.Stmt) : Bool :=
  options.maxDepth < Surface.Stmt.heightList ss

namespace SymbolTable

variable {t t' : SymbolTable} {f : FuncId} {d : Declaration}

/-- The declaration of a function, if it was declared in a script. -/
def declaration? (t : SymbolTable) (f : FuncId) : Option Declaration :=
  (t.functionAt? f).bind (·.declaration?)

theorem declaration?_eq_some_iff :
    t.declaration? f = some d ↔ ∃ a, t.functionAt? f = some a ∧ a.declaration? = some d :=
  Option.bind_eq_some_iff

theorem Extends.declaration? (h : t.Extends t') (hf : t.declaration? f = some d) :
    t'.declaration? f = some d := by
  obtain ⟨a, ha, hd⟩ := declaration?_eq_some_iff.1 hf
  exact declaration?_eq_some_iff.2 ⟨a, h.funcs f a ha, hd⟩

theorem Extends.filterMap_declaration? (h : t.Extends t') {fs : List FuncId}
    (hfs : ∀ f ∈ fs, ∃ d, t.declaration? f = some d) :
    fs.filterMap t'.declaration? = fs.filterMap t.declaration? := by
  refine List.filterMap_congr fun f hf => ?_
  obtain ⟨d, hd⟩ := hfs f hf
  rw [hd, h.declaration? hd]

end SymbolTable

theorem nestingReports_checkGlobals (options : Options) (symbols : SymbolTable) (parent : Scope)
    (ss : List Surface.Stmt) :
    nestingReports (checkGlobals options symbols parent ss).1.diagnostics =
      (options.exceededBy (ss.filter fun s => !s.isFunction)).toNat :=
  (Checking.descends_globalCode ss).nestingReports_start symbols options parent none

theorem nestingReports_checkBody (options : Options) (symbols : SymbolTable) (parent : Scope) (f : FuncId)
    (returns : Ty) (d : Declaration) :
    nestingReports (checkBody options symbols parent f returns d).2.1 =
      (options.exceededBy d.body).toNat := by
  have hblock := (Checking.descends_block d.body).nestingReports_start symbols options parent (some f)
  rw [problems_checkBody, nestingReports_append, hblock]
  split
  · rfl
  · rfl

theorem nestingReports_checkBodies (options : Options) (parent : Scope) {symbols : SymbolTable}
    {fs : List FuncId} (hfs : ∀ f ∈ fs, ∃ d, symbols.declaration? f = some d) :
    nestingReports (checkBodies options parent symbols fs).2.1 =
      (fs.filterMap symbols.declaration?).countP fun d => options.exceededBy d.body := by
  induction fs generalizing symbols with
  | nil => rfl
  | cons f fs ih =>
    obtain ⟨⟨d, hfound⟩, hfs⟩ := List.forall_mem_cons.1 hfs
    obtain ⟨a, hf, hd⟩ := SymbolTable.declaration?_eq_some_iff.1 hfound
    have hgrown := extends_checkBody options symbols parent f a.returns d
    have hlater : ∀ g ∈ fs, ∃ e,
        (checkBody options symbols parent f a.returns d).2.2.declaration? g = some e :=
      fun g hg => (hfs g hg).imp fun _ => hgrown.declaration?
    rw [checkBodies_cons hf hd]
    dsimp only
    rw [nestingReports_append, nestingReports_checkBody, ih hlater, hgrown.filterMap_declaration? hfs,
      List.filterMap_cons_some hfound, List.countP_cons, Nat.add_comm]
    cases options.exceededBy d.body <;> rfl

/-- **Nesting is reported once per body.** Of a script that can be read, nesting too deep is reported once
for its global code, if that goes more levels deep than allowed, and once for the body of each function it
declares that does. -/
theorem nesting_is_reported_per_body (options : Options) (symbols : SymbolTable) (earlier : Lineage)
    {source file : String} {script : Surface.Script}
    (h : Surface.Script.ofSource source file = .ok script) :
    let r := compile options symbols earlier source file
    let declarations := r.1.globals.funcs.filterMap r.2.declaration?
    (∀ f ∈ r.1.globals.funcs, ∃ d, r.2.declaration? f = some d ∧ .function d.head d.body ∈ script.body) ∧
      nestingReports r.1.diagnostics =
        ((script.body.filter fun s => !s.isFunction) :: declarations.map (·.body)).countP
          options.exceededBy := by
  have hcompile : compile options symbols earlier source file =
      Submission.ofScript options symbols earlier [] script.body := by
    unfold compile
    rw [h]
  rw [hcompile]
  -- the functions were all declared by the time their bodies are checked
  let g : Globals := (checkGlobals options symbols (earlier.scope symbols) script.body).1
  let t : SymbolTable := (checkGlobals options symbols (earlier.scope symbols) script.body).2
  let parent : Scope := g.extend t (earlier.scope t)
  have hwritten : ∀ f ∈ g.funcs, ∃ d, t.declaration? f = some d ∧ .function d.head d.body ∈ script.body := by
    intro f hf
    obtain ⟨a, d, ha, hd, -, hmem⟩ := written_checkGlobals options symbols (earlier.scope symbols) _ f hf
    exact ⟨d, SymbolTable.declaration?_eq_some_iff.2 ⟨a, ha, hd⟩, hmem⟩
  have hdeclared : ∀ f ∈ g.funcs, ∃ d, t.declaration? f = some d :=
    fun f hf => (hwritten f hf).imp fun _ => And.left
  have hgrown := extends_checkBodies options parent t g.funcs
  have hglobals := nestingReports_checkGlobals options symbols (earlier.scope symbols) script.body
  have hbodies := nestingReports_checkBodies options parent hdeclared
  refine ⟨fun f hf => (hwritten f hf).imp fun _ hd => hd.imp_left hgrown.declaration?, ?_⟩
  change nestingReports ([] ++ g.diagnostics ++ (checkBodies options parent t g.funcs).2.1) = List.countP _
    (_ :: (g.funcs.filterMap (checkBodies options parent t g.funcs).2.2.declaration?).map (·.body))
  rw [hgrown.filterMap_declaration? hdeclared, List.countP_cons, List.countP_map, List.nil_append,
    nestingReports_append, hglobals, hbodies, Nat.add_comm]
  cases options.exceededBy (script.body.filter fun s => !s.isFunction) <;> rfl

/-- Global code and a function that print, and a function that does nothing. -/
def greetings : String := "fn f() \x7b print(\"a\"); \x7d fn g() \x7b \x7d print(\"b\");"

/-- With two levels allowed, the text to print is too deep in the global code and in the first function.
The second function is not too deep. -/
theorem greetings_nesting_is_reported_per_body :
    let r := compile ⟨true, 2⟩ .initial [] greetings "greetings"
    let declarations := r.1.globals.funcs.filterMap r.2.declaration?
    ∃ script, Surface.Script.ofSource greetings "greetings" = .ok script ∧
      (declarations.map (·.body)).map Surface.Stmt.heightList = [3, 0] ∧
      Surface.Stmt.heightList (script.body.filter fun s => !s.isFunction) = 3 ∧
      nestingReports r.1.diagnostics =
        ((script.body.filter fun s => !s.isFunction) :: declarations.map (·.body)).countP
          (Options.exceededBy ⟨true, 2⟩) := by
  intro r declarations
  obtain ⟨hheights, hread⟩ : (declarations.map (·.body)).map Surface.Stmt.heightList = [3, 0] ∧
      (Surface.Script.ofSource greetings "greetings").toOption.map
        (fun script => Surface.Stmt.heightList (script.body.filter fun s => !s.isFunction)) = some 3 := by
    decide +kernel
  cases hscript : Surface.Script.ofSource greetings "greetings" with
  | error e => rw [hscript] at hread; cases hread
  | ok script =>
    rw [hscript] at hread
    have hreports := (nesting_is_reported_per_body ⟨true, 2⟩ .initial [] hscript).2
    exact ⟨script, rfl, hheights, Option.some.inj hread, hreports⟩

/-- One script, and nesting too deep is reported twice. -/
theorem greetings_nesting_is_reported_twice :
    (compile ⟨true, 2⟩ .initial [] greetings "greetings").1.diagnostics =
      [⟨⟨"greetings", 40, 43⟩, .nestingTooDeep 2⟩, ⟨⟨"greetings", 15, 18⟩, .nestingTooDeep 2⟩] := by
  decide +kernel

end Scripting
