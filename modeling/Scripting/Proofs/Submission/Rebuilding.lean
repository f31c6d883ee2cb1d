import Scripting.Proofs.Submission.Running
import Scripting.Proofs.Symbol.History

/-!
# Scopes rebuilt from declarations

A submission keeps the handles it declares, not the scope in which its global code was checked. When the
bodies of its functions or later submissions are checked, that scope is built again: each handle is
declared under the name that the table has for it. This gives the scope back as it was. The functions of a
layer are kept in groups, one for each name (`Layer.Keyed`), and are listed and declared again group by
group.
-/

namespace Scripting

variable {t t' : SymbolTable}

/-! ## Groups of overloads -/

/-- The functions of a group have its name and the parameter types they are listed under, which differ. -/
structure Overload.Grouped (t : SymbolTable) (d : String × List Overload) : Prop where
  nonempty : d.2 ≠ []
  types : (d.2.map (·.types)).Nodup
  found : ∀ o ∈ d.2, ∃ a, t.functionAt? o.function = some a ∧ a.name = d.1 ∧ a.types = o.types

/-- The functions of the layer are grouped by name. -/
structure Layer.Keyed (t : SymbolTable) (fs : List (String × List Overload)) : Prop where
  names : (fs.map (·.1)).Nodup
  groups : ∀ d ∈ fs, Overload.Grouped t d

namespace Layer

theorem Keyed.nil : Keyed t [] := ⟨.nil, List.forall_mem_nil _⟩

theorem Keyed.mono {fs : List (String × List Overload)} (h : Keyed t fs) (hext : t.Extends t') :
    Keyed t' fs where
  names := h.names
  groups d hd :=
    { h.groups d hd with
      found := fun o ho => by
        obtain ⟨a, ha, hname⟩ := (h.groups d hd).found o ho
        exact ⟨a, hext.funcs _ _ ha, hname⟩ }

theorem mem_names_addOverload {name : String} {o : Overload} {fs : List (String × List Overload)}
    {n : String} (h : n ∈ (addOverload name o fs).map (·.1)) : n = name ∨ n ∈ fs.map (·.1) := by
  induction fs with
  | nil => exact .inl (List.mem_singleton.1 h)
  | cons d fs ih =>
    unfold addOverload at h
    split at h
    · exact .inr h
    · rcases List.mem_cons.1 h with rfl | h
      · exact .inr List.mem_cons_self
      · exact (ih h).imp_right (List.mem_cons_of_mem _)

/-- A new overload joins the group of its name, or begins one. -/
theorem Keyed.addOverload {name : String} {o : Overload} {fs : List (String × List Overload)}
    (h : Keyed t fs) (hnew : ∀ p ∈ (fs.lookup name).getD [], p.types ≠ o.types)
    (ho : ∃ a, t.functionAt? o.function = some a ∧ a.name = name ∧ a.types = o.types) :
    Keyed t (addOverload name o fs) := by
  induction fs with
  | nil =>
    refine ⟨List.nodup_singleton _, List.forall_mem_singleton.2 ⟨List.cons_ne_nil _ _, ?_, ?_⟩⟩
    · exact List.nodup_singleton _
    · exact List.forall_mem_singleton.2 ho
  | cons d fs ih =>
    obtain ⟨n, os⟩ := d
    obtain ⟨hfirst, hrest⟩ := List.forall_mem_cons.1 h.groups
    obtain ⟨hfresh, hnames⟩ := List.nodup_cons.1 h.names
    unfold Layer.addOverload
    by_cases hn : n = name
    · subst hn
      rw [if_pos rfl]
      rw [List.lookup_cons_self] at hnew
      refine ⟨h.names, List.forall_mem_cons.2 ⟨⟨?_, ?_, ?_⟩, hrest⟩⟩
      · exact List.append_ne_nil_of_right_ne_nil _ (List.cons_ne_nil _ _)
      · rw [List.map_append, List.map_singleton, List.nodup_append]
        refine ⟨hfirst.types, List.nodup_singleton _, fun τ hτ τ' hτ' => ?_⟩
        obtain ⟨p, hp, rfl⟩ := List.mem_map.1 hτ
        obtain rfl := List.mem_singleton.1 hτ'
        exact hnew p hp
      · exact List.forall_mem_append.2 ⟨hfirst.found, List.forall_mem_singleton.2 ho⟩
    · rw [if_neg hn]
      have hlookup : List.lookup name ((n, os) :: fs) = fs.lookup name := by
        rw [List.lookup_cons, beq_false_of_ne (Ne.symm hn)]
      rw [hlookup] at hnew
      obtain ⟨hnames', hgroups⟩ := ih ⟨hnames, hrest⟩ hnew
      refine ⟨List.nodup_cons.2 ⟨fun hmem => ?_, hnames'⟩, List.forall_mem_cons.2 ⟨hfirst, hgroups⟩⟩
      exact (mem_names_addOverload hmem).elim hn hfresh

theorem Keyed.declareFunction? {s s' : Scope} {a : FunctionSymbol} {f : FuncId}
    (h : Keyed t s.inner.funcs) (hs : s.declareFunction? a f = some s') (hf : t.functionAt? f = some a) :
    Keyed t s'.inner.funcs := by
  rw [(Scope.declareFunction?_eq_some hs).2.2]
  refine h.addOverload (fun p hp htypes => ?_) ⟨a, hf, rfl, rfl⟩
  obtain ⟨l, hl, -⟩ := Option.map_eq_some_iff.1 hs
  have hfound : s.inner.findFunction? a.name a.types ≠ none := by
    unfold findFunction?
    rw [ne_eq, Option.map_eq_none_iff, List.find?_eq_none]
    exact fun hnone => hnone p hp (decide_eq_true htypes)
  unfold Layer.declareFunction? at hl
  split at hl
  · cases hl
  next hnone => exact hfound hnone

end Layer

/-! ## Declaring again -/

namespace Layer

variable {vars : List (String × VarId)} {front fs : List (String × List Overload)} {outer : List Layer}
  {name : String}

/-- The group of a name, if it has any overloads. -/
def group (name : String) : List Overload → List (String × List Overload)
  | [] => []
  | os => [(name, os)]

theorem group_of_ne {os : List Overload} (h : os ≠ []) (name : String) : group name os = [(name, os)] := by
  cases os with
  | nil => exact absurd rfl h
  | cons o os => rfl

theorem addOverload_group (name : String) (os : List Overload) (o : Overload) :
    addOverload name o (group name os) = group name (os ++ [o]) := by
  cases os with
  | nil => rfl
  | cons p os =>
    rw [group_of_ne (List.cons_ne_nil p os), List.cons_append, group_of_ne (List.cons_ne_nil p _)]
    exact if_pos rfl

theorem overloads_group (h : name ∉ front.map (·.1)) (os : List Overload) :
    overloads ⟨vars, front ++ group name os⟩ name = os := by
  have hfront : front.lookup name = none := by
    refine List.lookup_eq_none_iff.2 fun d hd => ?_
    simpa using fun heq => h (List.mem_map.2 ⟨d, hd, heq.symm⟩)
  unfold overloads
  rw [List.lookup_append, hfront, Option.none_or]
  cases os with
  | nil => rfl
  | cons p os =>
    rw [group_of_ne (List.cons_ne_nil p os), List.lookup_cons_self]
    rfl

end Layer

namespace Scope

variable {vars : List (String × VarId)} {front fs : List (String × List Overload)} {outer : List Layer}
  {name : String}

theorem addFunction_group (h : name ∉ front.map (·.1)) {os : List Overload} {o : Overload}
    (hnew : o.types ∉ os.map (·.types))
    (ho : ∃ a, t.functionAt? o.function = some a ∧ a.name = name ∧ a.types = o.types) :
    Scope.addFunction ⟨⟨vars, front ++ Layer.group name os⟩, outer⟩ t o.function =
      ⟨⟨vars, front ++ Layer.group name (os ++ [o])⟩, outer⟩ := by
  obtain ⟨a, ha, rfl, htypes⟩ := ho
  have hnone : Layer.findFunction? ⟨vars, front ++ Layer.group a.name os⟩ a.name a.types = none := by
    unfold Layer.findFunction?
    rw [Layer.overloads_group h, Option.map_eq_none_iff, List.find?_eq_none]
    intro p hp heq
    rw [← htypes, ← of_decide_eq_true heq] at hnew
    exact hnew (List.mem_map_of_mem hp)
  unfold Scope.addFunction Scope.declareFunction? Layer.declareFunction?
  rw [ha, Option.bind_some, hnone, Layer.addOverload_append h]
  dsimp only
  rw [htypes, Layer.addOverload_group]
  rfl

theorem foldl_addFunction_group (h : name ∉ front.map (·.1)) {done os : List Overload}
    (htypes : ((done ++ os).map (·.types)).Nodup)
    (hfound : ∀ o ∈ os, ∃ a, t.functionAt? o.function = some a ∧ a.name = name ∧ a.types = o.types) :
    (os.map (·.function)).foldl (fun s f => s.addFunction t f)
        (Scope.mk ⟨vars, front ++ Layer.group name done⟩ outer) =
      ⟨⟨vars, front ++ Layer.group name (done ++ os)⟩, outer⟩ := by
  induction os generalizing done with
  | nil => rw [List.append_nil]; rfl
  | cons o os ih =>
    obtain ⟨ho, hos⟩ := List.forall_mem_cons.1 hfound
    have hnew : o.types ∉ done.map (·.types) := by
      rw [List.map_append, List.nodup_append] at htypes
      exact fun hmem => htypes.2.2 _ hmem _ List.mem_cons_self rfl
    have happend : done ++ o :: os = done ++ [o] ++ os := by rw [List.append_assoc]; rfl
    rw [happend] at htypes ⊢
    rw [List.map_cons, List.foldl_cons, addFunction_group h hnew ho, ih htypes hos]

/-- Declaring the functions of a layer again gives its groups. -/
theorem foldl_addFunction (h : Layer.Keyed t (front ++ fs)) :
    (fs.flatMap fun d => d.2.map (·.function)).foldl (fun s f => s.addFunction t f)
      (Scope.mk ⟨vars, front⟩ outer) = ⟨⟨vars, front ++ fs⟩, outer⟩ := by
  induction fs generalizing front with
  | nil => rw [List.append_nil]; rfl
  | cons d fs ih =>
    obtain ⟨name, os⟩ := d
    have hgroup : Overload.Grouped t (name, os) := h.groups _ (List.mem_append_right _ List.mem_cons_self)
    have hname : name ∉ front.map (·.1) := by
      have hnames := h.names
      rw [List.map_append, List.nodup_append] at hnames
      exact fun hmem => hnames.2.2 _ hmem _ List.mem_cons_self rfl
    have hadded : (os.map (·.function)).foldl (fun s f => s.addFunction t f)
        (Scope.mk ⟨vars, front⟩ outer) = ⟨⟨vars, front ++ [(name, os)]⟩, outer⟩ := by
      have hempty : front = front ++ Layer.group name [] := (List.append_nil front).symm
      have htypes : ((([] : List Overload) ++ os).map (·.types)).Nodup := hgroup.types
      rw [← Layer.group_of_ne hgroup.nonempty, hempty, List.append_assoc]
      exact foldl_addFunction_group hname htypes hgroup.found
    have happend : front ++ (name, os) :: fs = front ++ [(name, os)] ++ fs := by
      rw [List.append_assoc]; rfl
    rw [happend] at h ⊢
    rw [List.flatMap_cons, List.foldl_append, hadded, ih h]

/-- Declaring the variables of a layer again gives the layer. -/
theorem foldl_addVariable {front vars : List (String × VarId)} {funcs : List (String × List Overload)}
    (hfound : ∀ d ∈ vars, ∃ v, t.variableAt? d.2 = some v ∧ v.name = d.1)
    (hnames : ((front ++ vars).map (·.1)).Nodup) :
    (vars.map (·.2)).foldl (fun s x => s.addVariable t x) (Scope.mk ⟨front, funcs⟩ outer) =
      ⟨⟨front ++ vars, funcs⟩, outer⟩ := by
  induction vars generalizing front with
  | nil => rw [List.append_nil]; rfl
  | cons d vars ih =>
    obtain ⟨⟨v, hv, hname⟩, hvars⟩ := List.forall_mem_cons.1 hfound
    have hnew : (Scope.mk ⟨front, funcs⟩ outer).inner.findVariable? d.1 = none := by
      refine List.lookup_eq_none_iff.2 fun d' hd' => ?_
      rw [List.map_append, List.nodup_append] at hnames
      have hne := hnames.2.2 d'.1 (List.mem_map_of_mem hd') d.1 List.mem_cons_self
      simpa using hne.symm
    have hadded : Scope.addVariable ⟨⟨front, funcs⟩, outer⟩ t d.2 = ⟨⟨front ++ [d], funcs⟩, outer⟩ := by
      have hd : t.variableName d.2 = d.1 := by
        unfold SymbolTable.variableName
        rw [hv]
        exact hname
      unfold Scope.addVariable
      rw [hd, Scope.declareVariable?_of_none hnew]
      rfl
    rw [List.map_cons, List.foldl_cons, hadded, ih hvars (by rwa [List.append_assoc]), List.append_assoc]
    rfl

end Scope

/-- Declaring again what a scope declares in its innermost layer, on top of the layers around it, gives
the scope. -/
theorem Globals.extend_eq {g : Globals} {s parent : Scope} (hfuncs : g.funcs = s.funcs)
    (hvars : g.vars = s.vars) (houter : s.outer = parent.layers) (hresolves : s.Resolves t)
    (hkeyed : Layer.Keyed t s.inner.funcs) : g.extend t parent = s := by
  obtain ⟨⟨vars, funcs⟩, outer⟩ := s
  obtain rfl : outer = parent.layers := houter
  have hadded : (Scope.mk ⟨vars, funcs⟩ parent.layers).funcs.foldl (fun s f => s.addFunction t f) parent.push =
      ⟨⟨[], [] ++ funcs⟩, parent.layers⟩ := Scope.foldl_addFunction hkeyed
  have hnames : ((([] : List (String × VarId)) ++ vars).map (·.1)).Nodup := hresolves.names _ List.mem_cons_self
  unfold Globals.extend
  rw [hfuncs, hvars, hadded]
  exact Scope.foldl_addVariable (hresolves.vars _ List.mem_cons_self) hnames

/-! ## The end of global code -/

namespace Checking

theorem keyed_declareFunction {span : Span} {a : FunctionSymbol} (hb : a.builtin? = none) {c : Checker}
    (h : Layer.Keyed c.symbols c.scope.inner.funcs) :
    Layer.Keyed (declareFunction span a c).2.symbols (declareFunction span a c).2.scope.inner.funcs := by
  have hgrown := h.mono (c.symbols.extends_addFunction hb)
  rcases declareFunction_cases span a c with ⟨scope, hscope, hstate⟩ | ⟨problem, hstate⟩
  · rw [hstate]
    exact hgrown.declareFunction? hscope (c.symbols.functionAt?_addFunction a)
  · rw [hstate]
    exact hgrown

/-- Entering signatures keeps the functions of the innermost layer in groups. -/
theorem keyed_signatures (ss : List Surface.Stmt) {c : Checker}
    (h : Layer.Keyed c.symbols c.scope.inner.funcs) :
    Layer.Keyed (signatures ss c).2.symbols (signatures ss c).2.scope.inner.funcs := by
  induction ss generalizing c with
  | nil => exact h
  | cons s ss ih =>
    cases s with
    | function head body =>
      have hkeeps := steady_symbolOf ⟨head, body⟩ c
      have hsymbol : Layer.Keyed (symbolOf ⟨head, body⟩ c).2.symbols
          (symbolOf ⟨head, body⟩ c).2.scope.inner.funcs := by
        rw [hkeeps.funcs]
        exact h.mono hkeeps.symbols
      exact ih (keyed_declareFunction rfl hsymbol)
    | _ => exact ih h

end Checking

/-- The state in which the check of a script's global code ends. -/
def Lineage.afterGlobals (options : Options) (t : SymbolTable) (l : Lineage) (ss : List Surface.Stmt) :
    Checker :=
  (Checking.globalCode ss (.start t options (l.scope t) none)).2

/-- The scope is rebuilt as it was at the end of the global code, also when symbols have been added. -/
theorem Lineage.Resolved.extend_globals {l : Lineage} (hl : l.Resolved t) (ht : t.Coherent)
    (options : Options) (ss : List Surface.Stmt) {T : SymbolTable}
    (hT : (l.afterGlobals options t ss).symbols.Extends T) :
    (checkGlobals options t (l.scope t) ss).1.extend T (l.scope T) =
      (l.afterGlobals options t ss).scope := by
  let c : Checker := .start t options (l.scope t) none
  have henters : c.Enters ss (Checking.signatures ss c).2 :=
    Checking.enters_signatures (List.Subset.refl ss) c
  have hkeeps : (Checking.signatures ss c).2.Keeps (l.afterGlobals options t ss) :=
    Checking.steady_stmts _ _
  have hresolves : (l.afterGlobals options t ss).scope.Resolves (l.afterGlobals options t ss).symbols := by
    have hparent := (Renumbering.tables_identity t).resolves_scope (List.forall₂_same.2 hl)
    have hstart := Renumbering.Matches.start (Renumbering.tables_identity t) ht hparent options none
    exact (Checking.Simulation.lockstep_stmts (M := Renumbering.identity.simulation _) _ _ _
      (hstart.signatures ss) (not_not_intro (.refl _))).1.resolves
  have hkeyed : Layer.Keyed (l.afterGlobals options t ss).symbols
      (l.afterGlobals options t ss).scope.inner.funcs := by
    rw [hkeeps.funcs]
    exact (Checking.keyed_signatures ss .nil).mono hkeeps.symbols
  have hlayers : (l.afterGlobals options t ss).scope.outer = (l.scope t).layers :=
    hkeeps.outer.trans henters.outer
  rw [hl.scope_eq ((henters.symbols.trans hkeeps.symbols).trans hT)]
  exact Globals.extend_eq rfl rfl hlayers (hresolves.mono hT) (hkeyed.mono hT)

/-! ## Sessions -/

/-- Every name stands for the same in both scopes, and every function name with every list of argument
types. -/
def Scope.Agrees (s s' : Scope) : Prop :=
  ∀ name, s.findVariable? name = s'.findVariable? name ∧
    ∀ types, s.findFunction? name types = s'.findFunction? name types

/-- The statements of a script that are checked: none if it cannot be read. -/
def Surface.Script.statements (source file : String) : List Surface.Stmt :=
  match Surface.Script.ofSource source file with
  | .ok script => script.body
  | .error _ => []

theorem exists_compile_eq (options : Options) (t : SymbolTable) (l : Lineage) (source file : String) :
    ∃ syntaxErrors, compile options t l source file =
      Submission.ofScript options t l syntaxErrors (Surface.Script.statements source file) := by
  unfold compile Surface.Script.statements
  cases Surface.Script.ofSource source file with
  | ok script => exact ⟨_, rfl⟩
  | error e => exact ⟨_, rfl⟩

/-- **Rebuilt scopes agree with the scope they stand for.** Let a script be submitted to a session, whatever
is wrong with it. The scope that is rebuilt from what it declares resolves every name as its global code did
at its end: the scope in which the bodies of its functions are checked, and that of every submission on top
of it, whatever the session does in between. -/
theorem rebuilt_scope_agrees {S : Session} (hS : S.Reachable) {base : Lineage}
    (hbase : base = [] ∨ base ∈ S.lineages) (options : Options) (source file : String) :
    let submission := (compile options S.symbols base source file).1
    let live := base.afterGlobals options S.symbols (Surface.Script.statements source file)
    (Lineage.scope live.symbols (submission :: base)).Agrees live.scope ∧
      ∀ S', Relation.ReflTransGen Session.Step (S.submit base options source file) S' →
        (Lineage.scope S'.symbols (submission :: base)).Agrees live.scope := by
  intro submission live
  obtain ⟨syntaxErrors, hcompile⟩ := exists_compile_eq options S.symbols base source file
  have hglobals : submission.globals = (checkGlobals options S.symbols (base.scope S.symbols)
      (Surface.Script.statements source file)).1 := by
    show (compile options S.symbols base source file).1.globals = _
    rw [hcompile]
    rfl
  have hrebuilt : ∀ T, live.symbols.Extends T → (Lineage.scope T (submission :: base)).Agrees live.scope := by
    intro T hT name
    have hscope : Lineage.scope T (submission :: base) = live.scope := by
      show submission.globals.extend T (base.scope T) = _
      rw [hglobals]
      exact (hS.resolved.base hbase).extend_globals hS.resolved.coherent options _ hT
    rw [hscope]
    exact ⟨rfl, fun _ => rfl⟩
  refine ⟨hrebuilt _ (.refl _), fun S' hlater => hrebuilt _ ?_⟩
  have hbodies : live.symbols.Extends (compile options S.symbols base source file).2 := by
    rw [hcompile]
    exact extends_checkBodies options _ _ _
  exact hbodies.trans (Session.extends_later hlater)

namespace Session

/-- Declares two names again that the submission before it has, each of them twice, and one more by
assigning to it. -/
def shadowing : String :=
  "fn half(s: int) \x7b \x7d fn half(n: int) \x7b \x7d var total = 1; let total = true; extra = total;"

theorem reachable_halved : halved.Reachable := .single (.submit [] (.inl rfl) .standard _ _)

end Session

/-- Whatever follows, `total` is the first variable of that name in the second script, `half` the first
function, and `input` that of the host. -/
theorem shadowing_is_rebuilt :
    let S := Session.halved
    let base : Lineage := [Session.halving.1]
    let submission := (compile .standard S.symbols base Session.shadowing "shadowing").1
    (S.Reachable ∧ base ∈ S.lineages) ∧
      ∀ S', Relation.ReflTransGen Session.Step (S.submit base .standard Session.shadowing "shadowing") S' →
        (Lineage.scope S'.symbols (submission :: base)).findVariable? "total" = some ⟨6⟩ ∧
          (Lineage.scope S'.symbols (submission :: base)).findFunction? "half" [.int] = some ⟨4⟩ ∧
          (Lineage.scope S'.symbols (submission :: base)).findFunction? "input" [] = some ⟨1⟩ := by
  intro S base submission
  let live := base.afterGlobals .standard S.symbols (Surface.Script.statements Session.shadowing "shadowing")
  obtain ⟨htotal, hhalf, hinput⟩ : live.scope.findVariable? "total" = some ⟨6⟩ ∧
      live.scope.findFunction? "half" [.int] = some ⟨4⟩ ∧
      live.scope.findFunction? "input" [] = some ⟨1⟩ := by decide +kernel
  refine ⟨⟨Session.reachable_halved, List.mem_cons_self⟩, fun S' hlater => ?_⟩
  have hagrees := (rebuilt_scope_agrees Session.reachable_halved (.inr List.mem_cons_self) .standard
    Session.shadowing "shadowing").2 S' hlater
  exact ⟨(hagrees _).1.trans htotal, ((hagrees _).2 _).trans hhalf, ((hagrees _).2 _).trans hinput⟩

end Scripting
