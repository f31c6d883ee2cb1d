import Scripting.Proofs.Check.Rechecking
import Scripting.Proofs.Submission.Rebuilding
import Scripting.Proofs.Submission.Writes

/-!
# Printed expressions in a session

In every state that a check goes through, a name stands for a symbol of that name (`Checker.Arises.named`). So
an expression that was checked without a report can be printed, read and checked again, and is the same as
before, unless something that failed earlier was left out of it.
-/

namespace Scripting

open Surface (Node Script)

variable {t t' : SymbolTable} {s s' : Scope} {c c' : Checker}

/-! ## Functions in scope -/

/-- The functions of every layer are grouped by name. -/
def Scope.Keyed (t : SymbolTable) (s : Scope) : Prop := ∀ l ∈ s.layers, Layer.Keyed t l.funcs

namespace Scope.Keyed

theorem of_outer_eq (h : s.Keyed t) (hext : t.Extends t') (houter : s'.outer = s.outer)
    (hinner : Layer.Keyed t' s'.inner.funcs) : s'.Keyed t' := by
  refine List.forall_mem_cons.2 ⟨hinner, ?_⟩
  rw [houter]
  exact fun l hl => (h l (.tail _ hl)).mono hext

theorem mono (h : s.Keyed t) (hext : t.Extends t') : s.Keyed t' := fun l hl => (h l hl).mono hext

theorem push (h : s.Keyed t) : s.push.Keyed t := List.forall_mem_cons.2 ⟨.nil, h⟩

theorem addVariable (h : s.Keyed t) (x : VarId) : (s.addVariable t x).Keyed t := by
  unfold Scope.addVariable
  cases hs : s.declareVariable? (t.variableName x) x with
  | none => exact h
  | some s' =>
    obtain ⟨-, rfl⟩ := Scope.declareVariable?_eq_some hs
    exact h.of_outer_eq (.refl t) rfl (h s.inner List.mem_cons_self)

theorem addFunction (h : s.Keyed t) (f : FuncId) : (s.addFunction t f).Keyed t := by
  unfold Scope.addFunction
  cases hf : t.functionAt? f with
  | none => exact h
  | some a =>
    rw [Option.bind_some]
    cases hs : s.declareFunction? a f with
    | none => exact h
    | some s' =>
      refine h.of_outer_eq (.refl t) (Scope.declareFunction?_eq_some hs).1 ?_
      exact (h s.inner List.mem_cons_self).declareFunction? hs hf

theorem declareParameters (h : s.Keyed t) (ps : List ParameterSymbol) :
    (Checker.declareParameters s ps).Keyed t := by
  refine List.foldlRecOn ps _ h fun s hs p _ => ?_
  cases hdeclared : s.declareVariable? p.name p.target with
  | none => exact hs
  | some s' =>
    obtain ⟨-, rfl⟩ := Scope.declareVariable?_eq_some hdeclared
    exact hs.of_outer_eq (.refl t) rfl (hs s.inner List.mem_cons_self)

theorem root : (Scope.root t).Keyed t :=
  List.foldlRecOn _ _ (List.forall_mem_singleton.2 .nil) fun _ hs f _ => hs.addFunction f

theorem lineage (l : Lineage) : (l.scope t).Keyed t := by
  induction l with
  | nil => exact root
  | cons s l ih =>
    refine List.foldlRecOn _ _ ?_ fun _ hs x _ => hs.addVariable x
    exact List.foldlRecOn _ _ ih.push fun _ hs f _ => hs.addFunction f

theorem keeps (h : c.scope.Keyed c.symbols) (hc : c.Keeps c') : c'.scope.Keyed c'.symbols := by
  refine h.of_outer_eq hc.symbols hc.outer ?_
  rw [hc.funcs]
  exact (h c.scope.inner List.mem_cons_self).mono hc.symbols

/-- A function is found under its name. -/
theorem exists_function (h : s.Keyed t) {name : String} {types : List Ty} {f : FuncId}
    (hf : s.findFunction? name types = some f) : ∃ a, t.functionAt? f = some a ∧ a.name = name := by
  obtain ⟨l, hl, hf⟩ := List.exists_of_findSome?_eq_some hf
  obtain ⟨o, ho, rfl⟩ := Option.map_eq_some_iff.1 hf
  have hmem := List.mem_of_find?_eq_some ho
  unfold Layer.overloads at hmem
  cases hname : l.funcs.lookup name with
  | none => simp [hname] at hmem
  | some os =>
    rw [hname] at hmem
    obtain ⟨a, ha, hsame, -⟩ := ((h l hl).groups _ (mem_of_lookup hname)).found o hmem
    exact ⟨a, ha, hsame⟩

end Scope.Keyed

/-! ## States of a session -/

namespace Checker

/-- The check of a script of some session may come to this state. It begins with global code on top of what
was submitted before, or with the body of a function on top of the global code; it goes on with signatures,
statements and expressions, enters layers of scope, and reports or goes to another depth without a change of
names. -/
inductive Arises : Checker → Prop
  | start {S : Session} (hS : S.Reachable) {base : Lineage} (hbase : base = [] ∨ base ∈ S.lineages)
      (options : Options) : Arises (.start S.symbols options (base.scope S.symbols) none)
  | body {c c' : Checker} (h : Arises c) (h' : Arises c') (hext : c.symbols.Extends c'.symbols)
      (options : Options) (f : FuncId) : Arises (.start c'.symbols options c.scope (some f))
  | signatures {c : Checker} (h : Arises c) (ss : List Surface.Stmt) : Arises (Checking.signatures ss c).2
  | stmts {c : Checker} (h : Arises c) (ss : List Surface.Stmt) : Arises (Checking.stmts ss c).2
  | expr {c : Checker} (h : Arises c) (e : Surface.Expr) : Arises (Checking.expr e c).2
  | layer {c : Checker} (h : Arises c) : Arises { c with scope := c.scope.push }
  | aside {c c' : Checker} (h : Arises c) (hsymbols : c'.symbols = c.symbols) (hscope : c'.scope = c.scope) :
      Arises c'

/-- What is known of the names in all these states. -/
structure Orderly (c : Checker) : Prop where
  coherent : c.symbols.Coherent
  resolves : c.scope.Resolves c.symbols
  keyed : c.scope.Keyed c.symbols

theorem Orderly.start (ht : t.Coherent) {parent : Scope} (hparent : parent.Resolves t) (hkeyed : parent.Keyed t)
    (options : Options) (function? : Option FuncId) : (start t options parent function?).Orderly where
  coherent := ht
  resolves := (Renumbering.Matches.start (Renumbering.tables_identity t) ht hparent options function?).resolves
  keyed := by
    unfold Checker.start
    cases function?.bind t.functionAt? with
    | none => exact hkeyed.push
    | some a => exact hkeyed.push.declareParameters a.parameters

theorem Orderly.signatures (h : c.Orderly) (ss : List Surface.Stmt) :
    (Checking.signatures ss c).2.Orderly := by
  let c' : Checker := { c with
    scope := c.scope.renumber .identity, function? := c.function?.map Renumbering.identity.funcs }
  have hmatches : Renumbering.identity.Matches c c' :=
    ⟨Renumbering.tables_identity _, h.coherent, rfl, h.resolves, rfl, rfl, rfl, rfl, rfl, rfl, rfl⟩
  have henters := Checking.enters_signatures (List.Subset.refl ss) c
  have hinner := Checking.keyed_signatures ss (h.keyed c.scope.inner List.mem_cons_self)
  exact ⟨(hmatches.signatures ss).coherent, (hmatches.signatures ss).resolves,
    h.keyed.of_outer_eq henters.symbols henters.outer hinner⟩

/-- A step that declares variables only. -/
theorem Orderly.step {α : Type} {step : Checking α} (h : c.Orderly) (hresolving : Checking.Resolving step)
    (hcoherent : Checking.Maintains SymbolTable.Coherent step) : (step c).2.Orderly :=
  ⟨hcoherent c h.coherent, hresolving.resolves c h.resolves, h.keyed.keeps (hresolving.steady c)⟩

theorem composes_coherent :
    Checking.Composes (fun _ => True) fun _ => Checking.Maintains SymbolTable.Coherent :=
  Checking.composes_maintains fun _ v h => h.addVariable v

theorem Arises.orderly (h : c.Arises) : c.Orderly := by
  induction h with
  | start hS hbase options =>
    have hbase := hS.resolved.base hbase
    exact .start hS.resolved.coherent hbase.resolves_scope (.lineage _) options none
  | body _ _ hext options f ih ih' =>
    exact .start ih'.coherent (ih.resolves.mono hext) (ih.keyed.mono hext) options (some f)
  | signatures _ ss ih => exact ih.signatures ss
  | stmts _ ss ih =>
    have hall : ∀ s ∈ ss, (Node.stmt s).Everywhere fun _ => True := fun _ _ => .of_forall fun _ => trivial
    exact ih.step (Checking.Composes.of_stmts Checking.composes_resolving ss hall)
      (Checking.Composes.of_stmts composes_coherent ss hall)
  | expr _ e ih =>
    have hall : (Node.expr e).Everywhere fun _ => True := .of_forall fun _ => trivial
    exact ih.step (Checking.Composes.toComposesExpr Checking.composes_resolving |>.of_expr e hall)
      (Checking.Composes.toComposesExpr composes_coherent |>.of_expr e hall)
  | layer _ ih => exact ⟨ih.coherent, ih.resolves.push, ih.keyed.push⟩
  | aside _ hsymbols hscope ih =>
    exact ⟨hsymbols ▸ ih.coherent, hsymbols ▸ hscope ▸ ih.resolves, hsymbols ▸ hscope ▸ ih.keyed⟩

/-- In every state of a session, names stand for symbols of that name. -/
theorem Arises.named (h : c.Arises) : c.scope.Named c.symbols where
  vars name x hx := by
    obtain ⟨l, hl, hx⟩ := List.exists_of_findSome?_eq_some hx
    exact h.orderly.resolves.vars l hl (name, x) (mem_of_lookup hx)
  funcs _ _ _ hf := h.orderly.keyed.exists_function hf

/-- Nothing in scope stands for something that failed, and nesting too deep was not reported. -/
structure Intact (c : Checker) : Prop where
  vars : ∀ name x, c.scope.findVariable? name = some x → c.symbols.variableType x ≠ .error
  funcs : ∀ name types f, c.scope.findFunction? name types = some f → c.symbols.returnType f ≠ .error
  nesting : c.depthReported = false

def withMaxDepth (c : Checker) (depth : Nat) : Checker :=
  { c with options := { c.options with maxDepth := depth } }

end Checker

/-! ## Printing, reading and checking again -/

/-- **Printing keeps the expression.** Names stand for symbols of that name in every state of a session, and every
expression that is read has identifiers for names and no negative numbers. In such a state, let the check of such
an expression report nothing, and let the texts in the result be plain. If no error is left in the result, then
what is printed of it is read as an expression that checks to the same result again, where the limit of nesting
allows for it; no state changes and nothing is reported. If an error is left, what is printed has no tokens. That
happens only if something in scope failed before. -/
theorem printing_keeps_expression :
    (∀ c : Checker, c.Arises → c.scope.Named c.symbols) ∧
    (∀ source file script e, Script.ofSource source file = .ok script →
      (Node.script script).Contains (.expr e) → (Node.expr e).AllLegible) ∧
    ∀ (c c' : Checker) (e : Surface.Expr) (b : Typed.Expr) (standIn : Bool),
      c.scope.Named c.symbols → (Node.expr e).AllLegible →
      Checking.expr e c = ((b, standIn), c') → c'.diagnostics = c.diagnostics →
      (∀ text, .literal (.text text) ∈ b.parts → ∀ ch ∈ text.toList, Token.isPlain ch = true) →
      (c.Intact → .error ∉ b.parts) ∧
      ∀ file,
        (.error ∈ b.parts → ∃ problem, Token.tokenize (b.render c'.symbols) file = .error problem) ∧
        (.error ∉ b.parts → ∃ tokens u span, Token.tokenize (b.render c'.symbols) file = .ok tokens ∧
          Surface.parse tokens file = .ok ⟨[.expr u], span⟩ ∧
          ∀ depth, c'.depth + u.height ≤ depth →
            Checking.expr u (c'.withMaxDepth depth) = ((b, standIn), c'.withMaxDepth depth)) := by
  refine ⟨fun c hc => hc.named, fun source file script e hscript he m hm => ?_, ?_⟩
  · exact Surface.Script.allLegible hscript m (he.trans hm)
  intro c c' e b standIn hnamed hlegible hexpr hquiet hplain
  have hfound : ∀ T : Prop, c.Sane T → Checking.Found T (b, standIn) c'.symbols c'.scope := by
    intro T hc
    have hstep := Checking.quiet_expr e hlegible c hc (by rw [hexpr]; exact hquiet)
    rw [hexpr] at hstep
    exact hstep.2.2
  have hsettled := (hfound True ⟨hnamed, fun _ _ _ _ => trivial, fun _ _ _ _ _ => trivial, fun _ => trivial⟩)
  have hwritten : ∀ p ∈ b.parts, p = .error ∨ p.Legible c'.symbols := fun p hp =>
    (hsettled.stable.settled p hp).imp_right fun h => h.legible fun text heq => hplain text (heq ▸ hp)
  refine ⟨fun hintact => ?_, fun file => ⟨fun herror => ?_, fun herror => ?_⟩⟩
  · refine (hfound False ⟨hnamed, hintact.vars, hintact.funcs, ?_⟩).stable.error
    rw [hintact.nesting]
    exact Bool.false_ne_true
  · exact Typed.Expr.unreadable_render hwritten herror file
  · obtain ⟨tokens, u, span, htokens, hparse, hu⟩ :=
      Typed.Expr.read_render (Typed.Expr.legible_of_not_mem hwritten herror) file
    refine ⟨tokens, u, span, htokens, hparse, fun depth hdepth => ?_⟩
    obtain rfl : standIn = false := hsettled.plain
    refine Checking.expr_surface (c := c'.withMaxDepth depth) (fun p hp => ?_) hu hdepth
    refine (hsettled.stable.settled p hp).resolve_left ?_
    rintro rfl
    exact herror hp

theorem Lineage.arises_afterGlobals {S : Session} (hS : S.Reachable) {base : Lineage}
    (hbase : base = [] ∨ base ∈ S.lineages) (options : Options) (ss : List Surface.Stmt) :
    (base.afterGlobals options S.symbols ss).Arises :=
  ((Checker.Arises.start hS hbase options).signatures ss).stmts _

/-- The expression that a script consists of. -/
def Surface.Script.expr? (script : Script) : Option Surface.Expr :=
  match script.body with
  | [.expr e] => some e
  | _ => none

theorem Surface.Script.exists_of_expr? {source file : String} {e : Surface.Expr}
    (h : (Script.ofSource source file).toOption.bind expr? = some e) :
    ∃ span, Script.ofSource source file = .ok ⟨[.expr e], span⟩ := by
  cases hscript : Script.ofSource source file with
  | error problem => rw [hscript] at h; cases h
  | ok script =>
    rw [hscript] at h
    obtain ⟨body, span⟩ := script
    have hbody : expr? ⟨body, span⟩ = some e := h
    unfold expr? at hbody
    split at hbody
    · next e' heq =>
      obtain rfl := Option.some.inj hbody
      obtain rfl : body = [.expr e'] := heq
      exact ⟨span, rfl⟩
    · cases hbody

def Typed.Expr.isNoText : Typed.Expr → Bool
  | .literal (.text _) => false
  | _ => true

/-- Not an error, and plain if it is a text literal. -/
def Typed.Expr.isPlain : Typed.Expr → Bool
  | .error => false
  | .literal (.text text) => text.toList.all Token.isPlain
  | _ => true

namespace Session

/-- Declares a function and two variables. -/
def picking : String :=
  "fn pick(a: any, b: string) -> string \x7b return b; \x7d var s = \"a\"; var total: any = 0;"

/-- Declares two more names by assigning to them, and leaves a conversion out. -/
def assigning : String :=
  "fresh = !((total = other = -3) == any(s += \"\\t\\\"?\\\\\" + pick(total, s)))"

end Session

/-- The names are declared now, and the conversion is written. -/
theorem left_out_conversion_is_printed :
    let c := Lineage.afterGlobals .standard .initial [] (Script.statements Session.picking "picking")
    let printed :=
      "fresh = !((total = any(other = -3)) == any(s += \"\\t\\\"?\\\\\" + pick(total, s)))"
    ∃ e b c' span, c.Arises ∧ Script.ofSource Session.assigning "shell" = .ok ⟨[.expr e], span⟩ ∧
      Checking.expr e c = ((b, false), c') ∧ c'.diagnostics = c.diagnostics ∧
      (∀ p ∈ b.parts, p.isPlain) ∧ b.render c'.symbols = printed ∧
      ∃ tokens u span, Token.tokenize printed "shell" = .ok tokens ∧
        Surface.parse tokens "shell" = .ok ⟨[.expr u], span⟩ ∧
        ∀ depth, c'.depth + u.height ≤ depth →
          Checking.expr u (c'.withMaxDepth depth) = ((b, false), c'.withMaxDepth depth) := by
  intro c printed
  have hrun : ((Script.ofSource Session.assigning "shell").toOption.bind Script.expr?).any (fun e =>
      let r := Checking.expr e c
      decide (r.1.2 = false ∧ r.2.diagnostics = c.diagnostics ∧ (∀ p ∈ r.1.1.parts, p.isPlain) ∧
        r.1.1.render r.2.symbols = printed)) = true := by decide +kernel
  obtain ⟨e, he, hrun⟩ := (Option.any_eq_true _ _).1 hrun
  obtain ⟨span, hscript⟩ := Script.exists_of_expr? he
  obtain ⟨hstandIn, hquiet, hplain, hprinted⟩ := of_decide_eq_true hrun
  have harises : c.Arises := Lineage.arises_afterGlobals (S := .start) .refl (.inl rfl) .standard _
  have hexpr : Checking.expr e c = (((Checking.expr e c).1.1, false), (Checking.expr e c).2) :=
    Prod.ext (Prod.ext rfl hstandIn) rfl
  obtain ⟨hnamed, hlegible, hkeeps⟩ := printing_keeps_expression
  have hcontains : (Node.script ⟨[.expr e], span⟩).Contains (.expr e) :=
    .head (b := .stmt (.expr e)) List.mem_cons_self (.single List.mem_cons_self)
  have hread := (hkeeps c _ e _ false (hnamed c harises) (hlegible _ _ _ e hscript hcontains) hexpr hquiet
    fun text htext => List.all_eq_true.1 (hplain _ htext)).2 "shell"
  have hread := hread.2 fun herror => Bool.false_ne_true (hplain _ herror)
  rw [hprinted] at hread
  exact ⟨e, _, _, span, harises, hscript, hexpr, hquiet, hplain, hprinted, hread⟩

/-- The variable has no type, since there is no `y`. Then nothing is reported about the sum, and what is
printed of it has no tokens. -/
theorem failed_operand_is_not_read_back :
    let c := Lineage.afterGlobals .standard .initial [] (Script.statements "var x = y;" "test.sc")
    ∃ e b c' span, c.Arises ∧ Script.ofSource "x + 1" "test.sc" = .ok ⟨[.expr e], span⟩ ∧
      Checking.expr e c = ((b, false), c') ∧ c'.diagnostics = c.diagnostics ∧
      (∀ text, .literal (.text text) ∉ b.parts) ∧
      ¬ ∃ tokens, Token.tokenize (b.render c'.symbols) "test.sc" = .ok tokens := by
  intro c
  have hrun : ((Script.ofSource "x + 1" "test.sc").toOption.bind Script.expr?).any (fun e =>
      let r := Checking.expr e c
      decide (r.1.2 = false ∧ r.2.diagnostics = c.diagnostics ∧ (∀ p ∈ r.1.1.parts, p.isNoText) ∧
        (Token.tokenize (r.1.1.render r.2.symbols) "test.sc").toBool = false)) = true := by decide +kernel
  obtain ⟨e, he, hrun⟩ := (Option.any_eq_true _ _).1 hrun
  obtain ⟨span, hscript⟩ := Script.exists_of_expr? he
  obtain ⟨hstandIn, hquiet, hnoText, htokens⟩ := of_decide_eq_true hrun
  have harises : c.Arises := Lineage.arises_afterGlobals (S := .start) .refl (.inl rfl) .standard _
  refine ⟨e, _, _, span, harises, hscript, Prod.ext (Prod.ext rfl hstandIn) rfl, hquiet, ?_, ?_⟩
  · exact fun text htext => Bool.false_ne_true (hnoText _ htext)
  · rintro ⟨tokens, htokenize⟩
    rw [htokenize] at htokens
    cases htokens

end Scripting
