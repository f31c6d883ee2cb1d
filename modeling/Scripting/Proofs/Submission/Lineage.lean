import Scripting.Proofs.Check.Submission
import Scripting.Submission.Run

/-!
# Lineages without diagnostics

What code may use after a lineage is the context of the lineage: the functions of the host and those
that have a body can be called. If nothing is reported about any submission of a lineage, all of its
code is well typed in that context (`Lineage.Sound`), so its newest submission runs safely.
-/

namespace Scripting

variable {t t' : SymbolTable} {l : Lineage} {Γ : Context}

/-! ## The functions of the host -/

/-- The functions of the host have the types that the host expects. -/
def SymbolTable.HostSound (t : SymbolTable) : Prop :=
  ∀ f a, t.functionAt? f = some a → a.builtin? ≠ none → a.Sound t

theorem SymbolTable.HostSound.mono (h : t.HostSound) (hext : t.Extends t') : t'.HostSound :=
  fun f a ha hb => (h f a (hext.builtins f a ha hb) hb).mono hext

theorem SymbolTable.hostSound_initial : initial.HostSound := by
  intro f a ha _
  have hmem : a ∈ initial.funcs := Array.mem_of_getElem? ha
  simp only [initial, addBuiltin, addParameters, addVariable, addFunction, List.push_toArray,
    List.nil_append, List.cons_append, List.mem_toArray, List.mem_cons, List.not_mem_nil, or_false] at hmem
  rcases hmem with rfl | rfl | rfl
  · exact ⟨by decide, List.forall_mem_singleton.2 ⟨rfl, by decide, by decide⟩, by rintro b ⟨⟩; rfl⟩
  · exact ⟨by decide, List.forall_mem_nil _, by rintro b ⟨⟩; rfl⟩
  · exact ⟨by decide, List.forall_mem_singleton.2 ⟨rfl, by decide, by decide⟩, by rintro b ⟨⟩; rfl⟩

/-! ## Contexts of lineages -/

/-- The symbols, where the functions of the host and those with a body in the lineage can be called. -/
def Lineage.context (t : SymbolTable) (l : Lineage) : Context where
  symbols := t
  callable f := (∃ a, t.functionAt? f = some a ∧ a.builtin? ≠ none) ∨ ∃ code, l.body? f = some code

theorem Lineage.context_mono (hext : t.Extends t') (l : Lineage) : (l.context t).Le (l.context t') := by
  refine ⟨hext, fun f hf => ?_⟩
  rcases hf with ⟨a, ha, hb⟩ | hbody
  · exact .inl ⟨a, hext.funcs f a ha, hb⟩
  · exact .inr hbody

theorem Lineage.context_cons (s : Submission) (l : Lineage) :
    (l.context t).Le (Lineage.context t (s :: l)) := by
  refine ⟨.refl t, fun f hf => ?_⟩
  rcases hf with hhost | ⟨code, hcode⟩
  · exact .inl hhost
  · right
    unfold Lineage.body? at hcode ⊢
    rw [List.findSome?_cons]
    cases s.bodies.lookup f with
    | none => exact ⟨code, hcode⟩
    | some code' => exact ⟨code', rfl⟩

theorem Lineage.callable_of_mem {s : Submission} {f : FuncId} {code : Typed.Code}
    (h : (f, code) ∈ s.bodies) : (Lineage.context t (s :: l)).callable f := by
  right
  unfold Lineage.body?
  rw [List.findSome?_cons]
  cases hlookup : s.bodies.lookup f with
  | none =>
    have hne : (f != f) = true := List.lookup_eq_none_iff.1 hlookup _ h
    simp at hne
  | some code' => exact ⟨code', rfl⟩

/-- The code of the submission is well typed, and the names it declares can be used. -/
structure Submission.Sound (Γ : Context) (s : Submission) : Prop where
  vars : ∀ x ∈ s.globals.vars, ∃ v, Γ.Usable none x v
  funcs : ∀ f ∈ s.globals.funcs, ∃ a, Γ.Callable f a
  bodies : ∀ b ∈ s.bodies, ∃ a, Γ.symbols.functionAt? b.1 = some a ∧ Typed.Code.BodyOf Γ a b.2
  main : s.main.WellTyped Γ none
  closed : s.main.Closed

theorem Submission.Sound.mono {s : Submission} (h : s.Sound Γ) {Δ : Context} (hle : Γ.Le Δ) :
    s.Sound Δ := by
  refine ⟨fun x hx => ?_, fun f hf => ?_, fun b hb => ?_, h.main.mono hle, h.closed⟩
  · obtain ⟨v, hv⟩ := h.vars x hx
    exact ⟨v, hv.mono hle⟩
  · obtain ⟨a, ha⟩ := h.funcs f hf
    exact ⟨a, ha.mono hle⟩
  · obtain ⟨a, ha, hbody⟩ := h.bodies b hb
    exact ⟨a, hle.symbols.funcs _ _ ha, hbody.mono hle⟩

/-- Every submission of the lineage is sound in its context. -/
def Lineage.Sound (t : SymbolTable) (l : Lineage) : Prop := ∀ s ∈ l, s.Sound (l.context t)

namespace Lineage.Sound

theorem mono (h : l.Sound t) (hext : t.Extends t') : l.Sound t' :=
  fun s hs => (h s hs).mono (context_mono hext l)

theorem fits_root (ht : t.HostSound) : (Scope.root t).Fits (l.context t) none := by
  have hempty : Scope.empty.Fits (l.context t) none := by
    constructor
    · intro k hk
      obtain rfl := List.mem_singleton.1 hk
      exact nofun
    · intro k hk
      obtain rfl := List.mem_singleton.1 hk
      exact nofun
  unfold Scope.root
  refine Scope.Fits.foldl (fun s hs f hf => ?_) hempty
  obtain ⟨i, -, hi⟩ := List.mem_filterMap.1 hf
  obtain ⟨a, ha, hb⟩ := Option.bind_eq_some_iff.1 hi
  obtain ⟨b, hbuiltin, rfl⟩ := Option.map_eq_some_iff.1 hb
  have hne : a.builtin? ≠ none := by simp [hbuiltin]
  have hcallable : (l.context t).Callable ⟨i⟩ a := ⟨ht _ a ha hne, ha, .inl ⟨a, ha, hne⟩⟩
  exact hs.addFunction hcallable

theorem fits_scope_of_root (hroot : (Scope.root Γ.symbols).Fits Γ none) (h : ∀ s ∈ l, s.Sound Γ) :
    (l.scope Γ.symbols).Fits Γ none := by
  induction l with
  | nil => exact hroot
  | cons s l ih =>
    obtain ⟨hs, hl⟩ := List.forall_mem_cons.1 h
    exact (ih hl).extend hs.vars hs.funcs

theorem fits_scope (h : l.Sound t) (ht : t.HostSound) : (l.scope t).Fits (l.context t) none :=
  fits_scope_of_root (fits_root ht) h

theorem sound_setting {σ : Type} (h : l.Sound t) (host : Host σ) :
    (l.setting host t).Sound (l.context t) := by
  refine ⟨rfl, fun f a hf hb => ?_⟩
  rcases hf.callable with ⟨a', ha', hb'⟩ | ⟨code, hcode⟩
  · cases hf.found.symm.trans ha'
    exact absurd hb hb'
  · obtain ⟨s, hs, hlookup⟩ := List.exists_of_findSome?_eq_some hcode
    obtain ⟨a', ha', hbody⟩ := (h s hs).bodies _ (mem_of_lookup hlookup)
    cases hf.found.symm.trans ha'
    refine ⟨code, ?_, hbody⟩
    show (l.body? f).map Body.flat = _
    rw [hcode]
    rfl

end Lineage.Sound

/-! ## Scripts -/

theorem extends_ofScript (options : Options) (t : SymbolTable) (earlier : Lineage)
    (syntaxErrors : List Diagnostic) (ss : List Surface.Stmt) :
    t.Extends (Submission.ofScript options t earlier syntaxErrors ss).2 :=
  (extends_checkGlobals options t (earlier.scope t) ss).trans (extends_checkBodies options _ _ _)

/-- A script about which nothing is reported makes a sound lineage longer. -/
theorem Lineage.Sound.ofScript {options : Options} {earlier : Lineage} (h : earlier.Sound t)
    (ht : t.HostSound) {syntaxErrors : List Diagnostic} {ss : List Surface.Stmt}
    (hclean : (Submission.ofScript options t earlier syntaxErrors ss).1.diagnostics = []) :
    Lineage.Sound (Submission.ofScript options t earlier syntaxErrors ss).2
      ((Submission.ofScript options t earlier syntaxErrors ss).1 :: earlier) := by
  let g : Globals := (checkGlobals options t (earlier.scope t) ss).1
  let t₁ : SymbolTable := (checkGlobals options t (earlier.scope t) ss).2
  let parent : Scope := g.extend t₁ (earlier.scope t₁)
  let s : Submission := (Submission.ofScript options t earlier syntaxErrors ss).1
  let t₂ : SymbolTable := (Submission.ofScript options t earlier syntaxErrors ss).2
  let Γ : Context := Lineage.context t₂ (s :: earlier)
  have hext₁ : t.Extends t₁ := extends_checkGlobals options t (earlier.scope t) ss
  have hext₂ : t₁.Extends t₂ := extends_checkBodies options parent t₁ g.funcs
  have hle₁ : (earlier.context t₁).Le Γ :=
    (Lineage.context_mono hext₂ earlier).trans (Lineage.context_cons s earlier)
  have hle : (earlier.context t).Le Γ := (Lineage.context_mono hext₁ earlier).trans hle₁
  obtain ⟨hrest, hbodies⟩ := List.append_eq_nil_iff.1 hclean
  obtain ⟨-, hglobals⟩ := List.append_eq_nil_iff.1 hrest
  -- Every function of the script has a body, so it may be called.
  have hwritten := written_checkGlobals options t (earlier.scope t) ss
  have hcallable : ∀ f ∈ g.funcs, Γ.callable f := by
    intro f hf
    have hbody : ∃ code, (f, code) ∈ s.bodies := by
      refine exists_body_checkBodies (fun f hf => ?_) f hf
      obtain ⟨a, d, ha, hd, -⟩ := hwritten f hf
      exact ⟨a, d, ha, hd⟩
    obtain ⟨code, hcode⟩ := hbody
    exact Lineage.callable_of_mem hcode
  have hscope : (earlier.scope t).Fits ⟨t, Γ.callable⟩ none :=
    (h.fits_scope ht).mono ⟨.refl t, hle.callable⟩
  have hg : g.Sound Γ t₁ := sound_checkGlobals rfl hglobals hscope hext₂ hcallable
  have hscope₁ : (earlier.scope t₁).Fits ⟨t₁, Γ.callable⟩ none :=
    ((h.mono hext₁).fits_scope (ht.mono hext₁)).mono ⟨.refl t₁, hle₁.callable⟩
  have hparent : parent.Fits ⟨t₁, Γ.callable⟩ none := hscope₁.extend hg.vars hg.funcs
  have hcode : ∀ b ∈ s.bodies, ∃ a, t₂.functionAt? b.1 = some a ∧ Typed.Code.BodyOf Γ a b.2 := by
    refine bodyOf_checkBodies hparent (fun f hf => ?_) hbodies (.refl t₂)
    obtain ⟨a, d, ha, hd, -⟩ := hwritten f hf
    obtain ⟨a', ha'⟩ := hg.funcs f hf
    cases ha.symm.trans ha'.found
    exact ⟨a, d, ha, hd, ha'.toSound⟩
  have hgrown : Context.Le ⟨t₁, Γ.callable⟩ Γ := ⟨hext₂, fun _ => id⟩
  refine List.forall_mem_cons.2 ⟨⟨fun x hx => ?_, fun f hf => ?_, hcode,
    hg.statements.wellTyped_lower, hg.statements.closed_lower⟩, fun x hx => (h x hx).mono hle⟩
  · obtain ⟨v, hv⟩ := hg.vars x hx
    exact ⟨v, hv.mono hgrown⟩
  · obtain ⟨a, ha⟩ := hg.funcs f hf
    exact ⟨a, ha.mono hgrown⟩

theorem extends_compile (options : Options) (t : SymbolTable) (earlier : Lineage)
    (source file : String) : t.Extends (compile options t earlier source file).2 := by
  unfold compile
  split
  · exact extends_ofScript options t earlier _ _
  · exact extends_ofScript options t earlier _ _

theorem Lineage.Sound.compile {options : Options} {earlier : Lineage} (h : earlier.Sound t)
    (ht : t.HostSound) {source file : String}
    (hclean : (compile options t earlier source file).1.diagnostics = []) :
    Lineage.Sound (compile options t earlier source file).2
      ((compile options t earlier source file).1 :: earlier) := by
  unfold Scripting.compile at hclean ⊢
  split at hclean
  · exact h.ofScript ht hclean
  · exact h.ofScript ht hclean

/-! ## Running -/

theorem Store.FitsGlobals.mono {globals : Store} (h : globals.FitsGlobals t) (hext : t.Extends t') :
    globals.FitsGlobals t' := by
  intro x v hv
  obtain ⟨y, hy, hkind, htype⟩ := h x v hv
  exact ⟨y, hext.vars x y hy, hkind, htype⟩

/-- The newest submission of a sound lineage runs safely. -/
theorem Lineage.Sound.safe_evaluate {s : Submission} {earlier : Lineage}
    (h : Lineage.Sound t (s :: earlier)) {σ : Type} (host : Host σ) (state : σ) (fuel : Nat)
    {globals : Store} (hglobals : globals.FitsGlobals t) :
    (∀ e, (s.evaluate host t earlier .flat fuel globals state).result = .error e → e.Allowed) ∧
      (s.evaluate host t earlier .flat fuel globals state).globals.FitsGlobals t := by
  unfold Submission.evaluate
  split
  case isFalse => exact ⟨nofun, hglobals⟩
  case isTrue =>
    obtain ⟨-, -, -, hmain, hclosed⟩ := h s List.mem_cons_self
    have hsafe : Run.Safe (Lineage.context t (s :: earlier)) none []
        (Run.main (Lineage.setting host t (s :: earlier)) fuel (.flat s.main)) fun _ => True :=
      (h.sound_setting host).safe_main hmain hclosed fuel
    have hrun := hsafe ⟨globals, [], none, state⟩ ⟨hglobals, fun _ => rfl, nofun⟩
    show (∀ e, (evaluate (Lineage.setting host t (s :: earlier)) fuel (.flat s.main) globals
        state).result = .error e → e.Allowed) ∧ Store.FitsGlobals t
      (evaluate (Lineage.setting host t (s :: earlier)) fuel (.flat s.main) globals state).globals
    unfold evaluate
    revert hrun
    cases Run.main (Lineage.setting host t (s :: earlier)) fuel (.flat s.main)
        ⟨globals, [], none, state⟩ with
    | ok v? m => exact fun hrun => ⟨nofun, hrun.1.globals⟩
    | error e m =>
      refine fun hrun => ⟨fun e' he => ?_, hrun.1.globals⟩
      cases he
      exact hrun.2

end Scripting
