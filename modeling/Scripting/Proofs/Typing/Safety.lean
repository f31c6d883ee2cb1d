import Scripting.Proofs.Graph.Execution
import Scripting.Proofs.Typing.Operation

/-!
# Well-typed programs run safely

`Run.Safe` is the invariant of runs: from a machine whose variables hold values of their types, a run
gives a machine of that kind again, also when it stops early, and it stops early only in the ways a
well-typed program is allowed to (`Halt.Allowed`), none of which is a fault. Each form of expression and
instruction keeps it, and so does a call, by induction on the fuel (`Run.safe_call`).
-/

namespace Scripting

variable {σ α β : Type} {Γ : Context} {g? : Option FunctionSymbol} {rest : List Store}

/-! ## Machines whose variables hold values of their types -/

/-- The store holds values of global variables only, each of its type. -/
def Store.FitsGlobals (t : SymbolTable) (s : Store) : Prop :=
  ∀ x v, s.get? x = some v → ∃ y, t.variableAt? x = some y ∧ y.kind = .global ∧ v.HasType y.type

/-- The store is the frame of a call of `g`: its values have the types of their variables, and each
parameter has one. -/
structure Store.FitsFrame (t : SymbolTable) (g : FunctionSymbol) (s : Store) : Prop where
  typed : ∀ x v, s.get? x = some v → ∃ y, t.variableAt? x = some y ∧ v.HasType y.type
  parameters : ∀ p ∈ g.parameters, ∃ v, s.get? p.target = some v

/-- The machine runs the body of `g?` on top of the frames `rest`, and its variables hold values of
their types. -/
structure Machine.Fits (Γ : Context) (g? : Option FunctionSymbol) (rest : List Store)
    (m : Machine σ) : Prop where
  globals : m.globals.FitsGlobals Γ.symbols
  global : g? = none → m.frames = rest
  call : ∀ g, g? = some g → ∃ frame, m.frames = frame :: rest ∧ frame.FitsFrame Γ.symbols g

theorem Store.FitsGlobals.insert {t : SymbolTable} {s : Store} (h : s.FitsGlobals t) {x : VarId}
    {y : VariableSymbol} (hy : t.variableAt? x = some y) (hk : y.kind = .global) {v : Value}
    (hv : v.HasType y.type) : (s.insert x v).FitsGlobals t := by
  intro z u hu
  by_cases hz : z = x
  · subst hz
    rw [Store.get?_insert_self] at hu
    cases hu
    exact ⟨y, hy, hk, hv⟩
  · rw [Store.get?_insert_of_ne s hz] at hu
    exact h z u hu

theorem Store.FitsFrame.insert {t : SymbolTable} {g : FunctionSymbol} {s : Store}
    (h : s.FitsFrame t g) {x : VarId} {y : VariableSymbol} (hy : t.variableAt? x = some y) {v : Value}
    (hv : v.HasType y.type) : (s.insert x v).FitsFrame t g := by
  constructor
  · intro z u hu
    by_cases hz : z = x
    · subst hz
      rw [Store.get?_insert_self] at hu
      cases hu
      exact ⟨y, hy, hv⟩
    · rw [Store.get?_insert_of_ne s hz] at hu
      exact h.typed z u hu
  · intro p hp
    by_cases hz : p.target = x
    · exact ⟨v, by rw [hz, Store.get?_insert_self]⟩
    · obtain ⟨u, hu⟩ := h.parameters p hp
      exact ⟨u, by rw [Store.get?_insert_of_ne s hz, hu]⟩

/-- A variable that is not global is looked for in the frame of the call. -/
theorem Machine.Fits.exists_frame {m : Machine σ} (hm : m.Fits Γ g? rest) {x : VarId}
    {s : VariableSymbol} (hx : Γ.Usable g? x s) (hk : s.kind ≠ .global) :
    ∃ g frame, g? = some g ∧ m.frames = frame :: rest ∧ frame.FitsFrame Γ.symbols g := by
  obtain ⟨g, hg⟩ := Option.ne_none_iff_exists'.1 (hx.inCall hk)
  obtain ⟨frame, hframes, hfits⟩ := hm.call g hg
  exact ⟨g, frame, hg, hframes, hfits⟩

namespace Run

/-- From a fitting machine the run gives a fitting machine and a result that satisfies `Q`, or stops in
an allowed way. -/
def Safe (Γ : Context) (g? : Option FunctionSymbol) (rest : List Store) (x : Run σ α)
    (Q : α → Prop) : Prop :=
  ∀ m, m.Fits Γ g? rest →
    match x m with
    | .ok a m' => m'.Fits Γ g? rest ∧ Q a
    | .error e m' => m'.Fits Γ g? rest ∧ e.Allowed

variable {Q : α → Prop} {R : β → Prop}

theorem safe_pure {a : α} (h : Q a) : Safe Γ g? rest (pure a : Run σ α) Q :=
  fun _ hm => ⟨hm, h⟩

theorem safe_throw {e : Halt} (h : e.Allowed) : Safe Γ g? rest (throw e : Run σ α) Q :=
  fun _ hm => ⟨hm, h⟩

theorem Safe.bind {x : Run σ α} {f : α → Run σ β} (h : Safe Γ g? rest x Q)
    (hf : ∀ a, Q a → Safe Γ g? rest (f a) R) : Safe Γ g? rest (x >>= f) R := by
  intro m hm
  have hx := h m hm
  rw [bind_apply]
  revert hx
  cases x m with
  | ok a m₁ => exact fun hx => hf a hx.2 m₁ hx.1
  | error e m₁ => exact id

theorem Safe.required {x : Run σ (Option Value)} {t : Ty} (h : Safe Γ g? rest x t.Admits)
    (ht : t ≠ .void) : Safe Γ g? rest (required x) fun v => v.HasType t := by
  refine h.bind fun v? hv => ?_
  rcases hv with hv | ⟨v, rfl, hv⟩
  · exact absurd hv ht
  · exact safe_pure hv

theorem safe_ofExcept {r : Except Halt Value} {t : Ty} (h : t.Results r) :
    Safe Γ g? rest (ofExcept r : Run σ Value) fun v => v.HasType t := by
  cases h with
  | ok hv => exact safe_pure hv
  | error he => exact safe_throw he

theorem safe_setLast (v? : Option Value) :
    Safe Γ g? rest (setLast v? : Run σ Unit) fun _ => True :=
  fun _ hm => ⟨⟨hm.globals, hm.global, hm.call⟩, trivial⟩

theorem lookup_apply {w : Setting σ} {x : VarId} {s : VariableSymbol}
    (hs : w.symbols.variableAt? x = some s) (m : Machine σ) :
    lookup w x m =
      match if s.kind = .global then m.globals.get? x else m.frames.head?.bind (·.get? x) with
      | some v => .ok v m
      | none => .error (.error (.unassignedVariable s)) m := by
  unfold lookup
  simp only [hs, bind_apply, get_apply]
  cases s.kind with
  | global =>
    rw [if_pos rfl]
    cases m.globals.get? x <;> rfl
  | local_ | parameter =>
    rw [if_neg (by decide)]
    cases m.frames.head?.bind (·.get? x) <;> rfl

theorem safe_lookup {w : Setting σ} (hw : w.symbols = Γ.symbols) {x : VarId} {s : VariableSymbol}
    (hx : Γ.Usable g? x s) : Safe Γ g? rest (lookup w x) fun v => v.HasType s.type := by
  intro m hm
  have hfound : w.symbols.variableAt? x = some s := hw ▸ hx.found
  have htyped : ∀ {y : VariableSymbol} {v : Value}, Γ.symbols.variableAt? x = some y →
      v.HasType y.type → v.HasType s.type := by
    intro y v hy hv
    rw [hx.found] at hy
    cases hy
    exact hv
  rw [lookup_apply hfound]
  by_cases hk : s.kind = .global
  · rw [if_pos hk]
    cases hv : m.globals.get? x with
    | none => exact ⟨hm, by simp [Halt.Allowed, hk]⟩
    | some v =>
      obtain ⟨y, hy, -, hty⟩ := hm.globals x v hv
      exact ⟨hm, htyped hy hty⟩
  · obtain ⟨g, frame, hg, hframes, hfits⟩ := hm.exists_frame hx hk
    rw [if_neg hk, hframes, List.head?_cons, Option.bind_some]
    cases hv : frame.get? x with
    | some v =>
      obtain ⟨y, hy, hty⟩ := hfits.typed x v hv
      exact ⟨hm, htyped hy hty⟩
    | none =>
      refine ⟨hm, fun hparameter => ?_⟩
      obtain ⟨p, hp, rfl⟩ := hx.parameter hparameter g hg
      obtain ⟨v, hv'⟩ := hfits.parameters p hp
      rw [hv] at hv'
      cases hv'

theorem safe_assign {w : Setting σ} (hw : w.symbols = Γ.symbols) {x : VarId} {s : VariableSymbol}
    (hx : Γ.Usable g? x s) {v : Value} (hv : v.HasType s.type) :
    Safe Γ g? rest (assign w x v) fun _ => True := by
  intro m hm
  have hfound : w.symbols.variableAt? x = some s := hw ▸ hx.found
  unfold assign
  simp only [hfound, bind_apply, get_apply]
  by_cases hk : s.kind = .global
  · simp only [hk]
    exact ⟨⟨hm.globals.insert hx.found hk hv, hm.global, hm.call⟩, trivial⟩
  · obtain ⟨g, frame, hg, hframes, hfits⟩ := hm.exists_frame hx hk
    have hfits' := hfits.insert hx.found hv
    have hm' : ({ m with frames := frame.insert x v :: rest } : Machine σ).Fits Γ g? rest := by
      refine ⟨hm.globals, fun h => ?_, fun g' hg' => ⟨_, rfl, ?_⟩⟩
      · rw [hg] at h
        cases h
      · rw [hg] at hg'
        cases hg'
        exact hfits'
    cases hkind : s.kind with
    | global => exact absurd hkind hk
    | local_ =>
      simp only [hframes]
      exact ⟨hm', trivial⟩
    | parameter =>
      simp only [hframes]
      exact ⟨hm', trivial⟩

end Run

/-- Calls of callable functions with values of the right types are safe, wherever they are made. -/
def Calls.Safe (Γ : Context) (call : Calls σ) : Prop :=
  ∀ g? rest f s vs, Γ.Callable f s → List.Forall₂ Value.HasType vs s.types →
    Run.Safe Γ g? rest (call f vs) s.returns.Admits

theorem Ty.admits_some {t : Ty} {v : Value} (h : v.HasType t) : t.Admits (some v) :=
  .inr ⟨v, rfl, h⟩

namespace Typed

variable {w : Setting σ} {call : Calls σ}

/-! ## Expressions -/

theorem Expr.safe_evalList {es : List Expr}
    (h : ∀ e ∈ es, Run.Safe Γ g? rest (e.eval w call) e.type.Admits)
    (hvalue : ∀ e ∈ es, e.type ≠ .void) :
    Run.Safe Γ g? rest (Expr.evalList w call es)
      fun vs => List.Forall₂ Value.HasType vs (es.map Expr.type) := by
  induction es with
  | nil => exact Run.safe_pure .nil
  | cons e es ih =>
    obtain ⟨he, hes⟩ := List.forall_mem_cons.1 h
    obtain ⟨hv, hvs⟩ := List.forall_mem_cons.1 hvalue
    rw [Expr.evalList]
    refine (he.required hv).bind fun v hv => ?_
    refine (ih hes hvs).bind fun vs hvs => ?_
    exact Run.safe_pure (.cons hv hvs)

/-- Evaluating a well-typed expression is safe and gives a value of its type. -/
theorem Expr.WellTyped.safe_eval (hw : w.symbols = Γ.symbols) (hcall : call.Safe Γ) {e : Expr}
    (h : e.WellTyped Γ g?) : Run.Safe Γ g? rest (e.eval w call) e.type.Admits := by
  have hunary : ∀ o ∈ UnaryOp.all, o.operand ≠ .void := by decide
  have hbinary : ∀ o ∈ BinaryOp.all, o.left ≠ .void ∧ o.right ≠ .void := by decide
  induction h with
  | literal v => exact Run.safe_pure (Ty.admits_some (.inr rfl))
  | name hx =>
    rw [Expr.eval]
    exact (Run.safe_lookup hw hx).bind fun v hv => Run.safe_pure (Ty.admits_some hv)
  | @assign x s e hx _ ht ih =>
    rw [Expr.eval]
    refine (ih.required (ht ▸ hx.value.1)).bind fun v hv => ?_
    rw [ht] at hv
    exact (Run.safe_assign hw hx hv).bind fun _ _ => Run.safe_pure (Ty.admits_some hv)
  | @compound x s o e hx _ ho hl hr ht ih =>
    rw [Expr.eval]
    refine (Run.safe_lookup hw hx).bind fun a ha => ?_
    refine (ih.required (hr ▸ (hbinary o ho).2)).bind fun b hb => ?_
    refine (Run.safe_ofExcept (o.results ho (hl ▸ ha) (hr ▸ hb))).bind fun v hv => ?_
    rw [ht] at hv
    exact (Run.safe_assign hw hx hv).bind fun _ _ => Run.safe_pure (Ty.admits_some hv)
  | @unary o e _ ho ht ih =>
    rw [Expr.eval]
    refine (ih.required (ht ▸ hunary o ho)).bind fun v hv => ?_
    refine (Run.safe_ofExcept (o.results ho (ht ▸ hv))).bind fun v hv => ?_
    exact Run.safe_pure (Ty.admits_some hv)
  | @binary l o r _ _ ho htl htr ihl ihr =>
    rw [Expr.eval]
    refine (ihl.required (htl ▸ (hbinary o ho).1)).bind fun a ha => ?_
    obtain ⟨v?, hdecided, hv?⟩ := o.decided?_eq_ok ho (htl ▸ ha)
    rw [hdecided, Run.ofExcept_ok, pure_bind]
    cases v? with
    | some v => exact Run.safe_pure (Ty.admits_some (hv? v rfl))
    | none =>
      refine (ihr.required (htr ▸ (hbinary o ho).2)).bind fun b hb => ?_
      refine (Run.safe_ofExcept (o.results ho (htl ▸ ha) (htr ▸ hb))).bind fun v hv => ?_
      exact Run.safe_pure (Ty.admits_some hv)
  | @convert t e _ hv ht ih =>
    rw [Expr.eval]
    refine (ih.required hv).bind fun v _ => ?_
    refine (Run.safe_ofExcept (v.results_convert ht)).bind fun v hv => ?_
    exact Run.safe_pure (Ty.admits_some hv)
  | @call f s es hf _ ht ih =>
    rw [Expr.eval]
    have hvalue : ∀ e ∈ es, e.type ≠ .void := by
      intro e he
      have hmem : e.type ∈ s.types := ht ▸ List.mem_map_of_mem he
      obtain ⟨p, hp, heq⟩ := List.mem_map.1 hmem
      exact heq ▸ (hf.parameters p hp).2.1
    exact (Expr.safe_evalList ih hvalue).bind fun vs hvs => hcall g? rest f s vs hf (ht ▸ hvs)

theorem Expr.WellTyped.safe_holds (hw : w.symbols = Γ.symbols) (hcall : call.Safe Γ) {c : Expr}
    (h : c.WellTyped Γ g?) (ht : c.type = .boolean) :
    Run.Safe Γ g? rest (c.holds w call) fun _ => True := by
  refine ((h.safe_eval hw hcall).required (ht ▸ nofun)).bind fun v hv => ?_
  rw [ht] at hv
  obtain ⟨b, rfl⟩ := hv.exists_boolean
  exact Run.safe_pure trivial

end Typed

/-! ## Instructions and code -/

/-- If the flow returns, it does so from `g?` and with a value of its type. -/
def Flow.Fits (g? : Option FunctionSymbol) (flow : Flow) : Prop :=
  ∀ v?, flow = .returned v? → ∃ g, g? = some g ∧ g.returns.Admits v?

theorem Run.safe_steps {label? : α → Option Typed.Label} {step : α → Run σ Flow} {list : List α}
    {Q : Flow → Prop} (hnormal : Q .normal) (hstep : ∀ a ∈ list, Run.Safe Γ g? rest (step a) Q)
    (fuel : Nat) {suffix : List α} (hs : suffix ⊆ list) :
    Run.Safe Γ g? rest (Run.steps label? step list fuel suffix) Q := by
  refine Run.steps_rule (S := fun x => Run.Safe Γ g? rest x Q) hnormal (Run.safe_throw trivial)
    (fun _ hflow _ => Run.safe_pure hflow) (fun a ha next hnext => ?_) fuel hs
  exact (hstep a ha).bind hnext

namespace Typed

variable {w : Setting σ} {call : Calls σ}

theorem Instr.WellTyped.safe_run (hw : w.symbols = Γ.symbols) (hcall : call.Safe Γ) {i : Instr}
    (h : i.WellTyped Γ g?) : Run.Safe Γ g? rest (i.run w call) (Flow.Fits g?) := by
  have hstays : ∀ flow, (∀ v?, flow ≠ .returned v?) → Flow.Fits g? flow :=
    fun flow hflow v? hv => absurd hv (hflow v?)
  cases i with
  | eval e =>
    refine (Expr.WellTyped.safe_eval hw hcall h).bind fun v? _ => ?_
    exact (Run.safe_setLast v?).bind fun _ _ => Run.safe_pure (hstays _ nofun)
  | declare x e =>
    obtain ⟨he, s, hx, ht⟩ := h
    refine ((he.safe_eval hw hcall).required (ht ▸ hx.value.1)).bind fun v hv => ?_
    refine (Run.safe_assign hw hx (ht ▸ hv)).bind fun _ _ => ?_
    exact (Run.safe_setLast _).bind fun _ _ => Run.safe_pure (hstays _ nofun)
  | label l => exact Run.safe_pure (hstays _ nofun)
  | jump l => exact Run.safe_pure (hstays _ nofun)
  | branch l c on =>
    refine (h.1.safe_holds hw hcall h.2).bind fun b _ => ?_
    by_cases hb : b = on
    · simp only [if_pos hb]
      exact Run.safe_pure (hstays _ nofun)
    · simp only [if_neg hb]
      exact Run.safe_pure (hstays _ nofun)
  | ret e? =>
    cases e? with
    | none =>
      obtain ⟨g, hg, hvoid⟩ := h
      refine Run.safe_pure fun v? hv => ⟨g, hg, .inl hvoid⟩
    | some e =>
      obtain ⟨he, g, hg, -, ht⟩ := h
      refine (he.safe_eval hw hcall).bind fun v? hv => Run.safe_pure fun u? hu => ?_
      cases hu
      exact ⟨g, hg, ht ▸ hv⟩

theorem Code.WellTyped.safe_run (hw : w.symbols = Γ.symbols) (hcall : call.Safe Γ) {code : Code}
    (h : code.WellTyped Γ g?) (fuel : Nat) :
    Run.Safe Γ g? rest (code.run w call fuel) (Flow.Fits g?) :=
  Run.safe_steps nofun (fun i hi => (h i hi).safe_run hw hcall) fuel (List.Subset.refl code)

/-- The code may serve as the body of the function: it is well typed, jumps nowhere else, and if the
function has a result, returns on every path. -/
structure Code.BodyOf (Γ : Context) (g : FunctionSymbol) (code : Code) : Prop where
  typed : code.WellTyped Γ (some g)
  closed : code.Closed
  returns : g.returns ≠ .void → code.allPathsReturn = true

theorem Code.BodyOf.mono {Δ : Context} {g : FunctionSymbol} {code : Code} (h : code.BodyOf Γ g)
    (hle : Γ.Le Δ) : code.BodyOf Δ g :=
  ⟨h.typed.mono hle, h.closed, h.returns⟩

/-- A body ends with a value of the type of its function. -/
theorem Code.BodyOf.safe_run (hw : w.symbols = Γ.symbols) (hcall : call.Safe Γ) {g : FunctionSymbol}
    {code : Code} (h : code.BodyOf Γ g) (fuel : Nat) :
    Run.Safe Γ (some g) rest (code.run w call fuel) fun flow =>
      flow = .normal ∧ g.returns = .void ∨ ∃ v?, flow = .returned v? ∧ g.returns.Admits v? := by
  intro m hm
  have hrun : Run.Safe Γ (some g) rest (code.run w call fuel) (Flow.Fits (some g)) :=
    h.typed.safe_run hw hcall fuel
  have hsafe := hrun m hm
  clear hrun
  cases hrun : code.run w call fuel m with
  | error e m' =>
    rw [hrun] at hsafe
    exact hsafe
  | ok flow m' =>
    rw [hrun] at hsafe
    obtain ⟨hm', hflow⟩ := hsafe
    refine ⟨hm', ?_⟩
    cases flow with
    | normal =>
      refine .inl ⟨rfl, ?_⟩
      by_contra hvoid
      exact code.not_normal_of_allPathsReturn h.closed (h.returns hvoid) w call fuel m m' hrun
    | returned v? =>
      obtain ⟨g', hg', hv⟩ := hflow v? rfl
      cases hg'
      exact .inr ⟨v?, rfl, hv⟩
    | jump l => exact absurd hrun (h.closed.run_ne_jump w call fuel m m' l)

end Typed

/-! ## Calls -/

theorem Store.mem_of_get?_foldl {entries : List (VarId × Value)} {s : Store} {x : VarId} {v : Value}
    (h : (entries.foldl (fun s e => s.insert e.1 e.2) s).get? x = some v) :
    (x, v) ∈ entries ∨ s.get? x = some v := by
  induction entries generalizing s with
  | nil => exact .inr h
  | cons e entries ih =>
    rcases ih h with h | h
    · exact .inl (List.mem_cons_of_mem e h)
    · by_cases hx : x = e.1
      · subst hx
        rw [Store.get?_insert_self] at h
        cases h
        exact .inl List.mem_cons_self
      · rw [Store.get?_insert_of_ne s hx] at h
        exact .inr h

theorem Store.exists_get?_foldl {entries : List (VarId × Value)} {s : Store} {x : VarId}
    (h : (∃ v, (x, v) ∈ entries) ∨ ∃ v, s.get? x = some v) :
    ∃ v, (entries.foldl (fun s e => s.insert e.1 e.2) s).get? x = some v := by
  induction entries generalizing s with
  | nil =>
    rcases h with ⟨v, hv⟩ | h
    · cases hv
    · exact h
  | cons e entries ih =>
    refine ih ?_
    by_cases hx : x = e.1
    · exact .inr ⟨e.2, by rw [hx, Store.get?_insert_self]⟩
    · rcases h with ⟨v, hv⟩ | ⟨v, hv⟩
      · rcases List.mem_cons.1 hv with rfl | hv
        · exact absurd rfl hx
        · exact .inl ⟨v, hv⟩
      · exact .inr ⟨v, by rw [Store.get?_insert_of_ne s hx, hv]⟩

theorem ParameterSymbol.exists_argument {ps : List ParameterSymbol} {vs : List Value}
    (h : List.Forall₂ Value.HasType vs (ps.map (·.type))) :
    (∀ x v, (x, v) ∈ (ps.map (·.target)).zip vs → ∃ p ∈ ps, p.target = x ∧ v.HasType p.type) ∧
      ∀ p ∈ ps, ∃ v, (p.target, v) ∈ (ps.map (·.target)).zip vs := by
  induction ps generalizing vs with
  | nil => exact ⟨nofun, nofun⟩
  | cons p ps ih =>
    obtain ⟨v, vs, hv, hvs, rfl⟩ := List.forall₂_cons_right_iff.1 h
    obtain ⟨hargument, hparameter⟩ := ih hvs
    constructor
    · intro x u hu
      rcases List.mem_cons.1 hu with hu | hu
      · cases hu
        exact ⟨p, List.mem_cons_self, rfl, hv⟩
      · obtain ⟨q, hq, hx⟩ := hargument x u hu
        exact ⟨q, List.mem_cons_of_mem p hq, hx⟩
    · intro q hq
      rcases List.mem_cons.1 hq with rfl | hq
      · exact ⟨v, List.mem_cons_self⟩
      · obtain ⟨u, hu⟩ := hparameter q hq
        exact ⟨u, List.mem_cons_of_mem _ hu⟩

/-- The frame of a call holds an argument of the right type for each parameter. -/
theorem Context.Callable.fitsFrame {f : FuncId} {s : FunctionSymbol} (h : Γ.Callable f s)
    {vs : List Value} (hvs : List.Forall₂ Value.HasType vs s.types) :
    (Store.ofList ((s.parameters.map (·.target)).zip vs)).FitsFrame Γ.symbols s := by
  obtain ⟨hargument, hparameter⟩ := ParameterSymbol.exists_argument hvs
  constructor
  · intro x v hv
    rcases Store.mem_of_get?_foldl hv with hmem | hnone
    · obtain ⟨p, hp, rfl, hty⟩ := hargument x v hmem
      exact ⟨_, (h.parameters p hp).1, hty⟩
    · cases hnone
  · intro p hp
    exact Store.exists_get?_foldl (.inl (hparameter p hp))

theorem Run.Safe.inFrame {x : Run σ α} {Q : α → Prop} {g : FunctionSymbol} {frame : Store}
    (hframe : frame.FitsFrame Γ.symbols g) (h : ∀ rest, Run.Safe Γ (some g) rest x Q) :
    Run.Safe Γ g? rest (Run.inFrame frame x) Q := by
  intro m hm
  have hcallee : ({ m with frames := frame :: m.frames } : Machine σ).Fits Γ (some g) m.frames := by
    refine ⟨hm.globals, nofun, fun g' hg' => ⟨frame, rfl, ?_⟩⟩
    cases hg'
    exact hframe
  have hback : ∀ m' : Machine σ, m'.Fits Γ (some g) m.frames →
      ({ m' with frames := m'.frames.tail } : Machine σ).Fits Γ g? rest := by
    intro m' hm'
    obtain ⟨frame', hframes, -⟩ := hm'.call g rfl
    have htail : m'.frames.tail = m.frames := by rw [hframes, List.tail_cons]
    exact ⟨hm'.globals, fun hg => htail.trans (hm.global hg), fun g' hg' => htail ▸ hm.call g' hg'⟩
  have hx := h m.frames _ hcallee
  unfold Run.inFrame
  revert hx
  cases x { m with frames := frame :: m.frames } with
  | ok a m' => exact fun hx => ⟨hback m' hx.1, hx.2⟩
  | error e m' => exact fun hx => ⟨hback m' hx.1, hx.2⟩

theorem Run.safe_builtin (w : Setting σ) {s : FunctionSymbol} {b : Builtin}
    (hs : (s.types, s.returns) = b.signature) {vs : List Value}
    (hvs : List.Forall₂ Value.HasType vs s.types) :
    Run.Safe Γ g? rest (Run.builtin w b vs) s.returns.Admits := by
  have hhost : ∀ (m : Machine σ) (host : σ), m.Fits Γ g? rest →
      ({ m with host := host } : Machine σ).Fits Γ g? rest :=
    fun m host hm => ⟨hm.globals, hm.global, hm.call⟩
  obtain ⟨htypes, hreturns⟩ := Prod.mk.inj hs
  rw [htypes] at hvs
  rw [hreturns]
  cases b with
  | input => exact fun m hm => ⟨hhost m _ hm, .inr ⟨_, rfl, .inr rfl⟩⟩
  | print =>
    obtain ⟨v, _, hv, hnil, rfl⟩ := List.forall₂_cons_right_iff.1 hvs
    obtain ⟨text, rfl⟩ := hv.exists_text
    exact fun m hm => ⟨hhost m _ hm, .inl rfl⟩
  | random =>
    obtain ⟨v, _, hv, hnil, rfl⟩ := List.forall₂_cons_right_iff.1 hvs
    obtain ⟨max, rfl⟩ := hv.exists_int
    exact fun m hm => ⟨hhost m _ hm, .inr ⟨_, rfl, .inr rfl⟩⟩

/-- The setting goes by the context: the symbols are the same, and every function that can be called
is one of the host or has a body. -/
structure Setting.Sound (Γ : Context) (w : Setting σ) : Prop where
  symbols : w.symbols = Γ.symbols
  bodies : ∀ f s, Γ.Callable f s → s.builtin? = none →
    ∃ code, w.body? f = some (.flat code) ∧ code.BodyOf Γ s

/-- **Calls are safe**, by induction on the fuel that bounds their depth. -/
theorem Setting.Sound.safe_call {w : Setting σ} (hw : w.Sound Γ) (fuel : Nat) :
    (Run.call w fuel).Safe Γ := by
  induction fuel with
  | zero => exact fun _ _ _ _ _ _ _ => Run.safe_throw trivial
  | succ fuel ih =>
    intro g? rest f s vs hf hvs
    have hfound : w.symbols.functionAt? f = some s := hw.symbols ▸ hf.found
    unfold Run.call
    simp only [hfound]
    cases hb : s.builtin? with
    | some b => exact Run.safe_builtin w (hf.builtin b hb) hvs
    | none =>
      obtain ⟨code, hbody, hcode⟩ := hw.bodies f s hf hb
      simp only [hbody]
      refine (Run.Safe.inFrame (hf.fitsFrame hvs) fun _ =>
        hcode.safe_run hw.symbols ih fuel).bind fun flow hflow => ?_
      rcases hflow with ⟨rfl, hvoid⟩ | ⟨v?, rfl, hv⟩
      · exact Run.safe_pure (.inl hvoid)
      · exact Run.safe_pure hv

/-- Running well-typed global code is safe. -/
theorem Setting.Sound.safe_main {w : Setting σ} (hw : w.Sound Γ) {code : Typed.Code}
    (htyped : code.WellTyped Γ none) (hclosed : code.Closed) (fuel : Nat) :
    Run.Safe Γ none rest (Run.main w fuel (.flat code)) fun _ => True := by
  have hrun : Run.Safe Γ none rest (code.run w (Run.call w fuel) fuel) fun flow =>
      ∀ l, flow ≠ .jump l := by
    intro m hm
    have hsafe := htyped.safe_run hw.symbols (hw.safe_call fuel) fuel m hm
    revert hsafe
    cases hflow : code.run w (Run.call w fuel) fuel m with
    | error e m' => exact id
    | ok flow m' =>
      refine fun hsafe => ⟨hsafe.1, ?_⟩
      rintro l rfl
      exact hclosed.run_ne_jump w _ fuel m m' l hflow
  have hlast : Run.Safe Γ none rest (do return (← get).last? : Run σ (Option Value)) fun _ => True :=
    fun m hm => ⟨hm, trivial⟩
  refine Run.Safe.bind hrun fun flow hflow => ?_
  cases flow with
  | normal => exact hlast
  | returned v? => exact hlast
  | jump l => exact absurd rfl (hflow l)

end Scripting
