import Scripting.Proofs.Run.Fuel
import Scripting.Proofs.Symbol.Renumbering
import Scripting.Proofs.Typed.Correspondence

/-!
# Running related code

Code that differs in its handles only does the same, if the handles stand for the same symbols: the two
runs stay in parallel, with the same values under different handles, the same calls to the host, and the
same end. This holds step by step, for every amount of fuel.
-/

namespace Scripting

variable {σ α β γ δ : Type} {ρ : Renumbering}

/-! ## Stores -/

/-- The new numbers of variables are in the same order. -/
def Renumbering.Increasing (ρ : Renumbering) : Prop :=
  ∀ x y : VarId, x.index < y.index → (ρ.vars x).index < (ρ.vars y).index

namespace Renumbering.Increasing

theorem lt_iff (h : ρ.Increasing) {x y : VarId} :
    (ρ.vars x).index < (ρ.vars y).index ↔ x.index < y.index := by
  refine ⟨fun hlt => ?_, h x y⟩
  by_contra hle
  rcases Nat.lt_or_eq_of_le (Nat.le_of_not_lt hle) with hgt | heq
  · exact absurd (h y x hgt) (Nat.lt_asymm hlt)
  · obtain rfl : x = y := by
      cases x
      cases y
      exact congrArg VarId.mk heq.symm
    exact Nat.lt_irrefl _ hlt

theorem eq_iff (h : ρ.Increasing) {x y : VarId} : ρ.vars x = ρ.vars y ↔ x = y := by
  refine ⟨fun heq => ?_, congrArg ρ.vars⟩
  have hxy : ¬ x.index < y.index := fun hlt => Nat.ne_of_lt (h x y hlt) (congrArg VarId.index heq)
  have hyx : ¬ y.index < x.index := fun hlt => Nat.ne_of_lt (h y x hlt) (congrArg VarId.index heq.symm)
  cases x
  cases y
  exact congrArg VarId.mk (Nat.le_antisymm (Nat.le_of_not_lt hyx) (Nat.le_of_not_lt hxy))

end Renumbering.Increasing

/-- The same values under the new handles. -/
def Store.Renumbered (ρ : Renumbering) (s s' : Store) : Prop :=
  s'.entries = s.entries.map fun e => (ρ.vars e.1, e.2)

namespace Store.Renumbered

variable {s s' : Store}

theorem empty : Store.Renumbered ρ .empty .empty := rfl

theorem get? (h : s.Renumbered ρ s') (hρ : ρ.Increasing) (x : VarId) :
    s'.get? (ρ.vars x) = s.get? x := by
  unfold Store.get?
  rw [h]
  induction s.entries with
  | nil => rfl
  | cons e es ih =>
    obtain ⟨y, v⟩ := e
    rw [List.map_cons, List.lookup_cons, List.lookup_cons, ih]
    have hbeq : (ρ.vars x == ρ.vars y) = (x == y) := by
      rw [Bool.eq_iff_iff, beq_iff_eq, beq_iff_eq]
      exact hρ.eq_iff
    rw [hbeq]

theorem insert (h : s.Renumbered ρ s') (hρ : ρ.Increasing) (x : VarId) (v : Value) :
    (s.insert x v).Renumbered ρ (s'.insert (ρ.vars x) v) := by
  have hput : ∀ l : List (VarId × Value), put (ρ.vars x) v (l.map fun e => (ρ.vars e.1, e.2)) =
      (put x v l).map fun e => (ρ.vars e.1, e.2) := by
    intro l
    induction l with
    | nil => rfl
    | cons e l ih =>
      obtain ⟨y, w⟩ := e
      rw [List.map_cons]
      unfold put
      simp only [hρ.lt_iff, hρ.eq_iff]
      split
      · rfl
      · split
        · rfl
        · rw [List.map_cons, ih]
  exact (congrArg (put (ρ.vars x) v) h).trans (hput s.entries)

theorem ofList (hρ : ρ.Increasing) (targets : List VarId) (vs : List Value) :
    (Store.ofList (targets.zip vs)).Renumbered ρ (Store.ofList ((targets.map ρ.vars).zip vs)) := by
  have hfold : ∀ (entries : List (VarId × Value)) (s s' : Store), s.Renumbered ρ s' →
      (entries.foldl (fun s e => s.insert e.1 e.2) s).Renumbered ρ
        ((entries.map fun e => (ρ.vars e.1, e.2)).foldl (fun s e => s.insert e.1 e.2) s') := by
    intro entries
    induction entries with
    | nil => exact fun _ _ h => h
    | cons e entries ih => exact fun s s' h => ih _ _ (h.insert hρ e.1 e.2)
  have hzip : (targets.map ρ.vars).zip vs = (targets.zip vs).map fun e => (ρ.vars e.1, e.2) := by
    rw [List.zip_map_left]
    rfl
  unfold Store.ofList
  rw [hzip]
  exact hfold _ _ _ empty

end Store.Renumbered

theorem Store.renumbered_identity {s s' : Store} : s.Renumbered .identity s' ↔ s' = s := by
  have hmap : s.entries.map (fun e => (Renumbering.identity.vars e.1, e.2)) = s.entries := List.map_id' _
  unfold Store.Renumbered
  rw [hmap]
  cases s
  cases s'
  exact (Store.mk.injEq ..).to_iff.symm

/-! ## Parallel runs -/

/-- The machines hold the same, under different handles. -/
structure Machine.Renumbered (ρ : Renumbering) (m m' : Machine σ) : Prop where
  globals : m.globals.Renumbered ρ m'.globals
  frames : List.Forall₂ (Store.Renumbered ρ) m.frames m'.frames
  last? : m'.last? = m.last?
  host : m'.host = m.host

theorem Machine.renumbered_identity {m m' : Machine σ} : m.Renumbered .identity m' ↔ m' = m := by
  have hsame : ∀ s : Store, s.Renumbered .identity s := fun _ => Store.renumbered_identity.2 rfl
  constructor
  · intro h
    have hframes : List.Forall₂ Eq m'.frames m.frames :=
      (h.frames.imp fun _ _ hs => Store.renumbered_identity.1 hs).flip
    rw [List.forall₂_eq_eq_eq] at hframes
    have hglobals := Store.renumbered_identity.1 h.globals
    cases m
    cases m'
    exact (Machine.mk.injEq ..).to_iff.2 ⟨hglobals, hframes, h.last?, h.host⟩
  · rintro rfl
    exact ⟨hsame _, List.forall₂_same.2 fun s _ => hsame s, rfl, rfl⟩

namespace Run

/-- Results related by `Q`, or the same reason to stop, on machines that hold the same. -/
inductive SameEnd (ρ : Renumbering) (Q : α → β → Prop) : Result σ α → Result σ β → Prop
  | ok {a b m m'} (hm : m.Renumbered ρ m') (hQ : Q a b) : SameEnd ρ Q (.ok a m) (.ok b m')
  | error {m m'} (hm : m.Renumbered ρ m') (e) : SameEnd ρ Q (.error e m) (.error e m')

/-- From machines that hold the same, the runs end the same way. -/
def Parallel (ρ : Renumbering) (Q : α → β → Prop) (x : Run σ α) (y : Run σ β) : Prop :=
  ∀ m m', m.Renumbered ρ m' → SameEnd ρ Q (x m) (y m')

variable {Q : α → β → Prop} {P : γ → δ → Prop}

theorem parallel_pure {a : α} {b : β} (h : Q a b) : Parallel ρ Q (pure a : Run σ α) (pure b) :=
  fun _ _ hm => .ok hm h

theorem parallel_throw (e : Halt) : Parallel ρ Q (throw e : Run σ α) (throw e) :=
  fun _ _ hm => .error hm e

theorem parallel_fault (f : Fault) : Parallel ρ Q (fault f : Run σ α) (fault f) := parallel_throw _

theorem parallel_ofExcept (r : Except Halt α) : Parallel ρ Eq (ofExcept r : Run σ α) (ofExcept r) := by
  cases r with
  | ok a => exact parallel_pure rfl
  | error e => exact parallel_throw e

theorem Parallel.bind {x : Run σ α} {y : Run σ β} {f : α → Run σ γ} {g : β → Run σ δ}
    (h : Parallel ρ Q x y) (hf : ∀ a b, Q a b → Parallel ρ P (f a) (g b)) :
    Parallel ρ P (x >>= f) (y >>= g) := by
  intro m m' hm
  rw [bind_apply, bind_apply]
  generalize x m = r, y m' = r', h m m' hm = hr
  cases hr with
  | ok hm₁ hQ => exact hf _ _ hQ _ _ hm₁
  | error hm₁ e => exact .error hm₁ e

/-- Runs with the same result, followed by what depends on it. -/
theorem Parallel.then {x y : Run σ α} {f : α → Run σ γ} {g : α → Run σ δ} (h : Parallel ρ Eq x y)
    (hf : ∀ a, Parallel ρ P (f a) (g a)) : Parallel ρ P (x >>= f) (y >>= g) := by
  refine h.bind fun a b hab => ?_
  subst hab
  exact hf a

theorem Parallel.required {x y : Run σ (Option Value)} (h : Parallel ρ Eq x y) :
    Parallel ρ Eq (required x) (required y) := by
  refine h.then fun v? => ?_
  cases v? with
  | none => exact parallel_fault _
  | some v => exact parallel_pure rfl

theorem parallel_setLast (v? : Option Value) : Parallel ρ Eq (setLast v? : Run σ Unit) (setLast v?) :=
  fun _ _ hm => .ok { hm with last? := rfl } rfl

theorem Parallel.inFrame {x : Run σ α} {y : Run σ β} (h : Parallel ρ Q x y) {frame frame' : Store}
    (hframe : frame.Renumbered ρ frame') : Parallel ρ Q (inFrame frame x) (inFrame frame' y) := by
  intro m m' hm
  have hentered : ({ m with frames := frame :: m.frames } : Machine σ).Renumbered ρ
      { m' with frames := frame' :: m'.frames } := { hm with frames := .cons hframe hm.frames }
  have htail : ∀ {fs fs' : List Store}, List.Forall₂ (Store.Renumbered ρ) fs fs' →
      List.Forall₂ (Store.Renumbered ρ) fs.tail fs'.tail := by
    intro fs fs' hfs
    cases hfs with
    | nil => exact .nil
    | cons _ hrest => exact hrest
  unfold Run.inFrame
  generalize x _ = r, y _ = r', h _ _ hentered = hr
  cases hr with
  | ok hm₁ hQ => exact .ok ⟨hm₁.globals, htail hm₁.frames, hm₁.last?, hm₁.host⟩ hQ
  | error hm₁ e =>
    refine .error ?_ e
    exact ⟨hm₁.globals, htail hm₁.frames, hm₁.last?, hm₁.host⟩

end Run

/-- The functions of the bodies correspond, and so do the handles in their code. -/
inductive Body.Related (R : Typed.Correspondence) : Body → Body → Prop
  | flat {code code'} (h : Typed.Code.Related R Eq code code') : Related R (.flat code) (.flat code')

/-- Settings in which corresponding handles stand for the same symbols, with the same bodies. -/
structure Setting.Related (ρ : Renumbering) (R : Typed.Correspondence) (w w' : Setting σ) : Prop where
  increasing : ρ.Increasing
  host : w'.host = w.host
  vars : ∀ {x x' t}, R.vars x x' t →
    x' = ρ.vars x ∧ w'.symbols.variableAt? x' = w.symbols.variableAt? x
  funcs : ∀ {f f' t}, R.funcs f f' t →
    w'.symbols.functionAt? f' = (w.symbols.functionAt? f).map (·.renumber ρ)
  bodies : ∀ {f f' t}, R.funcs f f' t → Option.Rel (Body.Related R) (w.body? f) (w'.body? f')

namespace Setting.Related

variable {R : Typed.Correspondence} {w w' : Setting σ}

theorem lookup (h : Setting.Related ρ R w w') {x x' : VarId} {t : Ty} (hx : R.vars x x' t) :
    Run.Parallel ρ Eq (Run.lookup w x) (Run.lookup w' x') := by
  intro m m' hm
  obtain ⟨rfl, hsymbol⟩ := h.vars hx
  have hframe : (m'.frames.head?.bind (·.get? (ρ.vars x))) = m.frames.head?.bind (·.get? x) := by
    generalize m.frames = frames, m'.frames = frames', hm.frames = hframes
    cases hframes with
    | nil => rfl
    | cons hframe _ => exact hframe.get? h.increasing x
  unfold Run.lookup
  rw [hsymbol]
  cases w.symbols.variableAt? x with
  | none => exact .error hm _
  | some symbol =>
    simp only [Run.bind_apply, Run.get_apply]
    cases symbol.kind with
    | global =>
      simp only [hm.globals.get? h.increasing x]
      cases m.globals.get? x with
      | none => exact .error hm _
      | some v => exact .ok hm rfl
    | local_ | parameter =>
      simp only [hframe]
      cases m.frames.head?.bind (·.get? x) with
      | none => exact .error hm _
      | some v => exact .ok hm rfl

theorem assign (h : Setting.Related ρ R w w') {x x' : VarId} {t : Ty} (hx : R.vars x x' t) (v : Value) :
    Run.Parallel ρ Eq (Run.assign w x v) (Run.assign w' x' v) := by
  intro m m' hm
  obtain ⟨rfl, hsymbol⟩ := h.vars hx
  unfold Run.assign
  rw [hsymbol]
  cases w.symbols.variableAt? x with
  | none => exact .error hm _
  | some symbol =>
    simp only [Run.bind_apply, Run.get_apply]
    cases symbol.kind with
    | global => exact .ok { hm with globals := hm.globals.insert h.increasing x v } rfl
    | local_ | parameter =>
      obtain ⟨globals, frames, last?, host⟩ := m
      obtain ⟨globals', frames', last?', host'⟩ := m'
      obtain ⟨hglobals, hframes, hlast, hhost⟩ := hm
      dsimp only at hframes
      cases hframes with
      | nil => exact .error ⟨hglobals, .nil, hlast, hhost⟩ _
      | cons hframe hrest =>
        exact .ok ⟨hglobals, .cons (hframe.insert h.increasing x v) hrest, hlast, hhost⟩ rfl

theorem builtin (h : Setting.Related ρ R w w') (b : Builtin) (vs : List Value) :
    Run.Parallel ρ Eq (Run.builtin w b vs) (Run.builtin w' b vs) := by
  unfold Run.builtin
  rw [h.host]
  cases b with
  | input =>
    intro m m' hm
    simp only [Run.bind_apply, Run.get_apply, hm.host]
    exact .ok ⟨hm.globals, hm.frames, hm.last?, rfl⟩ rfl
  | print =>
    cases vs with
    | nil => exact Run.parallel_fault _
    | cons v rest =>
      refine (Run.parallel_ofExcept _).then fun s => ?_
      intro m m' hm
      exact .ok ⟨hm.globals, hm.frames, hm.last?, congrArg (w.host.print s) hm.host⟩ rfl
  | random =>
    cases vs with
    | nil => exact Run.parallel_fault _
    | cons v rest =>
      refine (Run.parallel_ofExcept _).then fun max => ?_
      intro m m' hm
      simp only [Run.bind_apply, Run.get_apply, hm.host]
      exact .ok ⟨hm.globals, hm.frames, hm.last?, rfl⟩ rfl

end Setting.Related

/-! ## Expressions -/

/-- Calls of corresponding functions run in parallel. -/
def Calls.Related (ρ : Renumbering) (R : Typed.Correspondence) (call call' : Calls σ) : Prop :=
  ∀ {f f' t}, R.funcs f f' t → ∀ vs, Run.Parallel ρ Eq (call f vs) (call' f' vs)

namespace Typed

variable {R : Correspondence} {w w' : Setting σ} {call call' : Calls σ}

theorem Expr.parallel_evalList {es es' : List Expr} (hlength : es.length = es'.length)
    (hes : ∀ p ∈ es.zip es', Run.Parallel ρ Eq (p.1.eval w call) (p.2.eval w' call')) :
    Run.Parallel ρ Eq (Expr.evalList w call es) (Expr.evalList w' call' es') := by
  induction es generalizing es' with
  | nil =>
    obtain rfl := List.length_eq_zero_iff.1 hlength.symm
    exact Run.parallel_pure rfl
  | cons e es ih =>
    cases es' with
    | nil => cases hlength
    | cons e' es' =>
      obtain ⟨he, hes⟩ := List.forall_mem_cons.1 hes
      rw [Expr.evalList, Expr.evalList]
      refine he.required.then fun v => ?_
      exact (ih (Nat.succ.inj hlength) hes).then fun vs => Run.parallel_pure rfl

/-- Related expressions are evaluated in parallel. -/
theorem Expr.Related.parallel_eval (hw : Setting.Related ρ R w w') (hcall : Calls.Related ρ R call call')
    {e e' : Expr} (h : e.Related R e') : Run.Parallel ρ Eq (e.eval w call) (e'.eval w' call') := by
  induction h with
  | literal v => exact Run.parallel_pure rfl
  | name hx => exact (hw.lookup hx).then fun v => Run.parallel_pure rfl
  | assign hx _ ih =>
    rw [Expr.eval, Expr.eval]
    exact ih.required.then fun v => (hw.assign hx v).then fun _ => Run.parallel_pure rfl
  | compound hx o _ ih =>
    rw [Expr.eval, Expr.eval]
    refine (hw.lookup hx).then fun current => ih.required.then fun v => ?_
    exact (Run.parallel_ofExcept _).then fun v => (hw.assign hx v).then fun _ => Run.parallel_pure rfl
  | unary o _ ih =>
    rw [Expr.eval, Expr.eval]
    exact ih.required.then fun v => (Run.parallel_ofExcept _).then fun v => Run.parallel_pure rfl
  | binary o _ _ ihl ihr =>
    rw [Expr.eval, Expr.eval]
    refine ihl.required.then fun a => (Run.parallel_ofExcept _).then fun v? => ?_
    cases v? with
    | some v => exact Run.parallel_pure rfl
    | none =>
      exact ihr.required.then fun b => (Run.parallel_ofExcept _).then fun v => Run.parallel_pure rfl
  | convert t _ ih =>
    rw [Expr.eval, Expr.eval]
    exact ih.required.then fun v => (Run.parallel_ofExcept _).then fun v => Run.parallel_pure rfl
  | call hf hlength _ ih =>
    rw [Expr.eval, Expr.eval]
    exact (Expr.parallel_evalList hlength ih).then fun vs => hcall hf vs
  | error => exact Run.parallel_fault _

theorem Expr.Related.parallel_holds (hw : Setting.Related ρ R w w') (hcall : Calls.Related ρ R call call')
    {c c' : Expr} (h : c.Related R c') : Run.Parallel ρ Eq (c.holds w call) (c'.holds w' call') :=
  (h.parallel_eval hw hcall).required.then fun _ => Run.parallel_ofExcept _

end Typed

/-! ## Code -/

/-- Labels are the same on one side exactly if they are on the other. -/
def Typed.Label.Paired (L : Label → Label → Prop) : Prop :=
  ∀ {l l' k k'}, L l l' → L k k' → (l = k ↔ l' = k')

theorem Typed.Label.paired_eq : Label.Paired Eq := by
  intro l l' k k' hl hk
  rw [hl, hk]

/-- Control goes to corresponding places. -/
inductive Flow.Related (L : Typed.Label → Typed.Label → Prop) : Flow → Flow → Prop
  | normal : Related L .normal .normal
  | jump {l l'} (hl : L l l') : Related L (.jump l) (.jump l')
  | returned (v?) : Related L (.returned v?) (.returned v?)

namespace Typed

variable {R : Correspondence} {L : Label → Label → Prop} {w w' : Setting σ} {call call' : Calls σ}

theorem Instr.Related.parallel_run (hw : Setting.Related ρ R w w') (hcall : Calls.Related ρ R call call')
    {i i' : Instr} (h : i.Related R L i') :
    Run.Parallel ρ (Flow.Related L) (i.run w call) (i'.run w' call') := by
  cases h with
  | eval he =>
    refine (he.parallel_eval hw hcall).then fun v? => ?_
    exact (Run.parallel_setLast v?).then fun _ => Run.parallel_pure .normal
  | declare hx he =>
    refine (he.parallel_eval hw hcall).required.then fun v => (hw.assign hx v).then fun _ => ?_
    exact (Run.parallel_setLast _).then fun _ => Run.parallel_pure .normal
  | label _ => exact Run.parallel_pure .normal
  | jump hl => exact Run.parallel_pure (.jump hl)
  | branch hl hc on =>
    refine (hc.parallel_holds hw hcall).then fun b => ?_
    by_cases hb : b = on
    · simp only [if_pos hb]
      exact Run.parallel_pure (.jump hl)
    · simp only [if_neg hb]
      exact Run.parallel_pure .normal
  | retNone => exact Run.parallel_pure (.returned none)
  | ret he => exact (he.parallel_eval hw hcall).then fun v? => Run.parallel_pure (.returned v?)

theorem Instr.Related.label?_iff (hL : Label.Paired L) {i i' : Instr} (h : i.Related R L i') {l l' : Label}
    (hl : L l l') : i.label? = some l ↔ i'.label? = some l' := by
  cases h with
  | label hk =>
    have hiff := hL hk hl
    simpa [Instr.label?] using hiff
  | _ => simp [Instr.label?]

/-- What stands behind corresponding labels is related. -/
theorem Code.Related.after? (hL : Label.Paired L) {code code' : Code} (h : Code.Related R L code code')
    {l l' : Label} (hl : L l l') :
    Option.Rel (Code.Related R L) (Run.after? Instr.label? l code) (Run.after? Instr.label? l' code') := by
  induction h with
  | nil => exact .none
  | @cons i i' rest rest' hi hrest ih =>
    unfold Run.after?
    generalize Run.after? Instr.label? l rest = found, Run.after? Instr.label? l' rest' = found' at ih
    cases ih with
    | some hfound => exact .some hfound
    | none =>
      by_cases hlabel : i.label? = some l
      · rw [if_pos hlabel, if_pos ((hi.label?_iff hL hl).1 hlabel)]
        exact .some hrest
      · rw [if_neg hlabel, if_neg fun hlabel' => hlabel ((hi.label?_iff hL hl).2 hlabel')]
        exact .none

theorem Code.Related.parallel_steps (hw : Setting.Related ρ R w w') (hcall : Calls.Related ρ R call call')
    (hL : Label.Paired L) {code code' : Code} (h : Code.Related R L code code') (fuel : Nat)
    {suffix suffix' : Code} (hs : Code.Related R L suffix suffix') :
    Run.Parallel ρ (Flow.Related L) (Run.steps Instr.label? (Instr.run w call) code fuel suffix)
      (Run.steps Instr.label? (Instr.run w' call') code' fuel suffix') := by
  induction fuel generalizing suffix suffix' with
  | zero =>
    cases hs with
    | nil => exact Run.parallel_pure .normal
    | cons => exact Run.parallel_throw _
  | succ fuel ih =>
    cases hs with
    | nil => exact Run.parallel_pure .normal
    | cons hi hrest =>
      rw [Run.steps_cons, Run.steps_cons]
      refine (hi.parallel_run hw hcall).bind fun flow flow' hflow => ?_
      cases hflow with
      | normal => exact ih hrest
      | returned v? => exact Run.parallel_pure (.returned v?)
      | @jump l l' hl =>
        have hafter := h.after? hL hl
        unfold Run.resume
        dsimp only
        generalize Run.after? Instr.label? l code = found, Run.after? Instr.label? l' code' = found'
          at hafter
        cases hafter with
        | none => exact Run.parallel_pure (.jump hl)
        | some hfound => exact ih hfound

/-- **Related code runs in parallel.** -/
theorem Code.Related.parallel_run (hw : Setting.Related ρ R w w') (hcall : Calls.Related ρ R call call')
    (hL : Label.Paired L) {code code' : Code} (h : Code.Related R L code code') (fuel : Nat) :
    Run.Parallel ρ (Flow.Related L) (code.run w call fuel) (code'.run w' call' fuel) :=
  h.parallel_steps hw hcall hL fuel h

end Typed

namespace Setting.Related

variable {R : Typed.Correspondence} {w w' : Setting σ}

theorem call (h : Setting.Related ρ R w w') (fuel : Nat) :
    Calls.Related ρ R (Run.call w fuel) (Run.call w' fuel) := by
  induction fuel with
  | zero => exact fun _ _ => Run.parallel_throw _
  | succ fuel ih =>
    intro f f' t hf vs
    unfold Run.call
    rw [h.funcs hf]
    cases w.symbols.functionAt? f with
    | none => exact Run.parallel_fault _
    | some a =>
      dsimp only [Option.map_some]
      rw [show (a.renumber ρ).builtin? = a.builtin? from rfl]
      cases a.builtin? with
      | some b => exact h.builtin b vs
      | none =>
        dsimp only
        generalize w.body? f = body?, w'.body? f' = body?', h.bodies hf = hbodies
        cases hbodies with
        | none =>
          rw [FunctionSymbol.signature_renumber]
          exact Run.parallel_fault _
        | some hbody =>
          cases hbody with
          | flat hcode =>
            have hframe := Store.Renumbered.ofList h.increasing (a.parameters.map (·.target)) vs
            rw [← FunctionSymbol.targets_renumber] at hframe
            refine ((hcode.parallel_run h ih Typed.Label.paired_eq fuel).inFrame hframe).bind
              fun flow flow' hflow => ?_
            cases hflow with
            | normal => exact Run.parallel_pure rfl
            | returned v? => exact Run.parallel_pure rfl
            | jump hl =>
              subst hl
              exact Run.parallel_fault _

theorem main (h : Setting.Related ρ R w w') {code code' : Typed.Code}
    (hcode : Typed.Code.Related R Eq code code') (fuel : Nat) :
    Run.Parallel ρ Eq (Run.main w fuel (.flat code)) (Run.main w' fuel (.flat code')) := by
  refine (hcode.parallel_run h (h.call fuel) Typed.Label.paired_eq fuel).bind fun flow flow' hflow => ?_
  cases hflow with
  | jump hl =>
    subst hl
    exact Run.parallel_fault _
  | normal | returned => exact fun _ _ hm => .ok hm hm.last?.symm

/-- Programs of related code have the same value or the same reason to stop, and leave the same values
and the same host. -/
theorem evaluate (h : Setting.Related ρ R w w') {code code' : Typed.Code}
    (hcode : Typed.Code.Related R Eq code code') (fuel : Nat) {globals globals' : Store}
    (hglobals : globals.Renumbered ρ globals') (host : σ) :
    let outcome := evaluate w fuel (.flat code) globals host
    let outcome' := Scripting.evaluate w' fuel (.flat code') globals' host
    outcome'.result = outcome.result ∧ outcome.globals.Renumbered ρ outcome'.globals ∧
      outcome'.host = outcome.host := by
  have hrun := h.main hcode fuel ⟨globals, [], none, host⟩ ⟨globals', [], none, host⟩
    ⟨hglobals, .nil, rfl, rfl⟩
  unfold Scripting.evaluate
  generalize Run.main w fuel (.flat code) ⟨globals, [], none, host⟩ = r,
    Run.main w' fuel (.flat code') ⟨globals', [], none, host⟩ = r' at hrun
  cases hrun with
  | ok hm hv =>
    subst hv
    exact ⟨rfl, hm.globals, hm.host⟩
  | error hm e => exact ⟨rfl, hm.globals, hm.host⟩

end Setting.Related

end Scripting
