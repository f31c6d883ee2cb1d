import Mathlib.Data.List.Forall2
import Scripting.Proofs.Lowering.Labels

/-!
# Trees that differ in their handles

Two trees are related if they are alike but for handles and labels, and their handles and labels
correspond. Lowering keeps them related: it makes new labels in the same places. A handle is compared
together with the type that the tree carries for it, so that relating a tree to itself can also say what
its handles stand for.
-/

namespace Scripting.Typed

theorem forall₂_getLast? {α β : Type} {P : α → β → Prop} {l : List α} {l' : List β}
    (h : List.Forall₂ P l l') : Option.Rel P l.getLast? l'.getLast? := by
  rw [List.getLast?_eq_head?_reverse, List.getLast?_eq_head?_reverse]
  generalize l.reverse = r, l'.reverse = r', List.rel_reverse h = hreverse
  cases hreverse with
  | nil => exact .none
  | cons hlast _ => exact .some hlast

/-- Which handles correspond where a tree carries the given type for them. -/
structure Correspondence where
  vars : VarId → VarId → Ty → Prop
  funcs : FuncId → FuncId → Ty → Prop

/-- What corresponds in one way corresponds in the other. -/
structure Correspondence.Le (R S : Correspondence) : Prop where
  vars : ∀ {x x' t}, R.vars x x' t → S.vars x x' t
  funcs : ∀ {f f' t}, R.funcs f f' t → S.funcs f f' t

/-- Each handle corresponds to itself. -/
def Correspondence.same : Correspondence where
  vars x x' _ := x' = x
  funcs f f' _ := f' = f

/-! ## Expressions -/

/-- The expressions are alike but for their handles, which correspond. -/
inductive Expr.Related (R : Correspondence) : Expr → Expr → Prop
  | literal (v) : Related R (.literal v) (.literal v)
  | name {x x' t} (hx : R.vars x x' t) : Related R (.name x t) (.name x' t)
  | assign {x x' t e e'} (hx : R.vars x x' t) (he : Related R e e') :
    Related R (.assign x e t) (.assign x' e' t)
  | compound {x x' t e e'} (hx : R.vars x x' t) (o) (he : Related R e e') :
    Related R (.compound x o e t) (.compound x' o e' t)
  | unary (o) {e e'} (he : Related R e e') : Related R (.unary o e) (.unary o e')
  | binary (o) {l l' r r'} (hl : Related R l l') (hr : Related R r r') :
    Related R (.binary l o r) (.binary l' o r')
  | convert (t) {e e'} (he : Related R e e') : Related R (.convert t e) (.convert t e')
  | call {f f' t es es'} (hf : R.funcs f f' t) (hlength : es.length = es'.length)
    (hes : ∀ p ∈ es.zip es', Related R p.1 p.2) : Related R (.call f es t) (.call f' es' t)
  | error : Related R .error .error

namespace Expr.Related

variable {R S : Correspondence} {e e' : Expr}

theorem of_forall₂ {f f' : FuncId} {t : Ty} {es es' : List Expr} (hf : R.funcs f f' t)
    (hes : List.Forall₂ (Related R) es es') : Related R (.call f es t) (.call f' es' t) :=
  .call hf hes.length_eq fun _ hp => (List.forall₂_iff_zip.1 hes).2 hp

theorem mono (h : Related R e e') (hle : R.Le S) : Related S e e' := by
  induction h with
  | literal v => exact .literal v
  | name hx => exact .name (hle.vars hx)
  | assign hx _ ih => exact .assign (hle.vars hx) ih
  | compound hx o _ ih => exact .compound (hle.vars hx) o ih
  | unary o _ ih => exact .unary o ih
  | binary o _ _ ihl ihr => exact .binary o ihl ihr
  | convert t _ ih => exact .convert t ih
  | call hf hlength _ ih => exact .call (hle.funcs hf) hlength ih
  | error => exact .error

theorem type_eq (h : Related R e e') : e'.type = e.type := by
  cases h <;> rfl

theorem constant?_eq (h : Related R e e') : e'.constant? = e.constant? := by
  cases h <;> rfl

theorem negate (h : Related R e e') : Related R e.negate e'.negate := by
  unfold Expr.negate
  rw [h.constant?_eq]
  cases e.constant? with
  | some b => exact .literal _
  | none => exact .unary _ h

theorem lower (h : Related R e e') : Related R e.lower e'.lower := by
  induction h with
  | literal v => exact .literal v
  | name hx => exact .name hx
  | assign hx _ ih => exact .assign hx ih
  | compound hx o _ ih => exact .assign hx (.binary o (.name hx) ih)
  | unary o _ ih => exact .unary o ih
  | binary o _ _ ihl ihr => exact .binary o ihl ihr
  | convert t _ ih => exact .convert t ih
  | @call f f' t es es' hf hlength _ ih =>
    have hlower : ∀ (f : FuncId) (es : List Expr), (Expr.call f es t).lower = .call f (es.map Expr.lower) t := by
      intro f es
      unfold Expr.lower
      rw [Expr.mapNodes, Expr.mapNodesList_eq_map]
      rfl
    rw [hlower, hlower]
    refine .call hf (by simpa using hlength) fun p hp => ?_
    rw [List.zip_map] at hp
    obtain ⟨q, hq, rfl⟩ := List.mem_map.1 hp
    exact ih q hq
  | error => exact .error

theorem same (e : Expr) : Related .same e e := by
  induction e with
  | literal v => exact .literal v
  | name x t => exact .name rfl
  | assign x e t ih => exact .assign rfl ih
  | compound x o e t ih => exact .compound rfl o ih
  | unary o e ih => exact .unary o ih
  | binary l o r ihl ihr => exact .binary o ihl ihr
  | convert t e ih => exact .convert t ih
  | call f es t ih => exact .of_forall₂ rfl (List.forall₂_same.2 ih)
  | error => exact .error

end Expr.Related

/-! ## Instructions and code -/

/-- The instructions are alike but for handles and labels, which correspond. -/
inductive Instr.Related (R : Correspondence) (L : Label → Label → Prop) : Instr → Instr → Prop
  | eval {e e'} (he : e.Related R e') : Related R L (.eval e) (.eval e')
  | declare {x x' t e e'} (hx : R.vars x x' t) (he : e.Related R e') :
    Related R L (.declare x e) (.declare x' e')
  | label {l l'} (hl : L l l') : Related R L (.label l) (.label l')
  | jump {l l'} (hl : L l l') : Related R L (.jump l) (.jump l')
  | branch {l l' c c'} (hl : L l l') (hc : c.Related R c') (on) :
    Related R L (.branch l c on) (.branch l' c' on)
  | retNone : Related R L (.ret none) (.ret none)
  | ret {e e'} (he : e.Related R e') : Related R L (.ret (some e)) (.ret (some e'))

/-- The code is alike but for handles and labels, which correspond. -/
abbrev Code.Related (R : Correspondence) (L : Label → Label → Prop) : Code → Code → Prop :=
  List.Forall₂ (Instr.Related R L)

variable {R S : Correspondence} {L : Label → Label → Prop}

theorem Instr.Related.mono {i i' : Instr} (h : i.Related R L i') (hle : R.Le S) : i.Related S L i' := by
  cases h with
  | eval he => exact .eval (he.mono hle)
  | declare hx he => exact .declare (hle.vars hx) (he.mono hle)
  | label hl => exact .label hl
  | jump hl => exact .jump hl
  | branch hl hc on => exact .branch hl (hc.mono hle) on
  | retNone => exact .retNone
  | ret he => exact .ret (he.mono hle)

theorem Code.Related.mono {code code' : Code} (h : Code.Related R L code code') (hle : R.Le S) :
    Code.Related S L code code' :=
  h.imp fun _ _ hi => hi.mono hle

theorem Code.related_same (code : Code) : Code.Related .same Eq code code := by
  refine List.forall₂_same.2 fun i _ => ?_
  cases i with
  | eval e => exact .eval (.same e)
  | declare x e => exact .declare (t := .error) rfl (.same e)
  | label l => exact .label rfl
  | jump l => exact .jump rfl
  | branch l c on => exact .branch rfl (.same c) on
  | ret e? =>
    cases e? with
    | none => exact .retNone
    | some e => exact .ret (.same e)

theorem Code.related_append {a b a' b' : Code} (h : Code.Related R L a a')
    (h' : Code.Related R L b b') : Code.Related R L (a ++ b) (a' ++ b') :=
  List.rel_append h h'

theorem Code.related_branchOn {l l' : Label} (hl : L l l') {c c' : Expr} (hc : c.Related R c')
    (on : Bool) : Code.Related R L (branchOn l c on) (branchOn l' c' on) := by
  unfold branchOn
  rw [hc.constant?_eq]
  cases c.constant? with
  | some b =>
    dsimp only
    split
    · exact .cons (.jump hl) .nil
    · exact .nil
  | none => exact .cons (.branch hl hc on) .nil

theorem Instr.Related.lower {i i' : Instr} (h : i.Related R L i') :
    Code.Related R L i.lower i'.lower := by
  cases h with
  | eval he => exact .cons (.eval he.lower) .nil
  | declare hx he => exact .cons (.declare hx he.lower) .nil
  | label hl => exact .cons (.label hl) .nil
  | jump hl => exact .cons (.jump hl) .nil
  | branch hl hc on => exact Code.related_branchOn hl hc.lower on
  | retNone => exact .cons .retNone .nil
  | ret he => exact .cons (.ret he.lower) .nil

/-! ## Statements -/

/-- The statements are alike but for handles and labels, which correspond. -/
inductive Stmt.Related (R : Correspondence) (L : Label → Label → Prop) : Stmt → Stmt → Prop
  | instr {i i'} (hi : i.Related R L i') : Related R L (.instr i) (.instr i')
  | nil : Related R L (.block []) (.block [])
  | cons {s s' ss ss'} (hs : Related R L s s') (hss : Related R L (.block ss) (.block ss')) :
    Related R L (.block (s :: ss)) (.block (s' :: ss'))
  | ifThen {c c' s s'} (hc : c.Related R c') (hs : Related R L s s') :
    Related R L (.ifThen c s) (.ifThen c' s')
  | ifElse {c c' s s' t t'} (hc : c.Related R c') (hs : Related R L s s') (ht : Related R L t t') :
    Related R L (.ifElse c s t) (.ifElse c' s' t')
  | whileLoop {c c' s s' x x' y y'} (hc : c.Related R c') (hs : Related R L s s') (hx : L x x')
    (hy : L y y') : Related R L (.whileLoop c s x y) (.whileLoop c' s' x' y')
  | doWhile {c c' s s' x x' y y'} (hs : Related R L s s') (hc : c.Related R c') (hx : L x x')
    (hy : L y y') : Related R L (.doWhile s c x y) (.doWhile s' c' x' y')
  | forLoop {i i' c c' n n' s s' x x' y y'} (hi : Related R L i i') (hc : c.Related R c')
    (hn : n.Related R n') (hs : Related R L s s') (hx : L x x') (hy : L y y') :
    Related R L (.forLoop i c n s x y) (.forLoop i' c' n' s' x' y')

namespace Stmt.Related

theorem error : Stmt.Related R L .error .error := .instr (.eval .error)

theorem mono {s s' : Stmt} (h : s.Related R L s') (hle : R.Le S) : s.Related S L s' := by
  induction h with
  | instr hi => exact .instr (hi.mono hle)
  | nil => exact .nil
  | cons _ _ ihs ihss => exact .cons ihs ihss
  | ifThen hc _ ih => exact .ifThen (hc.mono hle) ih
  | ifElse hc _ _ ihs iht => exact .ifElse (hc.mono hle) ihs iht
  | whileLoop hc _ hx hy ih => exact .whileLoop (hc.mono hle) ih hx hy
  | doWhile _ hc hx hy ih => exact .doWhile ih (hc.mono hle) hx hy
  | forLoop _ hc hn _ hx hy ihi ihs => exact .forLoop ihi (hc.mono hle) (hn.mono hle) ihs hx hy

/-- Lowering related statements gives related code, if the labels it makes correspond: those of the
second have numbers greater by `d`. -/
theorem lowered {d : Nat} (hL : ∀ n, L (.numbered "Label" n) (.numbered "Label" (n + d))) {s s' : Stmt}
    (h : s.Related R L s') (k : Nat) :
    (s'.lowered (k + d)).2 = (s.lowered k).2 + d ∧
      Code.Related R L (s.lowered k).1 (s'.lowered (k + d)).1 := by
  have hL' : ∀ n m, m = n + d → L (.numbered "Label" n) (.numbered "Label" m) := by
    rintro n _ rfl
    exact hL n
  induction h generalizing k with
  | instr hi => exact ⟨rfl, hi.lower⟩
  | nil => exact ⟨rfl, .nil⟩
  | @cons s s' ss ss' _ _ ihs ihss =>
    obtain ⟨hcount, hfirst⟩ := ihs k
    obtain ⟨hcount', hrest⟩ := ihss (s.lowered k).2
    rw [← hcount] at hcount' hrest
    rw [lowered_cons, lowered_cons]
    exact ⟨hcount', Code.related_append hfirst hrest⟩
  | ifThen hc _ ih =>
    obtain ⟨hcount, hbody⟩ := ih (k + 1)
    rw [Nat.add_right_comm] at hcount hbody
    rw [lowered_ifThen, lowered_ifThen]
    have hdone := hL' (k + 1) (k + d + 1) (by omega)
    exact ⟨hcount, Code.related_append (Code.related_append (Code.related_branchOn hdone hc.lower false)
      hbody) (.cons (.label hdone) .nil)⟩
  | @ifElse c c' s s' t t' hc _ _ ihs iht =>
    obtain ⟨hcount, hbody⟩ := ihs (k + 2)
    rw [Nat.add_right_comm] at hcount hbody
    obtain ⟨hcount', hother⟩ := iht (s.lowered (k + 2)).2
    rw [← hcount] at hcount' hother
    rw [lowered_ifElse, lowered_ifElse]
    have hthen := hL' (k + 1) (k + d + 1) (by omega)
    have hdone := hL' (k + 2) (k + d + 2) (by omega)
    refine ⟨hcount', Code.related_append (Code.related_append (Code.related_append
      (Code.related_append (Code.related_branchOn hthen hc.lower false) hbody)
      (.cons (.jump hdone) (.cons (.label hthen) .nil))) hother) (.cons (.label hdone) .nil)⟩
  | whileLoop hc _ hx hy ih =>
    obtain ⟨hcount, hbody⟩ := ih k
    rw [lowered_whileLoop, lowered_whileLoop]
    exact ⟨hcount, Code.related_append (Code.related_append (Code.related_append
      (.cons (.label hy) .nil) (Code.related_branchOn hx hc.lower false)) hbody)
      (.cons (.jump hy) (.cons (.label hx) .nil))⟩
  | doWhile _ hc hx hy ih =>
    obtain ⟨hcount, hbody⟩ := ih (k + 1)
    rw [Nat.add_right_comm] at hcount hbody
    rw [lowered_doWhile, lowered_doWhile]
    have hagain := hL' (k + 1) (k + d + 1) (by omega)
    exact ⟨hcount, Code.related_append (Code.related_append (Code.related_append (Code.related_append
      (.cons (.label hagain) .nil) hbody) (.cons (.label hy) .nil))
      (Code.related_branchOn hagain hc.lower true)) (.cons (.label hx) .nil)⟩
  | @forLoop i i' c c' n n' s s' x x' y y' _ hc hn _ hx hy ihi ihs =>
    obtain ⟨hcount, hfirst⟩ := ihi (k + 1)
    rw [Nat.add_right_comm] at hcount hfirst
    obtain ⟨hcount', hbody⟩ := ihs (i.lowered (k + 1)).2
    rw [← hcount] at hcount' hbody
    rw [lowered_forLoop, lowered_forLoop]
    have hagain := hL' (k + 1) (k + d + 1) (by omega)
    refine ⟨hcount', Code.related_append (Code.related_append (Code.related_append
      (Code.related_append hfirst (.cons (.label hagain) .nil))
      (Code.related_branchOn hx hc.lower false)) hbody) ?_⟩
    exact .cons (.label hy) (.cons (.eval hn.lower) (.cons (.jump hagain) (.cons (.label hx) .nil)))

/-- With the same labels, related statements have related code. -/
theorem lower {s s' : Stmt} (h : s.Related R Eq s') : Code.Related R Eq s.lower s'.lower :=
  (h.lowered (d := 0) (fun _ => rfl) 0).2

theorem lowerBody {s s' : Stmt} (h : s.Related R Eq s') (returns : Ty) :
    Code.Related R Eq (s.lowerBody returns) (s'.lowerBody returns) := by
  have hlower := h.lower
  have hfalls : Code.fallsThrough s'.lower = Code.fallsThrough s.lower := by
    unfold Code.fallsThrough
    generalize s.lower.getLast? = last, s'.lower.getLast? = last', forall₂_getLast? hlower = hlast
    cases hlast with
    | none => rfl
    | some hi => cases hi <;> rfl
  unfold Stmt.lowerBody
  rw [hfalls]
  split
  · exact Code.related_append hlower (.cons .retNone .nil)
  · exact hlower

end Stmt.Related

end Scripting.Typed
