import Mathlib.Data.List.Induction
import Mathlib.Data.List.Nodup
import Scripting.Symbol.Scope

/-!
# Scopes and what was declared in them

A scope is told by its history: the declarations that succeeded in each layer that is still open, in the order
they were made (`Scope.History`). A history keeps no names apart and groups nothing; a declaration succeeds in it if
its layer has none of the same key, which is a name for a variable, and a name with parameter types for a
function. Every scope that operations lead to is the view of its history (`History.scope_run`), so what look-ups
and listings answer can be read off the history (`Scope.Answers`).
-/

namespace Scripting

namespace Scope

/-! ## Operations and histories -/

/-- What a declaration puts into a layer: a variable under a name, or a function, which the table has under the
handle, under its own name and parameter types. -/
inductive Entry
  | var (name : String) (v : VarId)
  | func (f : FunctionSymbol) (id : FuncId)

/-- What a layer holds once. -/
inductive Key
  | var (name : String)
  | func (name : String) (types : List Ty)
deriving DecidableEq

def Entry.key : Entry → Key
  | var name _ => .var name
  | func f _ => .func f.name f.types

/-- Something done to a scope. -/
inductive Op
  | push
  | pop
  | declare (e : Entry)

/-- Declares in the innermost layer, unless the key is taken there. -/
def declare? (s : Scope) : Entry → Option Scope
  | .var name v => s.declareVariable? name v
  | .func f id => s.declareFunction? f id

/-- One operation. A declaration that fails leaves the scope as it is. -/
def step (s : Scope) : Op → Scope
  | .push => s.push
  | .pop => s.pop
  | .declare e => (s.declare? e).getD s

def run (s : Scope) (ops : List Op) : Scope := ops.foldl step s

/-- The declarations of the open layers that succeeded, in the order they were made. -/
structure History where
  inner : List Entry
  outer : List (List Entry)

namespace History

def empty : History := ⟨[], []⟩

def layers (h : History) : List (List Entry) := h.inner :: h.outer

/-- The innermost layer has no entry of this key. -/
def Free (h : History) (k : Key) : Prop := k ∉ h.inner.map Entry.key

instance (h : History) (k : Key) : Decidable (h.Free k) := inferInstanceAs (Decidable (_ ∉ _))

def step (h : History) : Op → History
  | .push => ⟨[], h.layers⟩
  | .pop =>
    match h.outer with
    | [] => empty
    | es :: rest => ⟨es, rest⟩
  | .declare e => if h.Free e.key then ⟨h.inner ++ [e], h.outer⟩ else h

def run (h : History) (ops : List Op) : History := ops.foldl step h

/-- The entry is the first of its key in the innermost layer that has one. -/
def Finds (h : History) (e : Entry) : Prop :=
  ∃ nearer es further, h.layers = nearer ++ es :: further ∧ (∀ ds ∈ nearer, ∀ d ∈ ds, d.key ≠ e.key) ∧
    ∃ earlier later, es = earlier ++ e :: later ∧ ∀ d ∈ earlier, d.key ≠ e.key

end History

/-! ## Functions by name -/

/-- The variable that an entry declares, with its name. -/
def Entry.asVar? : Entry → Option (String × VarId)
  | var name v => some (name, v)
  | func .. => none

/-- The function that an entry declares, with its name. -/
def Entry.asFunc? : Entry → Option (String × Overload)
  | var .. => none
  | func f id => some (f.name, ⟨f.types, id⟩)

/-- The names of functions, in the order in which they come up. -/
def names (fs : List (String × Overload)) : List String := (fs.map (·.1)).eraseDups

def named (fs : List (String × Overload)) (name : String) : List Overload :=
  (fs.filter (·.1 = name)).map (·.2)

section Grouping

variable {fs : List (String × Overload)} {name : String} {o : Overload}

theorem mem_names : name ∈ names fs ↔ ∃ f ∈ fs, f.1 = name :=
  List.mem_eraseDups.trans List.mem_map

theorem names_append_of_mem (h : name ∈ names fs) : names (fs ++ [(name, o)]) = names fs := by
  have hseen : [name].removeAll (fs.map (·.1)) = [] := by
    simp [List.removeAll, List.mem_eraseDups.1 h]
  unfold names
  rw [List.map_append, List.map_singleton, List.eraseDups_append, hseen]
  exact List.append_nil _

theorem names_append_of_not_mem (h : name ∉ names fs) : names (fs ++ [(name, o)]) = names fs ++ [name] := by
  have hunseen : [name].removeAll (fs.map (·.1)) = [name] := by
    refine List.filter_eq_self.2 (List.forall_mem_singleton.2 ?_)
    rw [Bool.not_eq_true', ← Bool.not_eq_true, List.elem_iff]
    exact fun hmem => h (List.mem_eraseDups.2 hmem)
  unfold names
  rw [List.map_append, List.map_singleton, List.eraseDups_append, hunseen]
  rfl

theorem nodup_names (fs : List (String × Overload)) : (names fs).Nodup := by
  induction fs using List.reverseRecOn with
  | nil => exact .nil
  | append_singleton fs f ih =>
    by_cases h : f.1 ∈ names fs
    · rwa [names_append_of_mem h]
    · rw [names_append_of_not_mem h]
      exact ih.append (List.nodup_singleton _) (List.disjoint_singleton.2 h)

theorem named_append_self (fs : List (String × Overload)) (name : String) (o : Overload) :
    named (fs ++ [(name, o)]) name = named fs name ++ [o] := by
  simp [named]

theorem named_append_of_ne {n : String} (h : n ≠ name) : named (fs ++ [(name, o)]) n = named fs n := by
  simp [named, h.symm]

theorem named_eq_nil (h : name ∉ names fs) : named fs name = [] := by
  rw [named, List.map_eq_nil_iff, List.filter_eq_nil_iff]
  intro f hf hname
  exact h (mem_names.2 ⟨f, hf, of_decide_eq_true hname⟩)

end Grouping

end Scope

open Scope (Entry Key History names named)

namespace Layer

variable {name : String} {o : Overload}

theorem addOverload_append {front fs : List (String × List Overload)} (h : name ∉ front.map (·.1))
    (o : Overload) : addOverload name o (front ++ fs) = front ++ addOverload name o fs := by
  induction front with
  | nil => rfl
  | cons d front ih =>
    rw [List.map_cons, List.mem_cons, not_or] at h
    rw [List.cons_append, addOverload, if_neg (Ne.symm h.1), ih h.2]
    rfl

theorem not_mem_map_names {ns : List String} (h : name ∉ ns) (g : String → List Overload) :
    name ∉ (ns.map fun n => (n, g n)).map (·.1) := by
  rwa [List.map_map, show (Prod.fst ∘ fun n => (n, g n)) = id from rfl, List.map_id]

/-- An overload of a name that is there joins the group of the name. -/
theorem addOverload_of_mem {ns : List String} (hnodup : ns.Nodup) (hmem : name ∈ ns)
    {g g' : String → List Overload} (hname : g' name = g name ++ [o]) (hothers : ∀ n ≠ name, g' n = g n) :
    addOverload name o (ns.map fun n => (n, g n)) = ns.map fun n => (n, g' n) := by
  obtain ⟨front, back, rfl⟩ := List.append_of_mem hmem
  obtain ⟨hfront, hback⟩ := List.nodup_middle.1 hnodup |> List.nodup_cons.1
  rw [List.mem_append, not_or] at hfront
  have hsame : ∀ ms : List String, name ∉ ms → ms.map (fun n => (n, g' n)) = ms.map fun n => (n, g n) := by
    intro ms hms
    refine List.map_congr_left fun n hn => ?_
    rw [hothers n fun heq => hms (heq ▸ hn)]
  rw [List.map_append, List.map_append, addOverload_append (not_mem_map_names hfront.1 g), List.map_cons,
    List.map_cons, addOverload, if_pos rfl, hname, hsame front hfront.1, hsame back hfront.2]

/-! ## The view of a layer -/

/-- The layer with these entries. -/
def ofEntries (es : List Entry) : Layer where
  vars := es.filterMap Entry.asVar?
  funcs := (names (es.filterMap Entry.asFunc?)).map fun n => (n, named (es.filterMap Entry.asFunc?) n)

theorem ofEntries_append_var (es : List Entry) (name : String) (v : VarId) :
    ofEntries (es ++ [Entry.var name v]) = { ofEntries es with vars := (ofEntries es).vars ++ [(name, v)] } := by
  have hvars : (es ++ [Entry.var name v]).filterMap Entry.asVar? = es.filterMap Entry.asVar? ++ [(name, v)] := by
    simp [Entry.asVar?]
  have hfuncs : (es ++ [Entry.var name v]).filterMap Entry.asFunc? = es.filterMap Entry.asFunc? := by
    simp [Entry.asFunc?]
  unfold ofEntries
  rw [hvars, hfuncs]

theorem ofEntries_append_func (es : List Entry) (f : FunctionSymbol) (id : FuncId) :
    ofEntries (es ++ [Entry.func f id]) =
      { ofEntries es with funcs := addOverload f.name ⟨f.types, id⟩ (ofEntries es).funcs } := by
  have hvars : (es ++ [Entry.func f id]).filterMap Entry.asVar? = es.filterMap Entry.asVar? := by
    simp [Entry.asVar?]
  have hfuncs : (es ++ [Entry.func f id]).filterMap Entry.asFunc? =
      es.filterMap Entry.asFunc? ++ [(f.name, ⟨f.types, id⟩)] := by
    simp [Entry.asFunc?]
  unfold ofEntries
  rw [hvars, hfuncs]
  generalize es.filterMap Entry.asFunc? = fs
  by_cases h : f.name ∈ names fs
  · rw [Scope.names_append_of_mem h, addOverload_of_mem (Scope.nodup_names fs) h
      (Scope.named_append_self fs f.name _) fun n hn => Scope.named_append_of_ne hn]
  · rw [Scope.names_append_of_not_mem h, List.map_append, List.map_singleton, Scope.named_append_self,
      Scope.named_eq_nil h]
    have hadd := @addOverload_append f.name _ [] (not_mem_map_names h (named fs)) ⟨f.types, id⟩
    rw [List.append_nil] at hadd
    rw [hadd]
    refine congrArg (Layer.mk _ <| · ++ _) (List.map_congr_left fun n hn => ?_)
    have hne : n ≠ f.name := fun heq => h (heq ▸ hn)
    rw [Scope.named_append_of_ne hne]

end Layer

namespace Scope

/-! ## Look-ups in a layer -/

/-- The variable that an entry declares, if it has this name. -/
def Entry.varFor (name : String) : Entry → Option VarId
  | var n v => if n = name then some v else none
  | func .. => none

/-- The function that an entry declares, if it has this name and these parameter types. -/
def Entry.funcFor (name : String) (types : List Ty) : Entry → Option FuncId
  | var .. => none
  | func f id => if f.name = name ∧ f.types = types then some id else none

namespace Entry

variable {e : Entry} {name : String} {types : List Ty}

theorem varFor_eq_none : e.varFor name = none ↔ e.key ≠ .var name := by
  cases e <;> simp [varFor, key]

theorem varFor_eq_some {v : VarId} : e.varFor name = some v ↔ e = .var name v := by
  cases e <;> simp [varFor]

theorem funcFor_eq_none : e.funcFor name types = none ↔ e.key ≠ .func name types := by
  cases e <;> simp [funcFor, key]

theorem funcFor_eq_some {id : FuncId} :
    e.funcFor name types = some id ↔ ∃ f : FunctionSymbol, f.name = name ∧ f.types = types ∧ e = .func f id := by
  cases e with
  | var n v => simp [funcFor]
  | func f i =>
    constructor
    · intro h
      obtain ⟨⟨hname, htypes⟩, hid⟩ : (f.name = name ∧ f.types = types) ∧ i = id := by
        simpa [funcFor] using h
      exact ⟨f, hname, htypes, hid ▸ rfl⟩
    · rintro ⟨g, hname, htypes, heq⟩
      cases heq
      exact if_pos ⟨hname, htypes⟩

end Entry

end Scope

namespace Layer

theorem findVariable?_ofEntries (es : List Entry) (name : String) :
    (ofEntries es).findVariable? name = es.findSome? (Entry.varFor name) := by
  show List.lookup name (es.filterMap Entry.asVar?) = _
  induction es with
  | nil => rfl
  | cons e es ih =>
    cases e with
    | var n v =>
      show List.lookup name ((n, v) :: es.filterMap Entry.asVar?) = _
      by_cases h : n = name
      · subst h
        rw [List.lookup_cons_self, List.findSome?_cons_of_isSome] <;> simp [Entry.varFor]
      · rw [List.findSome?_cons_of_isNone (by simp [Entry.varFor, h]), ← ih, List.lookup_cons,
          beq_false_of_ne (Ne.symm h)]
    | func f id => exact ih

theorem overloads_ofEntries (es : List Entry) (name : String) :
    (ofEntries es).overloads name = named (es.filterMap Entry.asFunc?) name := by
  unfold overloads ofEntries
  by_cases h : name ∈ names (es.filterMap Entry.asFunc?)
  · dsimp only
    rw [List.lookup_graph _ h, Option.getD_some]
  · have hnone : List.lookup name ((names (es.filterMap Entry.asFunc?)).map fun n =>
        (n, named (es.filterMap Entry.asFunc?) n)) = none := by
      rw [List.lookup_eq_none_iff, List.forall_mem_map]
      intro n hn
      exact bne_iff_ne.2 fun heq : name = n => h (heq ▸ hn)
    dsimp only
    rw [hnone, Option.getD_none, Scope.named_eq_nil h]

theorem findFunction?_ofEntries (es : List Entry) (name : String) (types : List Ty) :
    (ofEntries es).findFunction? name types = es.findSome? (Entry.funcFor name types) := by
  unfold findFunction?
  rw [overloads_ofEntries, named, List.find?_map, List.find?_filter]
  induction es with
  | nil => rfl
  | cons e es ih =>
    cases e with
    | var n v => exact ih
    | func f id =>
      by_cases h : f.name = name ∧ f.types = types
      · show (List.find? _ ((f.name, ⟨f.types, id⟩) :: es.filterMap Entry.asFunc?) |>.map _ |>.map _) = _
        rw [List.find?_cons_of_pos (by simpa using h), List.findSome?_cons_of_isSome] <;> simp [Entry.funcFor, h]
      · show (List.find? _ ((f.name, ⟨f.types, id⟩) :: es.filterMap Entry.asFunc?) |>.map _ |>.map _) = _
        rw [List.find?_cons_of_neg (by simpa using h), List.findSome?_cons_of_isNone (by simp [Entry.funcFor, h]), ih]

end Layer

namespace Scope

namespace History

variable {h : History} {e : Entry}

/-- The scope with this history. -/
def scope (h : History) : Scope := ⟨Layer.ofEntries h.inner, h.outer.map Layer.ofEntries⟩

theorem layers_scope (h : History) : h.scope.layers = h.layers.map Layer.ofEntries := rfl

/-! ## Look-ups in a scope -/

/-- Looking through the layers for an answer finds the first entry of the key in the innermost layer that
has one. -/
theorem findSome?_layers {α : Type} {answer : Entry → Option α} {k : Key}
    (hkey : ∀ e, answer e = none ↔ e.key ≠ k) {a : α} :
    h.layers.findSome? (·.findSome? answer) = some a ↔ ∃ e, h.Finds e ∧ answer e = some a := by
  have hsome : ∀ {e}, answer e = some a → e.key = k := by
    intro e he
    by_contra hne
    rw [(hkey e).2 hne] at he
    cases he
  constructor
  · intro hfind
    obtain ⟨nearer, es, further, hlayers, hes, hnearer⟩ := List.findSome?_eq_some_iff.1 hfind
    obtain ⟨earlier, e, later, rfl, he, hearlier⟩ := List.findSome?_eq_some_iff.1 hes
    refine ⟨e, ⟨nearer, _, further, hlayers, fun ds hds d hd => ?_, earlier, later, rfl, fun d hd => ?_⟩, he⟩
    · rw [hsome he]
      exact (hkey d).1 (List.findSome?_eq_none_iff.1 (hnearer ds hds) d hd)
    · rw [hsome he]
      exact (hkey d).1 (hearlier d hd)
  · rintro ⟨e, ⟨nearer, es, further, hlayers, hnearer, earlier, later, rfl, hearlier⟩, he⟩
    rw [hsome he] at hnearer hearlier
    refine List.findSome?_eq_some_iff.2 ⟨nearer, _, further, hlayers, ?_, fun ds hds => ?_⟩
    · exact List.findSome?_eq_some_iff.2 ⟨earlier, e, later, rfl, he, fun d hd => (hkey d).2 (hearlier d hd)⟩
    · exact List.findSome?_eq_none_iff.2 fun d hd => (hkey d).2 (hnearer ds hds d hd)

theorem findVariable?_scope (h : History) (name : String) :
    h.scope.findVariable? name = h.layers.findSome? (·.findSome? (Entry.varFor name)) := by
  unfold Scope.findVariable?
  rw [layers_scope, List.findSome?_map]
  exact congrArg (List.findSome? · h.layers) (funext fun es => Layer.findVariable?_ofEntries es name)

theorem findFunction?_scope (h : History) (name : String) (types : List Ty) :
    h.scope.findFunction? name types = h.layers.findSome? (·.findSome? (Entry.funcFor name types)) := by
  unfold Scope.findFunction?
  rw [layers_scope, List.findSome?_map]
  exact congrArg (List.findSome? · h.layers) (funext fun es => Layer.findFunction?_ofEntries es name types)

/-! ## Operations -/

theorem free_iff {α : Type} {answer : Entry → Option α} {k : Key} (hkey : ∀ e, answer e = none ↔ e.key ≠ k) :
    h.Free k ↔ h.inner.findSome? answer = none := by
  rw [Free, List.mem_map, not_exists, List.findSome?_eq_none_iff]
  exact forall_congr' fun e => by rw [hkey, not_and]

theorem findVariable?_inner_eq_none {name : String} :
    h.scope.inner.findVariable? name = none ↔ h.Free (.var name) := by
  rw [free_iff fun _ => Entry.varFor_eq_none, ← Layer.findVariable?_ofEntries]
  rfl

theorem findFunction?_inner_eq_none {name : String} {types : List Ty} :
    h.scope.inner.findFunction? name types = none ↔ h.Free (.func name types) := by
  rw [free_iff fun _ => Entry.funcFor_eq_none, ← Layer.findFunction?_ofEntries]
  rfl

/-- A declaration succeeds exactly if its key is free. -/
theorem declare?_scope (h : History) (e : Entry) :
    h.scope.declare? e = if h.Free e.key then some (h.step (.declare e)).scope else none := by
  cases e with
  | var name v =>
    rw [declare?, declareVariable?, Layer.declareVariable?, Entry.key]
    cases hfind : h.scope.inner.findVariable? name with
    | none =>
      have hfree : h.Free (.var name) := findVariable?_inner_eq_none.1 hfind
      rw [if_pos hfree, step, Entry.key, if_pos hfree]
      exact congrArg (fun l => some (Scope.mk l _)) (Layer.ofEntries_append_var h.inner name v).symm
    | some w =>
      have htaken : ¬ h.Free (.var name) := fun hfree => by
        cases hfind.symm.trans (findVariable?_inner_eq_none.2 hfree)
      rw [if_neg htaken]
      rfl
  | func f id =>
    rw [declare?, declareFunction?, Layer.declareFunction?, Entry.key]
    cases hfind : h.scope.inner.findFunction? f.name f.types with
    | none =>
      have hfree : h.Free (.func f.name f.types) := findFunction?_inner_eq_none.1 hfind
      rw [if_pos hfree, step, Entry.key, if_pos hfree]
      exact congrArg (fun l => some (Scope.mk l _)) (Layer.ofEntries_append_func h.inner f id).symm
    | some g =>
      have htaken : ¬ h.Free (.func f.name f.types) := fun hfree => by
        cases hfind.symm.trans (findFunction?_inner_eq_none.2 hfree)
      rw [if_neg htaken]
      rfl

theorem scope_step (h : History) (op : Op) : (h.step op).scope = h.scope.step op := by
  cases op with
  | push => rfl
  | pop =>
    obtain ⟨inner, outer⟩ := h
    cases outer <;> rfl
  | declare e =>
    show _ = (h.scope.declare? e).getD h.scope
    rw [declare?_scope]
    by_cases hfree : h.Free e.key
    · rw [if_pos hfree, Option.getD_some]
    · rw [if_neg hfree, Option.getD_none, step, if_neg hfree]

theorem scope_run (h : History) (ops : List Op) : (h.run ops).scope = h.scope.run ops := by
  induction ops generalizing h with
  | nil => rfl
  | cons op ops ih =>
    show ((h.step op).run ops).scope = (h.scope.step op).run ops
    rw [ih, scope_step]

/-- No layer has two entries of one key. -/
def Distinct (h : History) : Prop := ∀ es ∈ h.layers, (es.map Entry.key).Nodup

theorem Distinct.step (hd : h.Distinct) (op : Op) : (h.step op).Distinct := by
  obtain ⟨hinner, houter⟩ := List.forall_mem_cons.1 hd
  cases op with
  | push => exact List.forall_mem_cons.2 ⟨.nil, hd⟩
  | pop =>
    obtain ⟨inner, outer⟩ := h
    cases outer with
    | nil => exact List.forall_mem_singleton.2 .nil
    | cons es rest => exact houter
  | declare e =>
    rw [History.step]
    split
    · next hfree =>
      refine List.forall_mem_cons.2 ⟨?_, houter⟩
      rw [List.map_append, List.map_singleton]
      exact hinner.append (List.nodup_singleton _) (List.disjoint_singleton.2 hfree)
    · exact hd

theorem Distinct.run (hd : h.Distinct) (ops : List Op) : (h.run ops).Distinct := by
  induction ops generalizing h with
  | nil => exact hd
  | cons op ops ih => exact ih (hd.step op)

end History

end Scope

namespace Layer

/-! ## What a layer holds -/

def signatures (l : Layer) : List (String × List Ty) := l.funcs.flatMap fun d => d.2.map fun o => (d.1, o.types)

/-- Entries of different keys make a layer without two functions of one signature. -/
theorem nodup_signatures {es : List Entry} (h : (es.map Entry.key).Nodup) : (ofEntries es).signatures.Nodup := by
  have hpair : (es.filterMap Entry.asFunc?).Pairwise fun f g => (f.1, f.2.types) ≠ (g.1, g.2.types) := by
    refine List.Pairwise.filterMap _ (fun d e hne f hf g hg heq => ?_) (List.pairwise_map.1 h)
    cases d with
    | var => cases hf
    | func a i =>
      cases e with
      | var => cases hg
      | func b j =>
        cases hf
        cases hg
        obtain ⟨hname, htypes⟩ := Prod.mk.inj heq
        exact hne (congrArg₂ Key.func hname htypes)
  unfold signatures ofEntries
  dsimp only
  rw [List.flatMap_map, List.nodup_flatMap]
  generalize es.filterMap Entry.asFunc? = fs at hpair ⊢
  constructor
  · -- within a group the names are the same, so the parameter types differ
    intro n _
    refine List.pairwise_map.2 (List.pairwise_map.2 ?_)
    refine (hpair.filter _).imp_of_mem fun {f g} hf hg hne heq => hne ?_
    have hfn : f.1 = n := of_decide_eq_true (List.mem_filter.1 hf).2
    have hgn : g.1 = n := of_decide_eq_true (List.mem_filter.1 hg).2
    rw [hfn, hgn]
    exact heq
  · refine (Scope.nodup_names fs).imp fun {n m} hne sig hn hm => hne ?_
    obtain ⟨o, -, rfl⟩ := List.mem_map.1 hn
    obtain ⟨p, -, heq⟩ := List.mem_map.1 hm
    exact (congrArg Prod.fst heq).symm

end Layer

namespace Scope

/-! ## Nested operations -/

/-- Every layer that the operations open is closed by them, and no other is. -/
inductive Op.Nested : List Op → Prop
  | nil : Nested []
  | declare (e : Entry) {ops : List Op} (rest : Nested ops) : Nested (.declare e :: ops)
  | layer {ops ops' : List Op} (inside : Nested ops) (rest : Nested ops') : Nested (Op.push :: ops ++ Op.pop :: ops')

theorem run_append (s : Scope) (ops ops' : List Op) : s.run (ops ++ ops') = (s.run ops).run ops' :=
  List.foldl_append

theorem outer_declare (s : Scope) (e : Entry) : (s.step (.declare e)).outer = s.outer := by
  show ((s.declare? e).getD s).outer = s.outer
  cases hs : s.declare? e with
  | none => rfl
  | some s' =>
    cases e with
    | var name v =>
      obtain ⟨l, -, rfl⟩ := Option.map_eq_some_iff.1 hs
      rfl
    | func f id =>
      obtain ⟨l, -, rfl⟩ := Option.map_eq_some_iff.1 hs
      rfl

theorem pop_of_outer_eq {s s' : Scope} (h : s'.outer = s.push.outer) : s'.pop = s := by
  obtain ⟨inner, outer⟩ := s'
  cases h
  rfl

/-- Nested operations leave the layers around the innermost one as they are. -/
theorem Op.Nested.outer_run {ops : List Op} (h : Op.Nested ops) (s : Scope) : (s.run ops).outer = s.outer := by
  induction h generalizing s with
  | nil => rfl
  | @declare e ops _ ih =>
    show ((s.step (.declare e)).run ops).outer = s.outer
    rw [ih, outer_declare]
  | @layer ops ops' _ _ ihin ihrest =>
    show (s.run ((Op.push :: ops) ++ Op.pop :: ops')).outer = s.outer
    rw [run_append]
    show (((s.push.run ops).pop).run ops').outer = s.outer
    rw [ihrest, pop_of_outer_eq (ihin s.push)]

/-! ## Scopes answer as their history says -/

/-- What a scope answers, told by its history. -/
structure Answers (h : History) (s : Scope) : Prop where
  /-- a name stands for the first variable declared under it in the innermost layer that has one -/
  findVariable : ∀ name v, s.findVariable? name = some v ↔ h.Finds (.var name v)
  /-- and with types for the first function of these parameter types, whatever other functions of the name
  stand nearer -/
  findFunction : ∀ name types id, s.findFunction? name types = some id ↔
    ∃ f : FunctionSymbol, f.name = name ∧ f.types = types ∧ h.Finds (.func f id)
  /-- a declaration succeeds once for each key of a layer -/
  accepts : ∀ e, (s.declare? e).isSome ↔ h.Free e.key
  /-- no layer holds two functions of one name and the same parameter types -/
  signatures : ∀ l ∈ s.layers, l.signatures.Nodup
  /-- variables are listed in the order they were declared -/
  vars : s.vars = (h.inner.filterMap Entry.asVar?).map (·.2)
  /-- functions are listed name by name, each name where it first came up -/
  funcs : s.funcs = (names (h.inner.filterMap Entry.asFunc?)).flatMap fun n =>
    (named (h.inner.filterMap Entry.asFunc?) n).map (·.function)
  /-- a layer can be closed if another is open around it -/
  closes : s.pop?.isSome ↔ h.outer ≠ []

theorem History.Distinct.answers {h : History} (hd : h.Distinct) : h.scope.Answers h where
  findVariable name v := by
    rw [findVariable?_scope, findSome?_layers fun _ => Entry.varFor_eq_none]
    simp only [Entry.varFor_eq_some]
    exact ⟨fun ⟨e, he, heq⟩ => heq ▸ he, fun hv => ⟨_, hv, rfl⟩⟩
  findFunction name types id := by
    rw [findFunction?_scope, findSome?_layers fun _ => Entry.funcFor_eq_none]
    simp only [Entry.funcFor_eq_some]
    constructor
    · rintro ⟨e, he, f, hname, htypes, rfl⟩
      exact ⟨f, hname, htypes, he⟩
    · rintro ⟨f, hname, htypes, hf⟩
      exact ⟨_, hf, f, hname, htypes, rfl⟩
  accepts e := by
    rw [declare?_scope]
    split <;> simp [*]
  signatures l hl := by
    rw [layers_scope] at hl
    obtain ⟨es, hes, rfl⟩ := List.mem_map.1 hl
    exact Layer.nodup_signatures (hd es hes)
  vars := rfl
  funcs := by
    unfold Scope.funcs scope Layer.ofEntries
    dsimp only
    rw [List.flatMap_map]
  closes := by
    obtain ⟨inner, outer⟩ := h
    cases outer <;> simp [scope, pop?]

/-- **Scopes resolve names innermost first and declare them once**: after any operations, a scope answers as
the history of its successful declarations says; a declaration that fails makes no difference to anything
later; and closing a layer gives back the scope in which it was opened. -/
theorem scopes_answer_by_history (ops : List Op) :
    (empty.run ops).Answers (History.empty.run ops) ∧
    (∀ e, (empty.run ops).declare? e = none →
      ∀ rest, empty.run (ops ++ Op.declare e :: rest) = empty.run (ops ++ rest)) ∧
    ∀ inside, Op.Nested inside → empty.run (ops ++ Op.push :: inside ++ [Op.pop]) = empty.run ops := by
  refine ⟨?_, fun e he rest => ?_, fun inside hinside => ?_⟩
  · have hdistinct : History.empty.Distinct := List.forall_mem_singleton.2 .nil
    rw [show empty = History.empty.scope from rfl, ← History.scope_run]
    exact (hdistinct.run ops).answers
  · rw [run_append, run_append]
    show (((empty.run ops).declare? e).getD _).run rest = _
    rw [he, Option.getD_none]
  · rw [run_append, run_append]
    exact pop_of_outer_eq (hinside.outer_run (empty.run ops).push)

/-- A function `f` with one parameter. -/
def takingOne (type : Ty) : FunctionSymbol := ⟨"f", [⟨"a", type, ⟨0⟩⟩], .void, none, none⟩

/-- An overload of `f`, and in a layer inside another one and a variable. -/
def overloading : List Op :=
  [.declare (.func (takingOne .int) ⟨0⟩), .push, .declare (.func (takingOne .string) ⟨1⟩), .declare (.var "x" ⟨0⟩)]

/-- The inner overload once more. -/
def again : Entry := .func (takingOne .string) ⟨2⟩

/-- The variable declared in a further layer, and one more layer inside. -/
def shadowing : List Op := [.declare (.var "x" ⟨1⟩), .push, .pop]

/-- The inner overload does not hide the outer one, declaring it again fails, and a layer in which the variable is
declared again leaves nothing behind. -/
theorem overloading_answers_by_history :
    ((empty.run overloading).findFunction? "f" [.int] = some ⟨0⟩ ∧
      (empty.run overloading).declare? again = none ∧ Op.Nested shadowing) ∧
    (empty.run overloading).Answers (History.empty.run overloading) ∧
    empty.run (overloading ++ [Op.declare again, Op.pop]) = empty.run (overloading ++ [Op.pop]) ∧
    empty.run (overloading ++ Op.push :: shadowing ++ [Op.pop]) = empty.run overloading := by
  obtain ⟨hanswers, hfail, hnested⟩ := scopes_answer_by_history overloading
  have hnone : (empty.run overloading).declare? again = none := by decide
  have hinside : Op.Nested shadowing := .declare _ (.layer .nil .nil)
  exact ⟨⟨by decide, hnone, hinside⟩, hanswers, hfail again hnone [Op.pop], hnested shadowing hinside⟩

end Scope

end Scripting
