import Scripting.Proofs.Typing.Rules
import Scripting.Run.Operation

/-!
# Operations respect types

Operators applied to values of their operand types, and conversions, give a value of the result type
or an error of the script.
-/

namespace Scripting

/-- The ways to stop that a well-typed program has. A parameter is never found unassigned. -/
def Halt.Allowed : Halt → Prop
  | .error (.unassignedVariable x) => x.kind ≠ .parameter
  | .error .divisionByZero | .error (.invalidConversion ..) | .outOfFuel => True
  | .fault _ => False

/-- A value of the type, or a way to stop that is allowed. -/
inductive Ty.Results (t : Ty) : Except Halt Value → Prop
  | ok {v} (h : v.HasType t) : Results t (.ok v)
  | error {e} (h : e.Allowed) : Results t (.error e)

namespace Value

theorem HasType.exists_int {v : Value} (h : v.HasType .int) : ∃ n, v = .int n := by
  rcases h with h | h
  · cases h
  · cases v <;> cases h
    exact ⟨_, rfl⟩

theorem HasType.exists_boolean {v : Value} (h : v.HasType .boolean) : ∃ b, v = .boolean b := by
  rcases h with h | h
  · cases h
  · cases v <;> cases h
    exact ⟨_, rfl⟩

theorem HasType.exists_text {v : Value} (h : v.HasType .string) : ∃ s, v = .text s := by
  rcases h with h | h
  · cases h
  · cases v <;> cases h
    exact ⟨_, rfl⟩

theorem division_of_ne_zero (f : Int32 → Int32 → Int32) (m : Int32) {n : Int32} (h : n ≠ 0) :
    Value.division f (.int m) (.int n) = .ok (.int (f m n)) := by
  show (if n = 0 then (throw (.error .divisionByZero) : Except Halt Value) else pure (.int (f m n))) = _
  rw [if_neg h]
  rfl

theorem results_division (f : Int32 → Int32 → Int32) (m n : Int32) :
    Ty.Results .int (Value.division f (.int m) (.int n)) := by
  by_cases h : n = 0
  · subst h
    exact .error trivial
  · rw [division_of_ne_zero f m h]
    exact .ok (.inr rfl)

theorem results_convert (v : Value) {t : Ty} (ht : t.IsValue) : t.Results (v.convert t) := by
  have hrefuse : ∀ shown (v? : Option Value), (∀ v, v? = some v → v.HasType t) →
      t.Results (Value.convert.refuseNone t shown v?) := by
    intro shown v? h
    cases v? with
    | none => exact .error trivial
    | some v => exact .ok (h v rfl)
  have hread : ∀ {α : Type} (make : α → Value) (a? : Option α), (∀ a, (make a).type = t) →
      ∀ v, a?.map make = some v → v.HasType t := by
    intro α make a? hmake v hv
    obtain ⟨a, -, rfl⟩ := Option.map_eq_some_iff.1 hv
    exact .inr (hmake a)
  cases t with
  | any => exact .ok (.inl rfl)
  | string => exact .ok (.inr rfl)
  | boolean =>
    cases v with
    | boolean b => exact .ok (.inr rfl)
    | int n => exact hrefuse _ none nofun
    | text s => exact hrefuse s _ (hread _ _ fun _ => rfl)
  | int =>
    cases v with
    | boolean b => exact hrefuse _ none nofun
    | int n => exact .ok (.inr rfl)
    | text s => exact hrefuse s _ (hread _ _ fun _ => rfl)
  | void => exact absurd rfl ht.1
  | error => exact absurd rfl ht.2

end Value

theorem UnaryOp.results {o : UnaryOp} (ho : o ∈ UnaryOp.all) {v : Value} (hv : v.HasType o.operand) :
    o.result.Results (o.kind.apply v) := by
  simp only [UnaryOp.all, UnaryOp.negate, List.mem_cons, List.not_mem_nil, or_false] at ho
  rcases ho with rfl | rfl | rfl | rfl
  · obtain ⟨b, rfl⟩ := hv.exists_boolean
    exact .ok (.inr rfl)
  all_goals
    obtain ⟨n, rfl⟩ := hv.exists_int
    exact .ok (.inr rfl)

/-! ## Binary operators, by the type of their operands -/

/-- What operators on integers compute. -/
def BinaryKind.onInts : BinaryKind → Ty
  | equals | notEquals | less | lessOrEquals | greater | greaterOrEquals => .boolean
  | _ => .int

theorem BinaryKind.results_ints {kind : BinaryKind} (h : kind.Strict) (m n : Int32) :
    kind.onInts.Results (kind.apply (.int m) (.int n)) := by
  cases kind with
  | logicalAnd => exact absurd rfl h.1
  | logicalOr => exact absurd rfl h.2
  | division => exact Value.results_division _ m n
  | modulo => exact Value.results_division _ m n
  | _ => exact .ok (.inr rfl)

theorem BinaryKind.results_booleans {kind : BinaryKind}
    (h : kind ∈ [logicalAnd, logicalOr, bitwiseAnd, bitwiseOr, bitwiseXor, equals, notEquals])
    (a b : Bool) : Ty.Results .boolean (kind.apply (.boolean a) (.boolean b)) := by
  cases kind with
  | logicalAnd => cases a <;> exact .ok (.inr rfl)
  | logicalOr => cases a <;> exact .ok (.inr rfl)
  | bitwiseAnd => exact .ok (.inr rfl)
  | bitwiseOr => exact .ok (.inr rfl)
  | bitwiseXor => exact .ok (.inr rfl)
  | equals => exact .ok (.inr rfl)
  | notEquals => exact .ok (.inr rfl)
  | _ => simp at h

theorem BinaryKind.results_equality {kind : BinaryKind} (h : kind ∈ [equals, notEquals])
    (a b : Value) : Ty.Results .boolean (kind.apply a b) := by
  rcases List.mem_pair.1 h with rfl | rfl
  · exact .ok (.inr rfl)
  · exact .ok (.inr rfl)

theorem BinaryOp.results {o : BinaryOp} (ho : o ∈ BinaryOp.all) {a b : Value}
    (ha : a.HasType o.left) (hb : b.HasType o.right) : o.result.Results (o.kind.apply a b) := by
  have htable : ∀ o ∈ BinaryOp.all, o.right = o.left ∧
      (o.left = .int ∧ o.kind ≠ .logicalAnd ∧ o.kind ≠ .logicalOr ∧ o.result = o.kind.onInts ∨
        o.left = .boolean ∧ o.result = .boolean ∧ o.kind ∈ [.logicalAnd, .logicalOr, .bitwiseAnd,
          .bitwiseOr, .bitwiseXor, .equals, .notEquals] ∨
        o.left = .string ∧ o.kind = .addition ∧ o.result = .string ∨
        o.result = .boolean ∧ o.kind ∈ [.equals, .notEquals]) := by decide
  obtain ⟨hright, ⟨hl, hand, hor, hres⟩ | ⟨hl, hres, hkind⟩ | ⟨hl, hkind, hres⟩ | ⟨hres, hkind⟩⟩ :=
    htable o ho
  · rw [hright, hl] at hb
    rw [hl] at ha
    obtain ⟨m, rfl⟩ := ha.exists_int
    obtain ⟨n, rfl⟩ := hb.exists_int
    rw [hres]
    exact BinaryKind.results_ints ⟨hand, hor⟩ m n
  · rw [hright, hl] at hb
    rw [hl] at ha
    obtain ⟨x, rfl⟩ := ha.exists_boolean
    obtain ⟨y, rfl⟩ := hb.exists_boolean
    rw [hres]
    exact BinaryKind.results_booleans hkind x y
  · rw [hright, hl] at hb
    rw [hl] at ha
    obtain ⟨s, rfl⟩ := ha.exists_text
    obtain ⟨t, rfl⟩ := hb.exists_text
    rw [hres, hkind]
    exact .ok (.inr rfl)
  · rw [hres]
    exact BinaryKind.results_equality hkind a b

/-- A logical operator may be decided by its first operand, and then has a boolean result. -/
theorem BinaryOp.decided?_eq_ok {o : BinaryOp} (ho : o ∈ BinaryOp.all) {a : Value}
    (ha : a.HasType o.left) :
    ∃ v?, o.kind.decided? a = .ok v? ∧ ∀ v, v? = some v → v.HasType o.result := by
  have htable : ∀ o ∈ BinaryOp.all, o.kind ≠ .logicalAnd ∧ o.kind ≠ .logicalOr ∨
      (o.kind = .logicalAnd ∨ o.kind = .logicalOr) ∧ o.left = .boolean ∧ o.result = .boolean := by
    decide
  rcases htable o ho with hstrict | ⟨hkind, hl, hres⟩
  · exact ⟨none, BinaryKind.Strict.decided? hstrict a, nofun⟩
  · rw [hl] at ha
    obtain ⟨b, rfl⟩ := ha.exists_boolean
    rw [hres]
    rcases hkind with hkind | hkind
    · rw [hkind]
      cases b with
      | true => exact ⟨none, rfl, nofun⟩
      | false =>
        refine ⟨some (.boolean false), rfl, fun v hv => ?_⟩
        cases hv
        exact .inr rfl
    · rw [hkind]
      cases b with
      | false => exact ⟨none, rfl, nofun⟩
      | true =>
        refine ⟨some (.boolean true), rfl, fun v hv => ?_⟩
        cases hv
        exact .inr rfl

end Scripting
