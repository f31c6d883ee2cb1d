import Scripting.Symbol.Table
import Scripting.Value

/-!
# Stores

The values of variables, in the order of their handles. Two stores that answer every look-up alike are
the same store.
-/

namespace Scripting

/-- Values by handle, each handle once and in increasing order. -/
structure Store where
  entries : List (VarId × Value)
  sorted : entries.Pairwise (fun a b => a.1.index < b.1.index)

namespace Store

def empty : Store := ⟨[], .nil⟩

def get? (s : Store) (x : VarId) : Option Value := s.entries.lookup x

/-- Puts an entry in its place, in the stead of an earlier one. -/
def put (x : VarId) (v : Value) : List (VarId × Value) → List (VarId × Value)
  | [] => [(x, v)]
  | (y, w) :: rest =>
    if x.index < y.index then (x, v) :: (y, w) :: rest
    else if x = y then (x, v) :: rest
    else (y, w) :: put x v rest

theorem mem_put {x : VarId} {v : Value} {l : List (VarId × Value)} {p : VarId × Value}
    (h : p ∈ put x v l) : p = (x, v) ∨ p ∈ l := by
  induction l with
  | nil => simpa [put] using h
  | cons q rest ih =>
    obtain ⟨y, w⟩ := q
    simp only [put] at h
    split at h
    · simpa using h
    · split at h
      · rcases List.mem_cons.1 h with h | h
        · exact .inl h
        · exact .inr (List.mem_cons_of_mem _ h)
      · rcases List.mem_cons.1 h with h | h
        · exact .inr (h ▸ List.mem_cons_self)
        · exact (ih h).imp_right (List.mem_cons_of_mem _)

theorem put_sorted (x : VarId) (v : Value) {l : List (VarId × Value)}
    (h : l.Pairwise fun a b => a.1.index < b.1.index) :
    (put x v l).Pairwise fun a b => a.1.index < b.1.index := by
  induction l with
  | nil => simp [put]
  | cons q rest ih =>
    obtain ⟨y, w⟩ := q
    obtain ⟨first, tail⟩ := List.pairwise_cons.1 h
    simp only [put]
    split
    case isTrue lt =>
      refine List.pairwise_cons.2 ⟨fun p hp => ?_, h⟩
      rcases List.mem_cons.1 hp with rfl | hp
      · exact lt
      · exact Nat.lt_trans lt (first p hp)
    case isFalse lt =>
      split
      case isTrue eq => exact List.pairwise_cons.2 ⟨eq ▸ first, tail⟩
      case isFalse ne =>
        refine List.pairwise_cons.2 ⟨fun p hp => ?_, ih tail⟩
        rcases mem_put hp with rfl | hp
        · have : x.index ≠ y.index := fun e => ne (by cases x; cases y; simp_all)
          simp only
          omega
        · exact first p hp

def insert (s : Store) (x : VarId) (v : Value) : Store := ⟨put x v s.entries, put_sorted x v s.sorted⟩

/-- The store with the given values; of two values for one variable the later counts. -/
def ofList (entries : List (VarId × Value)) : Store := entries.foldl (fun s e => s.insert e.1 e.2) empty

/-! ## Looking up -/

theorem lookup_cons_of_ne {x y : VarId} (h : y ≠ x) (v : Value) (l : List (VarId × Value)) :
    ((x, v) :: l).lookup y = l.lookup y := by
  have beq : (y == x) = false := by simpa using h
  rw [List.lookup_cons, beq]

theorem lookup_put_self (x : VarId) (v : Value) (l : List (VarId × Value)) :
    (put x v l).lookup x = some v := by
  induction l with
  | nil => simp [put]
  | cons q rest ih =>
    obtain ⟨y, w⟩ := q
    simp only [put]
    split
    · simp
    · split
      · simp
      · next ne => rw [lookup_cons_of_ne ne, ih]

theorem lookup_put_of_ne {x y : VarId} (h : y ≠ x) (v : Value) (l : List (VarId × Value)) :
    (put x v l).lookup y = l.lookup y := by
  induction l with
  | nil => rw [put, lookup_cons_of_ne h]
  | cons q rest ih =>
    obtain ⟨z, w⟩ := q
    simp only [put]
    split
    · rw [lookup_cons_of_ne h]
    · split
      · next eq =>
        subst eq
        rw [lookup_cons_of_ne h, lookup_cons_of_ne h]
      · rw [List.lookup_cons, List.lookup_cons, ih]

@[simp] theorem get?_insert_self (s : Store) (x : VarId) (v : Value) :
    (s.insert x v).get? x = some v := lookup_put_self x v s.entries

theorem get?_insert_of_ne (s : Store) {x y : VarId} (h : y ≠ x) (v : Value) :
    (s.insert x v).get? y = s.get? y := lookup_put_of_ne h v s.entries

end Store

end Scripting
