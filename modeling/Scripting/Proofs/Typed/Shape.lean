import Scripting.Proofs.Graph.Runs
import Scripting.Proofs.Typed.Induction

/-!
# The shape of checked statements

Three facts about the trees that checking produces, whether or not it reports anything.

* Compound assignments never use a logical operator, which would skip its second operand (`Strict`).
* Jumps go to the labels of loops around them, and nothing declares a label (`Stmt.Scoped`).
* The loops of a tree are numbered in the order they begin, and their labels are named after their
  numbers (`Stmt.Numbered`).
-/

namespace Scripting

/-- The operator evaluates both of its operands. -/
def BinaryKind.Strict (kind : BinaryKind) : Prop := kind ≠ .logicalAnd ∧ kind ≠ .logicalOr

theorem BinaryKind.Strict.decided? {kind : BinaryKind} (h : kind.Strict) (v : Value) :
    kind.decided? v = .ok none := by
  cases kind with
  | logicalAnd => exact absurd rfl h.1
  | logicalOr => exact absurd rfl h.2
  | _ => rfl

namespace Typed

/-- Every compound assignment in the expression evaluates both operands of its operator. -/
inductive Expr.Strict : Expr → Prop
  | literal (v) : Strict (.literal v)
  | name (x t) : Strict (.name x t)
  | assign (x t) {e} (he : e.Strict) : Strict (.assign x e t)
  | compound (x t) {o e} (ho : o.kind.Strict) (he : e.Strict) : Strict (.compound x o e t)
  | unary (o) {e} (he : e.Strict) : Strict (.unary o e)
  | binary (o) {l r} (hl : l.Strict) (hr : r.Strict) : Strict (.binary l o r)
  | convert (t) {e} (he : e.Strict) : Strict (.convert t e)
  | call (f t) {es} (hes : ∀ e ∈ es, e.Strict) : Strict (.call f es t)
  | error : Strict .error

def Instr.Strict : Instr → Prop
  | eval e | declare _ e | branch _ e _ | ret (some e) => e.Strict
  | label _ | jump _ | ret none => True

/-- No labels are declared, and jumps go to `targets` or to the labels of a loop around them. All
instructions satisfy `P`; a condition counts as the branches on it, and the increment of a loop as its
evaluation. -/
inductive Stmt.Scoped (P : Instr → Prop) : List Label → Stmt → Prop
  | instr {ts i} (hi : P i) (label : i.label? = none) (target : ∀ l, i.target? = some l → l ∈ ts) :
    Scoped P ts (.instr i)
  | block {ts ss} (hs : ∀ s ∈ ss, Scoped P ts s) : Scoped P ts (.block ss)
  | ifThen {ts c s} (hc : ∀ l on, P (.branch l c on)) (hs : Scoped P ts s) : Scoped P ts (.ifThen c s)
  | ifElse {ts c s t} (hc : ∀ l on, P (.branch l c on)) (hs : Scoped P ts s) (ht : Scoped P ts t) :
    Scoped P ts (.ifElse c s t)
  | whileLoop {ts c s x y} (hc : ∀ l on, P (.branch l c on)) (hs : Scoped P (x :: y :: ts) s) :
    Scoped P ts (.whileLoop c s x y)
  | doWhile {ts s c x y} (hs : Scoped P (x :: y :: ts) s) (hc : ∀ l on, P (.branch l c on)) :
    Scoped P ts (.doWhile s c x y)
  | forLoop {ts i c n s x y} (hi : Scoped P ts i) (hc : ∀ l on, P (.branch l c on))
    (hn : P (.eval n)) (hs : Scoped P (x :: y :: ts) s) : Scoped P ts (.forLoop i c n s x y)

theorem Stmt.Scoped.cons {P : Instr → Prop} {ts : List Label} {s : Stmt} {ss : List Stmt}
    (hs : s.Scoped P ts) (hss : (Stmt.block ss).Scoped P ts) : (Stmt.block (s :: ss)).Scoped P ts := by
  cases hss with
  | block hss => exact .block (List.forall_mem_cons.2 ⟨hs, hss⟩)

/-! ## Numbered labels -/

def Label.numbered (word : String) (n : Nat) : Label := ⟨word ++ Text.showNat n⟩

/-- The loops that begin in the statement have the numbers from `lo + 1` to `hi`, in turn. -/
inductive Stmt.Numbered : Nat → Nat → Stmt → Prop
  | instr (n) {i} (label : i.label? = none) : Numbered n n (.instr i)
  | nil (n) : Numbered n n (.block [])
  | cons {lo mid hi s ss} (hs : Numbered lo mid s) (hss : Numbered mid hi (.block ss)) :
    Numbered lo hi (.block (s :: ss))
  | ifThen (c) {lo hi s} (hs : Numbered lo hi s) : Numbered lo hi (.ifThen c s)
  | ifElse (c) {lo mid hi s t} (hs : Numbered lo mid s) (ht : Numbered mid hi t) :
    Numbered lo hi (.ifElse c s t)
  | whileLoop (c) {lo hi s} (hs : Numbered (lo + 1) hi s) :
    Numbered lo hi (.whileLoop c s (.numbered "break" (lo + 1)) (.numbered "continue" (lo + 1)))
  | doWhile (c) {lo hi s} (hs : Numbered (lo + 1) hi s) :
    Numbered lo hi (.doWhile s c (.numbered "break" (lo + 1)) (.numbered "continue" (lo + 1)))
  | forLoop (c n) {lo mid hi i s} (hfirst : Numbered lo mid i) (hs : Numbered (mid + 1) hi s) :
    Numbered lo hi
      (.forLoop i c n s (.numbered "break" (mid + 1)) (.numbered "continue" (mid + 1)))

end Typed

namespace Text

theorem showNat_injective : Function.Injective showNat := by
  intro n m h
  have hd : Nat.toDigits 10 n = Nat.toDigits 10 m := by
    simpa [showNat, natDigits] using congrArg String.toList h
  calc n = Nat.ofDigitChars 10 (Nat.toDigits 10 n) 0 := Nat.ofDigitChars_ten_toDigits.symm
    _ = Nat.ofDigitChars 10 (Nat.toDigits 10 m) 0 := by rw [hd]
    _ = m := Nat.ofDigitChars_ten_toDigits

end Text

namespace Typed

/-- The words that labels are named with. -/
def Label.words : List String := ["break", "continue", "Label"]

/-- Words and numbers can be read off the labels made from them. -/
theorem Label.numbered_inj {word word' : String} (hw : word ∈ words) (hw' : word' ∈ words)
    {n m : Nat} (h : Label.numbered word n = Label.numbered word' m) : word = word' ∧ n = m := by
  have hlist : word.toList ++ (Text.showNat n).toList = word'.toList ++ (Text.showNat m).toList := by
    rw [← String.toList_append, ← String.toList_append]
    exact congrArg (fun l => l.name.toList) h
  have hword : word = word' := by
    have hhead := congrArg List.head? hlist
    simp only [words, List.mem_cons, List.not_mem_nil, or_false] at hw hw'
    rcases hw with rfl | rfl | rfl <;> rcases hw' with rfl | rfl | rfl <;> simp at hhead ⊢
  subst hword
  exact ⟨rfl, Text.showNat_injective (String.toList_inj.1 (List.append_cancel_left hlist))⟩

end Typed

end Scripting
