import Mathlib.Data.Int.ModEq
import Scripting.Proofs.Run.Sequence
import Scripting.Proofs.Typing.Operation
import Scripting.Run.Recording

/-!
# Arithmetic on 32 bits

What the operators between integers evaluate to is told by the exact result: it is the integer in the range of 32
bits that differs from the exact result by a multiple of `2 ^ 32` (`Reduces`). There is only one, so an equation
between integers is shown modulo `2 ^ 32` (`Reduces.unique`); in this way the quotient and the remainder make up the
dividend also where the quotient does not fit.
-/

namespace Scripting

/-! ## Exact results and 32 bits -/

/-- The integer of 32 bits that an exact result is reduced to. -/
structure Reduces (exact : Int) (n : Int32) : Prop where
  lower : -2147483648 ≤ n.toInt
  upper : n.toInt < 2147483648
  congruent : n.toInt ≡ exact [ZMOD 4294967296]

namespace Reduces

variable {x y : Int} {m n : Int32}

theorem of_congruent (h : n.toInt ≡ x [ZMOD 4294967296]) : Reduces x n where
  lower := n.le_toInt
  upper := n.toInt_lt
  congruent := h

theorem of_bmod (h : n.toInt = x.bmod 4294967296) : Reduces x n :=
  of_congruent (h ▸ Int.bmod_emod)

theorem self (n : Int32) : Reduces n.toInt n := of_congruent rfl

theorem unique (hm : Reduces x m) (hn : Reduces x n) : m = n := by
  have hcongruent : m.toInt % 4294967296 = n.toInt % 4294967296 := hm.congruent.trans hn.congruent.symm
  have hm₁ := hm.lower
  have hm₂ := hm.upper
  have hn₁ := hn.lower
  have hn₂ := hn.upper
  exact Int32.toInt_inj.1 (by omega)

theorem add (hm : Reduces x m) (hn : Reduces y n) : Reduces (x + y) (m + n) :=
  of_congruent ((of_bmod (Int32.toInt_add m n)).congruent.trans (hm.congruent.add hn.congruent))

theorem mul (hm : Reduces x m) (hn : Reduces y n) : Reduces (x * y) (m * n) :=
  of_congruent ((of_bmod (Int32.toInt_mul m n)).congruent.trans (hm.congruent.mul hn.congruent))

end Reduces

/-- The remainder is the exact one: it makes up the dividend with the exact quotient, is smaller than the divisor,
and is zero or has the sign of the dividend. -/
theorem tmod_is_remainder (a : Int) {b : Int} (hb : b ≠ 0) :
    b * a.tdiv b + a.tmod b = a ∧ (a.tmod b).natAbs < b.natAbs ∧
      (a.tmod b = 0 ∨ (a.tmod b).sign = a.sign) := by
  refine ⟨Int.mul_tdiv_add_tmod a b, ?_, ?_⟩
  · rw [Int.natAbs_tmod]
    exact Nat.mod_lt _ (Int.natAbs_pos.2 hb)
  · by_cases hdvd : b ∣ a
    · exact .inl (Int.tmod_eq_zero_of_dvd hdvd)
    · exact .inr ((Int.sign_tmod a b).trans (if_neg hdvd))

/-- The quotient and the remainder make up the dividend, also where the quotient does not fit. -/
theorem div_mul_add_mod (a b : Int32) : a / b * b + a % b = a := by
  have hquotient : Reduces (a.toInt.tdiv b.toInt) (a / b) := .of_bmod (Int32.toInt_div a b)
  have hremainder : Reduces (a.toInt.tmod b.toInt) (a % b) := Int32.toInt_mod a b ▸ .self (a % b)
  have hsum := (hquotient.mul (.self b)).add hremainder
  rw [Int.tdiv_mul_add_tmod] at hsum
  exact hsum.unique (.self a)

namespace Typed.Expr

variable {σ : Type} {w : Setting σ} {call : Calls σ} {m : Machine σ} {x y : Expr} {a b c : Int32}

/-! ## Evaluation -/

/-- The expression has an integer as its value and leaves the machine as it is. -/
def Evaluates (w : Setting σ) (call : Calls σ) (m : Machine σ) (e : Expr) (n : Int32) : Prop :=
  e.eval w call m = .ok (some (.int n)) m

/-- The operation that a mark stands for between integers. -/
def between (x : Expr) (mark : Punct) (y : Expr) : Expr :=
  match BinaryOp.find? (.punct mark) .int .int with
  | some o => .binary x o y
  | none => .error

/-- The operation that a mark in front of an integer stands for. -/
def behind (mark : Punct) (x : Expr) : Expr :=
  match UnaryOp.find? (.punct mark) .int with
  | some o => .unary o x
  | none => .error

theorem required_of_evaluates (h : Evaluates w call m x a) : Run.required (x.eval w call) m = .ok (.int a) m := by
  unfold Run.required
  rw [Run.bind_of_ok h]
  rfl

theorem strict_of_find? {mark : Punct} {o : BinaryOp} (h : BinaryOp.find? (.punct mark) .int .int = some o) :
    o.kind.Strict := by
  have htable : ∀ o ∈ BinaryOp.all, o.left = .int → o.kind ≠ .logicalAnd ∧ o.kind ≠ .logicalOr := by decide
  obtain ⟨hmem, -, hleft, -⟩ := BinaryOp.of_find? h
  exact htable o hmem hleft

/-- Both operands are evaluated, and the operation is applied to their values. -/
theorem eval_between {mark : Punct} {o : BinaryOp} (ho : BinaryOp.find? (.punct mark) .int .int = some o)
    (hx : Evaluates w call m x a) (hy : Evaluates w call m y b) :
    (x.between mark y).eval w call m =
      (Run.ofExcept (o.kind.apply (.int a) (.int b)) >>= fun v => pure (some v) : Run σ (Option Value)) m := by
  unfold between
  rw [ho]
  dsimp only
  rw [Expr.eval, Run.bind_of_ok (required_of_evaluates hx), (strict_of_find? ho).decided?, Run.ofExcept_ok, pure_bind]
  exact Run.bind_of_ok (required_of_evaluates hy) _

theorem Evaluates.between {mark : Punct} {o : BinaryOp} (hx : Evaluates w call m x a) (hy : Evaluates w call m y b)
    (ho : BinaryOp.find? (.punct mark) .int .int = some o) (hc : o.kind.apply (.int a) (.int b) = .ok (.int c)) :
    Evaluates w call m (x.between mark y) c := by
  unfold Evaluates
  rw [eval_between ho hx hy, hc]
  rfl

theorem Evaluates.negative (hx : Evaluates w call m x a) : Evaluates w call m (behind .dash x) (-a) := by
  show (Run.required (x.eval w call) >>= _) m = _
  rw [Run.bind_of_ok (required_of_evaluates hx)]
  rfl

theorem eval_division_by_zero {mark : Punct} (hmark : mark ∈ [Punct.slash, .percent]) (hx : Evaluates w call m x a)
    (hy : Evaluates w call m y 0) :
    (x.between mark y).eval w call m = .error (.error .divisionByZero) m := by
  rcases List.mem_pair.1 hmark with rfl | rfl
  · have hslash : BinaryOp.find? (.punct .slash) .int .int = some (.onBoth .slash .division .int .int) := rfl
    exact eval_between hslash hx hy
  · have hpercent : BinaryOp.find? (.punct .percent) .int .int = some (.onBoth .percent .modulo .int .int) := rfl
    exact eval_between hpercent hx hy

/-! ## The operators between integers -/

/-- What the operators between two integers evaluate to. -/
structure ExactArithmetic (w : Setting σ) (call : Calls σ) (m : Machine σ) (x y : Expr) (a b : Int32) : Prop where
  sum : ∃ c, Evaluates w call m (x.between .plus y) c ∧ Reduces (a.toInt + b.toInt) c
  difference : ∃ c, Evaluates w call m (x.between .dash y) c ∧ Reduces (a.toInt - b.toInt) c
  product : ∃ c, Evaluates w call m (x.between .star y) c ∧ Reduces (a.toInt * b.toInt) c
  negative : ∃ c, Evaluates w call m (behind .dash x) c ∧ Reduces (-a.toInt) c
  /-- by zero, division and remainder fail with the error of the script -/
  byZero : b = 0 → ∀ mark ∈ [Punct.slash, .percent],
    (x.between mark y).eval w call m = .error (.error .divisionByZero) m
  /-- otherwise both have a value: the quotient truncated towards zero, and the remainder that it leaves -/
  division : b ≠ 0 → ∃ q r, Evaluates w call m (x.between .slash y) q ∧ Evaluates w call m (x.between .percent y) r ∧
    Reduces (a.toInt.tdiv b.toInt) q ∧ b.toInt * a.toInt.tdiv b.toInt + r.toInt = a.toInt ∧
    r.toInt.natAbs < b.toInt.natAbs ∧ (r.toInt = 0 ∨ r.toInt.sign = a.toInt.sign) ∧
    (a.toInt = -2147483648 ∧ b.toInt = -1 → q.toInt = -2147483648 ∧ r.toInt = 0) ∧
    Evaluates w call m (((x.between .slash y).between .star y).between .plus (x.between .percent y)) a

/-- **Integer operators compute exactly, modulo `2 ^ 32`**: whatever two integers the operands have as values. -/
theorem integer_operators_are_exact (hx : Evaluates w call m x a) (hy : Evaluates w call m y b) :
    ExactArithmetic w call m x y a b where
  sum := ⟨_, hx.between hy rfl rfl, .of_bmod (Int32.toInt_add a b)⟩
  difference := ⟨_, hx.between hy rfl rfl, .of_bmod (Int32.toInt_sub a b)⟩
  product := ⟨_, hx.between hy rfl rfl, .of_bmod (Int32.toInt_mul a b)⟩
  negative := ⟨_, hx.negative, .of_bmod (Int32.toInt_neg a)⟩
  byZero hb mark hmark := eval_division_by_zero hmark hx (hb ▸ hy)
  division hb := by
    have hzero : b.toInt ≠ 0 := fun h => hb (Int32.toInt_inj.1 h)
    obtain ⟨hexact, hsmall, hsign⟩ := tmod_is_remainder a.toInt hzero
    have hquotient : Evaluates w call m (x.between .slash y) (a / b) :=
      hx.between hy rfl (Value.division_of_ne_zero _ a hb)
    have hremainder : Evaluates w call m (x.between .percent y) (a % b) :=
      hx.between hy rfl (Value.division_of_ne_zero _ a hb)
    have hproduct : Evaluates w call m ((x.between .slash y).between .star y) (a / b * b) :=
      hquotient.between hy rfl rfl
    have hwhole : Evaluates w call m (((x.between .slash y).between .star y).between .plus (x.between .percent y)) a :=
      hproduct.between hremainder rfl (congrArg (fun n => Except.ok (Value.int n)) (div_mul_add_mod a b))
    refine ⟨a / b, a % b, hquotient, hremainder, .of_bmod (Int32.toInt_div a b), ?_⟩
    rw [Int32.toInt_mod]
    refine ⟨hexact, hsmall, hsign, ?_, hwhole⟩
    rintro ⟨ha, hb⟩
    rw [Int32.toInt_div, ha, hb]
    decide

def number (n : Int32) : Expr := .literal (.int n)

/-- The setting of a new session. -/
def idle : Setting Recording := ⟨.initial, Recording.host, fun _ => none⟩

/-- A machine that has run nothing. -/
def fresh : Machine Recording := ⟨.empty, [], none, .ofAnswers [] []⟩

/-- The least integer divided by minus one is itself, with nothing left; divided by zero it is an error. -/
theorem least_integer_is_exact :
    (Evaluates idle (Run.call idle 0) fresh (number (-2147483648)) (-2147483648) ∧
      Evaluates idle (Run.call idle 0) fresh (number (-1)) (-1) ∧
      Evaluates idle (Run.call idle 0) fresh (number 0) 0) ∧
    (∃ q r, Evaluates idle (Run.call idle 0) fresh ((number (-2147483648)).between .slash (number (-1))) q ∧
      Evaluates idle (Run.call idle 0) fresh ((number (-2147483648)).between .percent (number (-1))) r ∧
      q.toInt = -2147483648 ∧ r.toInt = 0) ∧
    ((number (-2147483648)).between .slash (number 0)).eval idle (Run.call idle 0) fresh =
      .error (.error .divisionByZero) fresh := by
  have hleast : Evaluates idle (Run.call idle 0) fresh (number (-2147483648)) (-2147483648) := rfl
  have hone : Evaluates idle (Run.call idle 0) fresh (number (-1)) (-1) := rfl
  have hzero : Evaluates idle (Run.call idle 0) fresh (number 0) 0 := rfl
  obtain ⟨q, r, hq, hr, -, -, -, -, hvalues, -⟩ := (integer_operators_are_exact hleast hone).division (by decide)
  obtain ⟨hquotient, hremainder⟩ := hvalues ⟨by decide, by decide⟩
  exact ⟨⟨hleast, hone, hzero⟩, ⟨q, r, hq, hr, hquotient, hremainder⟩,
    (integer_operators_are_exact hleast hzero).byZero rfl .slash List.mem_cons_self⟩

end Typed.Expr

end Scripting
