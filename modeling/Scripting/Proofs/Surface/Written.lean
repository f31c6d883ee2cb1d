import Scripting.Surface.Grammar
import Scripting.Surface.Tree
import Scripting.Text.Decimal

/-!
# Written expressions

`Written form e ts` says that the tokens `ts` spell the expression `e`. Parentheses may stand around
any part; where the powers of the operators ask for them they have to. `form` is what is seen of the
expression from outside, and all that the side conditions look at: in parentheses everything is closed.

`Expr.tokens` prints an expression with no more parentheses than that.
-/

namespace Scripting

def Token.withoutSpan (t : Token) : Token := { t with span := .nowhere }

theorem Token.withoutSpan_inj {t u : Token} :
    t.withoutSpan = u.withoutSpan ↔ t.kind = u.kind ∧ t.value = u.value := by
  simp [Token.withoutSpan]

/-- The digits of a number read as that number. -/
theorem Text.readNat?_natDigits (k : Nat) : readNat? (natDigits k) = some k := by
  have hdigits : (Nat.toDigits 10 k).all Char.isDigit = true :=
    List.all_eq_true.2 fun c hc => Nat.isDigit_of_mem_toDigits (by decide) (by decide) hc
  have hne : (Nat.toDigits 10 k).isEmpty = false := List.isEmpty_eq_false_iff.2 Nat.toDigits_ne_nil
  have hvalue : digitsValue (Nat.toDigits 10 k) = k := Nat.ofDigitChars_ten_toDigits
  simp [readNat?, natDigits, hdigits, hne, hvalue]

/-- Digits alone are no sign, and stand for a number that is not negative. -/
theorem Text.readInt?_of_readNat? {cs : List Char} {k : Nat} (h : readNat? cs = some k) :
    readInt? cs = some (k : Int) := by
  unfold readInt?
  split
  · simp [readNat?] at h
  · simp [readNat?] at h
  · rw [h]
    rfl

namespace Surface

/-! ## Expressions up to their spans -/

def Name.withoutSpan (x : Name) : Name := { x with span := .nowhere }

mutual

/-- The expression with every span forgotten. -/
def Expr.withoutSpans : Expr → Expr
  | .number n _ => .number n .nowhere
  | .text s _ => .text s .nowhere
  | .boolean b _ => .boolean b .nowhere
  | .name x => .name x.withoutSpan
  | .binary l o r _ => .binary l.withoutSpans o.withoutSpan r.withoutSpans .nowhere
  | .unary o e _ => .unary o.withoutSpan e.withoutSpans .nowhere
  | .assign x o e _ => .assign x.withoutSpan o.withoutSpan e.withoutSpans .nowhere
  | .call f es _ => .call f.withoutSpan (Expr.allWithoutSpans es) .nowhere

def Expr.allWithoutSpans : List Expr → List Expr
  | [] => []
  | e :: es => e.withoutSpans :: Expr.allWithoutSpans es

end

section Inversion

variable {e : Expr} {span : Span}

theorem Expr.withoutSpans_eq_number {n : Int32} (h : e.withoutSpans = .number n span) :
    ∃ place, e = .number n place := by
  cases e <;> simp only [Expr.withoutSpans, reduceCtorEq, Expr.number.injEq] at h
  exact ⟨_, by rw [h.1]⟩

theorem Expr.withoutSpans_eq_text {text : String} (h : e.withoutSpans = .text text span) :
    ∃ place, e = .text text place := by
  cases e <;> simp only [Expr.withoutSpans, reduceCtorEq, Expr.text.injEq] at h
  exact ⟨_, by rw [h.1]⟩

theorem Expr.withoutSpans_eq_boolean {b : Bool} (h : e.withoutSpans = .boolean b span) :
    ∃ place, e = .boolean b place := by
  cases e <;> simp only [Expr.withoutSpans, reduceCtorEq, Expr.boolean.injEq] at h
  exact ⟨_, by rw [h.1]⟩

theorem Expr.withoutSpans_eq_name {x : Name} (h : e.withoutSpans = .name x) :
    ∃ y, e = .name y ∧ y.withoutSpan = x := by
  cases e <;> simp only [Expr.withoutSpans, reduceCtorEq, Expr.name.injEq] at h
  exact ⟨_, rfl, h⟩

theorem Expr.withoutSpans_eq_binary {l r : Expr} {o : Token} (h : e.withoutSpans = .binary l o r span) :
    ∃ left operator right place, e = .binary left operator right place ∧
      left.withoutSpans = l ∧ operator.withoutSpan = o ∧ right.withoutSpans = r := by
  cases e <;> simp only [Expr.withoutSpans, reduceCtorEq, Expr.binary.injEq] at h
  exact ⟨_, _, _, _, rfl, h.1, h.2.1, h.2.2.1⟩

theorem Expr.withoutSpans_eq_unary {o : Token} {r : Expr} (h : e.withoutSpans = .unary o r span) :
    ∃ operator operand place, e = .unary operator operand place ∧
      operator.withoutSpan = o ∧ operand.withoutSpans = r := by
  cases e <;> simp only [Expr.withoutSpans, reduceCtorEq, Expr.unary.injEq] at h
  exact ⟨_, _, _, rfl, h.1, h.2.1⟩

theorem Expr.withoutSpans_eq_assign {x : Name} {o : Token} {r : Expr}
    (h : e.withoutSpans = .assign x o r span) :
    ∃ name operator value place, e = .assign name operator value place ∧
      name.withoutSpan = x ∧ operator.withoutSpan = o ∧ value.withoutSpans = r := by
  cases e <;> simp only [Expr.withoutSpans, reduceCtorEq, Expr.assign.injEq] at h
  exact ⟨_, _, _, _, rfl, h.1, h.2.1, h.2.2.1⟩

theorem Expr.withoutSpans_eq_call {f : Name} {rs : List Expr} (h : e.withoutSpans = .call f rs span) :
    ∃ callee args place, e = .call callee args place ∧
      callee.withoutSpan = f ∧ Expr.allWithoutSpans args = rs := by
  cases e <;> simp only [Expr.withoutSpans, reduceCtorEq, Expr.call.injEq] at h
  exact ⟨_, _, _, rfl, h.1, h.2.1⟩

theorem Expr.allWithoutSpans_eq_nil {es : List Expr} (h : Expr.allWithoutSpans es = []) : es = [] := by
  cases es <;> simp only [Expr.allWithoutSpans, reduceCtorEq] at h
  rfl

theorem Expr.allWithoutSpans_eq_cons {r : Expr} {rs es : List Expr} (h : Expr.allWithoutSpans es = r :: rs) :
    ∃ u us, es = u :: us ∧ u.withoutSpans = r ∧ Expr.allWithoutSpans us = rs := by
  cases es <;> simp only [Expr.allWithoutSpans, reduceCtorEq, List.cons.injEq] at h
  exact ⟨_, _, rfl, h.1, h.2⟩

end Inversion

/-! ## Forms -/

/-- What is seen of a written expression from outside. -/
inductive Form
  | closed
  | headed
  | binary (own : Power)
  | assignment
deriving DecidableEq, Repr

namespace Form

/-- Whether it may stand bare to the left of an operator of power `own`: an assignment may not, nor
may what binds looser. -/
def standsLeft (own : Power) : Form → Bool
  | binary p => own ≤ p
  | assignment => false
  | _ => true

/-- Whether it may stand bare to the right of an operator of power `own`: an assignment may not, nor
may what binds no tighter. -/
def standsRight (own : Power) : Form → Bool
  | binary p => ¬ p ≤ own
  | assignment => false
  | _ => true

/-- Whether it may stand bare behind an operator that comes before its operand. -/
def standsBehind : Form → Bool
  | binary _ => false
  | assignment => false
  | _ => true

end Form

/-! ## The relation -/

mutual

/-- The tokens spell the expression, and look like `form` from outside. -/
inductive Written : Form → Expr → List Token → Prop
  | number {t : Token} {n : Int32} {k : Nat} {s : Span} (kind : t.kind = .number)
      (digits : Text.readNat? t.value.toList = some k) (value : n.toInt = k) :
      Written .closed (.number n s) [t]
  | text {t : Token} {value : String} {s : Span} (kind : t.kind = .text)
      (spelling : t.value = value) : Written .closed (.text value s) [t]
  | truth {t : Token} {s : Span} (kind : t.kind = .keyword .true_) :
      Written .closed (.boolean true s) [t]
  | falsity {t : Token} {s : Span} (kind : t.kind = .keyword .false_) :
      Written .closed (.boolean false s) [t]
  | name {t : Token} {x : Name} (kind : t.kind = .identifier) (spelling : t.value = x.text) :
      Written .closed (.name x) [t]
  | group {t u : Token} {form : Form} {e : Expr} {ts : List Token}
      (opening : t.kind = .punct .openParen) (closing : u.kind = .punct .closeParen)
      (inner : Written form e ts) : Written .closed e (t :: (ts ++ [u]))
  | unary {t o : Token} {form : Form} {e : Expr} {ts : List Token} {s : Span}
      (operator : t.withoutSpan = o.withoutSpan)
      (rule : Grammar.standard.head o.kind = some .operator)
      (operand : Written form e ts) (bare : form.standsBehind) :
      Written .headed (.unary o e s) (t :: ts)
  | binary {t o : Token} {own : Power} {left right : Form} {l r : Expr} {ls rs : List Token} {s : Span}
      (operator : t.withoutSpan = o.withoutSpan)
      (rule : Grammar.standard.tail o.kind = some (own, .binary))
      (leftOperand : Written left l ls) (leftBare : left.standsLeft own)
      (rightOperand : Written right r rs) (rightBare : right.standsRight own) :
      Written (.binary own) (.binary l o r s) (ls ++ t :: rs)
  | assign {t o : Token} {x : Name} {own : Power} {form : Form} {e : Expr} {xs ts : List Token} {s : Span}
      (operator : t.withoutSpan = o.withoutSpan)
      (rule : Grammar.standard.tail o.kind = some (own, .assign))
      (name : Written .closed (.name x) xs) (value : Written form e ts) :
      Written .assignment (.assign x o e s) (xs ++ t :: ts)
  | call {t u : Token} {f : Name} {es : List Expr} {fs us : List Token} {s : Span}
      (opening : t.kind = .punct .openParen) (closing : u.kind = .punct .closeParen)
      (name : Written .closed (.name f) fs) (arguments : WrittenAll es us) :
      Written .closed (.call f es s) (fs ++ t :: (us ++ [u]))

/-- The tokens spell the expressions, with commas between them. -/
inductive WrittenAll : List Expr → List Token → Prop
  | nil : WrittenAll [] []
  | last {form : Form} {e : Expr} {ts : List Token} (expr : Written form e ts) : WrittenAll [e] ts
  | cons {t : Token} {form : Form} {e e' : Expr} {es : List Expr} {ts us : List Token}
      (comma : t.kind = .punct .comma) (expr : Written form e ts) (others : WrittenAll (e' :: es) us) :
      WrittenAll (e :: e' :: es) (ts ++ t :: us)

end

/-- A written expression begins with a token that begins expressions. -/
theorem Written.begins {form : Form} {e : Expr} {ts : List Token} (h : Written form e ts) :
    ∃ t us, ts = t :: us ∧ Grammar.standard.head t.kind ≠ none := by
  match h with
  | .number kind _ _ | .text kind _ | .truth kind | .falsity kind | .name kind _ =>
    exact ⟨_, _, rfl, by rw [kind]; decide⟩
  | .group opening _ _ => exact ⟨_, _, rfl, by rw [opening]; decide⟩
  | .unary operator rule _ _ =>
    exact ⟨_, _, rfl, by rw [(Token.withoutSpan_inj.1 operator).1, rule]; decide⟩
  | .binary _ _ first _ _ _ | .assign _ _ first _ | .call _ _ first _ =>
    obtain ⟨t, us, rfl, ht⟩ := first.begins
    exact ⟨t, _, List.cons_append .., ht⟩

/-! ## Printing -/

namespace Expr

mutual

/-- Whether the expression can be written: numbers are not negative, and operators are operators. -/
def proper : Expr → Bool
  | .number n _ => 0 ≤ n.toInt
  | .text _ _ => true
  | .boolean _ _ => true
  | .name _ => true
  | .binary l o r _ =>
    (Grammar.standard.tail o.kind).any (·.2 = .binary) && l.proper && r.proper
  | .unary o e _ => Grammar.standard.head o.kind = some .operator && e.proper
  | .assign _ o e _ => (Grammar.standard.tail o.kind).any (·.2 = .assign) && e.proper
  | .call _ es _ => allProper es

def allProper : List Expr → Bool
  | [] => true
  | e :: es => e.proper && allProper es

end

/-- What is seen of the expression when it is written without parentheses around it. -/
def form : Expr → Form
  | .binary _ o _ _ => .binary ((Grammar.standard.tail o.kind).elim .lowest (·.1))
  | .unary _ _ _ => .headed
  | .assign _ _ _ _ => .assignment
  | _ => .closed

/-- A mark that stands nowhere. -/
def mark (p : Punct) : Token := ⟨.punct p, p.text, .nowhere⟩

def nameToken (x : Name) : Token := ⟨.identifier, x.text, x.span⟩

/-- The tokens as they are if they may stand bare, otherwise in parentheses. -/
def fenced (bare : Bool) (ts : List Token) : List Token :=
  if bare then ts else mark .openParen :: (ts ++ [mark .closeParen])

mutual

/-- The tokens that spell an expression, with parentheses only where they are needed. -/
def tokens : Expr → List Token
  | .number n s => [⟨.number, Text.showInt32 n, s⟩]
  | .text t s => [⟨.text, t, s⟩]
  | .boolean true s => [⟨.keyword .true_, Keyword.true_.text, s⟩]
  | .boolean false s => [⟨.keyword .false_, Keyword.false_.text, s⟩]
  | .name x => [nameToken x]
  | .binary l o r _ =>
    let own := (Grammar.standard.tail o.kind).elim .lowest (·.1)
    fenced (l.form.standsLeft own) l.tokens ++ o :: fenced (r.form.standsRight own) r.tokens
  | .unary o e _ => o :: fenced e.form.standsBehind e.tokens
  | .assign x o e _ => [nameToken x] ++ o :: e.tokens
  | .call f es _ => [nameToken f] ++ mark .openParen :: (allTokens es ++ [mark .closeParen])

def allTokens : List Expr → List Token
  | [] => []
  | [e] => e.tokens
  | e :: e' :: es => e.tokens ++ mark .comma :: allTokens (e' :: es)

end

end Expr

/-- In parentheses wherever it may not stand bare, a written expression may stand. -/
theorem Written.fenced {form : Form} {e : Expr} {ts : List Token} (h : Written form e ts)
    (stands : Form → Bool) (hclosed : stands .closed = true) :
    ∃ form', Written form' e (Expr.fenced (stands form) ts) ∧ stands form' = true := by
  unfold Expr.fenced
  by_cases hstands : stands form = true
  · rw [if_pos hstands]
    exact ⟨form, h, hstands⟩
  · rw [if_neg hstands]
    exact ⟨.closed, .group rfl rfl h, hclosed⟩

mutual

/-- What is printed is written. -/
theorem written_tokens : ∀ (e : Expr), e.proper = true → Written e.form e e.tokens
  | .number n s, h => by
    obtain ⟨k, hk⟩ := Int.eq_ofNat_of_zero_le (of_decide_eq_true h)
    refine .number rfl ?_ hk
    simp only [Text.showInt32, hk, String.toList_ofList]
    exact Text.readNat?_natDigits k
  | .text _ _, _ => .text rfl rfl
  | .boolean true _, _ => .truth rfl
  | .boolean false _, _ => .falsity rfl
  | .name _, _ => .name rfl rfl
  | .binary l o r s, h => by
    simp only [Expr.proper, Bool.and_eq_true, Option.any_eq_true, decide_eq_true_eq] at h
    obtain ⟨⟨⟨⟨own, _⟩, hrule, rfl⟩, hl⟩, hr⟩ := h
    obtain ⟨left, hleft, hleftBare⟩ :=
      (written_tokens l hl).fenced (Form.standsLeft own) rfl
    obtain ⟨right, hright, hrightBare⟩ :=
      (written_tokens r hr).fenced (Form.standsRight own) rfl
    simp only [Expr.form, Expr.tokens, hrule, Option.elim_some]
    exact .binary rfl hrule hleft hleftBare hright hrightBare
  | .unary o e s, h => by
    simp only [Expr.proper, Bool.and_eq_true, decide_eq_true_eq] at h
    obtain ⟨hrule, he⟩ := h
    obtain ⟨form, hoperand, hbare⟩ := (written_tokens e he).fenced Form.standsBehind rfl
    exact .unary rfl hrule hoperand hbare
  | .assign x o e s, h => by
    simp only [Expr.proper, Bool.and_eq_true, Option.any_eq_true, decide_eq_true_eq] at h
    obtain ⟨⟨⟨own, _⟩, hrule, rfl⟩, he⟩ := h
    exact .assign rfl hrule (.name rfl rfl) (written_tokens e he)
  | .call f es s, h => .call rfl rfl (.name rfl rfl) (writtenAll_tokens es h)

/-- What is printed of a list is written. -/
theorem writtenAll_tokens : ∀ (es : List Expr), Expr.allProper es = true →
    WrittenAll es (Expr.allTokens es)
  | [], _ => .nil
  | [e], h => by
    simp only [Expr.allProper, Bool.and_eq_true] at h
    exact .last (written_tokens e h.1)
  | e :: e' :: es, h => by
    simp only [Expr.allProper, Bool.and_eq_true] at h
    refine .cons rfl (written_tokens e h.1) (writtenAll_tokens (e' :: es) ?_)
    simp only [Expr.allProper, Bool.and_eq_true]
    exact h.2

end

end Surface

end Scripting
