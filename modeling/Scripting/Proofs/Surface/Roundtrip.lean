import Scripting.Proofs.Surface.Reading
import Scripting.Proofs.Surface.Written

/-!
# Reading what was written

A written expression reads back as itself up to spans, and reading stops behind its last token. The
induction is over how it was written. What it carries is `Reads`: reading at a power that the form
allows comes to extending the expression by what follows it, as long as what follows does not bind into
its last operand.
-/

namespace Scripting.Surface

/-- Digits read as the 32-bit number they denote. -/
theorem readInt32?_of_readNat? {cs : List Char} {n : Int32} {k : Nat}
    (hdigits : Text.readNat? cs = some k) (hvalue : n.toInt = k) : Text.readInt32? cs = some n := by
  have hlow := n.le_toInt
  have hhigh := n.toInt_lt
  have hfits : -2147483648 ≤ (k : Int) ∧ (k : Int) < 2147483648 := by omega
  unfold Text.readInt32?
  rw [Text.readInt?_of_readNat? hdigits, Option.bind_eq_bind, Option.bind_some, if_pos hfits, ← hvalue,
    Int32.ofInt_toInt]

namespace Power

theorem le_of_not_le {p q : Power} (h : ¬ p ≤ q) : q ≤ p := Nat.le_of_not_le h

theorem le_trans {p q r : Power} (h : p ≤ q) (h' : q ≤ r) : p ≤ r := Nat.le_trans h h'

end Power

namespace Form

/-- The powers at which what looks like this is read as a whole. -/
def ReadAt (power : Power) : Form → Prop
  | binary own => ¬ own ≤ power
  | assignment => power = .lowest
  | _ => power ≤ .unary

/-- An operator of power `own` that follows does not bind into the last operand. -/
def Ends (own : Power) : Form → Prop
  | closed => True
  | headed => own ≤ .unary
  | binary p => own ≤ p
  | assignment => False

theorem readAt_unary {form : Form} (h : form.standsBehind) : form.ReadAt .unary := by
  cases form with
  | binary _ | assignment => cases h
  | closed | headed => exact (by decide : Power.unary ≤ Power.unary)

theorem ends_unary {form : Form} {own : Power} (h : form.standsBehind) (hown : own ≤ .unary) :
    form.Ends own := by
  cases form with
  | binary _ | assignment => cases h
  | closed => trivial
  | headed => exact hown

theorem readAt_left {form : Form} {own power : Power} (h : form.standsLeft own)
    (hpower : ¬ own ≤ power) (hunary : own ≤ .unary) : form.ReadAt power := by
  have htotal : power ≤ own := Power.le_of_not_le hpower
  cases form with
  | assignment => cases h
  | binary p => exact fun hp => hpower (Power.le_trans (of_decide_eq_true h) hp)
  | closed | headed => exact Power.le_trans htotal hunary

theorem ends_left {form : Form} {own : Power} (h : form.standsLeft own) (hunary : own ≤ .unary) :
    form.Ends own := by
  cases form with
  | assignment => cases h
  | binary p => exact (of_decide_eq_true h : own ≤ p)
  | closed => trivial
  | headed => exact hunary

theorem readAt_right {form : Form} {own : Power} (h : form.standsRight own) (hunary : own ≤ .unary) :
    form.ReadAt own := by
  cases form with
  | assignment => cases h
  | binary p => exact (of_decide_eq_true h : ¬ p ≤ own)
  | closed | headed => exact hunary

theorem ends_right {form : Form} {own own' : Power} (h : form.standsRight own)
    (hunary : own ≤ .unary) (hown : own' ≤ own) : form.Ends own' := by
  cases form with
  | assignment => cases h
  | binary p => exact Power.le_trans hown (Power.le_of_not_le (of_decide_eq_true h))
  | closed => trivial
  | headed => exact Power.le_trans hown hunary

end Form

/-- The powers of binary operators lie between assignments and operators before their operand. -/
theorem Grammar.power_of_binary {k : TokenKind} {own : Power}
    (h : Grammar.standard.tail k = some (own, .binary)) : own ≤ .unary ∧ ¬ own ≤ .lowest := by
  cases k with
  | punct p => cases p <;> cases h <;> decide
  | _ => cases h

theorem Grammar.power_of_assign {k : TokenKind} {own : Power}
    (h : Grammar.standard.tail k = some (own, .assign)) : own = .assignment := by
  cases k with
  | punct p => cases p <;> cases h <;> rfl
  | _ => cases h

/-- Reading `ts` in front of `t` comes to extending `e` by `t` and what follows it. -/
def Reads (form : Form) (e : Expr) (ts : List Token) : Prop :=
  ∀ ⦃power : Power⦄ ⦃n : Nat⦄ ⦃c : Cursor⦄ ⦃t : Token⦄ ⦃rest : List Token⦄,
    c.rest = ts ++ t :: rest → form.ReadAt power →
    (∀ own rule, Grammar.standard.tail t.kind = some (own, rule) → form.Ends own) →
    2 * ts.length + 2 ≤ n →
    ∃ e' m, e'.withoutSpans = e.withoutSpans ∧ n ≤ m + ts.length ∧
      Reading.expr .standard power n c =
        Reading.extend .standard power e' m (c.behind ts (t :: rest))

/-- Reading `us` in front of a closing parenthesis gives `es`. -/
def ReadsAll (es : List Expr) (us : List Token) : Prop :=
  ∀ ⦃n : Nat⦄ ⦃c : Cursor⦄ ⦃t : Token⦄ ⦃rest : List Token⦄,
    c.rest = us ++ t :: rest → t.kind = .punct .closeParen → 2 * us.length + 3 ≤ n →
    ∃ es', Expr.allWithoutSpans es' = Expr.allWithoutSpans es ∧
      Reading.arguments .standard n c = .ok es' (c.behind us (t :: rest))

namespace Reads

variable {form : Form} {e : Expr} {ts : List Token}

/-- In front of a token that binds no tighter than the power asked for, reading ends. -/
theorem ends (h : Reads form e ts) {power : Power} {n : Nat} {c : Cursor} {t : Token}
    {rest : List Token} (hc : c.rest = ts ++ t :: rest) (hpower : form.ReadAt power)
    (hend : ∀ own rule, Grammar.standard.tail t.kind = some (own, rule) →
      form.Ends own ∧ own ≤ power) (hn : 2 * ts.length + 2 ≤ n) :
    ∃ e', e'.withoutSpans = e.withoutSpans ∧
      Reading.expr .standard power n c = .ok e' (c.behind ts (t :: rest)) := by
  obtain ⟨e', m, he, hm, hread⟩ := h hc hpower (fun own rule hrule => (hend own rule hrule).1) hn
  obtain ⟨k, rfl⟩ := Nat.exists_eq_succ_of_ne_zero (by omega : m ≠ 0)
  refine ⟨e', he, hread.trans ?_⟩
  exact Reading.extend_stop rfl fun own rule hrule => (hend own rule hrule).2

/-- In front of a token that continues no expression, reading ends at every power. -/
theorem ends_alone (h : Reads form e ts) {power : Power} {n : Nat} {c : Cursor} {t : Token}
    {rest : List Token} (hc : c.rest = ts ++ t :: rest) (hpower : form.ReadAt power)
    (hnone : Grammar.standard.tail t.kind = none) (hn : 2 * ts.length + 2 ≤ n) :
    ∃ e', e'.withoutSpans = e.withoutSpans ∧
      Reading.expr .standard power n c = .ok e' (c.behind ts (t :: rest)) := by
  refine h.ends hc hpower (fun own rule hrule => ?_) hn
  rw [hnone] at hrule
  cases hrule

/-- A token that `literal` reads. -/
theorem of_literal {t : Token} (hrule : Grammar.standard.head t.kind = some .literal)
    (hread : ∀ (c : Cursor) (rest : List Token), c.rest = t :: rest →
      ∃ e', e'.withoutSpans = e.withoutSpans ∧ Reading.literal c = .ok e' (c.behind [t] rest)) :
    Reads .closed e [t] := by
  intro power n c u rest hc _ _ hn
  obtain ⟨m, rfl⟩ : ∃ m, n = m + 2 := ⟨n - 2, by simp at hn; omega⟩
  obtain ⟨e', he, hliteral⟩ := hread c (u :: rest) hc
  refine ⟨e', m + 1, he, by simp, Reading.expr_succ hc hrule ?_⟩
  rw [Reading.head]
  exact hliteral

theorem group {t u : Token} (ht : t.kind = .punct .openParen) (hu : u.kind = .punct .closeParen)
    (h : Reads form e ts) (hlowest : form.ReadAt .lowest) :
    Reads .closed e (t :: (ts ++ [u])) := by
  intro power n c v rest hc _ _ hn
  simp only [List.length_cons, List.length_append, List.length_nil] at hn
  obtain ⟨m, rfl⟩ : ∃ m, n = m + 2 := ⟨n - 2, by omega⟩
  have hinner : (c.behind [t] (ts ++ u :: v :: rest)).rest = ts ++ u :: (v :: rest) := rfl
  have hnone : Grammar.standard.tail u.kind = none := hu ▸ rfl
  obtain ⟨e', he, hread⟩ := h.ends_alone (n := m) hinner hlowest hnone (by omega)
  have hopen : c.rest = t :: (ts ++ u :: v :: rest) := by simpa using hc
  refine ⟨e', m + 1, he, by simp; omega, ?_⟩
  rw [Reading.expr_succ hopen (ht ▸ rfl : Grammar.standard.head t.kind = some .group) (Reading.head_group hopen hread rfl hu)]
  simp

theorem unary {t o : Token} {s : Span} (ho : t.withoutSpan = o.withoutSpan)
    (hrule : Grammar.standard.head o.kind = some .operator) (h : Reads form e ts)
    (hbare : form.standsBehind) : Reads .headed (.unary o e s) (t :: ts) := by
  intro power n c v rest hc _ hends hn
  simp only [List.length_cons] at hn
  obtain ⟨m, rfl⟩ : ∃ m, n = m + 2 := ⟨n - 2, by omega⟩
  have hoperand : (c.behind [t] (ts ++ v :: rest)).rest = ts ++ v :: rest := rfl
  obtain ⟨e', he, hread⟩ := h.ends (n := m) hoperand (Form.readAt_unary hbare)
    (fun own rule hrule => ⟨Form.ends_unary hbare (hends own rule hrule), hends own rule hrule⟩)
    (by omega)
  have hopen : c.rest = t :: (ts ++ v :: rest) := hc
  have hkind : Grammar.standard.head t.kind = some .operator := by
    rw [(Token.withoutSpan_inj.1 ho).1, hrule]
  refine ⟨.unary t e' (t.span.upTo e'.span), m + 1, ?_, by simp; omega, ?_⟩
  · simp [Expr.withoutSpans, ho, he]
  · rw [Reading.expr_succ hopen hkind (Reading.head_operator hopen hread)]
    simp

theorem binary {t o : Token} {own : Power} {left right : Form} {l r : Expr} {ls rs : List Token}
    {s : Span} (ho : t.withoutSpan = o.withoutSpan)
    (hrule : Grammar.standard.tail o.kind = some (own, .binary)) (hl : Reads left l ls)
    (hleft : left.standsLeft own) (hr : Reads right r rs) (hright : right.standsRight own) :
    Reads (.binary own) (.binary l o r s) (ls ++ t :: rs) := by
  intro power n c v rest hc hpower hends hn
  simp only [List.length_append, List.length_cons] at hn
  have hunary := (Grammar.power_of_binary hrule).1
  have htail : Grammar.standard.tail t.kind = some (own, .binary) := by
    rw [(Token.withoutSpan_inj.1 ho).1, hrule]
  have hc' : c.rest = ls ++ t :: (rs ++ v :: rest) := by simpa using hc
  obtain ⟨l', m, hle, hm, hreadLeft⟩ := hl hc' (Form.readAt_left hleft hpower hunary)
    (fun own' rule h => by
      obtain ⟨rfl, -⟩ := Prod.mk.inj (Option.some.inj (htail.symm.trans h))
      exact Form.ends_left hleft hunary) (by omega : 2 * ls.length + 2 ≤ n)
  obtain ⟨k, rfl⟩ : ∃ k, m = k + 2 := ⟨m - 2, by omega⟩
  obtain ⟨r', hre, hreadRight⟩ := hr.ends (n := k)
    (rfl : ((c.behind ls (t :: (rs ++ v :: rest))).behind [t] (rs ++ v :: rest)).rest = rs ++ v :: rest)
    (Form.readAt_right hright hunary)
    (fun own' rule h => ⟨Form.ends_right hright hunary (hends own' rule h), hends own' rule h⟩)
    (by omega)
  refine ⟨.binary l' t r' (l'.span.upTo r'.span), k + 1, ?_, by simp; omega, ?_⟩
  · simp [Expr.withoutSpans, hle, hre, ho]
  · rw [hreadLeft, Reading.extend_on rfl htail hpower (Reading.tail_binary rfl hreadRight)]
    simp

/-- A name that is assigned to or called. -/
theorem of_name {x : Name} {xs : List Token} (h : Reads .closed (.name x) xs) {power : Power} {n : Nat}
    {c : Cursor} {t : Token} {rest : List Token} (hc : c.rest = xs ++ t :: rest)
    (hpower : power ≤ .unary) (hn : 2 * xs.length + 2 ≤ n) :
    ∃ y k, y.withoutSpan = x.withoutSpan ∧ n ≤ k + 2 + xs.length ∧
      Reading.expr .standard power n c =
        Reading.extend .standard power (.name y) (k + 2) (c.behind xs (t :: rest)) := by
  obtain ⟨e, m, he, hm, hread⟩ := h hc hpower (fun _ _ _ => trivial) hn
  obtain ⟨y, rfl, hy⟩ := Expr.withoutSpans_eq_name he
  obtain ⟨k, rfl⟩ : ∃ k, m = k + 2 := ⟨m - 2, by omega⟩
  exact ⟨y, k, hy, hm, hread⟩

theorem assign {t o : Token} {x : Name} {own : Power} {xs : List Token} {s : Span}
    (ho : t.withoutSpan = o.withoutSpan)
    (hrule : Grammar.standard.tail o.kind = some (own, .assign))
    (hx : Reads .closed (.name x) xs) (h : Reads form e ts) (hlowest : form.ReadAt .lowest) :
    Reads .assignment (.assign x o e s) (xs ++ t :: ts) := by
  intro power n c v rest hc hpower hends hn
  subst hpower
  simp only [List.length_append, List.length_cons] at hn
  obtain rfl := Grammar.power_of_assign hrule
  have htail : Grammar.standard.tail t.kind = some (.assignment, .assign) := by
    rw [(Token.withoutSpan_inj.1 ho).1, hrule]
  have hc' : c.rest = xs ++ t :: (ts ++ v :: rest) := by simpa using hc
  obtain ⟨y, k, hy, hk, hreadTarget⟩ := hx.of_name (n := n) hc'
    (by decide : Power.lowest ≤ Power.unary) (by omega)
  -- nothing may follow an assignment that would continue its value
  have hnone : Grammar.standard.tail v.kind = none := by
    cases hv : Grammar.standard.tail v.kind with
    | none => rfl
    | some r => exact (hends r.1 r.2 hv).elim
  obtain ⟨e', he, hreadValue⟩ := h.ends_alone (n := k)
    (rfl : ((c.behind xs (t :: (ts ++ v :: rest))).behind [t] (ts ++ v :: rest)).rest = ts ++ v :: rest)
    hlowest hnone (by omega)
  refine ⟨.assign y t e' (y.span.upTo e'.span), k + 1, ?_, by simp; omega, ?_⟩
  · simp [Expr.withoutSpans, he, ho, hy]
  · rw [hreadTarget,
      Reading.extend_on rfl htail (by decide) (Reading.tail_assign rfl y hreadValue)]
    simp

theorem call_nil {t u : Token} {f : Name} {fs : List Token} {s : Span}
    (ht : t.kind = .punct .openParen) (hu : u.kind = .punct .closeParen)
    (hf : Reads .closed (.name f) fs) : Reads .closed (.call f [] s) (fs ++ [t, u]) := by
  intro power n c v rest hc hpower _ hn
  simp only [List.length_append, List.length_cons, List.length_nil] at hn
  have htail : Grammar.standard.tail t.kind = some (.call, .call) := ht ▸ rfl
  have htight : ¬ Power.call ≤ power := fun h => absurd (Power.le_trans h hpower) (by decide)
  have hc' : c.rest = fs ++ t :: (u :: v :: rest) := by simpa using hc
  obtain ⟨y, k, hy, hk, hread⟩ := hf.of_name (n := n) hc' hpower (by omega)
  rw [Reading.extend_on rfl htail htight (Reading.tail_call_nil rfl y rfl hu),
    Cursor.behind_behind] at hread
  refine ⟨_, k + 1, ?_, by simp; omega, hread⟩
  simp [Expr.withoutSpans, Expr.allWithoutSpans, hy]

theorem call {t u v : Token} {f : Name} {es : List Expr} {fs vs : List Token} {s : Span}
    (ht : t.kind = .punct .openParen) (hu : u.kind = .punct .closeParen)
    (hf : Reads .closed (.name f) fs) (hes : ReadsAll es (v :: vs))
    (hv : v.kind ≠ .punct .closeParen) :
    Reads .closed (.call f es s) (fs ++ t :: (v :: vs ++ [u])) := by
  intro power n c w rest hc hpower _ hn
  simp only [List.length_append, List.length_cons, List.length_nil] at hn
  have htail : Grammar.standard.tail t.kind = some (.call, .call) := ht ▸ rfl
  have htight : ¬ Power.call ≤ power := fun h => absurd (Power.le_trans h hpower) (by decide)
  have hc' : c.rest = fs ++ t :: (v :: vs ++ u :: w :: rest) := by simpa using hc
  obtain ⟨y, k, hy, hk, hread⟩ := hf.of_name (n := n) hc' hpower (by omega)
  obtain ⟨es', hese, hreadAll⟩ := hes (n := k)
    (rfl : ((c.behind fs (t :: (v :: vs ++ u :: w :: rest))).behind [t]
      (v :: vs ++ u :: w :: rest)).rest = v :: vs ++ u :: w :: rest) hu (by simp; omega)
  rw [Reading.extend_on rfl htail htight (Reading.tail_call rfl y rfl hv hreadAll rfl hu)] at hread
  simp only [Cursor.behind_behind, List.append_assoc] at hread
  refine ⟨_, k + 1, ?_, by simp; omega, hread⟩
  simp [Expr.withoutSpans, hy, hese]

end Reads

namespace ReadsAll

variable {form : Form} {e : Expr} {ts : List Token}

theorem last (h : Reads form e ts) (hlowest : form.ReadAt .lowest) : ReadsAll [e] ts := by
  intro n c t rest hc ht hn
  obtain ⟨m, rfl⟩ : ∃ m, n = m + 1 := ⟨n - 1, by omega⟩
  obtain ⟨e', he, hread⟩ := h.ends_alone (n := m) hc hlowest (ht ▸ rfl) (by omega)
  refine ⟨[e'], by simp [Expr.allWithoutSpans, he], Reading.arguments_last hread rfl ?_⟩
  rw [ht]
  decide

theorem cons {t : Token} {es : List Expr} {us : List Token} (ht : t.kind = .punct .comma)
    (h : Reads form e ts) (hlowest : form.ReadAt .lowest) (hes : ReadsAll es us) :
    ReadsAll (e :: es) (ts ++ t :: us) := by
  intro n c v rest hc hv hn
  simp only [List.length_append, List.length_cons] at hn
  obtain ⟨m, rfl⟩ : ∃ m, n = m + 1 := ⟨n - 1, by omega⟩
  have hc' : c.rest = ts ++ t :: (us ++ v :: rest) := by simpa using hc
  obtain ⟨e', he, hread⟩ := h.ends_alone (n := m) hc' hlowest (ht ▸ rfl) (by omega)
  obtain ⟨es', hese, hreadAll⟩ := hes (n := m)
    (rfl : ((c.behind ts (t :: (us ++ v :: rest))).behind [t] (us ++ v :: rest)).rest =
      us ++ v :: rest) hv (by omega)
  refine ⟨e' :: es', by simp [Expr.allWithoutSpans, he, hese], ?_⟩
  rw [Reading.arguments_cons hread rfl ht hreadAll]
  simp

end ReadsAll

/-- At the lowest power everything that is written can be read. -/
theorem Written.readAt_lowest {form : Form} {e : Expr} {ts : List Token} (h : Written form e ts) :
    form.ReadAt .lowest := by
  cases h with
  | binary _ rule _ _ _ _ => exact (Grammar.power_of_binary rule).2
  | assign _ _ _ _ => rfl
  | _ => exact (by decide : Power.lowest ≤ Power.unary)

/-- Written arguments do not begin with the parenthesis that ends them. -/
theorem WrittenAll.begins {es : List Expr} {us : List Token} (h : WrittenAll es us) :
    es = [] ∧ us = [] ∨ ∃ v vs, us = v :: vs ∧ v.kind ≠ .punct .closeParen := by
  have hclose {v : Token} (hv : Grammar.standard.head v.kind ≠ none) : v.kind ≠ .punct .closeParen :=
    fun hkind => hv (by rw [hkind]; rfl)
  cases h with
  | nil => exact .inl ⟨rfl, rfl⟩
  | last expr =>
    obtain ⟨v, vs, rfl, hv⟩ := expr.begins
    exact .inr ⟨v, vs, rfl, hclose hv⟩
  | cons _ expr _ =>
    obtain ⟨v, vs, rfl, hv⟩ := expr.begins
    exact .inr ⟨v, _, List.cons_append .., hclose hv⟩

mutual

/-- A written expression reads back, whatever does not bind into it may follow. -/
theorem Written.reads {form : Form} {e : Expr} {ts : List Token} (h : Written form e ts) :
    Reads form e ts := by
  match h with
  | .number kind digits value =>
    refine .of_literal (kind ▸ rfl) fun c rest hc =>
      ⟨_, ?_, Reading.literal_number hc kind (readInt32?_of_readNat? digits value)⟩
    rfl
  | .text kind spelling =>
    refine .of_literal (kind ▸ rfl) fun c rest hc => ⟨_, ?_, Reading.literal_text hc kind⟩
    rw [spelling]
    rfl
  | .truth kind =>
    refine .of_literal (kind ▸ rfl) fun c rest hc => ⟨_, ?_, Reading.literal_truth hc kind⟩
    rfl
  | .falsity kind =>
    refine .of_literal (kind ▸ rfl) fun c rest hc => ⟨_, ?_, Reading.literal_falsity hc kind⟩
    rfl
  | .name kind spelling =>
    refine .of_literal (kind ▸ rfl) fun c rest hc => ⟨_, ?_, Reading.literal_name hc kind⟩
    rw [spelling]
    rfl
  | .group opening closing inner => exact inner.reads.group opening closing inner.readAt_lowest
  | .unary operator rule operand bare => exact operand.reads.unary operator rule bare
  | .binary operator rule left leftBare right rightBare =>
    exact .binary operator rule left.reads leftBare right.reads rightBare
  | .assign operator rule name value =>
    exact .assign operator rule name.reads value.reads value.readAt_lowest
  | .call opening closing name arguments =>
    obtain ⟨rfl, rfl⟩ | ⟨v, vs, hvs, hv⟩ := arguments.begins
    · exact .call_nil opening closing name.reads
    · have hreads := arguments.reads (by simp [hvs])
      subst hvs
      exact .call opening closing name.reads hreads hv

/-- Written arguments read back. -/
theorem WrittenAll.reads {es : List Expr} {us : List Token} (h : WrittenAll es us) (hne : us ≠ []) :
    ReadsAll es us := by
  match h with
  | .nil => exact absurd rfl hne
  | .last expr => exact .last expr.reads expr.readAt_lowest
  | .cons comma expr others =>
    refine .cons comma expr.reads expr.readAt_lowest (others.reads ?_)
    obtain ⟨hes, -⟩ | ⟨v, vs, rfl, -⟩ := others.begins
    · cases hes
    · simp

end

/-- What begins an expression begins no other statement. -/
theorem Grammar.statement_of_head {k : TokenKind} (h : Grammar.standard.head k ≠ none) :
    Grammar.standard.statement k = none ∧ k ≠ .eof := by
  cases k with
  | keyword k => cases k <;> revert h <;> decide
  | punct p => cases p <;> revert h <;> decide
  | eof => exact absurd rfl h
  | _ => exact ⟨rfl, by simp⟩

/-- A written expression is a script. -/
theorem Written.parse_alone {form : Form} {e : Expr} {ts : List Token} (h : Written form e ts)
    (eof : Token) (heof : eof.kind = .eof) (file : String) :
    ∃ e' span, parse (ts ++ [eof]) file = .ok ⟨[.expr e'], span⟩ ∧ e'.withoutSpans = e.withoutSpans := by
  let c : Cursor := .ofTokens file (ts ++ [eof])
  have hc : c.rest = ts ++ [eof] := rfl
  obtain ⟨t, us, hts, hbegins⟩ := h.begins
  obtain ⟨hstatement, hkind⟩ := Grammar.statement_of_head hbegins
  have hrest : c.rest = t :: (us ++ [eof]) := by rw [hc, hts]; rfl
  have hcurrent : c.current = t := Cursor.current_of_rest hrest
  have hallowance : Reading.allowance c = 4 * (ts.length + 1) + 8 := by simp [Reading.allowance, hc]
  obtain ⟨n, hn⟩ : ∃ n, Reading.allowance c = n + 3 := ⟨4 * (ts.length + 1) + 5, hallowance⟩
  have hlength : 2 * ts.length + 2 ≤ n + 1 := by omega
  obtain ⟨e', he, hread⟩ := h.reads.ends_alone hc h.readAt_lowest (heof ▸ rfl) hlength
  have hbehind : (c.behind ts [eof]).current = eof := rfl
  have hstmt : Reading.stmt .standard (n + 2) c = .ok (.expr e') (c.behind ts [eof]) := by
    rw [Reading.stmt, Reading.bind_of_ok (Reading.peek_of_rest hrest)]
    dsimp only
    rw [hstatement]
    dsimp only
    rw [Reading.bind_of_ok hread, Reading.bind_of_ok (Reading.peek_of_rest rfl), if_neg (not_not_intro heof)]
    rfl
  have hend : Reading.script .standard (n + 2) (c.behind ts [eof]) = .ok [] (c.behind ts [eof]) := by
    rw [Reading.script]
    show (if (c.behind ts [eof]).hasTokens then _ else _ : Reading (List Stmt)) (c.behind ts [eof]) = _
    rw [if_neg (by simp [Cursor.hasTokens, hbehind, heof])]
    rfl
  have hscript : Reading.script .standard (n + 3) c = .ok [.expr e'] (c.behind ts [eof]) := by
    rw [Reading.script]
    show (if c.hasTokens then _ else _ : Reading (List Stmt)) c = _
    rw [if_pos (by simpa [Cursor.hasTokens, hcurrent] using hkind), Reading.bind_of_ok hstmt,
      Reading.bind_of_ok hend]
    rfl
  refine ⟨e', ⟨file, 0, (c.behind ts [eof]).position.offset⟩, ?_, he⟩
  have hrun : (Reading.withAllowance (Reading.script .standard)).run c = .ok [.expr e'] (c.behind ts [eof]) := by
    rw [← hn] at hscript
    exact hscript
  unfold parse
  rw [hrun]
/-- **Reading expressions undoes writing them.** An expression that can be written is written by its
`tokens`. However it was written, with parentheses wherever its operators ask for them and any others,
reading it in front of a token that continues no expression gives it back up to spans and stops at that
token. -/
theorem expr_undoes_writing (e : Expr) :
    (e.proper = true → Written e.form e e.tokens) ∧
    ∀ {form : Form} {ts : List Token}, Written form e ts →
      ∀ {c : Cursor} {t : Token} {rest : List Token}, c.rest = ts ++ t :: rest →
        Grammar.standard.tail t.kind = none →
        ∃ e', Reading.withAllowance (Reading.expr .standard .lowest) c =
            .ok e' (c.behind ts (t :: rest)) ∧
          e'.withoutSpans = e.withoutSpans := by
  refine ⟨written_tokens e, fun {form ts} h {c t rest} hc hnone => ?_⟩
  have hallowance : 2 * ts.length + 2 ≤ Reading.allowance c := by
    simp only [Reading.allowance, hc, List.length_append]
    omega
  obtain ⟨e', he, hread⟩ := h.reads.ends_alone hc h.readAt_lowest hnone hallowance
  exact ⟨e', hread, he⟩

/-- `total += (2 - n) * -sum(n, 7 - (1 - 4))` -/
def sumAssignment : Expr :=
  let name (s : String) : Name := ⟨s, .nowhere⟩
  let number (n : Int32) : Expr := .number n .nowhere
  .assign (name "total") (Expr.mark .plusEquals)
    (.binary
      (.binary (number 2) (Expr.mark .dash) (.name (name "n")) .nowhere)
      (Expr.mark .star)
      (.unary (Expr.mark .dash)
        (.call (name "sum")
          [.name (name "n"),
            .binary (number 7) (Expr.mark .dash)
              (.binary (number 1) (Expr.mark .dash) (number 4) .nowhere) .nowhere] .nowhere)
        .nowhere)
      .nowhere)
    .nowhere

theorem sumAssignment_reads_back :
    ∃ e', Reading.withAllowance (Reading.expr .standard .lowest)
        (.ofTokens "sum" (sumAssignment.tokens ++ [Expr.mark .semicolon, .eof "sum" 41])) =
        .ok e' ((Cursor.ofTokens "sum" (sumAssignment.tokens ++
          [Expr.mark .semicolon, .eof "sum" 41])).behind sumAssignment.tokens
          [Expr.mark .semicolon, .eof "sum" 41]) ∧
      e'.withoutSpans = sumAssignment.withoutSpans :=
  (expr_undoes_writing sumAssignment).2 ((expr_undoes_writing sumAssignment).1 (by decide)) rfl rfl

end Scripting.Surface
