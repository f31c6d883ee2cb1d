import Scripting.Surface.Parse

/-!
# Steps of reading expressions

A reader is a function from a cursor to a result. The equations here say what each reader does in one
step: which token it looks at, which reader it goes on as, and where the cursor stands then
(`Cursor.behind`).
-/

namespace Scripting.Surface

namespace Cursor

/-- The cursor after `ts` were consumed, with `rest` to come. -/
def behind (c : Cursor) (ts rest : List Token) : Cursor :=
  { c with previous? := ts.getLast?.or c.previous?, rest := rest }

@[simp] theorem behind_behind (c : Cursor) (ts us rest rest' : List Token) :
    (c.behind ts rest).behind us rest' = c.behind (ts ++ us) rest' := by
  unfold behind
  rw [List.getLast?_append, Option.or_assoc]

theorem current_of_rest {c : Cursor} {t : Token} {rest : List Token} (h : c.rest = t :: rest) :
    c.current = t := by
  unfold current
  rw [h]
  rfl

end Cursor

namespace Reading

variable {α β : Type} {g : Grammar} {power own : Power} {c c' : Cursor} {t : Token} {rest : List Token}
  {left e : Expr} {n : Nat}

theorem bind_of_ok {x : Reading α} {a : α} (h : x c = .ok a c') (f : α → Reading β) :
    (x >>= f) c = f a c' := by
  show EStateM.bind x f c = _
  unfold EStateM.bind
  rw [h]

theorem bind_of_error {x : Reading α} {e : SyntaxError} (h : x c = .error e c') (f : α → Reading β) :
    (x >>= f) c = .error e c' := by
  show EStateM.bind x f c = _
  unfold EStateM.bind
  rw [h]

theorem next_of_rest (h : c.rest = t :: rest) : next c = .ok t (c.behind [t] rest) := by
  obtain ⟨file, previous?, ts, last⟩ := c
  cases h
  rfl

theorem peek_of_rest (h : c.rest = t :: rest) : peek c = .ok t c :=
  congrArg (EStateM.Result.ok · c) (Cursor.current_of_rest h)

theorem expect_of_rest (h : c.rest = t :: rest) {kind : TokenKind} (hkind : t.kind = kind) :
    expect kind c = .ok t (c.behind [t] rest) := by
  unfold expect expectOr
  rw [bind_of_ok (peek_of_rest h), if_pos hkind]
  exact next_of_rest h

theorem accept_of_eq (h : c.rest = t :: rest) {kind : TokenKind} (hkind : t.kind = kind) :
    accept kind c = .ok true (c.behind [t] rest) := by
  unfold accept
  rw [bind_of_ok (peek_of_rest h), if_pos hkind, bind_of_ok (next_of_rest h)]
  rfl

theorem accept_of_ne (h : c.rest = t :: rest) {kind : TokenKind} (hne : t.kind ≠ kind) :
    accept kind c = .ok false c := by
  unfold accept
  rw [bind_of_ok (peek_of_rest h), if_neg hne]
  rfl

/-! ## Literals -/

theorem literal_number (h : c.rest = t :: rest) (hkind : t.kind = .number) {k : Int32}
    (hvalue : Text.readInt32? t.value.toList = some k) :
    literal c = .ok (.number k t.span) (c.behind [t] rest) := by
  unfold literal
  rw [bind_of_ok (peek_of_rest h)]
  simp only [hkind, hvalue]
  exact bind_of_ok (next_of_rest h) _

theorem literal_text (h : c.rest = t :: rest) (hkind : t.kind = .text) :
    literal c = .ok (.text t.value t.span) (c.behind [t] rest) := by
  unfold literal
  rw [bind_of_ok (peek_of_rest h)]
  simp only [hkind]
  exact bind_of_ok (next_of_rest h) _

theorem literal_name (h : c.rest = t :: rest) (hkind : t.kind = .identifier) :
    literal c = .ok (.name ⟨t.value, t.span⟩) (c.behind [t] rest) := by
  unfold literal
  rw [bind_of_ok (peek_of_rest h)]
  simp only [hkind]
  exact bind_of_ok (next_of_rest h) _

theorem literal_truth (h : c.rest = t :: rest) (hkind : t.kind = .keyword .true_) :
    literal c = .ok (.boolean true t.span) (c.behind [t] rest) := by
  unfold literal
  rw [bind_of_ok (peek_of_rest h)]
  simp only [hkind]
  exact bind_of_ok (next_of_rest h) _

theorem literal_falsity (h : c.rest = t :: rest) (hkind : t.kind = .keyword .false_) :
    literal c = .ok (.boolean false t.span) (c.behind [t] rest) := by
  unfold literal
  rw [bind_of_ok (peek_of_rest h)]
  simp only [hkind]
  exact bind_of_ok (next_of_rest h) _

/-! ## Expressions -/

/-- What the first token begins is read, and then extended. -/
theorem expr_succ (h : c.rest = t :: rest) {rule : HeadRule} (hrule : g.head t.kind = some rule)
    (hhead : head g rule n c = .ok e c') : expr g power (n + 1) c = extend g power e n c' := by
  rw [expr, bind_of_ok (peek_of_rest h)]
  simp only [hrule]
  exact bind_of_ok hhead _

/-- Nothing is added in front of a token that does not bind tighter. -/
theorem extend_stop (h : c.rest = t :: rest)
    (hstop : ∀ own rule, g.tail t.kind = some (own, rule) → own ≤ power) :
    extend g power left (n + 1) c = .ok left c := by
  rw [extend, bind_of_ok (peek_of_rest h)]
  cases htail : g.tail t.kind with
  | none => rfl
  | some r =>
    obtain ⟨own, rule⟩ := r
    simp only [if_pos (hstop own rule htail)]
    rfl

/-- What a token continues more tightly is added, and then extended. -/
theorem extend_on (h : c.rest = t :: rest) {rule : TailRule} (hrule : g.tail t.kind = some (own, rule))
    (htight : ¬ own ≤ power) (htail : tail g own rule left n c = .ok e c') :
    extend g power left (n + 1) c = extend g power e n c' := by
  rw [extend, bind_of_ok (peek_of_rest h)]
  simp only [hrule, if_neg htight]
  exact bind_of_ok htail _

/-- An operator in front of its operand. -/
theorem head_operator (h : c.rest = t :: rest) (hoperand : expr g .unary n (c.behind [t] rest) = .ok e c') :
    head g .operator (n + 1) c = .ok (.unary t e (t.span.upTo e.span)) c' := by
  rw [head, bind_of_ok (next_of_rest h), bind_of_ok hoperand]
  rfl

/-- An expression in parentheses. -/
theorem head_group (h : c.rest = t :: rest) (hinner : expr g .lowest n (c.behind [t] rest) = .ok e c')
    {u : Token} {after : List Token} (hclose : c'.rest = u :: after) (hu : u.kind = .punct .closeParen) :
    head g .group (n + 1) c = .ok e (c'.behind [u] after) := by
  rw [head, bind_of_ok (next_of_rest h), bind_of_ok hinner,
    bind_of_ok (expect_of_rest hclose hu)]
  rfl

/-- An operator between its operands. -/
theorem tail_binary (h : c.rest = t :: rest) (hright : expr g own n (c.behind [t] rest) = .ok e c') :
    tail g own .binary left (n + 1) c = .ok (.binary left t e (left.span.upTo e.span)) c' := by
  rw [tail, bind_of_ok (next_of_rest h), bind_of_ok hright]
  rfl

/-- An assignment to a name. -/
theorem tail_assign (h : c.rest = t :: rest) (target : Name)
    (hvalue : expr g .lowest n (c.behind [t] rest) = .ok e c') :
    tail g own .assign (.name target) (n + 1) c =
      .ok (.assign target t e (target.span.upTo e.span)) c' := by
  rw [tail, bind_of_ok (next_of_rest h), bind_of_ok hvalue]
  rfl

/-- A call without arguments. -/
theorem tail_call_nil (h : c.rest = t :: rest) (callee : Name) {u : Token} {after : List Token}
    (hrest : rest = u :: after) (hu : u.kind = .punct .closeParen) :
    tail g own .call (.name callee) (n + 1) c =
      .ok (.call callee [] ((c.behind [t, u] after).spanFrom callee.span.start))
        (c.behind [t, u] after) := by
  subst hrest
  have hopen : (c.behind [t] (u :: after)).rest = u :: after := rfl
  rw [tail, bind_of_ok (next_of_rest h), bind_of_ok (peek_of_rest hopen), if_pos hu, pure_bind]
  refine (bind_of_ok (expect_of_rest hopen hu) _).trans ?_
  rw [Cursor.behind_behind]
  rfl

/-- A call with arguments. -/
theorem tail_call (h : c.rest = t :: rest) (callee : Name) {v : Token} {vs : List Token}
    (hrest : rest = v :: vs) (hv : v.kind ≠ .punct .closeParen) {es : List Expr}
    (harguments : arguments g n (c.behind [t] rest) = .ok es c') {u : Token} {after : List Token}
    (hclose : c'.rest = u :: after) (hu : u.kind = .punct .closeParen) :
    tail g own .call (.name callee) (n + 1) c =
      .ok (.call callee es ((c'.behind [u] after).spanFrom callee.span.start))
        (c'.behind [u] after) := by
  subst hrest
  have hopen : (c.behind [t] (v :: vs)).rest = v :: vs := rfl
  rw [tail, bind_of_ok (next_of_rest h), bind_of_ok (peek_of_rest hopen), if_neg hv,
    bind_of_ok harguments]
  exact bind_of_ok (expect_of_rest hclose hu) _

/-- The last argument. -/
theorem arguments_last (hfirst : expr g .lowest n c = .ok e c') (h : c'.rest = t :: rest)
    (ht : t.kind ≠ .punct .comma) : arguments g (n + 1) c = .ok [e] c' := by
  rw [arguments, bind_of_ok hfirst, bind_of_ok (accept_of_ne h ht)]
  rfl

/-- An argument in front of others. -/
theorem arguments_cons (hfirst : expr g .lowest n c = .ok e c') (h : c'.rest = t :: rest)
    (ht : t.kind = .punct .comma) {es : List Expr} {c'' : Cursor}
    (hothers : arguments g n (c'.behind [t] rest) = .ok es c'') :
    arguments g (n + 1) c = .ok (e :: es) c'' := by
  rw [arguments, bind_of_ok hfirst, bind_of_ok (accept_of_eq h ht), if_pos rfl, bind_of_ok hothers]
  rfl

end Reading

end Scripting.Surface
