import Scripting.Proofs.Surface.Consumption

/-!
# Reading goes forward and ends

Wherever a reader is started in front of the end of a script, it consumes tokens and never reads past the
end-of-file token, whether it succeeds or fails, and it fails at the beginning of a token. Most failures are
at the token that the cursor shows. Where an expression turns out to be followed by something it cannot take,
the failure is at the beginning of that expression, so it is carried along that every expression begins with
a token (`Begun`).

Reading ends: an allowance of four for each token to come is enough. This is said of two readers that differ
in their allowances and in what they report when these are used up: they do the same (`InStep.same`). So no
reader ever comes to the end of its allowance. It needs that every way around a loop or a recursion consumes
a token, which is why `InStep` counts the tokens consumed.
-/

namespace Scripting.Surface

/-- The grammar of scripts, with a report of one's own where the allowance is used up. -/
def Grammar.reporting (exhausted : Token → SyntaxError.Cause) : Grammar := { standard with exhausted }

@[simp] theorem Grammar.reporting_head (f : Token → SyntaxError.Cause) :
    (reporting f).head = standard.head := rfl

@[simp] theorem Grammar.reporting_tail (f : Token → SyntaxError.Cause) :
    (reporting f).tail = standard.tail := rfl

@[simp] theorem Grammar.reporting_statement (f : Token → SyntaxError.Cause) :
    (reporting f).statement = standard.statement := rfl

/-- Nothing begins with the end of the file: a token for which there is a rule is another one. -/
theorem ne_eof_of_rule {ρ : Type} (rules : TokenKind → Option ρ) (heof : rules .eof = none) {kind : TokenKind}
    {r : ρ} (h : rules kind = some r) : kind ≠ .eof := by
  rintro rfl
  cases heof.symm.trans h

/-- The cursor stands in the named script, in front of one of the tokens. -/
structure Cursor.Among (tokens : List Token) (file : String) (c : Cursor) : Prop extends c.Open file where
  suffix : c.rest <:+ tokens

theorem Cursor.Among.current {tokens : List Token} {file : String} {c : Cursor} (h : c.Among tokens file) :
    c.current ∈ tokens := by
  obtain ⟨t, ts, hrest⟩ := h.ended.exists_cons
  rw [Cursor.current_of_rest hrest]
  exact h.suffix.subset (hrest ▸ List.mem_cons_self)

theorem Cursor.Among.length_pos {tokens : List Token} {file : String} {c : Cursor} (h : c.Among tokens file) :
    0 < c.rest.length := by
  obtain ⟨t, ts, hrest⟩ := h.ended.exists_cons
  rw [hrest]
  exact Nat.zero_lt_succ _

theorem Consumed.among {tokens ts : List Token} {file : String} {c c' : Cursor} (h : Consumed file c ts c')
    (hc : c.Among tokens file) : c'.Among tokens file :=
  { h.opened with suffix := List.IsSuffix.trans ⟨ts, h.rest.symm⟩ hc.suffix }

theorem Consumed.length_le {ts : List Token} {file : String} {c c' : Cursor} (h : Consumed file c ts c') :
    c'.rest.length + ts.length ≤ c.rest.length := by
  rw [h.rest, List.length_append]
  omega

/-- The position is that of a token. What is built from several tokens is in the script that is read. -/
def Starts (tokens : List Token) (file : String) (p : Position) : Prop :=
  ∃ t ∈ tokens, p.offset = t.span.start ∧ (p.file = t.span.file ∨ p.file = file)

theorem starts_of_mem {tokens : List Token} {t : Token} (h : t ∈ tokens) (file : String) :
    Starts tokens file t.span.first := ⟨t, h, rfl, .inl rfl⟩

/-- The expression begins with a token. -/
abbrev Begun (tokens : List Token) (file : String) (e : Expr) : Prop := Starts tokens file e.span.first

/-- From `c` on the two readers do the same. They consume `d` tokens or more and give what satisfies `Q`, or
they fail where a token begins; in both cases the end of the script is still to come. -/
structure InStep {α : Type} (tokens : List Token) (file : String) (d : Nat) (Q : α → Prop) (c : Cursor)
    (x y : Reading α) : Prop where
  same : x c = y c
  ok : ∀ {a c'}, x c = .ok a c' → ∃ ts, Consumed file c ts c' ∧ d ≤ ts.length ∧ Q a
  error : ∀ {e c'}, x c = .error e c' → (∃ ts, Consumed file c ts c') ∧ Starts tokens file e.position

namespace InStep

variable {α β : Type} {tokens : List Token} {file : String} {d k : Nat} {P : α → Prop} {Q : β → Prop}
  {c : Cursor} {n m : Nat} {f g : Token → SyntaxError.Cause}

theorem of_pure {a : α} (hc : c.Among tokens file) (h : P a) : InStep tokens file 0 P c (pure a) (pure a) where
  same := rfl
  ok hx := by
    obtain ⟨rfl, rfl⟩ := Reading.pure_ok hx
    exact ⟨[], .nil hc.toOpen, Nat.zero_le _, h⟩
  error hx := by cases hx

/-- One reader after the other. What the first one consumes counts. -/
theorem bind {x y : Reading α} {u v : α → Reading β} (h : InStep tokens file d P c x y) (hk : k ≤ d)
    (hc : c.Among tokens file)
    (huv : ∀ a c', c'.Among tokens file → c'.rest.length + d ≤ c.rest.length → P a →
      InStep tokens file 0 Q c' (u a) (v a)) :
    InStep tokens file k Q c (x >>= u) (y >>= v) := by
  cases hx : x c with
  | error e c' =>
    have hu : (x >>= u) c = .error e c' := Reading.bind_of_error hx u
    have hv : (y >>= v) c = .error e c' := Reading.bind_of_error (h.same ▸ hx) v
    refine ⟨hu.trans hv.symm, fun hb => ?_, fun hb => ?_⟩
    · cases hu.symm.trans hb
    · cases hu.symm.trans hb
      exact h.error hx
  | ok a c' =>
    have hu : (x >>= u) c = u a c' := Reading.bind_of_ok hx u
    have hv : (y >>= v) c = v a c' := Reading.bind_of_ok (h.same ▸ hx) v
    obtain ⟨ts, hts, hd, ha⟩ := h.ok hx
    have hle := hts.length_le
    have hnext := huv a c' (hts.among hc) (by omega) ha
    refine ⟨by rw [hu, hv, hnext.same], fun hb => ?_, fun hb => ?_⟩
    · obtain ⟨us, hus, -, hb⟩ := hnext.ok (hu ▸ hb)
      refine ⟨ts ++ us, hts.trans hus, ?_, hb⟩
      rw [List.length_append]
      omega
    · obtain ⟨⟨us, hus⟩, hstarts⟩ := hnext.error (hu ▸ hb)
      exact ⟨⟨ts ++ us, hts.trans hus⟩, hstarts⟩

theorem map {h : α → β} {x y : Reading α} (hxy : InStep tokens file d P c x y) (hc : c.Among tokens file) :
    InStep tokens file d (fun _ => True) c (h <$> x) (h <$> y) := by
  rw [← bind_pure_comp, ← bind_pure_comp]
  exact hxy.bind (Nat.le_refl d) hc fun _ _ hc' _ _ => of_pure hc' trivial

/-- Two alternatives that go on in the same way. -/
theorem choice {p : Prop} [Decidable p] {x y x' y' : Reading α} {u v : α → Reading β}
    (hx : p → InStep tokens file d P c x x') (hy : ¬ p → InStep tokens file k P c y y')
    (hc : c.Among tokens file)
    (huv : ∀ a c', c'.Among tokens file → c'.rest.length ≤ c.rest.length → P a →
      InStep tokens file 0 Q c' (u a) (v a)) :
    InStep tokens file 0 Q c (if p then x >>= u else y >>= u) (if p then x' >>= v else y' >>= v) := by
  have hnext : ∀ {d a c'}, c'.Among tokens file → c'.rest.length + d ≤ c.rest.length → P a →
      InStep tokens file 0 Q c' (u a) (v a) := fun hc' hle ha =>
    huv _ _ hc' (Nat.le_of_add_right_le hle) ha
  split
  · next hp => exact (hx hp).bind (Nat.zero_le d) hc fun _ _ => hnext
  · next hp => exact (hy hp).bind (Nat.zero_le k) hc fun _ _ => hnext

/-! ## Elementary readers -/

theorem peek {u v : Token → Reading α} (h : InStep tokens file d P c (u c.current) (v c.current)) :
    InStep tokens file d P c (Reading.peek >>= u) (Reading.peek >>= v) := ⟨h.same, h.ok, h.error⟩

theorem get {u v : Cursor → Reading α} (h : InStep tokens file d P c (u c) (v c)) :
    InStep tokens file d P c (get >>= u) (get >>= v) := ⟨h.same, h.ok, h.error⟩

theorem next (hc : c.Among tokens file) (hkind : c.current.kind ≠ .eof) :
    InStep tokens file 1 (· = c.current) c Reading.next Reading.next := by
  obtain ⟨t, ts, hrest⟩ := hc.ended.exists_cons
  have hcurrent := Cursor.current_of_rest hrest
  have hnext := Reading.next_of_rest hrest
  refine ⟨rfl, fun hx => ?_, fun hx => ?_⟩
  · cases hnext.symm.trans hx
    exact ⟨[t], .one hc.toOpen hrest (hcurrent ▸ hkind), Nat.le_refl 1, hcurrent.symm⟩
  · cases hnext.symm.trans hx

theorem fail (hc : c.Among tokens file) (cause : Token → SyntaxError.Cause) :
    InStep tokens file d P c (Reading.fail cause) (Reading.fail cause) where
  same := rfl
  ok hx := by cases hx
  error hx := by
    cases hx
    exact ⟨⟨[], .nil hc.toOpen⟩, starts_of_mem hc.current file⟩

theorem throw (hc : c.Among tokens file) {e : SyntaxError} (h : Starts tokens file e.position) :
    InStep tokens file d P c (MonadExcept.throw e : Reading α) (MonadExcept.throw e) where
  same := rfl
  ok hx := by cases hx
  error hx := by
    cases hx
    exact ⟨⟨[], .nil hc.toOpen⟩, h⟩

theorem spanFrom (hc : c.Among tokens file) (start : Nat) :
    InStep tokens file 0 (fun s => s.first = ⟨file, start⟩) c (Reading.spanFrom start)
      (Reading.spanFrom start) where
  same := rfl
  ok hx := by
    cases hx
    exact ⟨[], .nil hc.toOpen, Nat.zero_le _, congrArg (Position.mk · start) hc.file_eq⟩
  error hx := by cases hx

theorem expectOr (hc : c.Among tokens file) {kind : TokenKind} (hkind : kind ≠ .eof)
    (cause : Token → SyntaxError.Cause) :
    InStep tokens file 1 (· ∈ tokens) c (Reading.expectOr kind cause) (Reading.expectOr kind cause) := by
  refine peek ?_
  split
  · next hcurrent =>
    have hnext := next hc (hcurrent ▸ hkind)
    refine ⟨rfl, fun hx => ?_, hnext.error⟩
    obtain ⟨ts, hts, hd, rfl⟩ := hnext.ok hx
    exact ⟨ts, hts, hd, hc.current⟩
  · exact fail hc cause

theorem accept (hc : c.Among tokens file) {kind : TokenKind} (hkind : kind ≠ .eof) :
    InStep tokens file 0 (fun _ => True) c (Reading.accept kind) (Reading.accept kind) := by
  refine peek ?_
  split
  · next hcurrent =>
    exact (next hc (hcurrent ▸ hkind)).bind (Nat.zero_le 1) hc fun _ _ hc' _ _ => of_pure hc' trivial
  · exact of_pure hc trivial

theorem literal (hc : c.Among tokens file) :
    InStep tokens file 1 (Begun tokens file) c Reading.literal Reading.literal := by
  refine peek ?_
  have hbegun : Starts tokens file c.current.span.first := starts_of_mem hc.current file
  have hone {e : Expr} (hkind : c.current.kind ≠ .eof) (he : Begun tokens file e) :
      InStep tokens file 1 (Begun tokens file) c (Reading.next >>= fun _ => pure e)
        (Reading.next >>= fun _ => pure e) :=
    (next hc hkind).bind (Nat.le_refl 1) hc fun _ _ hc' _ _ => of_pure hc' he
  generalize hkind : c.current.kind = kind at hone
  split
  · split
    · exact hone (by decide) hbegun
    · exact fail hc _
  · exact hone (by decide) hbegun
  · exact hone (by decide) hbegun
  · exact hone (by decide) hbegun
  · exact hone (by decide) hbegun
  · exact fail hc _

/-! ## Expressions -/

mutual

theorem expr (power : Power) : ∀ (n m : Nat) {c : Cursor},
    c.Among tokens file → 4 * c.rest.length + 1 ≤ min n m →
    InStep tokens file 1 (Begun tokens file) c (Reading.expr (.reporting f) power n)
      (Reading.expr (.reporting g) power m)
  | 0, _, _, _, h => by omega
  | _ + 1, 0, _, _, h => by omega
  | n + 1, m + 1, c, hc, h => by
    unfold Reading.expr
    refine peek ?_
    simp only [Grammar.reporting_head]
    cases hrule : Grammar.standard.head c.current.kind with
    | none => exact fail hc _
    | some rule =>
      refine (head rule n m hc hrule (by omega)).bind (Nat.le_refl 1) hc fun e c' hc' hle he => ?_
      exact extend power he n m hc' (by omega)
termination_by structural n => n

theorem head (rule : HeadRule) : ∀ (n m : Nat) {c : Cursor},
    c.Among tokens file → Grammar.standard.head c.current.kind = some rule →
    4 * c.rest.length ≤ min n m →
    InStep tokens file 1 (Begun tokens file) c (Reading.head (.reporting f) rule n)
      (Reading.head (.reporting g) rule m)
  | 0, _, _, hc, _, h => by have := hc.length_pos; omega
  | _ + 1, 0, _, hc, _, h => by have := hc.length_pos; omega
  | n + 1, m + 1, c, hc, hrule, h => by
    have hkind := ne_eof_of_rule Grammar.standard.head rfl hrule
    unfold Reading.head
    cases rule with
    | literal => exact literal hc
    | operator =>
      refine (next hc hkind).bind (Nat.le_refl 1) hc fun o c₁ hc₁ h₁ ho => ?_
      refine (expr .unary n m hc₁ (by omega)).bind (Nat.zero_le 1) hc₁ fun e c₂ hc₂ _ _ => ?_
      exact of_pure hc₂ (starts_of_mem (ho ▸ hc.current) file)
    | group =>
      refine (next hc hkind).bind (Nat.le_refl 1) hc fun _ c₁ hc₁ h₁ _ => ?_
      refine (expr .lowest n m hc₁ (by omega)).bind (Nat.zero_le 1) hc₁ fun e c₂ hc₂ _ he => ?_
      exact (expectOr hc₂ (by decide) _).bind (Nat.zero_le 1) hc₂ fun _ _ hc₃ _ _ => of_pure hc₃ he
termination_by structural n => n

theorem extend (power : Power) {left : Expr}
    (hleft : Begun tokens file left) : ∀ (n m : Nat) {c : Cursor}, c.Among tokens file →
    4 * c.rest.length + 1 ≤ min n m →
    InStep tokens file 0 (Begun tokens file) c (Reading.extend (.reporting f) power left n)
      (Reading.extend (.reporting g) power left m)
  | 0, _, _, _, h => by omega
  | _ + 1, 0, _, _, h => by omega
  | n + 1, m + 1, c, hc, h => by
    unfold Reading.extend
    refine peek ?_
    simp only [Grammar.reporting_tail]
    cases hrule : Grammar.standard.tail c.current.kind with
    | none => exact of_pure hc hleft
    | some r =>
      obtain ⟨own, rule⟩ := r
      dsimp only
      split
      · exact of_pure hc hleft
      · refine (tail own rule hleft n m hc hrule (by omega)).bind (Nat.zero_le 1) hc fun e c₁ hc₁ h₁ he => ?_
        exact extend power he n m hc₁ (by omega)
termination_by structural n => n

theorem tail (own : Power) (rule : TailRule) {left : Expr}
    (hleft : Begun tokens file left) : ∀ (n m : Nat) {c : Cursor}, c.Among tokens file →
    Grammar.standard.tail c.current.kind = some (own, rule) → 4 * c.rest.length ≤ min n m →
    InStep tokens file 1 (Begun tokens file) c (Reading.tail (.reporting f) own rule left n)
      (Reading.tail (.reporting g) own rule left m)
  | 0, _, _, hc, _, h => by have := hc.length_pos; omega
  | _ + 1, 0, _, hc, _, h => by have := hc.length_pos; omega
  | n + 1, m + 1, c, hc, hrule, h => by
    have hkind := ne_eof_of_rule Grammar.standard.tail rfl hrule
    unfold Reading.tail
    split
    · refine (next hc hkind).bind (Nat.le_refl 1) hc fun _ c₁ hc₁ h₁ _ => ?_
      refine (expr own n m hc₁ (by omega)).bind (Nat.zero_le 1) hc₁ fun _ c₂ hc₂ _ _ => ?_
      exact of_pure hc₂ hleft
    · refine (next hc hkind).bind (Nat.le_refl 1) hc fun _ c₁ hc₁ h₁ _ => ?_
      refine (expr .lowest n m hc₁ (by omega)).bind (Nat.zero_le 1) hc₁ fun _ c₂ hc₂ _ _ => ?_
      exact of_pure hc₂ hleft
    · exact peek (throw hc hleft)
    · refine (next hc hkind).bind (Nat.le_refl 1) hc fun _ c₁ hc₁ h₁ _ => peek ?_
      refine choice (fun _ => of_pure hc₁ trivial) (fun _ => arguments n m hc₁ (by omega)) hc₁
        fun _ c₂ hc₂ _ _ => ?_
      refine (expectOr hc₂ (by decide) _).bind (Nat.zero_le 1) hc₂ fun _ c₃ hc₃ _ _ => ?_
      refine (spanFrom hc₃ _).bind (Nat.le_refl 0) hc₃ fun s c₄ hc₄ _ hs => of_pure hc₄ ?_
      obtain ⟨t, ht, hstart, -⟩ := hleft
      exact ⟨t, ht, (congrArg Position.offset hs).trans hstart, .inr (congrArg Position.file hs)⟩
    · exact throw hc hleft
termination_by structural n => n

theorem arguments : ∀ (n m : Nat) {c : Cursor}, c.Among tokens file →
    4 * c.rest.length + 2 ≤ min n m →
    InStep tokens file 1 (fun _ => True) c (Reading.arguments (.reporting f) n)
      (Reading.arguments (.reporting g) m)
  | 0, _, _, _, h => by omega
  | _ + 1, 0, _, _, h => by omega
  | n + 1, m + 1, c, hc, h => by
    unfold Reading.arguments
    refine (expr .lowest n m hc (by omega)).bind (Nat.le_refl 1) hc fun e c₁ hc₁ h₁ _ => ?_
    refine (accept hc₁ (by decide)).bind (Nat.le_refl 0) hc₁ fun b c₂ hc₂ h₂ _ => ?_
    split
    · exact (arguments n m hc₂ (by omega)).bind (Nat.zero_le 1) hc₂ fun _ _ hc₃ _ _ => of_pure hc₃ trivial
    · exact of_pure hc₂ trivial
termination_by structural n => n

end

/-! ## Statements -/

theorem typeName (hc : c.Among tokens file) :
    InStep tokens file 1 (fun _ => True) c Reading.typeName Reading.typeName :=
  (expectOr hc (by decide) _).bind (Nat.le_refl 1) hc fun _ _ hc₁ _ _ => of_pure hc₁ trivial

/-- The type behind a mark, where the mark is there. -/
theorem annotation (hc : c.Among tokens file) (b : Bool) {u v : Option Name → Reading β}
    (huv : ∀ a c', c'.Among tokens file → c'.rest.length ≤ c.rest.length →
      InStep tokens file 0 Q c' (u a) (v a)) :
    InStep tokens file 0 Q c
      (if b = true then (some <$> Reading.typeName) >>= u else pure none >>= u)
      (if b = true then (some <$> Reading.typeName) >>= v else pure none >>= v) :=
  choice (fun _ => (typeName hc).map hc) (fun _ => of_pure hc trivial) hc fun a c' hc' hle _ =>
    huv a c' hc' hle

theorem declaration (hc : c.Among tokens file) (hkind : c.current.kind ≠ .eof)
    (h : 4 * c.rest.length ≤ min n m) :
    InStep tokens file 1 (fun _ => True) c (Reading.declaration (.reporting f) n)
      (Reading.declaration (.reporting g) m) := by
  refine (next hc hkind).bind (Nat.le_refl 1) hc fun _ c₁ hc₁ h₁ _ => ?_
  refine (expectOr hc₁ (by decide) _).bind (Nat.zero_le 1) hc₁ fun _ c₂ hc₂ h₂ _ => ?_
  refine (accept hc₂ (by decide)).bind (Nat.le_refl 0) hc₂ fun b c₃ hc₃ h₃ _ => ?_
  refine annotation hc₃ b fun _ c₄ hc₄ h₄ => ?_
  refine (expectOr hc₄ (by decide) _).bind (Nat.zero_le 1) hc₄ fun _ c₅ hc₅ h₅ _ => ?_
  refine (expr .lowest n m hc₅ (by omega)).bind (Nat.zero_le 1) hc₅ fun _ c₆ hc₆ _ _ => ?_
  refine (expectOr hc₆ (by decide) _).bind (Nat.zero_le 1) hc₆ fun _ c₇ hc₇ _ _ => ?_
  exact (spanFrom hc₇ _).bind (Nat.le_refl 0) hc₇ fun _ _ hc₈ _ _ => of_pure hc₈ trivial

theorem parameters : ∀ (n m : Nat) {c : Cursor}, c.Among tokens file → 4 * c.rest.length ≤ min n m →
    InStep tokens file 1 (fun _ => True) c (Reading.parameters (.reporting f) n)
      (Reading.parameters (.reporting g) m)
  | 0, _, _, hc, h => by have := hc.length_pos; omega
  | _ + 1, 0, _, hc, h => by have := hc.length_pos; omega
  | n + 1, m + 1, c, hc, h => by
    unfold Reading.parameters
    refine (expectOr hc (by decide) _).bind (Nat.le_refl 1) hc fun _ c₁ hc₁ h₁ _ => ?_
    refine (expectOr hc₁ (by decide) _).bind (Nat.zero_le 1) hc₁ fun _ c₂ hc₂ h₂ _ => ?_
    refine (typeName hc₂).bind (Nat.zero_le 1) hc₂ fun _ c₃ hc₃ h₃ _ => ?_
    refine (spanFrom hc₃ _).bind (Nat.le_refl 0) hc₃ fun _ c₄ hc₄ h₄ _ => ?_
    refine (accept hc₄ (by decide)).bind (Nat.le_refl 0) hc₄ fun b c₅ hc₅ h₅ _ => ?_
    split
    · exact (parameters n m hc₅ (by omega)).bind (Nat.zero_le 1) hc₅ fun _ _ hc₆ _ _ => of_pure hc₆ trivial
    · exact of_pure hc₅ trivial

theorem forFirst (hc : c.Among tokens file) (h : 4 * c.rest.length + 1 ≤ min n m) :
    InStep tokens file 1 (fun _ => True) c (Reading.forFirst (.reporting f) n)
      (Reading.forFirst (.reporting g) m) := by
  refine peek ?_
  have hdeclare (hkind : c.current.kind ≠ .eof) : InStep tokens file 1 (fun _ => True) c
      (Reading.declaration (.reporting f) n >>= fun d => pure (Stmt.declare d))
      (Reading.declaration (.reporting g) m >>= fun d => pure (Stmt.declare d)) :=
    (declaration hc hkind (by omega)).bind (Nat.le_refl 1) hc fun _ _ hc₁ _ _ => of_pure hc₁ trivial
  generalize hkind : c.current.kind = kind at hdeclare
  split
  · exact hdeclare (by decide)
  · exact hdeclare (by decide)
  · refine (expr .lowest n m hc h).bind (Nat.le_refl 1) hc fun _ c₁ hc₁ _ _ => ?_
    exact (expectOr hc₁ (by decide) _).bind (Nat.zero_le 1) hc₁ fun _ _ hc₂ _ _ => of_pure hc₂ trivial

theorem finish (hc : c.Among tokens file) (start : Nat) (node : Span → α) :
    InStep tokens file 0 (fun _ => True) c (Reading.spanFrom start >>= fun s => pure (node s))
      (Reading.spanFrom start >>= fun s => pure (node s)) :=
  (spanFrom hc start).bind (Nat.le_refl 0) hc fun _ _ hc₁ _ _ => of_pure hc₁ trivial

mutual

theorem stmt : ∀ (n m : Nat) {c : Cursor}, c.Among tokens file → 4 * c.rest.length + 2 ≤ min n m →
    InStep tokens file 1 (fun _ => True) c (Reading.stmt (.reporting f) n) (Reading.stmt (.reporting g) m)
  | 0, _, _, _, h => by omega
  | _ + 1, 0, _, _, h => by omega
  | n + 1, m + 1, c, hc, h => by
    unfold Reading.stmt
    refine peek ?_
    simp only [Grammar.reporting_statement]
    cases hrule : Grammar.standard.statement c.current.kind with
    | none =>
      refine (expr .lowest n m hc (by omega)).bind (Nat.le_refl 1) hc fun _ c₁ hc₁ _ _ => peek ?_
      split
      · exact (expectOr hc₁ (by decide) _).bind (Nat.zero_le 1) hc₁ fun _ _ hc₂ _ _ => of_pure hc₂ trivial
      · exact of_pure hc₁ trivial
    | some rule =>
      have hkind := ne_eof_of_rule Grammar.standard.statement rfl hrule
      have hnext := next hc hkind
      cases rule with
      | declare =>
        exact (declaration hc hkind (by omega)).bind (Nat.le_refl 1) hc fun _ _ hc₁ _ _ => of_pure hc₁ trivial
      | ifElse =>
        refine hnext.bind (Nat.le_refl 1) hc fun _ c₁ hc₁ h₁ _ => ?_
        refine (expr .lowest n m hc₁ (by omega)).bind (Nat.zero_le 1) hc₁ fun _ c₂ hc₂ h₂ _ => ?_
        refine (stmt n m hc₂ (by omega)).bind (Nat.zero_le 1) hc₂ fun _ c₃ hc₃ h₃ _ => ?_
        refine (accept hc₃ (by decide)).bind (Nat.le_refl 0) hc₃ fun b c₄ hc₄ h₄ _ => ?_
        split
        · exact (stmt n m hc₄ (by omega)).bind (Nat.zero_le 1) hc₄ fun _ _ hc₅ _ _ => finish hc₅ ..
        · exact finish hc₄ ..
      | whileLoop =>
        refine hnext.bind (Nat.le_refl 1) hc fun _ c₁ hc₁ h₁ _ => ?_
        refine (expr .lowest n m hc₁ (by omega)).bind (Nat.zero_le 1) hc₁ fun _ c₂ hc₂ h₂ _ => ?_
        exact (stmt n m hc₂ (by omega)).bind (Nat.zero_le 1) hc₂ fun _ _ hc₃ _ _ => finish hc₃ ..
      | doWhile =>
        refine hnext.bind (Nat.le_refl 1) hc fun _ c₁ hc₁ h₁ _ => ?_
        refine (stmt n m hc₁ (by omega)).bind (Nat.zero_le 1) hc₁ fun _ c₂ hc₂ h₂ _ => ?_
        refine (expectOr hc₂ (by decide) _).bind (Nat.zero_le 1) hc₂ fun _ c₃ hc₃ h₃ _ => ?_
        refine (expr .lowest n m hc₃ (by omega)).bind (Nat.zero_le 1) hc₃ fun _ c₄ hc₄ _ _ => ?_
        exact (expectOr hc₄ (by decide) _).bind (Nat.zero_le 1) hc₄ fun _ _ hc₅ _ _ => finish hc₅ ..
      | forLoop =>
        refine hnext.bind (Nat.le_refl 1) hc fun _ c₁ hc₁ h₁ _ => ?_
        refine (expectOr hc₁ (by decide) _).bind (Nat.zero_le 1) hc₁ fun _ c₂ hc₂ h₂ _ => ?_
        refine (forFirst hc₂ (by omega)).bind (Nat.zero_le 1) hc₂ fun _ c₃ hc₃ h₃ _ => ?_
        refine (expr .lowest n m hc₃ (by omega)).bind (Nat.zero_le 1) hc₃ fun _ c₄ hc₄ h₄ _ => ?_
        refine (expectOr hc₄ (by decide) _).bind (Nat.zero_le 1) hc₄ fun _ c₅ hc₅ h₅ _ => ?_
        refine (expr .lowest n m hc₅ (by omega)).bind (Nat.zero_le 1) hc₅ fun _ c₆ hc₆ h₆ _ => ?_
        refine (expectOr hc₆ (by decide) _).bind (Nat.zero_le 1) hc₆ fun _ c₇ hc₇ h₇ _ => ?_
        exact (stmt n m hc₇ (by omega)).bind (Nat.zero_le 1) hc₇ fun _ _ hc₈ _ _ => finish hc₈ ..
      | breakLoop | continueLoop =>
        refine hnext.bind (Nat.le_refl 1) hc fun _ c₁ hc₁ h₁ _ => ?_
        exact (expectOr hc₁ (by decide) _).bind (Nat.zero_le 1) hc₁ fun _ _ hc₂ _ _ => finish hc₂ ..
      | block =>
        exact (block n m hc (by omega)).bind (Nat.le_refl 1) hc fun _ _ hc₁ _ _ => of_pure hc₁ trivial
      | function =>
        refine hnext.bind (Nat.le_refl 1) hc fun _ c₁ hc₁ h₁ _ => ?_
        refine (expectOr hc₁ (by decide) _).bind (Nat.zero_le 1) hc₁ fun _ c₂ hc₂ h₂ _ => ?_
        refine (expectOr hc₂ (by decide) _).bind (Nat.zero_le 1) hc₂ fun _ c₃ hc₃ h₃ _ => peek ?_
        refine choice (fun _ => of_pure hc₃ trivial) (fun _ => parameters n m hc₃ (by omega)) hc₃
          fun _ c₄ hc₄ h₄ _ => ?_
        refine (expectOr hc₄ (by decide) _).bind (Nat.zero_le 1) hc₄ fun _ c₅ hc₅ h₅ _ => ?_
        refine (accept hc₅ (by decide)).bind (Nat.le_refl 0) hc₅ fun b c₆ hc₆ h₆ _ => ?_
        refine annotation hc₆ b fun _ c₇ hc₇ h₇ => ?_
        exact (block n m hc₇ (by omega)).bind (Nat.zero_le 1) hc₇ fun _ _ hc₈ _ _ => finish hc₈ ..
      | returns =>
        refine hnext.bind (Nat.le_refl 1) hc fun _ c₁ hc₁ h₁ _ => peek ?_
        refine choice (fun _ => of_pure hc₁ trivial) (fun _ => (expr .lowest n m hc₁ (by omega)).map hc₁) hc₁
          fun _ c₂ hc₂ _ _ => ?_
        exact (expectOr hc₂ (by decide) _).bind (Nat.zero_le 1) hc₂ fun _ _ hc₃ _ _ => finish hc₃ ..
termination_by structural n => n

theorem block : ∀ (n m : Nat) {c : Cursor}, c.Among tokens file → 4 * c.rest.length ≤ min n m →
    InStep tokens file 1 (fun _ => True) c (Reading.block (.reporting f) n) (Reading.block (.reporting g) m)
  | 0, _, _, hc, h => by have := hc.length_pos; omega
  | _ + 1, 0, _, hc, h => by have := hc.length_pos; omega
  | n + 1, m + 1, c, hc, h => by
    unfold Reading.block
    refine (expectOr hc (by decide) _).bind (Nat.le_refl 1) hc fun _ c₁ hc₁ h₁ _ => ?_
    refine (blockBody n m hc₁ (by omega)).bind (Nat.le_refl 0) hc₁ fun _ c₂ hc₂ _ _ => ?_
    exact (expectOr hc₂ (by decide) _).bind (Nat.zero_le 1) hc₂ fun _ _ hc₃ _ _ => finish hc₃ ..
termination_by structural n => n

theorem blockBody : ∀ (n m : Nat) {c : Cursor}, c.Among tokens file → 4 * c.rest.length + 3 ≤ min n m →
    InStep tokens file 0 (fun _ => True) c (Reading.blockBody (.reporting f) n)
      (Reading.blockBody (.reporting g) m)
  | 0, _, _, _, h => by omega
  | _ + 1, 0, _, _, h => by omega
  | n + 1, m + 1, c, hc, h => by
    unfold Reading.blockBody
    refine peek ?_
    split
    · exact of_pure hc trivial
    · split
      · exact fail hc _
      · refine (stmt n m hc (by omega)).bind (Nat.zero_le 1) hc fun _ c₁ hc₁ h₁ _ => ?_
        exact (blockBody n m hc₁ (by omega)).bind (Nat.le_refl 0) hc₁ fun _ _ hc₂ _ _ => of_pure hc₂ trivial
termination_by structural n => n

end

theorem script : ∀ (n m : Nat) {c : Cursor}, c.Among tokens file → 4 * c.rest.length + 3 ≤ min n m →
    InStep tokens file 0 (fun _ => True) c (Reading.script (.reporting f) n)
      (Reading.script (.reporting g) m)
  | 0, _, _, _, h => by omega
  | _ + 1, 0, _, _, h => by omega
  | n + 1, m + 1, c, hc, h => by
    unfold Reading.script
    refine get ?_
    split
    · refine (stmt n m hc (by omega)).bind (Nat.zero_le 1) hc fun _ c₁ hc₁ h₁ _ => ?_
      exact (script n m hc₁ (by omega)).bind (Nat.le_refl 0) hc₁ fun _ _ hc₂ _ _ => of_pure hc₂ trivial
    · exact of_pure hc trivial

end InStep

/-! ## Reading from any place -/

/-- Started at `c`, the reader comes to an end: with an allowance that is large enough it makes no difference
how large it is and what would be reported when it is used up. On success it has consumed `d` tokens or more.
It leaves the end of the script to come, whether it succeeds or fails, and a failure is where a token
begins. -/
structure Proceeds {α : Type} (tokens : List Token) (file : String) (d : Nat) (c : Cursor)
    (reader : Grammar → Nat → Reading α) : Prop where
  ends : ∀ exhausted n, 4 * c.rest.length + 3 ≤ n →
    reader (.reporting exhausted) n c = Reading.withAllowance (reader .standard) c
  ok : ∀ {a c'}, Reading.withAllowance (reader .standard) c = .ok a c' →
    ∃ ts, Consumed file c ts c' ∧ d ≤ ts.length
  error : ∀ {e c'}, Reading.withAllowance (reader .standard) c = .error e c' →
    (∃ ts, Consumed file c ts c') ∧ Starts tokens file e.position

theorem InStep.proceeds {α : Type} {tokens : List Token} {file : String} {d : Nat} {P : α → Prop} {c : Cursor}
    {reader : Grammar → Nat → Reading α}
    (h : ∀ f g n m, 4 * c.rest.length + 3 ≤ min n m →
      InStep tokens file d P c (reader (.reporting f) n) (reader (.reporting g) m)) :
    Proceeds tokens file d c reader := by
  have hallowed : 4 * c.rest.length + 3 ≤ Reading.allowance c := by
    unfold Reading.allowance
    omega
  have hown := h Grammar.standard.exhausted Grammar.standard.exhausted _ _ (Nat.le_min.2 ⟨hallowed, hallowed⟩)
  refine ⟨fun exhausted n hn => ?_, fun hx => ?_, hown.error⟩
  · exact (h exhausted Grammar.standard.exhausted n _ (Nat.le_min.2 ⟨hn, hallowed⟩)).same
  · obtain ⟨ts, hts, hd, -⟩ := hown.ok hx
    exact ⟨ts, hts, hd⟩

theorem among_ofTokens {tokens : List Token} (h : Ended tokens) (file : String) :
    (Cursor.ofTokens file tokens).Among tokens file := ⟨⟨rfl, h⟩, List.suffix_refl _⟩

theorem proceeds_script {tokens : List Token} {file : String} {c : Cursor} (hc : c.Among tokens file) :
    Proceeds tokens file 0 c Reading.script :=
  InStep.proceeds fun _ _ n m h => InStep.script n m hc h

/-- A script that cannot be read fails where one of its tokens begins. -/
theorem starts_of_parse {tokens : List Token} {file : String} {e : SyntaxError} (hended : Ended tokens)
    (h : parse tokens file = .error e) : Starts tokens file e.position := by
  unfold parse at h
  split at h
  · cases h
  · next c herror =>
    cases h
    exact ((proceeds_script (among_ofTokens hended file)).error herror).2

/-- Reading makes progress and ends. Take any tokens of which only the last is an end-of-file token, and any
place in front of one of them. Every reader that is started there comes to an end, in front of the end of the
tokens; readers of expressions and statements have then consumed a token or have failed. Reading the whole
list gives a script, or an error where a token begins. -/
theorem reading_proceeds {tokens : List Token} (hended : Ended tokens) (file : String) :
    (∀ c : Cursor, c.Among tokens file →
      (∀ power, Proceeds tokens file 1 c fun g => Reading.expr g power) ∧
      (∀ rule, Grammar.standard.head c.current.kind = some rule →
        Proceeds tokens file 1 c fun g => Reading.head g rule) ∧
      (∀ own rule left, Grammar.standard.tail c.current.kind = some (own, rule) → Begun tokens file left →
        Proceeds tokens file 1 c fun g => Reading.tail g own rule left) ∧
      Proceeds tokens file 1 c Reading.arguments ∧
      Proceeds tokens file 1 c Reading.stmt ∧
      (c.current.kind ≠ .eof → Proceeds tokens file 1 c Reading.declaration) ∧
      Proceeds tokens file 1 c Reading.forFirst ∧
      Proceeds tokens file 1 c Reading.parameters ∧
      Proceeds tokens file 1 c Reading.block ∧
      Proceeds tokens file 0 c Reading.blockBody ∧
      Proceeds tokens file 0 c Reading.script) ∧
    (Cursor.ofTokens file tokens).Among tokens file ∧
    ((∃ s, parse tokens file = .ok s) ∨
      ∃ e, parse tokens file = .error e ∧ Starts tokens file e.position) := by
  refine ⟨fun c hc => ?_, among_ofTokens hended file, ?_⟩
  · refine ⟨fun power => ?_, fun rule hrule => ?_, fun own rule left hrule hleft => ?_, ?_, ?_,
      fun hkind => ?_, ?_, ?_, ?_, ?_, proceeds_script hc⟩
    · exact InStep.proceeds fun _ _ n m h => InStep.expr power n m hc (by omega)
    · exact InStep.proceeds fun _ _ n m h => InStep.head rule n m hc hrule (by omega)
    · exact InStep.proceeds fun _ _ n m h => InStep.tail own rule hleft n m hc hrule (by omega)
    · exact InStep.proceeds fun _ _ n m h => InStep.arguments n m hc (by omega)
    · exact InStep.proceeds fun _ _ n m h => InStep.stmt n m hc (by omega)
    · exact InStep.proceeds fun _ _ n m h => InStep.declaration hc hkind (by omega)
    · exact InStep.proceeds fun _ _ n m h => InStep.forFirst hc (by omega)
    · exact InStep.proceeds fun _ _ n m h => InStep.parameters n m hc (by omega)
    · exact InStep.proceeds fun _ _ n m h => InStep.block n m hc (by omega)
    · exact InStep.proceeds fun _ _ n m h => InStep.blockBody n m hc (by omega)
  · cases hparse : parse tokens file with
    | ok s => exact .inl ⟨s, rfl⟩
    | error e => exact .inr ⟨e, rfl, starts_of_parse hended hparse⟩

/-- A condition and then an assignment to a call. The tokens overlap, and one is a number that is none. -/
def assignedCall : List Token :=
  [⟨.keyword .if_, "if", "shell", 0, 2⟩, ⟨.number, "1", "shell", 1, 4⟩, ⟨.identifier, "f", "shell", 7, 5⟩,
    ⟨.punct .openParen, "(", "shell", 7, 8⟩, ⟨.punct .closeParen, ")", "shell", 7, 8⟩,
    ⟨.punct .assignment, "=", "shell", 9, 9⟩, ⟨.number, "x", "shell", 9, 9⟩, .eof "shell" 3]

theorem assignedCall_proceeds :
    Ended assignedCall ∧
    (∀ exhausted n, 35 ≤ n →
      Reading.script (.reporting exhausted) n (.ofTokens "shell" assignedCall) =
        Reading.withAllowance (Reading.script .standard) (.ofTokens "shell" assignedCall)) ∧
    parse assignedCall "shell" =
      .error ⟨.unexpectedBecause "=" "only variables can be assigned to", "shell", 7⟩ ∧
    Starts assignedCall "shell" ⟨"shell", 7⟩ := by
  have hended : Ended assignedCall :=
    .cons (by decide) <| .cons (by decide) <| .cons (by decide) <| .cons (by decide) <| .cons (by decide) <|
      .cons (by decide) <| .cons (by decide) <| .eof rfl
  have hparse : parse assignedCall "shell" =
      .error ⟨.unexpectedBecause "=" "only variables can be assigned to", "shell", 7⟩ := by rfl
  obtain ⟨hreaders, hplace, hresult⟩ := reading_proceeds hended "shell"
  obtain ⟨-, -, -, -, -, -, -, -, -, -, hscript⟩ := hreaders _ hplace
  refine ⟨hended, hscript.ends, hparse, ?_⟩
  obtain ⟨s, hs⟩ | ⟨e, he, hstarts⟩ := hresult
  · cases hparse.symm.trans hs
  · obtain rfl := Except.error.inj (hparse.symm.trans he)
    exact hstarts

end Scripting.Surface
