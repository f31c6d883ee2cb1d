import Scripting.Proofs.Surface.Reading
import Scripting.Proofs.Surface.Spelling

/-!
# Reading consumes what it returns

Whatever a reader of expressions returns is spelt by the tokens it consumed, with no token left out and
none added. There is one lemma per reader, and they recurse as the readers do, on the allowance. What
carries the induction is `Consumed`: it says which tokens lie between two cursors, and that the
end-of-file token is still to come.
-/

namespace Scripting.Surface

/-! ## Consumed tokens -/

/-- The list ends in its only end-of-file token. -/
inductive Ended : List Token → Prop
  | eof {t : Token} (kind : t.kind = .eof) : Ended [t]
  | cons {t : Token} {ts : List Token} (kind : t.kind ≠ .eof) (others : Ended ts) : Ended (t :: ts)

namespace Ended

theorem exists_cons {ts : List Token} (h : Ended ts) : ∃ t us, ts = t :: us := by
  cases h <;> exact ⟨_, _, rfl⟩

theorem tail {t : Token} {ts : List Token} (h : Ended (t :: ts)) (ht : t.kind ≠ .eof) : Ended ts := by
  cases h with
  | eof kind => exact absurd kind ht
  | cons _ others => exact others

theorem eq_nil {t : Token} {ts : List Token} (h : Ended (t :: ts)) (ht : t.kind = .eof) : ts = [] := by
  cases h with
  | eof _ => rfl
  | cons kind _ => exact absurd ht kind

end Ended

/-- The cursor stands in the named script, somewhere in front of its end. -/
structure Cursor.Open (file : String) (c : Cursor) : Prop where
  file_eq : c.file = file
  ended : Ended c.rest

/-- Reading went from `c` over the tokens `ts` to `c'`, and not past the end of the script. -/
structure Consumed (file : String) (c : Cursor) (ts : List Token) (c' : Cursor) : Prop where
  rest : c.rest = ts ++ c'.rest
  behind : c' = c.behind ts c'.rest
  opened : c'.Open file

namespace Consumed

variable {file : String} {c c₁ c₂ : Cursor} {t : Token} {ts us : List Token}

theorem nil (h : c.Open file) : Consumed file c [] c := ⟨rfl, rfl, h⟩

theorem one (h : c.Open file) (hrest : c.rest = t :: ts) (hkind : t.kind ≠ .eof) :
    Consumed file c [t] (c.behind [t] ts) := by
  have hended : Ended (t :: ts) := hrest ▸ h.ended
  exact ⟨hrest, rfl, h.file_eq, hended.tail hkind⟩

theorem trans (h : Consumed file c ts c₁) (h' : Consumed file c₁ us c₂) :
    Consumed file c (ts ++ us) c₂ := by
  refine ⟨?_, ?_, h'.opened⟩
  · rw [h.rest, h'.rest, List.append_assoc]
  · rw [h'.behind, h.behind, Cursor.behind_behind]
    rfl

theorem cons (h : Consumed file c [t] c₁) (h' : Consumed file c₁ ts c₂) :
    Consumed file c (t :: ts) c₂ := h.trans h'

theorem current (h : Consumed file c (t :: ts) c₁) : c.current = t := Cursor.current_of_rest h.rest

/-- A span up to the cursor ends with the last token consumed. -/
theorem spanFrom (h : Consumed file c ts c₁) (hts : ts ≠ []) (start : Nat) :
    c₁.spanFrom start = ⟨file, start, ts.getLast?.elim 0 (·.span.stop)⟩ := by
  obtain ⟨us, t, rfl⟩ := (List.eq_nil_or_concat ts).resolve_left hts
  have hstop : c₁.previousEnd.offset = t.span.stop := by
    rw [h.behind]
    unfold Cursor.previousEnd Cursor.behind
    rw [List.concat_eq_append, List.getLast?_concat]
    rfl
  unfold Cursor.spanFrom
  rw [h.opened.file_eq, hstop, List.concat_eq_append, List.getLast?_concat]
  rfl

end Consumed

namespace Reading

variable {α β : Type} {file : String} {c c' : Cursor} {kind : TokenKind} {n : Nat}

/-! ## Elementary readers -/

theorem bind_ok {x : Reading α} {f : α → Reading β} {b : β} (h : (x >>= f) c = .ok b c') :
    ∃ a c₁, x c = .ok a c₁ ∧ f a c₁ = .ok b c' := by
  change EStateM.bind x f c = _ at h
  unfold EStateM.bind at h
  split at h
  · next a c₁ hx => exact ⟨a, c₁, hx, h⟩
  · cases h

theorem map_ok {x : Reading α} {f : α → β} {b : β} (h : (f <$> x) c = .ok b c') :
    ∃ a, x c = .ok a c' ∧ b = f a := by
  change EStateM.map f x c = _ at h
  unfold EStateM.map at h
  split at h
  · next a c₁ hx => cases h; exact ⟨a, hx, rfl⟩
  · cases h

/-- Two alternatives that go on in the same way. -/
theorem choice_ok {p : Prop} [Decidable p] {x y : Reading α} {f : α → Reading β} {b : β}
    (h : (if p then x >>= f else y >>= f) c = .ok b c') :
    ∃ a c₁, (if p then x else y) c = .ok a c₁ ∧ f a c₁ = .ok b c' := by
  split at h
  · next hp => rw [if_pos hp]; exact bind_ok h
  · next hp => rw [if_neg hp]; exact bind_ok h

theorem pure_ok {a b : α} (h : (pure a : Reading α) c = .ok b c') : b = a ∧ c = c' := by
  cases h
  exact ⟨rfl, rfl⟩

theorem stuck_ne_ok {g : Grammar} {a : α} : (stuck g : Reading α) c ≠ .ok a c' := nofun

theorem peek_bind (f : Token → Reading β) : (peek >>= f) c = f c.current c := rfl

theorem spanFrom_bind (start : Nat) (f : Span → Reading β) :
    (spanFrom start >>= f) c = f (c.spanFrom start) c := rfl

/-- A node whose span begins with the first token consumed takes up what was consumed. -/
theorem spanFrom_ok {c₁ : Cursor} {t : Token} {ts : List Token} {f : Span → α} {a : α}
    (hall : Consumed file c (t :: ts) c₁)
    (h : (spanFrom t.span.start >>= fun span => pure (f span)) c₁ = .ok a c') :
    a = f (extent file (t :: ts)) ∧ c₁ = c' := by
  rw [spanFrom_bind, hall.spanFrom (List.cons_ne_nil _ _)] at h
  exact pure_ok h

theorem next_ok {f : Token → Reading β} {b : β} (hc : c.Open file) (hkind : c.current.kind ≠ .eof)
    (h : (next >>= f) c = .ok b c') :
    ∃ c₁, Consumed file c [c.current] c₁ ∧ f c.current c₁ = .ok b c' := by
  obtain ⟨t, ts, hrest⟩ := hc.ended.exists_cons
  have hcurrent := Cursor.current_of_rest hrest
  rw [bind_of_ok (next_of_rest hrest)] at h
  rw [hcurrent] at hkind ⊢
  exact ⟨_, .one hc hrest hkind, h⟩

theorem expectOr_ok {cause : Token → SyntaxError.Cause} {f : Token → Reading β} {b : β}
    (hc : c.Open file) (hkind : kind ≠ .eof) (h : (expectOr kind cause >>= f) c = .ok b c') :
    ∃ t c₁, t.kind = kind ∧ Consumed file c [t] c₁ ∧ f t c₁ = .ok b c' := by
  obtain ⟨t, ts, hrest⟩ := hc.ended.exists_cons
  by_cases ht : t.kind = kind
  · have hexpect : expectOr kind cause c = .ok t (c.behind [t] ts) := by
      unfold expectOr
      rw [bind_of_ok (peek_of_rest hrest), if_pos ht, next_of_rest hrest]
    rw [bind_of_ok hexpect] at h
    exact ⟨t, _, ht, .one hc hrest (ht ▸ hkind), h⟩
  · obtain ⟨u, c₁, hexpect, -⟩ := bind_ok h
    unfold expectOr at hexpect
    rw [bind_of_ok (peek_of_rest hrest), if_neg ht] at hexpect
    cases hexpect

theorem accept_ok {b : Bool} (hc : c.Open file) (hkind : kind ≠ .eof) (h : accept kind c = .ok b c') :
    (b = true ∧ ∃ t, t.kind = kind ∧ Consumed file c [t] c') ∨ (b = false ∧ c = c') := by
  obtain ⟨t, ts, hrest⟩ := hc.ended.exists_cons
  by_cases ht : t.kind = kind
  · rw [accept_of_eq hrest ht] at h
    cases h
    exact .inl ⟨rfl, t, ht, .one hc hrest (ht ▸ hkind)⟩
  · rw [accept_of_ne hrest ht] at h
    cases h
    exact .inr ⟨rfl, rfl⟩

theorem literal_ok {e : Expr} (hc : c.Open file) (h : literal c = .ok e c') :
    ∃ ts, Consumed file c ts c' ∧ e.Spelt file ts := by
  have hone {e' : Expr} (hkind : c.current.kind ≠ .eof) (hspelt : e'.Spelt file [c.current])
      (h : (next >>= fun _ => pure e') c = .ok e c') :
      ∃ ts, Consumed file c ts c' ∧ e.Spelt file ts := by
    obtain ⟨c₁, ht, h⟩ := next_ok hc hkind h
    obtain ⟨rfl, rfl⟩ := pure_ok h
    exact ⟨_, ht, hspelt⟩
  unfold literal at h
  rw [peek_bind] at h
  generalize hkind : c.current.kind = kind at h hone
  split at h
  · generalize hvalue : Text.readInt32? c.current.value.toList = value? at h
    split at h
    · exact hone (by decide) (.number hkind hvalue) h
    · cases h
  · exact hone (by decide) (.name hkind) h
  · exact hone (by decide) (.text hkind) h
  · exact hone (by decide) (.truth hkind) h
  · exact hone (by decide) (.falsity hkind) h
  · cases h

theorem stmt_zero_ne_ok {g : Grammar} {s : Stmt} : stmt g 0 c ≠ .ok s c' := by
  rw [stmt]
  exact stuck_ne_ok

/-! ## Expressions -/

theorem opening_of_group (h : Grammar.standard.head kind = some .group) :
    kind = .punct .openParen := by
  simp only [Grammar.standard] at h
  split at h <;> simp_all

theorem opening_of_call {own : Power} (h : Grammar.standard.tail kind = some (own, .call)) :
    kind = .punct .openParen := by
  simp only [Grammar.standard] at h
  split at h
  · split at h <;> simp_all
  · cases h

mutual

theorem expr_ok : ∀ (n : Nat) {c c' : Cursor} {power : Power} {e : Expr}, c.Open file →
    expr .standard power n c = .ok e c' → ∃ ts, Consumed file c ts c' ∧ e.Spelt file ts
  | 0, _, _, _, _, _, h => absurd h stuck_ne_ok
  | n + 1, c, c', power, e, hc, h => by
    rw [expr, peek_bind] at h
    cases hrule : Grammar.standard.head c.current.kind with
    | none =>
      simp only [hrule] at h
      cases h
    | some rule =>
      simp only [hrule] at h
      obtain ⟨left, c₁, hhead, h⟩ := bind_ok h
      obtain ⟨ls, hls, hleft⟩ := head_ok n hc hrule hhead
      obtain ⟨ts, hts, he⟩ := extend_ok n hls.opened hleft h
      exact ⟨_, hls.trans hts, he⟩

theorem head_ok : ∀ (n : Nat) {c c' : Cursor} {rule : HeadRule} {e : Expr}, c.Open file →
    Grammar.standard.head c.current.kind = some rule → head .standard rule n c = .ok e c' →
    ∃ ts, Consumed file c ts c' ∧ e.Spelt file ts
  | 0, _, _, _, _, _, _, h => absurd h stuck_ne_ok
  | n + 1, c, c', rule, e, hc, hrule, h => by
    have hkind : c.current.kind ≠ .eof := by
      intro hkind
      rw [hkind] at hrule
      cases hrule
    cases rule with
    | literal =>
      rw [head] at h
      exact literal_ok hc h
    | operator =>
      rw [head] at h
      obtain ⟨c₁, ho, h⟩ := next_ok hc hkind h
      obtain ⟨operand, c₂, hexpr, h⟩ := bind_ok h
      obtain ⟨ts, hts, hoperand⟩ := expr_ok n ho.opened hexpr
      obtain ⟨rfl, rfl⟩ := pure_ok h
      exact ⟨_, ho.cons hts, .unary hrule hoperand⟩
    | group =>
      rw [head] at h
      obtain ⟨c₁, ht, h⟩ := next_ok hc hkind h
      obtain ⟨inner, c₂, hexpr, h⟩ := bind_ok h
      obtain ⟨ts, hts, hinner⟩ := expr_ok n ht.opened hexpr
      obtain ⟨u, c₃, hu, hclose, h⟩ := expectOr_ok hts.opened (by decide) h
      obtain ⟨rfl, rfl⟩ := pure_ok h
      exact ⟨_, ht.cons (hts.trans hclose), .group (opening_of_group hrule) hinner hu⟩

theorem extend_ok : ∀ (n : Nat) {c c' : Cursor} {power : Power} {left e : Expr} {ls : List Token},
    c.Open file → left.Spelt file ls → extend .standard power left n c = .ok e c' →
    ∃ ts, Consumed file c ts c' ∧ e.Spelt file (ls ++ ts)
  | 0, _, _, _, _, _, _, _, _, h => absurd h stuck_ne_ok
  | n + 1, c, c', power, left, e, ls, hc, hleft, h => by
    rw [extend, peek_bind] at h
    have hstop : ∃ ts, Consumed file c ts c ∧ left.Spelt file (ls ++ ts) :=
      ⟨[], .nil hc, by rwa [List.append_nil]⟩
    cases hrule : Grammar.standard.tail c.current.kind with
    | none =>
      simp only [hrule] at h
      obtain ⟨rfl, rfl⟩ := pure_ok h
      exact hstop
    | some r =>
      obtain ⟨own, rule⟩ := r
      simp only [hrule] at h
      split at h
      · obtain ⟨rfl, rfl⟩ := pure_ok h
        exact hstop
      · obtain ⟨more, c₁, htail, h⟩ := bind_ok h
        obtain ⟨ms, hms, hmore⟩ := tail_ok n hc hleft hrule htail
        obtain ⟨ts, hts, he⟩ := extend_ok n hms.opened hmore h
        exact ⟨_, hms.trans hts, by rwa [← List.append_assoc]⟩

theorem tail_ok : ∀ (n : Nat) {c c' : Cursor} {own : Power} {rule : TailRule} {left e : Expr}
    {ls : List Token}, c.Open file → left.Spelt file ls →
    Grammar.standard.tail c.current.kind = some (own, rule) →
    tail .standard own rule left n c = .ok e c' →
    ∃ ts, Consumed file c ts c' ∧ e.Spelt file (ls ++ ts)
  | 0, _, _, _, _, _, _, _, _, _, _, h => absurd h stuck_ne_ok
  | n + 1, c, c', own, rule, left, e, ls, hc, hleft, hrule, h => by
    have hkind : c.current.kind ≠ .eof := by
      intro hkind
      rw [hkind] at hrule
      cases hrule
    cases rule with
    | binary =>
      rw [tail] at h
      obtain ⟨c₁, ho, h⟩ := next_ok hc hkind h
      obtain ⟨right, c₂, hexpr, h⟩ := bind_ok h
      obtain ⟨rs, hrs, hright⟩ := expr_ok n ho.opened hexpr
      obtain ⟨rfl, rfl⟩ := pure_ok h
      exact ⟨_, ho.cons hrs, .binary hleft hrule hright⟩
    | assign =>
      cases left with
      | name target =>
        rw [tail] at h
        obtain ⟨c₁, ho, h⟩ := next_ok hc hkind h
        obtain ⟨value, c₂, hexpr, h⟩ := bind_ok h
        obtain ⟨ts, hts, hvalue⟩ := expr_ok n ho.opened hexpr
        obtain ⟨rfl, rfl⟩ := pure_ok h
        exact ⟨_, ho.cons hts, .assign hleft hrule hvalue⟩
      | _ =>
        simp only [tail] at h
        cases h
    | call =>
      cases left with
      | name callee =>
        rw [tail] at h
        obtain ⟨c₁, ht, h⟩ := next_ok hc hkind h
        rw [peek_bind] at h
        obtain ⟨es, c₂, harguments, h⟩ := choice_ok h
        have hes : ∃ us, Consumed file c₁ us c₂ ∧ Expr.AllSpelt file es us := by
          split at harguments
          · obtain ⟨rfl, rfl⟩ := pure_ok harguments
            exact ⟨[], .nil ht.opened, .nil⟩
          · obtain ⟨us, hus, hes, -⟩ := arguments_ok n ht.opened harguments
            exact ⟨us, hus, hes⟩
        obtain ⟨us, hus, hes⟩ := hes
        obtain ⟨u, c₃, hu, hclose, h⟩ := expectOr_ok hus.opened (by decide) h
        have hall := ht.cons (hus.trans hclose)
        have hlast : (c.current :: (us ++ [u])).getLast? = some u := by
          rw [← List.cons_append, List.getLast?_concat]
        rw [spanFrom_bind, hall.spanFrom (List.cons_ne_nil _ _), hlast] at h
        obtain ⟨rfl, rfl⟩ := pure_ok h
        exact ⟨_, hall, .call hleft (opening_of_call hrule) hes hu⟩
      | _ =>
        simp only [tail] at h
        cases h

theorem arguments_ok : ∀ (n : Nat) {c c' : Cursor} {es : List Expr}, c.Open file →
    arguments .standard n c = .ok es c' →
    ∃ ts, Consumed file c ts c' ∧ Expr.AllSpelt file es ts ∧ es ≠ []
  | 0, _, _, _, _, h => absurd h stuck_ne_ok
  | n + 1, c, c', es, hc, h => by
    rw [arguments] at h
    obtain ⟨e, c₁, hexpr, h⟩ := bind_ok h
    obtain ⟨ts, hts, he⟩ := expr_ok n hc hexpr
    obtain ⟨b, c₂, haccept, h⟩ := bind_ok h
    obtain ⟨rfl, t, ht, hcomma⟩ | ⟨rfl, rfl⟩ := accept_ok hts.opened (by decide) haccept
    · obtain ⟨es, c₃, harguments, h⟩ := bind_ok h
      obtain ⟨us, hus, hes, hne⟩ := arguments_ok n hcomma.opened harguments
      obtain ⟨e', es, rfl⟩ := List.exists_cons_of_ne_nil hne
      obtain ⟨rfl, rfl⟩ := pure_ok h
      exact ⟨_, hts.trans (hcomma.cons hus), .cons he ht hes, List.cons_ne_nil _ _⟩
    · obtain ⟨rfl, rfl⟩ := pure_ok h
      exact ⟨ts, hts, .last he, List.cons_ne_nil _ _⟩

end

end Reading

end Scripting.Surface
