import Scripting.Proofs.Surface.Consumption

/-!
# The tokens of a script that was read

Statements, too, are spelt by the tokens that reading them consumed. There is one lemma per rule, under
the assumption that inner statements and blocks are read so; `stmt_ok` puts them together. A statement
whose last semicolon is missing leaves the cursor at the end of the script (`StmtRead`), so whatever is
followed by another token is whole.

The main statement is `tokens_spell_script`: between the tokens of a script and its tree nothing is
skipped and nothing is invented.
-/

namespace Scripting.Surface

namespace Reading

variable {file : String} {c c' : Cursor} {kind : TokenKind} {n : Nat}

/-! ## Parts of statements -/

theorem typeName_ok {x : Name} (hc : c.Open file) (h : typeName c = .ok x c') :
    ∃ t, t.kind = .identifier ∧ Consumed file c [t] c' ∧ x = ⟨t.value, t.span⟩ := by
  obtain ⟨t, c₁, ht, hone, h⟩ := expectOr_ok hc (by decide) h
  obtain ⟨rfl, rfl⟩ := pure_ok h
  exact ⟨t, ht, hone, rfl⟩

/-- A mark that is accepted calls for the name of a type behind it. -/
theorem typeClause_ok {mark : Punct} {b : Bool} {c₁ : Cursor} {type? : Option Name} (hc : c.Open file)
    (haccept : accept (.punct mark) c = .ok b c₁)
    (h : (if b = true then some <$> typeName else pure none) c₁ = .ok type? c') :
    ∃ ts, Consumed file c ts c' ∧ TypeClause mark type? ts := by
  have hkind : TokenKind.punct mark ≠ .eof := nofun
  obtain ⟨rfl, t, ht, hmark⟩ | ⟨rfl, rfl⟩ := accept_ok hc hkind haccept
  · obtain ⟨x, htype, rfl⟩ := map_ok h
    obtain ⟨u, hu, hname, rfl⟩ := typeName_ok hmark.opened htype
    exact ⟨_, hmark.cons hname, .present ht hu⟩
  · obtain ⟨rfl, rfl⟩ := pure_ok h
    exact ⟨[], .nil hc, .absent⟩

theorem declaration_ok {d : VariableDecl} (hc : c.Open file)
    (hkeyword : c.current.kind = .keyword .var_ ∨ c.current.kind = .keyword .let_)
    (h : declaration .standard n c = .ok d c') : ∃ ts, Consumed file c ts c' ∧ d.Spelt file ts := by
  have hkind : c.current.kind ≠ .eof := by
    obtain hk | hk := hkeyword <;> rw [hk] <;> decide
  have hreadOnly : c.current.kind =
      .keyword (if decide (c.current.kind = .keyword .let_) = true then .let_ else .var_) := by
    obtain hk | hk := hkeyword <;> rw [hk] <;> decide
  obtain ⟨c₁, hk, h⟩ := next_ok hc hkind h
  obtain ⟨name, c₂, hname, hn, h⟩ := expectOr_ok hk.opened (by decide) h
  obtain ⟨b, c₃, haccept, h⟩ := bind_ok h
  obtain ⟨type?, c₄, htype, h⟩ := choice_ok h
  obtain ⟨types, hts, htype⟩ := typeClause_ok hn.opened haccept htype
  obtain ⟨equals, c₅, hequals, he, h⟩ := expectOr_ok hts.opened (by decide) h
  obtain ⟨value, c₆, hexpr, h⟩ := bind_ok h
  obtain ⟨values, hvs, hvalue⟩ := expr_ok n he.opened hexpr
  obtain ⟨semicolon, c₇, hsemicolon, hs, h⟩ := expectOr_ok hvs.opened (by decide) h
  have hall := hk.cons (hn.cons (hts.trans (he.cons (hvs.trans hs))))
  obtain ⟨rfl, rfl⟩ := spanFrom_ok hall h
  exact ⟨_, hall, .mk hreadOnly hname htype hequals hvalue hsemicolon⟩

theorem parameters_ok : ∀ (n : Nat) {c c' : Cursor} {ps : List Parameter}, c.Open file →
    parameters .standard n c = .ok ps c' →
    ∃ ts, Consumed file c ts c' ∧ Parameter.AllSpelt file ps ts ∧ ps ≠ []
  | 0, _, _, _, _, h => absurd h stuck_ne_ok
  | n + 1, c, c', ps, hc, h => by
    rw [parameters] at h
    obtain ⟨name, c₁, hname, hn, h⟩ := expectOr_ok hc (by decide) h
    obtain ⟨colon, c₂, hcolon, hco, h⟩ := expectOr_ok hn.opened (by decide) h
    obtain ⟨x, c₃, htypeName, h⟩ := bind_ok h
    obtain ⟨type, htype, hty, rfl⟩ := typeName_ok hco.opened htypeName
    have hall := hn.cons (hco.cons hty)
    rw [spanFrom_bind, hall.spanFrom (List.cons_ne_nil _ _)] at h
    obtain ⟨b, c₄, haccept, h⟩ := bind_ok h
    obtain ⟨rfl, t, ht, hcomma⟩ | ⟨rfl, rfl⟩ := accept_ok hall.opened (by decide) haccept
    · obtain ⟨ps, c₅, hparameters, h⟩ := bind_ok h
      obtain ⟨us, hus, hps, hne⟩ := parameters_ok n hcomma.opened hparameters
      obtain ⟨p', ps, rfl⟩ := List.exists_cons_of_ne_nil hne
      obtain ⟨rfl, rfl⟩ := pure_ok h
      exact ⟨_, hall.trans (hcomma.cons hus), .cons (.mk hname hcolon htype) ht hps,
        List.cons_ne_nil _ _⟩
    · obtain ⟨rfl, rfl⟩ := pure_ok h
      exact ⟨_, hall, .last (.mk hname hcolon htype), List.cons_ne_nil _ _⟩

theorem forFirst_ok {s : Stmt} (hc : c.Open file) (h : forFirst .standard n c = .ok s c') :
    ∃ ts, Consumed file c ts c' ∧ s.Spelt file .whole ts ∧ s.opensLoop = true := by
  have hdeclare (hkeyword : c.current.kind = .keyword .var_ ∨ c.current.kind = .keyword .let_)
      (h : (declaration .standard n >>= fun d => pure (Stmt.declare d)) c = .ok s c') :
      ∃ ts, Consumed file c ts c' ∧ s.Spelt file .whole ts ∧ s.opensLoop = true := by
    obtain ⟨d, c₁, hdeclaration, h⟩ := bind_ok h
    obtain ⟨ts, hts, hd⟩ := declaration_ok hc hkeyword hdeclaration
    obtain ⟨rfl, rfl⟩ := pure_ok h
    exact ⟨ts, hts, .declare hd, rfl⟩
  unfold forFirst at h
  rw [peek_bind] at h
  generalize hkind : c.current.kind = kind at h
  split at h
  · exact hdeclare (.inl hkind) h
  · exact hdeclare (.inr hkind) h
  · obtain ⟨e, c₁, hexpr, h⟩ := bind_ok h
    obtain ⟨ts, hts, he⟩ := expr_ok n hc hexpr
    obtain ⟨semicolon, c₂, hsemicolon, hs, h⟩ := expectOr_ok hts.opened (by decide) h
    obtain ⟨rfl, rfl⟩ := pure_ok h
    exact ⟨_, hts.trans hs, .expr he hsemicolon, rfl⟩

/-! ## Statements -/

/-- The kinds of token that a rule begins with. -/
def Begins (kind : TokenKind) : StatementRule → Prop
  | .declare => kind = .keyword .var_ ∨ kind = .keyword .let_
  | .ifElse => kind = .keyword .if_
  | .whileLoop => kind = .keyword .while_
  | .doWhile => kind = .keyword .do_
  | .forLoop => kind = .keyword .for_
  | .breakLoop => kind = .keyword .break_
  | .continueLoop => kind = .keyword .continue_
  | .block => kind = .punct .openCurly
  | .function => kind = .keyword .fn_
  | .returns => kind = .keyword .return_

theorem begins_of_rule {rule : StatementRule} (h : Grammar.standard.statement kind = some rule) :
    Begins kind rule := by
  simp only [Grammar.standard] at h
  split at h
  case h_12 => cases h
  all_goals
    obtain rfl := Option.some.inj h
    simp [Begins]

/-- Reading went from `c` to `c'` over the tokens of a statement. It was cut only if the script ends
there. -/
def StmtRead (file : String) (c : Cursor) (s : Stmt) (c' : Cursor) : Prop :=
  ∃ ending ts, Consumed file c ts c' ∧ s.Spelt file ending ts ∧
    (ending = .cut → c'.current.kind = .eof)

/-- Reading went from `c` to `c'` over the tokens of a block. -/
def BlockRead (file : String) (c : Cursor) (body : List Stmt) (span : Span) (c' : Cursor) : Prop :=
  ∃ ts, Consumed file c ts c' ∧ Stmt.BlockSpelt file body span ts

theorem StmtRead.of_whole {s : Stmt} {ts : List Token} (hts : Consumed file c ts c')
    (hs : s.Spelt file .whole ts) : StmtRead file c s c' :=
  ⟨.whole, ts, hts, hs, fun h => by cases h⟩

theorem StmtRead.opened {s : Stmt} (h : StmtRead file c s c') : c'.Open file := by
  obtain ⟨_, _, hts, _, _⟩ := h
  exact hts.opened

theorem StmtRead.whole {s : Stmt} (h : StmtRead file c s c') (hkind : c'.current.kind ≠ .eof) :
    ∃ ts, Consumed file c ts c' ∧ s.Spelt file .whole ts := by
  obtain ⟨ending, ts, hts, hs, hcut⟩ := h
  cases ending with
  | whole => exact ⟨ts, hts, hs⟩
  | cut => exact absurd (hcut rfl) hkind

/-- A statement that is a word and a semicolon. -/
theorem wordStmt_ok {f : Span → Stmt} {s : Stmt} (hc : c.Open file) (hkind : c.current.kind ≠ .eof)
    (h : (do
      let _ ← next
      let _ ← expect (.punct .semicolon)
      return f (← spanFrom c.current.span.start) : Reading Stmt) c = .ok s c') :
    ∃ semicolon : Token, semicolon.kind = .punct .semicolon ∧
      Consumed file c [c.current, semicolon] c' ∧ s = f (extent file [c.current, semicolon]) := by
  obtain ⟨c₁, ht, h⟩ := next_ok hc hkind h
  obtain ⟨semicolon, c₂, hsemicolon, hs, h⟩ := expectOr_ok ht.opened (by decide) h
  obtain ⟨rfl, rfl⟩ := spanFrom_ok (ht.cons hs) h
  exact ⟨semicolon, hsemicolon, ht.cons hs, rfl⟩

section Rules

variable {s : Stmt} (hc : c.Open file)
  (hstmt : ∀ {c c' s}, c.Open file → stmt .standard n c = .ok s c' → StmtRead file c s c')
  (hblock : ∀ {c c' b}, c.Open file → block .standard n c = .ok b c' → BlockRead file c b.1 b.2 c')
  (h : stmt .standard (n + 1) c = .ok s c')

include hc h

theorem exprStmt_ok (hrule : Grammar.standard.statement c.current.kind = none) :
    StmtRead file c s c' := by
  rw [stmt, peek_bind, hrule] at h
  obtain ⟨e, c₁, hexpr, h⟩ := bind_ok h
  obtain ⟨ts, hts, he⟩ := expr_ok n hc hexpr
  rw [peek_bind] at h
  split at h
  · obtain ⟨semicolon, c₂, hsemicolon, hs, h⟩ := expectOr_ok hts.opened (by decide) h
    obtain ⟨rfl, rfl⟩ := pure_ok h
    exact .of_whole (hts.trans hs) (.expr he hsemicolon)
  · next hkind =>
    obtain ⟨rfl, rfl⟩ := pure_ok h
    exact ⟨.cut, ts, hts, .cut he, fun _ => Decidable.not_not.1 hkind⟩

theorem declareStmt_ok (hrule : Grammar.standard.statement c.current.kind = some .declare) :
    StmtRead file c s c' := by
  rw [stmt, peek_bind, hrule] at h
  obtain ⟨d, c₁, hdeclaration, h⟩ := bind_ok h
  obtain ⟨ts, hts, hd⟩ := declaration_ok hc (begins_of_rule hrule) hdeclaration
  obtain ⟨rfl, rfl⟩ := pure_ok h
  exact .of_whole hts (.declare hd)

theorem breakStmt_ok (hrule : Grammar.standard.statement c.current.kind = some .breakLoop) :
    StmtRead file c s c' := by
  have hkeyword : c.current.kind = .keyword .break_ := begins_of_rule hrule
  rw [stmt, peek_bind, hrule] at h
  obtain ⟨semicolon, hsemicolon, hts, rfl⟩ := wordStmt_ok hc (by rw [hkeyword]; decide) h
  exact .of_whole hts (.breakLoop hkeyword hsemicolon)

theorem continueStmt_ok (hrule : Grammar.standard.statement c.current.kind = some .continueLoop) :
    StmtRead file c s c' := by
  have hkeyword : c.current.kind = .keyword .continue_ := begins_of_rule hrule
  rw [stmt, peek_bind, hrule] at h
  obtain ⟨semicolon, hsemicolon, hts, rfl⟩ := wordStmt_ok hc (by rw [hkeyword]; decide) h
  exact .of_whole hts (.continueLoop hkeyword hsemicolon)

theorem returnStmt_ok (hrule : Grammar.standard.statement c.current.kind = some .returns) :
    StmtRead file c s c' := by
  have hkeyword : c.current.kind = .keyword .return_ := begins_of_rule hrule
  rw [stmt, peek_bind, hrule] at h
  obtain ⟨c₁, ht, h⟩ := next_ok hc (by rw [hkeyword]; decide) h
  rw [peek_bind] at h
  obtain ⟨value?, c₂, hvalue, h⟩ := choice_ok h
  split at hvalue
  · obtain ⟨rfl, rfl⟩ := pure_ok hvalue
    obtain ⟨semicolon, c₃, hsemicolon, hs, h⟩ := expectOr_ok ht.opened (by decide) h
    obtain ⟨rfl, rfl⟩ := spanFrom_ok (ht.cons hs) h
    exact .of_whole (ht.cons hs) (.returnNothing hkeyword hsemicolon)
  · obtain ⟨e, hexpr, rfl⟩ := map_ok hvalue
    obtain ⟨ts, hts, he⟩ := expr_ok n ht.opened hexpr
    obtain ⟨semicolon, c₃, hsemicolon, hs, h⟩ := expectOr_ok hts.opened (by decide) h
    have hall := ht.cons (hts.trans hs)
    obtain ⟨rfl, rfl⟩ := spanFrom_ok hall h
    exact .of_whole hall (.returnValue hkeyword he hsemicolon)

include hstmt in
theorem ifStmt_ok (hrule : Grammar.standard.statement c.current.kind = some .ifElse) :
    StmtRead file c s c' := by
  have hkeyword : c.current.kind = .keyword .if_ := begins_of_rule hrule
  rw [stmt, peek_bind, hrule] at h
  obtain ⟨c₁, ht, h⟩ := next_ok hc (by rw [hkeyword]; decide) h
  obtain ⟨condition, c₂, hexpr, h⟩ := bind_ok h
  obtain ⟨cs, hcs, hcondition⟩ := expr_ok n ht.opened hexpr
  obtain ⟨thenBody, c₃, hthen, h⟩ := bind_ok h
  have hread := hstmt hcs.opened hthen
  obtain ⟨b, c₄, haccept, h⟩ := bind_ok h
  obtain ⟨rfl, u, hu, helse⟩ | ⟨rfl, rfl⟩ := accept_ok hread.opened (by decide) haccept
  · -- the word that follows shows that the first body is whole
    obtain ⟨ts, hts, hthenBody⟩ := hread.whole (by rw [helse.current, hu]; decide)
    obtain ⟨elseBody, c₅, helseStmt, h⟩ := bind_ok h
    obtain ⟨ending, us, hus, helseBody, hcut⟩ := hstmt helse.opened helseStmt
    have hall := ht.cons (hcs.trans (hts.trans (helse.cons hus)))
    obtain ⟨rfl, rfl⟩ := spanFrom_ok hall h
    exact ⟨ending, _, hall, .ifElse hkeyword hcondition hthenBody hu helseBody, hcut⟩
  · obtain ⟨ending, ts, hts, hthenBody, hcut⟩ := hread
    have hall := ht.cons (hcs.trans hts)
    obtain ⟨rfl, rfl⟩ := spanFrom_ok hall h
    exact ⟨ending, _, hall, .ifThen hkeyword hcondition hthenBody, hcut⟩

include hstmt in
theorem whileStmt_ok (hrule : Grammar.standard.statement c.current.kind = some .whileLoop) :
    StmtRead file c s c' := by
  have hkeyword : c.current.kind = .keyword .while_ := begins_of_rule hrule
  rw [stmt, peek_bind, hrule] at h
  obtain ⟨c₁, ht, h⟩ := next_ok hc (by rw [hkeyword]; decide) h
  obtain ⟨condition, c₂, hexpr, h⟩ := bind_ok h
  obtain ⟨cs, hcs, hcondition⟩ := expr_ok n ht.opened hexpr
  obtain ⟨body, c₃, hbody, h⟩ := bind_ok h
  obtain ⟨ending, ts, hts, hbody, hcut⟩ := hstmt hcs.opened hbody
  have hall := ht.cons (hcs.trans hts)
  obtain ⟨rfl, rfl⟩ := spanFrom_ok hall h
  exact ⟨ending, _, hall, .whileLoop hkeyword hcondition hbody, hcut⟩

include hstmt in
theorem doStmt_ok (hrule : Grammar.standard.statement c.current.kind = some .doWhile) :
    StmtRead file c s c' := by
  have hkeyword : c.current.kind = .keyword .do_ := begins_of_rule hrule
  rw [stmt, peek_bind, hrule] at h
  obtain ⟨c₁, ht, h⟩ := next_ok hc (by rw [hkeyword]; decide) h
  obtain ⟨body, c₂, hbody, h⟩ := bind_ok h
  have hread := hstmt ht.opened hbody
  obtain ⟨u, c₃, hu, hwhile, h⟩ := expectOr_ok hread.opened (by decide) h
  obtain ⟨ts, hts, hbody⟩ := hread.whole (by rw [hwhile.current, hu]; decide)
  obtain ⟨condition, c₄, hexpr, h⟩ := bind_ok h
  obtain ⟨cs, hcs, hcondition⟩ := expr_ok n hwhile.opened hexpr
  obtain ⟨semicolon, c₅, hsemicolon, hs, h⟩ := expectOr_ok hcs.opened (by decide) h
  have hall := ht.cons (hts.trans (hwhile.cons (hcs.trans hs)))
  obtain ⟨rfl, rfl⟩ := spanFrom_ok hall h
  exact .of_whole hall (.doWhile hkeyword hbody hu hcondition hsemicolon)

include hstmt in
theorem forStmt_ok (hrule : Grammar.standard.statement c.current.kind = some .forLoop) :
    StmtRead file c s c' := by
  have hkeyword : c.current.kind = .keyword .for_ := begins_of_rule hrule
  rw [stmt, peek_bind, hrule] at h
  obtain ⟨c₁, ht, h⟩ := next_ok hc (by rw [hkeyword]; decide) h
  obtain ⟨u, c₂, hu, hopen, h⟩ := expectOr_ok ht.opened (by decide) h
  obtain ⟨first, c₃, hforFirst, h⟩ := bind_ok h
  obtain ⟨fs, hfs, hfirst, hopens⟩ := forFirst_ok hopen.opened hforFirst
  obtain ⟨condition, c₄, hexpr, h⟩ := bind_ok h
  obtain ⟨cs, hcs, hcondition⟩ := expr_ok n hfs.opened hexpr
  obtain ⟨semicolon, c₅, hsemicolon, hs, h⟩ := expectOr_ok hcs.opened (by decide) h
  obtain ⟨increment, c₆, hexpr, h⟩ := bind_ok h
  obtain ⟨is, his, hincrement⟩ := expr_ok n hs.opened hexpr
  obtain ⟨v, c₇, hv, hclose, h⟩ := expectOr_ok his.opened (by decide) h
  obtain ⟨body, c₈, hbody, h⟩ := bind_ok h
  obtain ⟨ending, ts, hts, hbody, hcut⟩ := hstmt hclose.opened hbody
  have hall := ht.cons (hopen.cons (hfs.trans (hcs.trans (hs.cons (his.trans (hclose.cons hts))))))
  obtain ⟨rfl, rfl⟩ := spanFrom_ok hall h
  exact ⟨ending, _, hall,
    .forLoop hkeyword hu hfirst hopens hcondition hsemicolon hincrement hv hbody, hcut⟩

include hblock in
theorem blockStmt_ok (hrule : Grammar.standard.statement c.current.kind = some .block) :
    StmtRead file c s c' := by
  rw [stmt, peek_bind, hrule] at h
  obtain ⟨b, c₁, hb, h⟩ := bind_ok h
  obtain ⟨ts, hts, hbody⟩ := hblock hc hb
  obtain ⟨rfl, rfl⟩ := pure_ok h
  exact .of_whole hts (.block hbody)

include hblock in
theorem functionStmt_ok (hrule : Grammar.standard.statement c.current.kind = some .function) :
    StmtRead file c s c' := by
  have hkeyword : c.current.kind = .keyword .fn_ := begins_of_rule hrule
  rw [stmt, peek_bind, hrule] at h
  obtain ⟨c₁, ht, h⟩ := next_ok hc (by rw [hkeyword]; decide) h
  obtain ⟨name, c₂, hname, hn, h⟩ := expectOr_ok ht.opened (by decide) h
  obtain ⟨u, c₃, hu, hopen, h⟩ := expectOr_ok hn.opened (by decide) h
  rw [peek_bind] at h
  obtain ⟨ps, c₄, hparameters, h⟩ := choice_ok h
  have hps : ∃ params, Consumed file c₃ params c₄ ∧ Parameter.AllSpelt file ps params := by
    split at hparameters
    · obtain ⟨rfl, rfl⟩ := pure_ok hparameters
      exact ⟨[], .nil hopen.opened, .nil⟩
    · obtain ⟨params, hparams, hps, -⟩ := parameters_ok n hopen.opened hparameters
      exact ⟨params, hparams, hps⟩
  obtain ⟨params, hparams, hps⟩ := hps
  obtain ⟨v, c₅, hv, hclose, h⟩ := expectOr_ok hparams.opened (by decide) h
  obtain ⟨b, c₆, haccept, h⟩ := bind_ok h
  obtain ⟨returns?, c₇, htype, h⟩ := choice_ok h
  obtain ⟨types, htypes, hreturns⟩ := typeClause_ok hclose.opened haccept htype
  obtain ⟨body, c₈, hb, h⟩ := bind_ok h
  obtain ⟨ts, hts, hbody⟩ := hblock htypes.opened hb
  have hall := ht.cons (hn.cons (hopen.cons (hparams.trans (hclose.cons (htypes.trans hts)))))
  obtain ⟨rfl, rfl⟩ := spanFrom_ok hall h
  exact .of_whole hall (.function hkeyword hname hu hps hv hreturns hbody)

end Rules

mutual

theorem stmt_ok : ∀ (n : Nat) {c c' : Cursor} {s : Stmt}, c.Open file →
    stmt .standard n c = .ok s c' → StmtRead file c s c'
  | 0, _, _, _, _, h => absurd h stmt_zero_ne_ok
  | n + 1, c, c', s, hc, h => by
    cases hrule : Grammar.standard.statement c.current.kind with
    | none => exact exprStmt_ok hc h hrule
    | some rule =>
      cases rule with
      | declare => exact declareStmt_ok hc h hrule
      | ifElse => exact ifStmt_ok hc (stmt_ok n) h hrule
      | whileLoop => exact whileStmt_ok hc (stmt_ok n) h hrule
      | doWhile => exact doStmt_ok hc (stmt_ok n) h hrule
      | forLoop => exact forStmt_ok hc (stmt_ok n) h hrule
      | breakLoop => exact breakStmt_ok hc h hrule
      | continueLoop => exact continueStmt_ok hc h hrule
      | block => exact blockStmt_ok hc (block_ok n) h hrule
      | function => exact functionStmt_ok hc (block_ok n) h hrule
      | returns => exact returnStmt_ok hc h hrule

theorem block_ok : ∀ (n : Nat) {c c' : Cursor} {b : List Stmt × Span}, c.Open file →
    block .standard n c = .ok b c' → BlockRead file c b.1 b.2 c'
  | 0, _, _, _, _, h => absurd h stuck_ne_ok
  | n + 1, c, c', b, hc, h => by
    rw [block] at h
    obtain ⟨t, c₁, ht, hopen, h⟩ := expectOr_ok hc (by decide) h
    obtain ⟨body, c₂, hbody, h⟩ := bind_ok h
    obtain ⟨ts, hts, hbody, -⟩ := blockBody_ok n hopen.opened hbody
    obtain ⟨u, c₃, hu, hclose, h⟩ := expectOr_ok hts.opened (by decide) h
    have hall := hopen.cons (hts.trans hclose)
    obtain ⟨rfl, rfl⟩ := spanFrom_ok hall h
    exact ⟨_, hall, .mk ht hbody hu⟩

theorem blockBody_ok : ∀ (n : Nat) {c c' : Cursor} {body : List Stmt}, c.Open file →
    blockBody .standard n c = .ok body c' →
    ∃ ts, Consumed file c ts c' ∧ Stmt.AllSpelt file .whole body ts ∧ c.current.kind ≠ .eof
  | 0, _, _, _, _, h => absurd h stuck_ne_ok
  | n + 1, c, c', body, hc, h => by
    rw [blockBody, peek_bind] at h
    split at h
    · next hkind =>
      obtain ⟨rfl, rfl⟩ := pure_ok h
      exact ⟨[], .nil hc, .nil, by rw [hkind]; decide⟩
    split at h
    · cases h
    · next hkind =>
      obtain ⟨s, c₁, hs, h⟩ := bind_ok h
      have hread := stmt_ok n hc hs
      obtain ⟨ss, c₂, hss, h⟩ := bind_ok h
      obtain ⟨us, hus, hss, hmore⟩ := blockBody_ok n hread.opened hss
      obtain ⟨ts, hts, hs⟩ := hread.whole hmore
      obtain ⟨rfl, rfl⟩ := pure_ok h
      exact ⟨_, hts.trans hus, .cons hs hss, hkind⟩

end

/-! ## Scripts -/

/-- A script is read up to the end-of-file token, and nothing is read where it stands. -/
theorem script_ok : ∀ (n : Nat) {c c' : Cursor} {body : List Stmt}, c.Open file →
    script .standard n c = .ok body c' →
    ∃ ending ts, Consumed file c ts c' ∧ Stmt.AllSpelt file ending body ts ∧
      c'.current.kind = .eof ∧ (c.current.kind = .eof → body = [] ∧ c = c')
  | 0, _, _, _, _, h => absurd h stuck_ne_ok
  | n + 1, c, c', body, hc, h => by
    replace h : (if c.hasTokens = true then do
      let s ← stmt .standard n
      return s :: (← script .standard n)
      else return [] : Reading (List Stmt)) c = .ok body c' := h
    split at h
    · next hkind =>
      have hkind : c.current.kind ≠ .eof := of_decide_eq_true hkind
      obtain ⟨s, c₁, hs, h⟩ := bind_ok h
      obtain ⟨ending, ts, hts, hs, hcut⟩ := stmt_ok n hc hs
      obtain ⟨ss, c₂, hss, h⟩ := bind_ok h
      obtain ⟨ending', us, hus, hss, heof, hend⟩ := script_ok n hts.opened hss
      obtain ⟨rfl, rfl⟩ := pure_ok h
      cases ending with
      | whole => exact ⟨ending', _, hts.trans hus, .cons hs hss, heof, fun hc => absurd hc hkind⟩
      | cut =>
        obtain ⟨rfl, rfl⟩ := hend (hcut rfl)
        exact ⟨.cut, ts, hts, .cut hs, heof, fun hc => absurd hc hkind⟩
    · next hkind =>
      have hkind : c.current.kind = .eof := by simpa [Cursor.hasTokens] using hkind
      obtain ⟨rfl, rfl⟩ := pure_ok h
      exact ⟨.whole, [], .nil hc, .nil, hkind, fun _ => ⟨rfl, rfl⟩⟩

end Reading

/-- The tokens of a script that was read, up to the end-of-file token, spell its statements one after
the other: every token belongs to the tree or is a parenthesis around an expression, and the tree lacks
none, except perhaps the semicolon of an expression at the very end. -/
theorem tokens_spell_script {tokens : List Token} {file : String} {script : Script}
    (hended : Ended tokens) (h : parse tokens file = .ok script) :
    ∃ (ending : Ending) (ts : List Token) (eof : Token), tokens = ts ++ [eof] ∧ eof.kind = .eof ∧
      Stmt.AllSpelt file ending script.body ts ∧ script.span = ⟨file, 0, eof.span.start⟩ := by
  unfold parse at h
  split at h
  · next body c hscript =>
    obtain rfl := Except.ok.inj h
    have hopen : (Cursor.ofTokens file tokens).Open file := ⟨rfl, hended⟩
    obtain ⟨ending, ts, hts, hbody, heof, -⟩ := Reading.script_ok _ hopen hscript
    obtain ⟨eof, rest, hrest⟩ := hts.opened.ended.exists_cons
    have hcurrent := Cursor.current_of_rest hrest
    rw [hcurrent] at heof
    have hnil : rest = [] := (hrest ▸ hts.opened.ended).eq_nil heof
    subst hnil
    refine ⟨ending, ts, eof, ?_, heof, hbody, ?_⟩
    · rw [← hrest]
      exact hts.rest
    · rw [← hcurrent]
      rfl
  · cases h

/-- The script `if x y = (f)(z)`: the callee stands in parentheses, and the semicolon is missing. -/
theorem cut_assignment_is_spelt :
    let equals : Token := ⟨.punct .assignment, "=", "shell", 7, 8⟩
    let tokens : List Token :=
      [⟨.keyword .if_, "if", "shell", 0, 2⟩, ⟨.identifier, "x", "shell", 3, 4⟩,
        ⟨.identifier, "y", "shell", 5, 6⟩, equals, ⟨.punct .openParen, "(", "shell", 9, 10⟩,
        ⟨.identifier, "f", "shell", 10, 11⟩, ⟨.punct .closeParen, ")", "shell", 11, 12⟩,
        ⟨.punct .openParen, "(", "shell", 12, 13⟩, ⟨.identifier, "z", "shell", 13, 14⟩,
        ⟨.punct .closeParen, ")", "shell", 14, 15⟩, .eof "shell" 15]
    let value : Expr := .call ⟨"f", "shell", 10, 11⟩ [.name ⟨"z", "shell", 13, 14⟩] ⟨"shell", 10, 15⟩
    let body : List Stmt :=
      [.ifThen (.name ⟨"x", "shell", 3, 4⟩)
        (.expr (.assign ⟨"y", "shell", 5, 6⟩ equals value ⟨"shell", 5, 15⟩)) ⟨"shell", 0, 15⟩]
    parse tokens "shell" = .ok ⟨body, "shell", 0, 15⟩ ∧
      ∃ (ending : Ending) (ts : List Token) (eof : Token), tokens = ts ++ [eof] ∧ eof.kind = .eof ∧
        Stmt.AllSpelt "shell" ending body ts ∧
        Span.mk "shell" 0 15 = ⟨"shell", 0, eof.span.start⟩ := by
  intro equals tokens value body
  have hparse : parse tokens "shell" = .ok ⟨body, "shell", 0, 15⟩ := rfl
  have hended : Ended tokens := by
    repeat refine .cons (by decide) ?_
    exact .eof rfl
  exact ⟨hparse, tokens_spell_script hended hparse⟩

end Scripting.Surface
