import Scripting.Proofs.Submission.Running

/-!
# Rejected submissions

A submission about which something is reported leaves nothing behind but symbols that nothing refers to.
Whatever a session does afterwards, it does as if the submission had never been made, but for the handles
it gives out: the two sessions stay in step (`Session.Renumbered`), move by move.
-/

namespace Scripting

variable {σ : Type} {ρ : Renumbering}

/-! ## Sessions in step -/

/-- The sessions are the same but for the handles of symbols. -/
structure Session.Renumbered (ρ : Renumbering) (S S' : Session) : Prop where
  tables : ρ.Tables S.symbols S'.symbols
  coherent : S.symbols.Coherent
  lineages : List.Forall₂ (Lineage.Renumbered ρ S'.symbols) S.lineages S'.lineages
  globals : S.globals.Renumbered ρ S'.globals

theorem forall₂_getElem? {α β : Type} {P : α → β → Prop} {l : List α} {l' : List β}
    (h : List.Forall₂ P l l') (i : Nat) : Option.Rel P l[i]? l'[i]? := by
  induction h generalizing i with
  | nil => exact .none
  | cons hab _ ih =>
    cases i with
    | zero => exact .some hab
    | succ i => exact ih i

namespace Session.Renumbered

variable {S S' : Session}

theorem submit (h : S.Renumbered ρ S') {base base' : Lineage} (hbase : base.Renumbered ρ S'.symbols base')
    (options : Options) (source file : String) :
    (S.submit base options source file).Renumbered ρ (S'.submit base' options source file) ∧
      (compile options S'.symbols base' source file).1.diagnostics =
        (compile options S.symbols base source file).1.diagnostics := by
  obtain ⟨htables, hcoherent, hnew⟩ := h.tables.compile h.coherent hbase options source file
  have hext := extends_compile options S'.symbols base' source file
  have hbase₁ := hbase.imp fun _ _ hs => Submission.Renumbered.mono hs hext
  have hlineages := h.lineages.imp fun _ _ hl => hl.imp fun _ _ hs => Submission.Renumbered.mono hs hext
  exact ⟨⟨htables, hcoherent, .cons (.cons hnew hbase₁) hlineages, h.globals⟩, hnew.diagnostics_eq⟩

theorem outcome (h : S.Renumbered ρ S') (hρ : ρ.Faithful) {s s' : Submission} {earlier earlier' : Lineage}
    (hl : Lineage.Renumbered ρ S'.symbols (s :: earlier) (s' :: earlier')) (host : Host σ) (state : σ)
    (fuel : Nat) :
    (S'.outcome s' earlier' host state fuel).result = (S.outcome s earlier host state fuel).result ∧
      (S.outcome s earlier host state fuel).globals.Renumbered ρ
        (S'.outcome s' earlier' host state fuel).globals ∧
      (S'.outcome s' earlier' host state fuel).host = (S.outcome s earlier host state fuel).host := by
  have hs := (List.forall₂_cons.1 hl).1
  unfold Session.outcome Submission.evaluate
  rw [hs.diagnostics_eq]
  split
  · exact (hl.setting h.tables hρ host).evaluate hs.main fuel h.globals state
  · exact ⟨rfl, h.globals, rfl⟩

end Session.Renumbered

/-! ## Moves -/

/-- What is done with a session: a script is compiled, on its own or on top of the lineage at a place of
the list, or the newest submission of a lineage is run. -/
inductive Move
  | submit (place? : Option Nat) (options : Options) (source file : String)
  | run (place : Nat) (fuel : Nat)

/-- What can be seen of a move: what is reported about the script, or how the run ended. -/
inductive Reply
  | compiled (diagnostics : List Diagnostic)
  | ran (result : Except Halt (Option Value))
  | nothing

/-- Where a session and the host have got to, with what could be seen on the way. -/
structure Play (σ : Type) where
  replies : List Reply
  session : Session
  host : σ

namespace Session

/-- Runs the newest submission of a lineage, if there is one. -/
def runNewest (host : Host σ) (S : Session) (state : σ) (fuel : Nat) : Option Lineage → Play σ
  | some (s :: earlier) =>
    let outcome := S.outcome s earlier host state fuel
    ⟨[.ran outcome.result], { S with globals := outcome.globals }, outcome.host⟩
  | _ => ⟨[.nothing], S, state⟩

def play (host : Host σ) (S : Session) (state : σ) : Move → Play σ
  | .submit place? options source file =>
    let base := (place?.bind (S.lineages[·]?)).getD []
    ⟨[.compiled (compile options S.symbols base source file).1.diagnostics],
      S.submit base options source file, state⟩
  | .run place fuel => S.runNewest host state fuel S.lineages[place]?

def plays (host : Host σ) (S : Session) (state : σ) : List Move → Play σ
  | [] => ⟨[], S, state⟩
  | move :: moves =>
    let first := S.play host state move
    let later := first.session.plays host first.host moves
    { later with replies := first.replies ++ later.replies }

end Session

/-- The same could be seen, and the sessions are the same but for handles. -/
structure Play.Renumbered (ρ : Renumbering) (p p' : Play σ) : Prop where
  replies : p'.replies = p.replies
  session : p.session.Renumbered ρ p'.session
  host : p'.host = p.host

namespace Session.Renumbered

variable {S S' : Session}

theorem runNewest (h : S.Renumbered ρ S') (hρ : ρ.Faithful) (host : Host σ) (state : σ) (fuel : Nat)
    {l? l?' : Option Lineage} (hl : Option.Rel (Lineage.Renumbered ρ S'.symbols) l? l?') :
    (S.runNewest host state fuel l?).Renumbered ρ (S'.runNewest host state fuel l?') := by
  cases hl with
  | none => exact ⟨rfl, h, rfl⟩
  | some hl =>
    cases hl with
    | nil => exact ⟨rfl, h, rfl⟩
    | cons hs hearlier =>
      obtain ⟨hresult, hglobals, hhost⟩ := h.outcome hρ (.cons hs hearlier) host state fuel
      exact ⟨congrArg (fun r => [Reply.ran r]) hresult, { h with globals := hglobals }, hhost⟩

theorem play (h : S.Renumbered ρ S') (hρ : ρ.Faithful) (host : Host σ) (state : σ) (move : Move) :
    (S.play host state move).Renumbered ρ (S'.play host state move) := by
  cases move with
  | submit place? options source file =>
    have hbase : Lineage.Renumbered ρ S'.symbols ((place?.bind (S.lineages[·]?)).getD [])
        ((place?.bind (S'.lineages[·]?)).getD []) := by
      cases place? with
      | none => exact .nil
      | some place =>
        rw [Option.bind_some, Option.bind_some]
        generalize S.lineages[place]? = l?, S'.lineages[place]? = l?', forall₂_getElem? h.lineages place = hl
        cases hl with
        | none => exact .nil
        | some hl => exact hl
    obtain ⟨hsession, hdiagnostics⟩ := h.submit hbase options source file
    exact ⟨congrArg (fun d => [Reply.compiled d]) hdiagnostics, hsession, rfl⟩
  | run place fuel => exact h.runNewest hρ host state fuel (forall₂_getElem? h.lineages place)

theorem plays (h : S.Renumbered ρ S') (hρ : ρ.Faithful) (host : Host σ) (state : σ) (moves : List Move) :
    (S.plays host state moves).Renumbered ρ (S'.plays host state moves) := by
  induction moves generalizing S S' state with
  | nil => exact ⟨rfl, h, rfl⟩
  | cons move moves ih =>
    have hfirst := h.play hρ host state move
    have hlater := ih hfirst.session (S.play host state move).host
    unfold Session.plays
    dsimp only
    rw [hfirst.host]
    refine ⟨?_, hlater.session, hlater.host⟩
    dsimp only
    rw [hfirst.replies, hlater.replies]

end Session.Renumbered

/-! ## Symbols that nothing refers to -/

theorem Renumbering.faithful_past (t t' : SymbolTable) : (Renumbering.past t t').Faithful where
  increasing _ _ hlt := makeRoom_strictMono _ _ hlt
  injective f g heq := by
    have hindex : f.index = g.index := (makeRoom_strictMono _ _).injective (congrArg FuncId.index heq)
    cases f
    cases g
    exact congrArg FuncId.mk hindex

theorem Store.FitsGlobals.renumbered {t : SymbolTable} {s : Store} (h : s.FitsGlobals t)
    (t' : SymbolTable) : s.Renumbered (.past t t') s := by
  refine (List.map_id' _).symm.trans (List.map_congr_left fun e he => ?_)
  cases hget : s.get? e.1 with
  | none =>
    have hne : (e.1 != e.1) = true := List.lookup_eq_none_iff.1 hget e he
    simp at hne
  | some v =>
    obtain ⟨y, hy, -⟩ := h e.1 v hget
    rw [Renumbering.past_vars_of_found hy]

theorem Session.Reachable.renumbered {S : Session} (h : S.Reachable) {t : SymbolTable}
    (hext : S.symbols.Extends t) : S.Renumbered (.past S.symbols t) { S with symbols := t } where
  tables := Renumbering.tables_past hext h.resolved.coherent
  coherent := h.resolved.coherent
  lineages := List.forall₂_same.2 fun l hl =>
    List.forall₂_same.2 fun s hs => Submission.Resolved.past (h.resolved.lineages l hl s hs) hext
  globals := h.sound.globals.renumbered t

/-- **A rejected submission is invisible.** To evaluate a submission about which something is reported
changes neither the variables nor the host. Once it is given up, whatever is compiled and run afterwards,
what is reported, the results, and what the host is asked and told are the same as if the submission had
never been made. The session holds the same values, submissions and symbols too, but for a renumbering of
the symbols that came later. -/
theorem rejected_submission_is_invisible {S : Session} (hS : S.Reachable) (base : Lineage)
    (options : Options) (source file : String)
    (hrejected : (compile options S.symbols base source file).1.diagnostics ≠ []) :
    let rejected := compile options S.symbols base source file
    let S' : Session := { S.submit base options source file with lineages := S.lineages }
    (∀ {σ : Type} (host : Host σ) (form : Form) (fuel : Nat) (globals : Store) (state : σ),
        rejected.1.evaluate host rejected.2 base form fuel globals state = ⟨.ok none, globals, state⟩) ∧
      ∃ ρ : Renumbering, ρ.Faithful ∧ (∀ x v, S.symbols.variableAt? x = some v → ρ.vars x = x) ∧
        (∀ f a, S.symbols.functionAt? f = some a → ρ.funcs f = f) ∧
        ∀ {σ : Type} (host : Host σ) (state : σ) (moves : List Move),
          (S.plays host state moves).Renumbered ρ (S'.plays host state moves) := by
  constructor
  · intro σ host form fuel globals state
    unfold Submission.evaluate
    rw [if_neg fun hempty => hrejected (List.isEmpty_iff.1 hempty)]
  · have hext := extends_compile options S.symbols base source file
    have hfaithful := Renumbering.faithful_past S.symbols (compile options S.symbols base source file).2
    refine ⟨_, hfaithful, fun x v hx => Renumbering.past_vars_of_found hx,
      fun f a hf => Renumbering.past_funcs_of_found hf, fun host state moves => ?_⟩
    exact (hS.renumbered hext).plays hfaithful host state moves

namespace Session

/-- Declares a variable, but misspells the one it is made from. -/
def misspelt : Submission × SymbolTable :=
  compile .standard shared.symbols [sharing.1, halving.1] "var share = totl / 2;" "misspelt"

theorem rejected_misspelt : misspelt.1.diagnostics ≠ [] := by
  intro hnil
  have hempty : misspelt.1.diagnostics.isEmpty = false := by decide +kernel
  rw [hnil] at hempty
  cases hempty

/-- The declaration as it was meant, and a run of it. -/
def retry : List Move :=
  [.submit (some 0) .standard "var share = total / 2; print(string(share));" "retry", .run 0 100]

end Session

/-- The misspelt declaration does not matter to the one that is made after it. -/
theorem misspelt_is_invisible :
    let S' : Session := { Session.shared with symbols := Session.misspelt.2 }
    (Session.shared.Reachable ∧ Session.misspelt.1.diagnostics ≠ []) ∧
      (∀ state : Recording, Session.misspelt.1.evaluate Recording.host Session.misspelt.2
          [Session.sharing.1, Session.halving.1] .flat 100 Session.shared.globals state =
        ⟨.ok none, Session.shared.globals, state⟩) ∧
      ∃ ρ : Renumbering, ∀ state : Recording,
        (Session.shared.plays Recording.host state Session.retry).Renumbered ρ
          (S'.plays Recording.host state Session.retry) := by
  obtain ⟨hevaluate, ρ, -, -, -, hplays⟩ := rejected_submission_is_invisible Session.reachable_shared
    [Session.sharing.1, Session.halving.1] .standard "var share = totl / 2;" "misspelt"
    Session.rejected_misspelt
  refine ⟨⟨Session.reachable_shared, Session.rejected_misspelt⟩, fun state => hevaluate _ _ _ _ state, ρ, ?_⟩
  exact fun state => hplays Recording.host state Session.retry

end Scripting
