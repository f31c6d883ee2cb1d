import Scripting.Proofs.Submission.Lineage
import Scripting.Run.Recording

/-!
# Sessions

A session compiles scripts, each on its own or on top of an earlier one, and runs those about which
nothing was reported, in any order and as often as it likes. All submissions share one table of symbols
and one store of variables. No such run ends in a fault, and the store keeps to the types of its
variables.
-/

namespace Scripting

def Lineage.Clean (l : Lineage) : Prop := ∀ s ∈ l, s.diagnostics = []

/-- The symbols and variables of a session, and each of its submissions with those it builds on. -/
structure Session where
  symbols : SymbolTable
  lineages : List Lineage
  globals : Store

namespace Session

def start : Session := ⟨.initial, [], .empty⟩

def submit (S : Session) (base : Lineage) (options : Options) (source file : String) : Session :=
  let compiled := compile options S.symbols base source file
  ⟨compiled.2, (compiled.1 :: base) :: S.lineages, S.globals⟩

/-- Runs a submission on the variables of the session. -/
def outcome {σ : Type} (S : Session) (s : Submission) (earlier : Lineage) (host : Host σ) (state : σ)
    (fuel : Nat) : Outcome σ :=
  s.evaluate host S.symbols earlier .flat fuel S.globals state

/-- A session goes on by compiling a script, or by running a submission about which, and about those
it builds on, nothing was reported. -/
inductive Step (S : Session) : Session → Prop
  | submit (base : Lineage) (hbase : base = [] ∨ base ∈ S.lineages) (options : Options)
    (source file : String) : Step S (S.submit base options source file)
  | run {s : Submission} {earlier : Lineage} (hmem : s :: earlier ∈ S.lineages)
    (hclean : Lineage.Clean (s :: earlier)) {σ : Type} (host : Host σ) (state : σ) (fuel : Nat) :
    Step S { S with globals := (S.outcome s earlier host state fuel).globals }

/-- The session can come about. -/
def Reachable (S : Session) : Prop := Relation.ReflTransGen Step start S

theorem Step.extends {S S' : Session} (h : S.Step S') : S.symbols.Extends S'.symbols := by
  cases h with
  | submit base _ options source file => exact extends_compile options S.symbols base source file
  | run => exact .refl _

theorem extends_later {S S' : Session} (h : Relation.ReflTransGen Step S S') :
    S.symbols.Extends S'.symbols := by
  induction h with
  | refl => exact .refl _
  | tail _ hstep ih => exact ih.trans hstep.extends

/-- Lineages without diagnostics are sound, and the variables hold values of their types. -/
structure Sound (S : Session) : Prop where
  host : S.symbols.HostSound
  lineages : ∀ l ∈ S.lineages, l.Clean → l.Sound S.symbols
  globals : S.globals.FitsGlobals S.symbols

theorem sound_start : start.Sound :=
  ⟨SymbolTable.hostSound_initial, nofun, fun _ _ hv => nomatch hv⟩

theorem Sound.submit {S : Session} (h : S.Sound) {base : Lineage}
    (hbase : base = [] ∨ base ∈ S.lineages) (options : Options) (source file : String) :
    (S.submit base options source file).Sound := by
  have hext : S.symbols.Extends (compile options S.symbols base source file).2 :=
    extends_compile options S.symbols base source file
  refine ⟨h.host.mono hext, List.forall_mem_cons.2 ⟨fun hclean => ?_, fun l hl hclean => ?_⟩, ?_⟩
  · obtain ⟨hs, hearlier⟩ := List.forall_mem_cons.1 hclean
    have hsound : base.Sound S.symbols := by
      rcases hbase with rfl | hbase
      · exact nofun
      · exact h.lineages base hbase hearlier
    exact hsound.compile h.host hs
  · exact (h.lineages l hl hclean).mono hext
  · exact h.globals.mono hext

/-- Running a submission of a sound session stops in allowed ways only, and leaves values of the right
types. -/
theorem Sound.outcome {S : Session} (h : S.Sound) {s : Submission} {earlier : Lineage}
    (hmem : s :: earlier ∈ S.lineages) (hclean : Lineage.Clean (s :: earlier)) {σ : Type}
    (host : Host σ) (state : σ) (fuel : Nat) :
    (∀ e, (S.outcome s earlier host state fuel).result = .error e → e.Allowed) ∧
      (S.outcome s earlier host state fuel).globals.FitsGlobals S.symbols := by
  exact (h.lineages _ hmem hclean).safe_evaluate host state fuel h.globals

theorem Sound.step {S S' : Session} (h : S.Sound) (hstep : S.Step S') : S'.Sound := by
  cases hstep with
  | submit base hbase options source file => exact h.submit hbase options source file
  | run hmem hclean host state fuel =>
    exact ⟨h.host, h.lineages, (h.outcome hmem hclean host state fuel).2⟩

theorem Reachable.sound {S : Session} (h : S.Reachable) : S.Sound := by
  induction h with
  | refl => exact sound_start
  | tail _ hstep ih => exact ih.step hstep

end Session

/-- **Clean submissions run without faults**, whatever the session did before, whatever the host does
and however long the run takes: it has a value, runs out of fuel, or stops at an error of the script,
which is never an unassigned parameter. Afterwards the variables of the session are global ones, each
with a value of its type. -/
theorem clean_submissions_run_safely {S : Session} (hS : S.Reachable) {s : Submission}
    {earlier : Lineage} (hmem : s :: earlier ∈ S.lineages) (hclean : Lineage.Clean (s :: earlier))
    {σ : Type} (host : Host σ) (state : σ) (fuel : Nat) :
    (∀ e, (S.outcome s earlier host state fuel).result = .error e → e.Allowed) ∧
      (S.outcome s earlier host state fuel).globals.FitsGlobals S.symbols :=
  hS.sound.outcome hmem hclean host state fuel

namespace Session

/-- Declares a function and a variable. -/
def halving : Submission × SymbolTable :=
  compile .standard .initial []
    "fn half(n: int) -> int \x7b return n / 2; \x7d var total = half(20);" "halving"

def halved : Session := ⟨halving.2, [[halving.1]], .empty⟩

/-- Divides the variable by what is typed in, which may fail. -/
def sharing : Submission × SymbolTable :=
  compile .standard halved.symbols [halving.1] "total = total / int(input());" "sharing"

/-- The session with both submissions, after the first one ran. -/
def shared : Session :=
  let S : Session := ⟨sharing.2, [[sharing.1, halving.1], [halving.1]], .empty⟩
  { S with globals := (S.outcome halving.1 [] Recording.host (.ofAnswers [] []) 100).globals }

theorem clean_halving : Lineage.Clean [halving.1] :=
  List.forall_mem_singleton.2 (List.isEmpty_iff.1 (by decide +kernel))

theorem clean_sharing : Lineage.Clean [sharing.1, halving.1] :=
  List.forall_mem_cons.2 ⟨List.isEmpty_iff.1 (by decide +kernel), clean_halving⟩

theorem reachable_shared : shared.Reachable := by
  have hfirst : Step start halved := .submit [] (.inl rfl) .standard _ _
  have hsecond : Step halved ⟨sharing.2, [[sharing.1, halving.1], [halving.1]], .empty⟩ :=
    .submit [halving.1] (.inr List.mem_cons_self) .standard _ _
  refine ((Relation.ReflTransGen.single hfirst).tail hsecond).tail ?_
  exact .run (List.mem_cons_of_mem _ List.mem_cons_self) clean_halving Recording.host _ 100

end Session

/-- The division runs safely, whatever is typed in. -/
theorem sharing_runs_safely :
    (Session.shared.Reachable ∧
        [Session.sharing.1, Session.halving.1] ∈ Session.shared.lineages ∧
        Lineage.Clean [Session.sharing.1, Session.halving.1]) ∧
      ∀ (answers : List String) (fuel : Nat),
        (∀ e, (Session.shared.outcome Session.sharing.1 [Session.halving.1] Recording.host
            (.ofAnswers answers []) fuel).result = .error e → e.Allowed) ∧
          (Session.shared.outcome Session.sharing.1 [Session.halving.1] Recording.host
            (.ofAnswers answers []) fuel).globals.FitsGlobals Session.shared.symbols :=
  ⟨⟨Session.reachable_shared, List.mem_cons_self, Session.clean_sharing⟩, fun _ fuel =>
    clean_submissions_run_safely Session.reachable_shared List.mem_cons_self Session.clean_sharing _ _
      fuel⟩

end Scripting
