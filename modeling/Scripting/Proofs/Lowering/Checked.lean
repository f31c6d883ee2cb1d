import Scripting.Proofs.Check.Signatures
import Scripting.Proofs.Lowering.Behaviour
import Scripting.Submission.Run

/-!
# The code of a script behaves like the script

Checking gives statements of the shape that lowering relies on, whatever it reports. So the code of a
submission, and that of each of its functions, does what the statements do: to the variables, to the
host, call by call (`Host.logged`), and in how it ends.
-/

namespace Scripting

/-- A call to the host, with its answer. -/
inductive HostCall
  | print (text : String)
  | input (answer : String)
  | random (max answer : Int32)
deriving DecidableEq, Repr

/-- The host, keeping a log of the calls made to it. -/
def Host.logged {σ : Type} (h : Host σ) : Host (List HostCall × σ) where
  print s log := (log.1 ++ [.print s], h.print s log.2)
  input log := ((h.input log.2).1, log.1 ++ [.input (h.input log.2).1], (h.input log.2).2)
  random max log :=
    ((h.random max log.2).1, log.1 ++ [.random max (h.random max log.2).1], (h.random max log.2).2)

def Setting.logged {σ : Type} (w : Setting σ) : Setting (List HostCall × σ) :=
  ⟨w.symbols, w.host.logged, w.body?⟩

/-- The two bodies behave alike, in any setting and from any machine, and on a host with a log they
leave the same log. -/
def Body.BehavesLike (R : Flow → Flow → Prop) (x y : Body) : Prop :=
  ∀ {σ : Type} (w : Setting σ) (globals : Store) (frames : List Store) (last? : Option Value) (host : σ)
    (calls : List HostCall),
    Run.SameBehaviour R (fun fuel => x.run w (Run.call w fuel) fuel)
        (fun fuel => y.run w (Run.call w fuel) fuel) ⟨globals, frames, last?, host⟩ ∧
      Run.SameBehaviour R (fun fuel => x.run w.logged (Run.call w.logged fuel) fuel)
        (fun fuel => y.run w.logged (Run.call w.logged fuel) fuel) ⟨globals, frames, last?, (calls, host)⟩

theorem Body.behavesLike_flat {R : Flow → Flow → Prop} {ss : List Typed.Stmt} {code : Typed.Code}
    (h : ∀ {σ : Type} (w : Setting σ) (m : Machine σ),
      Run.SameBehaviour R (fun fuel => (Typed.Stmt.block ss).run w (Run.call w fuel) fuel)
        (fun fuel => code.run w (Run.call w fuel) fuel) m) :
    (Body.structured ss).BehavesLike R (.flat code) := by
  have hblock : ∀ {σ : Type} (w : Setting σ) (fuel : Nat),
      (Body.structured ss).run w (Run.call w fuel) fuel =
        (Typed.Stmt.block ss).run w (Run.call w fuel) fuel := by
    intro σ w fuel
    rw [Typed.Stmt.run]
    rfl
  intro σ w globals frames last? host calls
  simp only [hblock]
  exact ⟨h w _, h w.logged _⟩

/-- Calls of functions whose bodies end with the flows have the same value. -/
def Flow.SameAnswer (a b : Flow) : Prop := ∃ v?, a.Answers v? ∧ b.Answers v?

namespace Checking

/-- No jump leaves the global code of a script, and its loops are numbered in turn. -/
theorem shaped_globals (options : Options) (symbols : SymbolTable) (parent : Scope)
    (ss : List Surface.Stmt) :
    ∃ n, Shaped [] 0 (.block (checkGlobals options symbols parent ss).1.statements) n := by
  have hyields : Yields ⟨symbols, fun _ => True⟩ none _ True _ _ _ :=
    yields_globals options symbols parent ss
  exact ⟨_, hyields.shape⟩

/-- Jumps out of a block go to loops around it, and its loops are numbered in turn. -/
theorem shaped_block (ss : List Surface.Stmt) (c : Checker) :
    ∃ n, Shaped c.targets c.loopCount (block ss c).1 n := by
  have hyields : Yields ⟨c.symbols, fun _ => True⟩ none c True (block ss) _ _ := yields_block ss c
  exact ⟨_, hyields.shape⟩

/-- No jump leaves the body of a function, and its loops are numbered in turn. -/
theorem shaped_body (options : Options) (symbols : SymbolTable) (parent : Scope) (f : FuncId)
    (ss : List Surface.Stmt) :
    ∃ n, Shaped [] 0 (block ss (.start symbols options parent (some f))).1 n :=
  shaped_block ss (.start symbols options parent (some f))

end Checking

/-- **The code of a submission behaves like its statements**, and the code of a function like the
statements in its body. -/
theorem code_behaves_like_statements (options : Options) (symbols : SymbolTable) :
    (∀ (earlier : Lineage) (syntaxErrors : List Diagnostic) (ss : List Surface.Stmt),
        let s := (Submission.ofScript options symbols earlier syntaxErrors ss).1
        (s.body .structured).BehavesLike Eq (s.body .flat)) ∧
      ∀ (parent : Scope) (f : FuncId) (returns : Ty) (d : Declaration),
        let statements :=
          (Checking.inLayer (Checking.stmts d.body) (.start symbols options parent (some f))).1
        (Body.structured statements).BehavesLike Flow.SameAnswer
          (.flat (checkBody options symbols parent f returns d).1) := by
  constructor
  · intro earlier syntaxErrors ss
    obtain ⟨n, hshape⟩ := Checking.shaped_globals options symbols (Lineage.scope symbols earlier) ss
    exact Body.behavesLike_flat fun w m => hshape.jumps.sameBehaviour_lower hshape.numbered m
  · intro parent f returns d
    obtain ⟨n, hshape⟩ := Checking.shaped_body options symbols parent f d.body
    exact Body.behavesLike_flat fun w m =>
      hshape.jumps.sameBehaviour_lowerBody hshape.numbered returns m

end Scripting
