import Scripting.Proofs.Graph.Liveness
import Scripting.Proofs.Lowering.Checked

/-!
# Bodies without a result

The body of a function without a result is lowered to code that returns at its end, unless its last
instruction is a return or a jump already. Looking at that instruction is enough, whatever stands before
it: control only gets to the end of the code from there (`Code.not_live_nil`).
-/

namespace Scripting

namespace Typed

/-- Control does not come to the end of code whose last instruction keeps it from there. -/
theorem Code.not_live_nil {code : Code} (h : code.fallsThrough = false) : ¬ code.Live [] := by
  intro hlive
  rcases hlive.entered with rfl | ⟨q, hq, hpass⟩
  · cases h
  · cases hpass with
    | @next i _ hcontinues =>
      obtain ⟨front, rfl⟩ := hq.suffix
      unfold Code.fallsThrough at h
      rw [List.getLast?_concat] at h
      cases i with
      | jump | ret => cases hcontinues
      | _ => cases h

/-- All paths through code return if its last instruction is a return or a jump. -/
theorem Code.allPathsReturn_of_fallsThrough {code : Code} (hclosed : code.Closed)
    (h : code.fallsThrough = false) : code.allPathsReturn = true := by
  obtain ⟨u, hw, hu⟩ := FlowGraph.exists_wired hclosed
  unfold Code.allPathsReturn
  rw [FlowGraph.ofCode_eq hw]
  exact (hu.allPathsReturn_prune_iff hclosed).2 (Code.not_live_nil h)

/-- Where all paths return, a run that comes to its end returns. -/
theorem Code.returned_of_run {σ : Type} {code : Code} (hclosed : code.Closed)
    (hpaths : code.allPathsReturn = true) {w : Setting σ} {call : Calls σ} {fuel : Nat} {m m' : Machine σ}
    {flow : Flow} (h : code.run w call fuel m = .ok flow m') : ∃ v?, flow = .returned v? := by
  cases flow with
  | normal => exact absurd h (code.not_normal_of_allPathsReturn hclosed hpaths w call fuel m m')
  | jump l => exact absurd h (hclosed.run_ne_jump w call fuel m m' l)
  | returned v? => exact ⟨v?, rfl⟩

theorem Stmt.lowerBody_void (s : Stmt) :
    s.lowerBody .void = s.lower ∧ s.lower.fallsThrough = false ∨
      s.lowerBody .void = s.lower ++ [.ret none] ∧ s.lower.fallsThrough = true := by
  unfold Stmt.lowerBody
  cases hfalls : s.lower.fallsThrough with
  | false => exact .inl ⟨if_neg fun h => Bool.noConfusion h.2, rfl⟩
  | true => exact .inr ⟨if_pos ⟨rfl, rfl⟩, rfl⟩

theorem Stmt.fallsThrough_lowerBody_void (s : Stmt) : (s.lowerBody .void).fallsThrough = false := by
  rcases s.lowerBody_void with ⟨heq, hfalls⟩ | ⟨heq, -⟩
  · rw [heq, hfalls]
  · rw [heq]
    unfold Code.fallsThrough
    rw [List.getLast?_concat]

/-- What holds of a body in a function without a result: all paths through its code return, and so does
every run of it that comes to an end; the code is that of the statements, with a return behind it or
not. -/
structure Stmt.ReturnsNothing (s : Stmt) : Prop where
  paths : (s.lowerBody .void).allPathsReturn = true
  runs : ∀ {σ : Type} (w : Setting σ) (call : Calls σ) (fuel : Nat) (m m' : Machine σ) (flow : Flow),
    (s.lowerBody .void).run w call fuel m = .ok flow m' → ∃ v?, flow = .returned v?
  code : s.lowerBody .void = s.lower ∨ s.lowerBody .void = s.lower ++ [.ret none]

/-- Statements whose jumps stay inside them are such a body. -/
theorem Stmt.Scoped.returnsNothing {P : Instr → Prop} {s : Stmt} (h : s.Scoped P []) :
    s.ReturnsNothing := by
  have hclosed := h.closed_lowerBody .void
  have hpaths := Code.allPathsReturn_of_fallsThrough hclosed s.fallsThrough_lowerBody_void
  exact ⟨hpaths, fun w call fuel m m' flow => Code.returned_of_run hclosed hpaths,
    s.lowerBody_void.imp And.left And.left⟩

end Typed

/-- **Functions without a result always return.** Whatever a body says and whatever is reported about it,
checked outside of any loop or as the global code of a script: all paths through its code return, and no
run falls off its end. The code is at most one return longer than that of its statements. -/
theorem bodies_without_result_return (ss : List Surface.Stmt) :
    (∀ c : Checker, c.loops = [] → (Checking.block ss c).1.ReturnsNothing) ∧
      ∀ (options : Options) (symbols : SymbolTable) (parent : Scope),
        (Typed.Stmt.block (checkGlobals options symbols parent ss).1.statements).ReturnsNothing := by
  constructor
  · intro c hloops
    obtain ⟨n, hshape⟩ := Checking.shaped_block ss c
    have htargets : c.targets = [] := by
      unfold Checker.targets
      rw [hloops]
      rfl
    rw [htargets] at hshape
    exact hshape.jumps.returnsNothing
  · intro options symbols parent
    obtain ⟨n, hshape⟩ := Checking.shaped_globals options symbols parent ss
    exact hshape.jumps.returnsNothing

/-- A return under a condition that names nothing, a jump outside of loops, and a loop that is never left. -/
def strayReturn : List Surface.Stmt :=
  [.ifThen (.name ⟨"nothing", .nowhere⟩) (.returns none .nowhere) .nowhere, .breakLoop .nowhere,
    .whileLoop (.boolean true .nowhere) (.block [] .nowhere) .nowhere]

theorem strayReturn_returns :
    (Checker.start .initial .standard .empty none).loops = [] ∧
      (Checking.block strayReturn (.start .initial .standard .empty none)).1.ReturnsNothing :=
  ⟨rfl, (bodies_without_result_return strayReturn).1 _ rfl⟩

end Scripting
