import Scripting.Proofs.Check.Sites
import Scripting.Proofs.Surface.Progress
import Scripting.Proofs.Surface.Layout
import Scripting.Proofs.Token.Account

/-!
# Spans, from script to diagnostics

Reading a script gives a tree whose spans lie in the script and are nested as its nodes are, or an error
at a place in the script. What is reported about the script is therefore at a place in it, and one of its
lines can be shown for it (`spans_are_well_formed`).
-/

namespace Scripting

open Surface (Node)

variable {source file : String}

/-- The tokens of a script lie in it one behind the other, up to the end-of-file token. -/
theorem Token.placed_of_tokenize {ts : List Token} (hsize : Text.byteLength source.toList < offsetBound)
    (h : tokenize source file = .ok ts) : Placed source.toList ts := by
  obtain ⟨us, hcut, -⟩ := exists_cut_of_tokenize h
  obtain rfl := Except.ok.inj (h.symm.trans (hcut.reads.exact hsize))
  have haccounts := hcut.reads.accounts
  have hend : Text.Boundary source.toList (Text.byteLength source.toList) := ⟨_, [], (List.append_nil _).symm, rfl⟩
  constructor
  · exact List.forall_mem_append.2 ⟨haccounts.within,
      List.forall_mem_singleton.2 (Span.within_of_boundary hend hend (Nat.le_refl _))⟩
  · refine List.pairwise_append.2 ⟨haccounts.apart, List.pairwise_singleton _ _, fun t ht u hu => ?_⟩
    rw [List.mem_singleton.1 hu]
    exact (haccounts.bounded t ht).2.2

namespace Surface.Script

theorem nested_of_ofSource {script : Script} (hsize : Text.byteLength source.toList < offsetBound)
    (h : ofSource source file = .ok script) :
    ∀ n, (Node.script script).Contains n → n.Nested source.toList := by
  unfold ofSource at h
  cases htokens : Token.tokenize source file with
  | error e => rw [htokens] at h; cases h
  | ok ts =>
    rw [htokens] at h
    exact nested_of_parse (Token.ended_of_tokenize htokens) (Token.placed_of_tokenize hsize htokens) h

theorem boundary_of_ofSource {e : SyntaxError} (hsize : Text.byteLength source.toList < offsetBound)
    (h : ofSource source file = .error e) : Text.Boundary source.toList e.position.offset := by
  unfold ofSource at h
  cases htokens : Token.tokenize source file with
  | error e' =>
    rw [htokens] at h
    cases h
    obtain ⟨front, back, us, htext, -, -, hposition⟩ := Token.exists_cut_of_error htokens
    rw [htext, Text.byteLength_append] at hsize
    rw [hposition, Position.recorded_of_lt (Nat.lt_of_le_of_lt (Nat.le_add_right ..) hsize)]
    exact ⟨front, back, htext, rfl⟩
  | ok ts =>
    rw [htokens] at h
    obtain ⟨t, ht, hstart, -⟩ := starts_of_parse (Token.ended_of_tokenize htokens) h
    exact hstart ▸ ((Token.placed_of_tokenize hsize htokens).within t ht).start

end Surface.Script

/-- Whatever is reported about a script is at a place in it. -/
theorem within_of_mem_diagnostics {options : Options} {symbols : SymbolTable} {earlier : Lineage}
    {d : Diagnostic} (hsize : Text.byteLength source.toList < offsetBound)
    (hd : d ∈ (compile options symbols earlier source file).1.diagnostics) :
    d.span.Within source.toList := by
  unfold compile at hd
  cases hread : Surface.Script.ofSource source file with
  | ok script =>
    rw [hread] at hd
    have hnodes := Surface.Script.nested_of_ofSource hsize hread
    have hstatements : ∀ s ∈ script.body, (Node.stmt s).Everywhere (Span.Within source.toList) :=
      fun s hs n hn => (hnodes n (.head (List.mem_map_of_mem hs) hn)).within
    exact sited_ofScript options symbols earlier (List.forall_mem_nil _) hstatements d hd
  | error e =>
    rw [hread] at hd
    have hplace := Surface.Script.boundary_of_ofSource hsize hread
    have herror : e.toDiagnostic.span.Within source.toList :=
      Span.within_of_boundary hplace hplace (Nat.le_refl _)
    exact sited_ofScript options symbols earlier (List.forall_mem_singleton.2 herror)
      (List.forall_mem_nil _) d hd

/-- For every script that is short enough for its offsets: in the tree that reading it gives, the span of
every node lies in the script, cuts no character, and covers the names, operators, types and other nodes
that the node is made of, which follow one another without overlap. Every diagnostic, whether about the
syntax, the global code or the body of a function, has a span that lies in the script as well, and for each
offset in it there is a line of the script that holds it. -/
theorem spans_are_well_formed (source file : String)
    (hsize : Text.byteLength source.toList < offsetBound) :
    (∀ script, Surface.Script.ofSource source file = .ok script →
      ∀ n, (Node.script script).Contains n → n.Nested source.toList ∧ n.span.stop < offsetBound) ∧
    ∀ options symbols earlier, ∀ d ∈ (compile options symbols earlier source file).1.diagnostics,
      d.span.Within source.toList ∧ d.span.stop < offsetBound ∧
        ∀ offset, d.span.start ≤ offset → offset ≤ d.span.stop →
          ∃ line, Text.lineAt source offset = some line ∧ line.Holds source.toList offset := by
  constructor
  · intro script hscript n hn
    have hnested := Surface.Script.nested_of_ofSource hsize hscript n hn
    exact ⟨hnested, Nat.lt_of_le_of_lt hnested.within.bounded hsize⟩
  · intro options symbols earlier d hd
    have hwithin := within_of_mem_diagnostics hsize hd
    refine ⟨hwithin, Nat.lt_of_le_of_lt hwithin.bounded hsize, fun offset _ hstop => ?_⟩
    exact Text.exists_lineAt (Nat.le_trans hstop hwithin.bounded)

/-- A text with a character of two bytes, a parenthesised operand that is not declared, and on the next
line a function that does not return. -/
def accented : String := "\"é\" + (x);\nfn f() -> int \x7b \x7d"

/-- The operand is at bytes 8 to 9 and the name of the function at 15 to 16; byte 2 is inside the
character. -/
theorem accented_spans_are_well_formed :
    let problems := (compile .standard .initial [] accented "shell").1.diagnostics
    (Text.byteLength accented.toList < offsetBound ∧ ¬ Text.Boundary accented.toList 2 ∧
      problems = [⟨⟨"shell", 8, 9⟩, .undefinedVariable "x"⟩, ⟨⟨"shell", 15, 16⟩, .allPathsMustReturn⟩]) ∧
    (∃ script, Surface.Script.ofSource accented "shell" = .ok script ∧
      ∀ n, (Node.script script).Contains n → n.Nested accented.toList) ∧
    ∀ d ∈ problems, ∃ line, Text.lineAt accented d.span.start = some line ∧
      line.Holds accented.toList d.span.start := by
  obtain ⟨hnodes, hproblems⟩ := spans_are_well_formed accented "shell" (by decide +kernel)
  refine ⟨by decide +kernel, ?_, fun d hd => ?_⟩
  · have hread : (Surface.Script.ofSource accented "shell").toBool = true := by decide +kernel
    cases hscript : Surface.Script.ofSource accented "shell" with
    | error e => rw [hscript] at hread; cases hread
    | ok script => exact ⟨script, rfl, fun n hn => (hnodes script hscript n hn).1⟩
  · obtain ⟨hwithin, -, hlines⟩ := hproblems .standard .initial [] d hd
    exact hlines _ (Nat.le_refl _) hwithin.ordered

end Scripting
