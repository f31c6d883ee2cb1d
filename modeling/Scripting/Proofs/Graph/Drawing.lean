import Scripting.Proofs.Graph.Representation
import Scripting.Proofs.Text.Lines
import Scripting.Proofs.Text.Trimming
import Scripting.Typed.Dot

/-!
# Drawings can be read

A drawing has one line for each block and one for each edge, and the label in a line is what was to be shown,
whatever characters that holds. Reading is defined here on its own: `readLabel` looks for the quote that ends
a label, where a backslash takes the next character with it.

A label is written in three passes, one for each character that cannot stand for itself. They come to one
pass over the text (`dotLabel_eq`), so reading undoes them character by character (`readLabel_flatMap`).
-/

namespace Scripting

namespace Typed

/-! ## Labels -/

/-- Reads a label behind its opening quote: the text it stands for, and what follows the quote that closes
it. A backslash takes the next character with it; an `l` then stands for a newline, and any other character
for itself. -/
def readLabel : List Char → Option (List Char × List Char)
  | [] => none
  | '"' :: rest => some ([], rest)
  | '\\' :: [] => none
  | '\\' :: c :: rest => (readLabel rest).map fun r => ((if c = 'l' then '\n' else c) :: r.1, r.2)
  | c :: rest => (readLabel rest).map fun r => (c :: r.1, r.2)

/-- Reads a line: what stands in front of the first quote, the text of the label that begins there, and what
follows the label. -/
def readLine (cs : List Char) : Option (List Char × List Char × List Char) :=
  match cs.dropWhile (· ≠ '"') with
  | [] => none
  | _ :: rest => (readLabel rest).map fun r => (cs.takeWhile (· ≠ '"'), r.1, r.2)

/-- How one character is written in a label. -/
def escaped (c : Char) : List Char :=
  if c = '\\' then ['\\', '\\'] else if c = '"' then ['\\', '"'] else if c = '\n' then ['\\', 'l'] else [c]

/-- The three passes come to one. -/
theorem dotLabel_eq (text : String) :
    (dotLabel text).toList = (Text.dropBlanksEnd text.toList).flatMap escaped := by
  unfold dotLabel replaceChar
  rw [String.toList_ofList, List.flatMap_assoc, List.flatMap_assoc]
  refine congrArg (List.flatMap · _) (funext fun c => ?_)
  unfold escaped
  by_cases hslash : c = '\\'
  · rw [if_pos hslash, if_pos hslash]
    rfl
  by_cases hquote : c = '"'
  · rw [if_neg hslash, if_neg hslash, if_pos hquote, List.flatMap_singleton, if_pos hquote]
    rfl
  rw [if_neg hslash, if_neg hslash, if_neg hquote, List.flatMap_singleton, if_neg hquote,
    List.flatMap_singleton]

theorem readLabel_escaped (c : Char) (cs : List Char) :
    readLabel (escaped c ++ cs) = (readLabel cs).map fun r => (c :: r.1, r.2) := by
  unfold escaped
  split
  · next hc => rw [hc]; rfl
  split
  · next hc => rw [hc]; rfl
  split
  · next hc => rw [hc]; rfl
  · next hslash hquote _ => simp [readLabel, hslash]

/-- Reading undoes writing, up to the closing quote. -/
theorem readLabel_flatMap (cs rest : List Char) :
    readLabel (cs.flatMap escaped ++ '"' :: rest) = some (cs, rest) := by
  induction cs with
  | nil => rfl
  | cons c cs ih => rw [List.flatMap_cons, List.append_assoc, readLabel_escaped, ih, Option.map_some]

/-- A line is read as what it was put together from. -/
theorem readLine_append {front : List Char} (h : '"' ∉ front) (cs rest : List Char) :
    readLine (front ++ '"' :: (cs.flatMap escaped ++ '"' :: rest)) = some (front, cs, rest) := by
  have hfront : ∀ c ∈ front, decide (c ≠ '"') = true := by
    refine fun c hc => decide_eq_true ?_
    rintro rfl
    exact h hc
  have hdrop : ∀ back, (front ++ '"' :: back).dropWhile (· ≠ '"') = '"' :: back := fun back => by
    rw [List.dropWhile_append_of_pos hfront]
    exact List.dropWhile_cons_of_neg (by decide)
  have htake : ∀ back, (front ++ '"' :: back).takeWhile (· ≠ '"') = front := fun back => by
    rw [List.takeWhile_append_of_pos hfront, List.takeWhile_cons_of_neg (by decide), List.append_nil]
  rw [readLine, hdrop, htake]
  dsimp only
  rw [readLabel_flatMap, Option.map_some]

theorem newline_not_mem_escaped (cs : List Char) : '\n' ∉ cs.flatMap escaped := by
  intro hmem
  obtain ⟨c, -, hc⟩ := List.mem_flatMap.1 hmem
  unfold escaped at hc
  split at hc
  · exact absurd hc (by decide)
  split at hc
  · exact absurd hc (by decide)
  split at hc
  · exact absurd hc (by decide)
  · next hline => exact hline (List.mem_singleton.1 hc).symm

/-! ## Drawn lines -/

/-- The line begins with the name, its first label stands for the text without the blanks at its end, and
behind the quote that closes the label comes `rest`. -/
def Shows (line : List Char) (name text rest : String) : Prop :=
  ∃ label, readLine line = some (("    " ++ name ++ " [label = ").toList, label, (rest ++ "\n").toList) ∧
    Text.TrimsEnd text.toList label

/-- A line with a label, as its characters. -/
def labelLine (name text rest : String) : List Char :=
  ("    " ++ name ++ " [label = ").toList ++
    '"' :: ((Text.dropBlanksEnd text.toList).flatMap escaped ++ '"' :: (rest ++ "\n").toList)

theorem Block.toList_toDot (t : SymbolTable) (b : Block) :
    (b.toDot t).toList = labelLine (nodeName b.id) (b.render t) ", shape = box]" := by
  unfold Block.toDot line pad labelLine
  simp only [String.toList_append, dotLabel_eq, List.append_assoc, String.toList_ofList]
  rfl

def Edge.nodeNames (e : Edge) : String := nodeName e.source ++ " -> " ++ nodeName e.target

theorem Edge.toList_toDot (t : SymbolTable) (e : Edge) :
    (e.toDot t).toList = labelLine e.nodeNames (e.render t) "]" := by
  unfold Edge.toDot line pad labelLine Edge.nodeNames
  simp only [String.toList_append, dotLabel_eq, List.append_assoc, String.toList_ofList]
  rfl

/-- Holds of texts in which no label begins and no line ends. -/
def Plain (s : String) : Prop := s.toList.all (fun c => c ≠ '"' && c ≠ '\n') = true

instance (s : String) : Decidable (Plain s) := inferInstanceAs (Decidable (_ = true))

theorem plain_iff {s : String} : Plain s ↔ '"' ∉ s.toList ∧ '\n' ∉ s.toList := by
  unfold Plain
  simp only [List.all_eq_true, Bool.and_eq_true, decide_eq_true_eq]
  refine ⟨fun h => ⟨fun hmem => (h _ hmem).1 rfl, fun hmem => (h _ hmem).2 rfl⟩, ?_⟩
  rintro ⟨hquote, hline⟩ c hc
  refine ⟨?_, ?_⟩ <;> rintro rfl
  · exact hquote hc
  · exact hline hc

theorem Plain.append {r s : String} (hr : Plain r) (hs : Plain s) : Plain (r ++ s) := by
  unfold Plain at hr hs ⊢
  rw [String.toList_append, List.all_append, hr, hs]
  rfl

theorem plain_nodeName (n : Nat) : Plain (nodeName n) := by
  have hdigit : ∀ c ∈ (Text.showNat n).toList, c.isDigit = true := fun c hc => by
    rw [Text.showNat, String.toList_ofList] at hc
    exact Nat.isDigit_of_mem_toDigits (by decide) (by decide) hc
  have hdigits : Plain (Text.showNat n) :=
    plain_iff.2 ⟨fun h => absurd (hdigit _ h) (by decide), fun h => absurd (hdigit _ h) (by decide)⟩
  exact Plain.append (by decide) hdigits

theorem Edge.plain_nodeNames (e : Edge) : Plain e.nodeNames :=
  .append (.append (plain_nodeName _) (by decide)) (plain_nodeName _)

variable {name rest : String}

theorem Plain.front (h : Plain name) : Plain ("    " ++ name ++ " [label = ") :=
  .append (.append (by decide) h) (by decide)

theorem shows_labelLine (hname : Plain name) (text rest : String) :
    Shows (labelLine name text rest) name text rest :=
  ⟨_, readLine_append (plain_iff.1 hname.front).1 _ _, Text.trimsEnd_dropBlanksEnd _⟩

theorem isLine_labelLine (hname : Plain name) (text : String) (hrest : Plain rest) :
    Text.IsLine (labelLine name text rest) := by
  refine ⟨("    " ++ name ++ " [label = ").toList ++
    '"' :: ((Text.dropBlanksEnd text.toList).flatMap escaped ++ '"' :: rest.toList), ?_, ?_⟩
  · unfold labelLine
    rw [String.toList_append]
    simp
  · simp only [List.mem_append, List.mem_cons, not_or]
    refine ⟨(plain_iff.1 hname.front).2, by decide, newline_not_mem_escaped _, by decide, ?_⟩
    exact (plain_iff.1 hrest).2

/-! ## Whole drawings -/

variable {g : FlowGraph}

/-- The numbers of the blocks of a graph differ, and so do those of its edges. -/
theorem FlowGraph.wellFormed_of_ofStmts {ss : List Stmt} (h : FlowGraph.ofStmts ss = .ok g) :
    g.WellFormed := by
  unfold ofStmts Stmt.runs at h
  split at h
  · next code hcode =>
    change (ofRuns code.runs).wire.map prune = .ok g at h
    rw [wire_eq] at h
    cases hcs : (ofRuns code.runs).connections with
    | error e =>
      rw [hcs] at h
      cases h
    | ok cs =>
      rw [hcs] at h
      obtain rfl := Except.ok.inj h
      exact ((made_connectAll (connects hcs) (List.prefix_refl cs)).pruneTimes _).wellFormed
  · cases h

/-- The first line, the lines of the blocks, the lines of the edges, and the last line. -/
def FlowGraph.drawnLines (t : SymbolTable) (g : FlowGraph) : List (List Char) :=
  "digraph G \x7b\n".toList ::
    (g.blocks.map (fun b => (b.toDot t).toList) ++ g.edges.map (fun e => (e.toDot t).toList) ++
      ["\x7d\n".toList])

theorem FlowGraph.toList_toDot (t : SymbolTable) (g : FlowGraph) :
    (g.toDot t).toList = (g.drawnLines t).flatten := by
  unfold toDot drawnLines
  simp only [String.toList_append, String.toList_join, List.flatten_cons, List.flatten_append, List.flatMap_map,
    ← List.flatMap_def, List.append_assoc]
  rfl

theorem FlowGraph.isLine_of_mem (t : SymbolTable) (g : FlowGraph) : ∀ l ∈ g.drawnLines t, Text.IsLine l := by
  have hopening : Text.IsLine "digraph G \x7b\n".toList := ⟨"digraph G \x7b".toList, rfl, by decide⟩
  have hclosing : Text.IsLine "\x7d\n".toList := ⟨"\x7d".toList, rfl, by decide⟩
  refine List.forall_mem_cons.2 ⟨hopening, List.forall_mem_append.2 ⟨List.forall_mem_append.2 ⟨?_, ?_⟩,
    List.forall_mem_singleton.2 hclosing⟩⟩
  · refine List.forall_mem_map.2 fun b _ => ?_
    rw [Block.toList_toDot]
    exact isLine_labelLine (plain_nodeName b.id) _ (by decide)
  · refine List.forall_mem_map.2 fun e _ => ?_
    rw [Edge.toList_toDot]
    exact isLine_labelLine e.plain_nodeNames _ (by decide)

/-- Drawings are well formed. The blocks of a graph have different numbers, and so have its edges. Between its
first and its last line a drawing has a line for each block and then a line for each edge, in their order, and
no others. The label in such a line ends at its closing quote and stands for the text of the block or of the
condition without the blanks at its end, whatever characters that text holds. -/
theorem drawing_is_well_formed {ss : List Stmt} (h : FlowGraph.ofStmts ss = .ok g) (t : SymbolTable) :
    (g.blocks.map (·.id)).Nodup ∧ (g.edges.map (·.id)).Nodup ∧
    ∃ boxes arrows, Text.splitLines (g.toDot t).toList =
        "digraph G \x7b\n".toList :: (boxes ++ arrows ++ ["\x7d\n".toList]) ∧
      List.Forall₂ (fun b line => Shows line (nodeName b.id) (b.render t) ", shape = box]") g.blocks boxes ∧
      List.Forall₂ (fun e line => Shows line e.nodeNames (e.render t) "]") g.edges arrows := by
  have hwell := FlowGraph.wellFormed_of_ofStmts h
  refine ⟨hwell.blockIds, hwell.edgeIds, g.blocks.map fun b => (b.toDot t).toList,
    g.edges.map fun e => (e.toDot t).toList, ?_, ?_, ?_⟩
  · rw [FlowGraph.toList_toDot]
    exact Text.splitLines_flatten (g.isLine_of_mem t)
  · refine List.forall₂_map_right_iff.2 (List.forall₂_same.2 fun b _ => ?_)
    rw [Block.toList_toDot]
    exact shows_labelLine (plain_nodeName b.id) ..
  · refine List.forall₂_map_right_iff.2 (List.forall₂_same.2 fun e _ => ?_)
    rw [Edge.toList_toDot]
    exact shows_labelLine e.plain_nodeNames ..

/-- A condition and a statement with texts of quotes, backslashes and newlines, one of which ends in a
backslash and a blank, and a second statement in the same block. -/
def awkwardTexts : List Stmt :=
  [.instr (.branch ⟨"end"⟩ (.convert .boolean (.literal (.text "\"l\\"))) true),
    .instr (.eval (.literal (.text "\n\\ "))), .instr (.eval (.literal (.text "l"))), .instr (.label ⟨"end"⟩)]

/-- Their drawing. -/
def awkwardDrawing : String :=
  "digraph G \x7b\n" ++
  "    N0 [label = \"<Start>\", shape = box]\n" ++
  "    N1 [label = \"goto end if boolean(\\\"\\\\\\\"l\\\\\\\\\\\")\", shape = box]\n" ++
  "    N2 [label = \"\\\"\\\\n\\\\\\\\ \\\"\\l\\\"l\\\"\", shape = box]\n" ++
  "    N3 [label = \"end:\", shape = box]\n" ++
  "    N4 [label = \"<End>\", shape = box]\n" ++
  "    N0 -> N1 [label = \"\"]\n" ++
  "    N1 -> N3 [label = \"boolean(\\\"\\\\\\\"l\\\\\\\\\\\")\"]\n" ++
  "    N1 -> N2 [label = \"!boolean(\\\"\\\\\\\"l\\\\\\\\\\\")\"]\n" ++
  "    N2 -> N3 [label = \"\"]\n" ++
  "    N3 -> N4 [label = \"\"]\n" ++
  "\x7d\n"

theorem awkwardTexts_are_drawn :
    ∃ g, FlowGraph.ofStmts awkwardTexts = .ok g ∧
      g.toDot .initial = awkwardDrawing ∧
      (g.blocks.map (·.id)).Nodup ∧ (g.edges.map (·.id)).Nodup ∧
      ∃ boxes arrows, Text.splitLines (g.toDot .initial).toList =
          "digraph G \x7b\n".toList :: (boxes ++ arrows ++ ["\x7d\n".toList]) ∧
        List.Forall₂ (fun b line => Shows line (nodeName b.id) (b.render .initial) ", shape = box]") g.blocks
          boxes ∧
        List.Forall₂ (fun e line => Shows line e.nodeNames (e.render .initial) "]") g.edges arrows := by
  have hdrawn : (FlowGraph.ofStmts awkwardTexts).toOption.map (·.toDot .initial) = some awkwardDrawing := by
    decide +kernel
  cases hg : FlowGraph.ofStmts awkwardTexts with
  | error e =>
    rw [hg] at hdrawn
    cases hdrawn
  | ok g =>
    rw [hg] at hdrawn
    exact ⟨g, rfl, Option.some.inj hdrawn, drawing_is_well_formed hg .initial⟩

end Typed

end Scripting
