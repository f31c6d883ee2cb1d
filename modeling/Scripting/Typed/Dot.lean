import Scripting.Text.Blank
import Scripting.Typed.FlowGraph
import Scripting.Typed.Render

/-!
# Flow graphs as drawings

A flow graph in the DOT format: a box for each block and an arrow for each edge, in their order.
Lines inside a box are aligned to the left.
-/

namespace Scripting.Typed

/-- The text with `ds` in place of every `c`. -/
def replaceChar (c : Char) (ds cs : List Char) : List Char :=
  cs.flatMap fun d => if d = c then ds else [d]

/-- A text inside a label, without the blanks at its end. Backslashes are doubled before any are put
in. -/
def dotLabel (text : String) : String :=
  .ofList <| replaceChar '\n' ['\\', 'l'] <| replaceChar '"' ['\\', '"'] <|
    replaceChar '\\' ['\\', '\\'] <| Text.dropBlanksEnd text.toList

/-- What stands in the box of a block. -/
def Block.render (t : SymbolTable) (b : Block) : String :=
  match b.kind with
  | .start => "<Start>"
  | .basic => Code.render t 0 b.code
  | .stop => "<End>"

def nodeName (id : Nat) : String := "N" ++ Text.showNat id

/-- A block on a line of its own. -/
def Block.toDot (t : SymbolTable) (b : Block) : String :=
  line 1 (nodeName b.id ++ " [label = \"" ++ dotLabel (b.render t) ++ "\", shape = box]")

/-- The condition of an edge, if it has one. -/
def Edge.render (t : SymbolTable) (e : Edge) : String := (e.condition?.map (Expr.render t)).getD ""

/-- An edge on a line of its own. -/
def Edge.toDot (t : SymbolTable) (e : Edge) : String :=
  line 1 (nodeName e.source ++ " -> " ++ nodeName e.target ++
    " [label = \"" ++ dotLabel (e.render t) ++ "\"]")

def FlowGraph.toDot (t : SymbolTable) (g : FlowGraph) : String :=
  line 0 "digraph G \x7b" ++ String.join (g.blocks.map (Block.toDot t)) ++
    String.join (g.edges.map (Edge.toDot t)) ++ line 0 "\x7d"

end Scripting.Typed
