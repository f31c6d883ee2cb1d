import Mathlib.Logic.Relation
import Scripting.Surface.Tree

/-!
# The nodes of a tree

The nodes of a tree, its names and its operators are handled alike, as `Node`s; the children of a node
are what it is made of, in the order of the script. What holds at a node and at all nodes below it holds
`Everywhere`. The height of a tree is the number of levels that its statements and expressions take up.
-/

namespace Scripting.Surface

/-- What has a span in a tree. -/
inductive Node
  | name (name : Name)
  | operator (token : Token)
  | expr (expr : Expr)
  | parameter (parameter : Parameter)
  | stmt (stmt : Stmt)
  | body (statements : List Stmt) (span : Span)
  | script (script : Script)

namespace Node

def span : Node → Span
  | name x => x.span
  | operator o => o.span
  | expr e => e.span
  | parameter p => p.span
  | stmt s => s.span
  | body _ s => s
  | script s => s.span

/-- The parts of a node, in the order of the script. -/
def children : Node → List Node
  | name _ | operator _ => []
  | expr (.number _ _) | expr (.text _ _) | expr (.boolean _ _) => []
  | expr (.name x) => [name x]
  | expr (.binary l o r _) => [expr l, operator o, expr r]
  | expr (.unary o e _) => [operator o, expr e]
  | expr (.assign x o e _) => [name x, operator o, expr e]
  | expr (.call f es _) => name f :: es.map expr
  | parameter p => [name p.type]
  | stmt (.block ss _) => ss.map stmt
  | stmt (.expr e) => [expr e]
  | stmt (.declare d) => name d.name :: (d.type?.toList.map name ++ [expr d.value])
  | stmt (.ifThen c t _) => [expr c, stmt t]
  | stmt (.ifElse c t e _) => [expr c, stmt t, stmt e]
  | stmt (.whileLoop c b _) => [expr c, stmt b]
  | stmt (.doWhile b c _) => [stmt b, expr c]
  | stmt (.forLoop i c n b _) => [stmt i, expr c, expr n, stmt b]
  | stmt (.breakLoop _) | stmt (.continueLoop _) => []
  | stmt (.returns e? _) => e?.toList.map expr
  | stmt (.function h ss) =>
    name h.name :: (h.parameters.map parameter ++ (h.returns?.toList.map name ++ [body ss h.bodySpan]))
  | body ss _ => ss.map stmt
  | script s => s.body.map stmt

/-- The second node is the first one or a part of it, however deep. -/
def Contains : Node → Node → Prop := Relation.ReflTransGen fun n m => m ∈ n.children

/-- Every node of the tree is at a place of the given kind. -/
def Everywhere (W : Span → Prop) (n : Node) : Prop := ∀ m, n.Contains m → W m.span

namespace Everywhere

variable {W : Span → Prop} {n : Node}

theorem of_forall (h : ∀ s, W s) : n.Everywhere W := fun m _ => h m.span

theorem span (h : n.Everywhere W) : W n.span := h n .refl

theorem child (h : n.Everywhere W) {m : Node} (hm : m ∈ n.children) : m.Everywhere W :=
  fun m' hm' => h m' (.head hm hm')

end Everywhere

end Node

/-! ## Heights -/

mutual

/-- The number of levels of an expression: one more than its highest part has. -/
def Expr.height : Expr → Nat
  | .number .. | .text .. | .boolean .. | .name _ => 1
  | .binary l _ r _ => max l.height r.height + 1
  | .unary _ e _ | .assign _ _ e _ => e.height + 1
  | .call _ es _ => Expr.heightList es + 1

def Expr.heightList : List Expr → Nat
  | [] => 0
  | e :: es => max e.height (Expr.heightList es)

end

mutual

/-- The number of levels of a statement, the expressions in it included. Inside another statement, the
declaration of a function has no parts. -/
def Stmt.height : Stmt → Nat
  | .block ss _ => Stmt.heightList ss + 1
  | .expr e => e.height + 1
  | .declare d => d.value.height + 1
  | .ifThen c t _ => max c.height t.height + 1
  | .ifElse c t e _ => max c.height (max t.height e.height) + 1
  | .whileLoop c b _ => max c.height b.height + 1
  | .doWhile b c _ => max b.height c.height + 1
  | .forLoop i c n b _ => max i.height (max c.height (max n.height b.height)) + 1
  | .returns e? _ => (e?.map Expr.height).getD 0 + 1
  | .breakLoop _ | .continueLoop _ | .function .. => 1

def Stmt.heightList : List Stmt → Nat
  | [] => 0
  | s :: ss => max s.height (Stmt.heightList ss)

end

end Scripting.Surface
