import Scripting.Text.Quoted
import Scripting.Typed.Tree

/-!
# Typed trees as text

One line for each instruction, with four blanks for each level of nesting; labels stand at the margin.
Operators inside operators are put in parentheses, and conversions are written as calls of their
target type.
-/

namespace Scripting.Typed

/-- Puts an operand in parentheses if it is an operator or an assignment. -/
def Expr.parenthesize (e : Expr) (text : String) : String :=
  match e with
  | .binary .. | .assign .. | .compound .. => "(" ++ text ++ ")"
  | _ => text

mutual

/-- An expression on one line. -/
def Expr.render (t : SymbolTable) : Expr → String
  | .literal (.text s) => Text.quote s
  | .literal v => v.display
  | .name x _ => t.variableName x
  | .assign x e _ => t.variableName x ++ " = " ++ e.render t
  | .compound x o e _ => t.variableName x ++ " " ++ o.mark.text ++ "= " ++ e.render t
  | .unary o e => o.mark.text ++ e.parenthesize (e.render t)
  | .binary l o r =>
    l.parenthesize (l.render t) ++ " " ++ o.mark.text ++ " " ++ r.parenthesize (r.render t)
  | .convert ty e => ty.name ++ "(" ++ e.render t ++ ")"
  | .call f es _ => t.functionName f ++ "(" ++ ", ".intercalate (Expr.renderList t es) ++ ")"
  | .error => "?"

def Expr.renderList (t : SymbolTable) : List Expr → List String
  | [] => []
  | e :: es => e.render t :: Expr.renderList t es

end

/-- The blanks in front of a line. -/
def pad (indent : Nat) : String := .ofList (List.replicate (4 * indent) ' ')

/-- A line with its newline. -/
def line (indent : Nat) (text : String) : String := pad indent ++ text ++ "\n"

/-- An instruction on a line of its own. -/
def Instr.render (t : SymbolTable) (indent : Nat) : Instr → String
  | eval e => line indent (e.render t)
  | declare x e =>
    let keyword := if ((t.variableAt? x).map (·.readOnly)).getD false then "let " else "var "
    line indent
      (keyword ++ t.variableName x ++ ": " ++ (t.variableType x).name ++ " = " ++ e.render t)
  | label l => l.name ++ ":\n"
  | jump l => line indent ("goto " ++ l.name)
  | branch l c on =>
    line indent ("goto " ++ l.name ++ (if on then " if " else " unless ") ++ c.render t)
  | ret none => line indent "return"
  | ret (some e) => line indent ("return " ++ e.render t)

mutual

/-- A statement over as many lines as it takes. -/
def Stmt.render (t : SymbolTable) (indent : Nat) : Stmt → String
  | .instr i => i.render t indent
  | .block ss =>
    line indent "\x7b" ++ Stmt.renderList t (indent + 1) ss ++ line indent "\x7d"
  | .ifThen c s => line indent ("if " ++ c.render t) ++ s.render t (indent + 1)
  | .ifElse c s e =>
    line indent ("if " ++ c.render t) ++ s.render t (indent + 1) ++
      line indent "else" ++ e.render t (indent + 1)
  | .whileLoop c b _ _ => line indent ("while " ++ c.render t) ++ b.render t (indent + 1)
  | .doWhile b c _ _ =>
    line indent "do" ++ b.render t (indent + 1) ++ line indent ("while " ++ c.render t)
  | .forLoop i c n b _ _ =>
    line indent "for" ++ i.render t (indent + 1) ++ line (indent + 1) (c.render t) ++
      line (indent + 1) (n.render t) ++ b.render t (indent + 1)

def Stmt.renderList (t : SymbolTable) (indent : Nat) : List Stmt → String
  | [] => ""
  | s :: ss => s.render t indent ++ Stmt.renderList t indent ss

end

/-- Flat code, one instruction a line. -/
def Code.render (t : SymbolTable) (indent : Nat) (code : Code) : String :=
  String.join (code.map (Instr.render t indent))

end Scripting.Typed
