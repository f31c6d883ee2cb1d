import Scripting.Surface.Grammar
import Scripting.Surface.Tree
import Scripting.Text.Decimal

/-!
# The tokens of a tree

`Expr.Spelt` and `Stmt.Spelt` relate a tree to the lists of tokens that stand for it: the words, marks,
names and literals of each form in their order, and nothing else. Around an expression there may be
parentheses, any number of them. Where the tree keeps a token or a name, it is the one in the list, and
the span of every node is that of its own tokens.

A statement that ends with an expression may lack the semicolon behind it; such a statement is `cut`.
The relation lets it stand only at the end of a script, so no other semicolon is ever missing.
-/

namespace Scripting.Surface

/-- From the beginning of the first token to the end of the last. -/
def extent (file : String) (ts : List Token) : Span :=
  ⟨file, ts.head?.elim 0 (·.span.start), ts.getLast?.elim 0 (·.span.stop)⟩

/-! ## Expressions -/

namespace Expr

mutual

inductive Spelt (file : String) : Expr → List Token → Prop
  | number {t : Token} {n : Int32} (kind : t.kind = .number)
      (value : Text.readInt32? t.value.toList = some n) : Spelt file (.number n t.span) [t]
  | text {t : Token} (kind : t.kind = .text) : Spelt file (.text t.value t.span) [t]
  | truth {t : Token} (kind : t.kind = .keyword .true_) : Spelt file (.boolean true t.span) [t]
  | falsity {t : Token} (kind : t.kind = .keyword .false_) : Spelt file (.boolean false t.span) [t]
  | name {t : Token} (kind : t.kind = .identifier) : Spelt file (.name ⟨t.value, t.span⟩) [t]
  | group {t u : Token} {e : Expr} {ts : List Token} (opening : t.kind = .punct .openParen)
      (inner : Spelt file e ts) (closing : u.kind = .punct .closeParen) :
      Spelt file e (t :: (ts ++ [u]))
  | unary {o : Token} {e : Expr} {ts : List Token}
      (rule : Grammar.standard.head o.kind = some .operator) (operand : Spelt file e ts) :
      Spelt file (.unary o e (o.span.upTo e.span)) (o :: ts)
  | binary {o : Token} {own : Power} {l r : Expr} {ls rs : List Token}
      (left : Spelt file l ls) (rule : Grammar.standard.tail o.kind = some (own, .binary))
      (right : Spelt file r rs) :
      Spelt file (.binary l o r (l.span.upTo r.span)) (ls ++ o :: rs)
  | assign {o : Token} {own : Power} {x : Name} {e : Expr} {xs ts : List Token}
      (target : Spelt file (.name x) xs) (rule : Grammar.standard.tail o.kind = some (own, .assign))
      (value : Spelt file e ts) :
      Spelt file (.assign x o e (x.span.upTo e.span)) (xs ++ o :: ts)
  | call {t u : Token} {f : Name} {es : List Expr} {fs us : List Token}
      (callee : Spelt file (.name f) fs) (opening : t.kind = .punct .openParen)
      (arguments : AllSpelt file es us) (closing : u.kind = .punct .closeParen) :
      Spelt file (.call f es ⟨file, f.span.start, u.span.stop⟩) (fs ++ t :: (us ++ [u]))

/-- The tokens spell the expressions, with commas between them. -/
inductive AllSpelt (file : String) : List Expr → List Token → Prop
  | nil : AllSpelt file [] []
  | last {e : Expr} {ts : List Token} (expr : Spelt file e ts) : AllSpelt file [e] ts
  | cons {t : Token} {e e' : Expr} {es : List Expr} {ts us : List Token} (expr : Spelt file e ts)
      (comma : t.kind = .punct .comma) (others : AllSpelt file (e' :: es) us) :
      AllSpelt file (e :: e' :: es) (ts ++ t :: us)

end

end Expr

/-! ## Parts of statements -/

/-- The tokens are a mark and the type behind it, or there is no type and no token. -/
inductive TypeClause (mark : Punct) : Option Name → List Token → Prop
  | absent : TypeClause mark none []
  | present {t u : Token} (opening : t.kind = .punct mark) (type : u.kind = .identifier) :
      TypeClause mark (some ⟨u.value, u.span⟩) [t, u]

inductive Parameter.Spelt (file : String) : Parameter → List Token → Prop
  | mk {name colon type : Token} (name_kind : name.kind = .identifier)
      (colon_kind : colon.kind = .punct .colon) (type_kind : type.kind = .identifier) :
      Spelt file ⟨name.value, ⟨type.value, type.span⟩, extent file [name, colon, type]⟩
        [name, colon, type]

/-- The tokens spell the parameters, with commas between them. -/
inductive Parameter.AllSpelt (file : String) : List Parameter → List Token → Prop
  | nil : AllSpelt file [] []
  | last {p : Parameter} {ts : List Token} (parameter : p.Spelt file ts) : AllSpelt file [p] ts
  | cons {t : Token} {p p' : Parameter} {ps : List Parameter} {ts us : List Token}
      (parameter : p.Spelt file ts) (comma : t.kind = .punct .comma)
      (others : AllSpelt file (p' :: ps) us) : AllSpelt file (p :: p' :: ps) (ts ++ t :: us)

inductive VariableDecl.Spelt (file : String) : VariableDecl → List Token → Prop
  | mk {readOnly : Bool} {keyword name equals semicolon : Token} {type? : Option Name} {e : Expr}
      {types values : List Token}
      (keyword_kind : keyword.kind = .keyword (if readOnly then .let_ else .var_))
      (name_kind : name.kind = .identifier) (type : TypeClause .colon type? types)
      (equals_kind : equals.kind = .punct .assignment) (value : e.Spelt file values)
      (semicolon_kind : semicolon.kind = .punct .semicolon) :
      Spelt file
        ⟨⟨name.value, name.span⟩, readOnly, type?, e,
          extent file (keyword :: name :: (types ++ equals :: (values ++ [semicolon])))⟩
        (keyword :: name :: (types ++ equals :: (values ++ [semicolon])))

/-! ## Statements -/

/-- Whether the tokens of a statement are all there, or the semicolon of the expression that it ends
with is missing. -/
inductive Ending
  | whole
  | cut
deriving DecidableEq, Repr

namespace Stmt

/-- Holds of what a `for` loop may do first. -/
def opensLoop : Stmt → Bool
  | .expr _ | .declare _ => true
  | _ => false

mutual

inductive Spelt (file : String) : Ending → Stmt → List Token → Prop
  | expr {semicolon : Token} {e : Expr} {ts : List Token} (value : e.Spelt file ts)
      (semicolon_kind : semicolon.kind = .punct .semicolon) :
      Spelt file .whole (.expr e) (ts ++ [semicolon])
  | cut {e : Expr} {ts : List Token} (value : e.Spelt file ts) : Spelt file .cut (.expr e) ts
  | declare {d : VariableDecl} {ts : List Token} (decl : d.Spelt file ts) :
      Spelt file .whole (.declare d) ts
  | ifThen {t : Token} {c : Expr} {s : Stmt} {cs ts : List Token} {ending : Ending}
      (keyword : t.kind = .keyword .if_) (condition : c.Spelt file cs)
      (thenBody : Spelt file ending s ts) :
      Spelt file ending (.ifThen c s (extent file (t :: (cs ++ ts)))) (t :: (cs ++ ts))
  | ifElse {t u : Token} {c : Expr} {s s' : Stmt} {cs ts us : List Token} {ending : Ending}
      (keyword : t.kind = .keyword .if_) (condition : c.Spelt file cs)
      (thenBody : Spelt file .whole s ts) (otherwise : u.kind = .keyword .else_)
      (elseBody : Spelt file ending s' us) :
      Spelt file ending (.ifElse c s s' (extent file (t :: (cs ++ (ts ++ u :: us)))))
        (t :: (cs ++ (ts ++ u :: us)))
  | whileLoop {t : Token} {c : Expr} {s : Stmt} {cs ts : List Token} {ending : Ending}
      (keyword : t.kind = .keyword .while_) (condition : c.Spelt file cs)
      (body : Spelt file ending s ts) :
      Spelt file ending (.whileLoop c s (extent file (t :: (cs ++ ts)))) (t :: (cs ++ ts))
  | doWhile {t u semicolon : Token} {c : Expr} {s : Stmt} {ts cs : List Token}
      (keyword : t.kind = .keyword .do_) (body : Spelt file .whole s ts)
      (middle : u.kind = .keyword .while_) (condition : c.Spelt file cs)
      (semicolon_kind : semicolon.kind = .punct .semicolon) :
      Spelt file .whole (.doWhile s c (extent file (t :: (ts ++ u :: (cs ++ [semicolon])))))
        (t :: (ts ++ u :: (cs ++ [semicolon])))
  | forLoop {t u semicolon v : Token} {first s : Stmt} {c i : Expr} {fs cs is ts : List Token}
      {ending : Ending}
      (keyword : t.kind = .keyword .for_) (opening : u.kind = .punct .openParen)
      (start : Spelt file .whole first fs) (opens : first.opensLoop = true)
      (condition : c.Spelt file cs) (semicolon_kind : semicolon.kind = .punct .semicolon)
      (increment : i.Spelt file is) (closing : v.kind = .punct .closeParen)
      (body : Spelt file ending s ts) :
      Spelt file ending
        (.forLoop first c i s (extent file (t :: u :: (fs ++ (cs ++ semicolon :: (is ++ v :: ts))))))
        (t :: u :: (fs ++ (cs ++ semicolon :: (is ++ v :: ts))))
  | breakLoop {t semicolon : Token} (keyword : t.kind = .keyword .break_)
      (semicolon_kind : semicolon.kind = .punct .semicolon) :
      Spelt file .whole (.breakLoop (extent file [t, semicolon])) [t, semicolon]
  | continueLoop {t semicolon : Token} (keyword : t.kind = .keyword .continue_)
      (semicolon_kind : semicolon.kind = .punct .semicolon) :
      Spelt file .whole (.continueLoop (extent file [t, semicolon])) [t, semicolon]
  | returnNothing {t semicolon : Token} (keyword : t.kind = .keyword .return_)
      (semicolon_kind : semicolon.kind = .punct .semicolon) :
      Spelt file .whole (.returns none (extent file [t, semicolon])) [t, semicolon]
  | returnValue {t semicolon : Token} {e : Expr} {ts : List Token} (keyword : t.kind = .keyword .return_)
      (value : e.Spelt file ts) (semicolon_kind : semicolon.kind = .punct .semicolon) :
      Spelt file .whole (.returns (some e) (extent file (t :: (ts ++ [semicolon]))))
        (t :: (ts ++ [semicolon]))
  | block {body : List Stmt} {span : Span} {ts : List Token} (block : BlockSpelt file body span ts) :
      Spelt file .whole (.block body span) ts
  | function {t name u v : Token} {ps : List Parameter} {returns? : Option Name} {body : List Stmt}
      {bodySpan : Span} {params types ts : List Token}
      (keyword : t.kind = .keyword .fn_) (name_kind : name.kind = .identifier)
      (opening : u.kind = .punct .openParen) (parameters : Parameter.AllSpelt file ps params)
      (closing : v.kind = .punct .closeParen) (returns : TypeClause .arrow returns? types)
      (block : BlockSpelt file body bodySpan ts) :
      Spelt file .whole
        (.function ⟨⟨name.value, name.span⟩, ps, returns?, bodySpan,
          extent file (t :: name :: u :: (params ++ v :: (types ++ ts)))⟩ body)
        (t :: name :: u :: (params ++ v :: (types ++ ts)))

/-- The tokens spell the statements in braces, and take up the span. -/
inductive BlockSpelt (file : String) : List Stmt → Span → List Token → Prop
  | mk {t u : Token} {body : List Stmt} {ts : List Token} (opening : t.kind = .punct .openCurly)
      (statements : AllSpelt file .whole body ts) (closing : u.kind = .punct .closeCurly) :
      BlockSpelt file body (extent file (t :: (ts ++ [u]))) (t :: (ts ++ [u]))

/-- The tokens spell the statements one after the other; only the last may be cut. -/
inductive AllSpelt (file : String) : Ending → List Stmt → List Token → Prop
  | nil : AllSpelt file .whole [] []
  | cut {s : Stmt} {ts : List Token} (last : Spelt file .cut s ts) : AllSpelt file .cut [s] ts
  | cons {s : Stmt} {ss : List Stmt} {ts us : List Token} {ending : Ending}
      (first : Spelt file .whole s ts) (others : AllSpelt file ending ss us) :
      AllSpelt file ending (s :: ss) (ts ++ us)

end

end Stmt

end Scripting.Surface
