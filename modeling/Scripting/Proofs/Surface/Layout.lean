import Scripting.Proofs.Surface.Nodes
import Scripting.Proofs.Surface.Tokens
import Scripting.Proofs.Token.Placement

/-!
# The layout of a tree

A node of a tree that was read takes up consecutive tokens, and its children lie among them, one behind
the other (`Laid`). Parentheses around an expression belong to no node, so the tokens of a node may be
fewer than those that spell it.

The spans of tokens that are placed one behind the other are then nested as the nodes are
(`Node.Nested`).
-/

namespace Scripting.Surface

/-! ## Nested nodes -/

/-- The span lies in the text and covers the parts of the node, which lie one behind the other. -/
structure Node.Nested (text : List Char) (n : Node) : Prop where
  within : n.span.Within text
  covers : ∀ m ∈ n.children, n.span.Covers m.span
  apart : n.children.Pairwise fun m m' => m.span.stop ≤ m'.span.start

/-! ## Nodes among tokens -/

/-- The span begins with the first of the tokens and ends with the last. -/
structure Spans (s : Span) (ts : List Token) : Prop where
  first : ∃ t us, ts = t :: us ∧ s.start = t.span.start
  last : ∃ us t, ts = us ++ [t] ∧ s.stop = t.span.stop

theorem spans_token (t : Token) : Spans t.span [t] := ⟨⟨t, [], rfl, rfl⟩, [], t, rfl, rfl⟩

theorem spans_extent (file : String) (t : Token) (ts : List Token) :
    Spans (extent file (t :: ts)) (t :: ts) := by
  refine ⟨⟨t, ts, rfl, rfl⟩, (t :: ts).dropLast, (t :: ts).getLast (List.cons_ne_nil t ts), ?_, ?_⟩
  · exact (List.dropLast_concat_getLast _).symm
  · unfold extent
    rw [List.getLast?_eq_some_getLast (List.cons_ne_nil t ts)]
    rfl

mutual

/-- The node takes up consecutive tokens among these, and its children lie among those. -/
inductive Laid : List Token → Node → Prop
  | mk {front own back : List Token} {n : Node} (spans : Spans n.span own)
      (children : AllLaid own n.children) : Laid (front ++ (own ++ back)) n

/-- The nodes lie among the tokens, one behind the other. -/
inductive AllLaid : List Token → List Node → Prop
  | nil {ts : List Token} : AllLaid ts []
  | cons {ts us : List Token} {n : Node} {ns : List Node} (first : Laid ts n) (others : AllLaid us ns) :
      AllLaid (ts ++ us) (n :: ns)

end

variable {file : String} {text : List Char} {ts us : List Token} {n m : Node} {ns ms : List Node}

namespace Laid

theorem of_spans (h : Spans n.span ts) (hchildren : AllLaid ts n.children) : Laid ts n := by
  have hlaid : Laid ([] ++ (ts ++ [])) n := .mk h hchildren
  rwa [List.append_nil] at hlaid

theorem widen (h : Laid ts n) (front back : List Token) : Laid (front ++ (ts ++ back)) n := by
  cases h with
  | @mk front' own back' _ spans children =>
    have hlaid : Laid ((front ++ front') ++ (own ++ (back' ++ back))) n := .mk spans children
    simpa using hlaid

theorem one (h : Laid ts n) : AllLaid ts [n] := by
  have hall : AllLaid (ts ++ []) [n] := .cons h .nil
  rwa [List.append_nil] at hall

end Laid

namespace AllLaid

theorem behind (h : AllLaid ts ns) (front : List Token) : AllLaid (front ++ ts) ns := by
  cases h with
  | nil => exact .nil
  | @cons ts us n ns first others =>
    have hfirst : Laid (front ++ ts) n := by simpa using first.widen front []
    rw [← List.append_assoc]
    exact .cons hfirst others

theorem skip (h : AllLaid ts ns) {t : Token} : AllLaid (t :: ts) ns := h.behind [t]

theorem before (h : AllLaid ts ns) (back : List Token) : AllLaid (ts ++ back) ns := by
  induction ns generalizing ts with
  | nil => exact .nil
  | cons n ns ih =>
    cases h with
    | cons first others =>
      rw [List.append_assoc]
      exact .cons first (ih others)

theorem append (h : AllLaid ts ns) (h' : AllLaid us ms) : AllLaid (ts ++ us) (ns ++ ms) := by
  induction ns generalizing ts with
  | nil => exact h'.behind ts
  | cons n ns ih =>
    cases h with
    | cons first others =>
      rw [List.append_assoc]
      exact .cons first (ih others)

theorem of_mem (h : AllLaid ts ns) (hn : n ∈ ns) : Laid ts n := by
  induction ns generalizing ts with
  | nil => cases hn
  | cons m ns ih =>
    cases h with
    | @cons ts us _ _ first others =>
      rcases List.mem_cons.1 hn with rfl | hn
      · exact first.widen [] us
      · simpa using (ih others hn).widen ts []

end AllLaid

namespace Laid

theorem allLaid_children (h : Laid ts n) : AllLaid ts n.children := by
  cases h with
  | @mk front own back _ spans children => exact (children.before back).behind front

/-- A node with the span of another one stands where that one does. -/
theorem imp (h : Laid ts m) (hspan : n.span = m.span)
    (hchildren : ∀ {own : List Token}, Laid own m → AllLaid own n.children) : Laid ts n := by
  cases h with
  | mk spans children => exact .mk (hspan ▸ spans) (hchildren (of_spans spans children))

/-- A node that begins with its first child and ends with the last token. -/
theorem closed (h : Laid ts m) (us : List Token) {u : Token} (hothers : AllLaid (us ++ [u]) ms)
    (hstart : n.span.start = m.span.start) (hstop : n.span.stop = u.span.stop)
    (hchildren : n.children = m :: ms) : Laid (ts ++ (us ++ [u])) n := by
  cases h with
  | @mk front own back _ spans children =>
    obtain ⟨t, rest, rfl, ht⟩ := spans.first
    have hspans : Spans n.span ((t :: rest) ++ (back ++ (us ++ [u]))) :=
      ⟨⟨t, _, rfl, hstart.trans ht⟩, t :: (rest ++ (back ++ us)), u, by simp, hstop⟩
    have hall : AllLaid ((t :: rest) ++ (back ++ (us ++ [u]))) n.children := by
      rw [hchildren]
      exact .cons (of_spans spans children) (hothers.behind back)
    simpa using (of_spans hspans hall).widen front []

/-- A node that begins with its first child and ends with its last. -/
theorem joined {l r : Node} {ls rs : List Token} (hl : Laid ls l) (hms : AllLaid us ms) (hr : Laid rs r)
    (hstart : n.span.start = l.span.start) (hstop : n.span.stop = r.span.stop)
    (hchildren : n.children = l :: (ms ++ [r])) : Laid (ls ++ (us ++ rs)) n := by
  cases hr with
  | @mk front own back _ spans children =>
    obtain ⟨own, u, rfl, hu⟩ := spans.last
    have hlast : Laid (front ++ (own ++ [u])) r := by
      simpa using (of_spans spans children).widen front []
    have hothers : AllLaid ((us ++ (front ++ own)) ++ [u]) (ms ++ [r]) := by
      simpa using hms.append hlast.one
    simpa using (hl.closed _ hothers hstart (hstop.trans hu) hchildren).widen [] back

end Laid

/-! ## Spelt nodes are laid out -/

theorem laid_name (t : Token) : Laid [t] (.name ⟨t.value, t.span⟩) := .of_spans (spans_token t) .nil

theorem laid_operator (t : Token) : Laid [t] (.operator t) := .of_spans (spans_token t) .nil

/-- The name of a variable or a function is spelt where it is an expression. -/
theorem Laid.name {x : Name} (h : Laid ts (.expr (.name x))) : Laid ts (.name x) :=
  h.imp rfl fun _ => .nil

namespace Expr

mutual

theorem Spelt.laid {e : Expr} {ts : List Token} : Spelt file e ts → Laid ts (.expr e)
  | .number (t := t) _ _ | .text (t := t) _ | .truth (t := t) _ | .falsity (t := t) _ =>
    .of_spans (spans_token t) .nil
  | .name (t := t) _ => .of_spans (spans_token t) (laid_name t).one
  | .group (t := t) (u := u) _ inner _ => inner.laid.widen [t] [u]
  | .unary (o := o) _ operand =>
    (laid_operator o).joined (.nil : AllLaid [] []) operand.laid rfl rfl rfl
  | .binary (o := o) left _ right => left.laid.joined (laid_operator o).one right.laid rfl rfl rfl
  | .assign (o := o) target _ value =>
    target.laid.name.joined (laid_operator o).one value.laid rfl rfl rfl
  | .call (u := u) callee _ arguments _ =>
    callee.laid.name.closed (_ :: _) (arguments.allLaid.before [u]).skip rfl rfl rfl

theorem AllSpelt.allLaid {es : List Expr} {ts : List Token} :
    AllSpelt file es ts → AllLaid ts (es.map .expr)
  | .nil => .nil
  | .last expr => expr.laid.one
  | .cons expr _ others => .cons expr.laid others.allLaid.skip

end

end Expr

theorem TypeClause.allLaid {mark : Punct} {type? : Option Name} (h : TypeClause mark type? ts) :
    AllLaid ts (type?.toList.map .name) := by
  cases h with
  | absent => exact .nil
  | @present t u _ _ => exact (laid_name u).one.skip

theorem Parameter.Spelt.laid {p : Parameter} (h : p.Spelt file ts) : Laid ts (.parameter p) := by
  cases h with
  | @mk name colon type _ _ _ =>
    exact .of_spans (spans_extent file name _) (laid_name type).one.skip.skip

theorem Parameter.AllSpelt.allLaid {ps : List Parameter} (h : AllSpelt file ps ts) :
    AllLaid ts (ps.map .parameter) := by
  induction h with
  | nil => exact .nil
  | last parameter => exact parameter.laid.one
  | cons parameter _ _ ih => exact .cons parameter.laid ih.skip

theorem VariableDecl.Spelt.laid {d : VariableDecl} (h : d.Spelt file ts) :
    Laid ts (.stmt (.declare d)) := by
  cases h with
  | @mk _ keyword name equals semicolon _ _ types values _ _ type _ value _ =>
    have hvalue : AllLaid (equals :: (values ++ [semicolon])) _ :=
      (value.laid.one.before [semicolon]).skip
    have hall : AllLaid ([name] ++ (types ++ _)) _ :=
      .cons (laid_name name) (type.allLaid.append hvalue)
    exact .of_spans (spans_extent file keyword _) hall.skip

namespace Stmt

mutual

theorem Spelt.laid {ending : Ending} {s : Stmt} {ts : List Token} :
    Spelt file ending s ts → Laid ts (.stmt s)
  | .expr value _ => (value.laid.widen [] [_]).imp rfl (·.one)
  | .cut value => value.laid.imp rfl (·.one)
  | .declare decl => decl.laid
  | .ifThen _ condition thenBody =>
    .of_spans (spans_extent file _ _) (AllLaid.cons condition.laid thenBody.laid.one).skip
  | .ifElse _ condition thenBody _ elseBody =>
    .of_spans (spans_extent file _ _)
      (AllLaid.cons condition.laid (.cons thenBody.laid elseBody.laid.one.skip)).skip
  | .whileLoop _ condition body =>
    .of_spans (spans_extent file _ _) (AllLaid.cons condition.laid body.laid.one).skip
  | .doWhile _ body _ condition _ =>
    .of_spans (spans_extent file _ _)
      (AllLaid.cons body.laid (AllLaid.cons condition.laid .nil).skip).skip
  | .forLoop _ _ start _ condition _ increment _ body =>
    .of_spans (spans_extent file _ _)
      (AllLaid.cons start.laid (.cons condition.laid
        (AllLaid.cons increment.laid body.laid.one.skip).skip)).skip.skip
  | .breakLoop _ _ | .continueLoop _ _ | .returnNothing _ _ => .of_spans (spans_extent file _ _) .nil
  | .returnValue _ value _ =>
    .of_spans (spans_extent file _ _) (AllLaid.cons value.laid .nil).skip
  | .block braces => braces.laid.imp rfl (·.allLaid_children)
  | .function _ _ _ params _ type braces =>
    .of_spans (spans_extent file _ _)
      (AllLaid.cons (laid_name _)
        (params.allLaid.append (type.allLaid.append braces.laid.one).skip).skip).skip

theorem BlockSpelt.laid {body : List Stmt} {span : Span} {ts : List Token} :
    BlockSpelt file body span ts → Laid ts (.body body span)
  | .mk (u := u) _ statements _ =>
    .of_spans (spans_extent file _ _) (statements.allLaid.before [u]).skip

theorem AllSpelt.allLaid {ending : Ending} {ss : List Stmt} {ts : List Token} :
    AllSpelt file ending ss ts → AllLaid ts (ss.map .stmt)
  | .nil => .nil
  | .cut last => last.laid.one
  | .cons first others => .cons first.laid others.allLaid

end

end Stmt

/-! ## Nodes that are laid out are nested -/

/-- The span of a node begins with one of the tokens and ends with one of them. -/
theorem Laid.ends (h : Laid ts n) :
    (∃ t ∈ ts, n.span.start = t.span.start) ∧ ∃ t ∈ ts, n.span.stop = t.span.stop := by
  cases h with
  | @mk front own back _ spans _ =>
    obtain ⟨⟨t, us, rfl, hstart⟩, us', t', hown, hstop⟩ := spans
    refine ⟨⟨t, by simp, hstart⟩, t', ?_, hstop⟩
    rw [hown]
    simp

/-- What begins with the first of some tokens and ends with the last covers them all. -/
theorem Spans.covers {s : Span} (h : Spans s ts) (hts : Token.Placed text ts) :
    ∀ t ∈ ts, s.Covers t.span := by
  intro t ht
  constructor
  · obtain ⟨first, us, rfl, hstart⟩ := h.first
    rw [hstart]
    rcases List.mem_cons.1 ht with rfl | hus
    · exact Nat.le_refl _
    · have hfirst := (hts.within first List.mem_cons_self).ordered
      exact Nat.le_trans hfirst ((List.pairwise_cons.1 hts.apart).1 t hus)
  · obtain ⟨us, last, rfl, hstop⟩ := h.last
    rw [hstop]
    rcases List.mem_append.1 ht with hus | hlast
    · have hlast := (hts.within last (by simp)).ordered
      exact Nat.le_trans ((List.pairwise_append.1 hts.apart).2.2 t hus last List.mem_cons_self) hlast
    · exact List.mem_singleton.1 hlast ▸ Nat.le_refl _

theorem AllLaid.apart (h : AllLaid ts ns) (hts : Token.Placed text ts) :
    ns.Pairwise fun m m' => m.span.stop ≤ m'.span.start := by
  induction ns generalizing ts with
  | nil => exact .nil
  | cons n ns ih =>
    cases h with
    | @cons ts us _ _ first others =>
      refine .cons (fun m hm => ?_) (ih others (hts.sublist (List.sublist_append_right ts us)))
      obtain ⟨t, ht, hstop⟩ := first.ends.2
      obtain ⟨u, hu, hstart⟩ := (others.of_mem hm).ends.1
      rw [hstop, hstart]
      exact (List.pairwise_append.1 hts.apart).2.2 t ht u hu

/-- A node among tokens that are placed in a text is nested in it. -/
theorem Laid.nested (h : Laid ts n) (hts : Token.Placed text ts) : n.Nested text := by
  cases h with
  | @mk front own back _ spans children =>
    have hown : Token.Placed text own :=
      hts.sublist ((List.sublist_append_left own back).trans (List.sublist_append_right front _))
    have hcovers := spans.covers hown
    refine ⟨?_, fun m hm => ?_, children.apart hown⟩
    · obtain ⟨t, us, rfl, hstart⟩ := spans.first
      obtain ⟨us', t', hlast, hstop⟩ := spans.last
      have ht' : t' ∈ t :: us := hlast ▸ List.mem_append_right us' List.mem_cons_self
      refine Span.within_of_boundary ?_ ?_ ?_
      · exact hstart ▸ (hown.within t List.mem_cons_self).start
      · exact hstop ▸ (hown.within t' ht').stop
      · have hfirst := (hown.within t List.mem_cons_self).ordered
        exact Nat.le_trans (hstart ▸ hfirst) (hcovers t List.mem_cons_self).2
    · obtain ⟨⟨t, ht, hstart⟩, t', ht', hstop⟩ := (children.of_mem hm).ends
      exact ⟨hstart ▸ (hcovers t ht).1, hstop ▸ (hcovers t' ht').2⟩

theorem Laid.contains (h : Laid ts n) (hm : n.Contains m) : Laid ts m := by
  induction hm with
  | refl => exact h
  | tail _ hchild ih => exact ih.allLaid_children.of_mem hchild

/-- A script goes from the first byte to the token behind its statements. -/
theorem nested_script {script : Script} {rest : List Token} {t : Token}
    (h : AllLaid ts (Node.script script).children) (hts : Token.Placed text (ts ++ t :: rest))
    (hstart : script.span.start = 0) (hstop : script.span.stop = t.span.start) :
    (Node.script script).Nested text := by
  have ht : t.span.Within text := hts.within t (by simp)
  refine ⟨?_, fun m hm => ?_, h.apart (hts.sublist (List.sublist_append_left ts _))⟩
  · have hbegin : Text.Boundary text script.span.start := ⟨[], text, rfl, hstart.symm⟩
    exact Span.within_of_boundary hbegin (hstop ▸ ht.start) (hstart ▸ Nat.zero_le script.span.stop)
  · obtain ⟨u, hu, hlast⟩ := (h.of_mem hm).ends.2
    have happart : u.span.stop ≤ t.span.start :=
      (List.pairwise_append.1 hts.apart).2.2 u hu t List.mem_cons_self
    exact ⟨hstart ▸ Nat.zero_le m.span.start, hlast ▸ hstop ▸ happart⟩

/-- In a script that was read every node is nested. -/
theorem nested_of_parse {tokens : List Token} {script : Script} (hended : Ended tokens)
    (htokens : Token.Placed text tokens) (h : parse tokens file = .ok script) :
    ∀ n, (Node.script script).Contains n → n.Nested text := by
  unfold parse at h
  split at h
  · next body c hread =>
    cases h
    obtain ⟨ending, ts, hts, hspelt, -⟩ := Reading.script_ok _ ⟨rfl, hended⟩ hread
    obtain ⟨t, rest, hrest⟩ := hts.opened.ended.exists_cons
    have heq : tokens = ts ++ t :: rest := hrest ▸ hts.rest
    rw [heq] at htokens
    have hall : AllLaid ts (body.map .stmt) := hspelt.allLaid
    intro n hn
    obtain rfl | ⟨s, hs, hn⟩ := hn.cases_head
    · exact nested_script hall htokens rfl (congrArg (·.span.start) (Cursor.current_of_rest hrest))
    · exact ((hall.of_mem hs).contains hn).nested (htokens.sublist (List.sublist_append_left ts _))
  · cases h

end Scripting.Surface
