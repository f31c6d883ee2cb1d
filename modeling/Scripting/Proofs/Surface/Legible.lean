import Scripting.Proofs.Surface.Nodes
import Scripting.Proofs.Surface.Tokens
import Scripting.Proofs.Token.Account
import Scripting.Submission.Check

/-!
# Trees that can be written

The names in a tree that was read are identifiers, and its numbers have no sign: a minus in front of a
number is an operator. A tree made in another way may hold what no script spells.
-/

namespace Scripting

open Surface

/-- Digits read as a number that is not negative. -/
theorem Text.readInt32?_nonneg {cs : List Char} {n : Int32} (hdigits : ∀ c ∈ cs, c.isDigit = true)
    (h : Text.readInt32? cs = some n) : 0 ≤ n.toInt := by
  have hunsigned : Text.readInt? cs = (Text.readNat? cs).map Int.ofNat := by
    unfold Text.readInt?
    split
    · exact absurd (hdigits '-' (.head _)) (by decide)
    · exact absurd (hdigits '+' (.head _)) (by decide)
    · rfl
  obtain ⟨i, hi, h⟩ := Option.bind_eq_some_iff.1 h
  obtain ⟨k, -, rfl⟩ := Option.map_eq_some_iff.1 (hunsigned ▸ hi)
  split at h
  · next hfits =>
    obtain rfl := Option.some.inj h
    rw [Int32.toInt_ofInt_of_le hfits.1 hfits.2]
    exact Int.natCast_nonneg k
  · cases h

namespace Surface

namespace Node

/-- What is written at the node itself can be read. -/
def Legible : Node → Prop
  | .name x => Token.Writable (.identifier, x.text)
  | .expr (.number n _) => 0 ≤ n.toInt
  | _ => True

/-- The node and all nodes below it can be read. -/
def AllLegible (n : Node) : Prop := ∀ m, n.Contains m → m.Legible

namespace AllLegible

variable {n m : Node}

theorem self (h : n.AllLegible) : n.Legible := h n .refl

theorem child (h : n.AllLegible) (hm : m ∈ n.children) : m.AllLegible := fun k hk => h k (.head hm hk)

theorem of_children (h : n.Legible) (hchildren : ∀ m ∈ n.children, m.AllLegible) : n.AllLegible := by
  intro k hk
  rcases hk.cases_head with rfl | ⟨m, hm, hk⟩
  · exact h
  · exact hchildren m hm k hk

theorem operator (o : Token) : (Node.operator o).AllLegible := of_children trivial (List.forall_mem_nil _)

end AllLegible

end Node

variable {file : String} {ts : List Token}

theorem allLegible_name {t : Token} (h : Token.Writable t.content) (hkind : t.kind = .identifier) :
    (Node.name ⟨t.value, t.span⟩).AllLegible := by
  refine .of_children ?_ (List.forall_mem_nil _)
  unfold Token.content at h
  rwa [hkind] at h

/-! ## Expressions -/

namespace Expr

mutual

theorem Spelt.allLegible {e : Expr} {ts : List Token} :
    Spelt file e ts → (∀ t ∈ ts, Token.Writable t.content) → (Node.expr e).AllLegible
  | .number (t := t) kind value, hts => by
    have ht := hts t (.head _)
    unfold Token.content at ht
    rw [kind] at ht
    exact .of_children (Text.readInt32?_nonneg ht.2 value) (List.forall_mem_nil _)
  | .text _, _ | .truth _, _ | .falsity _, _ => .of_children trivial (List.forall_mem_nil _)
  | .name (t := t) kind, hts =>
    .of_children trivial (List.forall_mem_singleton.2 (allLegible_name (hts t (.head _)) kind))
  | .group _ inner _, hts => inner.allLegible fun t ht => hts t (by simp [ht])
  | .unary (o := o) _ operand, hts => by
    have hoperand := operand.allLegible fun t ht => hts t (.tail _ ht)
    exact .of_children trivial (List.forall_mem_cons.2 ⟨.operator o, List.forall_mem_singleton.2 hoperand⟩)
  | .binary (o := o) left _ right, hts => by
    have hleft := left.allLegible fun t ht => hts t (by simp [ht])
    have hright := right.allLegible fun t ht => hts t (by simp [ht])
    exact .of_children trivial (List.forall_mem_cons.2 ⟨hleft,
      List.forall_mem_cons.2 ⟨.operator o, List.forall_mem_singleton.2 hright⟩⟩)
  | .assign (o := o) target _ value, hts => by
    have htarget := target.allLegible fun t ht => hts t (by simp [ht])
    have hvalue := value.allLegible fun t ht => hts t (by simp [ht])
    exact .of_children trivial (List.forall_mem_cons.2 ⟨htarget.child (.head _),
      List.forall_mem_cons.2 ⟨.operator o, List.forall_mem_singleton.2 hvalue⟩⟩)
  | .call callee _ arguments _, hts => by
    have hcallee := callee.allLegible fun t ht => hts t (by simp [ht])
    have harguments := arguments.allLegible fun t ht => hts t (by simp [ht])
    exact .of_children trivial (List.forall_mem_cons.2 ⟨hcallee.child (.head _), List.forall_mem_map.2 harguments⟩)

theorem AllSpelt.allLegible {es : List Expr} {ts : List Token} :
    AllSpelt file es ts → (∀ t ∈ ts, Token.Writable t.content) → ∀ e ∈ es, (Node.expr e).AllLegible
  | .nil, _ => List.forall_mem_nil _
  | .last expr, hts => List.forall_mem_singleton.2 (expr.allLegible hts)
  | .cons expr _ others, hts => List.forall_mem_cons.2 ⟨expr.allLegible fun t ht => hts t (by simp [ht]),
      others.allLegible fun t ht => hts t (by simp [ht])⟩

end

end Expr

/-! ## Statements -/

theorem TypeClause.allLegible {mark : Punct} {type? : Option Name} (h : TypeClause mark type? ts)
    (hts : ∀ t ∈ ts, Token.Writable t.content) : ∀ n ∈ type?.toList.map Node.name, n.AllLegible := by
  cases h with
  | absent => exact List.forall_mem_nil _
  | @present t u _ type => exact List.forall_mem_singleton.2 (allLegible_name (hts u (by simp)) type)

theorem Parameter.Spelt.allLegible {p : Parameter} (h : p.Spelt file ts)
    (hts : ∀ t ∈ ts, Token.Writable t.content) : (Node.parameter p).AllLegible := by
  cases h with
  | @mk name colon type _ _ type_kind =>
    have htype := allLegible_name (hts type (by simp)) type_kind
    exact .of_children trivial (List.forall_mem_singleton.2 htype)

theorem Parameter.AllSpelt.allLegible {ps : List Parameter} (h : AllSpelt file ps ts)
    (hts : ∀ t ∈ ts, Token.Writable t.content) : ∀ n ∈ ps.map Node.parameter, n.AllLegible := by
  induction h with
  | nil => exact List.forall_mem_nil _
  | last parameter => exact List.forall_mem_singleton.2 (parameter.allLegible hts)
  | cons parameter _ _ ih =>
    exact List.forall_mem_cons.2 ⟨parameter.allLegible fun t ht => hts t (by simp [ht]),
      ih fun t ht => hts t (by simp [ht])⟩

theorem VariableDecl.Spelt.allLegible {d : VariableDecl} (h : d.Spelt file ts)
    (hts : ∀ t ∈ ts, Token.Writable t.content) : (Node.stmt (.declare d)).AllLegible := by
  cases h with
  | @mk _ keyword name equals semicolon _ _ types values _ name_kind type _ value _ =>
    have hname := allLegible_name (hts name (by simp)) name_kind
    have htype := type.allLegible fun t ht => hts t (by simp [ht])
    have hvalue := value.allLegible fun t ht => hts t (by simp [ht])
    exact .of_children trivial (List.forall_mem_cons.2 ⟨hname,
      List.forall_mem_append.2 ⟨htype, List.forall_mem_singleton.2 hvalue⟩⟩)

namespace Stmt

mutual

theorem Spelt.allLegible {ending : Ending} {s : Stmt} {ts : List Token} :
    Spelt file ending s ts → (∀ t ∈ ts, Token.Writable t.content) → (Node.stmt s).AllLegible
  | .expr value _, hts => by
    have hvalue := value.allLegible fun t ht => hts t (by simp [ht])
    exact .of_children trivial (List.forall_mem_singleton.2 hvalue)
  | .cut value, hts => .of_children trivial (List.forall_mem_singleton.2 (value.allLegible hts))
  | .declare decl, hts => decl.allLegible hts
  | .ifThen _ condition thenBody, hts => by
    have hcondition := condition.allLegible fun t ht => hts t (by simp [ht])
    have hbody := thenBody.allLegible fun t ht => hts t (by simp [ht])
    exact .of_children trivial (List.forall_mem_cons.2 ⟨hcondition, List.forall_mem_singleton.2 hbody⟩)
  | .ifElse _ condition thenBody _ elseBody, hts => by
    have hcondition := condition.allLegible fun t ht => hts t (by simp [ht])
    have hthen := thenBody.allLegible fun t ht => hts t (by simp [ht])
    have helse := elseBody.allLegible fun t ht => hts t (by simp [ht])
    exact .of_children trivial (List.forall_mem_cons.2 ⟨hcondition,
      List.forall_mem_cons.2 ⟨hthen, List.forall_mem_singleton.2 helse⟩⟩)
  | .whileLoop _ condition body, hts => by
    have hcondition := condition.allLegible fun t ht => hts t (by simp [ht])
    have hbody := body.allLegible fun t ht => hts t (by simp [ht])
    exact .of_children trivial (List.forall_mem_cons.2 ⟨hcondition, List.forall_mem_singleton.2 hbody⟩)
  | .doWhile _ body _ condition _, hts => by
    have hbody := body.allLegible fun t ht => hts t (by simp [ht])
    have hcondition := condition.allLegible fun t ht => hts t (by simp [ht])
    exact .of_children trivial (List.forall_mem_cons.2 ⟨hbody, List.forall_mem_singleton.2 hcondition⟩)
  | .forLoop _ _ start _ condition _ increment _ body, hts => by
    have hstart := start.allLegible fun t ht => hts t (by simp [ht])
    have hcondition := condition.allLegible fun t ht => hts t (by simp [ht])
    have hincrement := increment.allLegible fun t ht => hts t (by simp [ht])
    have hbody := body.allLegible fun t ht => hts t (by simp [ht])
    exact .of_children trivial (List.forall_mem_cons.2 ⟨hstart, List.forall_mem_cons.2 ⟨hcondition,
      List.forall_mem_cons.2 ⟨hincrement, List.forall_mem_singleton.2 hbody⟩⟩⟩)
  | .breakLoop _ _, _ | .continueLoop _ _, _ | .returnNothing _ _, _ =>
    .of_children trivial (List.forall_mem_nil _)
  | .returnValue _ value _, hts => by
    have hvalue := value.allLegible fun t ht => hts t (by simp [ht])
    exact .of_children trivial (List.forall_mem_singleton.2 hvalue)
  | .block braces, hts => by
    have hbody := braces.allLegible hts
    exact .of_children trivial fun n hn => hbody.child hn
  | .function _ name_kind _ parameters _ type braces, hts => by
    have hname := allLegible_name (hts _ (by simp)) name_kind
    have hparameters := parameters.allLegible fun t ht => hts t (by simp [ht])
    have htype := type.allLegible fun t ht => hts t (by simp [ht])
    have hbody := braces.allLegible fun t ht => hts t (by simp [ht])
    exact .of_children trivial (List.forall_mem_cons.2 ⟨hname, List.forall_mem_append.2 ⟨hparameters,
      List.forall_mem_append.2 ⟨htype, List.forall_mem_singleton.2 hbody⟩⟩⟩)

theorem BlockSpelt.allLegible {body : List Stmt} {span : Span} {ts : List Token} :
    BlockSpelt file body span ts → (∀ t ∈ ts, Token.Writable t.content) → (Node.body body span).AllLegible
  | .mk _ statements _, hts => by
    have hstatements := statements.allLegible fun t ht => hts t (by simp [ht])
    exact .of_children trivial (List.forall_mem_map.2 hstatements)

theorem AllSpelt.allLegible {ending : Ending} {ss : List Stmt} {ts : List Token} :
    AllSpelt file ending ss ts → (∀ t ∈ ts, Token.Writable t.content) → ∀ s ∈ ss, (Node.stmt s).AllLegible
  | .nil, _ => List.forall_mem_nil _
  | .cut last, hts => List.forall_mem_singleton.2 (last.allLegible hts)
  | .cons first others, hts => List.forall_mem_cons.2 ⟨first.allLegible fun t ht => hts t (by simp [ht]),
      others.allLegible fun t ht => hts t (by simp [ht])⟩

end

end Stmt

end Surface

/-! ## Scripts -/

theorem Token.Cut.writable {place : Place} {front back : List Char} {us : List Token}
    (h : Cut back place front us) : ∀ u ∈ us, Writable u.content := by
  induction h with
  | here => exact List.forall_mem_nil _
  | gap _ _ ih => exact ih
  | token stands _ ih => exact List.forall_mem_cons.2 ⟨stands.writable, ih⟩

/-- Up to the end of the script, the tokens that are read can be written. -/
theorem Token.writable_of_tokenize {source file : String} {ts : List Token}
    (h : tokenize source file = .ok ts) : ∃ us eof, ts = us ++ [eof] ∧ ∀ u ∈ us, Writable u.content := by
  obtain ⟨us, hcut, hts⟩ := exists_cut_of_tokenize h
  rw [List.map_append] at hts
  exact ⟨us.map recorded, _, hts, List.forall_mem_map.2 hcut.writable⟩

/-- All nodes of a script that was read can be read. -/
theorem Surface.Script.allLegible {source file : String} {script : Script}
    (h : Script.ofSource source file = .ok script) : (Node.script script).AllLegible := by
  unfold Script.ofSource at h
  cases htokens : Token.tokenize source file with
  | error e => rw [htokens] at h; cases h
  | ok tokens =>
    rw [htokens] at h
    have hended : Ended tokens := Token.ended_of_tokenize htokens
    obtain ⟨us, eof, rfl, hus⟩ := Token.writable_of_tokenize htokens
    change parse (us ++ [eof]) file = .ok script at h
    unfold parse at h
    split at h
    · next body c hread =>
      obtain rfl := Except.ok.inj h
      obtain ⟨ending, ts, hts, hspelt, heof, -⟩ := Reading.script_ok _ ⟨rfl, hended⟩ hread
      obtain ⟨t, rest, hrest⟩ := hts.opened.ended.exists_cons
      rw [Cursor.current_of_rest hrest] at heof
      obtain rfl : rest = [] := (hrest ▸ hts.opened.ended).eq_nil heof
      have hsame : us ++ [eof] = ts ++ [t] := hrest ▸ hts.rest
      obtain ⟨rfl, -⟩ := List.append_inj' hsame rfl
      exact .of_children trivial (List.forall_mem_map.2 (hspelt.allLegible hus))
    · cases h

end Scripting
