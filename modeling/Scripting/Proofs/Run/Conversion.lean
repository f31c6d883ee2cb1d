import Mathlib.Data.Nat.Digits.Defs
import Scripting.Proofs.Surface.Written
import Scripting.Proofs.Text.Trimming
import Scripting.Proofs.Token.Rendering
import Scripting.Proofs.Typing.Rules
import Scripting.Run.Operation
import Scripting.Typed.Conversion

/-!
# Conversions of values

What a numeral denotes is said by its digits (`Numeral`), apart from how it is read. A text converts to
an integer exactly if it is such a numeral between blanks, so that what is shown of a value reads back as
that value. Which conversions never fail is known from the types alone (`convert_agrees`).
-/

namespace Scripting

namespace Text

/-! ## Numerals -/

/-- One or more decimal digits, most significant first, and the number they denote. -/
def Digits (cs : List Char) (n : Nat) : Prop :=
  ∃ ds : List Nat, ds ≠ [] ∧ (∀ d ∈ ds, d < 10) ∧ cs = ds.map Nat.digitChar ∧ n = Nat.ofDigits 10 ds.reverse

/-- An optional sign and digits, and the number they denote. -/
inductive Numeral : List Char → Int → Prop
  | unsigned {cs n} (h : Digits cs n) : Numeral cs n
  | plus {cs n} (h : Digits cs n) : Numeral ('+' :: cs) n
  | minus {cs n} (h : Digits cs n) : Numeral ('-' :: cs) (-n)

theorem exists_digitChar {c : Char} (h : c.isDigit = true) : ∃ d < 10, c = Nat.digitChar d := by
  have hbounds : 48 ≤ c.toNat ∧ c.toNat ≤ 57 := by simpa [Char.isDigit, UInt32.le_iff_toNat_le] using h
  refine ⟨c.toNat - 48, by omega, Char.toNat_inj.1 ?_⟩
  rw [Nat.toNat_digitChar_of_lt_ten (by omega)]
  omega

theorem exists_map_digitChar {cs : List Char} (h : ∀ c ∈ cs, c.isDigit = true) :
    ∃ ds : List Nat, (∀ d ∈ ds, d < 10) ∧ cs = ds.map Nat.digitChar := by
  induction cs with
  | nil => exact ⟨[], by simp, rfl⟩
  | cons c cs ih =>
    obtain ⟨hc, hcs⟩ := List.forall_mem_cons.1 h
    obtain ⟨d, hd, rfl⟩ := exists_digitChar hc
    obtain ⟨ds, hds, rfl⟩ := ih hcs
    exact ⟨d :: ds, List.forall_mem_cons.2 ⟨hd, hds⟩, rfl⟩

/-- Taking the digits in from the left comes to weighing them from the right. -/
theorem digitsValue_map_digitChar {ds : List Nat} (h : ∀ d ∈ ds, d < 10) :
    digitsValue (ds.map Nat.digitChar) = Nat.ofDigits 10 ds.reverse := by
  rw [Nat.ofDigits_eq_foldr, List.foldr_reverse, digitsValue, List.foldl_map]
  refine List.foldl_ext _ _ _ fun n d hd => ?_
  rw [Nat.toNat_digitChar_of_lt_ten (h d hd), Nat.add_comm]
  exact congrArg (· + 10 * n) (Nat.add_sub_cancel_left 48 d)

theorem Digits.isDigit {cs : List Char} {n : Nat} (h : Digits cs n) : ∀ c ∈ cs, c.isDigit = true := by
  obtain ⟨ds, -, hds, rfl, -⟩ := h
  intro c hc
  obtain ⟨d, hd, rfl⟩ := List.mem_map.1 hc
  rw [Nat.isDigit_digitChar, decide_eq_true_eq]
  exact hds d hd

theorem readNat?_eq_some_iff {cs : List Char} {n : Nat} : readNat? cs = some n ↔ Digits cs n := by
  constructor
  · intro h
    simp only [readNat?, Option.ite_none_left_eq_some, Bool.or_eq_true, not_or, Bool.not_eq_true,
      Bool.not_eq_true', Bool.not_eq_false, List.isEmpty_eq_false_iff, List.all_eq_true,
      Option.some.injEq] at h
    obtain ⟨⟨hne, hdigits⟩, rfl⟩ := h
    obtain ⟨ds, hds, rfl⟩ := exists_map_digitChar hdigits
    exact ⟨ds, fun hnil => hne (by rw [hnil]; rfl), hds, rfl, digitsValue_map_digitChar hds⟩
  · intro h
    have hdigits : cs.all Char.isDigit = true := List.all_eq_true.2 h.isDigit
    obtain ⟨ds, hne, hds, rfl, rfl⟩ := h
    have hempty : (ds.map Nat.digitChar).isEmpty = false := by simpa using hne
    simp [readNat?, hdigits, hempty, digitsValue_map_digitChar hds]

theorem readInt?_eq_some_iff {cs : List Char} {m : Int} : readInt? cs = some m ↔ Numeral cs m := by
  constructor
  · intro h
    unfold readInt? at h
    split at h <;> obtain ⟨n, hn, rfl⟩ := Option.map_eq_some_iff.1 h
    · exact .minus (readNat?_eq_some_iff.1 hn)
    · exact .plus (readNat?_eq_some_iff.1 hn)
    · exact .unsigned (readNat?_eq_some_iff.1 hn)
  · intro h
    cases h with
    | unsigned h => exact readInt?_of_readNat? (readNat?_eq_some_iff.2 h)
    | plus h => exact Option.map_eq_some_iff.2 ⟨_, readNat?_eq_some_iff.2 h, rfl⟩
    | minus h => exact Option.map_eq_some_iff.2 ⟨_, readNat?_eq_some_iff.2 h, rfl⟩

theorem readInt32?_eq_some_iff {cs : List Char} {n : Int32} :
    readInt32? cs = some n ↔ Numeral cs n.toInt := by
  rw [← readInt?_eq_some_iff, readInt32?, Option.bind_eq_bind, Option.bind_eq_some_iff]
  constructor
  · rintro ⟨m, hm, hn⟩
    split at hn
    · next hfits =>
      cases hn
      rwa [Int32.toInt_ofInt_of_le hfits.1 hfits.2]
    · cases hn
  · intro h
    refine ⟨n.toInt, h, ?_⟩
    rw [if_pos ⟨n.le_toInt, n.toInt_lt⟩, Int32.ofInt_toInt]

theorem numeral_intDigits (m : Int) : Numeral (intDigits m) m := by
  have hdigits : ∀ k, Digits (natDigits k) k := fun k => readNat?_eq_some_iff.1 (readNat?_natDigits k)
  cases m with
  | ofNat n => exact .unsigned (hdigits n)
  | negSucc n => exact .minus (hdigits (n + 1))

theorem Numeral.not_isBlank {cs : List Char} {m : Int} (h : Numeral cs m) : ∀ c ∈ cs, isBlank c = false := by
  have hdigits : ∀ {cs : List Char} {n : Nat}, Digits cs n → ∀ c ∈ cs, isBlank c = false :=
    fun h c hc => Bool.eq_false_iff.2 fun hblank => Token.not_isDigit_of_isBlank hblank (h.isDigit c hc)
  cases h with
  | unsigned h => exact hdigits h
  | plus h => exact List.forall_mem_cons.2 ⟨rfl, hdigits h⟩
  | minus h => exact List.forall_mem_cons.2 ⟨rfl, hdigits h⟩

end Text

namespace Value

/-! ## There and back -/

/-- What is shown of a boolean or an integer holds no blanks. -/
theorem display_not_isBlank {v : Value} (h : v.type ≠ .string) :
    ∀ c ∈ v.display.toList, Text.isBlank c = false := by
  cases v with
  | boolean b =>
    have hwords : (boolean b).display.toList.all (fun c => !Text.isBlank c) = true := by cases b <;> decide
    intro c hc
    exact Bool.not_eq_eq_eq_not.1 (List.all_eq_true.1 hwords c hc)
  | int n =>
    rw [display, Text.showInt32, String.toList_ofList]
    exact (Text.numeral_intDigits n.toInt).not_isBlank
  | text s => exact absurd rfl h

theorem convert_text_display {v : Value} (h : v.type ≠ .string) {s : String}
    (hs : Text.trimBlanks s.toList = v.display.toList) : (text s).convert v.type = .ok v := by
  cases v with
  | boolean b =>
    show convert.refuseNone .boolean s ((readBoolean? (Text.trimBlanks s.toList)).map boolean) = _
    rw [hs]
    cases b <;> rfl
  | int n =>
    have hread : Text.readInt32? (display (int n)).toList = some n := by
      rw [display, Text.showInt32, String.toList_ofList]
      exact Text.readInt32?_eq_some_iff.2 (Text.numeral_intDigits n.toInt)
    show convert.refuseNone .int s ((Text.readInt32? (Text.trimBlanks s.toList)).map int) = _
    rw [hs, hread]
    rfl
  | text t => exact absurd rfl h

/-- What is shown of a boolean or an integer reads back as that value, also between blanks. -/
theorem convert_text_padded {v : Value} (h : v.type ≠ .string) {front back : String}
    (hfront : ∀ c ∈ front.toList, Text.isBlank c = true) (hback : ∀ c ∈ back.toList, Text.isBlank c = true) :
    (text (front ++ v.display ++ back)).convert v.type = .ok v := by
  refine convert_text_display h (Text.Trims.eq ?_)
  rw [String.toList_append, String.toList_append, List.append_assoc]
  exact Text.trims_of_not_isBlank hfront hback (display_not_isBlank h)

theorem convert_type (v : Value) : v.convert v.type = .ok v := by
  cases v <;> rfl

/-! ## Texts to integers -/

theorem convert_text_int_iff {s : String} {w : Value} :
    (text s).convert .int = .ok w ↔
      ∃ inner m, Text.Trims s.toList inner ∧ Text.Numeral inner m ∧ -2147483648 ≤ m ∧ m < 2147483648 ∧
        ∃ n : Int32, n.toInt = m ∧ w = .int n := by
  show convert.refuseNone .int s ((Text.readInt32? (Text.trimBlanks s.toList)).map int) = _ ↔ _
  constructor
  · intro h
    cases hread : Text.readInt32? (Text.trimBlanks s.toList) with
    | none => rw [hread] at h; cases h
    | some n =>
      rw [hread] at h
      cases h
      exact ⟨_, n.toInt, Text.trims_trimBlanks _, Text.readInt32?_eq_some_iff.1 hread, n.le_toInt, n.toInt_lt,
        n, rfl, rfl⟩
  · rintro ⟨inner, m, htrims, hnumeral, -, -, n, rfl, rfl⟩
    rw [htrims.eq, Text.readInt32?_eq_some_iff.2 hnumeral]
    rfl

/-! ## What the types say -/

theorem convert_of_isImplicit {v : Value} {source target : Ty} (h : v.HasType source)
    (hkind : (Conversion.classify source target).isImplicit = true) : v.convert target = .ok v := by
  rcases h with rfl | rfl
  · cases target <;> first | rfl | cases hkind
  · cases v <;> cases target <;> first | rfl | cases hkind

theorem convert_of_classify_none {v : Value} {source target : Ty} (h : v.HasType source)
    (hkind : Conversion.classify source target = .none) :
    v.convert target = .error (.error (.invalidConversion v.display target)) := by
  rcases h with rfl | rfl
  · cases target <;> first | rfl | cases hkind
  · cases v <;> cases target <;> first | rfl | cases hkind

/-- A value of the type that converts to as few types as any other. The empty text is neither a number
nor a truth value. -/
def sample : Ty → Value
  | .boolean => boolean true
  | .int => int 0
  | _ => text ""

theorem hasType_sample {t : Ty} (h : t.IsValue) : (sample t).HasType t := by
  cases t with
  | void => exact absurd rfl h.1
  | error => exact absurd rfl h.2
  | any => exact .inl rfl
  | boolean | int | string => exact .inr rfl

/-- Where the types promise nothing, the sample is refused. -/
theorem convert_sample {source target : Ty} (hsource : source.IsValue)
    (hkind : ¬ (Conversion.classify source target).isImplicit = true) (htarget : target ≠ .string) :
    (sample source).convert target = .error (.error (.invalidConversion (sample source).display target)) := by
  cases source with
  | void => exact absurd rfl hsource.1
  | error => exact absurd rfl hsource.2
  | any | boolean | int | string =>
    cases target <;> first | rfl | exact absurd rfl hkind | exact absurd rfl htarget

theorem convert_succeeds_iff {source target : Ty} (hsource : source.IsValue) :
    (∀ v : Value, v.HasType source → ∃ w, v.convert target = .ok w) ↔
      (Conversion.classify source target).isImplicit = true ∨ target = .string := by
  constructor
  · intro h
    by_contra hnot
    obtain ⟨hkind, htarget⟩ := not_or.1 hnot
    obtain ⟨w, hw⟩ := h (sample source) (hasType_sample hsource)
    rw [convert_sample hsource hkind htarget] at hw
    cases hw
  · rintro (hkind | rfl) v hv
    · exact ⟨v, convert_of_isImplicit hv hkind⟩
    · exact ⟨_, rfl⟩

/-- What is shown of a value reads back as that value, between blanks if it is no text; nothing is lost
by going through `any`. A conversion that need not be written keeps the value, one that does not exist
refuses every value, and those that never fail are the former and the ones to texts. A text converts to
the integer that it denotes, if it is a numeral between blanks and the integer fits in 32 bits. -/
theorem convert_agrees :
    (∀ v : Value, v.convert .string = .ok (.text v.display) ∧
      (v.type ≠ .string → ∀ front back : String, (∀ c ∈ front.toList, Text.isBlank c = true) →
        (∀ c ∈ back.toList, Text.isBlank c = true) →
        (text (front ++ v.display ++ back)).convert v.type = .ok v)) ∧
    (∀ v : Value, v.convert .any = .ok v ∧ v.convert v.type = .ok v) ∧
    (∀ (v : Value) (source target : Ty), v.HasType source →
      ((Conversion.classify source target).isImplicit = true → v.convert target = .ok v) ∧
      (Conversion.classify source target = .none →
        v.convert target = .error (.error (.invalidConversion v.display target)))) ∧
    (∀ source target : Ty, source.IsValue →
      ((∀ v : Value, v.HasType source → ∃ w, v.convert target = .ok w) ↔
        (Conversion.classify source target).isImplicit = true ∨ target = .string)) ∧
    (∀ (s : String) (w : Value), (text s).convert .int = .ok w ↔
      ∃ inner m, Text.Trims s.toList inner ∧ Text.Numeral inner m ∧ -2147483648 ≤ m ∧ m < 2147483648 ∧
        ∃ n : Int32, n.toInt = m ∧ w = .int n) := by
  refine ⟨fun v => ⟨rfl, fun h front back hfront hback => ?_⟩, fun v => ⟨rfl, convert_type v⟩,
    fun v source target hv => ⟨?_, ?_⟩, fun source target hsource => ?_, fun s w => ?_⟩
  · exact convert_text_padded h hfront hback
  · exact convert_of_isImplicit hv
  · exact convert_of_classify_none hv
  · exact convert_succeeds_iff hsource
  · exact convert_text_int_iff

/-- The least integer between an ideographic space and a line break, a sign and leading zeros, and a
conversion of each of the kinds that the types decide. -/
theorem numerals_convert_between_blanks :
    (text ("\u3000" ++ (int (-2147483648)).display ++ "\n")).convert .int = .ok (int (-2147483648)) ∧
      (text " +007").convert .int = .ok (int 7) ∧
      (boolean true).convert .any = .ok (boolean true) ∧
      (boolean true).convert .int = .error (.error (.invalidConversion "true" .int)) ∧
      ¬ ∀ v : Value, v.HasType .any → ∃ w, v.convert .int = .ok w := by
  obtain ⟨hshown, -, htypes, hnever, hnumeral⟩ := convert_agrees
  have hfront : "\u3000".toList.all Text.isBlank = true := by decide
  have hback : "\n".toList.all Text.isBlank = true := by decide
  refine ⟨?_, ?_, (htypes (boolean true) .boolean .any (.inr rfl)).1 rfl,
    (htypes (boolean true) .boolean .int (.inr rfl)).2 rfl, fun h => ?_⟩
  · exact (hshown (int (-2147483648))).2 (by decide) _ _ (List.all_eq_true.1 hfront) (List.all_eq_true.1 hback)
  · have htrims : Text.Trims " +007".toList "+007".toList := Text.trims_iff.2 (by decide)
    have hdigits : Text.Digits "007".toList 7 := ⟨[0, 0, 7], by decide, by decide, rfl, rfl⟩
    exact (hnumeral _ _).2 ⟨_, 7, htrims, .plus hdigits, by decide, by decide, 7, rfl, rfl⟩
  · have hkind := (hnever .any .int ⟨by decide, by decide⟩).1 h
    exact absurd hkind (by decide)

end Value

end Scripting
