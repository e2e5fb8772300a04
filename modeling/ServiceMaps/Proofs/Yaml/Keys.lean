import ServiceMaps.Proofs.Yaml.Numbers
import ServiceMaps.Proofs.Yaml.Proper

/-!
The names that the keys of a mapping become. The name of a key that is no text says which key it is:
numbers have digits and truth values have none, a floating number has a point or an exponent, and
its digits read back as the number. So two different keys become the same name only if one of them
is a text and the other is not.
-/
namespace ServiceMaps

namespace Binary64

/-- The two layouts differ in the sign of a positive exponent. -/
theorem filter_plus_magnitudeText (d : Decimal) :
    (DecimalStyle.json.magnitudeText d).toList.filter (· ≠ '+') =
      (DecimalStyle.yaml.magnitudeText d).toList.filter (· ≠ '+') := by
  have hplace : DecimalStyle.json.positional = DecimalStyle.yaml.positional := rfl
  have hpoint : DecimalStyle.json.wholePoint = DecimalStyle.yaml.wholePoint := rfl
  have hexponent : ∀ e, (DecimalStyle.json.exponentText e).toList.filter (· ≠ '+') =
      (DecimalStyle.yaml.exponentText e).toList.filter (· ≠ '+') := by
    intro e
    by_cases he : e < 0 <;>
      simp [DecimalStyle.exponentText, DecimalStyle.json, DecimalStyle.yaml, he]
  simp only [DecimalStyle.magnitudeText, hplace, hpoint]
  split
  · rfl
  · simp only [String.toList_append, List.filter_append, hexponent]

/-- Without that sign the text of a number in JSON is its text in YAML. -/
theorem filter_plus_jsonText {x : Binary64} (hf : x.isFinite = true) :
    x.jsonText.toList.filter (· ≠ '+') = x.yamlText.toList := by
  obtain ⟨negative, cs, hs, hnum, -⟩ := Yaml.Datum.toList_yamlText hf
  have hplain : x.yamlText.toList.filter (· ≠ '+') = x.yamlText.toList := by
    refine List.filter_eq_self.mpr fun c hc => decide_eq_true ?_
    rintro rfl
    have hmem : '+' ∈ cs := by
      rw [hs] at hc
      cases negative <;> simpa [Yaml.withSign] using hc
    simpa [InNumeral, isDecimalDigit] using hnum.chars '+' hmem
  cases x with
  | finite s m q =>
    rw [← hplain, jsonText, if_pos hf, yamlText, text, text, String.toList_append,
      String.toList_append, List.filter_append, List.filter_append, filter_plus_magnitudeText]
  | infinite s => simp [isFinite] at hf
  | nan => simp [isFinite] at hf

/-- Different numbers have different texts. -/
theorem jsonText_injective {x y : Binary64} (hx : x.isFinite = true) (hy : y.isFinite = true)
    (cx : x.Canonical) (cy : y.Canonical) (h : x.jsonText = y.jsonText) : x = y := by
  have hyaml : x.yamlText.toList = y.yamlText.toList := by
    rw [← filter_plus_jsonText hx, ← filter_plus_jsonText hy, h]
  have hread := read?_yamlText hx cx
  rw [hyaml, read?_yamlText hy cy] at hread
  exact (Option.some.inj hread).symm

end Binary64

namespace Yaml.Key

/-- Whether a key is a text. -/
def isText : Key → Bool
  | .str _ => true
  | _ => false

/-- A floating number is finite and rounded to its format. -/
def Proper : Key → Prop
  | .float x => x.isFinite = true ∧ x.Canonical
  | _ => True

/-- The text of a number has a digit. -/
theorem exists_digit_int (n : Int) : ∃ c ∈ (Key.int n).text.toList, isDecimalDigit c = true := by
  obtain ⟨c, more, hc, hdigit⟩ := (numeralText_toDigits n.natAbs).head
  refine ⟨c, ?_, hdigit⟩
  rw [text, Datum.toList_toString_int, hc]
  cases decide (n < 0) <;> simp [withSign]

theorem exists_digit_float {x : Binary64} (h : (Key.float x).Proper) :
    ∃ c ∈ (Key.float x).text.toList, isDecimalDigit c = true := by
  obtain ⟨negative, cs, hs, hnum, -⟩ := Datum.toList_yamlText h.1
  obtain ⟨c, more, rfl, hdigit⟩ := hnum.head
  have hmem : c ∈ x.yamlText.toList := by
    rw [hs]
    cases negative <;> simp [withSign]
  rw [← Binary64.filter_plus_jsonText h.1] at hmem
  exact ⟨c, (List.mem_filter.mp hmem).1, hdigit⟩

theorem no_digit_bool (b : Bool) : ∀ c ∈ (Key.bool b).text.toList, isDecimalDigit c = false := by
  cases b with
  | true => simp [text, isDecimalDigit]
  | false => simp [text, isDecimalDigit]

/-- The text of a floating number has a point or an exponent, and that of a whole number has
neither. -/
theorem text_int_ne_float (n : Int) {x : Binary64} (h : (Key.float x).Proper) :
    (Key.int n).text ≠ (Key.float x).text := by
  obtain ⟨negative, cs, hs, -, c, hc, hpoint⟩ := Datum.toList_yamlText h.1
  intro heq
  have hmem : c ∈ x.yamlText.toList := by
    rw [hs]
    cases negative <;> simp [withSign, hc]
  rw [← Binary64.filter_plus_jsonText h.1] at hmem
  have hint : c ∈ (Key.int n).text.toList := by
    rw [heq]
    exact (List.mem_filter.mp hmem).1
  rw [text, Datum.toList_toString_int] at hint
  have hdigits : c ∉ Nat.toDigits 10 n.natAbs := by
    intro hd
    rcases hpoint with rfl | rfl <;> exact absurd (isDecimalDigit_toDigits hd) (by decide)
  have hdash : c ≠ '-' := by
    rcases hpoint with rfl | rfl <;> decide
  cases hneg : decide (n < 0) <;> simp [withSign, hneg, hdigits, hdash] at hint

/-- Keys that are no texts and become the same name are the same key. -/
theorem eq_of_text_eq {a b : Key} (ha : a.Proper) (hb : b.Proper) (hat : a.isText = false)
    (hbt : b.isText = false) (h : a.text = b.text) : a = b := by
  have hword : ∀ {c : Bool} {k : Key}, (∃ d ∈ k.text.toList, isDecimalDigit d = true) →
      (Key.bool c).text ≠ k.text := by
    rintro c k ⟨d, hd, hdigit⟩ heq
    rw [no_digit_bool c d (heq ▸ hd)] at hdigit
    simp at hdigit
  cases a with
  | bool c =>
    cases b with
    | bool d => cases c <;> cases d <;> simp_all [text]
    | int n => exact absurd h (hword (exists_digit_int n))
    | float y => exact absurd h (hword (exists_digit_float hb))
    | str t => simp [isText] at hbt
  | int m =>
    cases b with
    | bool d => exact absurd h.symm (hword (exists_digit_int m))
    | int n => rw [Int.repr_injective h]
    | float y => exact absurd h (text_int_ne_float m hb)
    | str t => simp [isText] at hbt
  | float x =>
    cases b with
    | bool d => exact absurd h.symm (hword (exists_digit_float ha))
    | int n => exact absurd h.symm (text_int_ne_float n ha)
    | float y => rw [Binary64.jsonText_injective ha.1 hb.1 ha.2 hb.2 h]
    | str t => simp [isText] at hbt
  | str s => simp [isText] at hat

theorem same_self {k : Key} (h : k.Proper) : k.same k = true := by
  cases k with
  | float x =>
    cases x with
    | finite s m q => simp [same, Binary64.same]
    | infinite s => simp [Proper, Binary64.isFinite] at h
    | nan => simp [Proper, Binary64.isFinite] at h
  | _ => simp [same]

/-- One key is a text that spells the other, which is no text. -/
def Spells (a b : Key) : Prop := a = .str b.text ∧ b.isText = false

instance (a b : Key) : Decidable (a.Spells b) := inferInstanceAs (Decidable (_ ∧ _))

theorem Spells.text_eq {a b : Key} (h : a.Spells b) : a.text = b.text := by rw [h.1, text]

theorem Spells.ne {a b : Key} (h : a.Spells b) : a ≠ b := by
  rintro rfl
  have htext := h.2
  rw [h.1] at htext
  simp [isText] at htext

/-- Different keys become the same name only if one of them spells the other. -/
theorem spells_of_text_eq {a b : Key} (ha : a.Proper) (hb : b.Proper) (hne : b.same a = false)
    (h : a.text = b.text) : a.Spells b ∨ b.Spells a := by
  have hdiffer : a ≠ b := by
    rintro rfl
    simp [same_self ha] at hne
  have hstr : ∀ {k : Key}, k.isText = true → k = .str k.text := by
    intro k hk
    cases k <;> simp_all [isText, text]
  cases hat : a.isText with
  | true =>
    cases hbt : b.isText with
    | true =>
      refine absurd ?_ hdiffer
      rw [hstr hat, hstr hbt, h]
    | false => exact .inl ⟨h ▸ hstr hat, hbt⟩
  | false =>
    cases hbt : b.isText with
    | true => exact .inr ⟨h.symm ▸ hstr hbt, hat⟩
    | false => exact absurd (eq_of_text_eq ha hb hat hbt h) hdiffer

end Yaml.Key

end ServiceMaps
