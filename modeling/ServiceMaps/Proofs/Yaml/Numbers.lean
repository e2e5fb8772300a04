import ServiceMaps.Proofs.Number.Numerals
import ServiceMaps.Proofs.Yaml.Styles

/-!
Numbers as plain scalars. The text of a number fits a plain scalar, is none of the words that stand
for something else, and is read as the number: whole if it has digits only, floating if it has a
point or an exponent.
-/
namespace ServiceMaps.Yaml

theorem mem_digits {c : Char} (h : isDecimalDigit c = true) :
    c ∈ ['0', '1', '2', '3', '4', '5', '6', '7', '8', '9'] := by
  simp only [isDecimalDigit, Bool.and_eq_true, decide_eq_true_eq] at h
  have hlow : 48 ≤ c.toNat := h.1
  have hhigh : c.toNat ≤ 57 := h.2
  have hall : ∀ n, n ≤ 9 → Char.ofNat (48 + n) ∈
      ['0', '1', '2', '3', '4', '5', '6', '7', '8', '9'] := by decide
  have hc := hall (c.toNat - 48) (by omega)
  rwa [Nat.add_sub_cancel' hlow, Char.ofNat_toNat] at hc

/-- The characters of numerals mean nothing in a plain scalar. -/
structure Harmless (c : Char) : Prop where
  printable : Style.isPrintable c = true
  line : isBreak c = false
  space : c ≠ ' '
  colon : c ≠ ':'
  sharp : c ≠ '#'
  gap : Style.isGap c = false
  first : Style.neverFirst c = false

instance (c : Char) : Decidable (Harmless c) :=
  decidable_of_iff (Style.isPrintable c = true ∧ isBreak c = false ∧ c ≠ ' ' ∧ c ≠ ':' ∧ c ≠ '#' ∧
      Style.isGap c = false ∧ Style.neverFirst c = false)
    ⟨fun ⟨h₁, h₂, h₃, h₄, h₅, h₆, h₇⟩ => ⟨h₁, h₂, h₃, h₄, h₅, h₆, h₇⟩,
      fun ⟨h₁, h₂, h₃, h₄, h₅, h₆, h₇⟩ => ⟨h₁, h₂, h₃, h₄, h₅, h₆, h₇⟩⟩

theorem harmless_of_inNumeral {c : Char} (h : InNumeral c) : Harmless c := by
  rcases h with h | rfl | rfl | rfl
  · have hc := mem_digits h
    simp only [List.mem_cons, List.not_mem_nil, or_false] at hc
    rcases hc with rfl | rfl | rfl | rfl | rfl | rfl | rfl | rfl | rfl | rfl <;> decide
  · decide
  · decide
  · decide

namespace Style

theorem meets_eq_false {first second : Char → Bool} {cs : List Char}
    (h : ∀ c ∈ cs, first c = false) : meets first second cs = false := by
  induction cs with
  | nil => rfl
  | cons c rest ih =>
    obtain ⟨hc, hrest⟩ := List.forall_mem_cons.mp h
    cases rest with
    | nil => rfl
    | cons d more => simp [meets, hc, ih hrest]

theorem hasMark_eq_false {cs : List Char} (h : ∀ c ∈ cs, c ≠ ':' ∧ c ≠ '#') (afterGap : Bool) :
    hasMark afterGap cs = false := by
  induction cs generalizing afterGap with
  | nil => rfl
  | cons c rest ih =>
    obtain ⟨⟨hcolon, hsharp⟩, hrest⟩ := List.forall_mem_cons.mp h
    simp [hasMark, hcolon, hsharp, ih hrest]

/-- A text of harmless characters is plain, unless its first characters say otherwise. -/
theorem fitsPlain_of_harmless {cs : List Char} (h : ∀ c ∈ cs, Harmless c)
    (hi : hasIndicator cs = false) : FitsPlain cs where
  printable c hc := (h c hc).printable
  spaceBreak := meets_eq_false fun c hc => by simpa [isSpace] using (h c hc).space
  breakSpace := meets_eq_false fun c hc => (h c hc).line
  line c hc := (h c hc).line
  head hs := (h ' ' (List.mem_of_mem_head? hs)).space rfl
  last hs := (h ' ' (List.mem_of_getLast? hs)).space rfl
  indicator := hi

end Style

/-- The sign before a numeral. -/
def withSign (negative : Bool) (cs : List Char) : List Char := if negative then '-' :: cs else cs

variable {cs : List Char}

theorem fitsPlain_numeral (negative : Bool) (h : NumeralText cs) :
    Style.FitsPlain (withSign negative cs) := by
  obtain ⟨⟨c, more, rfl, hc⟩, hchars⟩ := h
  have hharmless : ∀ d ∈ c :: more, Harmless d := fun d hd => harmless_of_inNumeral (hchars d hd)
  have hdash : Harmless '-' := harmless_of_inNumeral (.inr (.inr (.inr rfl)))
  have hfirst : c ≠ '-' ∧ c ≠ '.' ∧ c ≠ '?' ∧ c ≠ ':' := by
    refine ⟨?_, ?_, ?_, ?_⟩ <;> rintro rfl <;> exact absurd hc (by decide)
  have hmark : ∀ afterGap, Style.hasMark afterGap more = false :=
    Style.hasMark_eq_false fun d hd =>
      ⟨(hharmless d (List.mem_cons_of_mem c hd)).colon,
        (hharmless d (List.mem_cons_of_mem c hd)).sharp⟩
  have hnever := (hharmless c (by simp)).first
  have hstart : Style.hasIndicator (c :: more) = false := by
    simp [Style.hasIndicator, List.isPrefixOf, hfirst.1.symm, hfirst.2.1.symm, hfirst, hnever,
      hmark]
  cases negative with
  | false => exact Style.fitsPlain_of_harmless hharmless hstart
  | true =>
    refine Style.fitsPlain_of_harmless (List.forall_mem_cons.mpr ⟨hdash, hharmless⟩) ?_
    rw [withSign, if_pos rfl]
    have hgap := (hharmless c (by simp)).gap
    have hall := Style.hasMark_eq_false fun d hd =>
      ⟨(hharmless d hd).colon, (hharmless d hd).sharp⟩
    simp [Style.hasIndicator, List.isPrefixOf, hfirst.1.symm, hdash.first, Style.startsGap, hgap,
      hall]

theorem withSign_ne_nil (negative : Bool) (h : NumeralText cs) : withSign negative cs ≠ [] := by
  obtain ⟨⟨c, more, rfl, -⟩, -⟩ := h
  cases negative <;> simp [withSign]

/-- Whether a text starts as a numeral with its sign does. -/
def startsNumeral : List Char → Bool
  | [] => false
  | c :: rest => if c = '-' then rest.head?.any isDecimalDigit else isDecimalDigit c

theorem startsNumeral_withSign (negative : Bool) (h : NumeralText cs) :
    startsNumeral (withSign negative cs) = true := by
  obtain ⟨c, more, rfl, hc⟩ := h.head
  have hdash : c ≠ '-' := by
    rintro rfl
    exact absurd hc (by decide)
  cases negative <;> simp [withSign, startsNumeral, hc, hdash]

/-- A text that starts as a numeral is none of the words that stand for something else. -/
theorem ne_word {s word : String} (hs : startsNumeral s.toList = true)
    (hw : startsNumeral word.toList = false) : s ≠ word := by
  rintro rfl
  simp [hs] at hw

namespace Datum

variable {s : String}

/-- A text that starts as a numeral is neither null nor a truth value. -/
theorem not_word (hs : startsNumeral s.toList = true) :
    (decide (s = "") || isNullWord s) = false ∧ truth? s = none := by
  have hne : ∀ word : String, startsNumeral word.toList = false → s ≠ word := fun _ => ne_word hs
  constructor
  · simp [isNullWord, hne "" rfl, hne "null" rfl, hne "Null" rfl, hne "NULL" rfl, hne "~" rfl]
  · simp [truth?, hne "true" rfl, hne "True" rfl, hne "TRUE" rfl, hne "false" rfl, hne "False" rfl,
      hne "FALSE" rfl]

theorem ofPlain?_whole (hs : startsNumeral s.toList = true) {n : Int} (hw : whole? s = some n)
    (hf : fits 64 n = true) : ofPlain? s = some (.int n) := by
  obtain ⟨hnull, htruth⟩ := not_word hs
  have hwide : fits 128 n = true := by
    simp only [fits, Bool.and_eq_true, decide_eq_true_eq] at hf ⊢
    omega
  simp [ofPlain?, hnull, htruth, hw, Option.filter, hwide, hf]

theorem ofPlain?_floating (hs : startsNumeral s.toList = true) (hw : whole? s = none)
    (hp : isPadded s.toList = false) {x : Binary64} (hx : float? s = some x) :
    ofPlain? s = some (.float x) := by
  obtain ⟨hnull, htruth⟩ := not_word hs
  simp [ofPlain?, hnull, htruth, hw, hp, hx]

theorem float?_numeral (hs : startsNumeral s.toList = true) :
    float? s = ((Literal.read? s.toList).map Literal.value).filter Binary64.isFinite := by
  have hne : ∀ word : String, startsNumeral word.toList = false → s ≠ word := fun _ => ne_word hs
  rw [float?, if_neg, if_neg, if_neg]
  · simp [hne ".nan" rfl, hne ".NaN" rfl, hne ".NAN" rfl]
  · simp [hne "-.inf" rfl, hne "-.Inf" rfl, hne "-.INF" rfl]
  · simp [isInfinityWord, hne ".inf" rfl, hne ".Inf" rfl, hne ".INF" rfl, hne "+.inf" rfl,
      hne "+.Inf" rfl, hne "+.INF" rfl]

/-- A sign is dropped and nothing else. -/
theorem dropSign_withSign (negative : Bool) (h : NumeralText cs) :
    dropSign (withSign negative cs) = cs := by
  obtain ⟨c, more, rfl, hc⟩ := h.head
  cases negative with
  | true => rfl
  | false =>
    rw [withSign, if_neg (by simp), dropSign.eq_def]
    split
    · exact absurd hc (by simp_all [isDecimalDigit])
    · exact absurd hc (by simp_all [isDecimalDigit])
    · rfl

/-- No numeral has the mark of another base. -/
theorem magnitude?_numeral (h : NumeralText cs) :
    magnitude? cs = if isPadded cs then none else ServiceMaps.whole? 10 cs := by
  have hno : ∀ c, c = 'x' ∨ c = 'o' ∨ c = 'b' → c ∉ cs := by
    rintro c hc hmem
    have hin := h.chars c hmem
    rcases hc with rfl | rfl | rfl <;> simp [InNumeral, isDecimalDigit] at hin
  rw [magnitude?.eq_def]
  split
  · exact absurd (by simp) (hno 'x' (by simp))
  · exact absurd (by simp) (hno 'o' (by simp))
  · exact absurd (by simp) (hno 'b' (by simp))
  · rfl

theorem whole?_withSign (negative : Bool) (hs : s.toList = withSign negative cs)
    (h : NumeralText cs) : whole? s =
      (magnitude? cs).map fun n : Nat => if negative then -(n : Int) else n := by
  obtain ⟨c, more, rfl, hc⟩ := h.head
  rw [whole?, hs]
  cases negative with
  | true => cases hm : magnitude? (c :: more) <;> simp [withSign, hm]
  | false =>
    rw [withSign, if_neg (by simp)]
    split
    · exact absurd hc (by simp_all [isDecimalDigit])
    · exact absurd hc (by simp_all [isDecimalDigit])
    · cases magnitude? (c :: more) <;> simp

/-- Digits without a needless zero are a whole number. -/
theorem magnitude?_toDigits (n : Nat) : magnitude? (Nat.toDigits 10 n) = some n := by
  have hpadded : isPadded (Nat.toDigits 10 n) = false := by
    have hdrop := dropSign_withSign false (numeralText_toDigits n)
    simp only [withSign, Bool.false_eq_true, if_false] at hdrop
    rw [isPadded, hdrop]
    rcases Nat.eq_zero_or_pos n with rfl | hpos
    · rfl
    · simp [head?_toDigits hpos]
  rw [magnitude?_numeral (numeralText_toDigits n), hpadded, if_neg (by simp), whole?_toDigits]

theorem toList_toString_int (n : Int) :
    (toString n).toList = withSign (decide (n < 0)) (Nat.toDigits 10 n.natAbs) := by
  cases n with
  | ofNat n => simp [toString, Int.repr, withSign]
  | negSucc n => simp [toString, Int.repr, withSign]

/-- A whole number is read back from its digits. -/
theorem ofPlain?_int {n : Int} (h : fits 64 n = true) : ofPlain? (toString n) = some (.int n) := by
  have hs := toList_toString_int n
  have hnum := numeralText_toDigits n.natAbs
  have hwhole : whole? (toString n) = some n := by
    have habs : (if decide (n < 0) = true then -(n.natAbs : Int) else n.natAbs) = n := by
      split
      · rename_i hneg
        simp only [decide_eq_true_eq] at hneg
        omega
      · rename_i hpos
        simp only [decide_eq_true_eq] at hpos
        omega
    rw [whole?_withSign _ hs hnum, magnitude?_toDigits, Option.map_some, habs]
  have hstart : startsNumeral (toString n).toList = true := by
    rw [hs]
    exact startsNumeral_withSign _ hnum
  exact ofPlain?_whole hstart hwhole h

theorem toList_yamlText {x : Binary64} (hf : x.isFinite = true) :
    ∃ negative cs, x.yamlText.toList = withSign negative cs ∧ NumeralText cs ∧
      ∃ c ∈ cs, c = '.' ∨ c = 'e' := by
  cases x with
  | infinite s => simp [Binary64.isFinite] at hf
  | nan => simp [Binary64.isFinite] at hf
  | finite s m q =>
    obtain ⟨hnum, hpoint⟩ := numeralText_magnitudeText (Decimal.shortest m q)
    refine ⟨s, _, ?_, hnum, hpoint⟩
    cases s <;> simp [Binary64.yamlText, Binary64.text, withSign]

/-- A finite floating number is read back from its shortest text. -/
theorem ofPlain?_float {x : Binary64} (hf : x.isFinite = true) (hc : x.Canonical) :
    ofPlain? x.yamlText = some (.float x) := by
  have hread := Binary64.read?_yamlText hf hc
  obtain ⟨negative, cs, hs, hnum, c, hmem, hpoint⟩ : ∃ negative cs, x.yamlText.toList =
      withSign negative cs ∧ NumeralText cs ∧ ∃ c ∈ cs, c = '.' ∨ c = 'e' := toList_yamlText hf
  have hstart : startsNumeral x.yamlText.toList = true := by
    rw [hs]
    exact startsNumeral_withSign negative hnum
  have hdigit : isDecimalDigit c = false ∧ digitValue? 10 c = none := by
    rcases hpoint with rfl | rfl <;> exact ⟨by decide, by decide⟩
  have hpadded : isPadded x.yamlText.toList = false := by
    have hall : cs.all isDecimalDigit = false := List.all_eq_false.mpr ⟨c, hmem, by simp [hdigit.1]⟩
    rw [hs, isPadded, dropSign_withSign negative hnum, hall]
    simp
  have hwhole : whole? x.yamlText = none := by
    rw [whole?_withSign negative hs hnum, magnitude?_numeral hnum, whole?_eq_none hmem hdigit.2]
    simp
  have hfloat : float? x.yamlText = some x := by
    rw [float?_numeral hstart, hread]
    simp [Option.filter, hf]
  exact ofPlain?_floating hstart hwhole hpadded hfloat

end Datum

/-- The plain scalars of values that are no texts. -/
theorem fitsPlain_int (n : Int) : Style.FitsPlain (toString n).toList := by
  rw [Datum.toList_toString_int]
  exact fitsPlain_numeral _ (numeralText_toDigits _)

theorem fitsPlain_float {x : Binary64} (hf : x.isFinite = true) :
    Style.FitsPlain x.yamlText.toList := by
  obtain ⟨negative, cs, hs, hnum, -⟩ := Datum.toList_yamlText hf
  rw [hs]
  exact fitsPlain_numeral negative hnum

end ServiceMaps.Yaml
