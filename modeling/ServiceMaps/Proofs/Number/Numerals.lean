import ServiceMaps.Proofs.Number.Shortest
import ServiceMaps.Number.Literal

/-!
Numerals are read as the numbers that they were written for. A whole number is its digits; the text
of a decimal number has its digits with a point or an exponent, and every layout spells the same
value.
-/
namespace ServiceMaps

theorem digitValue?_decimal {c : Char} (h : isDecimalDigit c = true) :
    digitValue? 10 c = some (c.toNat - '0'.toNat) := by
  have hrange := h
  simp only [isDecimalDigit, Bool.and_eq_true, decide_eq_true_eq] at hrange
  have hlt : c.toNat - 48 < 10 := by
    have hle : c.toNat ≤ 57 := hrange.2
    omega
  simp only [isDecimalDigit] at h
  simp [digitValue?, h, hlt, Option.filter]

theorem spelledFrom_digits {cs : List Char} (h : ∀ c ∈ cs, isDecimalDigit c = true) (n : Nat) :
    spelledFrom 10 n cs = some (Nat.ofDigitChars 10 cs n) := by
  induction cs generalizing n with
  | nil => rfl
  | cons c rest ih =>
    obtain ⟨hc, hrest⟩ := List.forall_mem_cons.mp h
    simp [spelledFrom, digitValue?_decimal hc, ih hrest, Nat.ofDigitChars_cons, Nat.mul_comm]

theorem whole?_digits {cs : List Char} (hn : cs ≠ []) (h : ∀ c ∈ cs, isDecimalDigit c = true) :
    whole? 10 cs = some (Nat.ofDigitChars 10 cs 0) := by
  cases cs with
  | nil => exact absurd rfl hn
  | cons c rest => exact spelledFrom_digits h 0

/-- A character that is no digit of the base spoils a whole number. -/
theorem whole?_eq_none {base : Nat} {cs : List Char} {c : Char} (hc : c ∈ cs)
    (h : digitValue? base c = none) : whole? base cs = none := by
  have hspelled : ∀ n, spelledFrom base n cs = none := by
    induction cs with
    | nil => simp at hc
    | cons d rest ih =>
      intro n
      rcases List.mem_cons.mp hc with rfl | hc
      · simp [spelledFrom, h]
      · cases hd : digitValue? base d with
        | none => simp [spelledFrom, hd]
        | some v => simp [spelledFrom, hd, ih hc]
  cases cs with
  | nil => rfl
  | cons d rest => exact hspelled 0

theorem isDecimalDigit_toDigits {n : Nat} {c : Char} (h : c ∈ Nat.toDigits 10 n) :
    isDecimalDigit c = true := by
  have hdigit : c.isDigit = true := Nat.isDigit_of_mem_toDigits (by decide) (by decide) h
  simpa [Char.isDigit, isDecimalDigit, Char.le_def] using hdigit

theorem whole?_toDigits (n : Nat) : whole? 10 (Nat.toDigits 10 n) = some n := by
  rw [whole?_digits Nat.toDigits_ne_nil fun c hc => isDecimalDigit_toDigits hc,
    Nat.ofDigitChars_ten_toDigits]

/-- Only the number zero starts with a zero. -/
theorem head?_toDigits {n : Nat} (h : 0 < n) : (Nat.toDigits 10 n).head? ≠ some '0' := by
  induction n using Nat.strongRecOn with
  | ind n ih =>
    by_cases hlt : n < 10
    · rw [Nat.toDigits_of_lt_base hlt]
      have hall : ∀ d : Fin 10, 0 < d.val → [d.val.digitChar].head? ≠ some '0' := by decide
      exact hall ⟨n, hlt⟩ h
    · rw [Nat.toDigits_of_base_le (by decide) (by omega)]
      have hne : Nat.toDigits 10 (n / 10) ≠ [] := Nat.toDigits_ne_nil
      rw [List.head?_append_of_ne_nil _ hne]
      exact ih (n / 10) (by omega) (by omega)

namespace Literal

open Binary64

theorem split_digits {ds tail : List Char} (hd : ∀ c ∈ ds, isDecimalDigit c = true)
    (ht : ∀ c ∈ tail.head?, isDecimalDigit c = false) :
    (ds ++ tail).takeWhile isDecimalDigit = ds ∧ (ds ++ tail).dropWhile isDecimalDigit = tail := by
  rw [List.takeWhile_append_of_pos hd, List.dropWhile_append_of_pos hd]
  cases tail with
  | nil => simp
  | cons c rest =>
    have hc : isDecimalDigit c = false := ht c rfl
    simp [hc]

variable {before after tail : List Char} {e : Int}

/-- Digits, a point, further digits and an exponent. -/
theorem unsigned?_point (s : Bool) (hb : ∀ c ∈ before, isDecimalDigit c = true)
    (ha : ∀ c ∈ after, isDecimalDigit c = true) (hn : before ≠ []) (he : exponent? tail = some e)
    (ht : ∀ c ∈ tail.head?, isDecimalDigit c = false) :
    unsigned? s (before ++ '.' :: (after ++ tail)) =
      some ⟨s, Nat.ofDigitChars 10 (before ++ after) 0, e - after.length⟩ := by
  have hpoint : ∀ c ∈ ('.' :: (after ++ tail)).head?, isDecimalDigit c = false := by
    simp [isDecimalDigit]
  have hall : ∀ c ∈ before ++ after, isDecimalDigit c = true := by
    intro c hc
    exact (List.mem_append.mp hc).elim (hb c) (ha c)
  obtain ⟨hfront, hrest⟩ := split_digits hb hpoint
  obtain ⟨hafter, htail⟩ := split_digits ha ht
  have hwhole := whole?_digits (by simp [hn]) hall
  simp only [unsigned?, hfront, hrest, hafter, htail, hwhole, he]
  rfl

/-- Digits and an exponent without a point. -/
theorem unsigned?_whole (s : Bool) (hb : ∀ c ∈ before, isDecimalDigit c = true) (hn : before ≠ [])
    (he : exponent? tail = some e) (ht : ∀ c ∈ tail.head?, isDecimalDigit c = false ∧ c ≠ '.') :
    unsigned? s (before ++ tail) = some ⟨s, Nat.ofDigitChars 10 before 0, e⟩ := by
  obtain ⟨hfront, hrest⟩ := split_digits hb fun c hc => (ht c hc).1
  have hwhole := whole?_digits hn hb
  simp only [unsigned?, hfront, hrest]
  split
  · exact absurd rfl (ht '.' rfl).2
  · simp [hwhole, he]

/-- An exponent is read behind its letter. -/
theorem exponent?_text (e : Int) :
    exponent? ('e' :: (DecimalStyle.yaml.exponentText e).toList) = some e := by
  have hplain : signed? 10 (Nat.toDigits 10 e.natAbs) = some (e.natAbs : Int) := by
    have hdigit : ∀ c ∈ Nat.toDigits 10 e.natAbs, isDecimalDigit c = true :=
      fun c hc => isDecimalDigit_toDigits hc
    have hwhole := whole?_toDigits e.natAbs
    generalize Nat.toDigits 10 e.natAbs = cs at *
    rw [signed?.eq_def]
    split
    · exact absurd (hdigit '+' (by simp)) (by decide)
    · exact absurd (hdigit '-' (by simp)) (by decide)
    · simp [hwhole]
  rw [exponent?, if_pos (by decide), DecimalStyle.exponentText]
  by_cases he : e < 0
  · have habs : -|e| = e := by rw [abs_of_neg he, neg_neg]
    simp [he, signed?, whole?_toDigits, habs]
  · simp [he, DecimalStyle.yaml, hplain, abs_of_nonneg (not_lt.mp he)]

theorem isDecimalDigit_zeros (n : Nat) : ∀ c ∈ List.replicate n '0', isDecimalDigit c = true := by
  intro c hc
  rw [List.eq_of_mem_replicate hc]
  decide

section Layouts

variable {ds : List Char} (hd : ∀ c ∈ ds, isDecimalDigit c = true) (hn : ds ≠ [])

include hd

/-- The point stands before the digits, perhaps with zeros between. -/
theorem unsigned?_before (s : Bool) (n : Nat) :
    unsigned? s ('0' :: '.' :: (List.replicate n '0' ++ ds)) =
      some ⟨s, Nat.ofDigitChars 10 ds 0, -(n + ds.length : Int)⟩ := by
  have hzero : ∀ c ∈ ['0'], isDecimalDigit c = true := isDecimalDigit_zeros 1
  have hafter : ∀ c ∈ List.replicate n '0' ++ ds, isDecimalDigit c = true := fun c hc =>
    (List.mem_append.mp hc).elim (isDecimalDigit_zeros n c) (hd c)
  have hread : unsigned? s (['0'] ++ '.' :: (List.replicate n '0' ++ ds ++ [])) = _ :=
    unsigned?_point s hzero hafter (by simp) rfl nofun
  simpa [Nat.ofDigitChars_append, Nat.ofDigitChars_cons] using hread

include hn

/-- The point stands behind the digits, perhaps with zeros between. -/
theorem unsigned?_behind (s : Bool) (n : Nat) :
    unsigned? s (ds ++ List.replicate n '0' ++ ['.', '0']) =
      some ⟨s, 10 * (10 ^ n * Nat.ofDigitChars 10 ds 0), -1⟩ := by
  have hzero : ∀ c ∈ ['0'], isDecimalDigit c = true := isDecimalDigit_zeros 1
  have hbefore : ∀ c ∈ ds ++ List.replicate n '0', isDecimalDigit c = true := fun c hc =>
    (List.mem_append.mp hc).elim (hd c) (isDecimalDigit_zeros n c)
  have hread : unsigned? s (ds ++ List.replicate n '0' ++ '.' :: (['0'] ++ [])) = _ :=
    unsigned?_point s hbefore hzero (by simp [hn]) rfl nofun
  simpa [Nat.ofDigitChars_append, Nat.ofDigitChars_cons] using hread

/-- The point stands among the digits. -/
theorem unsigned?_among (s : Bool) {n : Nat} (h : 0 < n) :
    unsigned? s (ds.take n ++ '.' :: ds.drop n) =
      some ⟨s, Nat.ofDigitChars 10 ds 0, -(ds.drop n).length⟩ := by
  have hread : unsigned? s (ds.take n ++ '.' :: (ds.drop n ++ [])) = _ :=
    unsigned?_point s (fun c hc => hd c (List.mem_of_mem_take hc))
      (fun c hc => hd c (List.mem_of_mem_drop hc)) (by simp [hn]; omega) rfl nofun
  simpa using hread

/-- The point stands behind the first digit, unless it is the only one, and an exponent follows. -/
theorem unsigned?_scientific (s : Bool) (e : Int) :
    unsigned? s (ds.take 1 ++ (if (ds.drop 1).isEmpty then [] else '.' :: ds.drop 1)
        ++ 'e' :: (DecimalStyle.yaml.exponentText e).toList) =
      some ⟨s, Nat.ofDigitChars 10 ds 0, e - (ds.drop 1).length⟩ := by
  have hletter : isDecimalDigit 'e' = false := by decide
  cases hdrop : ds.drop 1 with
  | nil =>
    have htake : ds.take 1 = ds := by
      rw [← List.append_nil (ds.take 1), ← hdrop, List.take_append_drop]
    simpa [htake] using unsigned?_whole s hd hn (exponent?_text e) (by simp [hletter])
  | cons c rest =>
    have hfirst : ds.take 1 ≠ [] := by simp [hn]
    have hmore : ∀ c ∈ ds.drop 1, isDecimalDigit c = true := fun c hc =>
      hd c (List.mem_of_mem_drop hc)
    have hread := unsigned?_point s (fun c hc => hd c (List.mem_of_mem_take hc)) hmore hfirst
      (exponent?_text e) (by simp [hletter])
    rw [List.take_append_drop, hdrop] at hread
    simpa using hread

end Layouts

/-- The layouts of digits with the exponent `e`: a point before, behind or among the digits, or an
exponent behind them. -/
inductive Pointed (ds : List Char) (e : Int) : List Char → Prop where
  | before (n : Nat) : e = -(n + ds.length : Int) →
      Pointed ds e ('0' :: '.' :: (List.replicate n '0' ++ ds))
  | behind (n : Nat) : e = n → Pointed ds e (ds ++ List.replicate n '0' ++ ['.', '0'])
  | among {n : Nat} : 0 < n → e = -((ds.drop n).length : Int) →
      Pointed ds e (ds.take n ++ '.' :: ds.drop n)
  | scientific (p : Int) : e = p - (ds.drop 1).length →
      Pointed ds e (ds.take 1 ++ (if (ds.drop 1).isEmpty then [] else '.' :: ds.drop 1)
        ++ 'e' :: (DecimalStyle.yaml.exponentText p).toList)

theorem pointed_magnitudeText (d : Decimal) :
    Pointed (Nat.toDigits 10 d.digits) d.exponent (DecimalStyle.yaml.magnitudeText d).toList := by
  have hlen : 0 < (Nat.toDigits 10 d.digits).length :=
    List.length_pos_iff.mpr Nat.toDigits_ne_nil
  simp only [DecimalStyle.magnitudeText]
  generalize Nat.toDigits 10 d.digits = ds at *
  by_cases hplace : DecimalStyle.yaml.positional (ds.length + d.exponent) = true
  · rw [if_pos hplace]
    by_cases hbefore : ds.length + d.exponent ≤ 0
    · rw [if_pos hbefore, String.toList_ofList]
      exact .before _ (by omega)
    · rw [if_neg hbefore]
      by_cases hbehind : (ds.length : Int) ≤ ds.length + d.exponent
      · have hpoint : (if DecimalStyle.yaml.wholePoint = true then ".0" else "").toList =
            ['.', '0'] := rfl
        rw [if_pos hbehind, String.toList_append, String.toList_ofList, hpoint]
        exact .behind _ (by omega)
      · rw [if_neg hbehind, String.toList_ofList]
        refine .among (by omega) ?_
        rw [List.length_drop]
        omega
  · have hletter : "e".toList = ['e'] := rfl
    rw [if_neg hplace, String.toList_append, String.toList_append, String.toList_ofList, hletter,
      List.append_assoc _ ['e'], List.singleton_append]
    refine .scientific _ ?_
    rw [List.length_drop]
    omega

/-- Every layout of a decimal number spells its value. -/
theorem unsigned?_magnitudeText (s : Bool) (d : Decimal) :
    ∃ digits exponent, unsigned? s (DecimalStyle.yaml.magnitudeText d).toList =
        some ⟨s, digits, exponent⟩ ∧ (digits = 0 ↔ d.digits = 0) ∧
      decimalValue digits exponent = decimalValue d.digits d.exponent := by
  have hd : ∀ c ∈ Nat.toDigits 10 d.digits, isDecimalDigit c = true :=
    fun c hc => isDecimalDigit_toDigits hc
  have hn : Nat.toDigits 10 d.digits ≠ [] := Nat.toDigits_ne_nil
  have hvalue : Nat.ofDigitChars 10 (Nat.toDigits 10 d.digits) 0 = d.digits :=
    Nat.ofDigitChars_ten_toDigits
  have hpointed := pointed_magnitudeText d
  generalize (DecimalStyle.yaml.magnitudeText d).toList = cs at *
  cases hpointed with
  | before n he =>
    rw [unsigned?_before hd, hvalue]
    exact ⟨_, _, rfl, Iff.rfl, by rw [he]⟩
  | behind n he =>
    rw [unsigned?_behind hd hn, hvalue]
    refine ⟨_, _, rfl, by simp, ?_⟩
    rw [decimalValue, decimalValue, he, zpow_natCast, zpow_neg_one]
    push_cast
    ring
  | among hpos he =>
    rw [unsigned?_among hd hn s hpos, hvalue]
    exact ⟨_, _, rfl, Iff.rfl, by rw [he]⟩
  | scientific p he =>
    rw [unsigned?_scientific hd hn, hvalue]
    exact ⟨_, _, rfl, Iff.rfl, by rw [he]⟩

end Literal

/-- The characters of numerals. -/
def InNumeral (c : Char) : Prop := isDecimalDigit c = true ∨ c = '.' ∨ c = 'e' ∨ c = '-'

/-- What numerals look like without their sign: a digit comes first. -/
structure NumeralText (cs : List Char) : Prop where
  head : ∃ c more, cs = c :: more ∧ isDecimalDigit c = true
  chars : ∀ c ∈ cs, InNumeral c

theorem NumeralText.append {cs more : List Char} (h : NumeralText cs)
    (hm : ∀ c ∈ more, InNumeral c) :
    NumeralText (cs ++ more) := by
  obtain ⟨c, rest, rfl, hc⟩ := h.head
  exact ⟨⟨c, rest ++ more, rfl, hc⟩, fun d hd => (List.mem_append.mp hd).elim (h.chars d) (hm d)⟩

theorem numeralText_digits {cs : List Char} (hn : cs ≠ []) (h : ∀ c ∈ cs, isDecimalDigit c = true) :
    NumeralText cs := by
  obtain ⟨c, rest, rfl⟩ := List.exists_cons_of_ne_nil hn
  exact ⟨⟨c, rest, rfl, h c (by simp)⟩, fun d hd => .inl (h d hd)⟩

theorem numeralText_toDigits (n : Nat) : NumeralText (Nat.toDigits 10 n) :=
  numeralText_digits Nat.toDigits_ne_nil fun _ hc => isDecimalDigit_toDigits hc

theorem inNumeral_exponentText (e : Int) :
    ∀ c ∈ (DecimalStyle.yaml.exponentText e).toList, InNumeral c := by
  have hdigit : ∀ c ∈ Nat.toDigits 10 e.natAbs, InNumeral c := fun c hc =>
    .inl (isDecimalDigit_toDigits hc)
  by_cases he : e < 0
  · simpa [DecimalStyle.exponentText, he, InNumeral] using hdigit
  · simpa [DecimalStyle.exponentText, he, DecimalStyle.yaml] using hdigit

/-- The text of a decimal number is a numeral with a point or an exponent. -/
theorem numeralText_magnitudeText (d : Decimal) :
    NumeralText (DecimalStyle.yaml.magnitudeText d).toList ∧
      ∃ c ∈ (DecimalStyle.yaml.magnitudeText d).toList, c = '.' ∨ c = 'e' := by
  have hd : ∀ c ∈ Nat.toDigits 10 d.digits, isDecimalDigit c = true :=
    fun c hc => isDecimalDigit_toDigits hc
  have hn : Nat.toDigits 10 d.digits ≠ [] := Nat.toDigits_ne_nil
  have hzeros : ∀ n, ∀ c ∈ List.replicate n '0', InNumeral c := fun n c hc =>
    .inl (Literal.isDecimalDigit_zeros n c hc)
  have hpoint : InNumeral '.' := .inr (.inl rfl)
  have hpart : ∀ n, 0 < n → NumeralText ((Nat.toDigits 10 d.digits).take n) := fun n hpos =>
    numeralText_digits (by simp [hn]; omega) fun c hc => hd c (List.mem_of_mem_take hc)
  have hrest : ∀ n, ∀ c ∈ (Nat.toDigits 10 d.digits).drop n, InNumeral c := fun n c hc =>
    .inl (hd c (List.mem_of_mem_drop hc))
  have hpointed := Literal.pointed_magnitudeText d
  generalize (DecimalStyle.yaml.magnitudeText d).toList = cs at *
  cases hpointed with
  | before n _ =>
    have hzero : NumeralText ['0'] :=
      numeralText_digits (by simp) (Literal.isDecimalDigit_zeros 1)
    refine ⟨hzero.append (List.forall_mem_cons.mpr ⟨hpoint, fun c hc => ?_⟩), '.', by simp,
      .inl rfl⟩
    exact (List.mem_append.mp hc).elim (hzeros _ c) fun hc => .inl (hd c hc)
  | behind n _ =>
    refine ⟨((numeralText_digits hn hd).append (hzeros n)).append ?_, '.', by simp, .inl rfl⟩
    exact List.forall_mem_cons.mpr ⟨hpoint, hzeros 1⟩
  | among hpos _ =>
    refine ⟨(hpart _ hpos).append ?_, '.', by simp, .inl rfl⟩
    exact List.forall_mem_cons.mpr ⟨hpoint, hrest _⟩
  | scientific p _ =>
    have hletter : InNumeral 'e' := .inr (.inr (.inl rfl))
    refine ⟨((hpart 1 Nat.one_pos).append ?_).append
      (List.forall_mem_cons.mpr ⟨hletter, inNumeral_exponentText p⟩), 'e', by simp, .inr rfl⟩
    split
    · simp
    · exact List.forall_mem_cons.mpr ⟨hpoint, hrest 1⟩

namespace Binary64

/-- A finite number is read back from its text. -/
theorem read?_yamlText {x : Binary64} (hf : x.isFinite = true) (hc : Canonical x) :
    (Literal.read? x.yamlText.toList).map Literal.value = some x := by
  cases x with
  | infinite s => simp [isFinite] at hf
  | nan => simp [isFinite] at hf
  | finite s m q =>
    obtain ⟨digits, exponent, hread, hzero, hvalue⟩ :=
      Literal.unsigned?_magnitudeText s (Decimal.shortest m q)
    have hsigned : Literal.read? (yamlText (.finite s m q)).toList =
        Literal.unsigned? s (DecimalStyle.yaml.magnitudeText (Decimal.shortest m q)).toList := by
      obtain ⟨⟨⟨c, more, htext, hdigit⟩, -⟩, -⟩ :=
        numeralText_magnitudeText (Decimal.shortest m q)
      cases s with
      | true => simp [yamlText, text, Literal.read?]
      | false =>
        simp only [yamlText, text, Bool.false_eq_true, if_false, String.empty_append, htext]
        rw [Literal.read?.eq_def]
        split
        · exact absurd hdigit (by simp_all [isDecimalDigit])
        · exact absurd hdigit (by simp_all [isDecimalDigit])
        · rfl
    rw [hsigned, hread, Option.map_some]
    congr 1
    rcases Nat.eq_zero_or_pos m with rfl | hm
    · obtain rfl : digits = 0 := hzero.mpr (by simp [Decimal.shortest])
      obtain ⟨-, -, -, hq⟩ := hc
      obtain rfl : q = minExponent := hq.resolve_left (by decide)
      simp [Literal.value, ofDecimal, zero]
    · obtain ⟨hne, hshort⟩ := Decimal.ofDecimal_shortest s hc hm
      exact hshort (fun h => hne (hzero.mp h)) hvalue

end Binary64

end ServiceMaps
