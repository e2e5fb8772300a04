import ServiceMaps.Number.Binary64
import Mathlib

/-!
Rounding to the binary format, in terms of rational numbers. A quotient is scaled by the one power
of two that leaves 53 bits before the point, and the nearest whole number is taken; so the result
depends on the quotient alone, it is canonical, and a quotient close enough to a number of the
format is rounded to that number. The same holds of decimal numerals within the range of exponents
at which they are computed.
-/
namespace ServiceMaps.Binary64

/-- The nearest natural number, the even one of two equally near. -/
def nearest (r : ℚ) : Nat :=
  if 2 * (r - ⌊r⌋₊) < 1 then ⌊r⌋₊
  else if 1 < 2 * (r - ⌊r⌋₊) then ⌊r⌋₊ + 1
  else ⌊r⌋₊ + ⌊r⌋₊ % 2

theorem roundQuotient_eq_nearest (num : Nat) {den : Nat} (hd : 0 < den) :
    roundQuotient num den = nearest (num / den) := by
  have hfloor : ⌊(num / den : ℚ)⌋₊ = num / den := Nat.floor_div_eq_div num den
  have hd' : (0 : ℚ) < den := by exact_mod_cast hd
  have hfrac : 2 * ((num / den : ℚ) - (num / den : Nat)) = (2 * (num % den) : Nat) / den := by
    have h : (num : ℚ) = den * (num / den : Nat) + (num % den : Nat) := by
      exact_mod_cast (Nat.div_add_mod num den).symm
    field_simp
    push_cast
    linarith
  unfold roundQuotient nearest
  rw [hfloor, hfrac]
  have hlt : ((2 * (num % den) : Nat) / den : ℚ) < 1 ↔ 2 * (num % den) < den := by
    rw [div_lt_one hd']
    exact_mod_cast Iff.rfl
  have hgt : 1 < ((2 * (num % den) : Nat) / den : ℚ) ↔ den < 2 * (num % den) := by
    rw [one_lt_div hd']
    exact_mod_cast Iff.rfl
  simp only [hlt, hgt]

theorem nearest_eq {r : ℚ} {m : Nat} (h : |r - m| < 1 / 2) (hr : 0 ≤ r) : nearest r = m := by
  obtain ⟨hl, hg⟩ := abs_lt.mp h
  unfold nearest
  rcases le_or_gt (m : ℚ) r with hm | hm
  · have hf : ⌊r⌋₊ = m := (Nat.floor_eq_iff hr).mpr ⟨hm, by linarith⟩
    rw [hf, if_pos (by linarith)]
  · obtain ⟨n, rfl⟩ : ∃ n, m = n + 1 :=
      Nat.exists_eq_succ_of_ne_zero (by rintro rfl; norm_num at hm; linarith)
    push_cast at *
    have hf : ⌊r⌋₊ = n := (Nat.floor_eq_iff hr).mpr ⟨by linarith, by linarith⟩
    rw [hf, if_neg (by linarith), if_pos (by linarith)]

theorem le_nearest {r : ℚ} {m : Nat} (h : (m : ℚ) ≤ r) : m ≤ nearest r := by
  have hf : m ≤ ⌊r⌋₊ := Nat.le_floor h
  unfold nearest
  split_ifs <;> omega

theorem nearest_le {r : ℚ} {m : Nat} (hr : 0 ≤ r) (h : r < m) : nearest r ≤ m := by
  have hf : ⌊r⌋₊ < m := (Nat.floor_lt hr).mpr h
  unfold nearest
  split_ifs <;> omega

theorem scaled_pos {num den : Nat} (hd : 0 < den) (q : Int) : 0 < (scaled num den q).2 := by
  unfold scaled
  split_ifs <;> positivity

theorem scaled_ratio (num den : Nat) (q : Int) :
    ((scaled num den q).1 / (scaled num den q).2 : ℚ) = num / den / 2 ^ q := by
  unfold scaled
  split_ifs with hq
  · obtain ⟨n, rfl⟩ := Int.eq_ofNat_of_zero_le hq
    simp [div_div]
  · obtain ⟨n, hn⟩ := Int.eq_ofNat_of_zero_le (show 0 ≤ -q by omega)
    obtain rfl : q = -n := by omega
    simp [div_eq_mul_inv, mul_right_comm]

/-- A number with 53 bits before the point at one exponent has no fewer at a smaller one. -/
theorem exponent_le {r : ℚ} {q p : Int} (hq : 2 ^ 52 ≤ r / 2 ^ q) (hp : r / 2 ^ p < 2 ^ 53) :
    q ≤ p := by
  rw [le_div_iff₀ (by positivity)] at hq
  rw [div_lt_iff₀ (by positivity)] at hp
  have h : (2 : ℚ) ^ (52 + q) < 2 ^ (53 + p) := by
    rw [zpow_add₀ two_ne_zero, zpow_add₀ two_ne_zero]
    exact lt_of_le_of_lt (by exact_mod_cast hq) (by exact_mod_cast hp)
  have hlt := (zpow_lt_zpow_iff_right₀ (by norm_num : (1 : ℚ) < 2)).mp h
  omega

/-- The power of two between which and its double a positive number lies is unique. -/
theorem exponent_unique {r : ℚ} {q p : Int} (hq : 2 ^ 52 ≤ r / 2 ^ q) (hq' : r / 2 ^ q < 2 ^ 53)
    (hp : 2 ^ 52 ≤ r / 2 ^ p) (hp' : r / 2 ^ p < 2 ^ 53) : q = p :=
  le_antisymm (exponent_le hq hp') (exponent_le hp hq')

/-- At the next smaller exponent there is one bit more. -/
theorem div_zpow_pred (r : ℚ) (q : Int) : r / 2 ^ (q - 1) = 2 * (r / 2 ^ q) := by
  rw [zpow_sub_one₀ two_ne_zero]
  field_simp

/-- The exponent that the lengths of the numbers show is right or one too great. -/
theorem estimate_bounds {num den : Nat} (hn : 0 < num) (hd : 0 < den) {q : Int}
    (hq : q = (Nat.log2 num : Int) - Nat.log2 den - 52) :
    (2 : ℚ) ^ 51 < num / den / 2 ^ q ∧ (num / den / 2 ^ q : ℚ) < 2 ^ 53 := by
  have hn1 : (2 : ℚ) ^ Nat.log2 num ≤ num := by exact_mod_cast Nat.log2_self_le hn.ne'
  have hn2 : (num : ℚ) < 2 ^ (Nat.log2 num + 1) := by exact_mod_cast Nat.lt_log2_self
  have hd1 : (2 : ℚ) ^ Nat.log2 den ≤ den := by exact_mod_cast Nat.log2_self_le hd.ne'
  have hd2 : (den : ℚ) < 2 ^ (Nat.log2 den + 1) := by exact_mod_cast Nat.lt_log2_self
  have hd0 : (0 : ℚ) < den := by exact_mod_cast hd
  set a := Nat.log2 num
  set b := Nat.log2 den
  have hpow : (2 : ℚ) ^ q = 2 ^ a / 2 ^ b / 2 ^ 52 := by
    rw [hq, zpow_sub₀ two_ne_zero, zpow_sub₀ two_ne_zero]
    norm_cast
  constructor
  · rw [hpow, lt_div_iff₀ (by positivity), lt_div_iff₀ hd0]
    calc (2 : ℚ) ^ 51 * (2 ^ a / 2 ^ b / 2 ^ 52) * den = 2 ^ a * (den / 2 ^ (b + 1)) := by
          field_simp
          ring
      _ < 2 ^ a * 1 := by
          gcongr
          rwa [div_lt_one (by positivity)]
      _ ≤ num := by rwa [mul_one]
  · rw [hpow, div_lt_iff₀ (by positivity), div_lt_iff₀ hd0]
    calc (num : ℚ) < 2 ^ (a + 1) := hn2
      _ = 2 ^ 53 * (2 ^ a / 2 ^ b / 2 ^ 52) * 2 ^ b := by
          field_simp
          ring
      _ ≤ 2 ^ 53 * (2 ^ a / 2 ^ b / 2 ^ 52) * den := by gcongr

/-- At its full exponent a quotient has 53 bits before the point. -/
theorem fullExponent_bounds {num den : Nat} (hn : 0 < num) (hd : 0 < den) :
    2 ^ 52 ≤ (num / den / 2 ^ fullExponent num den : ℚ) ∧
      (num / den / 2 ^ fullExponent num den : ℚ) < 2 ^ 53 := by
  set q : Int := (Nat.log2 num : Int) - Nat.log2 den - 52 with hq
  obtain ⟨hlow, hhigh⟩ := estimate_bounds hn hd hq
  have hfloor : (scaled num den q).1 / (scaled num den q).2 = ⌊(num / den / 2 ^ q : ℚ)⌋₊ := by
    rw [← scaled_ratio, Nat.floor_div_eq_div]
  have hfull : fullExponent num den = if ⌊(num / den / 2 ^ q : ℚ)⌋₊ < 2 ^ 52 then q - 1 else q := by
    rw [← hfloor]
    rfl
  rw [hfull]
  split_ifs with hf
  · have hlt : (num / den / 2 ^ q : ℚ) < 2 ^ 52 := by
      have := (Nat.floor_lt (by positivity)).mp hf
      exact_mod_cast this
    rw [div_zpow_pred]
    constructor <;> linarith
  · refine ⟨?_, hhigh⟩
    have := (Nat.le_floor_iff (by positivity)).mp (not_lt.mp hf)
    exact_mod_cast this

/-- The exponent at which a number is rounded. -/
theorem ofRatio_eq_pack (s : Bool) {num den : Nat} (hn : 0 < num) (hd : 0 < den) {q : Int}
    (hlow : 2 ^ 52 ≤ (num / den / 2 ^ q : ℚ)) (hhigh : (num / den / 2 ^ q : ℚ) < 2 ^ 53) :
    ofRatio s num den =
      pack s (nearest (num / den / 2 ^ max q minExponent)) (max q minExponent) := by
  obtain ⟨hl, hh⟩ := fullExponent_bounds hn hd
  rw [ofRatio, if_neg hn.ne', exponent_unique hl hh hlow hhigh]
  rw [← scaled_ratio, ← roundQuotient_eq_nearest _ (scaled_pos hd _)]

/-- The result depends on the quotient alone. -/
theorem ofRatio_congr (s : Bool) {num den num' den' : Nat} (hd : 0 < den) (hd' : 0 < den')
    (h : (num / den : ℚ) = num' / den') : ofRatio s num den = ofRatio s num' den' := by
  have hz : num = 0 ↔ num' = 0 := by
    have e : num = 0 ↔ (num / den : ℚ) = 0 := by simp [hd.ne']
    have e' : num' = 0 ↔ (num' / den' : ℚ) = 0 := by simp [hd'.ne']
    rw [e, e', h]
  rcases Nat.eq_zero_or_pos num with hn | hn
  · simp [ofRatio, hn, hz.mp hn]
  · have hn' : 0 < num' := Nat.pos_of_ne_zero fun e => hn.ne' (hz.mpr e)
    obtain ⟨hl, hh⟩ := fullExponent_bounds hn hd
    rw [ofRatio_eq_pack s hn hd hl hh, ofRatio_eq_pack s hn' hd' (h ▸ hl) (h ▸ hh), h]

theorem canonical_zero (s : Bool) : Canonical (zero s) := by
  simp [zero, Canonical, minExponent, maxExponent]

theorem pack_full (s : Bool) (q : Int) : pack s (2 ^ 53) q =
    if maxExponent < q + 1 then .infinite s else .finite s (2 ^ 52) (q + 1) := rfl

theorem pack_of_ne (s : Bool) {m : Nat} (q : Int) (h : m ≠ 2 ^ 53) : pack s m q =
    if maxExponent < q then .infinite s else .finite s m q := by
  rw [pack, if_neg h]

theorem canonical_pack (s : Bool) {m : Nat} {q : Int} (hm : m ≤ 2 ^ 53) (hq : minExponent ≤ q)
    (h : 2 ^ 52 ≤ m ∨ q = minExponent) : Canonical (pack s m q) := by
  by_cases he : m = 2 ^ 53
  · rw [he, pack_full]
    split_ifs with hg
    · trivial
    · exact ⟨by norm_num, by omega, by omega, .inl le_rfl⟩
  · rw [pack_of_ne s q he]
    split_ifs with hg
    · trivial
    · exact ⟨by omega, hq, by omega, h⟩

/-- Rounding gives every number in its one form. -/
theorem canonical_ofRatio (s : Bool) (num : Nat) {den : Nat} (hd : 0 < den) :
    Canonical (ofRatio s num den) := by
  rcases Nat.eq_zero_or_pos num with rfl | hn
  · simpa [ofRatio] using canonical_zero s
  · obtain ⟨hl, hh⟩ := fullExponent_bounds hn hd
    rw [ofRatio_eq_pack s hn hd hl hh]
    set q := fullExponent num den
    have hle : (num / den / 2 ^ max q minExponent : ℚ) ≤ num / den / 2 ^ q := by
      gcongr
      · norm_num
      · exact le_max_left q minExponent
    refine canonical_pack s ?_ (le_max_right _ _) ?_
    · exact nearest_le (by positivity) (by push_cast; linarith)
    · rcases le_total minExponent q with hm | hm
      · rw [max_eq_left hm]
        exact .inl (le_nearest (by push_cast; exact hl))
      · exact .inr (max_eq_right hm)

/-- A number below `2^1000` does not become infinite. -/
theorem isFinite_ofRatio (s : Bool) {num den : Nat} (hd : 0 < den)
    (h : (num / den : ℚ) < 2 ^ 1000) : (ofRatio s num den).isFinite = true := by
  rcases Nat.eq_zero_or_pos num with rfl | hn
  · simp [ofRatio, zero, isFinite]
  · obtain ⟨hl, hh⟩ := fullExponent_bounds hn hd
    rw [ofRatio_eq_pack s hn hd hl hh]
    have hq : fullExponent num den ≤ 947 := by
      refine exponent_le hl ?_
      rw [div_lt_iff₀ (by positivity)]
      calc (num / den : ℚ) < 2 ^ 1000 := h
        _ = 2 ^ 53 * 2 ^ 947 := by rw [← pow_add]
        _ = 2 ^ 53 * 2 ^ (947 : Int) := rfl
    have hq' : max (fullExponent num den) minExponent + 1 ≤ maxExponent := by
      simp only [minExponent, maxExponent]
      omega
    by_cases he : nearest (num / den / 2 ^ max (fullExponent num den) minExponent) = 2 ^ 53
    · rw [he, pack_full, if_neg (by omega)]
      rfl
    · rw [pack_of_ne _ _ he, if_neg (by omega)]
      rfl

theorem canonical_ofInt (n : Int) : Canonical (ofInt n) := canonical_ofRatio _ _ Nat.one_pos

theorem isFinite_ofInt {n : Int} (h : n.natAbs ≤ 2 ^ 64) : (ofInt n).isFinite = true := by
  refine isFinite_ofRatio _ Nat.one_pos ?_
  have hn : (n.natAbs : ℚ) ≤ 2 ^ 64 := by exact_mod_cast h
  calc (n.natAbs / (1 : Nat) : ℚ) ≤ 2 ^ 64 := by simpa using hn
    _ < 2 ^ 1000 := pow_lt_pow_right₀ (by norm_num) (by norm_num)

/-- A quotient that is nearest to the digits of a number of the format, at the exponent of that
number, is rounded to it. At the least exponent there may be fewer bits. -/
theorem ofRatio_of_nearest (s : Bool) {m num den : Nat} {q : Int}
    (hc : Canonical (.finite s m q)) (hn : 0 < num) (hd : 0 < den)
    (hround : nearest (num / den / 2 ^ q) = m)
    (hlow : 2 ^ 52 ≤ (num / den / 2 ^ q : ℚ) ∨ q = minExponent)
    (hhigh : (num / den / 2 ^ q : ℚ) < 2 ^ 53) : ofRatio s num den = .finite s m q := by
  obtain ⟨hm, hmin, hmax, -⟩ := hc
  have hpack : pack s m q = .finite s m q := by
    rw [pack_of_ne s q hm.ne, if_neg (by omega)]
  rcases hlow with hlow | rfl
  · rw [ofRatio_eq_pack s hn hd hlow hhigh, max_eq_left hmin, hround, hpack]
  · obtain ⟨hl, hh⟩ := fullExponent_bounds hn hd
    rw [ofRatio_eq_pack s hn hd hl hh, max_eq_right (exponent_le hl hhigh), hround, hpack]

/-- Just below a power of two the quotient has one bit more, and may still be rounded to it. -/
theorem ofRatio_of_below (s : Bool) {num den : Nat} {q : Int} (hn : 0 < num) (hd : 0 < den)
    (hmin : minExponent < q) (hmax : q ≤ maxExponent)
    (hnear : |(num / den / 2 ^ q : ℚ) - 2 ^ 52| < 1 / 4)
    (hsmall : (num / den / 2 ^ q : ℚ) < 2 ^ 52) : ofRatio s num den = .finite s (2 ^ 52) q := by
  have hdist : |(num / den / 2 ^ (q - 1) : ℚ) - (2 ^ 53 : Nat)| < 1 / 2 := by
    have htwice : (num / den / 2 ^ (q - 1) : ℚ) - (2 ^ 53 : Nat) =
        2 * (num / den / 2 ^ q - 2 ^ 52) := by
      rw [div_zpow_pred]
      push_cast
      ring
    rw [htwice, abs_mul, abs_two]
    linarith
  have hlow : 2 ^ 52 ≤ (num / den / 2 ^ (q - 1) : ℚ) := by
    have hl := (abs_lt.mp hnear).1
    rw [div_zpow_pred]
    linarith
  have hhigh : (num / den / 2 ^ (q - 1) : ℚ) < 2 ^ 53 := by
    rw [div_zpow_pred]
    linarith
  rw [ofRatio_eq_pack s hn hd hlow hhigh, max_eq_left (by omega), nearest_eq hdist (by positivity),
    pack_full, sub_add_cancel, if_neg (by omega)]

/-- A quotient that differs from a number of the format by at most half a unit of its seventeenth
decimal digit is rounded to that number. -/
theorem ofRatio_eq_of_near (s : Bool) {m num den : Nat} {q : Int}
    (hc : Canonical (.finite s m q)) (hm : 0 < m) (hd : 0 < den)
    (h : |(num / den : ℚ) - m * 2 ^ q| * (2 * 10 ^ 16) ≤ m * 2 ^ q) :
    ofRatio s num den = .finite s m q := by
  obtain ⟨hm53, hmin, hmax, hfull⟩ := id hc
  have hp : (0 : ℚ) < 2 ^ q := by positivity
  have hm1 : (1 : ℚ) ≤ m := by exact_mod_cast hm
  have hm' : (m : ℚ) + 1 ≤ 2 ^ 53 := by exact_mod_cast hm53
  set y : ℚ := num / den / 2 ^ q with hy
  -- in units of the last place
  have hnear : |y - m| * (2 * 10 ^ 16) ≤ m := by
    have hr : (num / den : ℚ) - m * 2 ^ q = (y - m) * 2 ^ q := by
      rw [sub_mul, hy, div_mul_cancel₀ _ hp.ne']
    rw [hr, abs_mul, abs_of_pos hp, mul_right_comm] at h
    exact le_of_mul_le_mul_right h hp
  have hdist : |y - m| < 1 / 2 := by linarith
  obtain ⟨hd1, hd2⟩ := abs_lt.mp hdist
  have hn : 0 < num := by
    rcases Nat.eq_zero_or_pos num with rfl | hn
    · simp [hy] at hd1
      linarith
    · exact hn
  have hround : nearest y = m := nearest_eq hdist (by positivity)
  have hy53 : y < 2 ^ 53 := by linarith
  rcases le_or_gt ((2 : ℚ) ^ 52) y with hbig | hsmall
  · exact ofRatio_of_nearest s hc hn hd hround (.inl hbig) hy53
  · rcases hmin.eq_or_lt with hleast | hlt
    · exact ofRatio_of_nearest s hc hn hd hround (.inr hleast.symm) hy53
    · have hge : 2 ^ 52 ≤ m := hfull.resolve_right hlt.ne'
      have hle : (m : ℚ) < 2 ^ 52 + 1 := by linarith
      obtain rfl : m = 2 ^ 52 := by
        have hle' : m < 2 ^ 52 + 1 := by exact_mod_cast hle
        omega
      push_cast at hnear
      exact ofRatio_of_below s hn hd hlt hmax (by linarith) hsmall

end ServiceMaps.Binary64
