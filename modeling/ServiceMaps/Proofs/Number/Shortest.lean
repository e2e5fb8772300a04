import ServiceMaps.Number.Shortest
import ServiceMaps.Proofs.Number.Rounding

/-!
The shortest decimal numeral reads back as the number it was found for. A numeral is read by its
value, so that zeros may be moved between digits and exponent; the search tries the neighbours of
the number on finer and finer decimal grids, and the grid of seventeen digits always has one that
reads back.
-/
namespace ServiceMaps

namespace Binary64

/-- The value of a decimal numeral. -/
def decimalValue (digits : Nat) (exponent : Int) : ℚ := digits * 10 ^ exponent

/-- A number has no more decimal digits than binary ones. -/
theorem le_pow_ten_log2 (n : Nat) : (n : ℚ) ≤ 10 ^ ((Nat.log2 n : Int) + 1) := by
  have h2 : n < 2 ^ (Nat.log2 n + 1) := Nat.lt_log2_self
  have h10 : 2 ^ (Nat.log2 n + 1) ≤ 10 ^ (Nat.log2 n + 1) := Nat.pow_le_pow_left (by norm_num) _
  have hle : n ≤ 10 ^ (Nat.log2 n + 1) := by omega
  exact_mod_cast hle

/-- Within the range at which numerals are computed, a numeral is rounded by its value. -/
theorem ofDecimal_eq_ofRatio (s : Bool) {digits : Nat} {exponent : Int} (hd : digits ≠ 0)
    (hlow : (10 : ℚ) ^ (-400 : Int) ≤ decimalValue digits exponent)
    (hhigh : decimalValue digits exponent < 10 ^ (400 : Int)) :
    ∃ num den : Nat, 0 < den ∧ (num / den : ℚ) = decimalValue digits exponent ∧
      ofDecimal s digits exponent = ofRatio s num den := by
  have hone : (1 : ℚ) ≤ digits := by exact_mod_cast Nat.one_le_iff_ne_zero.mpr hd
  have hten : (0 : ℚ) < 10 ^ exponent := by positivity
  have hbase : (1 : ℚ) < 10 := by norm_num
  have hexp : ¬ 400 < exponent := by
    have hlt : (10 : ℚ) ^ exponent < 10 ^ (400 : Int) :=
      lt_of_le_of_lt (le_mul_of_one_le_left hten.le hone) hhigh
    exact ((zpow_lt_zpow_iff_right₀ hbase).mp hlt).le.not_gt
  have hsize : ¬ exponent + Nat.log2 digits + 1 < -400 := by
    have hle : (10 : ℚ) ^ (-400 : Int) ≤ 10 ^ ((Nat.log2 digits : Int) + 1 + exponent) := by
      rw [zpow_add₀ (zero_lt_one.trans hbase).ne']
      exact hlow.trans (mul_le_mul_of_nonneg_right (le_pow_ten_log2 digits) hten.le)
    have hexponents := (zpow_le_zpow_iff_right₀ hbase).mp hle
    omega
  rcases le_or_gt 0 exponent with h0 | h0
  · refine ⟨digits * 10 ^ exponent.toNat, 1, Nat.one_pos, ?_, ?_⟩
    · obtain ⟨n, rfl⟩ := Int.eq_ofNat_of_zero_le h0
      simp [decimalValue]
    · simp [ofDecimal, hd, hexp, hsize, h0]
  · refine ⟨digits, 10 ^ (-exponent).toNat, by positivity, ?_, ?_⟩
    · obtain ⟨n, hn⟩ := Int.eq_ofNat_of_zero_le (show 0 ≤ -exponent by omega)
      obtain rfl : exponent = -n := by omega
      simp [decimalValue, div_eq_mul_inv]
    · simp [ofDecimal, hd, hexp, hsize, not_le.mpr h0]

/-- Two numerals of one value are read as the same number. -/
theorem ofDecimal_congr (s : Bool) {digits digits' : Nat} {exponent exponent' : Int}
    (hd : digits ≠ 0) (hd' : digits' ≠ 0)
    (h : decimalValue digits exponent = decimalValue digits' exponent')
    (hlow : (10 : ℚ) ^ (-400 : Int) ≤ decimalValue digits exponent)
    (hhigh : decimalValue digits exponent < 10 ^ (400 : Int)) :
    ofDecimal s digits exponent = ofDecimal s digits' exponent' := by
  obtain ⟨num, den, hden, hv, he⟩ := ofDecimal_eq_ofRatio s hd hlow hhigh
  obtain ⟨num', den', hden', hv', he'⟩ := ofDecimal_eq_ofRatio s hd' (h ▸ hlow) (h ▸ hhigh)
  rw [he, he', ofRatio_congr s hden hden' (by rw [hv, hv', h])]

/-- Every numeral is read as a number in its one form. -/
theorem canonical_ofDecimal (s : Bool) (digits : Nat) (exponent : Int) :
    Canonical (ofDecimal s digits exponent) := by
  unfold ofDecimal
  split_ifs
  · exact canonical_zero s
  · trivial
  · exact canonical_zero s
  · exact canonical_ofRatio _ _ Nat.one_pos
  · exact canonical_ofRatio _ _ (by positivity)

/-- The value of a finite number without its sign. -/
def magnitudeValue (m : Nat) (q : Int) : ℚ := m * 2 ^ q

theorem quotient_ratio (m : Nat) (q : Int) :
    ((quotient m q).1 / (quotient m q).2 : ℚ) = magnitudeValue m q := by
  rw [quotient, scaled_ratio, magnitudeValue, zpow_neg]
  simp

theorem quotient_pos (m : Nat) (q : Int) : 0 < (quotient m q).2 := scaled_pos Nat.one_pos _

end Binary64

namespace Decimal

open Binary64

theorem scaled_pos {num den : Nat} (hd : 0 < den) (k : Int) : 0 < (scaled num den k).2 := by
  unfold scaled
  split_ifs <;> positivity

theorem scaled_ratio (num den : Nat) (k : Int) :
    ((scaled num den k).1 / (scaled num den k).2 : ℚ) = num / den / 10 ^ k := by
  unfold scaled
  split_ifs with hk
  · obtain ⟨n, rfl⟩ := Int.eq_ofNat_of_zero_le hk
    simp [div_div]
  · obtain ⟨n, hn⟩ := Int.eq_ofNat_of_zero_le (show 0 ≤ -k by omega)
    obtain rfl : k = -n := by omega
    simp [div_eq_mul_inv, mul_right_comm]

/-- Moving zeros into the exponent keeps the value. -/
theorem strip_value (n : Nat) (d : Decimal) :
    decimalValue (strip n d).digits (strip n d).exponent = decimalValue d.digits d.exponent := by
  induction n generalizing d with
  | zero => rfl
  | succ n ih =>
    rw [strip]
    split_ifs with h
    · rw [ih]
      have hd : (d.digits : ℚ) = 10 * (d.digits / 10 : Nat) := by
        exact_mod_cast (Nat.mul_div_cancel' (Nat.dvd_of_mod_eq_zero h)).symm
      rw [decimalValue, decimalValue, zpow_add_one₀ (by norm_num : (10 : ℚ) ≠ 0), hd]
      ring
    · rfl

theorem strip_digits_ne_zero (n : Nat) {d : Decimal} (hd : d.digits ≠ 0) :
    (strip n d).digits ≠ 0 := by
  induction n generalizing d with
  | zero => exact hd
  | succ n ih =>
    rw [strip]
    split_ifs with h
    · exact ih (by simp only; omega)
    · exact hd

/-- A grid point that the search accepts stands next to the number and reads back as it. -/
theorem neighbour?_spec {x : Binary64} {num den : Nat} {k : Int} {d : Decimal}
    (h : neighbour? x num den k = some d) :
    d.exponent = k ∧ ofDecimal false d.digits k = x ∧
      (scaled num den k).1 / (scaled num den k).2 ≤ d.digits ∧
      d.digits ≤ (scaled num den k).1 / (scaled num den k).2 + 1 := by
  simp only [neighbour?] at h
  split at h
  · rename_i hb ha
    simp only [beq_iff_eq] at hb ha
    obtain rfl := Option.some.inj h
    split_ifs
    · exact ⟨rfl, hb, le_rfl, Nat.le_succ _⟩
    · exact ⟨rfl, ha, Nat.le_succ _, le_rfl⟩
  · rename_i hb _
    simp only [beq_iff_eq] at hb
    obtain rfl := Option.some.inj h
    exact ⟨rfl, hb, le_rfl, Nat.le_succ _⟩
  · rename_i _ ha
    simp only [beq_iff_eq] at ha
    obtain rfl := Option.some.inj h
    exact ⟨rfl, ha, Nat.le_succ _, le_rfl⟩
  · simp at h

theorem neighbour?_isSome {x : Binary64} {num den : Nat} {k : Int}
    (h : ofDecimal false ((scaled num den k).1 / (scaled num den k).2) k = x ∨
      ofDecimal false ((scaled num den k).1 / (scaled num den k).2 + 1) k = x) :
    ∃ d, neighbour? x num den k = some d := by
  simp only [neighbour?]
  split
  · exact ⟨_, rfl⟩
  · exact ⟨_, rfl⟩
  · exact ⟨_, rfl⟩
  · rename_i hb ha
    simp only [beq_eq_false_iff_ne] at hb ha
    exact absurd h (by simp [hb, ha])

/-- If one of the grids tried has a hit, the search ends with a hit. -/
theorem search_hit {x : Binary64} {num den : Nat} {fuel : Nat} {k : Int}
    (h : ∃ i < fuel, ∃ d, neighbour? x num den (k - i) = some d) :
    ∃ i < fuel, ∃ d, neighbour? x num den (k - i) = some d ∧
      search x num den fuel k = strip enough d := by
  induction fuel generalizing k with
  | zero => obtain ⟨i, hi, -⟩ := h; omega
  | succ fuel ih =>
    rcases hk : neighbour? x num den k with _ | d
    · obtain ⟨i, hi, d, hd⟩ := h
      obtain ⟨j, rfl⟩ : ∃ j, i = j + 1 := by
        refine Nat.exists_eq_succ_of_ne_zero ?_
        rintro rfl
        simp [hk] at hd
      obtain ⟨i, hi, d, hd, hs⟩ := ih (k := k - 1)
        ⟨j, by omega, d, by rw [← hd]; congr 1; push_cast; ring⟩
      refine ⟨i + 1, by omega, d, ?_, ?_⟩
      · rw [← hd]; congr 1; push_cast; ring
      · rw [search, hk, hs]
    · exact ⟨0, by omega, d, by simpa using hk, by rw [search, hk]⟩

/-- The decimal and the binary length of a number agree up to one digit. -/
theorem pow_ten_le_pow_two {e L : Int} (he : 100000 * e ≤ 30103 * L) (hL : -1074 ≤ L)
    (hL' : L ≤ 1023) : (10 : ℚ) ^ (e - 1) ≤ 2 ^ L := by
  rcases le_or_gt 0 (e - 1) with h0 | h0
  · -- `10^59` is a little less than `2^196`
    have hroot : ((10 : ℚ) ^ (e - 1)) ^ 59 ≤ (2 ^ L) ^ 59 := by
      calc ((10 : ℚ) ^ (e - 1)) ^ 59 = (10 ^ 59) ^ (e - 1) := by
            rw [← zpow_natCast, ← zpow_mul, ← zpow_natCast, ← zpow_mul, mul_comm]
        _ ≤ (2 ^ 196) ^ (e - 1) := zpow_le_zpow_left₀ h0 (by norm_num) (by norm_num)
        _ = 2 ^ (196 * (e - 1)) := by rw [← zpow_natCast, ← zpow_mul]; norm_cast
        _ ≤ 2 ^ (59 * L) := zpow_le_zpow_right₀ (by norm_num) (by omega)
        _ = (2 ^ L) ^ 59 := by rw [← zpow_natCast, ← zpow_mul, mul_comm]; norm_cast
    exact (pow_le_pow_iff_left₀ (by positivity) (by positivity) (by norm_num)).mp hroot
  · -- `10^28` is a little more than `2^93`
    have hroot : ((10 : ℚ) ^ (e - 1)) ^ 28 ≤ (2 ^ L) ^ 28 := by
      calc ((10 : ℚ) ^ (e - 1)) ^ 28 = (10 ^ 28) ^ (e - 1) := by
            rw [← zpow_natCast, ← zpow_mul, ← zpow_natCast, ← zpow_mul, mul_comm]
        _ ≤ (2 ^ 93) ^ (e - 1) := by
            rw [← neg_neg (e - 1), zpow_neg, zpow_neg (2 ^ 93 : ℚ)]
            exact inv_anti₀ (by positivity)
              (zpow_le_zpow_left₀ (by omega) (by norm_num) (by norm_num))
        _ = 2 ^ (93 * (e - 1)) := by rw [← zpow_natCast, ← zpow_mul]; norm_cast
        _ ≤ 2 ^ (28 * L) := zpow_le_zpow_right₀ (by norm_num) (by omega)
        _ = (2 ^ L) ^ 28 := by rw [← zpow_natCast, ← zpow_mul, mul_comm]; norm_cast
    exact (pow_le_pow_iff_left₀ (by positivity) (by positivity) (by norm_num)).mp hroot

theorem log2_quotient {m : Nat} (hm : 0 < m) (q : Int) :
    (Nat.log2 (quotient m q).1 : Int) - Nat.log2 (quotient m q).2 = Nat.log2 m + q := by
  have hshift : ∀ n, Nat.log2 (m * 2 ^ n) = Nat.log2 m + n := by
    intro n
    refine (Nat.log2_eq_iff (by positivity)).mpr ⟨?_, ?_⟩
    · rw [pow_add]
      exact Nat.mul_le_mul_right _ (Nat.log2_self_le hm.ne')
    · rw [add_right_comm, pow_add]
      exact Nat.mul_lt_mul_of_pos_right Nat.lt_log2_self (by positivity)
  have hone : Nat.log2 1 = 0 := rfl
  unfold quotient Binary64.scaled
  split_ifs with hq
  · simp only [one_mul, Nat.log2_two_pow]
    omega
  · simp only [hshift, hone]
    omega

/-- The leading decimal digit found for a number does not stand above it. -/
theorem pow_magnitude_le {m : Nat} {q : Int} (hc : Canonical (.finite false m q)) (hm : 0 < m) :
    (10 : ℚ) ^ magnitude (quotient m q).1 (quotient m q).2 ≤ magnitudeValue m q ∧
      -330 ≤ magnitude (quotient m q).1 (quotient m q).2 := by
  obtain ⟨hm53, hmin, hmax, -⟩ := hc
  have hlog : Nat.log2 m < 53 := (Nat.log2_lt hm.ne').mpr hm53
  simp only [minExponent, maxExponent] at hmin hmax
  have hdown : (2 : ℚ) ^ ((Nat.log2 m : Int) + q) ≤ magnitudeValue m q := by
    rw [zpow_add₀ (by norm_num : (2 : ℚ) ≠ 0), magnitudeValue]
    gcongr
    exact_mod_cast Nat.log2_self_le hm.ne'
  have hpoint : ∀ k : Int, (scaled (quotient m q).1 (quotient m q).2 k).2 ≤
      (scaled (quotient m q).1 (quotient m q).2 k).1 → (10 : ℚ) ^ k ≤ magnitudeValue m q := by
    intro k hk
    have hpos : (0 : ℚ) < (scaled (quotient m q).1 (quotient m q).2 k).2 := by
      exact_mod_cast scaled_pos (quotient_pos m q) k
    have hone := (one_le_div hpos).mpr (Nat.cast_le.mpr hk)
    rw [scaled_ratio, quotient_ratio] at hone
    exact (one_le_div (by positivity)).mp hone
  unfold magnitude
  rw [log2_quotient hm]
  simp only
  split_ifs with hup hlow
  · exact ⟨hpoint _ hup, by omega⟩
  · exact ⟨(pow_ten_le_pow_two (by omega) (by omega) (by omega)).trans hdown, by omega⟩
  · exact ⟨hpoint _ (not_lt.mp hlow), by omega⟩

theorem ofDecimal_sign {s : Bool} {digits : Nat} {exponent : Int} {m : Nat} {q : Int}
    (h : ofDecimal false digits exponent = .finite false m q) :
    ofDecimal s digits exponent = .finite s m q := by
  have hratio : ∀ num den, ofRatio false num den = .finite false m q →
      ofRatio s num den = .finite s m q := by
    intro num den h
    unfold ofRatio at h ⊢
    split_ifs at h ⊢
    · simpa [zero] using h
    · simp only [pack] at h ⊢
      split_ifs at h ⊢
      · simpa using h
      · simpa using h
  unfold ofDecimal at h ⊢
  split_ifs at h ⊢
  · simpa [zero] using h
  · simpa [zero] using h
  · exact hratio _ _ h
  · exact hratio _ _ h

theorem magnitudeValue_lt {m : Nat} {q : Int} (hc : Canonical (.finite false m q)) :
    magnitudeValue m q < 10 ^ (342 : Int) := by
  obtain ⟨hm53, -, hmax, -⟩ := hc
  simp only [maxExponent] at hmax
  calc magnitudeValue m q < 2 ^ (53 : Int) * 2 ^ q := by
        unfold magnitudeValue
        gcongr
        exact_mod_cast hm53
    _ = 2 ^ (53 + q) := (zpow_add₀ (by norm_num) _ _).symm
    _ ≤ 2 ^ ((3 : Int) * 342) := zpow_le_zpow_right₀ (by norm_num) (by omega)
    _ = (2 ^ (3 : Int)) ^ (342 : Int) := zpow_mul _ _ _
    _ ≤ 10 ^ (342 : Int) := zpow_le_zpow_left₀ (by norm_num) (by norm_num) (by norm_num)

/-- The point of a grid below a number. -/
def below (m : Nat) (q k : Int) : Nat :=
  (scaled (quotient m q).1 (quotient m q).2 k).1 / (scaled (quotient m q).1 (quotient m q).2 k).2

theorem below_bounds (m : Nat) (q k : Int) :
    (below m q k : ℚ) * 10 ^ k ≤ magnitudeValue m q ∧
      magnitudeValue m q < (below m q k + 1) * 10 ^ k := by
  have hten : (0 : ℚ) < 10 ^ k := by positivity
  have hden : 0 < (scaled (quotient m q).1 (quotient m q).2 k).2 := scaled_pos (quotient_pos m q) k
  have hratio := scaled_ratio (quotient m q).1 (quotient m q).2 k
  rw [quotient_ratio] at hratio
  unfold below
  constructor
  · rw [← le_div_iff₀ hten, ← hratio]
    exact Nat.cast_div_le
  · rw [← div_lt_iff₀ hten, ← hratio, div_lt_iff₀ (by exact_mod_cast hden)]
    exact_mod_cast Nat.lt_mul_of_div_lt (Nat.lt_succ_self _) hden

theorem one_le_below {m : Nat} {q k : Int} (h : (10 : ℚ) ^ k ≤ magnitudeValue m q) :
    1 ≤ below m q k := by
  have hten : (0 : ℚ) < 10 ^ k := by positivity
  have hlt : (1 : ℚ) < below m q k + 1 := by
    refine lt_of_mul_lt_mul_right ?_ hten.le
    rw [one_mul]
    exact h.trans_lt (below_bounds m q k).2
  have : (0 : ℚ) < below m q k := by linarith
  exact_mod_cast this

/-- The grid points next to a number lie in the range at which numerals are computed. -/
theorem point_range {m d : Nat} {q k : Int} (hc : Canonical (.finite false m q))
    (hk : (10 : ℚ) ^ k ≤ magnitudeValue m q) (hrange : -350 ≤ k) (hd : below m q k ≤ d)
    (hd' : d ≤ below m q k + 1) :
    (10 : ℚ) ^ (-400 : Int) ≤ decimalValue d k ∧ decimalValue d k < 10 ^ (400 : Int) := by
  have hten : (0 : ℚ) < 10 ^ k := by positivity
  have hone : (1 : ℚ) ≤ d := by exact_mod_cast (one_le_below hk).trans hd
  constructor
  · calc (10 : ℚ) ^ (-400 : Int) ≤ 10 ^ k := zpow_le_zpow_right₀ (by norm_num) (by omega)
      _ ≤ d * 10 ^ k := le_mul_of_one_le_left hten.le hone
  · calc decimalValue d k ≤ (below m q k + 1) * 10 ^ k := by
          unfold decimalValue
          gcongr
          exact_mod_cast hd'
      _ = below m q k * 10 ^ k + 10 ^ k := by ring
      _ ≤ magnitudeValue m q + magnitudeValue m q := add_le_add (below_bounds m q k).1 hk
      _ < 10 ^ (342 : Int) + 10 ^ (342 : Int) :=
          add_lt_add (magnitudeValue_lt hc) (magnitudeValue_lt hc)
      _ ≤ 10 * 10 ^ (342 : Int) := by
          rw [← two_mul]
          gcongr
          norm_num
      _ = 10 ^ (343 : Int) := (zpow_one_add₀ (by norm_num) _).symm
      _ < 10 ^ (400 : Int) := zpow_lt_zpow_right₀ (by norm_num) (by norm_num)

/-- On the grid of the seventeenth digit one of the two neighbours reads back as the number. -/
theorem neighbour?_finest {m : Nat} {q k : Int} (hc : Canonical (.finite false m q)) (hm : 0 < m)
    (hk : (10 : ℚ) ^ (k + 16) ≤ magnitudeValue m q) (hrange : -350 ≤ k) :
    ∃ d, neighbour? (.finite false m q) (quotient m q).1 (quotient m q).2 k = some d := by
  have hten : (0 : ℚ) < 10 ^ k := by positivity
  have hunit : (10 : ℚ) ^ k * 10 ^ 16 ≤ magnitudeValue m q := by
    rwa [zpow_add₀ (by norm_num : (10 : ℚ) ≠ 0)] at hk
  have hstep : (10 : ℚ) ^ k ≤ magnitudeValue m q := by linarith
  obtain ⟨hbelow, habove⟩ := below_bounds m q k
  -- a grid point that is near enough reads back
  have hhit : ∀ d : Nat, below m q k ≤ d → d ≤ below m q k + 1 →
      |decimalValue d k - magnitudeValue m q| * (2 * 10 ^ 16) ≤ magnitudeValue m q →
      ofDecimal false d k = .finite false m q := by
    intro d hd hd' hnear
    have hone := one_le_below hstep
    obtain ⟨hlow, hhigh⟩ := point_range hc hstep hrange hd hd'
    obtain ⟨n, e, he, hv, ho⟩ := ofDecimal_eq_ofRatio false (by omega) hlow hhigh
    rw [ho]
    exact ofRatio_eq_of_near false hc hm he (by rw [hv]; exact hnear)
  refine neighbour?_isSome ?_
  have hsucc : decimalValue (below m q k + 1) k = (below m q k + 1 : ℚ) * 10 ^ k := by
    simp [decimalValue]
  rcases le_total (magnitudeValue m q - below m q k * 10 ^ k) (10 ^ k / 2) with h | h
  · left
    refine hhit (below m q k) le_rfl (Nat.le_succ _) ?_
    rw [decimalValue, abs_sub_comm, abs_of_nonneg (by linarith)]
    linarith
  · right
    refine hhit (below m q k + 1) (Nat.le_succ _) le_rfl ?_
    rw [hsucc, abs_of_nonneg (by linarith)]
    linarith

/-- The shortest numeral of a number reads back as the number, and so does every other spelling
of its value. -/
theorem ofDecimal_shortest (s : Bool) {m : Nat} {q : Int} (hc : Canonical (.finite false m q))
    (hm : 0 < m) :
    (shortest m q).digits ≠ 0 ∧ ∀ {digits exponent}, digits ≠ 0 →
      decimalValue digits exponent = decimalValue (shortest m q).digits (shortest m q).exponent →
      ofDecimal s digits exponent = .finite s m q := by
  obtain ⟨hmag, hrange⟩ := pow_magnitude_le hc hm
  set g := magnitude (quotient m q).1 (quotient m q).2
  have hfinest : ∃ i < enough, ∃ d,
      neighbour? (.finite false m q) (quotient m q).1 (quotient m q).2 (g - i) = some d := by
    obtain ⟨d, hd⟩ := neighbour?_finest (k := g - 16) hc hm (by simpa using hmag) (by omega)
    exact ⟨16, by decide, d, by simpa using hd⟩
  obtain ⟨i, hi, d, hd, hs⟩ := search_hit hfinest
  obtain ⟨hk, hread, hbelow, habove⟩ := neighbour?_spec hd
  have hshort : shortest m q = strip enough d := by
    rw [← hs, shortest, if_neg hm.ne']
  have hstep : (10 : ℚ) ^ (g - i) ≤ magnitudeValue m q :=
    (zpow_le_zpow_right₀ (by norm_num) (by omega)).trans hmag
  have hone : 1 ≤ d.digits := (one_le_below hstep).trans hbelow
  obtain ⟨hlow, hhigh⟩ := point_range hc hstep (by simp only [enough] at hi; omega) hbelow habove
  rw [hshort, strip_value, hk]
  refine ⟨strip_digits_ne_zero _ (by omega), fun hne hv => ?_⟩
  rw [ofDecimal_congr s hne (by omega) hv (hv ▸ hlow) (hv ▸ hhigh)]
  exact ofDecimal_sign hread

end Decimal

end ServiceMaps
