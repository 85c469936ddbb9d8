import LetFn.Number.Shortest
import Mathlib.Algebra.Order.Field.Power
import Mathlib.Data.Rat.Defs
import Mathlib.Tactic.FieldSimp
import Mathlib.Tactic.Linarith
import Mathlib.Tactic.Positivity
import Mathlib.Tactic.Ring

/-!
# Exact numbers

A quotient that is the value of a double is read as that double, whatever numerator and denominator it is given by. So
the digits that are written for a double are read back as the same double.

* `Binary64.Unsigned x` — `x` is not negative and no NaN; these are the doubles that digits are read as.

Main facts: `ofRatio_eq`, `unsigned_ofRatio`, `isWhole_ofRatio`, `exists_text`.
-/

namespace LetFn

namespace Binary64

/-- Neither negative nor a NaN: the numbers up to infinity, in the order of their bits. -/
def Unsigned (x : Binary64) : Prop := x.bits.toNat ≤ 2047 * 2 ^ 52

instance (x : Binary64) : Decidable x.Unsigned := inferInstanceAs (Decidable (_ ≤ _))

/-! ## fields -/

section

variable {x : Binary64}

theorem bits_infinity : infinity.bits.toNat = 2047 * 2 ^ 52 := by decide

theorem eq_of_toNat {x y : Binary64} (h : x.bits.toNat = y.bits.toNat) : x = y := by
  cases x
  cases y
  exact congrArg _ (UInt64.toNat_inj.1 h)

theorem Unsigned.negative (h : x.Unsigned) : x.negative = false := by
  simp only [Unsigned] at h
  simp only [Binary64.negative, Nat.pow_eq, decide_eq_false_iff_not]
  omega

theorem Unsigned.exponentField (h : x.Unsigned) : x.exponentField = x.bits.toNat / 2 ^ 52 := by
  simp only [Unsigned] at h
  simp only [Binary64.exponentField, Nat.pow_eq]
  omega

theorem Unsigned.isFinite_iff (h : x.Unsigned) : x.isFinite = true ↔ x.bits.toNat < 2047 * 2 ^ 52 := by
  simp only [Binary64.isFinite, h.exponentField, Nat.pow_eq, decide_eq_true_eq]
  simp only [Unsigned] at h
  omega

theorem Unsigned.isNaN (h : x.Unsigned) : x.isNaN = false := by
  simp only [Binary64.isNaN, h.exponentField, Binary64.fraction, Nat.pow_eq]
  simp only [Unsigned] at h
  grind

theorem Unsigned.eq_infinity (h : x.Unsigned) (hx : x.isFinite = false) : x = infinity := by
  have := h.isFinite_iff
  rw [hx] at this
  simp only [Unsigned] at h
  exact eq_of_toNat (by rw [bits_infinity]; simp at this; omega)

/-- The bits of a finite number by its significand and its exponent. -/
theorem Unsigned.bits_eq (h : x.Unsigned) : x.bits.toNat = (x.exponent + 1074).toNat * 2 ^ 52 + x.significand := by
  simp only [Binary64.significand, Binary64.exponent, h.exponentField, Binary64.fraction, Nat.pow_eq]
  split <;> omega

theorem Unsigned.exponent_le (h : x.Unsigned) : -1074 ≤ x.exponent := by
  simp only [Binary64.exponent, h.exponentField]
  omega

/-- The significand of a normal number has 53 digits; a smaller one stands for itself with the least exponent. -/
theorem Unsigned.significand_normal (h : x.Unsigned) :
    x.significand < 2 ^ 53 ∧ (2 ^ 52 ≤ x.significand ∨ x.exponent = -1074) := by
  simp only [Binary64.significand, Binary64.exponent, h.exponentField, Binary64.fraction, Nat.pow_eq]
  split <;> omega

theorem ratio_snd_pos (x : Binary64) : 0 < x.ratio.2 := by simp [Binary64.ratio]

end

/-! ## powers of two below a quotient -/

theorem zpow_eq_div (k : Int) : (2 : ℚ) ^ k = 2 ^ k.toNat / 2 ^ (-k).toNat := by
  rcases Int.le_total 0 k with hk | hk
  · rw [Int.toNat_of_nonpos (by omega : -k ≤ 0), pow_zero, div_one, ← zpow_natCast, Int.toNat_of_nonneg hk]
  · rw [Int.toNat_of_nonpos hk, pow_zero, one_div, ← zpow_natCast, Int.toNat_of_nonneg (by omega), zpow_neg, inv_inv]

theorem zpow_mul_le_iff {num den : Nat} {k : Int} :
    (2 : ℚ) ^ k * den ≤ num ↔ den * 2 ^ k.toNat ≤ num * 2 ^ (-k).toNat := by
  rw [zpow_eq_div, div_mul_eq_mul_div, div_le_iff₀ (by positivity), mul_comm]
  exact_mod_cast Iff.rfl

/-- `2^k` is the greatest power of two that the quotient reaches. -/
def Between (num den : Nat) (k : Int) : Prop := (2 : ℚ) ^ k * den ≤ num ∧ (num : ℚ) < 2 ^ (k + 1) * den

theorem lt_succ_of_zpow {num den : Nat} {j k : Int} (hden : 0 < den) (hj : (2 : ℚ) ^ j * den ≤ num)
    (hk : (num : ℚ) < 2 ^ k * den) : j < k := by
  have hpos : (0 : ℚ) < den := by exact_mod_cast hden
  exact (zpow_lt_zpow_iff_right₀ (by norm_num : (1 : ℚ) < 2)).1 (lt_of_mul_lt_mul_right (hj.trans_lt hk) hpos.le)

theorem zpow_log2_le {n : Nat} (h : 0 < n) : (2 : ℚ) ^ (n.log2 : Int) ≤ n := by
  rw [zpow_natCast]
  exact_mod_cast Nat.log2_self_le h.ne'

theorem lt_zpow_log2 (n : Nat) : (n : ℚ) < 2 ^ ((n.log2 : Int) + 1) := by
  rw [← Nat.cast_succ, zpow_natCast]
  exact_mod_cast Nat.lt_log2_self

theorem between_floorLog2 {num den : Nat} (hnum : 0 < num) (hden : 0 < den) :
    Between num den (floorLog2 num den) := by
  have hn := zpow_log2_le hnum
  have hn' := lt_zpow_log2 num
  have hd := zpow_log2_le hden
  have hd' := lt_zpow_log2 den
  generalize hl : (num.log2 - den.log2 : Int) = l at *
  have hlow : (2 : ℚ) ^ (l - 1) * den ≤ num := by
    refine le_trans (mul_le_mul_of_nonneg_left hd'.le (by positivity)) (le_of_eq_of_le ?_ hn)
    rw [← zpow_add₀ two_ne_zero, ← hl]
    congr 1
    omega
  have hhigh : (num : ℚ) < 2 ^ (l + 1) * den := by
    refine lt_of_lt_of_le (lt_of_lt_of_eq hn' ?_) (mul_le_mul_of_nonneg_left hd (by positivity))
    rw [← zpow_add₀ two_ne_zero, ← hl]
    congr 1
    omega
  simp only [floorLog2, Nat.pow_eq, hl]
  split
  · next h => exact ⟨zpow_mul_le_iff.2 h, hhigh⟩
  · next h => exact ⟨hlow, by rw [sub_add_cancel]; exact not_le.1 fun hle => h (zpow_mul_le_iff.1 hle)⟩

/-! ## exact quotients -/

theorem divNearest_mul (m : Nat) {den : Nat} (h : 0 < den) : divNearest (m * den) den = m := by
  simp [divNearest, h]

theorem zpow_mul_eq {num den m : Nat} {k : Int} (h : num * 2 ^ (-k).toNat = den * (m * 2 ^ k.toNat)) :
    (num : ℚ) = 2 ^ k * m * den := by
  rw [zpow_eq_div, div_mul_eq_mul_div, div_mul_eq_mul_div, eq_div_iff (by positivity)]
  have : (num : ℚ) * 2 ^ (-k).toNat = den * (m * 2 ^ k.toNat) := by exact_mod_cast h
  rw [this]
  ring

/-- The exponent that rounding chooses for a quotient that is a double is the exponent of that double. -/
theorem exponent_eq {x : Binary64} (hx : x.Unsigned) {num den : Nat} (hnum : 0 < num) (hden : 0 < den)
    (h : (num : ℚ) = 2 ^ x.exponent * x.significand * den) :
    max (-1074) (floorLog2 num den - 52) = x.exponent := by
  obtain ⟨hlow, hhigh⟩ := between_floorLog2 hnum hden
  obtain ⟨hs, hnormal⟩ := hx.significand_normal
  have he := hx.exponent_le
  have hs' : (num : ℚ) < 2 ^ (x.exponent + 53) * den := by
    rw [h, zpow_add₀ two_ne_zero]
    have : (x.significand : ℚ) < 2 ^ (53 : Int) := by exact_mod_cast hs
    gcongr
  have hle := lt_succ_of_zpow hden hlow hs'
  rcases hnormal with hnormal | hleast
  · have : (2 : ℚ) ^ (x.exponent + 52) * den ≤ num := by
      rw [h, zpow_add₀ two_ne_zero]
      have : (2 : ℚ) ^ (52 : Int) ≤ x.significand := by exact_mod_cast hnormal
      gcongr
    have := lt_succ_of_zpow hden this hhigh
    omega
  · omega

/-- **A quotient that is the value of a double is read as that double.** -/
theorem ofRatio_eq {x : Binary64} (hx : x.Unsigned) (hfinite : x.isFinite = true) {num den : Nat} (hden : 0 < den)
    (h : num * x.ratio.2 = den * x.ratio.1) : ofRatio num den = x := by
  simp only [Binary64.ratio, Nat.pow_eq] at h
  have hbits := hx.bits_eq
  by_cases hnum : num = 0
  · have hs : x.significand = 0 := by simpa [hnum, hden.ne'] using h.symm
    have := hx.significand_normal.2
    refine eq_of_toNat ?_
    simp only [ofRatio, hnum, if_true]
    rw [hbits, hs]
    have : (0 : UInt64).toNat = 0 := rfl
    omega
  · have he := exponent_eq hx (Nat.pos_of_ne_zero hnum) hden (zpow_mul_eq h)
    have hm : num * 2 ^ (-x.exponent).toNat = x.significand * (den * 2 ^ x.exponent.toNat) := by
      rw [h, Nat.mul_left_comm]
    simp only [ofRatio, hnum, if_false, he, Nat.pow_eq]
    rw [hm, divNearest_mul _ (by positivity)]
    have hlt := hx.isFinite_iff.1 hfinite
    simp only [encode, Nat.pow_eq, ← hbits, bits_infinity, Nat.not_le.2 hlt, if_false]
    exact eq_of_toNat (by simp)

theorem toNat_toUInt64 {n : Nat} (h : n < 2047 * 2 ^ 52) : n.toUInt64.toNat = n := by
  have : n % 2 ^ 64 = n := Nat.mod_eq_of_lt (by omega)
  simpa using this

theorem toNat_encode {m : Nat} {e : Int} (h : (encode m e).isFinite = true) :
    (encode m e).bits.toNat = (e + 1074).toNat * 2 ^ 52 + m := by
  simp only [encode, Nat.pow_eq, bits_infinity] at h ⊢
  split
  · next hle =>
    rw [if_pos hle] at h
    exact absurd h (by decide)
  · next hlt => exact toNat_toUInt64 (Nat.not_le.1 hlt)

/-- Digits are never read as a negative number or a NaN. -/
theorem unsigned_ofRatio (num den : Nat) : (ofRatio num den).Unsigned := by
  simp only [ofRatio, encode, Nat.pow_eq, bits_infinity, Unsigned]
  split
  · decide
  · split
    · decide
    · next hlt =>
      rw [toNat_toUInt64 (Nat.not_le.1 hlt)]
      omega

/-! ## whole numbers -/

theorem pow_log2_bounds {n : Nat} {k : Int} (h : Between n 1 k) (hk : 0 ≤ k) :
    2 ^ k.toNat ≤ n ∧ n < 2 ^ (k.toNat + 1) := by
  obtain ⟨j, rfl⟩ := Int.eq_ofNat_of_zero_le hk
  obtain ⟨hlow, hhigh⟩ := h
  simp only [Nat.cast_one, mul_one, ← Nat.cast_succ, zpow_natCast, Int.toNat_natCast] at *
  exact ⟨by exact_mod_cast hlow, by exact_mod_cast hhigh⟩

theorem isWhole_of_exponent {x : Binary64} (h : x.isFinite = true) (he : 0 ≤ x.exponent) : x.isWhole = true := by
  have : (-x.exponent).toNat = 0 := by omega
  simp [Binary64.isWhole, Binary64.ratio, h, this, Nat.mod_one]

theorem isWhole_of_dvd {x : Binary64} (h : x.isFinite = true) (hs : 2 ^ (-x.exponent).toNat ∣ x.significand) :
    x.isWhole = true := by
  simp only [Binary64.isWhole, Binary64.ratio, h, Nat.pow_eq, Bool.true_and]
  exact decide_eq_true (Nat.mod_eq_zero_of_dvd (hs.mul_right _))

theorem le_divNearest (num den : Nat) : num / den ≤ divNearest num den := by
  simp only [divNearest]
  split <;> omega

/-- A natural number is read as a whole double, also where it has to be rounded. -/
theorem isWhole_ofRatio {n : Nat} (h : (ofRatio n 1).isFinite = true) : (ofRatio n 1).isWhole = true := by
  have hx := unsigned_ofRatio n 1
  rcases Nat.eq_zero_or_pos n with rfl | hn
  · exact isWhole_of_dvd h (Nat.dvd_zero _)
  have hb := between_floorLog2 hn Nat.one_pos
  have hk : 0 < floorLog2 n 1 + 1 := lt_succ_of_zpow Nat.one_pos (by rw [zpow_zero, one_mul]; exact_mod_cast hn) hb.2
  obtain ⟨hlow, hhigh⟩ := pow_log2_bounds hb (by omega)
  generalize hxe : ofRatio n 1 = x at *
  simp only [ofRatio, hn.ne', if_false, Nat.pow_eq, one_mul] at hxe
  generalize floorLog2 n 1 = k at *
  rw [max_eq_right (by omega)] at hxe
  have hbits := toNat_encode (hxe ▸ h)
  rw [hxe] at hbits
  have he : x.exponent = (max 1 (x.bits.toNat / 2 ^ 52) : Nat) - 1075 := by rw [Binary64.exponent, hx.exponentField]
  rcases Int.le_total 52 k with hk' | hk'
  · obtain ⟨j, rfl⟩ : ∃ j : Nat, k = j + 52 := ⟨(k - 52).toNat, by omega⟩
    have hm : 2 ^ 52 ≤ divNearest (n * 2 ^ (-(j + 52 - 52 : Int)).toNat) (2 ^ (j + 52 - 52 : Int).toNat) := by
      refine le_trans ?_ (le_divNearest _ _)
      rw [show (-(j + 52 - 52 : Int)).toNat = 0 by omega, show (j + 52 - 52 : Int).toNat = j by omega, pow_zero, mul_one,
        Nat.le_div_iff_mul_le (by positivity), ← pow_add]
      exact le_trans (le_of_eq (by congr 1; omega)) hlow
    exact isWhole_of_exponent h (by omega)
  · obtain ⟨j, hj⟩ : ∃ j : Nat, k + j = 52 := ⟨(52 - k).toNat, by omega⟩
    have hm : divNearest (n * 2 ^ (-(k - 52)).toNat) (2 ^ (k - 52).toNat) = n * 2 ^ j := by
      rw [show (-(k - 52)).toNat = j by omega, show (k - 52).toNat = 0 by omega, pow_zero]
      exact (congrArg (divNearest · 1) (mul_one _).symm).trans (divNearest_mul _ Nat.one_pos)
    have hlow' : 2 ^ 52 ≤ n * 2 ^ j := by
      refine le_trans (le_of_eq ?_) (Nat.mul_le_mul_right _ hlow)
      rw [← pow_add]
      congr 1
      omega
    have hhigh' : n * 2 ^ j < 2 ^ 53 := by
      refine lt_of_lt_of_eq (Nat.mul_lt_mul_of_pos_right hhigh (by positivity)) ?_
      rw [← pow_add]
      congr 1
      omega
    rw [hm] at hbits
    have hexp : x.exponent = -j := by omega
    have hs : x.significand = n * 2 ^ j := by
      have := hx.bits_eq
      omega
    exact isWhole_of_dvd h (by rw [hexp, hs, neg_neg, Int.toNat_natCast]; exact Nat.dvd_mul_left _ _)

/-! ## the digits of a double -/

/-- All digits of a double are read as that double. -/
theorem toBinary64_exactDecimal {x : Binary64} (hx : x.Unsigned) (hfinite : x.isFinite = true) :
    x.exactDecimal.toBinary64 = x := by
  refine ofRatio_eq hx hfinite (by simp [Decimal.ratio]) ?_
  simp only [Decimal.ratio, exactDecimal, Nat.pow_eq, neg_neg, Int.toNat_natCast, Int.toNat_neg_natCast, pow_zero, mul_one]
  rw [show x.ratio.2 = 2 ^ (-x.exponent).toNat from rfl, mul_assoc, ← mul_pow, mul_comm]
  norm_num

/-- A double that is not whole has digits behind the point. -/
theorem scale_shortestFrom_neg {x : Binary64} (hx : x.Unsigned) (hfinite : x.isFinite = true) (hwhole : x.isWhole = false)
    (point : Int) (fuel digits : Nat) : (x.shortestFrom point fuel digits).scale < 0 := by
  have hread := shortestFrom_reads_back (toBinary64_exactDecimal hx hfinite) point fuel digits
  generalize x.shortestFrom point fuel digits = d at hread
  by_contra hscale
  have hden : d.ratio.2 = 1 := by
    simp only [Decimal.ratio, Nat.pow_eq]
    rw [show (-d.scale).toNat = 0 by omega, pow_zero]
  have := isWhole_ofRatio (n := d.ratio.1)
  rw [← hden] at this
  change d.toBinary64.isFinite = true → d.toBinary64.isWhole = true at this
  rw [hread, hwhole] at this
  exact absurd (this hfinite) (by decide)

end Binary64

/-! ## texts are read back -/

/-- At least one digit and nothing else. -/
def IsDigits (cs : List Char) : Prop := cs ≠ [] ∧ ∀ c ∈ cs, c.isDigit = true

theorem isDigits_toDigits (n : Nat) : IsDigits (Nat.toDigits 10 n) :=
  ⟨Nat.toDigits_ne_nil, fun _ hc => Nat.isDigit_of_mem_toDigits (by decide) (by decide) hc⟩

/-- Positional notation with digits behind the point is read as the number it is written for. -/
theorem Decimal.exists_positional {d : Decimal} (h : d.scale < 0) : ∃ whole fraction,
    d.positional = whole ++ '.' :: fraction ∧ IsDigits whole ∧ IsDigits fraction ∧ Decimal.ofDigits whole fraction = d := by
  obtain ⟨coefficient, scale⟩ := d
  obtain ⟨p, hp⟩ : ∃ p : Nat, scale = -(p + 1 : Nat) := ⟨(-scale).toNat - 1, by simp only at h; omega⟩
  obtain ⟨hne, hdigits⟩ := isDigits_toDigits coefficient
  have hread := Nat.ofDigitChars_ten_toDigits (n := coefficient)
  simp only [positional, hp, neg_neg, Int.toNat_natCast, Nat.succ_ne_zero, if_false]
  generalize Nat.toDigits 10 coefficient = digits at *
  split
  · next hlt =>
    refine ⟨_, _, rfl, ⟨?_, fun c hc => hdigits c (List.mem_of_mem_take hc)⟩,
      ⟨?_, fun c hc => hdigits c (List.mem_of_mem_drop hc)⟩, ?_⟩
    · rw [← List.length_pos_iff, List.length_take]
      omega
    · rw [← List.length_pos_iff, List.length_drop]
      omega
    · rw [Decimal.ofDigits, List.take_append_drop, hread, List.length_drop]
      congr 2
      omega
  · next hle =>
    refine ⟨['0'], _, rfl, ⟨by simp, by simp⟩, ⟨by simp [hne], fun c hc => ?_⟩, ?_⟩
    · rcases List.mem_append.1 hc with hc | hc
      · rw [List.eq_of_mem_replicate hc]
        rfl
      · exact hdigits c hc
    · have hzeros : Nat.ofDigitChars 10 (['0'] ++ (List.replicate (p + 1 - digits.length) '0' ++ digits)) 0 = coefficient := by
        rw [Nat.ofDigitChars_append, Nat.ofDigitChars_append, Nat.ofDigitChars_replicate_zero]
        simpa [Nat.ofDigitChars_cons] using hread
      rw [Decimal.ofDigits, hzeros, List.length_append, List.length_replicate]
      congr 2
      omega

namespace Binary64

theorem text_infinity : infinity.text = "inf" := by decide

theorem isWhole_iff {x : Binary64} (hfinite : x.isFinite = true) : x.isWhole = true ↔ x.ratio.2 ∣ x.ratio.1 := by
  rw [isWhole, hfinite, Bool.true_and, decide_eq_true_eq, Nat.dvd_iff_mod_eq_zero]

/-- A double that is not negative is its own magnitude. -/
theorem Unsigned.shortest_eq {x : Binary64} (hx : x.Unsigned) :
    x.shortest = x.shortestFrom (decimalPoint x.ratio.1 x.ratio.2) 17 1 := by
  have : (⟨(x.bits.toNat % Nat.pow 2 63).toUInt64⟩ : Binary64) = x := by
    simp only [Unsigned] at hx
    refine eq_of_toNat ?_
    simp only [Nat.pow_eq]
    rw [Nat.mod_eq_of_lt (by omega)]
    simp
  simp only [shortest, this]

/-- **The text of a double is read as that double.** -/
theorem exists_text {x : Binary64} (hx : x.Unsigned) (hfinite : x.isFinite = true) : ∃ whole fraction,
    x.text.toList = whole ++ '.' :: fraction ∧ IsDigits whole ∧ IsDigits fraction ∧
      (Decimal.ofDigits whole fraction).toBinary64 = x := by
  simp only [text, hx.negative, hx.isNaN, hfinite, Bool.false_eq_true, if_false, Bool.not_true, String.empty_append]
  by_cases hwhole : x.isWhole = true
  · obtain ⟨n, hn⟩ := (isWhole_iff hfinite).1 hwhole
    refine ⟨Nat.toDigits 10 (x.ratio.1 / x.ratio.2), ['0'], ?_, isDigits_toDigits _, ⟨by simp, by simp⟩, ?_⟩
    · rw [if_pos hwhole, String.toList_append, Nat.toString_eq_ofList_toDigits, String.toList_ofList]
      rfl
    · rw [hn, Nat.mul_div_cancel_left _ (ratio_snd_pos x)]
      refine ofRatio_eq hx hfinite (by simp [Decimal.ratio, Decimal.ofDigits]) ?_
      simp only [Decimal.ratio, Decimal.ofDigits, Nat.ofDigitChars_append, Nat.ofDigitChars_ten_toDigits, hn]
      simp [Nat.ofDigitChars_cons]
      ring
  · have hscale := scale_shortestFrom_neg hx hfinite (by simpa using hwhole) (decimalPoint x.ratio.1 x.ratio.2) 17 1
    obtain ⟨whole, fraction, htext, hw, hf, hread⟩ := Decimal.exists_positional hscale
    refine ⟨whole, fraction, ?_, hw, hf, ?_⟩
    · rw [if_neg hwhole, String.toList_ofList, hx.shortest_eq, htext]
    · rw [hread]
      exact shortestFrom_reads_back (toBinary64_exactDecimal hx hfinite) _ _ _

end Binary64

end LetFn
