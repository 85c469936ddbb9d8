import LetFn.Proofs.Number.Exact

/-!
# The range of doubles

Rounding gives infinity for the quotients that are nearer to the first power of two beyond the range than to the
greatest finite double, and for the quotient that is as near to one as to the other, because that power is even.

* `Binary64.limit` — the number half a step above the greatest finite double.

Main fact: `isFinite_ofRatio_iff`.
-/

namespace LetFn.Binary64

/-- Half a step above the greatest finite double, which is `(2^53 - 1) · 2^971`. -/
def limit : Nat := (Nat.pow 2 54 - 1) * Nat.pow 2 970

/-- A quotient is rounded up to an even number from half a step below it on. -/
theorem le_divNearest_iff {num den m : Nat} (hden : 0 < den) (hm : 0 < m) (heven : m % 2 = 0) :
    m ≤ divNearest num den ↔ (2 * m - 1) * den ≤ 2 * num := by
  have hdiv := Nat.div_add_mod num den
  have hmod := Nat.mod_lt num hden
  have hstep : (2 * m - 1) * den + den = 2 * (den * m) := by
    rw [← Nat.succ_mul, Nat.succ_eq_add_one, Nat.sub_add_cancel (by omega)]
    ring
  simp only [divNearest]
  generalize num / den = q at *
  generalize num % den = r at *
  rcases Nat.lt_trichotomy (q + 1) m with hlt | rfl | hgt
  · -- the quotient is a whole step below the number
    have hle : den * (q + 2) ≤ den * m := Nat.mul_le_mul_left den (by omega)
    rw [Nat.mul_add] at hle
    constructor
    · intro h
      split at h <;> omega
    · intro h
      omega
  · have hsucc : den * (q + 1) = den * q + den := Nat.mul_succ den q
    constructor
    · intro h
      split at h <;> omega
    · intro h
      rw [if_neg (by omega)]
  · have hle : den * m ≤ den * q := Nat.mul_le_mul_left den (by omega)
    constructor
    · intro
      omega
    · intro
      split <;> omega

theorem isFinite_encode_iff {m : Nat} {e : Int} :
    (encode m e).isFinite = true ↔ (e + 1074).toNat * 2 ^ 52 + m < 2047 * 2 ^ 52 := by
  simp only [encode, Nat.pow_eq, bits_infinity]
  split
  · next hle =>
    refine iff_of_false (by decide) ?_
    omega
  · next hlt =>
    have hbits := toNat_toUInt64 (Nat.not_le.1 hlt)
    have hunsigned : Unsigned ⟨((e + 1074).toNat * 2 ^ 52 + m).toUInt64⟩ := by
      rw [Unsigned, hbits]
      omega
    rw [hunsigned.isFinite_iff, hbits]

theorem divNearest_le {num den m : Nat} (hden : 0 < den) (h : num < m * den) : divNearest num den ≤ m := by
  have := (Nat.div_lt_iff_lt_mul hden).2 h
  simp only [divNearest]
  split <;> omega

theorem lt_zpow_mul_iff {num den : Nat} {k : Int} :
    (num : ℚ) < 2 ^ k * den ↔ num * 2 ^ (-k).toNat < den * 2 ^ k.toNat := by
  rw [← not_le, zpow_mul_le_iff, Nat.not_le]

theorem limit_eq : limit = (2 ^ 54 - 1) * 2 ^ 970 := by
  unfold limit
  -- the power is too large to be evaluated
  generalize 970 = k
  rfl

theorem pow_le_limit : 2 ^ 1023 ≤ limit := by
  rw [limit_eq, show 1023 = 53 + 970 from rfl, pow_add]
  exact Nat.mul_le_mul_right _ (by decide)

theorem limit_le_pow (j : Nat) : limit ≤ 2 ^ (j + 1024) := by
  rw [limit_eq, show j + 1024 = j + (54 + 970) from rfl, pow_add, pow_add 2 54 970]
  refine le_trans (Nat.mul_le_mul_right _ ?_) (Nat.le_mul_of_pos_left _ (Nat.two_pow_pos j))
  decide

theorem half_step {k : Nat} (hk : k = 970) (den : Nat) :
    (2 * 2 ^ 53 - 1) * (den * 2 ^ (k + 1)) = 2 * (limit * den) := by
  rw [limit_eq, ← hk, pow_succ 2 k, show 2 * 2 ^ 53 - 1 = 2 ^ 54 - 1 from rfl]
  ring

/-- A quotient below `2^(e + 53)` fills the 53 digits of a significand. -/
theorem significand_le {num den : Nat} {e : Int} (hden : 0 < den) (h : (num : ℚ) < 2 ^ (e + 53) * den) :
    divNearest (num * 2 ^ (-e).toNat) (den * 2 ^ e.toNat) ≤ 2 ^ 53 := by
  refine divNearest_le (by positivity) ?_
  have hscaled : (num : ℚ) < 2 ^ e * (2 ^ 53 * den : Nat) := by
    refine h.trans_eq ?_
    rw [zpow_add₀ two_ne_zero]
    push_cast
    ring
  rw [← Nat.mul_assoc]
  exact lt_zpow_mul_iff.1 hscaled

/-- A quotient from `2^(j + 52)` on has a significand without leading zeros. -/
theorem le_significand {num den j : Nat} (hden : 0 < den) (h : den * 2 ^ (j + 52) ≤ num) :
    2 ^ 52 ≤ divNearest num (den * 2 ^ j) := by
  refine le_trans ?_ (le_divNearest _ _)
  rw [Nat.le_div_iff_mul_le (by positivity)]
  refine le_of_eq_of_le ?_ h
  rw [pow_add]
  ring

/-- **The quotients that are rounded to a finite number** are those below the limit. -/
theorem isFinite_ofRatio_iff {num den : Nat} (hden : 0 < den) :
    (ofRatio num den).isFinite = true ↔ num < limit * den := by
  rcases Nat.eq_zero_or_pos num with rfl | hnum
  · refine iff_of_true ?_ (Nat.mul_pos (lt_of_lt_of_le (Nat.two_pow_pos _) pow_le_limit) hden)
    rw [ofRatio, if_pos rfl]
    decide
  obtain ⟨hlow, hhigh⟩ := between_floorLog2 hnum hden
  simp only [ofRatio, hnum.ne', if_false, Nat.pow_eq, isFinite_encode_iff]
  generalize floorLog2 num den = l at *
  rcases Int.lt_trichotomy l 1023 with hlt | rfl | hgt
  · generalize he : max (-1074) (l - 52) = e
    refine iff_of_true ?_ ?_
    · have hfills : (num : ℚ) < 2 ^ (e + 53) * den := by
        refine hhigh.trans_le (mul_le_mul_of_nonneg_right ?_ (Nat.cast_nonneg den))
        exact zpow_le_zpow_right₀ (by norm_num) (by omega)
      have := significand_le hden hfills
      omega
    · have hbelow : (num : ℚ) < 2 ^ (1023 : Int) * den := by
        refine hhigh.trans_le (mul_le_mul_of_nonneg_right ?_ (Nat.cast_nonneg den))
        exact zpow_le_zpow_right₀ (by norm_num) (by omega)
      rw [lt_zpow_mul_iff] at hbelow
      simp only [Int.reduceNeg, Int.reduceToNat, pow_zero, mul_one] at hbelow
      refine hbelow.trans_le ?_
      rw [Nat.mul_comm]
      exact Nat.mul_le_mul_right den pow_le_limit
  · obtain ⟨k, hk⟩ : ∃ k, k = 970 := ⟨_, rfl⟩
    have he : max (-1074) (1023 - 52 : Int) = (k + 1 : Nat) := by omega
    have hround : 2 ^ 53 ≤ divNearest num (den * 2 ^ (k + 1)) ↔ _ :=
      le_divNearest_iff (Nat.mul_pos hden (Nat.two_pow_pos (k + 1))) (Nat.two_pow_pos 53) rfl
    rw [half_step hk, Nat.mul_le_mul_left_iff two_pos] at hround
    rw [he, Int.toNat_natCast, show (-((k + 1 : Nat) : Int)).toNat = 0 by omega, pow_zero, mul_one]
    omega
  · obtain ⟨j, rfl⟩ : ∃ j : Nat, l = j + 1024 := ⟨(l - 1024).toNat, by omega⟩
    have he : max (-1074) ((j : Int) + 1024 - 52) = (j + 972 : Nat) := by omega
    have habove := zpow_mul_le_iff.1 hlow
    have hpow : den * 2 ^ (j + 1024) ≤ num := by
      rw [show (j + 1024 : Int).toNat = j + 1024 by omega, show (-(j + 1024 : Int)).toNat = 0 by omega] at habove
      rwa [pow_zero, mul_one] at habove
    rw [he, Int.toNat_natCast, show (-((j + 972 : Nat) : Int)).toNat = 0 by omega, pow_zero, mul_one]
    refine iff_of_false ?_ ?_
    · have := le_significand hden hpow
      omega
    · rw [Nat.not_lt, Nat.mul_comm]
      exact (Nat.mul_le_mul_left den (limit_le_pow j)).trans hpow

end LetFn.Binary64
