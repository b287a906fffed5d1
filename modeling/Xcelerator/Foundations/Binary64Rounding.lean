import Mathlib
import Xcelerator.Foundations.Binary64
import Xcelerator.Foundations.BinaryRounding

/-! # Rounding to the nearest binary64 value

The unit in the last place is the one of a 53 bit significand, but never below
the smallest subnormal. A tie goes to the even significand. The result may lie
beyond the largest finite value: that is overflow. -/

namespace Xcelerator.Foundations.BinaryRounding

/-- The nearest mode treats both signs alike. -/
theorem toInteger_nearest_neg (q : ℚ) : toInteger .nearest (-q) = -toInteger .nearest q := by
  by_cases hint : ∃ z : ℤ, q = z
  · obtain ⟨z, rfl⟩ := hint
    rw [← Int.cast_neg, toInteger_intCast, toInteger_intCast]
  · have hlt : (⌊q⌋ : ℚ) < q := lt_of_le_of_ne (Int.floor_le q) fun h => hint ⟨⌊q⌋, h.symm⟩
    have hfloor : ⌊-q⌋ = -⌊q⌋ - 1 := by
      refine Int.floor_eq_iff.mpr ⟨?_, ?_⟩
      · push_cast
        linarith [Int.lt_floor_add_one q]
      · push_cast
        linarith
    simp only [toInteger, hfloor]
    push_cast
    rcases lt_trichotomy (q - ⌊q⌋) (1 / 2) with h | h | h
    · rw [if_neg (by linarith), if_pos (by linarith), if_pos h]
      ring
    · rw [if_neg (by linarith), if_neg (by linarith)]
      by_cases heven : ⌊q⌋ % 2 = 0
      · rw [if_neg (by omega), if_neg (by linarith), if_neg (by linarith), if_pos heven]
        ring
      · rw [if_pos (by omega), if_neg (by linarith), if_neg (by linarith), if_neg heven]
        ring
    · rw [if_pos (by linarith), if_neg (by linarith), if_pos h]
      ring

/-- The integer nearest to a shifted natural number, from its guard and lower bits. -/
theorem toInteger_nearest_shift (v t : ℕ) :
    toInteger .nearest ((v : ℚ) / 2 ^ (t + 1)) =
      (v / 2 ^ (t + 1) : ℕ) +
        if v.testBit t = true ∧ (v % 2 ^ t ≠ 0 ∨ v / 2 ^ (t + 1) % 2 = 1) then 1 else 0 := by
  have hpow : (0 : ℚ) < 2 ^ t := by positivity
  have hsplit := Nat.div_add_mod v (2 ^ (t + 1))
  have hmod : v % 2 ^ (t + 1) = v % 2 ^ t + 2 ^ t * (v / 2 ^ t % 2) := by rw [pow_succ, Nat.mod_mul]
  have hlow : v % 2 ^ t < 2 ^ t := Nat.mod_lt _ (by positivity)
  have hbit : v / 2 ^ t % 2 < 2 := Nat.mod_lt _ (by norm_num)
  have hguard : v.testBit t = true ↔ v / 2 ^ t % 2 = 1 :=
    by rw [Nat.testBit_eq_decide_div_mod_eq]; simp
  have hfloor : ⌊(v : ℚ) / 2 ^ (t + 1)⌋ = (v / 2 ^ (t + 1) : ℕ) := by
    have := Rat.floor_intCast_div_natCast v (2 ^ (t + 1))
    push_cast at this
    rw [this]
    norm_cast
  have hfraction : (v : ℚ) / 2 ^ (t + 1) - ((v / 2 ^ (t + 1) : ℕ) : ℚ) =
      (v % 2 ^ (t + 1) : ℕ) / 2 ^ (t + 1) := by
    have : (v : ℚ) = 2 ^ (t + 1) * (v / 2 ^ (t + 1) : ℕ) + (v % 2 ^ (t + 1) : ℕ) :=
      by exact_mod_cast hsplit.symm
    have hne : (2 : ℚ) ^ (t + 1) ≠ 0 := by positivity
    field_simp
    linarith
  have hhalf : (1 / 2 : ℚ) = 2 ^ t / 2 ^ (t + 1) := by
    rw [pow_succ]
    field_simp
  have hlt : (v : ℚ) / 2 ^ (t + 1) - ((v / 2 ^ (t + 1) : ℕ) : ℚ) < 1 / 2 ↔
      v % 2 ^ (t + 1) < 2 ^ t := by
    rw [hfraction, hhalf, div_lt_div_iff_of_pos_right (by positivity)]
    exact_mod_cast Iff.rfl
  have hgt : 1 / 2 < (v : ℚ) / 2 ^ (t + 1) - ((v / 2 ^ (t + 1) : ℕ) : ℚ) ↔
      2 ^ t < v % 2 ^ (t + 1) := by
    rw [hfraction, hhalf, div_lt_div_iff_of_pos_right (by positivity)]
    exact_mod_cast Iff.rfl
  have hparity : ((v / 2 ^ (t + 1) : ℕ) : ℤ) % 2 = 0 ↔ v / 2 ^ (t + 1) % 2 = 0 := by omega
  simp only [toInteger, hfloor, Int.cast_natCast, hlt, hgt, hparity, hguard, hmod]
  rcases Nat.lt_or_ge (v / 2 ^ t % 2) 1 with h0 | h1
  · have hzero : v / 2 ^ t % 2 = 0 := by omega
    rw [hzero, if_pos (by omega), if_neg (by omega)]
    simp
  · have hone : v / 2 ^ t % 2 = 1 := by omega
    rw [hone, if_neg (by omega)]
    by_cases hsticky : v % 2 ^ t = 0
    · rw [if_neg (by omega)]
      by_cases heven : v / 2 ^ (t + 1) % 2 = 0
      · rw [if_pos heven, if_neg (by omega), add_zero]
      · rw [if_neg heven, if_pos (by omega)]
    · rw [if_pos (by omega), if_pos ⟨rfl, .inl hsticky⟩]

end Xcelerator.Foundations.BinaryRounding

namespace Xcelerator.Foundations.Binary64
open BinaryRounding

/-- The unit in the last place at a rational number. -/
def ulp (x : ℚ) : ℚ := 2 ^ max (Int.log 2 |x| - 52) (-1074)

/-- The nearest value with unbounded exponent, ties to the even significand. -/
def nearestEven (x : ℚ) : ℚ := toInteger .nearest (x / ulp x) * ulp x

theorem nearestEven_zero : nearestEven 0 = 0 := by
  have : toInteger .nearest 0 = 0 := by simpa using toInteger_intCast .nearest 0
  simp [nearestEven, this]

theorem nearestEven_neg (x : ℚ) : nearestEven (-x) = -nearestEven x := by
  have hulp : ulp (-x) = ulp x := by rw [ulp, ulp, abs_neg]
  rw [nearestEven, nearestEven, hulp, neg_div, toInteger_nearest_neg]
  push_cast
  ring

/-! ## Bits of a rounded value -/

/-- The fields of a bit pattern put together from them. -/
theorem fields_of_bits {x : Binary64} {negative : Bool} {encoded fraction : ℕ} (he : encoded < 2048)
    (hf : fraction < 2 ^ 52) (h : x.bits = negative.toNat * 2 ^ 63 + encoded * 2 ^ 52 + fraction) :
    x.negative = negative ∧ x.encoded = encoded ∧ x.fraction = fraction := by
  have hfraction : x.fraction = fraction := by
    rw [Binary64.fraction, h]
    omega
  have hencoded : x.encoded = encoded := by
    rw [Binary64.encoded, h]
    omega
  refine ⟨?_, hencoded, hfraction⟩
  cases negative
  · have : x.bits / 2 ^ 63 = 0 := by
      rw [h, Bool.toNat_false]
      omega
    rw [Binary64.negative, this]
    rfl
  · have : x.bits / 2 ^ 63 ≠ 0 := by
      rw [h, Bool.toNat_true]
      omega
    rwa [Binary64.negative, bne_iff_ne]

/-- Signs, exponents and fractions occupy bits of their own. -/
theorem or_fields (negative : Bool) {encoded fraction : ℕ} (he : encoded < 2048)
    (hf : fraction < 2 ^ 52) :
    (negative.toNat <<< 63) ||| ((encoded <<< 52) ||| fraction) =
      negative.toNat * 2 ^ 63 + encoded * 2 ^ 52 + fraction := by
  have hinner := Nat.two_pow_add_eq_or_of_lt hf encoded
  have hlt : 2 ^ 52 * encoded + fraction < 2 ^ 63 := by omega
  have houter := Nat.two_pow_add_eq_or_of_lt hlt negative.toNat
  rw [Nat.shiftLeft_eq, Nat.shiftLeft_eq, Nat.mul_comm encoded, ← hinner,
    Nat.mul_comm negative.toNat, ← houter]
  ring

/-- A normal significand with its exponent. -/
theorem value_normal {x : Binary64} {negative : Bool} {significand : ℕ} {exponent : ℤ}
    (hl : 2 ^ 52 ≤ significand)
    (hu : significand < 2 ^ 53) (hel : -1022 ≤ exponent) (heu : exponent ≤ 1023)
    (h : x.bits = negative.toNat * 2 ^ 63 + (exponent + 1023).toNat * 2 ^ 52 +
      (significand - 2 ^ 52)) :
    x.isFinite = true ∧ x.value = (if negative then -1 else 1) * (significand :
      ℚ) * 2 ^ (exponent - 52) := by
  obtain ⟨hn, he, hf⟩ := fields_of_bits (by omega) (by omega) h
  have hne : x.encoded ≠ 0 := by omega
  have hsignificand : x.significand = significand := by
    rw [Binary64.significand, if_neg hne, hf]
    omega
  have hexponent : x.exponent = exponent - 52 := by
    rw [Binary64.exponent, if_neg hne, he]
    omega
  refine ⟨?_, ?_⟩
  · rw [isFinite, bne_iff_ne]
    omega
  · rw [value, signed, hn, hsignificand, hexponent]
    cases negative <;> simp

/-- A significand at the smallest exponent, up to the smallest normal one. -/
theorem value_subnormal {x : Binary64} {negative : Bool} {significand : ℕ}
    (hu : significand ≤ 2 ^ 52) (h : x.bits = negative.toNat * 2 ^ 63 + significand) :
    x.isFinite = true ∧ x.value = (if negative then -1 else 1) * (significand :
      ℚ) * 2 ^ (-1074 : ℤ) := by
  rcases Nat.lt_or_ge significand (2 ^ 52) with hlt | hge
  · have hbits : x.bits = negative.toNat * 2 ^ 63 + 0 * 2 ^ 52 + significand := by
      rw [h, Nat.zero_mul, Nat.add_zero]
    obtain ⟨hn, he, hf⟩ := fields_of_bits (by norm_num) hlt hbits
    refine ⟨by rw [isFinite, he]; rfl, ?_⟩
    rw [value, signed, hn, Binary64.significand, Binary64.exponent, if_pos he, if_pos he, hf]
    cases negative <;> simp
  · have heq : significand = 2 ^ 52 := by omega
    have hbits : x.bits = negative.toNat * 2 ^ 63 + (-1022 + 1023 : ℤ).toNat * 2 ^ 52 +
        (significand - 2 ^ 52) := by
      rw [h, heq]
      norm_num
    obtain ⟨hfinite, hvalue⟩ := value_normal hge (by omega) le_rfl (by norm_num) hbits
    refine ⟨hfinite, ?_⟩
    rw [hvalue]
    norm_num

theorem isFinite_lt {x : Binary64} (h : x.isFinite = true) : |x.value| < 2 ^ (1024 : ℤ) := by
  have hexponent := (exponent_bounds h).2
  have hsignificand : (x.significand : ℚ) < 2 ^ (53 : ℤ) := by exact_mod_cast x.significand_lt
  have habs : |x.value| = x.significand * 2 ^ x.exponent := by
    have hpow : (0 : ℚ) < 2 ^ x.exponent := by positivity
    rw [value, abs_mul, abs_of_pos hpow, signed]
    split <;> simp
  calc |x.value| = x.significand * 2 ^ x.exponent := habs
    _ ≤ x.significand * 2 ^ (971 : ℤ) :=
        mul_le_mul_of_nonneg_left (zpow_le_zpow_right₀ (by norm_num) hexponent) (by positivity)
    _ < 2 ^ (53 : ℤ) * 2 ^ (971 : ℤ) := mul_lt_mul_of_pos_right hsignificand (by positivity)
    _ = 2 ^ (1024 : ℤ) := by rw [← zpow_add₀ (by norm_num : (2 : ℚ) ≠ 0)]; norm_num

end Xcelerator.Foundations.Binary64
