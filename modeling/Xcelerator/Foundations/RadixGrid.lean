import Mathlib

/-! # Floating grids of two radices

The numbers of at most `n` digits in a radix, at any exponent. A number of the
grid keeps a relative distance from every other, any number is relatively close
to the grid, and so a fine enough grid separates a coarser one. -/

namespace Xcelerator.Foundations.RadixGrid

/-- At most `n` digits in radix `β`. -/
def Fits (β n : Nat) (x : ℚ) : Prop := ∃ (m e : ℤ), |m| < (β : ℤ) ^ n ∧ x = m * (β : ℚ) ^ e

/-- A member of the set that no other is closer to. -/
def Nearest (P : ℚ → Prop) (x y : ℚ) : Prop := P y ∧ ∀ z, P z → |x - y| ≤ |x - z|

section
variable {β n : Nat}

theorem one_le_abs {z : ℤ} (h : z ≠ 0) : (1 : ℚ) ≤ |(z : ℚ)| := by exact_mod_cast Int.one_le_abs h

/-- Two numbers on the multiples of a unit are a unit apart. -/
theorem unit_le {u : ℚ} (hu : 0 < u) {a b : ℤ} (h : (a : ℚ) * u ≠ b * u) :
    u ≤ |(a : ℚ) * u - b * u| := by
  have hne : a - b ≠ 0 := by
    intro heq
    exact h (by rw [sub_eq_zero.mp heq])
  rw [← sub_mul, abs_mul, abs_of_pos hu, ← Int.cast_sub]
  exact le_mul_of_one_le_left hu.le (one_le_abs hne)

theorem Fits.abs_le {x : ℚ} {m e : ℤ} (hβ : 0 < β) (hm : |m| < (β : ℤ) ^ n)
    (hx : x = m * (β : ℚ) ^ e) :
    |x| ≤ ((β : ℚ) ^ n - 1) * (β : ℚ) ^ e := by
  have hpower : (0 : ℚ) < (β : ℚ) ^ e := zpow_pos (by exact_mod_cast hβ) e
  have hm' : |m| ≤ (β : ℤ) ^ n - 1 := by omega
  have hcast : |(m : ℚ)| ≤ (β : ℚ) ^ n - 1 := by exact_mod_cast hm'
  rw [hx, abs_mul, abs_of_pos hpower]
  exact mul_le_mul_of_nonneg_right hcast hpower.le

/-- Another number of the grid is at least a last digit away. -/
theorem Fits.gap (hβ : 1 < β) {x z : ℚ} (hx : Fits β n x) (hz : Fits β n z) (hne : x ≠ z) :
    |x| ≤ |x - z| * (β : ℚ) ^ n := by
  obtain ⟨m, e, hm, hxe⟩ := hx
  obtain ⟨k, f, hk, hzf⟩ := hz
  have hβ0 : (0 : ℚ) < β := by exact_mod_cast (Nat.zero_lt_of_lt hβ)
  have hβ1 : (1 : ℚ) < β := by exact_mod_cast hβ
  have hn : (0 : ℚ) < (β : ℚ) ^ n := by positivity
  have hxbound := Fits.abs_le (Nat.zero_lt_of_lt hβ) hm hxe
  have hzbound := Fits.abs_le (Nat.zero_lt_of_lt hβ) hk hzf
  -- a number on the other's unit: the distance is at least that unit
  have hshift : ∀ {a b : ℤ}, b ≤ a → ∃ c : ℤ, (β : ℚ) ^ a = c * (β : ℚ) ^ b := by
    intro a b hab
    obtain ⟨i, rfl⟩ := Int.le.dest hab
    refine ⟨(β : ℤ) ^ i, ?_⟩
    rw [zpow_add₀ hβ0.ne', zpow_natCast, mul_comm]
    push_cast
    ring
  have hpower : ∀ e : ℤ, (0 : ℚ) < (β : ℚ) ^ e := fun e => zpow_pos hβ0 e
  have hpe := hpower e
  have hpf := hpower f
  rcases le_total e f with hef | hfe
  · -- both are multiples of the unit of `x`
    obtain ⟨c, hc⟩ := hshift hef
    have hz' : z = ((k * c : ℤ) : ℚ) * (β : ℚ) ^ e := by rw [hzf, hc]; push_cast; ring
    have hdistance : (β : ℚ) ^ e ≤ |x - z| := by
      rw [hxe, hz'] at hne ⊢
      exact unit_le hpe hne
    nlinarith
  · obtain ⟨c, hc⟩ := hshift hfe
    have hx' : x = ((m * c : ℤ) : ℚ) * (β : ℚ) ^ f := by rw [hxe, hc]; push_cast; ring
    have hdistance : (β : ℚ) ^ f ≤ |x - z| := by
      rw [hx', hzf] at hne ⊢
      exact unit_le hpf hne
    rcases le_total |x| ((β : ℚ) ^ n * (β : ℚ) ^ f) with hsmall | hlarge
    · nlinarith
    · -- `z` is short of the binade that `x` has reached
      have htriangle : |x| - |z| ≤ |x - z| := abs_sub_abs_le_abs_sub x z
      have hscaled : |x| * 1 ≤ (|x| - |z|) * (β : ℚ) ^ n := by
        have hone : (1 : ℚ) ≤ (β : ℚ) ^ n := one_le_pow₀ hβ1.le
        nlinarith
      nlinarith

/-- Every number has a number of the grid within half a unit of its last digit. -/
theorem exists_close (hβ : 1 < β) (hn : 0 < n) {x : ℚ} (hx : x ≠ 0) :
    ∃ z, Fits β n z ∧ 2 * |x - z| * (β : ℚ) ^ (n - 1) ≤ |x| := by
  have hβ0 : (0 : ℚ) < β := by exact_mod_cast (Nat.zero_lt_of_lt hβ)
  have habs : 0 < |x| := abs_pos.mpr hx
  obtain ⟨e, hle, hlt⟩ := exists_mem_Ico_zpow habs (show (1 : ℚ) < β by exact_mod_cast hβ)
  set u : ℚ := (β : ℚ) ^ (e - (n - 1 : ℕ)) with hu
  have hupos : 0 < u := zpow_pos hβ0 _
  have hunit : u * (β : ℚ) ^ (n - 1) = (β : ℚ) ^ e := by
    rw [hu, ← zpow_natCast (β : ℚ) (n - 1), ← zpow_add₀ hβ0.ne', sub_add_cancel]
  have hround : |x / u - round (x / u)| ≤ 1 / 2 := abs_sub_round _
  refine ⟨round (x / u) * u, ?_, ?_⟩
  · have hquotient : |x / u| < (β : ℚ) ^ n := by
      rw [abs_div, abs_of_pos hupos, div_lt_iff₀ hupos]
      calc |x| < (β : ℚ) ^ (e + 1) := hlt
        _ = (β : ℚ) ^ n * u := by
          rw [hu, ← zpow_natCast (β : ℚ) n, ← zpow_add₀ hβ0.ne']
          congr 1
          omega
    have hbound : |round (x / u)| ≤ (β : ℤ) ^ n := by
      have habs' : |(round (x / u) : ℚ)| < (β : ℚ) ^ n + 1 := by
        calc |(round (x / u) : ℚ)| = |x / u - (x / u - round (x / u))| := by ring_nf
          _ ≤ |x / u| + |x / u - round (x / u)| := abs_sub _ _
          _ < (β : ℚ) ^ n + 1 := by linarith
      have hint : |round (x / u)| < (β : ℤ) ^ n + 1 := by exact_mod_cast habs'
      omega
    rcases hbound.lt_or_eq with hfits | hcarry
    · exact ⟨round (x / u), _, hfits, rfl⟩
    · -- rounding up to the next power of the radix needs one digit only
      have hone : (1 : ℤ) < (β : ℤ) ^ n := one_lt_pow₀ (by exact_mod_cast hβ) hn.ne'
      rcases abs_choice (round (x / u)) with hpositive | hnegative
      · refine ⟨1, e - (n - 1 : ℕ) + n, by simpa using hone, ?_⟩
        rw [← hpositive, hcarry, zpow_add₀ hβ0.ne', ← hu, zpow_natCast]
        push_cast
        ring
      · refine ⟨-1, e - (n - 1 : ℕ) + n, by simpa using hone, ?_⟩
        rw [← neg_neg (round (x / u)), ← hnegative, hcarry, zpow_add₀ hβ0.ne', ← hu, zpow_natCast]
        push_cast
        ring
  · have hdistance : |x - round (x / u) * u| ≤ u / 2 := by
      have hfactor : x - round (x / u) * u = (x / u - round (x / u)) * u := by
        field_simp
      rw [hfactor, abs_mul, abs_of_pos hupos]
      nlinarith
    have hpow : (0 : ℚ) < (β : ℚ) ^ (n - 1) := by positivity
    nlinarith

/-- **Separation.** A nearest number of a finer grid determines the number it was taken of. -/
theorem Nearest.separates {γ k : Nat} (hβ : 1 < β) (hγ : 1 < γ) (hk : 0 < k)
    (hfine : β ^ n < γ ^ (k - 1))
    {x y z : ℚ} (hx : Fits β n x) (hx0 : x ≠ 0) (hy : Nearest (Fits γ k) x y) (hz : Fits β n z)
    (hne : z ≠ x) :
    |x - y| < |z - y| := by
  obtain ⟨w, hw, hclose⟩ := exists_close hγ hk hx0
  have hnearest := hy.2 w hw
  have hgap := Fits.gap hβ hx hz hne.symm
  have hx' : 0 < |x| := abs_pos.mpr hx0
  have hfine' : (β : ℚ) ^ n < (γ : ℚ) ^ (k - 1) := by exact_mod_cast hfine
  have hβn : (0 : ℚ) < (β : ℚ) ^ n := by
    have : (0 : ℚ) < β := by exact_mod_cast (Nat.zero_lt_of_lt hβ)
    positivity
  have htriangle : |x - z| ≤ |x - y| + |z - y| := by
    have := abs_sub_le x y z
    rwa [abs_sub_comm y z] at this
  -- the grid of `x` is coarser than twice the distance to `y`
  have hhalf : 2 * |x - y| < |x - z| := by
    by_contra hnot
    have hle : |x - z| ≤ 2 * |x - w| := by linarith
    have hdistance : 0 < |x - w| := by
      have := abs_pos.mpr (sub_ne_zero.mpr hne.symm)
      linarith
    nlinarith
  linarith

end

end Xcelerator.Foundations.RadixGrid
