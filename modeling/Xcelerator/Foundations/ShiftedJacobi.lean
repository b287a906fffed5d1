import Mathlib

/-! # Shifted Jacobi polynomials

The three-term recurrence of the Jacobi polynomials with parameters `α` and
zero, in the variable of the unit interval. Every moment against the weight
`(1 - t) ^ α` follows from the recurrence, and with the moments the
orthogonality and the norms. -/

namespace Xcelerator.Foundations.ShiftedJacobi
open Polynomial

/-! ## Moments of the weight -/

/-- The integral of `t ^ m * (1 - t) ^ α` over the unit interval. -/
def beta (α m : ℕ) : ℚ := m.factorial * α.factorial / (m + α + 1).factorial

/-- Integration against the weight. -/
noncomputable def weighted (α : ℕ) : ℚ[X] →ₗ[ℚ] ℚ :=
  lsum fun m => LinearMap.toSpanSingleton ℚ ℚ (beta α m)

theorem weighted_X_pow (α m : ℕ) : weighted α (X ^ m) = beta α m := by
  rw [X_pow_eq_monomial, weighted, lsum_apply, sum_monomial_index]
  · simp
  · simp

theorem weighted_C_mul (α : ℕ) (c : ℚ) (p : ℚ[X]) : weighted α (C c * p) = c * weighted α p := by
  rw [← smul_eq_C_mul, map_smul, smul_eq_mul]

/-! ## The recurrence -/

def scale (α n : ℕ) : ℚ := 2 * n * (n + α) * (2 * n + α - 2)

def outer (α n : ℕ) : ℚ := 2 * n + α - 1

def zFactor (α n : ℕ) : ℚ := (2 * n + α) * (2 * n + α - 2)

def prior (α n : ℕ) : ℚ := 2 * (n + α - 1) * (n - 1) * (2 * n + α)

/-- The polynomials in `z = 2 * t - 1`. -/
noncomputable def jacobi (α : ℕ) : ℕ → ℚ[X]
  | 0 => 1
  | 1 => C ((α + 2 : ℚ) / 2) * X + C (α / 2 : ℚ)
  | n + 2 => C (1 / scale α (n + 2)) *
      (C (outer α (n + 2) * zFactor α (n + 2)) * (X * jacobi α (n + 1)) +
        C (outer α (n + 2) * α ^ 2) * jacobi α (n + 1) - C (prior α (n + 2)) * jacobi α n)

noncomputable def shifted (α n : ℕ) : ℚ[X] := (jacobi α n).comp (C 2 * X - 1)

@[simp] theorem shifted_zero (α : ℕ) : shifted α 0 = 1 := by simp [shifted, jacobi]

theorem shifted_one (α : ℕ) : shifted α 1 = C (α + 2 : ℚ) * X - 1 := by
  have hslope : (α + 2 : ℚ) / 2 * 2 = α + 2 := by ring
  have hconstant : (α + 2 : ℚ) / 2 - α / 2 = 1 := by ring
  rw [shifted, jacobi, add_comp, mul_comp, C_comp, X_comp, C_comp, mul_sub, ← mul_assoc, ← C_mul,
    mul_one, hslope, sub_add, ← C_sub, hconstant, C_1]

theorem shifted_succ (α n : ℕ) : shifted α (n + 2) = C (1 / scale α (n + 2)) *
    (C (2 * (outer α (n + 2) * zFactor α (n + 2))) * (X * shifted α (n + 1)) +
      C (outer α (n + 2) * α ^ 2 - outer α (n + 2) * zFactor α (n + 2)) * shifted α (n + 1) -
        C (prior α (n + 2)) * shifted α n) := by
  simp only [shifted, jacobi, mul_comp, sub_comp, add_comp, C_comp, X_comp]
  simp only [C_mul, C_sub]
  ring

/-! ## Moments -/

/-- The moments of the polynomials. -/
def moment (α n m : ℕ) : ℚ :=
  m.descFactorial n / n.factorial * (m.factorial * (n + α).factorial / (m + n + α + 1).factorial)

theorem descFactorial_succ (m n : ℕ) :
    ((m.descFactorial (n + 1) : ℕ) : ℚ) = (m - n) * m.descFactorial n := by
  rw [Nat.descFactorial_succ]
  by_cases h : n ≤ m
  · rw [Nat.cast_mul, Nat.cast_sub h]
  · rw [Nat.descFactorial_of_lt (by omega), mul_zero, Nat.cast_zero, mul_zero]

theorem scale_pos (α n : ℕ) : 0 < scale α (n + 2) := by
  unfold scale
  push_cast
  have h : (0 : ℚ) < 2 * (n + 2) + α - 2 := by
    have := n.cast_nonneg (α := ℚ)
    have := α.cast_nonneg (α := ℚ)
    linarith
  positivity

/-- The recurrence of the moments. -/
theorem moment_succ (α n m : ℕ) : scale α (n + 2) * moment α (n + 2) m =
    2 * (outer α (n + 2) * zFactor α (n + 2)) * moment α (n + 1) (m + 1) +
      (outer α (n + 2) * α ^ 2 - outer α (n + 2) * zFactor α (n + 2)) * moment α (n + 1) m -
        prior α (n + 2) * moment α n m := by
  have hlast : (m + n + α + 1).factorial ≠ 0 := Nat.factorial_ne_zero _
  have hfirst : n.factorial ≠ 0 := Nat.factorial_ne_zero _
  have hup : (m + 1).descFactorial (n + 1) = (m + 1) * m.descFactorial n :=
    Nat.succ_descFactorial_succ m n
  have hone : m + (n + 1) + α + 1 = m + n + α + 1 + 1 := by ring
  have htwo : m + (n + 2) + α + 1 = m + n + α + 1 + 1 + 1 := by ring
  have hsame : m + 1 + (n + 1) + α + 1 = m + n + α + 1 + 1 + 1 := by ring
  have hshift : n + 1 + α = n + α + 1 := by ring
  have hshift' : n + 2 + α = n + α + 1 + 1 := by ring
  unfold moment scale outer zFactor prior
  rw [hone, htwo, hsame, hshift, hshift', hup, descFactorial_succ m (n + 1), descFactorial_succ m n]
  simp only [Nat.factorial_succ]
  push_cast
  have hp : ((m : ℚ) + n + α + 1 + 1) ≠ 0 := by positivity
  have hq : ((m : ℚ) + n + α + 1 + 1 + 1) ≠ 0 := by positivity
  field_simp
  ring

theorem weighted_moment (α n m : ℕ) : weighted α (X ^ m * shifted α n) = moment α n m := by
  induction n using Nat.twoStepInduction generalizing m with
  | zero =>
    rw [shifted_zero, mul_one, weighted_X_pow, beta, moment]
    simp
  | one =>
    rw [shifted_one, mul_sub, mul_one, mul_left_comm, ← pow_succ, map_sub, weighted_C_mul,
      weighted_X_pow, weighted_X_pow, beta, beta, moment]
    have hone : m + 1 + α + 1 = m + α + 1 + 1 := by ring
    have hshift : 1 + α = α + 1 := by ring
    rw [hone, hshift, Nat.descFactorial_one]
    simp only [Nat.factorial_succ, Nat.factorial_zero]
    have hlast : (m + α).factorial ≠ 0 := Nat.factorial_ne_zero _
    push_cast
    field_simp
    ring
  | more n ih ih' =>
    have hne := (scale_pos α n).ne'
    have hsplit : X ^ m * shifted α (n + 2) = C (1 / scale α (n + 2)) *
        (C (2 * (outer α (n + 2) * zFactor α (n + 2))) * (X ^ (m + 1) * shifted α (n + 1)) +
          C (outer α (n + 2) * α ^ 2 - outer α (n + 2) * zFactor α (n + 2)) *
          (X ^ m * shifted α (n + 1)) -
            C (prior α (n + 2)) * (X ^ m * shifted α n)) := by
      rw [shifted_succ]
      ring
    rw [hsplit, weighted_C_mul, map_sub, map_add, weighted_C_mul, weighted_C_mul, weighted_C_mul,
      ih, ih', ih', ← moment_succ, ← mul_assoc, one_div_mul_cancel hne, one_mul]

/-! ## Orthogonality -/

theorem natDegree_shifted (α n : ℕ) : (shifted α n).natDegree ≤ n := by
  have hlinear : (C 2 * X - 1 : ℚ[X]).natDegree ≤ 1 := by
    refine (natDegree_sub_le _ _).trans (max_le ?_ ?_)
    · exact (natDegree_C_mul_le _ _).trans natDegree_X_le
    · rw [natDegree_one]
      exact Nat.zero_le 1
  have hdegree : (jacobi α n).natDegree ≤ n := by
    induction n using Nat.twoStepInduction with
    | zero => simp [jacobi]
    | one => exact natDegree_linear_le
    | more n ih ih' =>
      have hshift : (X * jacobi α (n + 1)).natDegree ≤ n + 2 := by
        refine natDegree_mul_le.trans ?_
        have := natDegree_X_le (R := ℚ)
        omega
      refine (natDegree_C_mul_le _ _).trans ((natDegree_sub_le _ _).trans (max_le ?_ ?_))
      · refine (natDegree_add_le _ _).trans (max_le ((natDegree_C_mul_le _ _).trans hshift) ?_)
        exact (natDegree_C_mul_le _ _).trans (by omega)
      · exact (natDegree_C_mul_le _ _).trans (by omega)
  calc (shifted α n).natDegree ≤ (jacobi α n).natDegree * (C 2 * X - 1 : ℚ[X]).natDegree :=
    natDegree_comp_le
    _ ≤ n * 1 := Nat.mul_le_mul hdegree hlinear
    _ = n := Nat.mul_one n

theorem coeff_shifted (α n : ℕ) :
    (shifted α n).coeff n = (2 * n + α).factorial / (n.factorial * (n + α).factorial) := by
  induction n using Nat.twoStepInduction with
  | zero =>
    have hne : (α.factorial : ℚ) ≠ 0 := by exact_mod_cast α.factorial_ne_zero
    simp [hne]
  | one =>
    have hne : (α.factorial : ℚ) ≠ 0 := by exact_mod_cast α.factorial_ne_zero
    have htwo : 2 * 1 + α = α + 1 + 1 := by ring
    have hone : 1 + α = α + 1 := by ring
    rw [shifted_one, htwo, hone, coeff_sub, coeff_C_mul, coeff_X_one]
    simp only [Nat.factorial_succ, Nat.factorial_zero, coeff_one]
    push_cast
    field_simp
    norm_num
    ring
  | more n _ ih =>
    have hhigh : (shifted α (n + 1)).coeff (n + 2) = 0 :=
      coeff_eq_zero_of_natDegree_lt ((natDegree_shifted α (n + 1)).trans_lt (by omega))
    have hhigher : (shifted α n).coeff (n + 2) = 0 :=
      coeff_eq_zero_of_natDegree_lt ((natDegree_shifted α n).trans_lt (by omega))
    have hscale := (scale_pos α n).ne'
    have hfour : 2 * (n + 2) + α = 2 * (n + 1) + α + 1 + 1 := by ring
    have htwo : n + 2 + α = n + 1 + α + 1 := by ring
    rw [shifted_succ, coeff_C_mul, coeff_sub, coeff_add, coeff_C_mul, coeff_C_mul, coeff_C_mul,
      coeff_X_mul, hhigh, hhigher, ih, mul_zero, mul_zero, add_zero, sub_zero, hfour, htwo]
    have ha : ((2 * (n + 1) + α).factorial : ℚ) ≠ 0 := by exact_mod_cast Nat.factorial_ne_zero _
    have hb : ((n + 1 + α).factorial : ℚ) ≠ 0 := by exact_mod_cast Nat.factorial_ne_zero _
    have hc : ((n + 1).factorial : ℚ) ≠ 0 := by exact_mod_cast Nat.factorial_ne_zero _
    have hd : (2 : ℚ) * (n + 2) + α - 2 ≠ 0 := by
      have h := n.cast_nonneg (α := ℚ)
      have h' := α.cast_nonneg (α := ℚ)
      intro hzero
      linarith
    simp only [Nat.factorial_succ (n + 1), Nat.factorial_succ (n + 1 + α),
      Nat.factorial_succ (2 * (n + 1) + α),
      Nat.factorial_succ (2 * (n + 1) + α + 1), scale, outer, zFactor]
    push_cast
    field_simp
    ring

/-- A product with a polynomial, from its moments. -/
theorem weighted_mul (α n m : ℕ) {p : ℚ[X]} (hp : p.natDegree ≤ m) :
    weighted α (p * shifted α n) = ∑ i ∈ Finset.range (m + 1), p.coeff i * moment α n i := by
  conv_lhs => rw [p.as_sum_range_C_mul_X_pow' (Nat.lt_succ_of_le hp), Finset.sum_mul, map_sum]
  refine Finset.sum_congr rfl fun i _ => ?_
  rw [mul_assoc, weighted_C_mul, weighted_moment]

theorem weighted_of_lt {α n : ℕ} {p : ℚ[X]} (hp : p.natDegree < n) :
    weighted α (p * shifted α n) = 0 := by
  rw [weighted_mul α n _ le_rfl]
  refine Finset.sum_eq_zero fun i hi => ?_
  have hlt := Finset.mem_range.mp hi
  rw [moment, Nat.descFactorial_of_lt (by omega)]
  simp

theorem weighted_self (α n : ℕ) : weighted α (shifted α n * shifted α n) = 1 / (2 * n + α + 1) := by
  rw [weighted_mul α n n (natDegree_shifted α n), Finset.sum_range_succ, Finset.sum_eq_zero,
    zero_add, coeff_shifted, moment, Nat.descFactorial_self]
  · have ha : (n.factorial : ℚ) ≠ 0 := by exact_mod_cast n.factorial_ne_zero
    have hb : ((n + α).factorial : ℚ) ≠ 0 := by exact_mod_cast Nat.factorial_ne_zero _
    have hc : ((2 * n + α).factorial : ℚ) ≠ 0 := by exact_mod_cast Nat.factorial_ne_zero _
    have hsum : n + n + α + 1 = 2 * n + α + 1 := by ring
    rw [hsum, Nat.factorial_succ]
    push_cast
    field_simp
  · intro i hi
    rw [moment, Nat.descFactorial_of_lt (Finset.mem_range.mp hi)]
    simp

/-- Different degrees are orthogonal, and the norms are as for the monomials of the weight. -/
theorem weighted_shifted (α n m : ℕ) :
    weighted α (shifted α n * shifted α m) = if n = m then 1 / (2 * n + α + 1 : ℚ) else 0 := by
  rcases Nat.lt_trichotomy n m with hlt | heq | hgt
  · rw [if_neg (Nat.ne_of_lt hlt), weighted_of_lt ((natDegree_shifted α n).trans_lt hlt)]
  · rw [if_pos heq, ← heq, weighted_self]
  · rw [if_neg (Nat.ne_of_gt hgt), mul_comm, weighted_of_lt ((natDegree_shifted α m).trans_lt hgt)]

end Xcelerator.Foundations.ShiftedJacobi
