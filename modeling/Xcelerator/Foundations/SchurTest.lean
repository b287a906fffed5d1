import Mathlib

/-! # The Schur test

A symmetric matrix has no larger Euclidean norm than its largest absolute row
sum, over any linearly ordered field and any finite set of indices. -/

namespace Xcelerator.Foundations.SchurTest

section
variable {K ι : Type*} [Field K] [LinearOrder K] [IsStrictOrderedRing K]

/-- One row, weighted by its own entries. -/
theorem row_sq_le (s : Finset ι) (b x : ι → K) :
    (∑ j ∈ s, b j * x j) ^ 2 ≤ (∑ j ∈ s, |b j|) * ∑ j ∈ s, |b j| * x j ^ 2 := by
  refine Finset.sum_sq_le_sum_mul_sum_of_sq_le_mul s (fun j _ => abs_nonneg _)
    (fun j _ => mul_nonneg (abs_nonneg _) (sq_nonneg _)) fun j _ => le_of_eq ?_
  rw [mul_pow, ← mul_assoc, ← pow_two, sq_abs]

theorem norm_sq_le (s : Finset ι) (B : ι → ι → K) (β : K) (x : ι → K)
    (hsymm : ∀ i ∈ s, ∀ j ∈ s, B i j = B j i) (hrow : ∀ i ∈ s, ∑ j ∈ s, |B i j| ≤ β) :
    ∑ i ∈ s, (∑ j ∈ s, B i j * x j) ^ 2 ≤ β ^ 2 * ∑ i ∈ s, x i ^ 2 := by
  rcases s.eq_empty_or_nonempty with rfl | ⟨i₀, hi₀⟩
  · simp
  have hβ : 0 ≤ β := (Finset.sum_nonneg fun j _ => abs_nonneg (B i₀ j)).trans (hrow i₀ hi₀)
  calc ∑ i ∈ s, (∑ j ∈ s, B i j * x j) ^ 2
      ≤ ∑ i ∈ s, β * ∑ j ∈ s, |B i j| * x j ^ 2 := Finset.sum_le_sum fun i hi =>
        (row_sq_le s (B i) x).trans (mul_le_mul_of_nonneg_right (hrow i hi)
          (Finset.sum_nonneg fun j _ => mul_nonneg (abs_nonneg _) (sq_nonneg _)))
    _ = β * ∑ j ∈ s, (∑ i ∈ s, |B i j|) * x j ^ 2 := by
        rw [← Finset.mul_sum, Finset.sum_comm]
        refine congrArg (β * ·) (Finset.sum_congr rfl fun j _ => ?_)
        rw [Finset.sum_mul]
    _ ≤ β * ∑ j ∈ s, β * x j ^ 2 := by
        refine mul_le_mul_of_nonneg_left (Finset.sum_le_sum fun j hj => ?_) hβ
        -- the column is a row
        have hcolumn : ∑ i ∈ s, |B i j| = ∑ i ∈ s, |B j i| :=
          Finset.sum_congr rfl fun i hi => by rw [hsymm i hi j hj]
        rw [hcolumn]
        exact mul_le_mul_of_nonneg_right (hrow j hj) (sq_nonneg _)
    _ = β ^ 2 * ∑ i ∈ s, x i ^ 2 := by rw [← Finset.mul_sum, ← mul_assoc, pow_two]

end

end Xcelerator.Foundations.SchurTest
