import Mathlib
import Xcelerator.Foundations.Inertia

/-! # Unit triangular factors of symmetric matrices

Entries that satisfy the column recurrence of an `L D Lᵀ` factorization factor
every leading block they reach. The leading minors are then the products of the
diagonal entries, whatever their signs and zeros, and over the reals the
diagonal signs give the signature. -/

namespace Xcelerator.Foundations.TriangularFactors
open Matrix Xcelerator.Foundations.Inertia

section
variable {R : Type} [CommRing R]

/-- The leading block of an infinite array. -/
def leading (M : ℕ → ℕ → R) (k : ℕ) : Matrix (Fin k) (Fin k) R := Matrix.of fun i j => M i j

/-- The recurrence of the first `columns` columns on the rows below `rows`. -/
structure Factors (M L : ℕ → ℕ → R) (D : ℕ → R) (columns rows : ℕ) : Prop where
  unit : ∀ q < columns, L q q = 1
  column : ∀ q < columns, ∀ r, q ≤ r → r < rows →
    M r q = ∑ j ∈ Finset.range (q + 1), L r j * L q j * D j

/-- The triangle that the recurrence fills. -/
def lowerFactor (L : ℕ → ℕ → R) (k : ℕ) : Matrix (Fin k) (Fin k) R :=
  Matrix.of fun i j => if j ≤ i then L i j else 0

variable {M L : ℕ → ℕ → R} {D : ℕ → R} {k rows : ℕ}

theorem Factors.entry (h : Factors M L D k rows) (hk : k ≤ rows) {r c : Fin k} (hcr : c ≤ r) :
    (lowerFactor L k * diagonal (fun j : Fin k => D j) * (lowerFactor L k)ᵀ) r c = M r c := by
  have hterm : ∀ j : Fin k, (lowerFactor L k * diagonal fun j : Fin k =>
    D j) r j * (lowerFactor L k)ᵀ j c =
      if (j : ℕ) < c + 1 then L r j * L c j * D j else 0 := by
    intro j
    rw [mul_diagonal, transpose_apply]
    simp only [lowerFactor, of_apply]
    by_cases hjc : j ≤ c
    · rw [if_pos hjc, if_pos (hjc.trans hcr), if_pos (Nat.lt_succ_of_le hjc)]
      ring
    · rw [if_neg hjc, if_neg (fun h => hjc (Nat.lt_succ_iff.mp h)), mul_zero]
  rw [mul_apply, Finset.sum_congr rfl fun j _ => hterm j,
    Fin.sum_univ_eq_sum_range (fun j => if j < (c : ℕ) + 1 then L r j * L c j * D j else 0) k,
    ← Finset.sum_filter, h.column c c.isLt r hcr (r.isLt.trans_le hk)]
  congr 1
  ext j
  simp only [Finset.mem_filter, Finset.mem_range]
  have := c.isLt
  omega

/-- The leading block is the product of its factors. -/
theorem Factors.leading_eq (h : Factors M L D k rows) (hk : k ≤ rows)
    (hM : ∀ i < k, ∀ j < k, M i j = M j i) :
    leading M k = lowerFactor L k * diagonal (fun j : Fin k => D j) * (lowerFactor L k)ᵀ := by
  have hsymm : (lowerFactor L k * diagonal (fun j : Fin k => D j) * (lowerFactor L k)ᵀ).IsSymm := by
    rw [IsSymm, transpose_mul, transpose_mul, transpose_transpose, diagonal_transpose,
      Matrix.mul_assoc]
  ext r c
  rcases le_total c r with hcr | hrc
  · exact (h.entry hk hcr).symm
  · rw [← hsymm.apply, h.entry hk hrc]
    exact hM r r.isLt c c.isLt

theorem Factors.det_lowerFactor (h : Factors M L D k rows) : (lowerFactor L k).det = 1 := by
  rw [det_of_isLowerTriangular]
  · refine Finset.prod_eq_one fun i _ => ?_
    rw [lowerFactor, of_apply, if_pos le_rfl, h.unit i i.isLt]
  · intro i j hij
    rw [lowerFactor, of_apply, if_neg]
    exact not_le.mpr hij

/-- Leading minors are products of diagonal entries. -/
theorem Factors.det_leading (h : Factors M L D k rows) (hk : k ≤ rows)
    (hM : ∀ i < k, ∀ j < k, M i j = M j i) : (leading M k).det = ∏ j ∈ Finset.range k, D j := by
  rw [h.leading_eq hk hM, det_mul, det_mul, det_transpose, h.det_lowerFactor, det_diagonal, one_mul,
    mul_one, Fin.prod_univ_eq_prod_range D k]

theorem Factors.restrict (h : Factors M L D k rows) {k' : ℕ} (hk : k' ≤ k) :
    Factors M L D k' rows :=
  ⟨fun q hq => h.unit q (hq.trans_le hk), fun q hq => h.column q (hq.trans_le hk)⟩

end

section
variable {M L : ℕ → ℕ → ℝ} {D : ℕ → ℝ} {k rows : ℕ}

theorem positiveCount_range (D : ℕ → ℝ) (k : ℕ) :
    positiveCount (fun j : Fin k => D j) = ((Finset.range k).filter fun j => 0 < D j).card := by
  rw [positiveCount, Finset.card_filter, Finset.card_filter,
    Fin.sum_univ_eq_sum_range (fun j => if 0 < D j then 1 else 0) k]

theorem negativeCount_range (D : ℕ → ℝ) (k : ℕ) :
    negativeCount (fun j : Fin k => D j) = ((Finset.range k).filter fun j => D j < 0).card := by
  rw [negativeCount, Finset.card_filter, Finset.card_filter,
    Fin.sum_univ_eq_sum_range (fun j => if D j < 0 then 1 else 0) k]

/-- The diagonal signs are the signature of the leading block. -/
theorem Factors.hasSignature (h : Factors M L D k rows) (hk : k ≤ rows)
    (hM : ∀ i < k, ∀ j < k, M i j = M j i) :
    HasSignature (leading M k) ((Finset.range k).filter fun j => 0 < D j).card
      ((Finset.range k).filter fun j => D j < 0).card := by
  refine ⟨fun j : Fin k => D j, (lowerFactor L k)ᵀ.mulVecLin, ⟨?_, fun x => ?_⟩,
    positiveCount_range D k, negativeCount_range D k⟩
  · have hunit : IsUnit ((lowerFactor L k)ᵀ).det := by
      rw [det_transpose, h.det_lowerFactor]
      exact isUnit_one
    exact mulVec_injective_of_isUnit ((isUnit_iff_isUnit_det _).mpr hunit)
  · rw [h.leading_eq hk hM, ← mulVec_mulVec, ← mulVec_mulVec, dotProduct_mulVec, ← mulVec_transpose]
    simp only [dotProduct, mulVec_diagonal, mulVecLin_apply]
    exact Finset.sum_congr rfl fun i _ => by ring

end

end Xcelerator.Foundations.TriangularFactors
