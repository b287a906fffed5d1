import Mathlib

/-! # Row reduction of a linear system

Exchanging rows and adding a multiple of one row to another leave the solutions of a
system and the vanishing of its determinant as they are. On the way to the triangular
form a column without a pivot settles that the determinant vanishes, a triangle with
pivots throughout that it does not. -/

namespace Xcelerator.Foundations.RowReduction
open Matrix

section
variable {K m : Type} [Field K] [Fintype m] [DecidableEq m]

/-- Two systems with the same solutions, singular together. -/
structure Same (A : Matrix m m K) (r : m → K) (B : Matrix m m K) (b : m → K) : Prop where
  singular : A.det = 0 ↔ B.det = 0
  solutions : ∀ x, A *ᵥ x = r ↔ B *ᵥ x = b

variable {A B C : Matrix m m K} {r b c : m → K}

theorem Same.refl (A : Matrix m m K) (r : m → K) : Same A r A r := ⟨Iff.rfl, fun _ => Iff.rfl⟩

theorem Same.trans (h : Same A r B b) (h' : Same B b C c) : Same A r C c :=
  ⟨h.singular.trans h'.singular, fun x => (h.solutions x).trans (h'.solutions x)⟩

theorem Same.permute (σ : Equiv.Perm m) (A : Matrix m m K) (r : m → K) :
    Same (A.submatrix σ id) (r ∘ σ) A r where
  singular := by
    rw [det_permute]
    rcases Int.units_eq_one_or (Equiv.Perm.sign σ) with h | h <;> simp [h]
  solutions x := by
    have hrows : A.submatrix σ id *ᵥ x = (A *ᵥ x) ∘ σ := rfl
    rw [hrows]
    exact σ.surjective.injective_comp_right.eq_iff

theorem mulVec_updateRow (A : Matrix m m K) (i : m) (v x : m → K) :
    A.updateRow i v *ᵥ x = Function.update (A *ᵥ x) i (v ⬝ᵥ x) := by
  funext j
  by_cases hj : j = i
  · subst hj
    simp [mulVec]
  · simp [mulVec, hj]

theorem Same.addRow {i k : m} (h : i ≠ k) (factor : K) (A : Matrix m m K) (r : m → K) :
    Same (A.updateRow i (A i + factor • A k)) (Function.update r i (r i + factor * r k)) A r where
  singular := by rw [det_updateRow_add_smul_self A h factor]
  solutions x := by
    have hrow : (A i + factor • A k) ⬝ᵥ x = (A *ᵥ x) i + factor * (A *ᵥ x) k := by
      rw [add_dotProduct, smul_dotProduct, smul_eq_mul]
      rfl
    rw [mulVec_updateRow, hrow]
    constructor
    · intro heq
      have hother : ∀ j, j ≠ i → (A *ᵥ x) j = r j := by
        intro j hj
        have hat := congrFun heq j
        rwa [Function.update_of_ne hj, Function.update_of_ne hj] at hat
      have hat := congrFun heq i
      rw [Function.update_self, Function.update_self, hother k h.symm] at hat
      funext j
      by_cases hj : j = i
      · rw [hj]
        exact add_right_cancel hat
      · exact hother j hj
    · rintro rfl
      rfl

/-- The one solution of a system that is not singular. -/
theorem solution_unique (hdet : A.det ≠ 0) {x : m → K} (hx : A *ᵥ x = r) : x = A⁻¹ *ᵥ r := by
  rw [← hx, mulVec_mulVec, nonsing_inv_mul A (isUnit_iff_ne_zero.mpr hdet), one_mulVec]

end

section
variable {K : Type} [Field K] {n : ℕ} {A : Matrix (Fin n) (Fin n) K}

/-- Below the first rows a triangle and then a column of zeros. -/
theorem det_eq_zero_of_column (k : Fin n) (hlower : ∀ i j, j < k → j < i → A i j = 0)
    (hcolumn : ∀ i, k ≤ i → A i k = 0) : A.det = 0 := by
  have hblock : ∀ i, ¬i < k → ∀ j, j < k → A i j = 0 := fun i hi j hj =>
    hlower i j hj (hj.trans_le (not_lt.mp hi))
  rw [twoBlockTriangular_det A (· < k) hblock]
  have hzero : (toSquareBlockProp A fun i => ¬i < k).det = 0 :=
    det_eq_zero_of_column_eq_zero ⟨k, lt_irrefl k⟩ fun i => hcolumn i (not_lt.mp i.2)
  rw [hzero, mul_zero]

theorem det_ne_zero_of_triangle (hlower : ∀ i j, j < i → A i j = 0) (hpivot : ∀ i, A i i ≠ 0) :
    A.det ≠ 0 := by
  have htriangular : A.BlockTriangular id := fun i j hij => hlower i j hij
  rw [det_of_isUpperTriangular htriangular]
  exact Finset.prod_ne_zero_iff.mpr fun i _ => hpivot i

end

end Xcelerator.Foundations.RowReduction
