import Mathlib
import Xcelerator.Foundations.Inertia

/-! # Negative squares of a tridiagonal form

Eliminating a tridiagonal form from its first variable only changes the next
diagonal entry. A zero pivot with a nonzero neighbour is eliminated together
with the next variable and contributes one negative square; a zero pivot
without one contributes none. -/

namespace Xcelerator.Foundations.Tridiagonal
open Inertia Matrix

/-- The symmetric array with diagonal `d` and off-diagonal `e`, its entry at `k` replaced. -/
def band (d e : ℕ → ℝ) (k : ℕ) (pivot : ℝ) (i j : ℕ) : ℝ :=
  if i = j then (if i = k then pivot else d i)
  else if j = i + 1 then e i
  else if i = j + 1 then e j
  else 0

theorem band_symm (d e : ℕ → ℝ) (k : ℕ) (pivot : ℝ) (i j : ℕ) :
    band d e k pivot i j = band d e k pivot j i := by
  unfold band
  split_ifs <;> first | rfl | omega | (subst_vars; rfl)

/-- The negative squares of the trailing block of the given size, eliminated from the front. -/
noncomputable def negatives (d e : ℕ → ℝ) : ℕ → ℕ → ℝ → ℕ
  | 0, _, _ => 0
  | 1, _, pivot => if pivot < 0 then 1 else 0
  | size + 2, k, pivot =>
    if pivot ≠ 0 then
      (if pivot < 0 then 1 else 0) + negatives d e (size + 1) (k + 1)
      (d (k + 1) - e k * e k / pivot)
    else if e k = 0 then negatives d e (size + 1) (k + 1) (d (k + 1))
    else 1 + negatives d e size (k + 2) (d (k + 2))

theorem negatives_pivot {d e : ℕ → ℝ} (size k : ℕ) {pivot : ℝ} (h : pivot ≠ 0) :
    negatives d e (size + 1) k pivot =
      (if pivot < 0 then 1 else 0) + negatives d e size (k + 1)
      (d (k + 1) - e k * e k / pivot) := by
  rcases size with _ | size
  · rfl
  · rw [negatives, if_pos h]

theorem negatives_decoupled {d e : ℕ → ℝ} (size : ℕ) {k : ℕ} (h : e k = 0) :
    negatives d e (size + 1) k 0 = negatives d e size (k + 1) (d (k + 1)) := by
  rcases size with _ | size
  · exact if_neg (lt_irrefl 0)
  · rw [negatives, if_neg (not_not.mpr rfl), if_pos h]

theorem negatives_pair {d e : ℕ → ℝ} (size : ℕ) {k : ℕ} (h : e k ≠ 0) :
    negatives d e (size + 2) k 0 = 1 + negatives d e size (k + 2) (d (k + 2)) := by
  rw [negatives, if_neg (not_not.mpr rfl), if_neg h]

/-- The trailing blocks from `k + 1` on only see the array there. -/
theorem trailing_congr {S S' : ℕ → ℕ → ℝ} {k size : ℕ}
    (h : ∀ i j, k ≤ i → i < k + size → k ≤ j → j < k + size → S i j = S' i j) :
    trailing S k size = trailing S' k size := by
  ext i j
  exact h _ _ (by omega) (by omega) (by omega) (by omega)

theorem hasSignature_zero (S : ℕ → ℕ → ℝ) (k : ℕ) : HasSignature (trailing S k 0) 0 0 := by
  refine ⟨fun _ => 0, LinearMap.id, ⟨fun _ _ h => h, fun x => ?_⟩, ?_, ?_⟩
  · simp [dotProduct]
  · simp [positiveCount]
  · simp [negativeCount]

/-- A zero row contributes nothing. -/
theorem hasSignature_zero_row {S : ℕ → ℕ → ℝ} {k d p q : ℕ} (hS : ∀ i j, S i j = S j i)
    (hrow : ∀ j < d + 1, S k (k + j) = 0) (h : HasSignature (trailing S (k + 1) d) p q) :
    HasSignature (trailing S k (1 + d)) p q := by
  obtain ⟨w, T, hd, rfl, rfl⟩ := h
  -- the first variable is a functional of its own with weight zero
  let first : (Fin 1 ⊕ Fin d → ℝ) →ₗ[ℝ] Fin 1 → ℝ := LinearMap.funLeft ℝ ℝ Sum.inl
  let second : (Fin 1 ⊕ Fin d → ℝ) →ₗ[ℝ] Fin d → ℝ := LinearMap.funLeft ℝ ℝ Sum.inr
  let U : (Fin 1 ⊕ Fin d → ℝ) →ₗ[ℝ] Fin 1 ⊕ Fin d → ℝ :=
    (LinearEquiv.sumArrowLequivProdArrow (Fin 1) (Fin d) ℝ ℝ).symm.toLinearMap ∘ₗ first.prod
      (T ∘ₗ second)
  have hblocks : (trailing S k (1 + d)).submatrix finSumFinEquiv finSumFinEquiv =
      fromBlocks (0 : Matrix (Fin 1) (Fin 1) ℝ) 0 0 (trailing S (k + 1) d) := by
    ext i j
    rcases i with i | i <;> rcases j with j | j
    · simpa [trailing] using hrow 0 (by omega)
    · have := hrow (1 + j) (by omega)
      simpa [trailing] using this
    · have := hrow (1 + i) (by omega)
      rw [hS] at this
      simpa [trailing] using this
    · simp [trailing, ← add_assoc]
  have hsum : HasSignature (fromBlocks (0 : Matrix (Fin 1) (Fin 1) ℝ) 0 0 (trailing S (k + 1) d))
      (positiveCount w) (negativeCount w) := by
    refine ⟨Sum.elim (fun _ => 0) w, U, ⟨fun x y hxy => ?_, fun z => ?_⟩, ?_, ?_⟩
    · have hfirst : first x = first y := funext fun i => congrFun hxy (Sum.inl i)
      have hsecond : second x = second y := hd.injective (funext fun i => congrFun hxy (Sum.inr i))
      funext i
      cases i with
      | inl i => exact congrFun hfirst i
      | inr i => exact congrFun hsecond i
    · have hz : z = Sum.elim (fun i => z (Sum.inl i)) (fun i => z (Sum.inr i)) := by
        funext i
        cases i <;> rfl
      have hform := hd.form (second z)
      have hU : ∀ i, U z (Sum.inr i) = T (second z) i := fun _ => rfl
      rw [Fintype.sum_sum_type]
      simp only [Sum.elim_inl, Sum.elim_inr, zero_mul, Finset.sum_const_zero, zero_add, hU]
      rw [← hform]
      conv_lhs => rw [hz]
      rw [Matrix.fromBlocks_mulVec]
      simp only [Matrix.zero_mulVec, add_zero, zero_add, Function.comp_def, Sum.elim_inl,
        Sum.elim_inr]
      rw [sumElim_dotProduct_sumElim]
      simp only [dotProduct_zero, zero_add]
      rfl
    · rw [positiveCount_sum]
      simp [positiveCount]
    · rw [negativeCount_sum]
      simp [negativeCount]
  rw [← hblocks] at hsum
  simpa using hsum.submatrix finSumFinEquiv.symm

theorem band_diagonal (d e : ℕ → ℝ) (k : ℕ) (pivot : ℝ) : band d e k pivot k k = pivot :=
  by simp [band]

theorem band_next (d e : ℕ → ℝ) (k : ℕ) (pivot : ℝ) : band d e k pivot k (k + 1) = e k :=
  by simp [band]

theorem band_far (d e : ℕ → ℝ) (k : ℕ) (pivot : ℝ) {i j : ℕ} (h : i + 1 < j) :
    band d e k pivot i j = 0 := by
  unfold band
  rw [if_neg (by omega), if_neg (by omega), if_neg (by omega)]

/-- Away from the replaced entry the array is the same. -/
theorem band_tail (d e : ℕ → ℝ) {k l : ℕ} (pivot : ℝ) {i j : ℕ} (hi : l ≤ i) (hk : k < l) :
    band d e k pivot i j = band d e l (d l) i j := by
  unfold band
  by_cases hij : i = j
  · rw [if_pos hij, if_pos hij, if_neg (by omega)]
    by_cases hl : i = l
    · rw [if_pos hl, hl]
    · rw [if_neg hl]
  · rw [if_neg hij, if_neg hij]

theorem schurOne_band {d e : ℕ → ℝ} {k size : ℕ} {pivot : ℝ} :
    trailing (schurOne (band d e k pivot) k) (k + 1) size =
      trailing (band d e (k + 1) (d (k + 1) - e k * e k / pivot)) (k + 1) size := by
  refine trailing_congr fun i j hi _ hj _ => ?_
  have hcolumn : ∀ l, k + 1 ≤ l → band d e k pivot l k = if l = k + 1 then e k else 0 := by
    intro l hl
    rw [band_symm]
    split
    · rename_i h
      rw [h, band_next]
    · exact band_far d e k pivot (by omega)
  unfold schurOne
  rw [hcolumn i hi, hcolumn j hj, band_diagonal, band_tail d e pivot hi (Nat.lt_succ_self k)]
  unfold band
  by_cases hij : i = j
  · subst hij
    by_cases hik : i = k + 1
    · simp [hik]
      ring
    · simp [hik]
  · by_cases hik : i = k + 1
    · have hjk : j ≠ k + 1 := by omega
      simp [hij, hjk]
    · simp [hij, hik]

theorem schurTwo_band {d e : ℕ → ℝ} {k size : ℕ} :
    trailing (schurTwo (band d e k 0) k) (k + 2) size = trailing (band d e (k + 2) (d (k + 2)))
    (k + 2) size := by
  refine trailing_congr fun i j hi _ hj _ => ?_
  have hcolumn : ∀ l, k + 2 ≤ l → band d e k 0 l k = 0 := by
    intro l hl
    rw [band_symm]
    exact band_far d e k 0 (by omega)
  unfold schurTwo
  rw [hcolumn i hi, hcolumn j hj, band_diagonal, band_tail d e 0 hi (by omega)]
  ring

/-- A block with a zero corner is indefinite. -/
theorem roots_of_zero {y z : ℝ} (hy : y ≠ 0) : ¬ 0 < lowRoot 0 y z ∧ 0 < highRoot 0 y z := by
  have hlt : |z| < √((0 - z) ^ 2 + y ^ 2 * 4) := by
    refine Real.lt_sqrt_of_sq_lt ?_
    have : 0 < y ^ 2 := by positivity
    rw [sq_abs]
    linarith
  have habs := abs_le.mp (le_refl |z|)
  unfold lowRoot highRoot
  constructor
  · linarith
  · linarith

/-- Elimination from the front counts the negative squares. -/
theorem hasSignature_negatives (d e : ℕ → ℝ) (size k : ℕ) (pivot : ℝ) :
    ∃ p, HasSignature (trailing (band d e k pivot) k size) p (negatives d e size k pivot) := by
  induction size using Nat.strong_induction_on generalizing k pivot with
  | _ size ih =>
    have hsymm := band_symm d e k pivot
    rcases size with _ | size
    · exact ⟨0, hasSignature_zero _ k⟩
    · by_cases hpivot : pivot = 0
      · subst hpivot
        by_cases hedge : e k = 0
        · rw [negatives_decoupled size hedge, Nat.add_comm size 1]
          obtain ⟨p, hp⟩ := ih size (Nat.lt_succ_self size) (k + 1) (d (k + 1))
          refine ⟨p, hasSignature_zero_row hsymm (fun j _ => ?_) ?_⟩
          · rcases j with _ | _ | j
            · exact band_diagonal d e k 0
            · rw [band_next, hedge]
            · exact band_far d e k 0 (by omega)
          · rwa [trailing_congr fun i j hi _ _ _ => band_tail d e 0 hi (Nat.lt_succ_self k)]
        · rcases size with _ | size
          · have hlast : negatives d e 1 k 0 = 0 := if_neg (lt_irrefl 0)
            rw [hlast]
            refine ⟨0, hasSignature_zero_row hsymm (fun j hj => ?_) (hasSignature_zero _ _)⟩
            rw [Nat.lt_one_iff.mp hj]
            exact band_diagonal d e k 0
          · rw [negatives_pair size hedge]
            obtain ⟨p, hp⟩ := ih size (by omega) (k + 2) (d (k + 2))
            rw [← schurTwo_band] at hp
            have hdet : pivotDet (band d e k 0) k ≠ 0 := by
              unfold pivotDet
              rw [band_diagonal, band_next, zero_mul, zero_sub]
              exact neg_ne_zero.mpr (pow_ne_zero 2 hedge)
            have h := hasSignature_schurTwo hsymm hdet hp
            rw [band_diagonal, band_next] at h
            obtain ⟨hlow, hhigh⟩ := roots_of_zero (z := band d e k 0 (k + 1) (k + 1)) hedge
            rw [if_neg hlow, if_pos hhigh, if_neg hlow, if_pos hhigh] at h
            rw [Nat.add_comm 2 size, Nat.add_zero] at h
            exact ⟨_, h⟩
      · rw [negatives_pivot size k hpivot, Nat.add_comm size 1]
        obtain ⟨p, hp⟩ := ih size (Nat.lt_succ_self size) (k + 1) (d (k + 1) - e k * e k / pivot)
        rw [← schurOne_band] at hp
        have h := hasSignature_schurOne hsymm (by rwa [band_diagonal]) hp
        have hsign : (if 0 < pivot then 0 else 1) = if pivot < 0 then 1 else 0 := by
          rcases lt_or_gt_of_ne hpivot with h | h
          · rw [if_neg h.not_gt, if_pos h]
          · rw [if_pos h, if_neg h.not_gt]
        rw [band_diagonal, hsign] at h
        exact ⟨_, h⟩

end Xcelerator.Foundations.Tridiagonal
