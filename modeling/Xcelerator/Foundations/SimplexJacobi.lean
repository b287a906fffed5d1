import Mathlib
import Xcelerator.Foundations.ShiftedJacobi
import Xcelerator.Foundations.SimplexIntegral

/-! # Orthogonal polynomials on the simplex

Products of shifted Jacobi polynomials, each homogeneous in its variable and in
what the earlier ones leave of the simplex. Integrating one variable after the
other gives their orthogonality and their norms. -/

namespace Xcelerator.Foundations.SimplexJacobi
open Polynomial MeasureTheory ShiftedJacobi SimplexIntegral

/-! ## One variable -/

/-- A polynomial of degree at most `d`, made homogeneous with a second variable. -/
noncomputable def homogeneous (p : ℚ[X]) (d : ℕ) (t r : ℝ) : ℝ :=
  ∑ i ∈ Finset.range (d + 1), (p.coeff i : ℝ) * (t ^ i * r ^ (d - i))

theorem weighted_product (α : ℕ) {p q : ℚ[X]} {d e : ℕ} (hp : p.natDegree ≤ d)
    (hq : q.natDegree ≤ e) :
    weighted α (p * q) = ∑ i ∈ Finset.range (d + 1), ∑ j ∈ Finset.range (e + 1),
      p.coeff i * q.coeff j * beta α (i + j) := by
  conv_lhs => rw [p.as_sum_range_C_mul_X_pow' (Nat.lt_succ_of_le hp),
    q.as_sum_range_C_mul_X_pow' (Nat.lt_succ_of_le hq), Finset.sum_mul_sum, map_sum]
  refine Finset.sum_congr rfl fun i _ => ?_
  rw [map_sum]
  refine Finset.sum_congr rfl fun j _ => ?_
  rw [mul_mul_mul_comm, ← C_mul, ← pow_add, weighted_C_mul, weighted_X_pow]

/-- The integral over one variable is the weighted functional, up to scaling. -/
theorem integral_homogeneous (α : ℕ) {p q : ℚ[X]} {d e : ℕ} (hp : p.natDegree ≤ d)
    (hq : q.natDegree ≤ e) (r : ℝ) :
    ∫ t in (0)..r, homogeneous p d t r * homogeneous q e t r * (r - t) ^ α =
      (weighted α (p * q) : ℝ) * r ^ (d + e + α + 1) := by
  have hproduct : ∀ t : ℝ, homogeneous p d t r * homogeneous q e t r * (r - t) ^ α =
      ∑ i ∈ Finset.range (d + 1), ∑ j ∈ Finset.range (e + 1),
        (p.coeff i * q.coeff j * (r ^ (d - i) * r ^ (e - j)) :
            ℝ) * (t ^ (i + j) * (r - t) ^ α) := by
    intro t
    rw [homogeneous, homogeneous, Finset.sum_mul_sum, Finset.sum_mul]
    refine Finset.sum_congr rfl fun i _ => ?_
    rw [Finset.sum_mul]
    refine Finset.sum_congr rfl fun j _ => ?_
    rw [pow_add]
    ring
  have hintegrable : ∀ i j : ℕ, IntervalIntegrable (fun t : ℝ =>
      (p.coeff i * q.coeff j * (r ^ (d - i) * r ^ (e - j)) : ℝ) * (t ^ (i + j) * (r - t) ^ α))
          volume 0 r :=
    fun i j => Continuous.intervalIntegrable (by fun_prop) _ _
  have hsums : ∀ i : ℕ, IntervalIntegrable (fun t : ℝ => ∑ j ∈ Finset.range (e + 1),
      (p.coeff i * q.coeff j * (r ^ (d - i) * r ^ (e - j)) : ℝ) * (t ^ (i + j) * (r - t) ^ α))
          volume 0 r :=
    fun i => Continuous.intervalIntegrable (by fun_prop) _ _
  simp only [hproduct]
  rw [intervalIntegral.integral_finsetSum fun i _ => hsums i, weighted_product α hp hq,
    Rat.cast_sum, Finset.sum_mul]
  refine Finset.sum_congr rfl fun i hi => ?_
  rw [intervalIntegral.integral_finsetSum fun j _ => hintegrable i j, Rat.cast_sum, Finset.sum_mul]
  refine Finset.sum_congr rfl fun j hj => ?_
  have hi' := Finset.mem_range.mp hi
  have hj' := Finset.mem_range.mp hj
  have hpower : r ^ (d + e + α + 1) = r ^ (d - i) * r ^ (e - j) * r ^ (i + j + α + 1) := by
    rw [← pow_add, ← pow_add]
    congr 1
    omega
  rw [intervalIntegral.integral_const_mul, integral_pow_mul_sub_pow, hpower, beta]
  push_cast
  ring

/-! ## All variables -/

/-- The Jacobi parameter of one variable. -/
def parameter (n : ℕ) (a : List ℕ) (v : ℕ) : ℕ := 2 * (a.drop (v + 1)).sum + n - v - 1

/-- The factor of one variable, `r` being what the earlier ones leave. -/
noncomputable def factor (n : ℕ) (a : List ℕ) (v : ℕ) (t r : ℝ) : ℝ :=
  homogeneous (shifted (parameter n a v) (a.getD v 0)) (a.getD v 0) t r

/-- The sum of the earlier variables. -/
def before {n : ℕ} (x : Fin n → ℝ) (v : Fin n) : ℝ := ∑ i, if i < v then x i else 0

noncomputable def kernel (n : ℕ) (a : List ℕ) (r : ℝ) (x : Fin n → ℝ) : ℝ :=
  ∏ v : Fin n, factor n a v (x v) (r - before x v)

/-- The squared norm of a product. -/
def norm (n : ℕ) (a : List ℕ) : ℚ :=
  ∏ v ∈ Finset.range n, 1 / (2 * a.getD v 0 + parameter n a v + 1 : ℚ)

theorem parameter_succ (n d : ℕ) (a : List ℕ) (v : ℕ) :
    parameter (n + 1) (d :: a) (v + 1) = parameter n a v := by
  unfold parameter
  rw [List.drop_succ_cons]
  omega

theorem parameter_zero (n d : ℕ) (a : List ℕ) : parameter (n + 1) (d :: a) 0 = 2 * a.sum + n := by
  unfold parameter
  rw [List.drop_succ_cons, List.drop_zero]
  omega

theorem kernel_cons (n d : ℕ) (a : List ℕ) (r t : ℝ) (y : Fin n → ℝ) :
    kernel (n + 1) (d :: a) r (Fin.cons t y) =
      homogeneous (shifted (2 * a.sum + n) d) d t r * kernel n a (r - t) y := by
  rw [kernel, Fin.prod_univ_succ, kernel]
  congr 1
  · have hbefore : before (Fin.cons t y : Fin (n + 1) → ℝ) 0 = 0 := by
      rw [before]
      exact Finset.sum_eq_zero fun i _ => if_neg (Fin.not_lt_zero i)
    rw [factor, hbefore, sub_zero, Fin.val_zero, parameter_zero, List.getD_cons_zero, Fin.cons_zero]
  · refine Finset.prod_congr rfl fun v _ => ?_
    have hbefore : before (Fin.cons t y : Fin (n + 1) → ℝ) v.succ = t + before y v := by
      rw [before, Fin.sum_univ_succ, before, if_pos (Fin.succ_pos v), Fin.cons_zero]
      simp only [Fin.succ_lt_succ_iff, Fin.cons_succ]
    rw [factor, factor, hbefore, Fin.val_succ, parameter_succ, List.getD_cons_succ,
      Fin.cons_succ, sub_sub]

theorem norm_cons (n d : ℕ) (a : List ℕ) :
    norm (n + 1) (d :: a) = 1 / (2 * d + (2 * a.sum + n : ℕ) + 1) * norm n a := by
  rw [norm, Finset.prod_range_succ', norm]
  refine (mul_comm _ _).trans (congrArg₂ (· * ·) ?_ ?_)
  · rw [parameter_zero, List.getD_cons_zero]
  · refine Finset.prod_congr rfl fun v _ => ?_
    rw [parameter_succ, List.getD_cons_succ]

theorem norm_pos (n : ℕ) (a : List ℕ) : 0 < norm n a :=
  Finset.prod_pos fun _ _ => by positivity

theorem continuous_kernel (n : ℕ) (a : List ℕ) (r : ℝ) : Continuous (kernel n a r) := by
  refine continuous_finsetProd _ fun v _ => ?_
  have hbefore : Continuous fun x : Fin n → ℝ => before x v := by
    refine continuous_finsetSum _ fun j _ => ?_
    split
    · exact continuous_apply j
    · exact continuous_const
  unfold factor homogeneous
  exact continuous_finsetSum _ fun i _ =>
    continuous_const.mul (((continuous_apply v).pow _).mul ((continuous_const.sub hbefore).pow _))

/-- Different indices are orthogonal over the simplex of any size. -/
theorem integral_kernel {n : ℕ} {a b : List ℕ} (ha : a.length = n) (hb : b.length = n) {r : ℝ}
    (hr : 0 ≤ r) :
    ∫ x in simplex n r, kernel n a r x * kernel n b r x =
      if a = b then (norm n a : ℝ) * r ^ (2 * a.sum + n) else 0 := by
  induction n generalizing a b r with
  | zero =>
    have hpoint := integral_simplex_monomial (n := 0) (fun _ => 0) 0 hr
    rw [List.length_eq_zero_iff.mp ha, List.length_eq_zero_iff.mp hb, if_pos rfl]
    simpa [kernel, norm] using hpoint
  | succ n ih =>
    obtain ⟨d, a, rfl⟩ := List.exists_cons_of_length_eq_add_one ha
    obtain ⟨e, b, rfl⟩ := List.exists_cons_of_length_eq_add_one hb
    have ha' : a.length = n := Nat.succ.inj ha
    have hb' : b.length = n := Nat.succ.inj hb
    have hinner : ∀ t ∈ Set.uIcc 0 r,
        (∫ y in simplex n (r - t),
          kernel (n + 1) (d :: a) r (Fin.cons t y) * kernel (n + 1) (e :: b) r (Fin.cons t y)) =
          homogeneous (shifted (2 * a.sum + n) d) d t r * homogeneous
            (shifted (2 * b.sum + n) e) e t r *
            if a = b then (norm n a : ℝ) * (r - t) ^ (2 * a.sum + n) else 0 := by
      intro t ht
      rw [Set.uIcc_of_le hr] at ht
      rw [← ih ha' hb' (sub_nonneg.mpr ht.2), ← integral_const_mul]
      refine integral_congr_ae (Filter.Eventually.of_forall fun y => ?_)
      dsimp only
      rw [kernel_cons, kernel_cons]
      ring
    rw [integral_simplex_succ (f := fun x =>
      kernel (n + 1) (d :: a) r x * kernel (n + 1) (e :: b) r x) hr
        ((continuous_kernel _ _ r).mul (continuous_kernel _ _ r)),
      intervalIntegral.integral_congr hinner]
    by_cases htail : a = b
    · subst htail
      simp only [↓reduceIte]
      have hmove : ∀ t : ℝ, homogeneous (shifted (2 * a.sum + n) d) d t r * homogeneous
        (shifted (2 * a.sum + n) e) e t r * ((norm n a : ℝ) * (r - t) ^ (2 * a.sum + n)) =
            (norm n a : ℝ) * (homogeneous (shifted (2 * a.sum + n) d) d t r *
              homogeneous (shifted (2 * a.sum + n) e) e t r * (r - t) ^ (2 * a.sum + n)) := by
        intro t
        ring
      simp only [hmove]
      rw [intervalIntegral.integral_const_mul, integral_homogeneous _ (natDegree_shifted _ _)
        (natDegree_shifted _ _), weighted_shifted]
      by_cases hhead : d = e
      · subst hhead
        have hpower : d + d + (2 * a.sum + n) + 1 = 2 * (d :: a).sum + (n + 1) := by
          rw [List.sum_cons]
          ring
        rw [if_pos rfl, if_pos rfl, norm_cons, hpower]
        push_cast
        ring
      · rw [if_neg hhead, if_neg (fun h => hhead (List.cons.inj h).1)]
        simp
    · rw [if_neg (fun h => htail (List.cons.inj h).2)]
      simp [htail]

end Xcelerator.Foundations.SimplexJacobi
