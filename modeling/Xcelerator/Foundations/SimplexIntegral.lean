import Mathlib

/-! # Integrals over the solid simplex

Integration over `x ≥ 0`, `∑ x ≤ r`, one variable at a time, and the integrals of
monomials times a power of the remaining slack. -/

namespace Xcelerator.Foundations.SimplexIntegral
open MeasureTheory Set

/-- The solid simplex of side `r`. -/
def simplex (n : ℕ) (r : ℝ) : Set (Fin n → ℝ) := {x | (∀ i, 0 ≤ x i) ∧ ∑ i, x i ≤ r}

theorem isClosed_simplex (n : ℕ) (r : ℝ) : IsClosed (simplex n r) := by
  have hnonneg : IsClosed {x : Fin n → ℝ | ∀ i, 0 ≤ x i} := by
    simp only [setOf_forall]
    exact isClosed_iInter fun i => isClosed_le continuous_const (continuous_apply i)
  have hsum : IsClosed {x : Fin n → ℝ | ∑ i, x i ≤ r} :=
    isClosed_le (by fun_prop) continuous_const
  exact hnonneg.inter hsum

theorem isCompact_simplex (n : ℕ) (r : ℝ) : IsCompact (simplex n r) := by
  refine IsCompact.of_isClosed_subset (isCompact_univ_pi fun _ => isCompact_Icc (a := 0) (b := r))
    (isClosed_simplex n r) fun x hx i _ => ⟨hx.1 i, ?_⟩
  calc x i ≤ ∑ j, x j := Finset.single_le_sum (fun j _ => hx.1 j) (Finset.mem_univ i)
    _ ≤ r := hx.2

theorem measurableSet_simplex (n : ℕ) (r : ℝ) : MeasurableSet (simplex n r) :=
  (isClosed_simplex n r).measurableSet

theorem cons_mem_simplex {n : ℕ} {r t : ℝ} {y : Fin n → ℝ} :
    (Fin.cons t y : Fin (n + 1) → ℝ) ∈ simplex (n + 1) r ↔ 0 ≤ t ∧ y ∈ simplex n (r - t) := by
  simp only [simplex, mem_setOf_eq, Fin.forall_fin_succ, Fin.cons_zero, Fin.cons_succ,
    Fin.sum_univ_succ, le_sub_iff_add_le', and_assoc]

theorem simplex_eq_empty {n : ℕ} {r : ℝ} (hr : r < 0) : simplex n r = ∅ := by
  refine eq_empty_of_forall_notMem fun x hx => ?_
  have : 0 ≤ ∑ i, x i := Finset.sum_nonneg fun i _ => hx.1 i
  linarith [hx.2]

/-- One variable is integrated last. -/
theorem integral_simplex_succ {n : ℕ} {r : ℝ} (hr : 0 ≤ r) {f : (Fin (n + 1) → ℝ) → ℝ}
    (hf : Continuous f) :
    ∫ x in simplex (n + 1) r, f x = ∫ t in (0)..r, ∫ y in simplex n (r - t), f (Fin.cons t y) := by
  set F : (Fin (n + 1) → ℝ) → ℝ := (simplex (n + 1) r).indicator f with hF
  have hint : Integrable F := by
    rw [hF, integrable_indicator_iff (measurableSet_simplex _ _)]
    exact hf.continuousOn.integrableOn_compact (isCompact_simplex _ _)
  have hsymm : ∀ p : ℝ × (Fin n → ℝ),
      (MeasurableEquiv.piFinSuccAbove (fun _ : Fin (n + 1) => ℝ) 0).symm p = Fin.cons p.1 p.2 := by
    intro p
    exact Fin.insertNth_zero' p.1 p.2
  have hequiv := (volume_preserving_piFinSuccAbove (fun _ : Fin (n + 1) => ℝ) 0).symm
  have hpair : ∫ x, F x = ∫ p : ℝ × (Fin n → ℝ), F (Fin.cons p.1 p.2) := by
    rw [← hequiv.integral_comp (MeasurableEquiv.measurableEmbedding _)]
    simp only [hsymm]
  have hint' : Integrable fun p : ℝ × (Fin n → ℝ) => F (Fin.cons p.1 p.2) := by
    have := (hequiv.integrable_comp_emb (MeasurableEquiv.measurableEmbedding _)).mpr hint
    simpa only [Function.comp_def, hsymm] using this
  have hinner : ∀ t, ∫ y, F (Fin.cons t y) =
      (Icc 0 r).indicator (fun t => ∫ y in simplex n (r - t), f (Fin.cons t y)) t := by
    intro t
    by_cases ht : t ∈ Icc 0 r
    · rw [indicator_of_mem ht, ← integral_indicator (measurableSet_simplex _ _)]
      refine integral_congr_ae (.of_forall fun y => ?_)
      show (simplex (n + 1) r).indicator f (Fin.cons t y) = _
      by_cases hy : y ∈ simplex n (r - t)
      · rw [indicator_of_mem (cons_mem_simplex.mpr ⟨ht.1, hy⟩), indicator_of_mem hy]
      · rw [indicator_of_notMem fun h => hy (cons_mem_simplex.mp h).2, indicator_of_notMem hy]
    · rw [indicator_of_notMem ht]
      refine integral_eq_zero_of_ae (.of_forall fun y => ?_)
      refine indicator_of_notMem (fun h => ht ?_) f
      obtain ⟨h0, hy⟩ := cons_mem_simplex.mp h
      refine ⟨h0, ?_⟩
      by_contra hlt
      rw [simplex_eq_empty (by linarith)] at hy
      exact hy
  rw [← integral_indicator (measurableSet_simplex _ _), ← hF, hpair,
    Measure.volume_eq_prod, integral_prod _ hint', intervalIntegral.integral_of_le hr,
    ← integral_Icc_eq_integral_Ioc, ← integral_indicator measurableSet_Icc]
  exact integral_congr_ae (.of_forall hinner)

theorem integral_pow_mul_sub_pow_succ (p q : ℕ) (r : ℝ) :
    ∫ t in (0)..r, t ^ p * (r - t) ^ (q + 1) =
      (q + 1) / (p + 1) * ∫ t in (0)..r, t ^ (p + 1) * (r - t) ^ q := by
  have hu : ∀ t ∈ uIcc 0 r, HasDerivAt (fun t => (r - t) ^ (q + 1))
      (-((q + 1) * (r - t) ^ q)) t := by
    intro t _
    have h := ((hasDerivAt_id t).const_sub r).fun_pow (q + 1)
    simpa [mul_comm] using h
  have hv : ∀ t ∈ uIcc 0 r, HasDerivAt (fun t : ℝ => t ^ (p + 1) / (p + 1)) (t ^ p) t := by
    intro t _
    have h := ((hasDerivAt_id t).fun_pow (p + 1)).div_const ((p : ℝ) + 1)
    have hne : (p : ℝ) + 1 ≠ 0 := by positivity
    simpa [hne, mul_div_assoc, mul_comm] using h
  have hparts := intervalIntegral.integral_mul_deriv_eq_deriv_mul hu hv
    (Continuous.intervalIntegrable (by fun_prop) 0 r)
    (Continuous.intervalIntegrable (by fun_prop) 0 r)
  have hleft : ∫ t in (0)..r, t ^ p * (r - t) ^ (q + 1) = ∫ t in (0)..r,
      (r - t) ^ (q + 1) * t ^ p := by
    simp only [mul_comm]
  rw [hleft, hparts, ← intervalIntegral.integral_const_mul]
  simp only [sub_self, ne_eq, Nat.add_eq_zero_iff, one_ne_zero, and_false, not_false_eq_true,
    zero_pow, zero_mul, zero_div, mul_zero, zero_sub, ← intervalIntegral.integral_neg]
  refine intervalIntegral.integral_congr fun t _ => ?_
  have hne : (p : ℝ) + 1 ≠ 0 := by positivity
  field_simp

/-- The beta integral on `[0, r]`. -/
theorem integral_pow_mul_sub_pow (p q : ℕ) (r : ℝ) :
    ∫ t in (0)..r, t ^ p * (r - t) ^ q =
      r ^ (p + q + 1) * (p.factorial * q.factorial / (p + q + 1).factorial) := by
  induction q generalizing p with
  | zero =>
    have hne : ((p : ℝ) + 1) ≠ 0 := by positivity
    have hfac : (p.factorial : ℝ) ≠ 0 := by positivity
    simp only [pow_zero, mul_one, integral_pow, Nat.add_zero, Nat.factorial_succ,
      Nat.factorial_zero]
    push_cast
    field_simp
    simp
  | succ q ih =>
    have hne : ((p : ℝ) + 1) ≠ 0 := by positivity
    have hsum : p + 1 + q + 1 = p + (q + 1) + 1 := by ring
    rw [integral_pow_mul_sub_pow_succ, ih, hsum, Nat.factorial_succ p, Nat.factorial_succ q]
    push_cast
    field_simp

/-- The integral of a monomial times a power of the slack. -/
theorem integral_simplex_monomial {n : ℕ} (c : Fin n → ℕ) (d : ℕ) {r : ℝ} (hr : 0 ≤ r) :
    ∫ x in simplex n r, (∏ i, x i ^ c i) * (r - ∑ i, x i) ^ d =
      r ^ (n + ∑ i, c i + d) *
        ((∏ i, ((c i).factorial : ℝ)) * d.factorial / (n + ∑ i, c i + d).factorial) := by
  induction n generalizing r with
  | zero =>
    have huniv : simplex 0 r = univ := by
      refine eq_univ_of_forall fun x => ⟨fun i => i.elim0, ?_⟩
      simpa using hr
    have hfac : (d.factorial : ℝ) ≠ 0 := by positivity
    have hvolume : (volume : Measure (Fin 0 → ℝ)) = Measure.dirac 0 :=
      Measure.pi_of_empty (fun _ => volume) 0
    rw [huniv, Measure.restrict_univ, hvolume, integral_dirac]
    simp [hfac]
  | succ n ih =>
    have hcont : Continuous fun x : Fin (n + 1) → ℝ => (∏ i, x i ^ c i) * (r - ∑ i, x i) ^ d :=
      by fun_prop
    set K : ℝ := (∏ i : Fin n, ((c i.succ).factorial : ℝ)) * d.factorial /
      (n + ∑ i : Fin n, c i.succ + d).factorial with hK
    set e := n + ∑ i : Fin n, c i.succ + d with he
    rw [integral_simplex_succ hr hcont]
    have hinner : ∀ t ∈ uIcc 0 r, (∫ y in simplex n (r - t),
      (∏ i, (Fin.cons t y : Fin (n + 1) → ℝ) i ^ c i) *
        (r - ∑ i, (Fin.cons t y : Fin (n + 1) → ℝ) i) ^ d) = K * (t ^ c 0 * (r - t) ^ e) := by
      intro t ht
      rw [uIcc_of_le hr] at ht
      have hprod : ∀ y : Fin n → ℝ, (∏ i, (Fin.cons t y : Fin (n + 1) → ℝ) i ^ c i) *
          (r - ∑ i, (Fin.cons t y : Fin (n + 1) → ℝ) i) ^ d =
          t ^ c 0 * ((∏ i, y i ^ c i.succ) * ((r - t) - ∑ i, y i) ^ d) := by
        intro y
        simp only [Fin.prod_univ_succ, Fin.sum_univ_succ, Fin.cons_zero, Fin.cons_succ]
        rw [sub_sub]
        ring
      simp only [hprod]
      rw [integral_const_mul, ih (fun i => c i.succ) (sub_nonneg.mpr ht.2)]
      ring
    rw [intervalIntegral.integral_congr hinner, intervalIntegral.integral_const_mul,
      integral_pow_mul_sub_pow]
    have hexp : n + 1 + ∑ i, c i + d = c 0 + e + 1 := by
      rw [Fin.sum_univ_succ, he]
      ring
    rw [hexp, Fin.prod_univ_succ, hK]
    have hfac : (e.factorial : ℝ) ≠ 0 := by positivity
    field_simp

/-! ## Squares of polynomials -/

/-- A box inside the simplex. -/
theorem box_subset_simplex (n : ℕ) :
    Set.pi Set.univ (fun _ : Fin n => Set.Ioo (0 : ℝ) (1 / (n + 1))) ⊆ simplex n 1 := by
  intro x hx
  have hcoordinate : ∀ i, 0 < x i ∧ x i < 1 / (n + 1) := fun i => hx i (Set.mem_univ i)
  refine ⟨fun i => (hcoordinate i).1.le, ?_⟩
  calc ∑ i, x i ≤ ∑ _ : Fin n, (1 / ((n : ℝ) + 1)) :=
    Finset.sum_le_sum fun i _ => (hcoordinate i).2.le
    _ = n / (n + 1) := by simp [div_eq_mul_inv]
    _ ≤ 1 := (div_le_one (by positivity)).mpr (by linarith)

/-- A polynomial other than zero has a square of positive integral. -/
theorem integral_sq_pos {n : ℕ} {p : MvPolynomial (Fin n) ℝ} (hp : p ≠ 0) :
    0 < ∫ x in simplex n 1, MvPolynomial.eval x p ^ 2 := by
  have hcontinuous : Continuous fun x : Fin n → ℝ => MvPolynomial.eval x p ^ 2 :=
    p.continuous_eval.pow 2
  have hintegrable : IntegrableOn (fun x : Fin n → ℝ => MvPolynomial.eval x p ^ 2) (simplex n 1) :=
    hcontinuous.continuousOn.integrableOn_compact (isCompact_simplex n 1)
  rw [setIntegral_pos_iff_support_of_nonneg_ae (Filter.Eventually.of_forall fun x =>
    sq_nonneg _) hintegrable]
  let box : Set (Fin n → ℝ) := Set.pi Set.univ (fun _ => Set.Ioo (0 : ℝ) (1 / (n + 1)))
  have hopen : IsOpen (box ∩ {x | MvPolynomial.eval x p ≠ 0}) :=
    (isOpen_set_pi Set.finite_univ fun _ _ => isOpen_Ioo).inter
      (isOpen_ne_fun p.continuous_eval continuous_const)
  have hnonempty : (box ∩ {x | MvPolynomial.eval x p ≠ 0}).Nonempty := by
    by_contra hempty
    refine hp (MvPolynomial.funext_set (fun _ => Set.Ioo (0 : ℝ) (1 / (n + 1)))
      (fun _ => Set.Ioo_infinite (by positivity)) fun x hx => ?_)
    by_contra hne
    exact hempty ⟨x, hx, by simpa using hne⟩
  refine (hopen.measure_pos volume hnonempty).trans_le (measure_mono ?_)
  intro x hx
  exact ⟨pow_ne_zero 2 hx.2, box_subset_simplex n hx.1⟩

end Xcelerator.Foundations.SimplexIntegral
