import Mathlib

/-! # Zeros in a disc

The logarithmic derivative of a polynomial integrates around a circle to the
number of zeros inside. Where one monomial exceeds the rest of the polynomial on
the circle, the quotient of the two stays in the right half plane, its logarithm
is single valued, and the count is the degree of that monomial. -/

namespace Xcelerator.Foundations.Rouche
open Polynomial Metric
open scoped Real Complex

/-- The zeros of a polynomial in the open disc about the origin, with multiplicity. -/
noncomputable def zerosInDisc {K : Type*} [NormedField K] (p : K[X]) (R : ℝ) : ℕ :=
  (p.roots.filter fun z => ‖z‖ < R).card

theorem circleIntegrable_inv_sub {R : ℝ} {a : ℂ} (ha : ‖a‖ ≠ |R|) :
    CircleIntegrable (fun z => (z - a)⁻¹) 0 R := by
  refine circleIntegrable_sub_inv_iff.mpr (.inr ?_)
  rw [mem_sphere_zero_iff_norm]
  exact ha

/-- One linear factor contributes a full turn or none. -/
theorem integral_inv_sub {R : ℝ} (hR : 0 < R) {a : ℂ} (ha : ‖a‖ ≠ R) :
    (∮ z in C(0, R), (z - a)⁻¹) = if ‖a‖ < R then 2 * π * Complex.I else 0 := by
  split
  · rename_i h
    exact circleIntegral.integral_sub_inv_of_mem_ball (mem_ball_zero_iff.mpr h)
  · rename_i h
    have hlt : R < ‖a‖ := lt_of_le_of_ne (not_lt.mp h) ha.symm
    have hne : ∀ z ∈ closedBall (0 : ℂ) R, z - a ≠ 0 := by
      intro z hz h0
      rw [sub_eq_zero.mp h0] at hz
      exact absurd (mem_closedBall_zero_iff.mp hz) (not_le.mpr hlt)
    refine Complex.circleIntegral_eq_zero_of_differentiable_on_off_countable hR.le
      Set.countable_empty ?_ ?_
    · exact (continuousOn_id.sub continuousOn_const).inv₀ hne
    · intro z hz
      exact (differentiableAt_id.sub_const a).inv (hne z (ball_subset_closedBall hz.1))

theorem integral_sum_inv_sub {R : ℝ} (hR : 0 < R) (s : Multiset ℂ) (hs : ∀ a ∈ s, ‖a‖ ≠ R) :
    CircleIntegrable (fun z => (s.map fun a => (z - a)⁻¹).sum) 0 R ∧
      (∮ z in C(0, R), (s.map fun a => (z - a)⁻¹).sum) =
        (s.filter fun a => ‖a‖ < R).card * (2 * π * Complex.I) := by
  induction s using Multiset.induction_on with
  | empty => simp [circleIntegral]
  | cons a s ih =>
    have ha : ‖a‖ ≠ R := hs a (Multiset.mem_cons_self a s)
    obtain ⟨hint, hsum⟩ := ih fun b hb => hs b (Multiset.mem_cons_of_mem hb)
    have hinta := circleIntegrable_inv_sub (R := R) (a := a) (by rwa [abs_of_pos hR])
    simp only [Multiset.map_cons, Multiset.sum_cons]
    refine ⟨hinta.add hint, ?_⟩
    rw [circleIntegral.integral_add hinta hint, hsum, integral_inv_sub hR ha,
      Multiset.filter_cons, Multiset.card_add]
    split
    · simp
      ring
    · simp

/-- The argument principle for a polynomial on a circle. -/
theorem integral_logDeriv {p : ℂ[X]} {R : ℝ} (hR : 0 < R)
    (hne : ∀ z : ℂ, ‖z‖ = R → p.eval z ≠ 0) :
    (∮ z in C(0, R), (derivative p).eval z / p.eval z) = zerosInDisc p R * (2 * π * Complex.I) := by
  have hroots : ∀ a ∈ p.roots, ‖a‖ ≠ R := by
    intro a ha h
    exact hne a h (isRoot_of_mem_roots ha)
  rw [zerosInDisc, ← (integral_sum_inv_sub hR p.roots hroots).2]
  refine circleIntegral.integral_congr hR.le fun z hz => ?_
  have hz' := hne z (mem_sphere_zero_iff_norm.mp hz)
  simpa [one_div] using (IsAlgClosed.splits p).eval_derivative_div_eval_of_ne_zero hz'

/-- The quotient of the polynomial by a dominating monomial has a logarithm on the circle. -/
theorem integral_logDeriv_of_dominant {p : ℂ[X]} {R : ℝ} {c : ℂ} {k : ℕ} (hR : 0 < R)
    (hdom : ∀ z : ℂ, ‖z‖ = R → ‖p.eval z - c * z ^ k‖ < ‖c * z ^ k‖) :
    (∮ z in C(0, R), ((derivative p).eval z / p.eval z - k * (z - 0)⁻¹)) = 0 := by
  refine circleIntegral.integral_eq_zero_of_hasDerivWithinAt hR.le
    (f := fun z => Complex.log (p.eval z / (c * z ^ k))) fun z hz => ?_
  have hnorm : ‖z‖ = R := mem_sphere_zero_iff_norm.mp hz
  have hz0 : z ≠ 0 := norm_ne_zero_iff.mp (by rw [hnorm]; exact hR.ne')
  have hmono : c * z ^ k ≠ 0 := norm_pos_iff.mp ((norm_nonneg _).trans_lt (hdom z hnorm))
  have hp : p.eval z ≠ 0 := by
    intro h0
    have h := hdom z hnorm
    rw [h0, zero_sub, norm_neg] at h
    exact lt_irrefl _ h
  have hslit : p.eval z / (c * z ^ k) ∈ Complex.slitPlane := by
    have hlt : ‖p.eval z / (c * z ^ k) - 1‖ < 1 := by
      rw [div_sub_one hmono, norm_div, div_lt_one (norm_pos_iff.mpr hmono)]
      exact hdom z hnorm
    simpa using Complex.mem_slitPlane_of_norm_lt_one hlt
  have hnum : HasDerivAt (fun w => p.eval w) ((derivative p).eval z) z := p.hasDerivAt z
  have hden : HasDerivAt (fun w => c * w ^ k) (c * (k * z ^ (k - 1))) z :=
    (hasDerivAt_pow k z).const_mul c
  have hlog := ((hnum.div hden hmono).clog hslit).hasDerivWithinAt (s := sphere 0 R)
  refine hlog.congr_deriv ?_
  have hc : c ≠ 0 := left_ne_zero_of_mul hmono
  have hpow : (k : ℂ) * z ^ (k - 1) * z = k * z ^ k := by
    rcases k with _ | k
    · simp
    · rw [Nat.add_sub_cancel, pow_succ]
      ring
  simp only [Pi.div_apply, sub_zero]
  field_simp
  linear_combination (-p.eval z) * hpow

/-- A dominating monomial counts the zeros of the disc, and the circle carries none. -/
theorem zeros_of_dominant {p : ℂ[X]} {R : ℝ} {c : ℂ} {k : ℕ} (hR : 0 < R)
    (hdom : ∀ z : ℂ, ‖z‖ = R → ‖p.eval z - c * z ^ k‖ < ‖c * z ^ k‖) :
    (∀ z : ℂ, ‖z‖ = R → p.eval z ≠ 0) ∧ zerosInDisc p R = k := by
  have hne : ∀ z : ℂ, ‖z‖ = R → p.eval z ≠ 0 := by
    intro z hz h0
    have h := hdom z hz
    rw [h0, zero_sub, norm_neg] at h
    exact lt_irrefl _ h
  refine ⟨hne, ?_⟩
  have hpole : CircleIntegrable (fun z : ℂ => (k : ℂ) * (z - 0)⁻¹) 0 R := by
    have h := circleIntegrable_inv_sub (R := R) (a := 0)
      (by rw [norm_zero, abs_of_pos hR]; exact hR.ne)
    exact h.const_fun_smul
  have hlog : CircleIntegrable (fun z : ℂ => (derivative p).eval z / p.eval z) 0 R := by
    refine ContinuousOn.circleIntegrable hR.le ?_
    refine (derivative p).continuousOn.div p.continuousOn fun z hz => ?_
    exact hne z (mem_sphere_zero_iff_norm.mp hz)
  have hzero := integral_logDeriv_of_dominant hR hdom
  rw [circleIntegral.integral_sub hlog hpole, integral_logDeriv hR hne,
    circleIntegral.integral_const_mul, integral_inv_sub hR (by simpa using hR.ne),
    if_pos (by simpa using hR), sub_eq_zero] at hzero
  have hpi : (2 * π * Complex.I : ℂ) ≠ 0 := Complex.two_pi_I_ne_zero
  exact_mod_cast mul_right_cancel₀ hpi hzero

end Xcelerator.Foundations.Rouche
