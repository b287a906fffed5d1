import Mathlib
import Xcelerator.Foundations.Sturm
import Xcelerator.Numerics.SturmRoots

/-! # Correctness of Sturm counting and isolation

A coefficient vector stands for a rational polynomial (`toPoly`); every vector
operation is an operation on it up to a positive factor. The sequence the
counting entry builds is then a remainder chain, and Sturm's theorem counts. -/

namespace Xcelerator.Numerics.SturmRootsSoundness
open Polynomial
open Xcelerator.Foundations Machine Sturm Xcelerator.Numerics.Interval
  Xcelerator.Numerics.SturmRoots

/-! ## Vectors as polynomials -/

noncomputable def toPoly (p : List ℚ) : ℚ[X] := p.foldr (fun c q => C c + X * q) 0

@[simp] theorem toPoly_nil : toPoly [] = 0 := rfl

@[simp] theorem toPoly_cons (c : ℚ) (p : List ℚ) : toPoly (c :: p) = C c + X * toPoly p := rfl

theorem toPoly_append (p q : List ℚ) : toPoly (p ++ q) = toPoly p + X ^ p.length * toPoly q := by
  induction p with
  | nil => simp
  | cons c p ih =>
    rw [List.cons_append, toPoly_cons, ih, toPoly_cons, List.length_cons]
    ring

theorem toPoly_map_mul (k : ℚ) (p : List ℚ) : toPoly (p.map fun c => c * k) = C k * toPoly p := by
  induction p with
  | nil => simp
  | cons c p ih =>
    rw [List.map_cons, toPoly_cons, ih, toPoly_cons, C_mul]
    ring

theorem toPoly_map_neg (p : List ℚ) : toPoly (p.map (-·)) = -toPoly p := by
  have h := toPoly_map_mul (-1) p
  simpa using h

theorem toPoly_zipWith {p q : List ℚ} (h : p.length = q.length) (k : ℚ) :
    toPoly (List.zipWith (fun r c => r - c * k) p q) = toPoly p - C k * toPoly q := by
  induction p generalizing q with
  | nil =>
    cases q with
    | nil => simp
    | cons d q => cases h
  | cons c p ih =>
    cases q with
    | nil => cases h
    | cons d q =>
      rw [List.zipWith_cons_cons, toPoly_cons, toPoly_cons, toPoly_cons, ih (by simpa using h)]
      simp only [C_sub, C_mul]
      ring

theorem toPoly_concat_natDegree {p : List ℚ} {c : ℚ} (hc : c ≠ 0) :
    (toPoly (p ++ [c])).natDegree = p.length ∧ (toPoly (p ++ [c])).leadingCoeff = c := by
  have hdeg : (toPoly (p ++ [c])).natDegree = p.length ∧
      (toPoly (p ++ [c])).coeff p.length = c := by
    induction p with
    | nil => simp
    | cons d p ih =>
      have hne : toPoly (p ++ [c]) ≠ 0 := by
        intro h0
        rw [h0, coeff_zero] at ih
        exact hc ih.2.symm
      rw [List.cons_append, toPoly_cons, add_comm, natDegree_add_C, natDegree_X_mul hne, ih.1,
        List.length_cons, coeff_add, coeff_X_mul, ih.2, coeff_C_succ, add_zero]
      exact ⟨rfl, rfl⟩
  exact ⟨hdeg.1, by rw [leadingCoeff, hdeg.1, hdeg.2]⟩

/-- A nonempty vector without redundant leading zeros. -/
def Trimmed (p : List ℚ) : Prop := isZeroPolynomial p = true ∨ p.getLastD 0 ≠ 0

theorem toPoly_of_isZero {p : List ℚ} (h : isZeroPolynomial p = true) : toPoly p = 0 := by
  unfold isZeroPolynomial at h
  simp only [Bool.and_eq_true, beq_iff_eq] at h
  cases p with
  | nil => rfl
  | cons c p =>
    have hp : p = [] := List.eq_nil_of_length_eq_zero (by simpa using h.1)
    subst hp
    cases h.2
    simp

theorem natDegree_of_last {p : List ℚ} (h : p.getLastD 0 ≠ 0) :
    toPoly p ≠ 0 ∧ p.length = (toPoly p).natDegree + 1 := by
  have hne : p ≠ [] := fun h0 => h (by rw [h0]; rfl)
  obtain ⟨q, c, rfl⟩ : ∃ q c, p = q ++ [c] := ⟨_, _, (List.dropLast_append_getLast hne).symm⟩
  rw [List.getLastD_concat] at h
  have hdeg := toPoly_concat_natDegree (p := q) h
  refine ⟨fun h0 => h ?_, by simp [hdeg.1]⟩
  rw [← hdeg.2, h0, leadingCoeff_zero]

theorem Trimmed.last {p : List ℚ} (h : Trimmed p) (hne : toPoly p ≠ 0) : p.getLastD 0 ≠ 0 :=
  h.resolve_left fun hz => hne (toPoly_of_isZero hz)

theorem Trimmed.isZero_iff {p : List ℚ} (h : Trimmed p) :
    isZeroPolynomial p = true ↔ toPoly p = 0 := by
  constructor
  · exact toPoly_of_isZero
  · intro h0
    exact h.resolve_right fun hl => (natDegree_of_last hl).1 h0

theorem Trimmed.ne_nil {p : List ℚ} (h : Trimmed p) : p ≠ [] := by
  rintro rfl
  rcases h with h | h
  · cases h
  · exact h rfl

theorem toPoly_trimPolynomial (p : List ℚ) : toPoly (trimPolynomial p) = toPoly p := by
  induction p using trimPolynomial.induct with
  | case1 p h ih =>
    rw [trimPolynomial, if_pos h, ih]
    have hne : p ≠ [] := fun h0 => by simp [h0] at h
    conv_rhs => rw [← List.dropLast_append_getLast hne]
    rw [toPoly_append]
    have hlast : p.getLast hne = 0 := by
      have := h.2
      rw [List.getLast?_eq_some_getLast hne] at this
      exact Option.some.inj this
    simp [hlast]
  | case2 p h => rw [trimPolynomial, if_neg h]

theorem trimmed_trimPolynomial {p : List ℚ} (h : p ≠ []) : Trimmed (trimPolynomial p) :=
  trimPolynomial_last h

theorem normalizePolynomialPositive_spec {p : List ℚ} (h : p ≠ []) :
    Trimmed (normalizePolynomialPositive p) ∧
      ∃ k > 0, toPoly (normalizePolynomialPositive p) = C k * toPoly p := by
  unfold normalizePolynomialPositive
  dsimp only
  split
  · exact ⟨trimmed_trimPolynomial h, 1, one_pos, by rw [toPoly_trimPolynomial, C_1, one_mul]⟩
  · rename_i hlead
    have hscale : 0 < (if (trimPolynomial p).getLastD 0 < 0 then -(trimPolynomial p).getLastD 0
        else (trimPolynomial p).getLastD 0) := by
      split
      · rename_i hneg
        exact neg_pos.mpr hneg
      · rename_i hneg
        exact lt_of_le_of_ne (not_lt.mp hneg) (Ne.symm hlead)
    generalize (if (trimPolynomial p).getLastD 0 < 0 then -(trimPolynomial p).getLastD 0
      else (trimPolynomial p).getLastD 0) = scale at hscale ⊢
    refine ⟨.inr ?_, scale⁻¹, inv_pos.mpr hscale, ?_⟩
    · have hne := trimPolynomial_ne_nil h
      obtain ⟨q, c, hq⟩ : ∃ q c, trimPolynomial p = q ++ [c] :=
        ⟨_, _, (List.dropLast_append_getLast hne).symm⟩
      rw [hq, List.getLastD_concat] at hlead
      rw [hq, List.map_append, List.map_singleton, List.getLastD_concat]
      exact div_ne_zero hlead hscale.ne'
    · simp only [div_eq_mul_inv]
      rw [toPoly_map_mul, toPoly_trimPolynomial]

theorem evaluateRealPolynomialExact_eq {p : List ℚ} (h : p ≠ []) (x : ℚ) :
    evaluateRealPolynomialExact p x = .ok ((toPoly p).eval x) := by
  obtain ⟨q, c, rfl⟩ : ∃ q c, p = q ++ [c] := ⟨_, _, (List.dropLast_append_getLast h).symm⟩
  have hhorner : q.reverse.foldl (fun value coefficient => value * x + coefficient) c =
      (toPoly (q ++ [c])).eval x := by
    rw [List.foldl_reverse]
    induction q with
    | nil => simp
    | cons d q ih =>
      rw [List.foldr_cons, ih (by simp), List.cons_append, toPoly_cons]
      simp only [eval_add, eval_mul, eval_C, eval_X]
      ring
  unfold evaluateRealPolynomialExact
  simp only [List.reverse_append, List.reverse_singleton, List.singleton_append]
  rw [hhorner]

theorem toPoly_map_power (q : List ℚ) (k : ℕ) :
    toPoly ((q.zipIdx k).map fun (c, power) => c * (power : ℚ)) =
      X * derivative (toPoly q) + C (k : ℚ) * toPoly q := by
  induction q generalizing k with
  | nil => simp
  | cons c q ih =>
    rw [List.zipIdx_cons, List.map_cons, toPoly_cons, ih, toPoly_cons]
    simp only [derivative_add, derivative_C, derivative_mul, derivative_X, C_mul]
    push_cast
    simp only [C_add, C_1]
    ring

theorem toPoly_polynomialDerivative (p : List ℚ) :
    toPoly (polynomialDerivative p) = derivative (toPoly p) := by
  unfold polynomialDerivative
  rcases p with _ | ⟨c, p⟩
  · simp
  · by_cases hp : p = []
    · simp [hp]
    · have hlen : ¬ (c :: p).length ≤ 1 := by
        have := List.length_pos_of_ne_nil hp
        simp only [List.length_cons]
        omega
      rw [if_neg hlen, List.zipIdx_cons, List.drop_one, List.tail_cons, toPoly_map_power,
        toPoly_cons]
      simp only [derivative_add, derivative_C, derivative_mul, derivative_X]
      simp
      ring

theorem polynomialDerivative_ne_nil (p : List ℚ) : polynomialDerivative p ≠ [] := by
  unfold polynomialDerivative
  split
  · simp
  · intro h
    have := congrArg List.length h
    simp at this
    omega

/-! ## Division -/

theorem toPoly_cancelLeading {r d : List ℚ} (hlen : d.length ≤ r.length) :
    toPoly (cancelLeading r d) =
      toPoly r - C (r.getLastD 0 / d.getLastD 0) * X ^ (r.length - d.length) * toPoly d := by
  unfold cancelLeading
  have htake : (r.take (r.length - d.length)).length = r.length - d.length := by simp
  dsimp only
  rw [toPoly_append, toPoly_zipWith (by simp; omega), htake]
  conv_rhs => rw [← List.take_append_drop (r.length - d.length) r, toPoly_append, htake]
  simp only [List.take_append_drop]
  ring

/-- The result of a division loop: a remainder, up to a positive factor. -/
structure IsRemainder (dividend divisor result : List ℚ) : Prop where
  trimmed : Trimmed result
  small : isZeroPolynomial result = true ∨ result.length < divisor.length
  equation : ∃ k > 0, ∃ q, C k * toPoly dividend = q * toPoly divisor + toPoly result

theorem remainderLoop_spec {divisor remainder : List ℚ} (hd : divisor.getLastD 0 ≠ 0)
    (hr : Trimmed remainder) :
    ∃ result, remainderLoop divisor remainder = .ok result ∧
    IsRemainder remainder divisor result := by
  induction remainder using remainderLoop.induct divisor with
  | case1 remainder hdone =>
    rw [remainderLoop, dif_pos hdone]
    exact ⟨remainder, rfl, hr, hdone, 1, one_pos, 0, by simp⟩
  | case2 remainder hdone hlead => exact absurd hlead hd
  | case3 remainder hdone hlead ih =>
    rw [remainderLoop, dif_neg hdone, dif_neg hlead]
    rw [not_or, not_lt] at hdone
    have hne : cancelLeading remainder divisor ≠ [] := by
      intro h0
      have hlast := cancelLeading_last hd hdone.2
      rw [h0] at hlast
      cases hlast
    obtain ⟨htrim, k, hk, hnorm⟩ := normalizePolynomialPositive_spec hne
    obtain ⟨result, hrun, hres, hsmall, k', hk', q, heq⟩ := ih htrim
    refine ⟨result, hrun, hres, hsmall, k' * k, mul_pos hk' hk,
      q + C (k' * k) * C (remainder.getLastD 0 / divisor.getLastD 0) *
        X ^ (remainder.length - divisor.length), ?_⟩
    rw [hnorm, toPoly_cancelLeading hdone.2] at heq
    rw [C_mul]
    linear_combination heq

theorem polynomialRemainder_spec {dividend divisor : List ℚ} (hr : dividend ≠ [])
    (hd : divisor ≠ []) (hne : toPoly divisor ≠ 0) :
    ∃ result, polynomialRemainder dividend divisor = .ok result ∧
      IsRemainder dividend (trimPolynomial divisor) result := by
  unfold polynomialRemainder
  have hlast : (trimPolynomial divisor).getLastD 0 ≠ 0 :=
    (trimmed_trimPolynomial hd).last (by rwa [toPoly_trimPolynomial])
  have hz : isZeroPolynomial (trimPolynomial divisor) ≠ true := fun h =>
    hne (by rw [← toPoly_trimPolynomial, toPoly_of_isZero h])
  obtain ⟨result, hrun, hres, hsmall, heq⟩ := remainderLoop_spec hlast (trimmed_trimPolynomial hr)
  refine ⟨result, by rw [if_neg hz, hrun], hres, hsmall, ?_⟩
  rwa [toPoly_trimPolynomial] at heq

/-! ## Counting -/

theorem sturmTail_spec {previous current : List ℚ} (hp : previous ≠ []) (hc : Trimmed current)
    (hne : toPoly current ≠ 0) :
    ∃ rest, sturmTail previous current = .ok rest ∧
      RemainderChain ((previous :: current :: rest).map toPoly) ∧
      ∀ p ∈ rest, Trimmed p ∧ toPoly p ≠ 0 := by
  induction previous, current using sturmTail.induct with
  | case1 previous current e herror =>
    obtain ⟨result, hrun, _⟩ := polynomialRemainder_spec hp hc.ne_nil hne
    rw [hrun] at herror
    cases herror
  | case2 previous current remainder hrem hz =>
    obtain ⟨result, hrun, hres⟩ := polynomialRemainder_spec hp hc.ne_nil hne
    rw [hrun] at hrem
    cases hrem
    rw [sturmTail]
    refine ⟨[], by split <;> simp_all, .last hne ?_, by simp⟩
    obtain ⟨k, hk, q, heq⟩ := hres.equation
    rw [toPoly_of_isZero hz, toPoly_trimPolynomial, add_zero] at heq
    have hunit : IsUnit (C k : ℚ[X]) := isUnit_C.mpr (isUnit_iff_ne_zero.mpr hk.ne')
    exact hunit.dvd_mul_left.mp ⟨q, by rw [heq, mul_comm]⟩
  | case3 previous current remainder hrem hz next ih =>
    obtain ⟨result, hrun, hres⟩ := polynomialRemainder_spec hp hc.ne_nil hne
    obtain rfl : remainder = result := by
      rw [hrun] at hrem
      cases hrem
      rfl
    have hnil : remainder.map (-·) ≠ [] := fun h0 => hres.trimmed.ne_nil (List.map_eq_nil_iff.mp h0)
    obtain ⟨htrim, k', hk', hnext⟩ := normalizePolynomialPositive_spec hnil
    have hresne : toPoly remainder ≠ 0 := fun h0 => hz (hres.trimmed.isZero_iff.mpr h0)
    have hnextne : toPoly next ≠ 0 := by
      rw [hnext, toPoly_map_neg]
      exact mul_ne_zero (C_ne_zero.mpr hk'.ne') (neg_ne_zero.mpr hresne)
    obtain ⟨rest, hrest, hchain, hall⟩ := ih hc.ne_nil htrim hnextne
    rw [sturmTail]
    refine ⟨next :: rest, ?_, ?_, ?_⟩
    · split
      · simp_all
      · rename_i r hr
        rw [hrun] at hr
        cases hr
        rw [dif_neg hz]
        show Except.map (next :: ·) (sturmTail current next) = _
        rw [hrest]
        rfl
    · obtain ⟨k, hk, q, heq⟩ := hres.equation
      refine .step q hk (inv_pos.mpr hk') ?_ hchain
      rw [hnext, toPoly_map_neg, heq, toPoly_trimPolynomial, ← mul_assoc, ← C_mul,
        inv_mul_cancel₀ hk'.ne', C_1]
      ring
    · intro p hmem
      rcases List.mem_cons.mp hmem with rfl | hmem
      · exact ⟨htrim, hnextne⟩
      · exact hall p hmem

theorem foldl_signStep (values : List ℚ) (state : Option Bool × ℕ) :
    (values.foldl signStep state).2 = state.2 + variations state.1 values := by
  induction values generalizing state with
  | nil => rfl
  | cons v values ih =>
    rw [List.foldl_cons, ih]
    unfold signStep
    by_cases hv : v = 0
    · rw [if_pos hv, variations_cons_zero hv]
    · rw [if_neg hv, variations_cons hv]
      simp only [gt_iff_lt]
      split <;> omega

/-- The real polynomial a vector stands for. -/
noncomputable def toReal (p : List ℚ) : ℝ[X] := (toPoly p).map (algebraMap ℚ ℝ)

theorem toReal_eval (p : List ℚ) (x : ℚ) : (toReal p).eval (x : ℝ) = ((toPoly p).eval x : ℚ) := by
  rw [toReal, ← eq_ratCast (algebraMap ℚ ℝ) x, eval_map_apply]
  rfl

theorem sturmVariations_eq {sequence : List (List ℚ)} (h : ∀ p ∈ sequence, p ≠ []) (x : ℚ) :
    sturmVariations sequence x = .ok (variationsAt none (sequence.map toReal) x) := by
  have hvalues : sequence.mapM (fun p => evaluateRealPolynomialExact p x) =
      .ok (sequence.map fun p => (toPoly p).eval x) := by
    induction sequence with
    | nil => rfl
    | cons p sequence ih =>
      rw [List.mapM_cons, evaluateRealPolynomialExact_eq (h p List.mem_cons_self),
        ih fun q hq => h q (List.mem_cons_of_mem _ hq)]
      rfl
  unfold sturmVariations
  rw [hvalues]
  show Except.ok _ = _
  rw [foldl_signStep, Nat.zero_add, ← variations_ratCast]
  unfold variationsAt
  simp only [List.map_map]
  congr 2
  exact List.map_congr_left fun p _ => by simp [toReal_eval]

theorem toReal_ne_zero {p : List ℚ} (h : toPoly p ≠ 0) : toReal p ≠ 0 :=
  (Polynomial.map_ne_zero_iff (algebraMap ℚ ℝ).injective).mpr h

/-- The distinct real roots in the open interval. -/
def realRoots (coefficients : List ℚ) (lower upper : ℚ) : Set ℝ :=
  {x | (lower : ℝ) < x ∧ x < upper ∧ aeval x (toPoly coefficients) = 0}

theorem realRoots_ncard {p : List ℚ} (hp : toPoly p ≠ 0) (lower upper : ℚ) :
    (realRoots p lower upper).ncard =
      ((toReal p).roots.toFinset.filter fun r => (lower : ℝ) < r ∧ r < upper).card := by
  have hreal : toReal p ≠ 0 := toReal_ne_zero hp
  rw [← Set.ncard_coe_finset]
  congr 1
  ext r
  simp only [realRoots, Set.mem_ofPred_eq, Finset.coe_filter, Multiset.mem_toFinset,
    mem_roots hreal, IsRoot.def]
  rw [toReal, eval_map_algebraMap]
  tauto

/-- What the counting entry certifies about an interval it accepts. -/
structure Counted (coefficients : List ℚ) (lower upper : ℚ) (count : ExactSturmCount) : Prop where
  ordered : lower < upper
  nonconstant : 0 < (toPoly coefficients).natDegree
  lowerNotRoot : (toPoly coefficients).eval lower ≠ 0
  upperNotRoot : (toPoly coefficients).eval upper ≠ 0
  roots : count.distinctRealRoots = (realRoots coefficients lower upper).ncard
  squareFree : count.squareFree = true ↔
    (EuclideanDomain.gcd (toPoly coefficients) (derivative (toPoly coefficients))).natDegree = 0

def tooShort : IntervalError :=
  .invalid "Sturm counting requires a nonconstant polynomial and lower < upper"

def becomesConstant : IntervalError :=
  .invalid "Sturm counting polynomial becomes constant after trimming"

def boundaryRoot : IntervalError :=
  .inconclusive "Sturm counting interval has a root on its boundary"

/-- The last member of the sequence is the greatest common divisor up to a unit. -/
theorem natDegree_last_eq_gcd {P f g : ℚ[X]} {rest : List ℚ[X]} {k l : ℚ} (hk : 0 < k) (hl : 0 < l)
    (hf : f = C k * P) (hg : g = C l * derivative P) (h : RemainderChain (f :: g :: rest)) :
    ((f :: g :: rest).getLastD 0).natDegree = (EuclideanDomain.gcd P (derivative P)).natDegree := by
  have hunit : ∀ {x : ℚ}, 0 < x → IsUnit (C x : ℚ[X]) := fun hx =>
    isUnit_C.mpr (isUnit_iff_ne_zero.mpr hx.ne')
  have hdvd := h.last_dvd
  have hleft : (f :: g :: rest).getLastD 0 ∣ EuclideanDomain.gcd P (derivative P) := by
    refine EuclideanDomain.dvd_gcd ?_ ?_
    · exact (hunit hk).dvd_mul_left.mp (hf ▸ hdvd f (by simp))
    · exact (hunit hl).dvd_mul_left.mp (hg ▸ hdvd g (by simp))
  have hright : EuclideanDomain.gcd P (derivative P) ∣ (f :: g :: rest).getLastD 0 := by
    refine h.dvd_last ?_ ?_
    · exact hf ▸ dvd_mul_of_dvd_right (EuclideanDomain.gcd_dvd_left _ _) _
    · exact hg ▸ dvd_mul_of_dvd_right (EuclideanDomain.gcd_dvd_right _ _) _
  exact natDegree_eq_of_degree_eq
    (degree_eq_degree_of_associated (associated_of_dvd_dvd hleft hright))

/-- The sequence of a vector is a remainder chain of it and its derivative. -/
structure IsSequence (polynomial : List ℚ) (sequence : List (List ℚ)) : Prop where
  trimmed : ∀ p ∈ sequence, Trimmed p ∧ toPoly p ≠ 0
  chain : ∃ second rest, sequence = polynomial :: second :: rest ∧
    RemainderChain (sequence.map toPoly) ∧
    ∃ l > 0, toPoly second = C l * derivative (toPoly polynomial)

theorem sturmSequence_spec {polynomial : List ℚ} (htrim : Trimmed polynomial)
    (hdeg : 0 < (toPoly polynomial).natDegree) :
    ∃ sequence, sturmSequence polynomial = .ok sequence ∧ IsSequence polynomial sequence := by
  have hne : toPoly polynomial ≠ 0 := fun h0 => by simp [h0] at hdeg
  obtain ⟨htrim2, l, hl, hsecond⟩ :=
    normalizePolynomialPositive_spec (polynomialDerivative_ne_nil polynomial)
  rw [toPoly_polynomialDerivative] at hsecond
  have hsecondne : toPoly (normalizePolynomialPositive (polynomialDerivative polynomial)) ≠ 0 := by
    rw [hsecond]
    refine mul_ne_zero (C_ne_zero.mpr hl.ne') fun h0 => ?_
    rw [derivative_eq_zero] at h0
    omega
  obtain ⟨rest, hrest, hchain, hall⟩ := sturmTail_spec htrim.ne_nil htrim2 hsecondne
  refine ⟨polynomial :: normalizePolynomialPositive (polynomialDerivative polynomial) :: rest, ?_,
    fun p hp => ?_, _, _, rfl, hchain, l, hl, hsecond⟩
  · unfold sturmSequence
    dsimp only
    rw [hrest]
    rfl
  · rcases List.mem_cons.mp hp with rfl | hp
    · exact ⟨htrim, hne⟩
    rcases List.mem_cons.mp hp with rfl | hp
    · exact ⟨htrim2, hsecondne⟩
    · exact hall p hp

/-- Sturm's theorem for the sequence of a vector. -/
theorem IsSequence.variations {polynomial : List ℚ} {sequence : List (List ℚ)}
    (h : IsSequence polynomial sequence) {lower upper : ℚ} (hlt : lower < upper)
    (hlower : (toPoly polynomial).eval lower ≠ 0) (hupper : (toPoly polynomial).eval upper ≠ 0) :
    variationsAt none (sequence.map toReal) lower =
      variationsAt none (sequence.map toReal) upper + (realRoots polynomial lower upper).ncard := by
  obtain ⟨second, rest, rfl, hchain, l, hl, hsecond⟩ := h.chain
  have hne := (h.trimmed polynomial List.mem_cons_self).2
  have hreal : RemainderChain (toReal polynomial :: toReal second :: rest.map toReal) := by
    have hmap := hchain.map_real
    rw [List.map_map] at hmap
    exact hmap
  rw [realRoots_ncard hne]
  refine sturm (toReal_ne_zero hne) hreal one_pos
    (Rat.cast_pos.mpr hl) ?_ ?_ (by exact_mod_cast hlt.le) ?_ ?_
  · rw [C_1, one_mul]
  · simp [toReal, hsecond, derivative_map]
  · rw [toReal_eval]
    exact_mod_cast hlower
  · rw [toReal_eval]
    exact_mod_cast hupper

theorem toPoly_getLastD (sequence : List (List ℚ)) :
    (sequence.map toPoly).getLastD 0 = toPoly (sequence.getLastD []) := by
  rw [List.getLastD_eq_getLast?, List.getLastD_eq_getLast?, List.getLast?_map]
  cases sequence.getLast? <;> rfl

theorem IsSequence.squareFree {polynomial : List ℚ} {sequence : List (List ℚ)} {P : ℚ[X]} {k : ℚ}
    (h : IsSequence polynomial sequence) (hk : 0 < k) (hpoly : toPoly polynomial = C k * P) :
    ((sequence.getLastD []).length == 1) = true ↔
      (EuclideanDomain.gcd P (derivative P)).natDegree = 0 := by
  obtain ⟨second, rest, rfl, hchain, l, hl, hsecond⟩ := h.chain
  have hmem : (polynomial :: second :: rest).getLastD [] ∈ polynomial :: second :: rest := by
    rw [List.getLastD_eq_getLast?, List.getLast?_eq_some_getLast (List.cons_ne_nil _ _)]
    exact List.getLast_mem (List.cons_ne_nil _ _)
  obtain ⟨htrim, hne⟩ := h.trimmed _ hmem
  rw [hpoly, derivative_C_mul, ← mul_assoc, ← C_mul] at hsecond
  have hgcd := natDegree_last_eq_gcd hk (mul_pos hl hk) hpoly hsecond hchain
  rw [beq_iff_eq, (natDegree_of_last (htrim.last hne)).2, ← hgcd, ← toPoly_getLastD]
  exact Nat.add_eq_right

theorem countVariations_spec {polynomial : List ℚ} {sequence : List (List ℚ)}
    (h : IsSequence polynomial sequence) {lower upper : ℚ} (hlt : lower < upper)
    (hlower : (toPoly polynomial).eval lower ≠ 0) (hupper : (toPoly polynomial).eval upper ≠ 0) :
    ∃ count, countVariations sequence lower upper = .ok count ∧
      count.distinctRealRoots = (realRoots polynomial lower upper).ncard ∧
      count.squareFree = ((sequence.getLastD []).length == 1) := by
  have hnil : ∀ p ∈ sequence, p ≠ [] := fun p hp => (h.trimmed p hp).1.ne_nil
  have hsturm := h.variations hlt hlower hupper
  unfold countVariations
  rw [sturmVariations_eq hnil, sturmVariations_eq hnil, ok_bind, ok_bind, check, if_pos (by
    simp [hsturm])]
  refine ⟨_, rfl, ?_, rfl⟩
  show variationsAt none _ _ - variationsAt none _ _ = _
  omega

/-- Every run refuses its input in one of three ways or returns the exact count. -/
theorem exactSturmRootCount_cases (coefficients : List ℚ) (lower upper : ℚ) :
    (∃ e ∈ [tooShort, becomesConstant, boundaryRoot],
      exactSturmRootCount coefficients lower upper = .error (.error e)) ∨
    ∃ count, exactSturmRootCount coefficients lower upper = .ok count ∧
      Counted coefficients lower upper count := by
  unfold exactSturmRootCount
  by_cases hshort : coefficients.length < 2 ∨ lower ≥ upper
  · rw [lift_check_neg (by grind)]
    exact .inl ⟨tooShort, by simp, rfl⟩
  rw [lift_check_pos (by grind), ok_bind]
  rw [not_or, not_lt, not_le] at hshort
  have hne : coefficients ≠ [] := List.ne_nil_of_length_pos (by omega)
  obtain ⟨htrim, k, hk, hpoly⟩ := normalizePolynomialPositive_spec hne
  generalize normalizePolynomialPositive coefficients = polynomial at htrim hpoly ⊢
  dsimp only
  by_cases hconst : polynomial.length < 2
  · rw [lift_check_neg (by grind)]
    exact .inl ⟨becomesConstant, by simp, rfl⟩
  rw [lift_check_pos (by grind), ok_bind, evaluateRealPolynomialExact_eq htrim.ne_nil,
    evaluateRealPolynomialExact_eq htrim.ne_nil]
  have hlast : polynomial.getLastD 0 ≠ 0 := by
    refine htrim.resolve_left fun hz => hconst ?_
    unfold isZeroPolynomial at hz
    simp only [Bool.and_eq_true, beq_iff_eq] at hz
    omega
  have hdeg := (natDegree_of_last hlast).2
  show (∃ e ∈ _, (lift (check _ boundaryRoot) >>= _) = _) ∨ _
  by_cases hroot : (toPoly polynomial).eval lower = 0 ∨ (toPoly polynomial).eval upper = 0
  · rw [lift_check_neg (by grind)]
    exact .inl ⟨boundaryRoot, by simp, rfl⟩
  rw [not_or] at hroot
  obtain ⟨sequence, hsequence, hspec⟩ := sturmSequence_spec htrim (by omega)
  obtain ⟨count, hcount, hroots, hfree⟩ := countVariations_spec hspec hshort.2 hroot.1 hroot.2
  have heval : ∀ x, (toPoly polynomial).eval x = k * (toPoly coefficients).eval x := by
    intro x
    rw [hpoly, eval_mul, eval_C]
  refine .inr ⟨count, ?_, hshort.2, ?_, ?_, ?_, ?_, ?_⟩
  · show (lift (check _ boundaryRoot) >>= _) = _
    rw [lift_check_pos (by grind), ok_bind, hsequence, ok_bind, hcount]
    rfl
  · rw [← natDegree_C_mul hk.ne', ← hpoly]
    omega
  · exact fun h0 => hroot.1 (by rw [heval, h0, mul_zero])
  · exact fun h0 => hroot.2 (by rw [heval, h0, mul_zero])
  · rw [hroots]
    congr 1
    ext x
    have hk' : (algebraMap ℚ ℝ) k ≠ 0 := by simpa using hk.ne'
    simp only [realRoots, Set.mem_ofPred_eq, hpoly, map_mul, aeval_C, mul_eq_zero, hk', false_or]
  · rw [hfree]
    exact hspec.squareFree hk hpoly

/-- **Exact counting.** An accepted run counts the distinct real roots strictly
between the endpoints and decides whether the greatest common divisor with the
derivative is constant; the only refusals are those of the input. -/
theorem exactSturmRootCount_exact (coefficients : List ℚ) (lower upper : ℚ) :
    (∀ count, exactSturmRootCount coefficients lower upper = .ok count →
      count.distinctRealRoots = (realRoots coefficients lower upper).ncard ∧
      (count.squareFree = true ↔ (EuclideanDomain.gcd (toPoly coefficients)
        (derivative (toPoly coefficients))).natDegree = 0)) ∧
    ∀ stop, exactSturmRootCount coefficients lower upper = .error stop →
      ∃ e ∈ [tooShort, becomesConstant, boundaryRoot], stop = .error e := by
  rcases exactSturmRootCount_cases coefficients lower upper with ⟨e, he, hrun⟩
    | ⟨count, hrun, hcount⟩
  · rw [hrun]
    refine ⟨fun _ h => (nomatch h), fun stop hstop => ⟨e, he, ?_⟩⟩
    cases hstop
    rfl
  · rw [hrun]
    refine ⟨fun _ h => ?_, fun _ h => (nomatch h)⟩
    cases h
    exact ⟨hcount.roots, hcount.squareFree⟩

/-- A double root at one and a simple root at two. -/
theorem exactSturmRootCount_exact_double :
    exactSturmRootCount [-2, 5, -4, 1] (-3) 5 = .ok ⟨-3, 5, 2, 2, 0, false, 3⟩ ∧
      (realRoots [-2, 5, -4, 1] (-3) 5).ncard = 2 := by
  have hrun : exactSturmRootCount [-2, 5, -4, 1] (-3) 5 = .ok ⟨-3, 5, 2, 2, 0, false, 3⟩ := by
    decide +kernel
  exact ⟨hrun, ((exactSturmRootCount_exact _ _ _).1 _ hrun).1.symm⟩

end Xcelerator.Numerics.SturmRootsSoundness
