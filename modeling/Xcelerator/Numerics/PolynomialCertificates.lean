import Mathlib
import Xcelerator.Foundations.Machine
import Xcelerator.Foundations.Rouche
import Xcelerator.Numerics.Interval
import Xcelerator.Numerics.Contour
import Xcelerator.Numerics.ContourSoundness
import Xcelerator.Numerics.SturmRoots
import Xcelerator.Numerics.SturmRootsSoundness

/-! # One-step polynomial certificates

Two certificates that need no subdivision: a simple real root between two exact
endpoint values of opposite sign, and the zero count of a disc on whose circle
one term dominates. -/

namespace Xcelerator.Numerics.PolynomialCertificates
open Polynomial
open Xcelerator.Foundations Machine Rouche Xcelerator.Numerics.Interval Xcelerator.Numerics.Contour
open Xcelerator.Numerics.SturmRoots
open SturmRootsSoundness (toPoly_cons evaluateRealPolynomialExact_eq)

/-! ## A simple real root -/

def evaluateRealPolynomialInterval (coefficientsAscending : List ℚ) (argument : RationalInterval) :
    Result RationalInterval :=
  match coefficientsAscending.reverse with
  | [] => .error (.invalid "polynomial must contain at least one coefficient")
  | highest :: rest => .ok (rest.foldl (fun value coefficient =>
    (value.mul argument).add (.point coefficient))
      (.point highest))

structure PolynomialRootIsolation where
  interval : RationalInterval
  derivativeEnclosure : RationalInterval
  valueAtLower : ℚ
  valueAtUpper : ℚ
  unique : Bool
deriving DecidableEq, Repr

def isPoint (a : RationalInterval) : Bool := a.lower == a.upper

/-- The coefficients of the derivative, as the certificate forms them. -/
def derivativeCoefficients (coefficientsAscending : List ℚ) : List ℚ :=
  (coefficientsAscending.zipIdx.drop 1).map fun (coefficient, power) => coefficient * power

def certifySimplePolynomialRoot (coefficientsAscending : List ℚ) (interval : RationalInterval) :
    Result PolynomialRootIsolation := do
  check (!(coefficientsAscending.length < 2 || isPoint interval))
    (.invalid "root isolation requires a nonconstant polynomial and nonzero-width interval")
  let derivativeEnclosure ←
    evaluateRealPolynomialInterval (derivativeCoefficients coefficientsAscending) interval
  check (!derivativeEnclosure.containsZero) (.inconclusive "derivative enclosure contains zero")
  let valueAtLower ← evaluateRealPolynomialExact coefficientsAscending interval.lower
  let valueAtUpper ← evaluateRealPolynomialExact coefficientsAscending interval.upper
  check (!(valueAtLower == 0 || valueAtUpper == 0))
    (.inconclusive "a root lies on an interval endpoint; submit a strict isolating interval")
  check (decide (valueAtLower > 0) != decide (valueAtUpper > 0))
    (.inconclusive "endpoint signs do not prove existence")
  return { interval, derivativeEnclosure, valueAtLower, valueAtUpper, unique := true }

/-- The real function of a coefficient vector. -/
noncomputable def realValue (coefficientsAscending : List ℚ) (x : ℝ) : ℝ :=
  (SturmRootsSoundness.toReal coefficientsAscending).eval x

theorem realValue_eq (p : List ℚ) : realValue p = fun x =>
    aeval x (SturmRootsSoundness.toPoly p) := by
  funext x
  rw [realValue, SturmRootsSoundness.toReal, eval_map_algebraMap]

/-- Horner's scheme over intervals encloses every value on the argument. -/
theorem evaluateRealPolynomialInterval_contains {p : List ℚ} {a v : RationalInterval} {x : ℝ}
    (h : evaluateRealPolynomialInterval p a = .ok v) (hx : a.Contains x) :
    v.Contains (realValue p x) := by
  unfold evaluateRealPolynomialInterval at h
  split at h
  · cases h
  · rename_i highest rest hrev
    have hp : p = rest.reverse ++ [highest] := by
      rw [← List.reverse_cons, ← hrev, List.reverse_reverse]
    cases h
    subst hp
    rw [← List.foldr_reverse]
    generalize rest.reverse = q
    induction q with
    | nil => simpa [realValue_eq] using RationalInterval.contains_point highest
    | cons d q ih =>
      have hval : realValue (d :: q ++ [highest]) x = realValue (q ++ [highest]) x * x + d := by
        simp only [realValue_eq, List.cons_append, toPoly_cons, map_add, map_mul, aeval_C, aeval_X,
          eq_ratCast]
        ring
      rw [List.foldr_cons, hval]
      exact (ih.mul hx).add (RationalInterval.contains_point d)

theorem derivativeCoefficients_eq {p : List ℚ} (h : 2 ≤ p.length) :
    derivativeCoefficients p = polynomialDerivative p := by
  unfold derivativeCoefficients polynomialDerivative
  rw [if_neg (by omega)]

theorem realValue_hasDerivAt {p : List ℚ} (h : 2 ≤ p.length) (x : ℝ) :
    HasDerivAt (realValue p) (realValue (derivativeCoefficients p) x) x := by
  rw [derivativeCoefficients_eq h, realValue_eq, realValue_eq,
    SturmRootsSoundness.toPoly_polynomialDerivative]
  exact (SturmRootsSoundness.toPoly p).hasDerivAt_aeval x

theorem realValue_ratCast {p : List ℚ} {x v : ℚ} (h : evaluateRealPolynomialExact p x = .ok v) :
    realValue p x = v := by
  have hp : p ≠ [] := by
    rintro rfl
    cases h
  rw [evaluateRealPolynomialExact_eq hp] at h
  cases h
  rw [realValue_eq]
  simp only [← eq_ratCast (algebraMap ℚ ℝ), aeval_algebraMap_apply, coe_aeval_eq_eval]

/-- A sign change with a derivative of one sign has exactly one root. -/
theorem existsUnique_root {f f' : ℝ → ℝ} {a b : ℝ} (hab : a < b)
    (hf : ∀ x, HasDerivAt f (f' x) x)
    (hsign : (∀ x ∈ Set.Icc a b, 0 < f' x) ∨ ∀ x ∈ Set.Icc a b, f' x < 0)
    (ha : f a ≠ 0) (hb : f b ≠ 0) (hopp : 0 < f a ↔ ¬ 0 < f b) :
    ∃ x, a < x ∧ x < b ∧ f x = 0 ∧ f' x ≠ 0 ∧ ∀ y ∈ Set.Icc a b, f y = 0 → y = x := by
  have hcont : ContinuousOn f (Set.Icc a b) := fun x _ => (hf x).continuousAt.continuousWithinAt
  have hroot : ∃ x ∈ Set.Icc a b, f x = 0 := by
    rcases lt_or_gt_of_ne ha with hneg | hpos
    · have hbpos : 0 < f b := by
        by_contra hb'
        exact absurd (hopp.mpr hb') (not_lt.mpr hneg.le)
      exact intermediate_value_Icc hab.le hcont ⟨hneg.le, hbpos.le⟩
    · exact intermediate_value_Icc' hab.le hcont ⟨not_lt.mp (hopp.mp hpos), hpos.le⟩
  have hinj : Set.InjOn f (Set.Icc a b) := by
    rcases hsign with hpos | hneg
    · refine StrictMonoOn.injOn (strictMonoOn_of_deriv_pos (convex_Icc a b) hcont ?_)
      intro x hx
      rw [(hf x).deriv]
      exact hpos x (interior_subset hx)
    · refine StrictAntiOn.injOn (strictAntiOn_of_deriv_neg (convex_Icc a b) hcont ?_)
      intro x hx
      rw [(hf x).deriv]
      exact hneg x (interior_subset hx)
  obtain ⟨x, hx, h0⟩ := hroot
  refine ⟨x, lt_of_le_of_ne hx.1 ?_, lt_of_le_of_ne hx.2 ?_, h0, ?_, ?_⟩
  · rintro rfl
    exact ha h0
  · rintro rfl
    exact hb h0
  · exact hsign.elim (fun h => (h x hx).ne') fun h => (h x hx).ne
  · intro y hy hy0
    exact hinj hy hx (hy0.trans h0.symm)

/-- An accepted interval holds exactly one root; it is interior and simple. -/
theorem certifySimplePolynomialRoot_sound {p : List ℚ} {interval : RationalInterval}
    {result : PolynomialRootIsolation} (h : certifySimplePolynomialRoot p interval = .ok result) :
    ∃ x : ℝ, (interval.lower : ℝ) < x ∧ x < interval.upper ∧
      (∀ y : ℝ, interval.Contains y ∧ realValue p y = 0 ↔ y = x) ∧
      aeval x (derivative (SturmRootsSoundness.toPoly p)) ≠ 0 := by
  unfold certifySimplePolynomialRoot at h
  obtain ⟨_, hdomain, h⟩ := bind_eq_ok h
  obtain ⟨enclosure, henclosure, h⟩ := bind_eq_ok h
  obtain ⟨_, hzero, h⟩ := bind_eq_ok h
  obtain ⟨low, hlow, h⟩ := bind_eq_ok h
  obtain ⟨high, hhigh, h⟩ := bind_eq_ok h
  obtain ⟨_, hends, h⟩ := bind_eq_ok h
  obtain ⟨_, hsigns, h⟩ := bind_eq_ok h
  have hdomain := check_ok hdomain
  have hends := check_ok hends
  have hsigns := check_ok hsigns
  simp only [Bool.not_eq_true', Bool.or_eq_false_iff, decide_eq_false_iff_not, isPoint,
    beq_eq_false_iff_ne] at hdomain hends
  have hlen : 2 ≤ p.length := not_lt.mp hdomain.1
  have hlt : (interval.lower : ℝ) < interval.upper := by
    exact_mod_cast lt_of_le_of_ne interval.ordered hdomain.2
  have hsign : (∀ x ∈ Set.Icc (interval.lower : ℝ) interval.upper,
        0 < realValue (derivativeCoefficients p) x) ∨
      ∀ x ∈ Set.Icc (interval.lower : ℝ) interval.upper, realValue (derivativeCoefficients p) x <
          0 := by
    have hmem : ∀ x ∈ Set.Icc (interval.lower : ℝ) interval.upper,
        enclosure.Contains (realValue (derivativeCoefficients p) x) := fun x hx =>
      evaluateRealPolynomialInterval_contains henclosure hx
    have hz := RationalInterval.containsZero_false (by simpa using check_ok hzero)
    rcases hz with hl | hu
    · exact .inl fun x hx => (hmem x hx).pos (decide_eq_true hl)
    · exact .inr fun x hx => (hmem x hx).negative (decide_eq_true hu)
  have hvl := realValue_ratCast hlow
  have hvu := realValue_ratCast hhigh
  have hopp : (0 < realValue p interval.lower ↔ ¬ 0 < realValue p interval.upper) := by
    rw [hvl, hvu]
    simp only [Rat.cast_pos]
    by_cases h1 : 0 < low <;> by_cases h2 : 0 < high <;> simp [h1, h2] at hsigns ⊢
  obtain ⟨x, hxl, hxu, h0, hsimple, huniq⟩ :=
    existsUnique_root hlt (realValue_hasDerivAt hlen) hsign
    (by rw [hvl]; exact_mod_cast hends.1) (by rw [hvu]; exact_mod_cast hends.2) hopp
  refine ⟨x, hxl, hxu, fun y => ⟨fun hy => huniq y hy.1 hy.2, ?_⟩, ?_⟩
  · rintro rfl
    exact ⟨⟨hxl.le, hxu.le⟩, h0⟩
  · rw [← SturmRootsSoundness.toPoly_polynomialDerivative, ← derivativeCoefficients_eq hlen]
    rwa [realValue_eq] at hsimple

def unitToTwo : RationalInterval := ⟨1, 2, by norm_num⟩

/-- The positive root of two. -/
theorem certifySimplePolynomialRoot_sound_sqrt :
    ∃ x : ℝ, (unitToTwo.lower : ℝ) < x ∧ x < unitToTwo.upper ∧
      (∀ y : ℝ, unitToTwo.Contains y ∧ realValue [-2, 0, 1] y = 0 ↔ y = x) ∧
      aeval x (derivative (SturmRootsSoundness.toPoly [-2, 0, 1])) ≠ 0 := by
  have h : certifySimplePolynomialRoot [-2, 0, 1] unitToTwo =
      .ok ⟨unitToTwo, ⟨2, 4, by norm_num⟩, -1, 2, true⟩ := by decide +kernel
  exact certifySimplePolynomialRoot_sound h

/-! ## Zeros of a disc -/

structure RoucheCircleCount where
  radius : ℚ
  zeroCount : ℕ
  dominantPower : ℕ
  dominantLowerBound : ℚ
  remainderUpperBound : ℚ
  rigorous : Bool
deriving DecidableEq, Repr

def lowerAbs (coefficient : ComplexRational) : ℚ := max |coefficient.real| |coefficient.imaginary|

def upperAbs (coefficient : ComplexRational) : ℚ := |coefficient.real| + |coefficient.imaginary|

/-- The powers of the radius, one for each coefficient. -/
def radiusPowers (radius : ℚ) (count : ℕ) : List ℚ := (List.range count).map fun n => radius ^ n

def accumulateRemainder (powers : List ℚ) (dominantPower : ℕ) (bound : ℚ)
    (other : ComplexRational × ℕ) :
    ℚ :=
  if other.2 = dominantPower then bound else bound + upperAbs other.1 * powers.getD other.2 0

/-- The bound on all terms but one, in the order of the vector. -/
def remainderUpperBound (coefficientsAscending : List ComplexRational) (powers : List ℚ)
    (dominantPower : ℕ) : ℚ :=
  coefficientsAscending.zipIdx.foldl (accumulateRemainder powers dominantPower) 0

def certifyPolynomialZeroCountOnCircle (coefficientsAscending : List ComplexRational) (radius : ℚ) :
    Result RoucheCircleCount := do
  check (!(coefficientsAscending.isEmpty || decide (radius ≤ 0)))
    (.invalid "Rouche count requires coefficients and a positive radius")
  let powers := radiusPowers radius coefficientsAscending.length
  -- the first power whose term dominates
  let found := coefficientsAscending.zipIdx.findSome? fun (coefficient, dominantPower) =>
    let dominantLowerBound := lowerAbs coefficient * powers.getD dominantPower 0
    let remainder := remainderUpperBound coefficientsAscending powers dominantPower
    if dominantLowerBound > remainder then
      some { radius, zeroCount := dominantPower, dominantPower, dominantLowerBound,
             remainderUpperBound := remainder, rigorous := true : RoucheCircleCount }
    else none
  match found with
  | some count => .ok count
  | none => .error (.inconclusive "no single polynomial term rigorously dominates on the contour")

theorem lowerAbs_le (a : ComplexRational) : (lowerAbs a : ℝ) ≤ ‖ContourSoundness.toComplex a‖ := by
  unfold lowerAbs
  push_cast
  exact max_le (Complex.abs_re_le_norm (ContourSoundness.toComplex a))
    (Complex.abs_im_le_norm (ContourSoundness.toComplex a))

theorem le_upperAbs (a : ComplexRational) : ‖ContourSoundness.toComplex a‖ ≤ (upperAbs a : ℝ) := by
  unfold upperAbs
  push_cast
  exact Complex.norm_le_abs_re_add_abs_im (ContourSoundness.toComplex a)

theorem radiusPowers_getD {radius : ℚ} {count n : ℕ} (h : n < count) :
    (radiusPowers radius count).getD n 0 = radius ^ n := by
  simp [radiusPowers, h]

/-- The term of a coefficient at its power. -/
noncomputable def term (z : ℂ) (entry : ComplexRational × ℕ) : ℂ :=
  ContourSoundness.toComplex entry.1 * z ^ entry.2

theorem eval_toPoly (p : List ComplexRational) (z : ℂ) (k : ℕ) :
    z ^ k * (ContourSoundness.toPoly p).eval z = ((p.zipIdx k).map (term z)).sum := by
  induction p generalizing k with
  | nil => simp [ContourSoundness.toPoly]
  | cons c p ih =>
    rw [List.zipIdx_cons, List.map_cons, List.sum_cons, ← ih, ContourSoundness.toPoly_cons]
    simp only [eval_add, eval_mul, eval_C, eval_X, term, pow_succ]
    ring

/-- The accumulated bound exceeds the norm of the other terms. -/
theorem norm_sum_others_le {z : ℂ} {radius : ℚ} (hz : ‖z‖ = radius) {powers : List ℚ} {dominant : ℕ}
    (entries : List (ComplexRational × ℕ))
    (hpowers : ∀ entry ∈ entries, powers.getD entry.2 0 = radius ^ entry.2) (bound : ℚ) :
    ‖((entries.filter fun entry => entry.2 != dominant).map (term z)).sum‖ + bound ≤
      (entries.foldl (accumulateRemainder powers dominant) bound : ℚ) := by
  induction entries generalizing bound with
  | nil => simp
  | cons entry entries ih =>
    obtain ⟨c, n⟩ := entry
    have hrest := ih fun e he => hpowers e (List.mem_cons_of_mem _ he)
    rw [List.foldl_cons]
    by_cases hn : n = dominant
    · simpa [hn, accumulateRemainder] using hrest bound
    · have hpow : powers.getD n 0 = radius ^ n := hpowers (c, n) List.mem_cons_self
      have hterm : ‖term z (c, n)‖ ≤ upperAbs c * (radius : ℝ) ^ n := by
        rw [term, norm_mul, norm_pow, hz]
        exact mul_le_mul_of_nonneg_right (le_upperAbs c) (pow_nonneg (hz ▸ norm_nonneg z) n)
      have hfilter : ((c, n) :: entries).filter (fun entry => entry.2 != dominant) =
          (c, n) :: entries.filter fun entry => entry.2 != dominant := by simp [hn]
      have hstep := hrest (bound + upperAbs c * radius ^ n)
      rw [hfilter, List.map_cons, List.sum_cons, accumulateRemainder, if_neg hn, hpow]
      push_cast at hstep ⊢
      have htri := norm_add_le (term z (c, n))
        ((entries.filter fun entry => entry.2 != dominant).map (term z)).sum
      linarith

/-- The terms split into the dominant one and the rest. -/
theorem sum_terms {p : List ComplexRational} {c : ComplexRational} {dominant k : ℕ}
    (h : (c, dominant) ∈ p.zipIdx k) (z : ℂ) :
    ((p.zipIdx k).map (term z)).sum = term z (c, dominant) +
      (((p.zipIdx k).filter fun entry => entry.2 != dominant).map (term z)).sum := by
  induction p generalizing k with
  | nil => cases h
  | cons d p ih =>
    rw [List.zipIdx_cons] at h ⊢
    rcases List.mem_cons.mp h with heq | hmem
    · cases heq
      have hrest : (p.zipIdx (dominant + 1)).filter (fun entry => entry.2 != dominant) =
          p.zipIdx (dominant + 1) := by
        refine List.filter_eq_self.mpr fun entry hentry => ?_
        have hle := List.le_snd_of_mem_zipIdx hentry
        simp only [bne_iff_ne, ne_eq]
        omega
      simp [hrest]
    · have hne : k ≠ dominant := by
        have hle := List.le_snd_of_mem_zipIdx hmem
        simp only at hle
        omega
      have hfilter : ((d, k) :: p.zipIdx (k + 1)).filter (fun entry => entry.2 != dominant) =
          (d, k) :: (p.zipIdx (k + 1)).filter fun entry => entry.2 != dominant := by simp [hne]
      rw [hfilter, List.map_cons, List.sum_cons, List.map_cons, List.sum_cons, ih hmem]
      ring

/-- The certified term exceeds the rest of the polynomial everywhere on the circle. -/
theorem dominant_on_circle {p : List ComplexRational} {c : ComplexRational} {dominant : ℕ}
    {radius : ℚ} (hmem : (c, dominant) ∈ p.zipIdx)
    (hdom : remainderUpperBound p (radiusPowers radius p.length) dominant <
      lowerAbs c * (radiusPowers radius p.length).getD dominant 0) {z : ℂ} (hz : ‖z‖ = radius) :
    ‖(ContourSoundness.toPoly p).eval z - ContourSoundness.toComplex c * z ^ dominant‖ <
      ‖ContourSoundness.toComplex c * z ^ dominant‖ := by
  have hpowers : ∀ entry ∈ p.zipIdx, (radiusPowers radius p.length).getD entry.2 0 =
      radius ^ entry.2 := by
    intro entry hentry
    exact radiusPowers_getD (by simpa using List.snd_lt_add_of_mem_zipIdx hentry)
  have hrest : ‖(ContourSoundness.toPoly p).eval z - ContourSoundness.toComplex c * z ^ dominant‖ ≤
      (remainderUpperBound p (radiusPowers radius p.length) dominant : ℚ) := by
    have hsum := eval_toPoly p z 0
    rw [pow_zero, one_mul, sum_terms hmem] at hsum
    rw [hsum, term, add_sub_cancel_left]
    simpa [remainderUpperBound] using norm_sum_others_le hz p.zipIdx hpowers 0
  have hlow : ((lowerAbs c * radius ^ dominant : ℚ) : ℝ) ≤
      ‖ContourSoundness.toComplex c * z ^ dominant‖ := by
    rw [norm_mul, norm_pow, hz]
    push_cast
    exact mul_le_mul_of_nonneg_right (lowerAbs_le c) (pow_nonneg (hz ▸ norm_nonneg z) dominant)
  rw [hpowers _ hmem] at hdom
  have hdom' : ((remainderUpperBound p (radiusPowers radius p.length) dominant : ℚ) : ℝ) <
      ((lowerAbs c * radius ^ dominant : ℚ) : ℝ) := by exact_mod_cast hdom
  exact hrest.trans_lt (hdom'.trans_le hlow)

/-- An accepted circle carries no zero and encloses as many as the certificate counts. -/
theorem certifyPolynomialZeroCountOnCircle_sound {p : List ComplexRational} {radius : ℚ}
    {count : RoucheCircleCount} (h : certifyPolynomialZeroCountOnCircle p radius = .ok count) :
    count.zeroCount = zerosInDisc (ContourSoundness.toPoly p) radius ∧
      ∀ z : ℂ, ‖z‖ = radius → (ContourSoundness.toPoly p).eval z ≠ 0 := by
  unfold certifyPolynomialZeroCountOnCircle at h
  obtain ⟨_, hdomain, h⟩ := bind_eq_ok h
  have hdomain := check_ok hdomain
  simp only [Bool.not_eq_true', Bool.or_eq_false_iff, decide_eq_false_iff_not] at hdomain
  have hradius : (0 : ℝ) < radius := by exact_mod_cast not_le.mp hdomain.2
  dsimp only at h
  split at h
  · rename_i found hfound
    cases h
    obtain ⟨⟨c, dominant⟩, hmem, hsome⟩ := List.exists_of_findSome?_eq_some hfound
    dsimp only at hsome
    split at hsome
    · rename_i hdom
      cases hsome
      have hzeros := zeros_of_dominant hradius fun z hz => dominant_on_circle hmem hdom hz
      exact ⟨hzeros.2.symm, hzeros.1⟩
    · cases hsome
  · cases h

/-- The zeros of `5 z + z ^ 3` in the disc of radius two. -/
theorem certifyPolynomialZeroCountOnCircle_sound_cubic :
    1 = zerosInDisc (ContourSoundness.toPoly [⟨0, 0⟩, ⟨5, 0⟩, ⟨0, 0⟩, ⟨1, 0⟩]) (2 : ℚ) ∧
      ∀ z : ℂ, ‖z‖ = (2 : ℚ) →
        (ContourSoundness.toPoly [⟨0, 0⟩, ⟨5, 0⟩, ⟨0, 0⟩, ⟨1, 0⟩]).eval z ≠ 0 := by
  have h : certifyPolynomialZeroCountOnCircle [⟨0, 0⟩, ⟨5, 0⟩, ⟨0, 0⟩, ⟨1, 0⟩] 2 =
      .ok ⟨2, 1, 1, 10, 8, true⟩ := by decide +kernel
  exact certifyPolynomialZeroCountOnCircle_sound h

end Xcelerator.Numerics.PolynomialCertificates
