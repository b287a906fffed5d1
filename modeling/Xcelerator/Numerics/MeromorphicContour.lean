import Mathlib
import Xcelerator.Numerics.ContourSoundness

/-! # Contour counts of rational functions

The argument principle for a quotient of two polynomials: both contour images
are certified on their own and the signed count is the difference of their
windings. The count belongs to the function, not to the quotient it is written
as: factors common to both polynomials leave it unchanged. -/

namespace Xcelerator.Numerics.MeromorphicContour
open Polynomial
open Xcelerator.Foundations Machine Xcelerator.Numerics.Interval Xcelerator.Numerics.Contour
open Xcelerator.Numerics.ContourSoundness

structure RationalFunctionContourCount where
  numerator : PolynomialContourCount
  denominator : PolynomialContourCount
  zerosMinusPoles : ℤ
  rigorous : Bool

/-- `ContourWorkBudget::default`. -/
def defaultBudget : ContourWorkBudget :=
  { maximumAcceptedCells := 16384, maximumSegmentEvaluations := 65536, maximumDepth := 4096 }

def certifyPolynomialZeroCountOnRectangle (coefficientsAscending : List ComplexRational)
    (rectangle : RationalContourRectangle) (maximumSubdivisionDepth : ℕ) :
    Result PolynomialContourCount :=
  certifyPolynomialZeroCountOnRectangleWithBudget coefficientsAscending rectangle
    maximumSubdivisionDepth
    defaultBudget

def certifyRationalFunctionArgumentCountOnRectangle (numeratorAscending denominatorAscending :
    List ComplexRational)
    (rectangle : RationalContourRectangle) (maximumSubdivisionDepth : ℕ) :
    Result RationalFunctionContourCount := do
  let numerator ← certifyPolynomialZeroCountOnRectangle numeratorAscending rectangle
    maximumSubdivisionDepth
  let denominator ← certifyPolynomialZeroCountOnRectangle denominatorAscending rectangle
    maximumSubdivisionDepth
  return {
    numerator, denominator
    zerosMinusPoles := numerator.windingNumber - denominator.windingNumber
    rigorous := true }

/-! ## The winding of one polynomial -/

/-- What a certified contour says of its polynomial. -/
structure Certified (p : List ComplexRational) (r : RationalContourRectangle) (winding : ℤ) :
    Prop where
  nonzero : toPoly p ≠ 0
  boundary : ∀ z, OnBoundary r z → (toPoly p).eval z ≠ 0
  winding : winding = zerosWithin p r

theorem rectangle_new_ok {r validated : RationalContourRectangle}
    (h : RationalContourRectangle.new r.realLower r.realUpper r.imaginaryLower r.imaginaryUpper =
      .ok validated) :
    validated = r ∧ r.realLower < r.realUpper ∧ r.imaginaryLower < r.imaginaryUpper := by
  unfold RationalContourRectangle.new at h
  split at h
  · cases h
  · rename_i hordered
    rw [not_or, not_le, not_le] at hordered
    cases h
    exact ⟨rfl, hordered⟩

theorem certified_of_ok {p : List ComplexRational} {r : RationalContourRectangle} {depth : ℕ}
    {budget : ContourWorkBudget} {result : PolynomialContourCount}
    (h : certifyPolynomialZeroCountOnRectangleWithBudget p r depth budget = .ok result) :
    Certified p r result.windingNumber := by
  unfold certifyPolynomialZeroCountOnRectangleWithBudget at h
  obtain ⟨_, _, h⟩ := bind_eq_ok h
  obtain ⟨_, hnonzero, h⟩ := bind_eq_ok h
  obtain ⟨validated, hvalidated, h⟩ := bind_eq_ok h
  obtain ⟨first, hfirst, h⟩ := bind_eq_ok h
  obtain ⟨state, hstate, h⟩ := bind_eq_ok h
  obtain ⟨winding, hwinding, h⟩ := bind_eq_ok h
  obtain ⟨zeroCount, _, h⟩ := bind_eq_ok h
  cases h
  obtain ⟨rfl, hr, hi⟩ := rectangle_new_ok hvalidated
  have htraversed := certifyEdges_traversed hr hi
    (evaluateComplexPolynomialExact_eq hfirst) rfl hstate
  refine ⟨fun h0 => ?_, htraversed.boundary, winding_eq_zerosWithin hr hi htraversed hwinding⟩
  have hcheck := check_ok hnonzero
  rw [toPoly_eq_zero h0] at hcheck
  simp at hcheck

/-! ## The signed count -/

section
variable {R : Type} [CommRing R] [IsDomain R]

open Classical in
/-- The roots of a polynomial inside a region, with multiplicity. -/
noncomputable def rootsWithin (f : R[X]) (inside : R → Prop) : ℕ :=
  (f.roots.filter inside).card

theorem rootsWithin_mul {f g : R[X]} (hf : f ≠ 0) (hg : g ≠ 0) (inside : R → Prop) :
    rootsWithin (f * g) inside = rootsWithin f inside + rootsWithin g inside := by
  unfold rootsWithin
  rw [roots_mul (mul_ne_zero hf hg), Multiset.filter_add, Multiset.card_add]

/-- Two quotients of the same function have the same difference of roots. -/
theorem rootsWithin_sub {n d f g : R[X]} (hn : n ≠ 0) (hd : d ≠ 0) (hg : g ≠ 0)
    (hquotient : n * g = f * d) (inside : R → Prop) :
    (rootsWithin n inside : ℤ) - rootsWithin d inside =
      rootsWithin f inside - rootsWithin g inside := by
  have hf : f ≠ 0 := by
    intro h0
    rw [h0, zero_mul] at hquotient
    exact mul_ne_zero hn hg hquotient
  have hsum := congrArg (rootsWithin · inside) hquotient
  rw [rootsWithin_mul hn hg, rootsWithin_mul hf hd] at hsum
  omega

end

/-- **The argument principle for a rational function, certified.** Neither
polynomial vanishes on the sides, and the count is the zeros minus the poles
inside, however the function is written as a quotient. -/
theorem rational_function_count_sound {numerator denominator : List ComplexRational}
    {rectangle : RationalContourRectangle} {depth : ℕ} {result : RationalFunctionContourCount}
    (h : certifyRationalFunctionArgumentCountOnRectangle numerator denominator rectangle depth =
      .ok result) :
    (∀ z, OnBoundary rectangle z → (toPoly numerator).eval z ≠ 0 ∧ (toPoly denominator).eval z ≠ 0)
      ∧
      toPoly denominator ≠ 0 ∧
      ∀ f g : ℂ[X], g ≠ 0 → toPoly numerator * g = f * toPoly denominator →
        result.zerosMinusPoles = rootsWithin f (Within rectangle) - rootsWithin g
          (Within rectangle) := by
  unfold certifyRationalFunctionArgumentCountOnRectangle at h
  obtain ⟨above, habove, h⟩ := bind_eq_ok h
  obtain ⟨below, hbelow, h⟩ := bind_eq_ok h
  cases h
  have hn := certified_of_ok habove
  have hd := certified_of_ok hbelow
  refine ⟨fun z hz => ⟨hn.boundary z hz, hd.boundary z hz⟩, hd.nonzero, fun f g hg hquotient => ?_⟩
  have hsame := rootsWithin_sub hn.nonzero hd.nonzero hg hquotient (Within rectangle)
  rw [← hsame]
  exact congrArg₂ (· - ·) hn.winding hd.winding

/-- The square over the variable, which is the variable. -/
theorem rational_function_count_sound_variable :
    (certifyRationalFunctionArgumentCountOnRectangle [⟨0, 0⟩, ⟨0, 0⟩, ⟨1, 0⟩] [⟨0, 0⟩, ⟨1, 0⟩]
        ⟨-1, 1, -1, 1⟩ 20).toOption.map (·.zerosMinusPoles) = some 1 ∧
      (1 : ℤ) = rootsWithin X (Within ⟨-1, 1, -1, 1⟩) - rootsWithin 1 (Within ⟨-1, 1, -1, 1⟩) := by
  have hrun : (certifyRationalFunctionArgumentCountOnRectangle [⟨0, 0⟩, ⟨0, 0⟩, ⟨1, 0⟩]
      [⟨0, 0⟩, ⟨1, 0⟩] ⟨-1, 1, -1, 1⟩ 20).toOption.map (·.zerosMinusPoles) = some 1 := by
    decide +kernel
  refine ⟨hrun, ?_⟩
  cases h : certifyRationalFunctionArgumentCountOnRectangle [⟨0, 0⟩, ⟨0, 0⟩, ⟨1, 0⟩]
    [⟨0, 0⟩, ⟨1, 0⟩]
      ⟨-1, 1, -1, 1⟩ 20 with
  | error e =>
    rw [h] at hrun
    cases hrun
  | ok result =>
    rw [h] at hrun
    have hzero : toComplex ⟨0, 0⟩ = 0 := by apply Complex.ext <;> simp [toComplex]
    have hcount := (rational_function_count_sound h).2.2 X 1 one_ne_zero (by
      rw [toPoly_cons, hzero, C_0, zero_add, mul_one])
    exact (Option.some.inj hrun).symm.trans hcount

end Xcelerator.Numerics.MeromorphicContour
