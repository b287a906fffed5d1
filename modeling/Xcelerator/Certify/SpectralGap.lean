import Mathlib
import Xcelerator.Certify.SelectedEigenvalueSoundness

/-! # Spectral gaps between adjacent clusters

A gap certificate joins two cluster certificates of one matrix and records the
distance of their inner endpoints. The full verification replays every boundary
of both clusters, each by its own recorded route or, for exact evidence, by a
historical one, and any of them locates its threshold. -/

namespace Xcelerator.Certify.SpectralGap
open Xcelerator.Foundations.Machine (bind_eq_ok)
open Xcelerator.Foundations.Inertia
open Xcelerator.Cache (checkedAdd)
open Xcelerator.Numerics.Interval (RationalInterval)
open Xcelerator.Certify.Records Xcelerator.Certify.RationalInertia
open Xcelerator.Certify.RationalInertiaSoundness (Encloses)
open Xcelerator.Certify.PortableInertia (VerificationReport check_true)
open Xcelerator.Certify.SelectedEigenvalue Xcelerator.Certify.SelectedEigenvalueSoundness

structure ExactSpectralGapCertificate where
  lowerCluster : ExactSelectedEigenvalueEnclosure
  upperCluster : ExactSelectedEigenvalueEnclosure
  certifiedLowerBound : ExactRationalRecord
deriving DecidableEq, Repr

def certifyExactSpectralGap (lowerCluster upperCluster : ExactSelectedEigenvalueEnclosure) :
    Result ExactSpectralGapCertificate := do
  let lowerEndpoints ← validateSelectedEigenvalueEnclosure lowerCluster
  let upperEndpoints ← validateSelectedEigenvalueEnclosure upperCluster
  check (lowerCluster.dimension == upperCluster.dimension &&
    lowerCluster.matrixDigest == upperCluster.matrixDigest)
    (.invalid "spectral-gap clusters refer to different matrices")
  check (checkedAdd lowerCluster.lastEnclosedIndex 1 == some upperCluster.firstEnclosedIndex)
    (.invalid "spectral-gap clusters are not adjacent in algebraic order")
  let gap := upperEndpoints.1 - lowerEndpoints.2
  check (!decide (gap ≤ 0))
    (.verificationFailed "certified cluster enclosures do not have positive separation")
  return { lowerCluster, upperCluster, certifiedLowerBound := rationalRecord gap }

def verifyExactSpectralGapCertificate (c : ExactSpectralGapCertificate) : VerificationReport :=
  match certifyExactSpectralGap c.lowerCluster c.upperCluster with
  | .ok recomputed =>
    if recomputed = c then
      { valid := true
        mathematicalClaimVerified := false
        checks := ["cluster structure, adjacency, and common matrix identity verified",
          "strictly positive exact gap lower bound recomputed"]
        warnings := []
        errors := [] }
    else .failed "spectral-gap lower bound differs from exact recomputation"
  | .error error => .failed error.display

section
variable (env : Environment)

/-- The first cluster whose replay fails gives the report. -/
def replayClusters (matrix : List RationalInterval) :
    List ExactSelectedEigenvalueEnclosure → Outcome (Option VerificationReport)
  | [] => .ok none
  | cluster :: rest => do
    let report ← verifySelectedIntervalEigenvalueEnclosure env cluster matrix
    if report.valid then replayClusters matrix rest else return some report

def verifyExactSpectralGapWithMatrix (c : ExactSpectralGapCertificate)
    (matrix : List RationalInterval) :
    Outcome VerificationReport := do
  match ← replayClusters env matrix [c.lowerCluster, c.upperCluster] with
  | some report => return report
  | none =>
    let report := verifyExactSpectralGapCertificate c
    let report := { report with mathematicalClaimVerified := report.valid }
    if report.valid then
      return { report with
        checks := report.checks ++
          ["both cluster boundaries replayed against the supplied matrix"] }
    else return report

end

/-! ## What an accepted cluster says -/

variable {env : Environment}

theorem replays_located {matrix : List RationalInterval} {n : Nat} {t : ℚ} {name : String}
    {recorded : EigenvalueCountBoundaryCertificate} {scaleInvariant enforceBudget : Bool}
    {precision : Option Nat} (hm : precision.isSome = true → env.rounding.Directed)
    (h : replays env matrix n t name recorded scaleInvariant enforceBudget precision = .ok true) :
    Located matrix n t recorded := by
  obtain ⟨result, hresult, h⟩ := bind_eq_ok h
  cases result with
  | error refusal => cases h
  | ok value =>
    have heq : value = recorded := of_decide_eq_true (Except.ok.inj h)
    exact boundary_located hm (heq ▸ hresult)

/-- Every replay policy locates the threshold. -/
theorem matchesBoundary_located {c : ExactSelectedEigenvalueEnclosure}
    {matrix : List RationalInterval}
    {historical : Bool} {t : ℚ} {name : String} {recorded : EigenvalueCountBoundaryCertificate}
    (hm : c.inertiaPrecisionBits.isSome = true → env.rounding.Directed)
    (h : matchesBoundary env c matrix historical t name recorded = .ok true) :
    Located matrix c.dimension t recorded := by
  have hexact : (none : Option Nat).isSome = true → env.rounding.Directed := fun h => by cases h
  unfold matchesBoundary at h
  obtain ⟨current, hcurrent, h⟩ := bind_eq_ok h
  cases current with
  | true => exact replays_located hm hcurrent
  | false =>
    simp only [Bool.false_eq_true, if_false] at h
    split at h
    · cases h
    · obtain ⟨scaled, hscaled, h⟩ := bind_eq_ok h
      cases scaled with
      | true => exact replays_located hexact hscaled
      | false => exact replays_located hexact h

/-- The counts and endpoints that the structural checks tie together. -/
structure Structured (c : ExactSelectedEigenvalueEnclosure) (l u : ℚ) : Prop where
  indices : c.firstEnclosedIndex ≤ c.requestedIndex ∧ c.requestedIndex ≤ c.lastEnclosedIndex ∧
    c.lastEnclosedIndex < c.dimension
  lowerCount : c.lowerBoundary.countBelow = c.firstEnclosedIndex
  upperCount : c.upperBoundary.countBelow = saturatingAdd c.lastEnclosedIndex 1
  endpoints : parse c.lower = .ok l ∧ parse c.upper = .ok u

theorem validate_structured {c : ExactSelectedEigenvalueEnclosure} {endpoints : ℚ × ℚ}
    (h : validateSelectedEigenvalueEnclosure c = .ok endpoints) :
    Structured c endpoints.1 endpoints.2 := by
  unfold validateSelectedEigenvalueEnclosure at h
  obtain ⟨_, hindices, h⟩ := bind_eq_ok h
  obtain ⟨_, -, h⟩ := bind_eq_ok h
  obtain ⟨_, hcounts, h⟩ := bind_eq_ok h
  obtain ⟨lower, hlower, h⟩ := bind_eq_ok h
  obtain ⟨upper, hupper, h⟩ := bind_eq_ok h
  obtain ⟨_, -, h⟩ := bind_eq_ok h
  obtain ⟨_, -, h⟩ := bind_eq_ok h
  obtain ⟨_, -, h⟩ := bind_eq_ok h
  obtain ⟨_, -, h⟩ := bind_eq_ok h
  obtain ⟨_, -, h⟩ := bind_eq_ok h
  obtain ⟨_, -, h⟩ := bind_eq_ok h
  cases h
  have hindices := check_true hindices
  have hcounts := check_true hcounts
  simp only [Bool.not_eq_true', Bool.or_eq_false_iff, decide_eq_false_iff_not,
    beq_eq_false_iff_ne] at hindices
  simp only [Bool.and_eq_true, beq_iff_eq] at hcounts
  exact ⟨by omega, by tauto, by tauto, hlower, hupper⟩

/-- An accepted cluster: structured, and located at both ends of its matrix. -/
structure Accepted (matrix : List RationalInterval) (c : ExactSelectedEigenvalueEnclosure)
    (l u : ℚ) :
    Prop where
  structural : validateSelectedEigenvalueEnclosure c = .ok (l, u)
  lower : Located matrix c.dimension l c.lowerBoundary
  upper : Located matrix c.dimension u c.upperBoundary

theorem verify_accepted {c : ExactSelectedEigenvalueEnclosure} {matrix : List RationalInterval}
    {report : VerificationReport}
    (hm : c.inertiaPrecisionBits.isSome = true → env.rounding.Directed)
    (h : verifySelectedIntervalEigenvalueEnclosure env c matrix = .ok report)
    (hvalid : report.valid = true) :
    ∃ l u, Accepted matrix c l u := by
  obtain ⟨result, hresult, h⟩ := bind_eq_ok h
  cases result with
  | error error =>
    cases h
    cases hvalid
  | ok _ =>
    unfold verifySelected at hresult
    split at hresult
    · cases hresult
    · rename_i lower upper hstructural
      dsimp only at hresult
      split at hresult
      · cases hresult
      · split at hresult
        · cases hresult
        · split at hresult
          · cases hresult
          · obtain ⟨first, hfirst, hresult⟩ := bind_eq_ok hresult
            cases first with
            | false => cases hresult
            | true =>
              obtain ⟨second, hsecond, hresult⟩ := bind_eq_ok hresult
              cases second with
              | false => cases hresult
              | true => exact ⟨lower, upper, hstructural, matchesBoundary_located hm hfirst,
                  matchesBoundary_located hm hsecond⟩

/-! ## The gap -/

/-- What a recomputed gap has checked. -/
structure Separated (lowerCluster upperCluster : ExactSelectedEigenvalueEnclosure)
    (lowerUpper upperLower : ℚ) :
    Prop where
  dimension : lowerCluster.dimension = upperCluster.dimension
  adjacent : lowerCluster.lastEnclosedIndex + 1 = upperCluster.firstEnclosedIndex
  gap : 0 < upperLower - lowerUpper

theorem certify_separated {lowerCluster upperCluster : ExactSelectedEigenvalueEnclosure}
    {c : ExactSpectralGapCertificate} {l u l' u' : ℚ}
    (hlower : validateSelectedEigenvalueEnclosure lowerCluster = .ok (l, u))
    (hupper : validateSelectedEigenvalueEnclosure upperCluster = .ok (l', u'))
    (h : certifyExactSpectralGap lowerCluster upperCluster = .ok c) :
    Separated lowerCluster upperCluster u l' ∧ c.certifiedLowerBound = rationalRecord (l' - u) := by
  unfold certifyExactSpectralGap at h
  obtain ⟨_, hl, h⟩ := bind_eq_ok h
  obtain ⟨_, hu, h⟩ := bind_eq_ok h
  rw [hlower] at hl
  rw [hupper] at hu
  cases hl
  cases hu
  obtain ⟨_, hsame, h⟩ := bind_eq_ok h
  obtain ⟨_, hadjacent, h⟩ := bind_eq_ok h
  obtain ⟨_, hgap, h⟩ := bind_eq_ok h
  cases h
  have hsame := check_true hsame
  have hadjacent := check_true hadjacent
  have hgap := check_true hgap
  simp only [Bool.and_eq_true, beq_iff_eq] at hsame
  rw [beq_iff_eq, checkedAdd] at hadjacent
  simp only [Bool.not_eq_true', decide_eq_false_iff_not, not_le] at hgap
  refine ⟨⟨hsame.1, ?_, hgap⟩, rfl⟩
  split at hadjacent
  · exact Option.some.inj hadjacent
  · cases hadjacent

theorem replayClusters_none {matrix : List RationalInterval}
    {clusters : List ExactSelectedEigenvalueEnclosure}
    (h : replayClusters env matrix clusters = .ok none) {cluster : ExactSelectedEigenvalueEnclosure}
    (hmem : cluster ∈ clusters) :
    ∃ report, verifySelectedIntervalEigenvalueEnclosure env cluster matrix = .ok report ∧
    report.valid = true := by
  induction clusters with
  | nil => cases hmem
  | cons head rest ih =>
    obtain ⟨report, hreport, h⟩ := bind_eq_ok h
    split at h
    · rename_i hvalid
      rcases List.mem_cons.mp hmem with rfl | hmem
      · exact ⟨report, hreport, hvalid⟩
      · exact ih h hmem
    · cases h

/-- A report of a replay that stopped early claims nothing. -/
theorem replayClusters_some {matrix : List RationalInterval}
    {clusters : List ExactSelectedEigenvalueEnclosure}
    {report : VerificationReport} (h : replayClusters env matrix clusters = .ok (some report)) :
    report.mathematicalClaimVerified = false := by
  induction clusters with
  | nil => cases h
  | cons head rest ih =>
    obtain ⟨first, hfirst, h⟩ := bind_eq_ok h
    split at h
    · exact ih h
    · rename_i hvalid
      cases h
      obtain ⟨result, -, hfirst⟩ := bind_eq_ok hfirst
      cases result with
      | error error =>
        cases hfirst
        rfl
      | ok _ =>
        cases hfirst
        exact absurd rfl hvalid

/-- The recorded bound separates the two clusters in every enclosed matrix. -/
structure GapBound (c : ExactSpectralGapCertificate) (matrix : List RationalInterval) (b : ℚ) :
    Prop where
  recorded : parse c.certifiedLowerBound = .ok b
  positive : 0 < b
  index : c.lowerCluster.lastEnclosedIndex + 1 < c.lowerCluster.dimension
  gap : ∀ (A : Matrix (Fin c.lowerCluster.dimension) (Fin c.lowerCluster.dimension) ℝ)
    (hA : A.IsHermitian),
    Encloses matrix A → ∀ i j : Fin c.lowerCluster.dimension, (i : Nat) =
      c.lowerCluster.lastEnclosedIndex →
      (j : Nat) = (i : Nat) + 1 → (b : ℝ) ≤ ascending hA j - ascending hA i

theorem saturatingAdd_exact {a b : Nat} (h : a + b < 2 ^ 64) : saturatingAdd a b = a + b :=
  min_eq_left (Nat.le_sub_one_of_lt h)

theorem gapBound_of_accepted {c : ExactSpectralGapCertificate} {matrix : List RationalInterval}
    {l u l' u' : ℚ} (hlower : Accepted matrix c.lowerCluster l u)
    (hupper : Accepted matrix c.upperCluster l' u')
    (hsep : Separated c.lowerCluster c.upperCluster u l')
    (hbound : c.certifiedLowerBound = rationalRecord (l' - u)) :
    GapBound c matrix (l' - u) := by
  have hs := validate_structured hlower.structural
  have hs' := validate_structured hupper.structural
  have hlast := hs.indices
  have hfirst := hs'.indices
  have hadjacent := hsep.adjacent
  have hdim := hsep.dimension
  refine ⟨by rw [hbound, parse_rationalRecord], hsep.gap, by omega, fun A hA hin i j hi hj => ?_⟩
  have hcount : c.lowerCluster.upperBoundary.countBelow = c.lowerCluster.lastEnclosedIndex + 1 := by
    rw [hs.upperCount]
    exact saturatingAdd_exact (lt_of_le_of_lt (by omega) hlower.upper.dimension)
  have hbelow : ascending hA i < u := by
    refine (hlower.upper.below A hA hin i).1.mpr ?_
    omega
  have habove : (l' : ℝ) ≤ ascending hA j := by
    have hlocated := hupper.lower
    rw [← hdim] at hlocated
    refine not_lt.mp fun hlt => ?_
    have hj' := (hlocated.below A hA hin j).1.mp hlt
    rw [hs'.lowerCount] at hj'
    omega
  push_cast
  linarith

/-- **An accepted gap is a gap**: the recorded bound is positive and separates the
eigenvalues on both sides of the lower cluster's last index. -/
theorem verifyExactSpectralGapWithMatrix_sound (env : Environment) (c : ExactSpectralGapCertificate)
    (matrix : List RationalInterval) (report : VerificationReport)
    (hm : c.lowerCluster.inertiaPrecisionBits.isSome = true ∨
      c.upperCluster.inertiaPrecisionBits.isSome = true →
      env.rounding.Directed)
    (h : verifyExactSpectralGapWithMatrix env c matrix = .ok report)
    (hverified : report.mathematicalClaimVerified = true) : ∃ b, GapBound c matrix b := by
  unfold verifyExactSpectralGapWithMatrix at h
  obtain ⟨stopped, hstopped, h⟩ := bind_eq_ok h
  cases stopped with
  | some early =>
    cases h
    rw [replayClusters_some hstopped] at hverified
    cases hverified
  | none =>
    obtain ⟨lowerReport, hlower, hlowerValid⟩ :=
      @replayClusters_none env _ _ hstopped c.lowerCluster (by simp)
    obtain ⟨upperReport, hupper, hupperValid⟩ :=
      @replayClusters_none env _ _ hstopped c.upperCluster (by simp)
    obtain ⟨l, u, hlower⟩ := verify_accepted (fun h => hm (.inl h)) hlower hlowerValid
    obtain ⟨l', u', hupper⟩ := verify_accepted (fun h => hm (.inr h)) hupper hupperValid
    have hvalid : (verifyExactSpectralGapCertificate c).valid = true := by
      dsimp only at h
      split at h
      · assumption
      · cases h
        exact hverified
    unfold verifyExactSpectralGapCertificate at hvalid
    split at hvalid
    · rename_i recomputed hrecomputed
      split at hvalid
      · rename_i heq
        obtain ⟨hsep, hbound⟩ := certify_separated hlower.structural hupper.structural hrecomputed
        exact ⟨_, gapBound_of_accepted hlower hupper hsep (heq ▸ hbound)⟩
      · cases hvalid
    · cases hvalid

/-- The certificate that a selected run ends in. -/
def certificateOf (run : Outcome SelectedEigenvalueEnclosureResult) :
    Option ExactSelectedEigenvalueEnclosure :=
  match run with
  | .ok (.conclusive c) => some c
  | _ => none

/-- A gap of the diagonal matrix, one cluster by each arithmetic route. -/
def diagonalGap : Option ExactSpectralGapCertificate := do
  let lowerCluster ← certificateOf
    (certifySelectedIntervalEigenvalueMpfr diagonalEnvironment diagonalMatrix 2 0 0 2 2 8 64)
  let upperCluster ← certificateOf
    (certifySelectedIntervalEigenvalue diagonalEnvironment diagonalMatrix 2 1 (5 / 2) 4 2 8)
  (certifyExactSpectralGap lowerCluster upperCluster).toOption

/-- Whether the full verification of a certificate claims the gap. -/
def claims (c : ExactSpectralGapCertificate) : Bool :=
  match verifyExactSpectralGapWithMatrix diagonalEnvironment c diagonalMatrix with
  | .ok report => report.mathematicalClaimVerified
  | .error _ => false

/-- The gap of one half between a directed and an exact cluster. -/
theorem verifyExactSpectralGapWithMatrix_sound_diagonal :
    ∃ c report, diagonalGap = some c ∧
      verifyExactSpectralGapWithMatrix diagonalEnvironment c diagonalMatrix = .ok report ∧
      report.mathematicalClaimVerified = true ∧ ∃ b, GapBound c diagonalMatrix b := by
  have hclaims : diagonalGap.map claims = some true := by decide +kernel
  cases hgap : diagonalGap with
  | none => simp [hgap] at hclaims
  | some c =>
    rw [hgap, Option.map_some, Option.some.injEq] at hclaims
    unfold claims at hclaims
    split at hclaims
    · rename_i report hreport
      exact ⟨c, report, rfl, hreport, hclaims,
        verifyExactSpectralGapWithMatrix_sound diagonalEnvironment c
        diagonalMatrix report (fun _ => Xcelerator.Numerics.Mpfr.Rounding.unbounded_directed)
          hreport hclaims⟩
    · cases hclaims

end Xcelerator.Certify.SpectralGap
