import Mathlib
import Xcelerator.Cache.Digest
import Xcelerator.Certify.PortableInertia

/-! # Selected eigenvalues of an interval matrix

Bisection by shifted inertia: a boundary proof at a threshold counts the
eigenvalues below it, and a bracket shrinks around the requested index until it
is narrow enough. The certificate is replayed by the same boundary proofs. What
is outside the repository is the `Environment`: MPFR, and the 32-byte SHA-256 of
the serialized matrix. -/

namespace Xcelerator.Certify.SelectedEigenvalue
open Xcelerator.Cache (ContentDigest checkedAdd)
open Xcelerator.Cache.Digest (hexDigest)
open Xcelerator.Numerics.Interval (RationalInterval)
open Xcelerator.Numerics.Mpfr (Rounding)
open Xcelerator.Numerics.SymmetricInertia (Pool)
open Xcelerator.Certify.Records Xcelerator.Certify.RationalInertia
open Xcelerator.Certify.MpfrInertia (inertiaRoute)
open Xcelerator.Certify.PortableInertia (VerificationReport mpfrVerified)

structure Environment where
  rounding : Rounding
  pool : Pool
  /-- SHA-256 of the JSON of the dimension and the records, or a serialization error. -/
  matrixSha256 : Nat → List ExactRationalIntervalRecord → Except String (Vector UInt8 32)

structure EigenvalueCountBoundaryCertificate where
  threshold : ExactRationalRecord
  countBelow : Nat
  positiveAbove : Nat
  pivotEnclosures : List ExactRationalIntervalRecord
deriving DecidableEq, Repr

structure ExactSelectedEigenvalueEnclosure where
  inertiaPrecisionBits : Option Nat
  dimension : Nat
  matrixDigest : ContentDigest
  requestedIndex : Nat
  firstEnclosedIndex : Nat
  lastEnclosedIndex : Nat
  lower : ExactRationalRecord
  upper : ExactRationalRecord
  lowerBoundary : EigenvalueCountBoundaryCertificate
  upperBoundary : EigenvalueCountBoundaryCertificate
  bisectionSteps : Nat
  simple : Bool
deriving DecidableEq, Repr

inductive SelectedEigenvalueEnclosureResult where
  | conclusive (certificate : ExactSelectedEigenvalueEnclosure)
  | inconclusive (boundary reason : String)
deriving DecidableEq, Repr

structure PortableSelectedEigenvalueCertificate where
  schemaVersion : Nat
  matrixRowMajor : List ExactRationalIntervalRecord
  enclosure : ExactSelectedEigenvalueEnclosure
deriving DecidableEq, Repr

/-- A result, or the message of a panic. -/
abbrev Outcome := Except String

section
variable (env : Environment)

def exactIntervalMatrixDigest (matrix : List RationalInterval) (dimension : Nat) :
    Result ContentDigest :=
  match env.matrixSha256 dimension (matrix.map intervalRecord) with
  | .ok bytes => .ok ⟨hexDigest bytes.toList⟩
  | .error error => .error (.invalid ("failed to serialize selected-eigenvalue matrix: " ++ error))

/-! ## Boundary proofs -/

/-- The matrix less the threshold on its diagonal. -/
def shift (matrix : List RationalInterval) (dimension : Nat) (threshold : ℚ) :
    List RationalInterval :=
  (List.range dimension).foldl
    (fun shifted diagonal => shifted.modify (diagonal * dimension + diagonal)
      (·.sub (RationalInterval.point threshold))) matrix

/-- `usize::checked_mul`. -/
def checkedMul (a b : Nat) : Option Nat := if a * b < 2 ^ 64 then some (a * b) else none

/-- The elimination a route runs on the shifted matrix. -/
def routeInertia (matrix : List RationalInterval) (dimension : Nat)
    (scaleInvariant enforceBudget : Bool) (precision : Option Nat) : Run IntervalInertiaResult :=
  match precision with
  | some p => mpfrVerified "MPFR selected inertia: "
      (inertiaRoute env.rounding env.pool matrix dimension p true)
  | none => intervalSymmetricLdltInertiaWithBudget matrix dimension scaleInvariant enforceBudget

def eigenvalueCountBoundaryRoute (matrix : List RationalInterval) (dimension : Nat) (threshold : ℚ)
    (boundaryName : String) (scaleInvariant enforceBudget : Bool) (precision : Option Nat) :
    Outcome (Except (String × String) EigenvalueCountBoundaryCertificate) :=
  if dimension = 0 ∨ checkedMul dimension dimension ≠ some matrix.length then
    .ok (.error (boundaryName, "eigenvalue count requires a nonempty square matrix"))
  else
    match routeInertia env (shift matrix dimension threshold) dimension scaleInvariant enforceBudget
      precision with
    | .ok (.conclusive positive negative pivots) => .ok (.ok
        { threshold := rationalRecord threshold
          countBelow := negative
          positiveAbove := positive
          pivotEnclosures := pivots.map intervalRecord })
    | .ok (.inconclusive _ _ _ _ _ reason) => .ok (.error (boundaryName, reason))
    | .error (.error error) => .ok (.error (boundaryName, error.display))
    | .error (.panic message) => .error message

/-! ## Bisection -/

/-- The bracket of the loop with its boundary proofs. -/
structure Bracket where
  lower : ℚ
  upper : ℚ
  lowerBoundary : EigenvalueCountBoundaryCertificate
  upperBoundary : EigenvalueCountBoundaryCertificate
  bisectionSteps : Nat

/-- The boundary proof of the producer. -/
abbrev Boundary := ℚ → String →
    Outcome (Except (String × String) EigenvalueCountBoundaryCertificate)

/-- The first interior split with a boundary proof. -/
def admitSplit (boundary : Boundary) (lower width : ℚ) :
    List Nat → Outcome (Option (ℚ × EigenvalueCountBoundaryCertificate))
  | [] => .ok none
  | denominator :: rest => do
    let point := lower + width / denominator
    match ← boundary point "interior split" with
    | .ok proof => return some (point, proof)
    | .error _ => admitSplit boundary lower width rest

def splitDenominators : List Nat := [2, 3, 5, 7, 11, 13, 17, 19]

/-- The loop, with the steps that remain; a refusal or the final bracket. -/
def bisect (boundary : Boundary) (requestedIndex : Nat) (targetWidth : ℚ)
    (maximumBisectionSteps : Nat)
    (b : Bracket) : Nat → Outcome (SelectedEigenvalueEnclosureResult ⊕ Bracket)
  | 0 =>
    if b.upper - b.lower > targetWidth then
      .ok (.inl (.inconclusive "bisection"
        ("target width was not reached within " ++ toString maximumBisectionSteps ++ " steps")))
    else .ok (.inr b)
  | remaining + 1 =>
    if b.upper - b.lower > targetWidth then do
      match ← admitSplit boundary b.lower (b.upper - b.lower) splitDenominators with
      | none => return .inl (.inconclusive "interior splits"
          "all bounded exact interior split proofs were unresolved")
      | some (midpoint, midpointBoundary) =>
        if midpointBoundary.countBelow ≤ requestedIndex then
          bisect boundary requestedIndex targetWidth maximumBisectionSteps
            { b with lower := midpoint, lowerBoundary := midpointBoundary,
                     bisectionSteps := b.bisectionSteps + 1 } remaining
        else
          bisect boundary requestedIndex targetWidth maximumBisectionSteps
            { b with upper := midpoint, upperBoundary := midpointBoundary,
                     bisectionSteps := b.bisectionSteps + 1 } remaining
    else .ok (.inr b)

/-- The certificate of the final bracket. -/
def conclude (matrix : List RationalInterval) (dimension requestedIndex : Nat)
    (precision : Option Nat) (b : Bracket) : SelectedEigenvalueEnclosureResult :=
  if b.upperBoundary.countBelow < b.lowerBoundary.countBelow then
    .inconclusive "reconciliation" "shifted-inertia count decreased across the final enclosure"
  else if b.upperBoundary.countBelow - b.lowerBoundary.countBelow = 0 then
    .inconclusive "reconciliation" "final enclosure contains no certified eigenvalue"
  else
    match exactIntervalMatrixDigest env matrix dimension with
    | .error error => .inconclusive "serialization" error.display
    | .ok matrixDigest => .conclusive
      { inertiaPrecisionBits := precision
        dimension
        matrixDigest
        requestedIndex
        firstEnclosedIndex := b.lowerBoundary.countBelow
        lastEnclosedIndex := b.upperBoundary.countBelow - 1
        lower := rationalRecord b.lower
        upper := rationalRecord b.upper
        lowerBoundary := b.lowerBoundary
        upperBoundary := b.upperBoundary
        bisectionSteps := b.bisectionSteps
        simple := b.upperBoundary.countBelow - b.lowerBoundary.countBelow == 1 }

/-- A precision outside the supported range. -/
def unsupportedPrecision (precision : Option Nat) : Bool :=
  precision.any fun p => !(32 ≤ p && p ≤ 1000000)

def certifySelectedIntervalEigenvalueRoute (matrix : List RationalInterval)
    (dimension requestedIndex : Nat) (lower upper targetWidth : ℚ) (maximumBisectionSteps : Nat)
    (precision : Option Nat) : Outcome SelectedEigenvalueEnclosureResult :=
  if unsupportedPrecision precision || dimension == 0 ||
      matrix.length != saturatingMul dimension dimension || decide (requestedIndex ≥ dimension) ||
      decide (lower ≥ upper) || decide (targetWidth ≤ 0) || maximumBisectionSteps == 0 then
    .ok (.inconclusive "configuration"
      "selected-eigenvalue certification requires a square nonempty matrix, a valid zero-based index, lower < upper, positive target width, and a positive step limit")
  else do
    let boundary : Boundary := fun x name =>
      eigenvalueCountBoundaryRoute env matrix dimension x name true true precision
    match ← boundary lower "lower" with
    | .error (name, reason) => return .inconclusive name reason
    | .ok lowerBoundary =>
      match ← boundary upper "upper" with
      | .error (name, reason) => return .inconclusive name reason
      | .ok upperBoundary =>
        if lowerBoundary.countBelow > requestedIndex || upperBoundary.countBelow ≤
            requestedIndex then
          return .inconclusive "bracket" ("initial shifted-inertia counts [" ++
            toString lowerBoundary.countBelow ++ ", " ++ toString upperBoundary.countBelow ++
            "] do not enclose eigenvalue index " ++ toString requestedIndex)
        else
          match ← bisect boundary requestedIndex targetWidth maximumBisectionSteps
            { lower, upper, lowerBoundary, upperBoundary, bisectionSteps := 0 }
              maximumBisectionSteps with
          | .inl refusal => return refusal
          | .inr b => return conclude env matrix dimension requestedIndex precision b

def certifySelectedIntervalEigenvalue (matrix : List RationalInterval)
    (dimension requestedIndex : Nat) (lower upper targetWidth : ℚ) (maximumBisectionSteps : Nat) :
    Outcome SelectedEigenvalueEnclosureResult :=
  certifySelectedIntervalEigenvalueRoute env matrix dimension requestedIndex lower upper targetWidth
    maximumBisectionSteps none

def certifySelectedIntervalEigenvalueMpfr (matrix : List RationalInterval)
    (dimension requestedIndex : Nat) (lower upper targetWidth : ℚ)
    (maximumBisectionSteps precisionBits : Nat) : Outcome SelectedEigenvalueEnclosureResult :=
  certifySelectedIntervalEigenvalueRoute env matrix dimension requestedIndex lower upper targetWidth
    maximumBisectionSteps (some precisionBits)

/-! ## Replay -/

/-- `usize::saturating_add`. -/
def saturatingAdd (a b : Nat) : Nat := min (a + b) (2 ^ 64 - 1)

def validateSelectedEigenvalueEnclosure (c : ExactSelectedEigenvalueEnclosure) :
    Result (ℚ × ℚ) := do
  check (!(c.dimension == 0 || decide (c.requestedIndex ≥ c.dimension) ||
      decide (c.firstEnclosedIndex > c.requestedIndex) ||
      decide (c.lastEnclosedIndex < c.requestedIndex) ||
      decide (c.lastEnclosedIndex ≥ c.dimension)))
    (.invalid "selected-eigenvalue certificate has inconsistent dimensions or indices")
  check c.matrixDigest.validate
    (.invalid "selected-eigenvalue certificate has an invalid matrix digest")
  check (c.lowerBoundary.countBelow == c.firstEnclosedIndex &&
      c.upperBoundary.countBelow == saturatingAdd c.lastEnclosedIndex 1 &&
      checkedAdd c.lowerBoundary.countBelow c.lowerBoundary.positiveAbove == some c.dimension &&
      checkedAdd c.upperBoundary.countBelow c.upperBoundary.positiveAbove == some c.dimension &&
      c.lowerBoundary.pivotEnclosures.length == c.dimension &&
      c.upperBoundary.pivotEnclosures.length == c.dimension &&
      c.simple == decide (c.firstEnclosedIndex = c.lastEnclosedIndex))
    (.verificationFailed
      "selected-eigenvalue index, count, pivot, or multiplicity evidence is inconsistent")
  let lower ← parse c.lower
  let upper ← parse c.upper
  let inconsistent : CertificateError := .verificationFailed
    "selected-eigenvalue endpoints and boundary thresholds are inconsistent"
  check (decide (lower < upper)) inconsistent
  check (decide ((← parse c.lowerBoundary.threshold) = lower)) inconsistent
  check (decide ((← parse c.upperBoundary.threshold) = upper)) inconsistent
  (c.lowerBoundary.pivotEnclosures ++ c.upperBoundary.pivotEnclosures).forM fun pivot => do
    let _ ← parseInterval pivot
  return (lower, upper)

/-- A boundary that replays to the recorded one. -/
def replays (matrix : List RationalInterval) (dimension : Nat) (threshold : ℚ) (name : String)
    (recorded : EigenvalueCountBoundaryCertificate) (scaleInvariant enforceBudget : Bool)
    (precision : Option Nat) : Outcome Bool := do
  match ← eigenvalueCountBoundaryRoute env matrix dimension threshold name scaleInvariant
    enforceBudget
    precision with
  | .ok value => return decide (value = recorded)
  | .error _ => return false

def matchesBoundary (c : ExactSelectedEigenvalueEnclosure) (matrix : List RationalInterval)
    (allowHistoricalReplay : Bool) (threshold : ℚ) (name : String)
    (recorded : EigenvalueCountBoundaryCertificate) : Outcome Bool := do
  if ← replays env matrix c.dimension threshold name recorded true true c.inertiaPrecisionBits then
    return true
  else if c.inertiaPrecisionBits.isSome || !allowHistoricalReplay then
    return false
  else if ← replays env matrix c.dimension threshold name recorded true false none then
    return true
  else
    replays env matrix c.dimension threshold name recorded false false none

/-- The verification itself: refused with an error, or accepted. -/
def verifySelected (c : ExactSelectedEigenvalueEnclosure) (matrix : List RationalInterval)
    (allowHistoricalReplay : Bool) : Outcome (Result Unit) :=
  match validateSelectedEigenvalueEnclosure c with
  | .error error => .ok (.error error)
  | .ok (lower, upper) =>
    let mismatch : CertificateError := .verificationFailed
      "selected-eigenvalue matrix does not match its certified digest"
    if matrix.length ≠ saturatingMul c.dimension c.dimension then .ok (.error mismatch)
    else
      match exactIntervalMatrixDigest env matrix c.dimension with
      | .error error => .ok (.error error)
      | .ok digest =>
        if digest ≠ c.matrixDigest then .ok (.error mismatch)
        else do
          let differs : CertificateError := .verificationFailed
            "selected-eigenvalue shifted-inertia replay differs from recorded boundaries"
          if !(← matchesBoundary env c matrix allowHistoricalReplay lower "lower"
              c.lowerBoundary) then
            return .error differs
          else if !(← matchesBoundary env c matrix allowHistoricalReplay upper "upper"
              c.upperBoundary) then
            return .error differs
          else
            return .ok ()

def acceptedReport : VerificationReport :=
  { valid := true
    mathematicalClaimVerified := true
    checks := ["selected index, enclosure, and multiplicity structure verified",
      "exact interval-matrix digest verified",
      "both shifted-inertia boundaries independently replayed"]
    warnings := []
    errors := [] }

def verifySelectedIntervalEigenvalueEnclosureWithPolicy (c : ExactSelectedEigenvalueEnclosure)
    (matrix : List RationalInterval) (allowHistoricalReplay : Bool) :
    Outcome VerificationReport := do
  match ← verifySelected env c matrix allowHistoricalReplay with
  | .ok () => return acceptedReport
  | .error error => return .failed error.display

def verifySelectedIntervalEigenvalueEnclosure (c : ExactSelectedEigenvalueEnclosure)
    (matrix : List RationalInterval) : Outcome VerificationReport :=
  verifySelectedIntervalEigenvalueEnclosureWithPolicy env c matrix true

def verifyPortableSelectedEigenvalueCertificate (portable : PortableSelectedEigenvalueCertificate) :
    Outcome VerificationReport :=
  if !(1 ≤ portable.schemaVersion && portable.schemaVersion ≤ 3) ||
      ((portable.schemaVersion == 2) != portable.enclosure.inertiaPrecisionBits.isSome) then
    .ok (.failed "unsupported portable selected-eigenvalue schema")
  else
    match portable.matrixRowMajor.mapM parseInterval with
    | .error error => .ok (.failed error.display)
    | .ok matrix => verifySelectedIntervalEigenvalueEnclosureWithPolicy env
        portable.enclosure matrix
        (portable.schemaVersion == 1)

def buildPortableSelectedEigenvalueCertificate (matrix : List RationalInterval)
    (enclosure : ExactSelectedEigenvalueEnclosure) :
    Outcome (Result PortableSelectedEigenvalueCertificate) := do
  let portable : PortableSelectedEigenvalueCertificate :=
    { schemaVersion := if enclosure.inertiaPrecisionBits.isSome then 2 else 3
      matrixRowMajor := matrix.map intervalRecord
      enclosure }
  let report ← verifyPortableSelectedEigenvalueCertificate env portable
  if report.valid then return .ok portable
  else return .error (.verificationFailed (String.intercalate "; " report.errors))

end

end Xcelerator.Certify.SelectedEigenvalue
