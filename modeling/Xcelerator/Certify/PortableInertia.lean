import Mathlib
import Xcelerator.Certify.MpfrInertia

/-! # Portable interval-inertia certificates

A certificate records its matrix as exact rational texts together with the
counts and pivots of an elimination, and is verified by replaying it. What is
outside the repository is the `Environment`: MPFR, and the SHA-256 of the
serialized documents. -/

namespace Xcelerator.Certify.PortableInertia
open Xcelerator.Foundations.Machine (bind_eq_ok ok_bind)
open Xcelerator.Foundations.Inertia
open Xcelerator.Cache (ContentDigest checkedAdd blank)
open Xcelerator.Numerics.Interval (RationalInterval)
open Xcelerator.Numerics.Mpfr (Rounding)
open Xcelerator.Numerics.SymmetricInertia (Pool)
open Xcelerator.Certify.Records Xcelerator.Certify.RationalInertia
open Xcelerator.Certify.MpfrInertia (inertiaRoute)
open Xcelerator.Certify.RationalInertiaSoundness

structure ToolkitVersion where
  major : Nat
  minor : Nat
  patch : Nat
  prerelease : Option String
deriving DecidableEq, Repr

/-- The parsed `CARGO_PKG_VERSION`. -/
def packageVersion : ToolkitVersion := { major := 0, minor := 17, patch := 0, prerelease := none }

/-- `configuration` lists a map in key order. -/
structure PortableIntervalInertiaCertificate where
  schemaVersion : Nat
  certificateId : ContentDigest
  toolkitVersion : ToolkitVersion
  configuration : List (String × String)
  dimension : Nat
  precisionBits : Nat
  scalarBackend : String
  matrixDigest : ContentDigest
  assemblyEvidenceDigest : ContentDigest
  matrixRowMajor : List ExactRationalIntervalRecord
  positive : Nat
  negative : Nat
  zeroOrUnresolved : Nat
  pivotEnclosures : List ExactRationalIntervalRecord
  notes : List String
deriving DecidableEq, Repr

/-- What is serialized and hashed. -/
inductive Document where
  | matrix (dimension : Nat) (rowMajor : List ExactRationalIntervalRecord)
  | certificate (canonical : PortableIntervalInertiaCertificate)

structure Environment where
  rounding : Rounding
  pool : Pool
  /-- `ContentDigest::sha256_json`, with the text of a serialization error. -/
  sha256Json : Document → Except String ContentDigest

def zeroDigest : ContentDigest := ⟨String.join (List.replicate 32 "00")⟩

structure VerificationReport where
  valid : Bool
  mathematicalClaimVerified : Bool
  checks : List String
  warnings : List String
  errors : List String
deriving DecidableEq, Repr

def VerificationReport.failed (error : String) : VerificationReport :=
  { valid := false, mathematicalClaimVerified := false, checks := [], warnings := [],
    errors := [error] }

section
variable (env : Environment)

namespace PortableIntervalInertiaCertificate

def computedMatrixDigest (c : PortableIntervalInertiaCertificate) : Result ContentDigest :=
  (env.sha256Json (.matrix c.dimension c.matrixRowMajor)).mapError fun error =>
    .invalid ("failed to serialize interval matrix: " ++ error)

/-- The identifier itself is hashed as zero. -/
def computedCertificateId (c : PortableIntervalInertiaCertificate) : Result ContentDigest :=
  (env.sha256Json (.certificate { c with certificateId := zeroDigest })).mapError fun error =>
    .invalid ("failed to serialize portable inertia certificate: " ++ error)

def validateStructure (c : PortableIntervalInertiaCertificate) : Result Unit := do
  check (1 ≤ c.schemaVersion && c.schemaVersion ≤ 4 && c.dimension != 0 &&
      c.matrixRowMajor.length == saturatingMul c.dimension c.dimension)
    (.invalid "portable inertia certificate has invalid schema or dimensions")
  check (!(c.precisionBits < 32 ||
      ((c.schemaVersion == 2 || c.schemaVersion == 4) && c.precisionBits > 1000000) ||
      blank c.scalarBackend || c.configuration.isEmpty))
    (.invalid "portable inertia certificate lacks a valid precision or backend")
  check (((checkedAdd c.positive c.negative).bind (checkedAdd · c.zeroOrUnresolved)) ==
    some c.dimension)
    (.invalid "portable inertia counts do not sum to the matrix dimension")
  check (c.pivotEnclosures.length ==
      c.dimension - c.zeroOrUnresolved + (if c.zeroOrUnresolved > 0 then 1 else 0))
    (.invalid "portable inertia pivot count is inconsistent with its unresolved suffix")
  (c.matrixRowMajor ++ c.pivotEnclosures).forM ExactRationalIntervalRecord.validateSyntax
  check (c.matrixDigest.validate && c.assemblyEvidenceDigest.validate && c.certificateId.validate)
    (.invalid "portable inertia certificate contains an invalid digest")
  let matrixDigest ← c.computedMatrixDigest env
  check (matrixDigest == c.matrixDigest)
    (.verificationFailed "portable inertia matrix digest mismatch")
  let certificateId ← c.computedCertificateId env
  check (certificateId == c.certificateId)
    (.verificationFailed "portable inertia certificate identifier mismatch")

end PortableIntervalInertiaCertificate

/-- An adapter run, its errors reported as a failed verification. -/
def mpfrVerified (context : String) :
    Xcelerator.Numerics.Interval.Run IntervalInertiaResult → Run IntervalInertiaResult
  | .ok result => .ok result
  | .error (.error error) => .error (.error (.verificationFailed (context ++ error.display)))
  | .error (.panic message) => .error (.panic message)

def intervalSymmetricLdltInertiaMpfr (matrix : List RationalInterval)
    (dimension precisionBits : Nat) :
    Run IntervalInertiaResult :=
  mpfrVerified "MPFR interval inertia: "
    (inertiaRoute env.rounding env.pool matrix dimension precisionBits false)

def intervalSymmetricLdltInertiaMpfrStable (matrix : List RationalInterval)
    (dimension precisionBits : Nat) : Run IntervalInertiaResult :=
  mpfrVerified "MPFR stable interval inertia: "
    (inertiaRoute env.rounding env.pool matrix dimension precisionBits true)

/-- The counts and pivots a result contributes to a certificate. -/
def summary : IntervalInertiaResult → Nat × Nat × Nat × List RationalInterval
  | .conclusive positive negative pivots => (positive, negative, 0, pivots)
  | .inconclusive _ positive negative zeroOrUnresolved pivots _ =>
    (positive, negative, zeroOrUnresolved, pivots)

/-- The elimination of a schema version; the budget is not enforced on a replay
of schema 1. -/
def schemaInertia (matrix : List RationalInterval) (dimension precisionBits schemaVersion : Nat)
    (replay : Bool) : Run IntervalInertiaResult :=
  match schemaVersion with
  | 1 => intervalSymmetricLdltInertiaWithBudget matrix dimension false (!replay)
  | 3 => intervalSymmetricLdltInertia matrix dimension
  | 2 => intervalSymmetricLdltInertiaMpfr env matrix dimension precisionBits
  | 4 => intervalSymmetricLdltInertiaMpfrStable env matrix dimension precisionBits
  | _ => .error (.error (.invalid
      (if replay then "unsupported inertia replay schema" else "unsupported inertia schema")))

def buildPortableIntervalInertiaWithSchema (matrix : List RationalInterval)
    (dimension precisionBits : Nat) (scalarBackend : String)
    (assemblyEvidenceDigest : ContentDigest)
    (configuration : List (String × String)) (notes : List String) (schemaVersion : Nat) :
    Run PortableIntervalInertiaCertificate := do
  lift (check assemblyEvidenceDigest.validate (.invalid "assembly evidence digest is invalid"))
  let inertia ← schemaInertia env matrix dimension precisionBits schemaVersion false
  let (positive, negative, zeroOrUnresolved, pivots) := summary inertia
  let certificate : PortableIntervalInertiaCertificate :=
    { schemaVersion, certificateId := zeroDigest, toolkitVersion := packageVersion, configuration,
      dimension, precisionBits, scalarBackend, matrixDigest := zeroDigest, assemblyEvidenceDigest,
      matrixRowMajor := matrix.map intervalRecord, positive, negative, zeroOrUnresolved,
      pivotEnclosures := pivots.map intervalRecord, notes }
  let certificate :=
    { certificate with matrixDigest := ← lift (certificate.computedMatrixDigest env) }
  let certificate :=
    { certificate with certificateId := ← lift (certificate.computedCertificateId env) }
  lift (certificate.validateStructure env)
  return certificate

def buildPortableIntervalInertiaCertificate (matrix : List RationalInterval)
    (dimension precisionBits : Nat) (scalarBackend : String)
    (assemblyEvidenceDigest : ContentDigest)
    (configuration : List (String × String)) (notes : List String) :
    Run PortableIntervalInertiaCertificate :=
  buildPortableIntervalInertiaWithSchema env matrix dimension precisionBits scalarBackend
    assemblyEvidenceDigest configuration notes 3

def verifyPortableIntervalInertiaExact (c : PortableIntervalInertiaCertificate) : Run Unit := do
  lift (c.validateStructure env)
  let matrix ← lift (c.matrixRowMajor.mapM parseInterval)
  let recomputed ← schemaInertia env matrix c.dimension c.precisionBits c.schemaVersion true
  let (positive, negative, unresolved, pivots) := summary recomputed
  let recordedPivots ← lift (c.pivotEnclosures.mapM parseInterval)
  lift (check (decide ((positive, negative, unresolved) =
    (c.positive, c.negative, c.zeroOrUnresolved)) &&
      decide (pivots = recordedPivots))
    (.verificationFailed "independent interval LDLT replay differs from the recorded inertia proof"))

/-- A report, or the message of a panic. -/
def verifyPortableIntervalInertiaCertificate (c : PortableIntervalInertiaCertificate) :
    Except String VerificationReport :=
  match verifyPortableIntervalInertiaExact env c with
  | .ok () => .ok
    { valid := true
      mathematicalClaimVerified := true
      checks := ["certificate and matrix digests verified",
        "exact matrix endpoint ordering and symmetry verified",
        "interval LDLT inertia and every pivot enclosure independently replayed"]
      warnings := []
      errors := [] }
  | .error (.error error) => .ok (.failed error.display)
  | .error (.panic message) => .error message

end

/-! ## Certificates are true, and what is built is accepted -/

theorem lift_eq_ok {α : Type} {x : Result α} {v : α} (h : lift x = .ok v) : x = .ok v := by
  cases x with
  | ok w =>
    cases h
    rfl
  | error e => cases h

theorem check_true {condition : Bool} {error : CertificateError} {u : Unit}
    (h : check condition error = .ok u) : condition = true := by
  unfold check at h
  split at h
  · assumption
  · cases h

/-- The recorded counts hold of every symmetric matrix in the recorded intervals. -/
def StatesTrueCounts (c : PortableIntervalInertiaCertificate) : Prop :=
  ∃ matrix, c.matrixRowMajor.mapM parseInterval = .ok matrix ∧
    ∀ (A : Matrix (Fin c.dimension) (Fin c.dimension) ℝ) (hA : A.IsHermitian), Encloses matrix A →
      c.positive ≤ positiveCount hA.eigenvalues ∧ c.negative ≤ negativeCount hA.eigenvalues ∧
        (c.zeroOrUnresolved = 0 →
          c.positive = positiveCount hA.eigenvalues ∧ c.negative = negativeCount hA.eigenvalues)

variable {env : Environment}

/-- An exact-rational schema runs the rational elimination. -/
theorem schemaInertia_rational {matrix : List RationalInterval} {n p schema : Nat} {replay : Bool}
    {result : IntervalInertiaResult} (hschema : schema = 1 ∨ schema = 3)
    (h : schemaInertia env matrix n p schema replay = .ok result) :
    TrueOf matrix n result ∧ Balanced n result := by
  rcases hschema with rfl | rfl
  · exact result_true h
  · unfold schemaInertia intervalSymmetricLdltInertia intervalSymmetricLdltInertiaImpl at h
    exact result_true h

theorem verifyExact_statesTrueCounts {c : PortableIntervalInertiaCertificate}
    (hschema : c.schemaVersion = 1 ∨ c.schemaVersion = 3)
    (h : verifyPortableIntervalInertiaExact env c = .ok ()) : StatesTrueCounts c := by
  unfold verifyPortableIntervalInertiaExact at h
  obtain ⟨_, _, h⟩ := bind_eq_ok h
  obtain ⟨matrix, hmatrix, h⟩ := bind_eq_ok h
  obtain ⟨result, hresult, h⟩ := bind_eq_ok h
  obtain ⟨htrue, hbalanced⟩ := schemaInertia_rational hschema hresult
  refine ⟨matrix, lift_eq_ok hmatrix, fun A hA hin => ?_⟩
  cases result with
  | conclusive positive negative pivots =>
    obtain ⟨recorded, _, h⟩ := bind_eq_ok h
    have hsame := check_true (lift_eq_ok h)
    simp only [Bool.and_eq_true, decide_eq_true_eq, Prod.mk.injEq] at hsame
    obtain ⟨hp, hq⟩ := htrue A hA hin
    omega
  | inconclusive k positive negative unresolved pivots reason =>
    obtain ⟨recorded, _, h⟩ := bind_eq_ok h
    have hsame := check_true (lift_eq_ok h)
    simp only [Bool.and_eq_true, decide_eq_true_eq, Prod.mk.injEq] at hsame
    obtain ⟨hp, hq⟩ := htrue A hA hin
    have hunresolved := hbalanced.1
    omega

theorem valid_report {c : PortableIntervalInertiaCertificate} {report : VerificationReport}
    (h : verifyPortableIntervalInertiaCertificate env c = .ok report)
    (hvalid : report.valid = true) :
    verifyPortableIntervalInertiaExact env c = .ok () := by
  unfold verifyPortableIntervalInertiaCertificate at h
  split at h
  · assumption
  · cases h
    cases hvalid
  · cases h

/-- Every schema but the first replays exactly what the builder ran. -/
theorem schemaInertia_replay {matrix : List RationalInterval} {n p schema : Nat} (h : schema ≠ 1)
    {result : IntervalInertiaResult}
    (hresult : schemaInertia env matrix n p schema false = .ok result) :
    schemaInertia env matrix n p schema true = .ok result := by
  unfold schemaInertia at hresult ⊢
  split at hresult <;> simp_all

theorem build_verifies {matrix : List RationalInterval} {n p schema : Nat} {backend : String}
    {evidence : ContentDigest} {configuration : List (String × String)} {notes : List String}
    {c : PortableIntervalInertiaCertificate} (hschema : schema ≠ 1)
    (h : buildPortableIntervalInertiaWithSchema env matrix n p backend evidence configuration notes
      schema = .ok c) : verifyPortableIntervalInertiaExact env c = .ok () := by
  unfold buildPortableIntervalInertiaWithSchema at h
  obtain ⟨_, _, h⟩ := bind_eq_ok h
  obtain ⟨result, hresult, h⟩ := bind_eq_ok h
  obtain ⟨digest, _, h⟩ := bind_eq_ok h
  obtain ⟨identifier, _, h⟩ := bind_eq_ok h
  obtain ⟨_, hvalid, h⟩ := bind_eq_ok h
  cases h
  unfold verifyPortableIntervalInertiaExact
  have hreplay := schemaInertia_replay hschema hresult
  simp only [hvalid, ok_bind, mapM_parseInterval, lift_ok, hreplay]
  cases result <;> simp [check, summary]

/-- **Exact-rational interval inertia and its certificates.** A square symmetric
input always has a result, and it is true; an accepted certificate of an exact
schema states true counts; a built certificate is accepted. -/
theorem portable_inertia_certificates (env : Environment) :
    (∀ (matrix : List RationalInterval) (n : Nat), SymmetricInput matrix n →
      ∃ result, intervalSymmetricLdltInertia matrix n = .ok result ∧ TrueOf matrix n result) ∧
    (∀ (c : PortableIntervalInertiaCertificate) (report : VerificationReport),
      c.schemaVersion = 1 ∨ c.schemaVersion = 3 →
      verifyPortableIntervalInertiaCertificate env c = .ok report → report.valid = true →
        StatesTrueCounts c) ∧
    ∀ (matrix : List RationalInterval) (n precisionBits : Nat) (scalarBackend : String)
      (assemblyEvidenceDigest : ContentDigest) (configuration : List (String × String))
      (notes : List String) (c : PortableIntervalInertiaCertificate),
      buildPortableIntervalInertiaCertificate env matrix n precisionBits scalarBackend
        assemblyEvidenceDigest configuration notes = .ok c →
      ∃ report, verifyPortableIntervalInertiaCertificate env c = .ok report ∧
      report.valid = true := by
  refine ⟨fun matrix n h => ?_, fun c report hschema hreport hvalid => ?_,
    fun matrix n p backend evidence configuration notes c h => ?_⟩
  · obtain ⟨result, hresult, htrue, _⟩ := validated_spec true true h.validateInput
    exact ⟨result, hresult, htrue⟩
  · exact verifyExact_statesTrueCounts hschema (valid_report hreport hvalid)
  · unfold verifyPortableIntervalInertiaCertificate
    rw [build_verifies (by decide) h]
    exact ⟨_, rfl, rfl⟩

/-- The digests of the documents of the exchange block. -/
def exchangeEnvironment : Environment where
  rounding := .unbounded
  pool := .serial
  sha256Json
    | .matrix _ _ => .ok ⟨"13a9427add285d36cbc9e4fa58d08e5d258ad0e55f9a13c7a6ed7f90055bcb04"⟩
    | .certificate _ => .ok ⟨"28c187289992cc1970d3f01897b88da2e83a4675ef48e7e9d5ee4b6bba862355"⟩

def exchangeMatrix : List RationalInterval := [0, 1, 1, 0].map RationalInterval.point

def exchangeCertificate : Run PortableIntervalInertiaCertificate :=
  buildPortableIntervalInertiaCertificate exchangeEnvironment exchangeMatrix 2 64 "exact-rational"
    ⟨"e3b0c44298fc1c149afbf4c8996fb92427ae41e4649b934ca495991b7852b855"⟩ [("route", "exact")] []

/-- One positive and one negative eigenvalue, built, replayed and true. -/
theorem portable_inertia_certificates_exchange :
    (∃ result, intervalSymmetricLdltInertia exchangeMatrix 2 = .ok result ∧
      TrueOf exchangeMatrix 2 result) ∧
    ∃ c report, exchangeCertificate = .ok c ∧
      (c.positive, c.negative, c.zeroOrUnresolved) = (1, 1, 0) ∧
      verifyPortableIntervalInertiaCertificate exchangeEnvironment c = .ok report ∧
      report.valid = true ∧ StatesTrueCounts c := by
  have hinput : SymmetricInput exchangeMatrix 2 :=
    ⟨by decide, by decide, by decide, by
      intro i j hi hj
      interval_cases i <;> interval_cases j <;> rfl⟩
  have hbuilt : ∃ c, exchangeCertificate = .ok c ∧ c.schemaVersion = 3 ∧
      (c.positive, c.negative, c.zeroOrUnresolved) = (1, 1, 0) := by
    have hsome : (exchangeCertificate.toOption.map fun c =>
        (c.schemaVersion, c.positive, c.negative, c.zeroOrUnresolved)) = some (3, 1, 1, 0) := by
      decide +kernel
    cases hrun : exchangeCertificate with
    | error e => simp [hrun, Except.toOption] at hsome
    | ok c =>
      simp only [hrun, Except.toOption, Option.map_some, Option.some.injEq, Prod.mk.injEq] at hsome
      exact ⟨c, rfl, hsome.1, by simp [hsome.2]⟩
  obtain ⟨c, hc, hschema, hcounts⟩ := hbuilt
  obtain ⟨htotal, htrue, haccepted⟩ := portable_inertia_certificates exchangeEnvironment
  obtain ⟨report, hreport, hvalid⟩ := haccepted _ _ _ _ _ _ _ _ hc
  exact ⟨htotal _ _ hinput, c, report, hc, hcounts, hreport, hvalid,
    htrue c report (.inr hschema) hreport hvalid⟩

end Xcelerator.Certify.PortableInertia
