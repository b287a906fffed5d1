import Mathlib
import Xcelerator.Cache.Basic
import Xcelerator.Cache.VersionPrecedence
import Xcelerator.Cache.ArtifactState

/-! # Manifests and assurance records

The manifest of an artifact with its validation, and the records that a producer
hands to a cache: productions, assurance requirements, attestations. A map is its
list of entries in key order. -/

namespace Xcelerator.Cache.Manifest
open Xcelerator.Foundations.Machine
open Xcelerator.Cache.Artifact (ArtifactAssuranceState)
open Xcelerator.Cache.VersionPrecedence (ToolkitVersion)

inductive CacheQuality where
  | quarantined
  | staged
  | validated
  | crossChecked
  | certified
  | published
  | deprecated
deriving DecidableEq, Repr

inductive CacheVisibility where
  | localOnly
  | privateShard
  | team
  | publicShard
deriving DecidableEq, Repr

structure ArtifactKey where
  kind : String
  logicalKey : String
  parametersDigest : ContentDigest
deriving DecidableEq, Repr

structure DependencyRef where
  key : ArtifactKey
  contentDigest : ContentDigest
  requiredQuality : CacheQuality
deriving DecidableEq, Repr

structure CacheObjectRef where
  contentDigest : ContentDigest
  sizeBytes : Nat
deriving DecidableEq, Repr

structure ArtifactManifest where
  schemaVersion : Nat
  key : ArtifactKey
  contentDigest : ContentDigest
  sizeBytes : Nat
  /-- The ordered objects whose concatenation is the logical payload. -/
  objects : List CacheObjectRef
  createdUnixSeconds : Nat
  producerToolkitVersion : ToolkitVersion
  minimumReaderVersion : ToolkitVersion
  maximumReaderVersion : Option ToolkitVersion
  quality : CacheQuality
  visibility : CacheVisibility
  immutable : Bool
  dependencies : List DependencyRef
  tags : List (String × String)
  provenanceDigest : Option ContentDigest
deriving DecidableEq, Repr

structure ArtifactDraft where
  schemaVersion : Nat
  key : ArtifactKey
  producerToolkitVersion : ToolkitVersion
  minimumReaderVersion : ToolkitVersion
  maximumReaderVersion : Option ToolkitVersion
  quality : CacheQuality
  visibility : CacheVisibility
  immutable : Bool
  dependencies : List DependencyRef
  tags : List (String × String)
  provenanceDigest : Option ContentDigest

/-! ## Validation -/

def invalid (condition : Bool) (message : String) : Result Unit :=
  check condition (.invalidManifest message)

def ArtifactKey.validate (key : ArtifactKey) : Result Unit :=
  invalid (blank key.kind || blank key.logicalKey || !key.parametersDigest.validate)
    "artifact key requires nonempty fields and a SHA-256 parameter digest"

/-- `ToolkitVersion::validate`, whose one message is that of the prerelease. -/
def validateVersion (version : ToolkitVersion) : Result Unit :=
  version.validate.mapError fun _ => .invalidManifest "invalid toolkit prerelease identifier"

/-- The tuple whose order is the canonical one. -/
def DependencyRef.identity (dependency : DependencyRef) : String ×ₗ String ×ₗ String ×ₗ String :=
  toLex (dependency.key.kind, toLex (dependency.key.logicalKey,
    toLex (dependency.key.parametersDigest.text, dependency.contentDigest.text)))

def validateDependencies (previous : Option DependencyRef) : List DependencyRef → Result Unit
  | [] => .ok ()
  | dependency :: rest => do
    dependency.key.validate
    invalid (!dependency.contentDigest.validate || !dependency.key.parametersDigest.validate)
      "manifest contains an invalid dependency digest"
    invalid (previous.any fun previous => decide (dependency.identity ≤ previous.identity))
      "manifest dependencies must be unique and canonically ordered"
    validateDependencies (some dependency) rest

def objectTotal (total : Nat) : List CacheObjectRef → Result Nat
  | [] => .ok total
  | object :: rest => do
    invalid (!object.contentDigest.validate) "manifest contains an invalid object digest"
    let total ← require (checkedAdd total object.sizeBytes)
      (.invalidManifest "object sizes overflow u64")
    objectTotal total rest

def ArtifactManifest.zipJson (manifest : ArtifactManifest) : Bool :=
  manifest.tags.lookup "xc_storage_encoding" == some "zip-json-entry-v1"

def ArtifactManifest.validate (manifest : ArtifactManifest) : Result Unit := do
  manifest.key.validate
  validateVersion manifest.producerToolkitVersion
  validateVersion manifest.minimumReaderVersion
  match manifest.maximumReaderVersion with
  | some maximum => validateVersion maximum
  | none => .ok ()
  invalid (manifest.schemaVersion != 1) "only manifest schema_version 1 is supported"
  invalid (!manifest.contentDigest.validate || !manifest.key.parametersDigest.validate)
    "manifest contains an invalid SHA-256 digest"
  validateDependencies none manifest.dependencies
  invalid (manifest.provenanceDigest.any fun digest => !digest.validate)
    "manifest contains an invalid provenance digest"
  invalid (blank manifest.key.kind || blank manifest.key.logicalKey)
    "artifact key fields must be nonempty"
  invalid manifest.objects.isEmpty "manifest must explicitly list its immutable objects"
  let total ← objectTotal 0 manifest.objects
  invalid (!manifest.zipJson && total != manifest.sizeBytes)
    ("object sizes total " ++ toString total ++ ", expected " ++ toString manifest.sizeBytes)
  invalid (manifest.maximumReaderVersion.any fun maximum =>
    maximum.cmp manifest.minimumReaderVersion == .lt)
    "maximum_reader_version precedes minimum_reader_version"

/-! ## Assurance -/

structure ArtifactProductionAssessment where
  achievedAssurance : ArtifactAssuranceState
  evidenceDigests : List ContentDigest
deriving DecidableEq, Repr

/-- `windows(2)` with a pair out of order. -/
def unordered : List ContentDigest → Bool
  | a :: b :: rest => decide (b.text ≤ a.text) || unordered (b :: rest)
  | _ => false

def ArtifactProductionAssessment.validate (assessment : ArtifactProductionAssessment) :
    Result Unit :=
  invalid ((assessment.evidenceDigests.any fun digest => !digest.validate) ||
    unordered assessment.evidenceDigests ||
      (assessment.achievedAssurance == .crossChecked &&
        decide (assessment.evidenceDigests.length < 2)) ||
      (assessment.achievedAssurance == .certified && assessment.evidenceDigests.isEmpty))
    "artifact assurance is not supported by canonical ordered evidence"

structure ArtifactAssuranceAttestation where
  schemaVersion : Nat
  artifactKey : ArtifactKey
  contentDigest : ContentDigest
  achievedAssurance : ArtifactAssuranceState
  evidenceDigests : List ContentDigest
deriving DecidableEq, Repr

def ArtifactAssuranceAttestation.assessment (attestation : ArtifactAssuranceAttestation) :
    ArtifactProductionAssessment :=
  ⟨attestation.achievedAssurance, attestation.evidenceDigests⟩

def ArtifactAssuranceAttestation.validate (attestation : ArtifactAssuranceAttestation) :
    Result Unit := do
  attestation.artifactKey.validate
  invalid (attestation.schemaVersion != 1 || !attestation.contentDigest.validate)
    "artifact assurance attestation identity is invalid"
  attestation.assessment.validate

structure ArtifactAssuranceRequirement where
  schemaVersion : Nat
  artifactKey : ArtifactKey
  contentDigest : ContentDigest
  requiredAssurance : ArtifactAssuranceState
deriving DecidableEq, Repr

def ArtifactAssuranceRequirement.validate (requirement : ArtifactAssuranceRequirement) :
    Result Unit := do
  requirement.artifactKey.validate
  invalid (requirement.schemaVersion != 1 || !requirement.contentDigest.validate ||
      requirement.requiredAssurance == .computed)
    "artifact assurance requirement is invalid or redundant"

/-- What a validated assessment rests on. -/
structure Supported (assessment : ArtifactProductionAssessment) : Prop where
  distinct : assessment.evidenceDigests.Nodup
  crossChecked : assessment.achievedAssurance = .crossChecked →
    2 ≤ assessment.evidenceDigests.length
  certified : assessment.achievedAssurance = .certified → 1 ≤ assessment.evidenceDigests.length

theorem ordered_of_not_unordered : ∀ digests : List ContentDigest, unordered digests = false →
    digests.Pairwise fun a b => a.text < b.text := by
  intro digests h
  rw [← List.isChain_iff_pairwise]
  induction digests with
  | nil => exact .nil
  | cons a rest ih =>
    cases rest with
    | nil => exact .singleton a
    | cons b rest =>
      simp only [unordered, Bool.or_eq_false_iff, decide_eq_false_iff_not] at h
      exact .cons_cons (not_le.mp h.1) (ih h.2)

theorem ArtifactProductionAssessment.supported {assessment : ArtifactProductionAssessment}
    {u : Unit} (h : assessment.validate = .ok u) : Supported assessment := by
  have hcheck := check_ok h
  simp only [Bool.or_eq_false_iff] at hcheck
  obtain ⟨⟨⟨-, hordered⟩, hcross⟩, hcertified⟩ := hcheck
  refine ⟨?_, ?_, ?_⟩
  · exact (ordered_of_not_unordered _ hordered).imp fun hlt heq => absurd (heq ▸ hlt) (lt_irrefl _)
  · intro hstate
    have hlength : 1 < assessment.evidenceDigests.length := by simpa [hstate] using hcross
    exact hlength
  · intro hstate
    have hne : assessment.evidenceDigests ≠ [] := by simpa [hstate] using hcertified
    exact List.length_pos_iff.mpr hne

theorem ArtifactAssuranceAttestation.supported {attestation : ArtifactAssuranceAttestation}
    {u : Unit} (h : attestation.validate = .ok u) : Supported attestation.assessment := by
  obtain ⟨_, -, h⟩ := bind_eq_ok h
  obtain ⟨_, -, h⟩ := bind_eq_ok h
  exact h |> ArtifactProductionAssessment.supported

end Xcelerator.Cache.Manifest
