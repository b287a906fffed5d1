import Mathlib
import Xcelerator.Foundations.WorklistClosure
import Xcelerator.Cache.Transport
import Xcelerator.Cache.ArtifactState
import Xcelerator.Cache.VersionPrecedence

/-! # Closed bundles

A bundle lists its roots and its artifacts by their full identities. Its
validation computes what the roots reach along payload dependencies and then
orders the dependency graph; a reader walks the dependencies of one artifact. -/

namespace Xcelerator.Cache.BundleClosure
open Xcelerator.Foundations
open Xcelerator.Foundations.Machine (Fault Checked)
open Xcelerator.Cache.Artifact (ArtifactAssuranceState ArtifactDisposition)
open Xcelerator.Cache.VersionPrecedence (ToolkitVersion)
open Xcelerator.Cache.Transport (normalizedRelativePath)

/-- An error of the code (one message quotes a path), a step that would panic, or a loop cut
short. -/
inductive Failure where
  | cache (error : CacheError)
  | invalidPath (path : String)
  | fault (fault : Fault)
  | unfinished
deriving DecidableEq

abbrev Outcome := Except Failure

def refuse (condition : Prop) [Decidable condition] (message : String) : Outcome Unit :=
  if condition then .error (.cache (.invalidManifest message)) else .ok ()

/-! ## Identities -/

structure CacheBundleArtifactIdentity where
  artifactFamily : String
  semanticDigest : ContentDigest
  manifestDigest : ContentDigest
  payloadDigest : ContentDigest
deriving DecidableEq

namespace CacheBundleArtifactIdentity

/-- The derived order compares the fields in turn. -/
def key (self : CacheBundleArtifactIdentity) : String ×ₗ String ×ₗ String ×ₗ String :=
  toLex (self.artifactFamily,
    toLex (self.semanticDigest.text, toLex (self.manifestDigest.text, self.payloadDigest.text)))

theorem key_injective : Function.Injective key := by
  rintro ⟨family, ⟨semantic⟩, ⟨manifest⟩, ⟨payload⟩⟩ ⟨family', ⟨semantic'⟩, ⟨manifest'⟩,
    ⟨payload'⟩⟩ h
  simp only [key, toLex_inj, Prod.mk.injEq] at h
  obtain ⟨rfl, rfl, rfl, rfl⟩ := h
  rfl

instance : LinearOrder CacheBundleArtifactIdentity := LinearOrder.lift' key key_injective

def validate (self : CacheBundleArtifactIdentity) : Outcome Unit :=
  refuse (blank self.artifactFamily ∨ !self.semanticDigest.validate ∨
    !self.manifestDigest.validate ∨
    !self.payloadDigest.validate) "cache bundle artifact identity is incomplete"

end CacheBundleArtifactIdentity

structure PayloadDependencyIdentity where
  artifactFamily : String
  semanticDigest : ContentDigest
  manifestDigest : ContentDigest
  payloadDigest : ContentDigest

def PayloadDependencyIdentity.identity (self : PayloadDependencyIdentity) :
    CacheBundleArtifactIdentity :=
  ⟨self.artifactFamily, self.semanticDigest, self.manifestDigest, self.payloadDigest⟩

/-! ## The payload -/

structure LogicalPayloadItem where
  normalizedPath : String
  contentDigest : ContentDigest
  sizeBytes : Nat

structure CanonicalPayloadEnvelope where
  schemaVersion : Nat
  scalarBackend : String
  precisionBits : Option Nat
  scalarRepresentation : String
  endianness : String
  specialValueEncoding : String
  orderedItems : List LogicalPayloadItem
  dependencies : List PayloadDependencyIdentity

namespace CanonicalPayloadEnvelope

def checkedLogicalSizeBytes (self : CanonicalPayloadEnvelope) : Outcome Nat :=
  self.orderedItems.foldlM (fun total item =>
    match checkedAdd total item.sizeBytes with
    | some total => .ok total
    | none => .error (.cache (.resourceLimit "canonical payload sizes exceed u64"))) 0

def validateItems : Option String → List LogicalPayloadItem → Outcome Unit
  | _, [] => .ok ()
  | previousPath, item :: rest =>
    if !normalizedRelativePath item.normalizedPath || !item.contentDigest.validate ||
      previousPath.any fun previous => decide (item.normalizedPath ≤ previous) then
      .error (.invalidPath item.normalizedPath)
    else validateItems (some item.normalizedPath) rest

/-- Every dependency is complete and follows the one before it. -/
def validateDependencies : Option CacheBundleArtifactIdentity → List PayloadDependencyIdentity →
    Outcome Unit
  | _, [] => .ok ()
  | previousDependency, dependency :: rest => do
    refuse (blank dependency.artifactFamily ∨ !dependency.semanticDigest.validate ∨
      !dependency.manifestDigest.validate ∨ !dependency.payloadDigest.validate)
      "payload dependency contains an invalid digest"
    refuse (previousDependency.any fun previous => decide (dependency.identity ≤ previous))
      "payload dependencies must be unique and canonically ordered"
    validateDependencies (some dependency.identity) rest

def validate (self : CanonicalPayloadEnvelope) : Outcome Unit := do
  refuse (self.schemaVersion = 0 ∨ blank self.scalarBackend ∨ self.precisionBits = some 0 ∨
    blank self.scalarRepresentation ∨ blank self.endianness ∨ blank self.specialValueEncoding ∨
    self.orderedItems.isEmpty) "canonical payload identity is incomplete"
  let _ ← self.checkedLogicalSizeBytes
  validateItems none self.orderedItems
  validateDependencies none self.dependencies

end CanonicalPayloadEnvelope

structure CanonicalArtifactManifest where
  canonicalPayload : CanonicalPayloadEnvelope
  minimumReaderVersion : ToolkitVersion
  maximumReaderVersion : Option ToolkitVersion

/-- An artifact; `Rest` is what its own validation reads besides. -/
structure CacheBundleArtifactRecord (Rest : Type) where
  identity : CacheBundleArtifactIdentity
  achievedAssurance : ArtifactAssuranceState
  disposition : ArtifactDisposition
  manifest : CanonicalArtifactManifest
  rest : Rest

/-- The checks of a record before and after those of its payload: schemas, digests, encoding,
receipt. -/
structure RecordChecks (Rest : Type) where
  beforePayload : CacheBundleArtifactRecord Rest → Result Unit
  afterPayload : CacheBundleArtifactRecord Rest → Result Unit

namespace CacheBundleArtifactRecord
variable {Rest : Type}

def validate (checks : RecordChecks Rest) (self : CacheBundleArtifactRecord Rest) :
    Outcome Unit := do
  self.identity.validate
  (checks.beforePayload self).mapError .cache
  self.manifest.canonicalPayload.validate
  (checks.afterPayload self).mapError .cache

def dependencies (self : CacheBundleArtifactRecord Rest) : List CacheBundleArtifactIdentity :=
  self.manifest.canonicalPayload.dependencies.map PayloadDependencyIdentity.identity

end CacheBundleArtifactRecord

/-! ## The bundle -/

structure CacheBundleManifest (Rest : Type) where
  schemaVersion : Nat
  roots : List CacheBundleArtifactIdentity
  artifacts : List (CacheBundleArtifactRecord Rest)

/-- `windows(2).any(|pair| pair[0] >= pair[1])`. -/
def descends (identities : List CacheBundleArtifactIdentity) : Bool :=
  (identities.zip identities.tail).any fun pair => decide (pair.2 ≤ pair.1)

section
variable {Rest : Type}

/-- The map from identities to artifacts; a later artifact replaces an earlier one. -/
def artifactAt (artifacts : List (CacheBundleArtifactRecord Rest))
    (identity : CacheBundleArtifactIdentity) :
    Option (CacheBundleArtifactRecord Rest) :=
  artifacts.reverse.find? fun artifact => artifact.identity = identity

/-- The map from identities to dependencies, empty outside the artifacts. -/
def dependenciesOf (artifacts : List (CacheBundleArtifactRecord Rest))
    (identity : CacheBundleArtifactIdentity) :
    List CacheBundleArtifactIdentity :=
  ((artifactAt artifacts identity).map CacheBundleArtifactRecord.dependencies).getD []

/-- `dependencies[&identity]`. -/
def indexDependencies (artifacts : List (CacheBundleArtifactRecord Rest))
    (identity : CacheBundleArtifactIdentity) :
    Outcome (List CacheBundleArtifactIdentity) :=
  match artifactAt artifacts identity with
  | some artifact => .ok artifact.dependencies
  | none => .error (.fault .outOfBounds)

/-- The keys pushed on a stack, at most: as many turns empty it. -/
def turns (start : List CacheBundleArtifactIdentity)
    (artifacts : List (CacheBundleArtifactRecord Rest)) : Nat :=
  start.length + (artifacts.map fun artifact => artifact.dependencies.length).sum

/-- A stack emptied, from its last key on. -/
def closure (visit : CacheBundleArtifactIdentity → Outcome (List CacheBundleArtifactIdentity))
    (start : List CacheBundleArtifactIdentity) (artifacts : List (CacheBundleArtifactRecord Rest)) :
    Outcome (Finset CacheBundleArtifactIdentity) := do
  let final ← WorklistClosure.walk visit (turns start artifacts) ⟨start.reverse, ∅⟩
  if final.stack = [] then .ok final.visited else .error .unfinished

/-- How many artifacts the readiness loop orders. -/
def visitedCount (identities : List CacheBundleArtifactIdentity)
    (dependencies : CacheBundleArtifactIdentity → List CacheBundleArtifactIdentity) :
    Outcome Nat := do
  let final ← (TopologicalOrder.loop identities dependencies identities.length
    (TopologicalOrder.initial identities dependencies)).mapError .fault
  if final.ready = [] then .ok final.order.length else .error .unfinished

namespace CacheBundleManifest
variable (checks : RecordChecks Rest) (self : CacheBundleManifest Rest)

def identities : List CacheBundleArtifactIdentity :=
  self.artifacts.map CacheBundleArtifactRecord.identity

/-- The derived text of a digest. -/
def debug (digest : ContentDigest) : String := "ContentDigest(\"" ++ digest.text ++ "\")"

def checkRoot (root : CacheBundleArtifactIdentity) : Outcome Unit := do
  root.validate
  refuse (root ∉ self.identities) ("cache bundle root " ++ debug root.semanticDigest ++
    " is absent")

def checkDependencies (artifact : CacheBundleArtifactRecord Rest) : Outcome Unit :=
  artifact.dependencies.forM fun identity =>
    refuse (identity ∉ self.identities)
      ("cache bundle artifact " ++ debug artifact.identity.semanticDigest ++
      " has a missing exact dependency " ++ debug identity.semanticDigest)

def validate : Outcome Unit := do
  refuse (self.schemaVersion = 0 ∨ self.roots = [] ∨ self.artifacts.isEmpty)
    "cache bundle requires a schema, roots, and artifacts"
  refuse (descends self.roots ∨ descends self.identities)
    "cache bundle roots and artifacts must be uniquely and canonically ordered"
  self.artifacts.forM (CacheBundleArtifactRecord.validate checks)
  self.roots.forM self.checkRoot
  self.artifacts.forM self.checkDependencies
  let reachable ← closure (indexDependencies self.artifacts) self.roots self.artifacts
  refuse (reachable ≠ self.identities.toFinset)
    "cache bundle contains artifacts outside the declared root closure"
  let visited ← visitedCount self.identities (dependenciesOf self.artifacts)
  refuse (visited ≠ self.identities.toFinset.card) "cache bundle dependency graph contains a cycle"

end CacheBundleManifest

/-! ## Consumption -/

structure CacheBundleConsumptionPolicy where
  readerVersion : ToolkitVersion
  minimumAssurance : ArtifactAssuranceState
  allowDeprecated : Bool

def checkDisposition (policy : CacheBundleConsumptionPolicy) : ArtifactDisposition → Outcome Unit
  | .active => .ok ()
  | .deprecated => refuse (!policy.allowDeprecated)
      "deprecated bundle dependency is disabled by policy"
  | .quarantined | .revoked =>
    refuse True "quarantined or revoked bundle artifacts cannot be consumed"

/-- The reader's version precedes the least or follows the greatest one the artifact allows. -/
def incompatible (policy : CacheBundleConsumptionPolicy) (manifest : CanonicalArtifactManifest) :
    Bool :=
  policy.readerVersion.cmp manifest.minimumReaderVersion == .lt ||
    manifest.maximumReaderVersion.any fun maximum => policy.readerVersion.cmp maximum == .gt

def consume (policy : CacheBundleConsumptionPolicy)
    (artifacts : List (CacheBundleArtifactRecord Rest))
    (identity : CacheBundleArtifactIdentity) : Outcome (List CacheBundleArtifactIdentity) :=
  match artifactAt artifacts identity with
  | none => .error (.cache (.invalidManifest "bundle dependency disappeared after validation"))
  | some artifact => do
    checkDisposition policy artifact.disposition
    refuse (incompatible policy artifact.manifest)
      "bundle artifact is incompatible with the requested reader version"
    return artifact.dependencies

def validateConsumableClosure (selected : CacheBundleArtifactRecord Rest)
    (artifacts : List (CacheBundleArtifactRecord Rest)) (policy : CacheBundleConsumptionPolicy) :
    Outcome Nat := do
  refuse (selected.achievedAssurance < policy.minimumAssurance)
    ("bundle artifact assurance " ++ selected.achievedAssurance.debug ++ " is below " ++
      policy.minimumAssurance.debug)
  let visited ← closure (consume policy artifacts) [selected.identity] artifacts
  return visited.card - 1

end

end Xcelerator.Cache.BundleClosure
