import Mathlib
import Xcelerator.Cache.ArtifactState
import Xcelerator.Cache.Digest

/-! # Durability copies and local pruning

The assessment of declared copies under a durability policy, the dry-run plan of a local
prune, and the prune that deletes one verified file. Sets are lists without repetition in
their order, paths are text, and the operating system is the parameter `System`. -/

namespace Xcelerator.Cache.Durability
open Xcelerator.Foundations.Machine
open Xcelerator.Cache.Artifact (ArtifactAssuranceState ArtifactDisposition PublicationTargetState)
open Xcelerator.Cache.Digest (Sha256 contentDigest)

/-! ## Policies and evidence -/

inductive DurabilityClass where
  | recomputable
  | expensiveReproducible
  | irreplaceableSource
  | publicationOrCertificateRecord
deriving DecidableEq, Repr

inductive ArtifactCopyLocation where
  | processLocal
  | workstationLocal
  | projectPrivate
  | teamPrivateRemote
  | publicRemote
  | externalMirror
  | archive
deriving DecidableEq, Repr

def ArtifactCopyLocation.isRemote : ArtifactCopyLocation → Bool
  | teamPrivateRemote | publicRemote | externalMirror | archive => true
  | _ => false

def ArtifactCopyLocation.isLocallyPrunable : ArtifactCopyLocation → Bool
  | processLocal | workstationLocal | projectPrivate => true
  | _ => false

structure DurabilityPolicy where
  schemaVersion : Nat
  artifactFamily : String
  durabilityClass : DurabilityClass
  minimumVerifiedCopies : Nat
  minimumIndependentFailureDomains : Nat
  requireArchiveCopy : Bool
  allowedLocations : List ArtifactCopyLocation

def invalid (condition : Bool) (message : String) : Result Unit :=
  check condition (.invalidManifest message)

def DurabilityPolicy.validate (policy : DurabilityPolicy) : Result Unit :=
  invalid (policy.schemaVersion == 0 || blank policy.artifactFamily ||
    policy.minimumVerifiedCopies == 0 ||
      policy.minimumIndependentFailureDomains == 0 ||
      decide (policy.minimumVerifiedCopies < policy.minimumIndependentFailureDomains) ||
      policy.allowedLocations.isEmpty ||
      (policy.requireArchiveCopy && !policy.allowedLocations.contains .archive))
    "durability policy identity, copy count, independence, or locations are invalid"

structure ArtifactCopyEvidence where
  schemaVersion : Nat
  copyId : String
  location : ArtifactCopyLocation
  locator : String
  failureDomain : String
  canonicalPayloadDigest : ContentDigest
  placementReceiptDigest : Option ContentDigest
  verificationEvidenceDigest : ContentDigest
  verifiedAtUnixSeconds : Nat
  revoked : Bool
deriving DecidableEq

def evidenceMessage : String :=
  "artifact copy identity, verification, failure domain, or remote receipt is invalid"

def ArtifactCopyEvidence.validate (copy : ArtifactCopyEvidence) : Result Unit :=
  invalid (copy.schemaVersion == 0 || blank copy.copyId || blank copy.locator ||
    blank copy.failureDomain ||
      !copy.canonicalPayloadDigest.validate || !copy.verificationEvidenceDigest.validate ||
      copy.verifiedAtUnixSeconds == 0 || (copy.placementReceiptDigest.any fun digest =>
        !digest.validate) ||
      (copy.location.isRemote && copy.placementReceiptDigest.isNone))
    evidenceMessage

inductive DurabilityCopyRejectionReason where
  | invalidEvidence
  | wrongPayload
  | disallowedLocation
  | revoked
  | duplicateCopyId
  | duplicateLocator
deriving DecidableEq, Repr

structure DurabilityCopyRejection where
  copyId : String
  reason : DurabilityCopyRejectionReason
  detail : String
deriving DecidableEq, Repr

structure DurabilityAssessment where
  schemaVersion : Nat
  artifactFamily : String
  durabilityClass : DurabilityClass
  canonicalPayloadDigest : ContentDigest
  satisfied : Bool
  verifiedCopyCount : Nat
  independentFailureDomainCount : Nat
  archiveCopyPresent : Bool
  acceptedCopyIds : List String
  rejections : List DurabilityCopyRejection
  deficits : List String
deriving DecidableEq

/-! ## The assessment -/

/-- The locals of the loop; `accepted` is kept whole, where the source keeps the sets of its
fields. -/
structure Tally where
  accepted : List ArtifactCopyEvidence
  rejections : List DurabilityCopyRejection

def Tally.failureDomains (tally : Tally) : List String :=
  (tally.accepted.map (·.failureDomain)).dedup

def Tally.archiveCopyPresent (tally : Tally) : Bool :=
  tally.accepted.any fun copy => copy.location == .archive

def rejected (policy : DurabilityPolicy) (digest : ContentDigest)
    (accepted : List ArtifactCopyEvidence)
    (copy : ArtifactCopyEvidence) : Option (DurabilityCopyRejectionReason × String) :=
  if copy.validate != .ok () then
    some (.invalidEvidence, "invalid cache manifest: " ++ evidenceMessage)
  else if copy.canonicalPayloadDigest != digest then
    some (.wrongPayload, "copy names another canonical payload")
  else if !policy.allowedLocations.contains copy.location then
    some (.disallowedLocation, "copy location is excluded by durability policy")
  else if copy.revoked then some (.revoked, "copy or its evidence is revoked")
  else if (accepted.map (·.copyId)).contains copy.copyId then
    some (.duplicateCopyId, "copy identity is duplicated")
  else if (accepted.map (·.locator)).contains copy.locator then
    some (.duplicateLocator, "copy locator is duplicated")
  else none

def Tally.add (policy : DurabilityPolicy) (digest : ContentDigest) (tally : Tally)
    (copy : ArtifactCopyEvidence) :
    Tally :=
  match rejected policy digest tally.accepted copy with
  | some (reason, detail) =>
    { tally with rejections := tally.rejections ++ [⟨copy.copyId, reason, detail⟩] }
  | none => { tally with accepted := tally.accepted ++ [copy] }

def tally (policy : DurabilityPolicy) (digest : ContentDigest)
    (copies : List ArtifactCopyEvidence) : Tally :=
  copies.foldl (Tally.add policy digest) ⟨[], []⟩

def deficits (policy : DurabilityPolicy) (copies domains : Nat) (archive : Bool) : List String :=
  (if copies < policy.minimumVerifiedCopies then
    ["verified copies " ++ toString copies ++ " are below required " ++
      toString policy.minimumVerifiedCopies] else []) ++
  (if domains < policy.minimumIndependentFailureDomains then
    ["independent failure domains " ++ toString domains ++ " are below required " ++
      toString policy.minimumIndependentFailureDomains] else []) ++
  (if policy.requireArchiveCopy && !archive then
    ["an independently verified archive copy is required"] else [])

/-- `u32::try_from`. -/
def asU32 (n : Nat) (message : String) : Result Nat := do
  check (decide (2 ^ 32 ≤ n)) (.resourceLimit message)
  return n

def Tally.assess (policy : DurabilityPolicy) (digest : ContentDigest) (tally : Tally) :
    Result DurabilityAssessment := do
  let count ← asU32 tally.accepted.length "verified copy count exceeds u32"
  let domains ← asU32 tally.failureDomains.length "failure-domain count exceeds u32"
  return { schemaVersion := 1, artifactFamily := policy.artifactFamily, durabilityClass :=
    policy.durabilityClass
           canonicalPayloadDigest := digest
           satisfied := (deficits policy count domains tally.archiveCopyPresent).isEmpty
           verifiedCopyCount := count, independentFailureDomainCount := domains
           archiveCopyPresent := tally.archiveCopyPresent
           acceptedCopyIds := (tally.accepted.map (·.copyId)).mergeSort
           rejections := tally.rejections.mergeSort fun a b => decide (a.copyId ≤ b.copyId)
           deficits := deficits policy count domains tally.archiveCopyPresent }

def assessDurability (policy : DurabilityPolicy) (digest : ContentDigest)
    (copies : List ArtifactCopyEvidence) :
    Result DurabilityAssessment := do
  policy.validate
  invalid (!digest.validate) "durability subject payload digest is invalid"
  (tally policy digest copies).assess policy digest

/-! ## Prune plans -/

inductive RecomputationCost where
  | trivial
  | moderate
  | expensive
  | irreplaceable
deriving DecidableEq, Repr

/-- The position in the derived order. -/
def RecomputationCost.rank : RecomputationCost → Nat
  | trivial => 0
  | moderate => 1
  | expensive => 2
  | irreplaceable => 3

def RecomputationCost.debug : RecomputationCost → String
  | trivial => "Trivial"
  | moderate => "Moderate"
  | expensive => "Expensive"
  | irreplaceable => "Irreplaceable"

def dispositionDebug : ArtifactDisposition → String
  | .active => "Active"
  | .deprecated => "Deprecated"
  | .quarantined => "Quarantined"
  | .revoked => "Revoked"

structure LocalPrunePolicy where
  schemaVersion : Nat
  minimumAgeSeconds : Nat
  maximumRecomputationCost : RecomputationCost
  allowedDispositions : List ArtifactDisposition
  protectAssuranceAtOrAbove : Option ArtifactAssuranceState

def LocalPrunePolicy.validate (policy : LocalPrunePolicy) : Result Unit :=
  invalid (policy.schemaVersion == 0 || policy.allowedDispositions.isEmpty)
    "local prune policy schema and dispositions are required"

structure LocalPruneCandidate where
  schemaVersion : Nat
  copyId : String
  localPath : String
  localFileDigest : ContentDigest
  localFileSizeBytes : Nat
  location : ArtifactCopyLocation
  artifactFamily : String
  canonicalPayloadDigest : ContentDigest
  ageSeconds : Nat
  projectPinned : Bool
  dependencyReachable : Bool
  activeTransaction : Bool
  achievedAssurance : ArtifactAssuranceState
  disposition : ArtifactDisposition
  recomputationCost : RecomputationCost
  requiredPublicationTargets : List PublicationDestination
  publicationStates : PublicationDestination → Option PublicationTargetState

def LocalPruneCandidate.validate (candidate : LocalPruneCandidate) : Result Unit :=
  invalid (candidate.schemaVersion == 0 || blank candidate.copyId || candidate.localPath.isEmpty ||
      !candidate.localFileDigest.validate || !candidate.location.isLocallyPrunable ||
      blank candidate.artifactFamily ||
      !candidate.canonicalPayloadDigest.validate ||
      (candidate.requiredPublicationTargets.any fun target =>
        (candidate.publicationStates target).isNone))
    "local prune candidate identity, path, location, or target state is invalid"

structure LocalPrunePlan where
  schemaVersion : Nat
  dryRun : Bool
  copyId : String
  localPath : String
  removable : Bool
  durabilityAfterRemoval : DurabilityAssessment
  reasons : List String
deriving DecidableEq

/-- Every locator that the removal takes away. -/
def removedLocators (candidate : LocalPruneCandidate) (copies : List ArtifactCopyEvidence) :
    List String :=
  candidate.localPath :: (copies.filter fun copy => copy.copyId == candidate.copyId).map (·.locator)

def retainedCopies (candidate : LocalPruneCandidate) (copies : List ArtifactCopyEvidence) :
    List ArtifactCopyEvidence :=
  copies.filter fun copy =>
    copy.copyId != candidate.copyId && !(removedLocators candidate copies).contains copy.locator

/-- The protections of the candidate itself. -/
def protections (policy : LocalPrunePolicy) (candidate : LocalPruneCandidate) : List String :=
  (if candidate.ageSeconds < policy.minimumAgeSeconds then
    ["candidate age " ++ toString candidate.ageSeconds ++ " seconds is below policy minimum " ++
      toString policy.minimumAgeSeconds] else []) ++
  (if candidate.projectPinned then ["candidate is protected by a project pin"] else []) ++
  (if candidate.dependencyReachable then ["candidate remains reachable from a retained dependency"]
    else []) ++
  (if candidate.activeTransaction then ["candidate is used by an active publication transaction"]
    else []) ++ (if !policy.allowedDispositions.contains candidate.disposition then
    ["candidate disposition " ++ dispositionDebug candidate.disposition ++ " is protected"]
      else []) ++ (if policy.maximumRecomputationCost.rank < candidate.recomputationCost.rank then
    ["candidate recomputation cost " ++ candidate.recomputationCost.debug ++
      " exceeds policy maximum " ++ policy.maximumRecomputationCost.debug] else []) ++
  (if policy.protectAssuranceAtOrAbove.any fun minimum =>
    decide (minimum ≤ candidate.achievedAssurance) then
    ["candidate assurance " ++ candidate.achievedAssurance.debug ++ " is protected by policy"]
      else []) ++ (candidate.requiredPublicationTargets.filter fun target =>
    candidate.publicationStates target != some .receiptComplete).map fun target =>
      "required " ++ target.debug ++ " publication is not receipt-complete"

/-- `Vec::dedup`. -/
def dedupAdjacent : List String → List String
  | a :: b :: rest => if a = b then dedupAdjacent (b :: rest) else a :: dedupAdjacent (b :: rest)
  | reasons => reasons

def planLocalPrune (policy : LocalPrunePolicy) (durabilityPolicy : DurabilityPolicy)
    (candidate : LocalPruneCandidate)
    (copies : List ArtifactCopyEvidence) : Result LocalPrunePlan := do
  policy.validate
  durabilityPolicy.validate
  candidate.validate
  invalid (durabilityPolicy.artifactFamily != candidate.artifactFamily)
    "prune candidate and durability policy name different artifact families"
  let durability ← assessDurability durabilityPolicy candidate.canonicalPayloadDigest
    (retainedCopies candidate copies)
  let reasons := dedupAdjacent (protections policy candidate ++
    durability.deficits.map fun deficit =>
      "durability deficit after removal: " ++ deficit).mergeSort
  return { schemaVersion := 1, dryRun := true, copyId := candidate.copyId, localPath :=
    candidate.localPath
           removable := reasons.isEmpty, durabilityAfterRemoval := durability, reasons }

/-! ## Files -/

/-- What a directory entry holds; a link names the entry that the operating system resolves its text
to. -/
inductive Entry (Place : Type) where
  | file (inode : Nat)
  | symlink (target : Place)
  | other

/-- The files of the operating system. The text of a path names an entry once the links in its
directories are followed, so that several spellings may name one entry; several entries may hold one
file; and opening follows the links of the last component, up to a limit. -/
structure Files (Place : Type) where
  place : String → Option Place
  entries : Place → Option (Entry Place)
  contents : Nat → List UInt8
  linkLimit : Nat

section
variable {Place : Type} [DecidableEq Place]

def Files.entry (files : Files Place) (path : String) : Option (Entry Place) :=
  (files.place path).bind files.entries

def Files.follow (files : Files Place) : Nat → Place → Option Nat
  | 0, place =>
    match files.entries place with
    | some (.file inode) => some inode
    | _ => none
  | links + 1, place =>
    match files.entries place with
    | some (.file inode) => some inode
    | some (.symlink target) => files.follow links target
    | _ => none

/-- The bytes that opening a path reads. -/
def Files.opened (files : Files Place) (path : String) : Option (List UInt8) := do
  let place ← files.place path
  let inode ← files.follow files.linkLimit place
  return files.contents inode

/-- The links from an entry pass through another. -/
def Files.leads (files : Files Place) (through : Place) : Nat → Place → Bool
  | 0, place => decide (place = through)
  | links + 1, place =>
    decide (place = through) ||
      match files.entries place with
      | some (.symlink target) => files.leads through links target
      | _ => false

def Files.leadsTo (files : Files Place) (through : Place) (path : String) : Bool :=
  (files.place path).any (files.leads through files.linkLimit)

def Files.unlink (files : Files Place) (place : Place) : Files Place :=
  { files with entries := fun other => if other = place then none else files.entries other }

/-- `std::fs::remove_file`, where it succeeds. -/
def Files.remove (files : Files Place) (path : String) : Files Place :=
  match files.place path with
  | some place => files.unlink place
  | none => files

end

/-! ## Execution -/

inductive PruneError where
  | cache (error : CacheError)
  | permissionDenied (message : String)
  | io (message : String)
deriving DecidableEq, Repr

/-- The answers of the operating system and the token in one call: a failing metadata, open or
remove, the pieces that the reads return, and the checks of the token in order. -/
structure System where
  metadataError : Option String
  openError : Option String
  readError : Nat → Option String
  pieces : List UInt8 → List (List UInt8)
  removeError : Option String
  cancelled : Nat → Option String

abbrev Attempt := Except PruneError

def failing (message : Option String) (error : String → PruneError) : Attempt Unit :=
  match message with
  | some message => .error (error message)
  | none => .ok ()

def refuse (condition : Bool) (error : PruneError) : Attempt Unit :=
  if condition then .error error else .ok ()

/-- Hash and count the file piece by piece, asking the token before each read. -/
def readLoop (system : System) (reads : Nat) (hashed : List UInt8) (size : Nat) :
    List (List UInt8) → Attempt (List UInt8 × Nat)
  | [] => do
    failing (system.cancelled (reads + 1)) fun message => .cache (.cancelled message)
    failing (system.readError reads) .io
    return (hashed, size)
  | piece :: rest => do
    failing (system.cancelled (reads + 1)) fun message => .cache (.cancelled message)
    failing (system.readError reads) .io
    refuse (checkedAdd size piece.length).isNone
      (.cache (.resourceLimit "local prune verification size exceeds u64"))
    readLoop system (reads + 1) (hashed ++ piece) (size + piece.length) rest

structure LocalPruneExecutionReport where
  schemaVersion : Nat
  plan : LocalPrunePlan
  deleted : Bool
  deletedFileDigest : ContentDigest
  deletedFileSizeBytes : Nat

section
variable {Place : Type} [DecidableEq Place] (sha256 : Sha256) (system : System)

/-- Everything up to the deletion. -/
def verifyPrune (policy : LocalPrunePolicy) (durabilityPolicy : DurabilityPolicy)
    (candidate : LocalPruneCandidate)
    (copies : List ArtifactCopyEvidence) (files : Files Place) :
    Attempt LocalPruneExecutionReport := do
  let plan ← (planLocalPrune policy durabilityPolicy candidate copies).mapError .cache
  refuse (!plan.removable)
    (.permissionDenied ("local prune is refused: " ++ "; ".intercalate plan.reasons))
  failing (system.cancelled 0) fun message => .cache (.cancelled message)
  failing system.metadataError .io
  match files.entry candidate.localPath with
  | none => .error (.cache (.notFound candidate.localPath))
  | some (.file inode) => do
    let content := files.contents inode
    refuse (content.length != candidate.localFileSizeBytes)
      (.cache (.digestMismatch (toString candidate.localFileSizeBytes ++ " bytes")
        (toString content.length ++ " bytes")))
    failing system.openError .io
    let (hashed, size) ← readLoop system 0 [] 0 (system.pieces content)
    let digest := contentDigest sha256 hashed
    refuse (size != candidate.localFileSizeBytes || digest != candidate.localFileDigest)
      (.cache (.digestMismatch
        (candidate.localFileDigest.text ++ " (" ++ toString candidate.localFileSizeBytes ++
          " bytes)")
        (digest.text ++ " (" ++ toString size ++ " bytes)")))
    return { schemaVersion := 1, plan, deleted := true, deletedFileDigest :=
      digest, deletedFileSizeBytes := size }
  | some _ => .error (.cache
      (.invalidManifest "local prune target must be one regular non-symlink file"))

def executeLocalPrune (policy : LocalPrunePolicy) (durabilityPolicy : DurabilityPolicy)
    (candidate : LocalPruneCandidate) (copies : List ArtifactCopyEvidence) (files : Files Place) :
    Attempt LocalPruneExecutionReport × Files Place :=
  match verifyPrune sha256 system policy durabilityPolicy candidate copies files with
  | .error error => (.error error, files)
  | .ok report =>
    match system.removeError with
    | some message => (.error (.io message), files)
    | none => (.ok report, files.remove candidate.localPath)

end

end Xcelerator.Cache.Durability
