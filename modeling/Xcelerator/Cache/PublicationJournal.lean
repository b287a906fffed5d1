import Mathlib.Data.List.Dedup
import Mathlib.Data.List.Sort
import Xcelerator.Foundations.Machine
import Xcelerator.Cache.Basic

/-! # The journal of a publication transaction

Documents, transport parts and the journal with its transitions. A repository
path is the list of its components. A part carries the staged file itself in
`bytes`; digest and size of a document come from `Canonical`, which stands for
the canonical JSON and SHA-256 of the source. Authorisation, audit evidence and
the idempotency envelope are left out: they can only refuse a step, and a
publisher that is refused is one that stops. -/

namespace Xcelerator.Cache.Publication
open Xcelerator.Foundations.Machine (ok_bind bind_eq_ok)

/-! ## Paths -/

abbrev Path := List String

/-- The general category `Cc`. -/
def isControl (c : Char) : Bool := c.toNat < 0x20 || (0x7F ≤ c.toNat && c.toNat ≤ 0x9F)

def normalizedRelativePath (path : Path) : Bool :=
  !path.isEmpty && path.all fun part =>
    part != "" && part != "." && part != ".." &&
      part.toList.all fun c => c != '/' && c != '\\' && c != ':' && !isControl c

def defaultCapacityLedgerPath : Path := ["ledger", "capacity.json"]

/-- `{:020}`. -/
def padded (n : Nat) : String :=
  let digits := (toString n).toList
  String.ofList (List.replicate (20 - digits.length) '0' ++ digits)

def batchRecordPath (transactionId : String) (destination : PublicationDestination)
    (sequence : Nat) :
    Path :=
  ["transactions", transactionId, destination.text, "batches", padded sequence ++ ".json"]

/-! ## Documents -/

structure PayloadBatchObjectRecord where
  repositoryPath : Path
  sizeBytes : Nat
  contentDigest : ContentDigest
  newlyIntroduced : Bool
deriving DecidableEq, Repr

structure PayloadBatchRecord where
  schemaVersion : Nat
  transactionId : String
  destination : PublicationDestination
  shardId : String
  branch : String
  sequence : Nat
  payloadParentHead : Revision
  payloadCommitId : Revision
  plannedPayloadBytes : Nat
  newlyCommittedPayloadBytes : Nat
  objects : List PayloadBatchObjectRecord
deriving DecidableEq, Repr

structure RemotePublicationTransactionRecord where
  schemaVersion : Nat
  transactionId : String
  destination : PublicationDestination
  shardId : String
  branch : String
  semanticDigest : ContentDigest
  payloadDigest : ContentDigest
  manifestDigest : ContentDigest
  transportDigest : ContentDigest
  validationAttestationDigests : List ContentDigest
deriving DecidableEq, Repr

structure ShardIndexEntry where
  semanticDigest : ContentDigest
  canonicalPayloadDigest : ContentDigest
  manifestDigest : ContentDigest
  transportDigests : List ContentDigest
  publicationTransactionId : String
deriving DecidableEq, Repr

structure ShardIndexPartition where
  schemaVersion : Nat
  family : String
  semanticPrefix : String
  entries : List ShardIndexEntry
deriving DecidableEq, Repr

structure CapacityLedger where
  schemaVersion : Nat
  shardId : String
  hardCapacityBytes : Nat
  warningReserveBytes : Nat
  firstSeenImmutablePayloadBytes : Nat
  manifestIndexReceiptBytes : Nat
  estimatedHistoryBytes : Nat
  emergencyReserveBytes : Nat
  abandonedReachableBytes : Nat
  lastReconciledCommit : Revision
  reconciliationDigest : ContentDigest
deriving DecidableEq, Repr

structure CapacityReconciliationEvidence where
  schemaVersion : Nat
  transactionId : String
  baseRevision : Revision
  baseLedgerDigest : ContentDigest
  indexDigest : ContentDigest
  receiptDigest : ContentDigest
  uniquePayloadBytesAdded : Nat
  metadataBytesAdded : Nat
  projectedHistoryBytesAdded : Nat
deriving DecidableEq, Repr

structure PublicationReceipt where
  schemaVersion : Nat
  transactionId : String
  destination : PublicationDestination
  shardId : String
  branch : String
  semanticDigest : ContentDigest
  canonicalPayloadDigest : ContentDigest
  manifestDigest : ContentDigest
  transportDigest : ContentDigest
  payloadCommitIds : List Revision
  payloadBatchRecordCommitIds : List Revision
  payloadBatchRecordDigests : List (Path × ContentDigest)
  metadataCommitId : Revision
  metadataFileDigests : List (Path × ContentDigest)
  discoverabilitySubjectDigests : List (Path × ContentDigest)
  verifiedAtUnixSeconds : Nat
deriving DecidableEq, Repr

/-- The content of a file. Objects, encodings, manifests and attestations are
bytes that no modelled function reads. -/
inductive Document where
  | object (content : String)
  | encoding (content : String)
  | manifest (content : String)
  | attestation (content : String)
  | transaction (record : RemotePublicationTransactionRecord)
  | batchRecord (record : PayloadBatchRecord)
  | index (partition : ShardIndexPartition)
  | ledger (ledger : CapacityLedger)
  | receipt (receipt : PublicationReceipt)
  | evidence (evidence : CapacityReconciliationEvidence)
deriving DecidableEq, Repr

/-- Digest and length of the bytes of a document. -/
structure Canonical where
  digest : Document → ContentDigest
  size : Document → Nat

/-! ## Transport parts -/

def githubHardFileBoundaryBytes : Nat := 100000000
def githubMaxPublicationBatchBytes : Nat := 1000000000
def githubSafeRepositoryPayloadBytes : Nat := 100000000000

structure TransportPart where
  sequence : Nat
  repositoryPath : Path
  sizeBytes : Nat
  contentDigest : ContentDigest
  bytes : Document
deriving DecidableEq, Repr

def TransportPart.valid (part : TransportPart) : Bool :=
  normalizedRelativePath part.repositoryPath && part.sizeBytes != 0 &&
    decide (part.sizeBytes < githubHardFileBoundaryBytes) && part.contentDigest.validate

/-- A `try_fold` of `checked_add`. -/
def checkedSum (total : Nat) (sizes : List Nat) : Option Nat := sizes.foldlM checkedAdd total

def partDigests (parts : List TransportPart) : List ContentDigest := parts.map (·.contentDigest)

structure PublicationBatchPlan where
  sequence : Nat
  payloadBytes : Nat
  parts : List TransportPart
deriving DecidableEq, Repr

/-! ## Commit journals -/

inductive PublicationCommitState where
  | planned
  | committed
  | remoteVerified
deriving DecidableEq, Repr

structure PublicationCommitJournal where
  files : List TransportPart
  state : PublicationCommitState
  parentHead : Option Revision
  commitId : Option Revision
  newlyCommittedDigests : List ContentDigest
  receiptDigest : Option ContentDigest
deriving DecidableEq, Repr

/-- The loop of `validate_commit_files`. -/
def validateFilesFrom (seen : List Path) (total index : Nat) : List TransportPart → Result Nat
  | [] => .ok total
  | file :: rest => do
    check (file.sequence != index || !file.valid || seen.contains file.repositoryPath)
      (.invalidManifest s!"publication metadata file {index} is invalid or duplicated")
    let total ← require (checkedAdd total file.sizeBytes)
      (.resourceLimit "publication metadata bytes exceed u64")
    validateFilesFrom (file.repositoryPath :: seen) total (index + 1) rest

def validateCommitFiles (files : List TransportPart) : Result Nat := do
  check files.isEmpty
    (.invalidManifest "publication metadata commit must contain at least one file")
  let total ← validateFilesFrom [] 0 0 files
  check (decide (githubMaxPublicationBatchBytes < total)) (.resourceLimit
    s!"publication metadata commit {total} exceeds {githubMaxPublicationBatchBytes} bytes")
  .ok total

/-- `new_digests.len() != digests.len() || !new_digests.is_subset(&planned)`. -/
def invalidAccounting (newDigests planned : List ContentDigest) : Bool :=
  !decide newDigests.Nodup || !newDigests.all planned.contains

def present (id : Option Revision) : Bool := id.any fun id => !blank id

namespace PublicationCommitJournal

def planned (files : List TransportPart) (receiptDigest : Option ContentDigest) :
    Result PublicationCommitJournal := do
  let _ ← validateCommitFiles files
  check (receiptDigest.any fun digest => !digest.validate)
    (.invalidManifest "publication commit receipt digest is invalid")
  .ok { files, state := .planned, parentHead := none, commitId := none, newlyCommittedDigests := [],
        receiptDigest }

def validate (self : PublicationCommitJournal) : Result Unit := do
  let _ ← validateCommitFiles self.files
  check (self.receiptDigest.any fun digest => !digest.validate)
    (.invalidManifest "publication commit receipt digest is invalid")
  check ((self.state == .planned && (present self.parentHead || present self.commitId)) ||
      (self.state != .planned && !(present self.parentHead && present self.commitId)))
    (.invalidManifest "publication commit state and commit identities disagree")
  check (invalidAccounting self.newlyCommittedDigests (partDigests self.files) ||
      (self.state == .planned && !self.newlyCommittedDigests.isEmpty))
    (.invalidManifest "publication commit new-object accounting is invalid")

def markCommitted (self : PublicationCommitJournal) (parentHead commitId : Revision)
    (newlyCommittedDigests : List ContentDigest) : Result PublicationCommitJournal := do
  check (self.state != .planned || blank parentHead || blank commitId)
    (.invalidTransition "metadata commit must advance from a planned state")
  check (newlyCommittedDigests.isEmpty ||
      invalidAccounting newlyCommittedDigests (partDigests self.files))
    (.invalidTransition "metadata commit must identify its newly written file identities")
  .ok { self with parentHead := some parentHead, commitId := some commitId, newlyCommittedDigests,
                  state := .committed }

def markReused (self : PublicationCommitJournal) (revision : Revision) :
    Result PublicationCommitJournal := do
  check (self.state != .planned || blank revision)
    (.invalidTransition "only planned metadata may be reused")
  .ok { self with parentHead := some revision, commitId := some revision, newlyCommittedDigests :=
    [],
                  state := .remoteVerified }

def markRemoteVerified (self : PublicationCommitJournal) (commitId : Revision) :
    Result PublicationCommitJournal := do
  check (self.state != .committed || self.commitId != some commitId)
    (.invalidTransition "metadata verification must match its recorded commit")
  .ok { self with state := .remoteVerified }

end PublicationCommitJournal

/-! ## Batch journals -/

inductive PublicationBatchState where
  | planned
  | committed
  | payloadVerified
  | recordCommitted
  | remoteVerified
deriving DecidableEq, Repr

def PublicationBatchState.debug : PublicationBatchState → String
  | planned => "Planned"
  | committed => "Committed"
  | payloadVerified => "PayloadVerified"
  | recordCommitted => "RecordCommitted"
  | remoteVerified => "RemoteVerified"

structure PublicationBatchJournal where
  plan : PublicationBatchPlan
  state : PublicationBatchState
  parentHead : Option Revision
  commitId : Option Revision
  newlyCommittedDigests : List ContentDigest
  recordCommit : Option PublicationCommitJournal
deriving DecidableEq, Repr

def PublicationBatchJournal.validate (self : PublicationBatchJournal) : Result Unit := do
  check (self.plan.parts.isEmpty || self.plan.payloadBytes == 0 ||
      decide (githubMaxPublicationBatchBytes < self.plan.payloadBytes))
    (.invalidManifest "publication batch plan is empty or exceeds the payload limit")
  check (!self.plan.parts.all TransportPart.valid)
    (.invalidManifest "publication batch contains an invalid part")
  let planned ← require (checkedSum 0 (self.plan.parts.map (·.sizeBytes)))
    (.resourceLimit "publication batch bytes exceed u64")
  check (planned != self.plan.payloadBytes)
    (.invalidManifest "publication batch byte accounting does not match its parts")
  check ((self.state == .planned && (present self.parentHead || present self.commitId)) ||
      (self.state != .planned && !(present self.parentHead && present self.commitId)))
    (.invalidManifest "publication batch state and payload commit identities disagree")
  check (invalidAccounting self.newlyCommittedDigests (partDigests self.plan.parts) ||
      (self.state == .planned && !self.newlyCommittedDigests.isEmpty))
    (.invalidManifest "publication batch new-object accounting is invalid")
  match self.recordCommit with
  | none => .ok ()
  | some record => do
    record.validate
    check (record.files.length != 1 || record.receiptDigest.isSome)
      (.invalidManifest "payload batch record must be one non-receipt metadata file")
  let recordState := self.recordCommit.map (·.state)
  check (!match self.state with
      | .planned | .committed => recordState.isNone
      | .payloadVerified => recordState == some .planned
      | .recordCommitted => recordState == some .committed
      | .remoteVerified => recordState == some .remoteVerified || recordState.isNone)
    (.invalidManifest "publication batch and durable record states disagree")

/-! ## Target journals -/

inductive PublicationTargetState where
  | planned
  | uploading
  | batchVerified
  | remoteVerified
  | receiptComplete
  | failed
  | abandoned
deriving DecidableEq, Repr

def PublicationTargetState.debug : PublicationTargetState → String
  | planned => "Planned"
  | uploading => "Uploading"
  | batchVerified => "BatchVerified"
  | remoteVerified => "RemoteVerified"
  | receiptComplete => "ReceiptComplete"
  | failed => "Failed"
  | abandoned => "Abandoned"

structure TargetPublicationJournal where
  destination : PublicationDestination
  repository : String
  shardId : String
  branch : String
  expectedHead : Revision
  state : PublicationTargetState
  batches : List PublicationBatchJournal
  metadataCommit : Option PublicationCommitJournal
  discoverabilityCommit : Option PublicationCommitJournal
  receiptDigest : Option ContentDigest
  retryCount : Nat
  failure : Option String
deriving DecidableEq, Repr

namespace TargetPublicationJournal

def ref (self : TargetPublicationJournal) : RefName := ⟨self.repository, self.branch⟩

/-- `self.batches.get_mut(sequence)`. -/
def batch (self : TargetPublicationJournal) (sequence : Nat) : Result PublicationBatchJournal :=
  require self.batches[sequence]? (.invalidTransition s!"unknown publication batch {sequence}")

def setBatch (self : TargetPublicationJournal) (sequence : Nat) (batch : PublicationBatchJournal) :
    TargetPublicationJournal :=
  { self with batches := self.batches.set sequence batch }

/-- Some batch is not yet verified on the remote. -/
def unverified (self : TargetPublicationJournal) : Bool :=
  self.batches.any fun batch => batch.state != .remoteVerified

/-- `retry_count.saturating_add(1)`, of a `u32`. -/
def retried (self : TargetPublicationJournal) : Nat := min (self.retryCount + 1) (2 ^ 32 - 1)

def planMetadataCommit (self : TargetPublicationJournal) (files : List TransportPart) :
    Result TargetPublicationJournal := do
  check (self.state != .batchVerified || self.unverified || self.metadataCommit.isSome)
    (.invalidTransition "metadata may be planned only after every payload batch is verified")
  let commit ← PublicationCommitJournal.planned files none
  .ok { self with metadataCommit := some commit }

def planDiscoverabilityCommit (self : TargetPublicationJournal) (files : List TransportPart)
    (receiptDigest : ContentDigest) : Result TargetPublicationJournal := do
  check (self.state != .remoteVerified ||
      self.metadataCommit.all (fun commit => commit.state != .remoteVerified) ||
      self.discoverabilityCommit.isSome)
    (.invalidTransition "discoverability may be planned only after metadata is remotely verified")
  check (!files.any fun file => file.contentDigest == receiptDigest)
    (.invalidManifest "discoverability commit does not contain its publication receipt")
  let commit ← PublicationCommitJournal.planned files (some receiptDigest)
  .ok { self with discoverabilityCommit := some commit }

def discardPlannedDiscoverabilityAfterConflict (self : TargetPublicationJournal)
    (currentHead : Revision) : Result TargetPublicationJournal := do
  check (self.discoverabilityCommit.all fun commit => commit.state != .planned)
    (.invalidTransition "only an uncommitted discoverability plan may be rebuilt")
  check (blank currentHead) (.invalidTransition "conflict head must be nonempty")
  .ok { self with expectedHead := currentHead, retryCount := self.retried,
                  discoverabilityCommit := none }

def start (self : TargetPublicationJournal) : Result TargetPublicationJournal := do
  check (self.state != .planned && self.state != .batchVerified && self.state != .failed)
    (.invalidTransition s!"target {self.destination.debug} cannot start from {self.state.debug}")
  .ok { self with state := .uploading, failure := none }

def markBatchCommitted (self : TargetPublicationJournal) (sequence : Nat)
    (parentHead commitId : Revision) (newlyCommittedDigests : List ContentDigest) :
    Result TargetPublicationJournal := do
  check (self.state != .uploading || parentHead != self.expectedHead || blank commitId)
    (.invalidTransition "batch commit must be an uploading compare-and-swap from the expected head")
  let batch ← self.batch sequence
  check (batch.state != .planned)
    (.invalidTransition s!"batch {sequence} is already {batch.state.debug}")
  check (newlyCommittedDigests.isEmpty ||
      invalidAccounting newlyCommittedDigests (partDigests batch.plan.parts))
    (.invalidTransition "committed batch must identify its unique newly introduced objects")
  .ok { self.setBatch sequence { batch with
          state := .committed, parentHead := some parentHead, commitId := some commitId,
          newlyCommittedDigests } with expectedHead := commitId }

def planVerifiedBatchRecord (self : TargetPublicationJournal) (sequence : Nat) (commitId : Revision)
    (recordFile : TransportPart) : Result TargetPublicationJournal := do
  let batch ← self.batch sequence
  check (batch.state != .committed || batch.commitId != some commitId || batch.recordCommit.isSome)
    (.invalidTransition "batch-record planning must match the verified payload commit")
  let record ← PublicationCommitJournal.planned [recordFile] none
  .ok (self.setBatch sequence { batch with recordCommit := some record, state := .payloadVerified })

/-- `batch.record_commit.as_mut()`. -/
def plannedRecord (batch : PublicationBatchJournal) : Result PublicationCommitJournal :=
  require batch.recordCommit (.invalidTransition "batch record was not planned")

def markBatchRecordCommitted (self : TargetPublicationJournal) (sequence : Nat)
    (parentHead commitId : Revision) (newlyCommittedDigests : List ContentDigest) :
    Result TargetPublicationJournal := do
  check (self.expectedHead != parentHead)
    (.invalidTransition "batch-record commit must use the target's expected head")
  let batch ← self.batch sequence
  check (batch.state != .payloadVerified)
    (.invalidTransition "batch record may be committed only after payload verification")
  let record ← plannedRecord batch
  let record ← record.markCommitted parentHead commitId newlyCommittedDigests
  .ok { self.setBatch sequence { batch with
    recordCommit := some record, state := .recordCommitted } with
        expectedHead := commitId }

def markBatchRecordReused (self : TargetPublicationJournal) (sequence : Nat) (revision : Revision) :
    Result TargetPublicationJournal := do
  let batch ← self.batch sequence
  check (batch.state != .payloadVerified)
    (.invalidTransition "only a planned verified-payload record may be reused")
  let record ← plannedRecord batch
  let record ← record.markReused revision
  .ok { self.setBatch sequence { batch with
    recordCommit := some record, state := .remoteVerified } with
        state := .batchVerified }

def markBatchRecordVerified (self : TargetPublicationJournal) (sequence : Nat)
    (commitId : Revision) :
    Result TargetPublicationJournal := do
  let batch ← self.batch sequence
  check (batch.state != .recordCommitted)
    (.invalidTransition "batch-record verification requires its committed state")
  let record ← plannedRecord batch
  let record ← record.markRemoteVerified commitId
  .ok { self.setBatch sequence { batch with
    recordCommit := some record, state := .remoteVerified } with
        state := .batchVerified }

def markBatchReused (self : TargetPublicationJournal) (sequence : Nat)
    (verifiedRevision : Revision) :
    Result TargetPublicationJournal := do
  check (self.state != .uploading || blank verifiedRevision)
    (.invalidTransition "reused batch must be verified while the target is uploading")
  let batch ← self.batch sequence
  check (batch.state != .planned)
    (.invalidTransition s!"batch {sequence} is already {batch.state.debug}")
  .ok { self.setBatch sequence { batch with
          state := .remoteVerified, parentHead := some verifiedRevision,
          commitId := some verifiedRevision, newlyCommittedDigests := [] } with
        state := .batchVerified }

def recordRefConflict (self : TargetPublicationJournal) (newHead : Revision) :
    Result TargetPublicationJournal := do
  check (self.state != .uploading) (.invalidTransition "ref conflict is valid only while uploading")
  check (blank newHead) (.invalidTransition "conflict head must be nonempty")
  .ok { self with expectedHead := newHead, retryCount := self.retried }

def markRemoteVerified (self : TargetPublicationJournal) : Result TargetPublicationJournal := do
  check self.unverified (.invalidTransition "all batches must be remotely verified first")
  .ok { self with state := .remoteVerified }

def completeReceipt (self : TargetPublicationJournal) (receipt : ContentDigest) :
    Result TargetPublicationJournal := do
  check (self.state != .remoteVerified || !receipt.validate ||
      self.discoverabilityCommit.all fun commit =>
        commit.state != .remoteVerified || commit.receiptDigest != some receipt)
    (.invalidTransition
      "receipt completion requires a remotely verified discoverability commit")
  .ok { self with receiptDigest := some receipt, state := .receiptComplete }

def restoreFailedResumeState (self : TargetPublicationJournal) :
    Result TargetPublicationJournal := do
  check (self.state != .failed)
    (.invalidTransition "only a failed publication target needs resume-state restoration")
  .ok { self with
    state :=
      if self.unverified then .uploading
      else if self.metadataCommit.any fun commit => commit.state == .remoteVerified then
        .remoteVerified
      else .batchVerified
    failure := none }

end TargetPublicationJournal

/-! ## The transaction journal -/

structure PublicationTransactionJournal where
  transactionId : String
  semanticDigest : ContentDigest
  payloadDigest : ContentDigest
  targetManifestDigests : PublicationDestination → Option ContentDigest
  targets : PublicationDestination → Option TargetPublicationJournal

/-- Where a target goes. -/
structure TargetRoute where
  repository : String
  shardId : String
  branch : String
  expectedHead : Revision

namespace PublicationTransactionJournal

def validateCommits (target : TargetPublicationJournal) : Result Unit := do
  match target.metadataCommit with
  | none => .ok ()
  | some commit => commit.validate
  match target.discoverabilityCommit with
  | none => .ok ()
  | some commit => do
    commit.validate
    check (commit.receiptDigest.all fun digest =>
        !commit.files.any fun file => file.contentDigest == digest)
      (.invalidManifest "discoverability commit does not contain its receipt identity")
  check (target.discoverabilityCommit.isSome &&
      target.metadataCommit.all fun commit => commit.state != .remoteVerified)
    (.invalidManifest "discoverability commit precedes verified immutable metadata")
  check (target.state == .receiptComplete && (target.receiptDigest.isNone ||
      target.discoverabilityCommit.all fun commit =>
        commit.state != .remoteVerified || commit.receiptDigest != target.receiptDigest))
    (.invalidManifest "receipt-complete target lacks a verified discoverability commit")
  check ((target.discoverabilityCommit.any fun commit => commit.state == .remoteVerified) &&
      target.state != .receiptComplete)
    (.invalidManifest "a remotely verified discoverability commit must be receipt-complete")

def invalidBatch (transactionId : String) (destination : PublicationDestination) (index : Nat)
    (batch : PublicationBatchJournal) : Bool :=
  batch.plan.sequence != index || !batch.validate.toBool ||
    batch.recordCommit.any fun record =>
      record.files.head?.map (·.repositoryPath) !=
        some (batchRecordPath transactionId destination index)

def validateTarget (transactionId : String) (destination : PublicationDestination)
    (target : TargetPublicationJournal) : Result Unit := do
  check (destination != target.destination || blank target.repository || blank target.shardId ||
      blank target.branch || blank target.expectedHead ||
      (target.batches.mapIdx (invalidBatch transactionId destination)).any id)
    (.invalidManifest s!"publication target journal {destination.debug} is invalid")
  validateCommits target

def validate (self : PublicationTransactionJournal) : Result Unit := do
  check (!(ContentDigest.mk self.transactionId).validate || !self.semanticDigest.validate ||
      !self.payloadDigest.validate ||
      ((self.targets .privateShard).isNone && (self.targets .publicShard).isNone))
    (.invalidManifest "publication transaction journal identity is invalid")
  match self.targets .privateShard with
  | none => .ok ()
  | some target => validateTarget self.transactionId .privateShard target
  match self.targets .publicShard with
  | none => .ok ()
  | some target => validateTarget self.transactionId .publicShard target

/-- A planned target of `new`. -/
def plannedTarget (destination : PublicationDestination) (route : TargetRoute)
    (batches : List PublicationBatchPlan) : TargetPublicationJournal where
  destination
  repository := route.repository
  shardId := route.shardId
  branch := route.branch
  expectedHead := route.expectedHead
  state := .planned
  batches := batches.map fun plan =>
    { plan, state := .planned, parentHead := none, commitId := none, newlyCommittedDigests := [],
      recordCommit := none }
  metadataCommit := none
  discoverabilityCommit := none
  receiptDigest := none
  retryCount := 0
  failure := none

def new (transactionId : String) (semanticDigest payloadDigest : ContentDigest)
    (targetManifestDigests : PublicationDestination → Option ContentDigest)
    (routes : PublicationDestination → Option TargetRoute) (batches : List PublicationBatchPlan) :
    Result PublicationTransactionJournal := do
  let journal : PublicationTransactionJournal := {
    transactionId, semanticDigest, payloadDigest, targetManifestDigests
    targets := fun destination =>
      (routes destination).map fun route => plannedTarget destination route batches }
  journal.validate
  .ok journal

end PublicationTransactionJournal

end Xcelerator.Cache.Publication
