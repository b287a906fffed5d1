import Mathlib
import Xcelerator.Cache.PublicationJournal

/-! # The operations on a publication target

Every operation of a target journal as one type, the whole journal of a transaction with
the authorities and the evidence its check reads, and runs of operations on its targets.
An operation that fails leaves the journal as it was. The digests of canonical JSON come
from `Sealing`. -/

namespace Xcelerator.Cache.Publication

namespace TargetPublicationJournal

/-- Every payload part was verified in one commit of the whole family. -/
def markPayloadVerifiedByFamilyCommit (self : TargetPublicationJournal)
    (parentHead commitId : Revision) :
    Result TargetPublicationJournal := do
  check ((self.state != .planned && self.state != .uploading) || self.expectedHead != parentHead ||
      blank parentHead || blank commitId || self.batches.isEmpty ||
      self.batches.any fun batch => batch.state != .planned)
    (.invalidTransition "family payload verification requires an untouched planned target")
  .ok { self with
    batches := self.batches.map fun batch =>
      { batch with
        state := .remoteVerified, parentHead := some parentHead, commitId := some commitId
        newlyCommittedDigests := [], recordCommit := none }
    expectedHead := commitId
    state := .batchVerified }

def fail (self : TargetPublicationJournal) (message : String) : TargetPublicationJournal :=
  { self with failure := some message, state := .failed }

/-- `str::trim`. -/
def trimmed (text : String) : String :=
  String.ofList ((text.toList.dropWhile isWhiteSpace).rdropWhile isWhiteSpace)

def abandon (self : TargetPublicationJournal) (reason : String) :
    Result TargetPublicationJournal := do
  check (blank reason || decide (4096 < reason.utf8ByteSize))
    (.invalidManifest "publication abandonment reason must contain 1 to 4096 bytes")
  check (self.state == .receiptComplete)
    (.invalidTransition "a receipt-complete publication target cannot be abandoned")
  .ok { self with failure := some (trimmed reason), state := .abandoned }

end TargetPublicationJournal

inductive TargetOperation where
  | start
  | fail (message : String)
  | markBatchCommitted (sequence : Nat) (parentHead commitId : Revision) (newlyCommittedDigests :
      List ContentDigest)
  | planVerifiedBatchRecord (sequence : Nat) (commitId : Revision) (recordFile : TransportPart)
  | markBatchRecordCommitted (sequence : Nat) (parentHead commitId : Revision)
      (newlyCommittedDigests : List ContentDigest)
  | markBatchRecordReused (sequence : Nat) (revision : Revision)
  | markBatchRecordVerified (sequence : Nat) (commitId : Revision)
  | markBatchReused (sequence : Nat) (verifiedRevision : Revision)
  | recordRefConflict (newHead : Revision)
  | markPayloadVerifiedByFamilyCommit (parentHead commitId : Revision)
  | planMetadataCommit (files : List TransportPart)
  | planDiscoverabilityCommit (files : List TransportPart) (receiptDigest : ContentDigest)
  | discardPlannedDiscoverabilityAfterConflict (currentHead : Revision)
  | markRemoteVerified
  | completeReceipt (receipt : ContentDigest)
  | abandon (reason : String)
  | restoreFailedResumeState

def TargetPublicationJournal.apply (self : TargetPublicationJournal) :
    TargetOperation → Result TargetPublicationJournal
  | .start => self.start
  | .fail message => .ok (self.fail message)
  | .markBatchCommitted sequence parentHead commitId digests =>
    self.markBatchCommitted sequence parentHead commitId digests
  | .planVerifiedBatchRecord sequence commitId file =>
    self.planVerifiedBatchRecord sequence commitId file
  | .markBatchRecordCommitted sequence parentHead commitId digests =>
    self.markBatchRecordCommitted sequence parentHead commitId digests
  | .markBatchRecordReused sequence revision => self.markBatchRecordReused sequence revision
  | .markBatchRecordVerified sequence commitId => self.markBatchRecordVerified sequence commitId
  | .markBatchReused sequence revision => self.markBatchReused sequence revision
  | .recordRefConflict newHead => self.recordRefConflict newHead
  | .markPayloadVerifiedByFamilyCommit parentHead commitId =>
    self.markPayloadVerifiedByFamilyCommit parentHead commitId
  | .planMetadataCommit files => self.planMetadataCommit files
  | .planDiscoverabilityCommit files receiptDigest =>
    self.planDiscoverabilityCommit files receiptDigest
  | .discardPlannedDiscoverabilityAfterConflict head =>
    self.discardPlannedDiscoverabilityAfterConflict head
  | .markRemoteVerified => self.markRemoteVerified
  | .completeReceipt receipt => self.completeReceipt receipt
  | .abandon reason => self.abandon reason
  | .restoreFailedResumeState => self.restoreFailedResumeState

/-! ## Authorities and evidence -/

/-- `CacheError` with its authentication errors. -/
inductive JournalError where
  | cache (error : CacheError)
  | authentication (message : String)
deriving DecidableEq, Repr

abbrev JournalResult := Except JournalError

def lifted {α : Type} (result : Result α) : JournalResult α := result.mapError .cache

def invalid (condition : Bool) (message : String) : JournalResult Unit :=
  lifted (check condition (.invalidManifest message))

inductive PublicationAuthorityMode where
  | ownerDirect
  | contributorReviewed
deriving DecidableEq, Repr

structure PublicationReviewEvidence where
  reviewerPrincipal : String
  approved : Bool
  pullRequestNumber : Nat
  reviewedHeadRevision : String
  evidenceDigest : ContentDigest
deriving DecidableEq, Repr

def PublicationReviewEvidence.valid (review : PublicationReviewEvidence) : Bool :=
  review.approved && !blank review.reviewerPrincipal && decide (0 < review.pullRequestNumber) &&
    review.reviewedHeadRevision.utf8ByteSize == 40 &&
    (review.reviewedHeadRevision.toList.all fun c => isAsciiDigit c || ('a' ≤ c && c ≤ 'f')) &&
    review.evidenceDigest.validate

structure TargetPublicationAuditEvidence where
  policyId : String
  authorityMode : PublicationAuthorityMode
  validationEvidenceDigests : List ContentDigest
  contributorAuthorizationDigest : Option ContentDigest
  reviewerApprovals : List PublicationReviewEvidence
deriving DecidableEq, Repr

def TargetPublicationAuditEvidence.validate (self : TargetPublicationAuditEvidence) : Result Unit :=
  check (blank self.policyId || self.validationEvidenceDigests.isEmpty ||
      (self.validationEvidenceDigests.any fun digest => !digest.validate) ||
      (self.contributorAuthorizationDigest.any fun digest => !digest.validate) ||
      (self.reviewerApprovals.any fun review => !review.valid) ||
      (self.authorityMode == .ownerDirect && self.contributorAuthorizationDigest.isSome) ||
      (self.authorityMode == .contributorReviewed &&
        (self.contributorAuthorizationDigest.isNone || self.reviewerApprovals.isEmpty)))
    (.invalidManifest "publication audit evidence is incomplete or inconsistent with authority mode")

inductive RepositoryPermission where
  | none
  | read
  | triage
  | write
  | maintain
  | admin
deriving DecidableEq, Repr

inductive RepositoryVisibility where
  | publicVisibility
  | privateVisibility
  | internalVisibility
deriving DecidableEq, Repr

structure PermissionEvidenceMaterial where
  providerId : String
  principal : String
  repository : String
  visibility : RepositoryVisibility
  permission : RepositoryPermission
  verifiedAtUnixSeconds : Nat
deriving DecidableEq, Repr

structure RepositoryPermissionEvidence extends PermissionEvidenceMaterial where
  evidenceDigest : ContentDigest
deriving DecidableEq, Repr

inductive PublicationTarget where
  | none
  | privateTarget
  | publicTarget
  | both
deriving DecidableEq, Repr

/-- A map keyed by destination. -/
abbrev ByDestination (α : Type) := PublicationDestination → Option α

structure IdempotencyEnvelope where
  schemaVersion : Nat
  semanticDigest : ContentDigest
  targetManifestDigests : ByDestination ContentDigest
  payloadDigest : ContentDigest
  policyDigest : ContentDigest
  target : PublicationTarget
  repositories : ByDestination String
  authorizedRepositories : ByDestination String
  shardIds : ByDestination String
  branches : ByDestination String

/-- `canonical_digest` of the two documents whose digests a journal compares. -/
structure Sealing where
  idempotencyKey : IdempotencyEnvelope → JournalResult ContentDigest
  permission : PermissionEvidenceMaterial → JournalResult ContentDigest

def providerId : String := "git-credential+github-api-curl-v1"

def validRepositoryPart (part : List Char) : Bool :=
  !part.isEmpty && part.all fun c =>
    isAsciiDigit c || ('a' ≤ c && c ≤ 'z') || ('A' ≤ c && c ≤ 'Z') || c == '-' ||
      c == '_' || c == '.'

def validRepositoryName (repository : String) : Bool :=
  match repository.toList.splitOn '/' with
  | [owner, name] => validRepositoryPart owner && validRepositoryPart name
  | _ => false

/-- `str::eq_ignore_ascii_case`. -/
def eqIgnoreAsciiCase (a b : String) : Bool :=
  a.toList.map Char.toLower == b.toList.map Char.toLower

def RepositoryPermissionEvidence.validate (self : RepositoryPermissionEvidence)
    (sealing : Sealing) :
    JournalResult Unit := do
  if self.providerId != Publication.providerId || blank self.principal ||
      !validRepositoryName self.repository || !self.evidenceDigest.validate then
    .error (.authentication "repository permission evidence is incomplete")
  else
    let digest ← sealing.permission self.toPermissionEvidenceMaterial
    if digest != self.evidenceDigest then
      .error (.authentication "repository permission evidence digest does not match")
    else .ok ()

/-! ## The journal of a transaction -/

/-- A target with its authority. -/
structure AuthorizedTarget where
  authorizedRepository : String
  permissionEvidence : RepositoryPermissionEvidence
  auditEvidence : Option TargetPublicationAuditEvidence
  journal : TargetPublicationJournal
deriving DecidableEq, Repr

/-- The whole journal, of which `PublicationTransactionJournal` leaves the authorities out. -/
structure AuthorizedTransactionJournal where
  schemaVersion : Nat
  transactionId : String
  idempotencyKey : ContentDigest
  semanticDigest : ContentDigest
  targetManifestDigests : ByDestination ContentDigest
  payloadDigest : ContentDigest
  policyDigest : ContentDigest
  targets : ByDestination AuthorizedTarget

def destinations : PublicationTarget → List PublicationDestination
  | .none => []
  | .privateTarget => [.privateShard]
  | .publicTarget => [.publicShard]
  | .both => [.privateShard, .publicShard]

namespace ByDestination

def keys {α : Type} (map : ByDestination α) : List PublicationDestination :=
  (destinations .both).filter fun destination => (map destination).isSome

def anyValue {α : Type} (map : ByDestination α) (p : α → Bool) : Bool :=
  (destinations .both).any fun destination => (map destination).any p

end ByDestination

namespace AuthorizedTarget

def validate (self : AuthorizedTarget) (sealing : Sealing) (transactionId : String)
    (destination : PublicationDestination) : JournalResult Unit := do
  invalid (destination != self.journal.destination || blank self.authorizedRepository ||
      blank self.journal.repository || blank self.journal.shardId || blank self.journal.branch ||
      blank self.journal.expectedHead ||
      (self.auditEvidence.any fun evidence => !evidence.validate.toBool) ||
      (self.journal.batches.mapIdx
        (PublicationTransactionJournal.invalidBatch transactionId destination)).any id)
    s!"publication target journal {destination.debug} is invalid"
  self.permissionEvidence.validate sealing
  invalid (!eqIgnoreAsciiCase self.permissionEvidence.repository self.authorizedRepository)
    s!"publication target journal {destination.debug} permission repository is invalid"
  lifted (PublicationTransactionJournal.validateCommits self.journal)

end AuthorizedTarget

namespace AuthorizedTransactionJournal

def target (self : AuthorizedTransactionJournal) : PublicationTarget :=
  match (self.targets .privateShard).isSome, (self.targets .publicShard).isSome with
  | true, true => .both
  | true, false => .privateTarget
  | false, true => .publicTarget
  | false, false => .none

def envelope (self : AuthorizedTransactionJournal) : IdempotencyEnvelope where
  schemaVersion := 1
  semanticDigest := self.semanticDigest
  targetManifestDigests := self.targetManifestDigests
  payloadDigest := self.payloadDigest
  policyDigest := self.policyDigest
  target := self.target
  repositories destination := (self.targets destination).map (·.journal.repository)
  authorizedRepositories destination := (self.targets destination).map (·.authorizedRepository)
  shardIds destination := (self.targets destination).map (·.journal.shardId)
  branches destination := (self.targets destination).map (·.journal.branch)

/-- The checks of `validate` before its loop over the targets. -/
def identify (self : AuthorizedTransactionJournal) (sealing : Sealing) : JournalResult Unit := do
  invalid (self.schemaVersion == 0 || self.transactionId != self.idempotencyKey.text ||
      !self.idempotencyKey.validate || !self.semanticDigest.validate ||
      !self.payloadDigest.validate ||
      !self.policyDigest.validate || self.target == .none)
    "publication transaction journal identity is invalid"
  let expected ← sealing.idempotencyKey self.envelope
  invalid (expected != self.idempotencyKey)
    "publication journal no longer matches its idempotency identity"
  invalid (self.targetManifestDigests.keys != destinations self.target ||
      self.targetManifestDigests.anyValue fun digest => !digest.validate)
    "publication target manifest identities do not match the targets"

def validateTargets (self : AuthorizedTransactionJournal) (sealing : Sealing) :
    List PublicationDestination → JournalResult Unit
  | [] => .ok ()
  | destination :: rest => do
    (self.targets destination).forM fun target =>
      target.validate sealing self.transactionId destination
    self.validateTargets sealing rest

def validate (self : AuthorizedTransactionJournal) (sealing : Sealing) : JournalResult Unit := do
  self.identify sealing
  self.validateTargets sealing (destinations .both)

/-- What `new` is given. -/
structure Request where
  semanticDigest : ContentDigest
  targetManifestDigests : ByDestination ContentDigest
  payloadDigest : ContentDigest
  policyDigest : ContentDigest
  target : PublicationTarget
  repositories : ByDestination String
  authorizedRepositories : ByDestination String
  permissionEvidence : ByDestination RepositoryPermissionEvidence
  shardIds : ByDestination String
  branches : ByDestination String
  expectedHeads : ByDestination String
  batches : List PublicationBatchPlan

/-- A planned target of `new`. -/
def newTarget (request : Request) (sealing : Sealing) (destination : PublicationDestination) :
    JournalResult AuthorizedTarget := do
  let repository := (request.repositories destination).getD ""
  let authorizedRepository := (request.authorizedRepositories destination).getD ""
  let permissionEvidence ← lifted (require (request.permissionEvidence destination)
    (.invalidManifest "publication target permission evidence is missing"))
  let shardId := (request.shardIds destination).getD ""
  let branch := (request.branches destination).getD ""
  let expectedHead := (request.expectedHeads destination).getD ""
  invalid (blank repository || blank authorizedRepository || blank shardId || blank branch ||
    blank expectedHead)
    "publication target repository, shard, branch, and expected head are required"
  permissionEvidence.validate sealing
  invalid (!eqIgnoreAsciiCase permissionEvidence.repository authorizedRepository)
    "permission evidence repository does not match publication authority"
  .ok { authorizedRepository, permissionEvidence, auditEvidence := none
        journal := PublicationTransactionJournal.plannedTarget destination
          { repository, shardId, branch, expectedHead } request.batches }

def newTargets (request : Request) (sealing : Sealing) :
    List PublicationDestination → JournalResult (ByDestination AuthorizedTarget)
  | [] => .ok fun _ => none
  | destination :: rest => do
    let target ← newTarget request sealing destination
    let targets ← newTargets request sealing rest
    .ok (Function.update targets destination (some target))

def new (request : Request) (sealing : Sealing) : JournalResult AuthorizedTransactionJournal := do
  invalid ([request.semanticDigest, request.payloadDigest, request.policyDigest].any fun digest =>
    !digest.validate)
    "publication transaction contains an invalid identity"
  let required := destinations request.target
  invalid (required.isEmpty || request.repositories.keys != required ||
      request.authorizedRepositories.keys != required ||
      request.permissionEvidence.keys != required ||
      request.shardIds.keys != required || request.branches.keys != required ||
      request.expectedHeads.keys != required || request.targetManifestDigests.keys != required)
    "publication repositories, shards, branches, and heads must exactly match the requested targets"
  invalid (request.targetManifestDigests.anyValue fun digest => !digest.validate)
    "publication target manifest digest is invalid"
  let idempotencyKey ← sealing.idempotencyKey {
    schemaVersion := 1
    semanticDigest := request.semanticDigest, targetManifestDigests := request.targetManifestDigests
    payloadDigest := request.payloadDigest, policyDigest := request.policyDigest
    target := request.target, repositories := request.repositories
    authorizedRepositories := request.authorizedRepositories
    shardIds := request.shardIds, branches := request.branches }
  let targets ← newTargets request sealing required
  let journal : AuthorizedTransactionJournal := {
    schemaVersion := 1, transactionId := idempotencyKey.text, idempotencyKey
    semanticDigest := request.semanticDigest, targetManifestDigests := request.targetManifestDigests
    payloadDigest := request.payloadDigest, policyDigest := request.policyDigest, targets }
  journal.validate sealing
  .ok journal

/-! ## Runs -/

/-- An operation on one target of the journal. -/
def operate (self : AuthorizedTransactionJournal) (destination : PublicationDestination)
    (operation : TargetOperation) : Result AuthorizedTransactionJournal := do
  let target ← require (self.targets destination)
    (.invalidTransition s!"transaction has no {destination.debug} publication target")
  let journal ← target.journal.apply operation
  .ok { self with targets := Function.update self.targets destination (some { target with
    journal }) }

abbrev Command := PublicationDestination × TargetOperation

def advance (self : AuthorizedTransactionJournal) (command : Command) :
    AuthorizedTransactionJournal :=
  (self.operate command.1 command.2).toOption.getD self

def run (self : AuthorizedTransactionJournal) (commands : List Command) :
    AuthorizedTransactionJournal :=
  commands.foldl advance self

def targetState (self : AuthorizedTransactionJournal) (destination : PublicationDestination) :
    Option PublicationTargetState :=
  (self.targets destination).map (·.journal.state)

end AuthorizedTransactionJournal

end Xcelerator.Cache.Publication
