import Xcelerator.Foundations.Machine
import Xcelerator.Foundations.RemoteRefs
import Xcelerator.Cache.Basic

/-! # Private-shard publication leases

The coordination branch holds two documents, the state and the lock. Every
function of the module that talks to the remote is one operation here, with the
remote before and after it, the clock it reads and the identifiers of the
commits it makes as arguments; an operation that is refused leaves no new
remote. Documents are stored as values: their JSON and its size bound are left
out, and a read that fails for such a reason is a publisher that gives up. -/

namespace Xcelerator.Cache.PrivateCoordination
open Xcelerator.Foundations.Machine (ok_bind bind_eq_ok)
open Xcelerator.Foundations.RemoteRefs

/-! ## Records -/

def privateCoordinationBranch : String := "xcelerator-coordination"
def privateCoordinationStatePath : String := "coordination/state.json"
def privatePublicationLockPath : String := "coordination/publication-lock.json"

/-- `CARGO_PKG_VERSION`. -/
def toolkitVersion : String := "0.17.0"

structure CoordinationState where
  schemaVersion : Nat
  fencingGeneration : Nat
  lastCompletedTransaction : Option String
  lastReleasedAtUnixSeconds : Option Nat
deriving DecidableEq, Repr

def CoordinationState.validate (self : CoordinationState) : Result Unit := do
  check (self.schemaVersion != 1 || self.fencingGeneration == 0)
    (.invalidManifest "private publication coordination state is invalid")
  check (self.lastCompletedTransaction.any blank)
    (.invalidManifest "private coordination completed transaction is empty")

structure PublicationLock where
  schemaVersion : Nat
  ownerRunId : String
  publicationTransactionId : String
  githubPrincipal : String
  toolkitVersion : String
  instanceFingerprint : ContentDigest
  processId : Nat
  fencingGeneration : Nat
  observedMainHead : Revision
  acquiredAtUnixSeconds : Nat
  heartbeatAtUnixSeconds : Nat
  leaseExpiresAtUnixSeconds : Nat
deriving DecidableEq, Repr

def PublicationLock.validate (self : PublicationLock) : Result Unit :=
  check (self.schemaVersion != 1 || blank self.ownerRunId || blank self.publicationTransactionId ||
      blank self.githubPrincipal || blank self.toolkitVersion ||
      !self.instanceFingerprint.validate ||
      self.processId == 0 || self.fencingGeneration == 0 || !validRevision self.observedMainHead ||
      self.acquiredAtUnixSeconds == 0 ||
      decide (self.heartbeatAtUnixSeconds < self.acquiredAtUnixSeconds) ||
      decide (self.leaseExpiresAtUnixSeconds ≤ self.heartbeatAtUnixSeconds))
    (.invalidManifest "private publication lock record is invalid")

def PublicationLock.expiredAt (self : PublicationLock) (now clockSkewGraceSeconds : Nat) : Bool :=
  (checkedAdd self.leaseExpiresAtUnixSeconds clockSkewGraceSeconds).any (· ≤ now)

structure LeasePolicy where
  leaseSeconds : Nat
  clockSkewGraceSeconds : Nat
  initialPollSeconds : Nat
  maximumPollSeconds : Nat
  maximumWaitSeconds : Nat
deriving DecidableEq, Repr

def LeasePolicy.validate (self : LeasePolicy) : Result Unit :=
  check (decide (self.leaseSeconds < 60) ||
    decide (self.leaseSeconds < self.clockSkewGraceSeconds) ||
      self.initialPollSeconds == 0 || decide (self.maximumPollSeconds < self.initialPollSeconds) ||
      decide (self.maximumWaitSeconds < self.initialPollSeconds))
    (.invalidManifest "private publication lease policy is invalid")

structure LeaseOwner where
  ownerRunId : String
  githubPrincipal : String
  instanceFingerprint : ContentDigest
  processId : Nat
deriving DecidableEq, Repr

structure Lease where
  repository : String
  mainBranch : String
  coordinationBranch : String
  coordinationHead : Revision
  state : CoordinationState
  lock : PublicationLock
deriving DecidableEq, Repr

/-- A committed file: one of the two coordination documents, or shard content. -/
inductive Document where
  | state (state : CoordinationState)
  | lock (lock : PublicationLock)
  | content (digest : ContentDigest)
deriving DecidableEq, Repr

abbrev Store := Remote Revision RefName String Document
abbrev CommitRequest := Request Revision RefName String Document

def lockRecord (owner : LeaseOwner) (transactionId : String) (generation : Nat)
    (mainHead : Revision)
    (acquiredAt now : Nat) (policy : LeasePolicy) : Result PublicationLock := do
  let expires ← require (checkedAdd now policy.leaseSeconds)
    (.resourceLimit "private publication lease expiration exceeds u64")
  let record : PublicationLock := {
    schemaVersion := 1
    ownerRunId := owner.ownerRunId
    publicationTransactionId := transactionId
    githubPrincipal := owner.githubPrincipal
    toolkitVersion
    instanceFingerprint := owner.instanceFingerprint
    processId := owner.processId
    fencingGeneration := generation
    observedMainHead := mainHead
    acquiredAtUnixSeconds := acquiredAt
    heartbeatAtUnixSeconds := now
    leaseExpiresAtUnixSeconds := expires }
  record.validate
  return record

/-! ## Acquisition -/

/-- What an acquiring publisher was started with. -/
structure Acquisition where
  repository : String
  mainBranch : String
  owner : LeaseOwner
  transactionHint : String
  policy : LeasePolicy
deriving DecidableEq, Repr

def Acquisition.validate (self : Acquisition) : Result Unit := do
  self.policy.validate
  check (blank self.repository || blank self.mainBranch || blank self.transactionHint)
    (.invalidManifest "private publication lease target is incomplete")

def Acquisition.main (self : Acquisition) : RefName := ⟨self.repository, self.mainBranch⟩
def Acquisition.coordination (self : Acquisition) : RefName :=
  ⟨self.repository, privateCoordinationBranch⟩

/-- The lease an accepted acquisition returns. -/
def Acquisition.lease (self : Acquisition) (head : Revision) (state : CoordinationState)
    (lock : PublicationLock) : Lease where
  repository := self.repository
  mainBranch := self.mainBranch
  coordinationBranch := privateCoordinationBranch
  coordinationHead := head
  state
  lock

/-- Both documents, as an acquisition stages them. -/
def leaseParts (state : CoordinationState) (lock : PublicationLock) : Edit String Document where
  parts := [(privateCoordinationStatePath, .state state), (privatePublicationLockPath, .lock lock)]
  deletePaths := []

def initialState : CoordinationState where
  schemaVersion := 1
  fencingGeneration := 1
  lastCompletedTransaction := none
  lastReleasedAtUnixSeconds := none

/-- The branch of the loop for an absent coordination ref; `none` where another
publisher created it first. -/
def createLease (self : Acquisition) (store : Store) (mainHead : Revision) (now : Nat)
    (id : Revision) :
    Result (Option (Store × Lease)) := do
  let lock ← lockRecord self.owner self.transactionHint initialState.fencingGeneration
    mainHead now now
    self.policy
  match store.createIfAbsent self.coordination (leaseParts initialState lock) id with
  | some later => return some (later, self.lease id initialState lock)
  | none => return none

def readState (store : Store) (head : Revision) : Result CoordinationState :=
  match store.file head privateCoordinationStatePath with
  | some (.state state) => .ok state
  | _ => .error (.notFound privateCoordinationStatePath)

/-- `read_optional_json` of the lock. -/
def readLock (store : Store) (head : Revision) : Result (Option PublicationLock) :=
  match store.file head privatePublicationLockPath with
  | none => .ok none
  | some (.lock lock) => .ok (some lock)
  | some _ => .error (.invalidManifest privatePublicationLockPath)

/-- The checks an existing lock must pass before its lease is looked at. -/
def checkExisting (state : CoordinationState) (existing : Option PublicationLock) : Result Unit :=
  match existing with
  | none => .ok ()
  | some lock => do
    lock.validate
    check (lock.fencingGeneration != state.fencingGeneration)
      (.invalidManifest "private lock generation does not match coordination state")

/-- The branch of the loop for a coordination ref seen at `head`: what it commits,
or `none` where the lease is held and the loop waits. -/
def takeoverRecords (self : Acquisition) (store : Store) (mainHead : Revision) (now : Nat)
    (head : Revision) : Result (Option (CoordinationState × PublicationLock)) := do
  let state ← readState store head
  state.validate
  let existing ← readLock store head
  checkExisting state existing
  if existing.all fun lock => lock.expiredAt now self.policy.clockSkewGraceSeconds then do
    let generation ← require (checkedAdd state.fencingGeneration 1)
      (.resourceLimit "private publication fencing generation exhausted")
    let lock ← lockRecord self.owner self.transactionHint generation mainHead now now self.policy
    return some ({ state with fencingGeneration := generation }, lock)
  else return none

/-- The acquiring compare-and-swap; `none` where the loop goes round again. -/
def takeoverLease (self : Acquisition) (store : Store) (mainHead : Revision) (now : Nat)
    (head id : Revision) : Result (Option (Store × Lease)) := do
  match ← takeoverRecords self store mainHead now head with
  | none => return none
  | some (state, lock) =>
    match store.compareAndSwap ⟨self.coordination, head, leaseParts state lock⟩ id with
    | some later => return some (later, self.lease id state lock)
    | none => return none

/-! ## Renewal, batches, release -/

def renewedLockAt (lock : PublicationLock) (observedMainHead : Revision) (policy : LeasePolicy)
    (wallTime : Nat) : Result PublicationLock := do
  policy.validate
  lock.validate
  check (!validRevision observedMainHead)
    (.invalidManifest "private lease renewal observed an invalid main head")
  let now := max wallTime lock.heartbeatAtUnixSeconds
  let expires ← require (checkedAdd now policy.leaseSeconds)
    (.resourceLimit "private publication lease expiration exceeds u64")
  let renewed := { lock with
    observedMainHead
    heartbeatAtUnixSeconds := now
    leaseExpiresAtUnixSeconds := expires }
  renewed.validate
  return renewed

def Lease.coordination (self : Lease) : RefName := ⟨self.repository, self.coordinationBranch⟩

def preparePrivateLeaseRenewal (lease : Lease) (observedMainHead : Revision) (policy : LeasePolicy)
    (wallTime : Nat) : Result (CommitRequest × PublicationLock) := do
  let renewed ← renewedLockAt lease.lock observedMainHead policy wallTime
  return ({
    branch := lease.coordination
    expectedHead := lease.coordinationHead
    edit := { parts := [(privatePublicationLockPath, .lock renewed)], deletePaths := [] } },
      renewed)

/-- The head a conflict reports. -/
def reported (store : Store) (ref : RefName) : String := (store.refs ref).getD ""

def renewPrivatePublicationLease (store : Store) (lease : Lease) (observedMainHead : Revision)
    (policy : LeasePolicy) (wallTime : Nat) (id : Revision) : Result (Store × Lease) := do
  let (request, renewed) ← preparePrivateLeaseRenewal lease observedMainHead policy wallTime
  let later ← require (store.compareAndSwap request id) (.invalidTransition
    ("private publication lease was lost at coordination head " ++ reported store request.branch))
  return (later, { lease with coordinationHead := id, lock := renewed })

def commitPrivateBatchAtomically (store : Store) (lease : Lease) (mainRequest : CommitRequest)
    (policy : LeasePolicy) (wallTime : Nat) (mainId coordinationId : Revision) :
    Result (Store × Lease) := do
  check (mainRequest.branch.repository != lease.repository ||
    mainRequest.branch.branch != lease.mainBranch ||
      mainRequest.expectedHead != lease.lock.observedMainHead)
    (.invalidTransition "private publication batch does not match its lease target and observed head")
  let (coordinationRequest, renewed) ←
    preparePrivateLeaseRenewal lease mainRequest.expectedHead policy wallTime
  let later ← require (store.compareAndSwapBoth mainRequest coordinationRequest mainId
    coordinationId)
    (.invalidTransition ("private publication lost its lease or shard head: " ++
      reported store mainRequest.branch ++ ", " ++ reported store coordinationRequest.branch))
  return (later, { lease with
    coordinationHead := coordinationId
    lock := { renewed with observedMainHead := mainId } })

/-- The release of a transport with compare-and-swap deletion. -/
def releasePrivatePublicationLease (store : Store) (lease : Lease) : Result Store :=
  match store.refs lease.coordination with
  | none => .error (.invalidTransition
      "refused to release a private publication lease whose coordination branch no longer exists")
  | some currentHead =>
    require (store.deleteIfHead lease.coordination lease.coordinationHead)
      (.invalidTransition ("refused to release a superseded private publication lease at " ++
        currentHead))

/-- The state a release by commit records. -/
def releasedState (lease : Lease) (completed : Bool) (now : Nat) : CoordinationState :=
  { lease.state with
    lastCompletedTransaction :=
      if completed then some lease.lock.publicationTransactionId else
        lease.state.lastCompletedTransaction
    lastReleasedAtUnixSeconds := some now }

/-- The release of a transport without it. -/
def releaseByCommit (store : Store) (lease : Lease) (completed : Bool) (now : Nat) (id : Revision) :
    Result Store := do
  let state := releasedState lease completed now
  state.validate
  require (store.compareAndSwap {
      branch := lease.coordination
      expectedHead := lease.coordinationHead
      edit := {
        parts := [(privateCoordinationStatePath, .state state)]
        deletePaths := [privatePublicationLockPath] } } id)
    (.invalidTransition ("refused to release a superseded private publication lease at " ++
      reported store lease.coordination))

end Xcelerator.Cache.PrivateCoordination
