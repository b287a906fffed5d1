import Mathlib
import Xcelerator.Foundations.RemoteRefs
import Xcelerator.Cache.Topology
import Xcelerator.Cache.CapacityLedger

/-! # Topology rollover

The writable shard of a family route is replaced by its audited successor: a
plan is made from the registry the remote holds, and its execution commits the
replacement by compare-and-swap. Every read takes the remote as it was at that
moment, and other parties may have moved it in between. Deserialization of the
registry, the JSON of evidence and plan, cancellation, authority and local
staging are arguments. -/

namespace Xcelerator.Cache.TopologyRollover
open Xcelerator.Foundations.Machine (bind_eq_ok ok_bind)
open Xcelerator.Foundations.RemoteRefs
open Xcelerator.Core.ConfigResolution (Value)
open Xcelerator.Cache.Digest Xcelerator.Cache.Topology
open Xcelerator.Cache.Publication (CapacityLedger githubSafeRepositoryPayloadBytes)
open Xcelerator.Cache.CapacityLedger (ledgerValue)

abbrev Bytes := List UInt8

/-- Files are bytes. -/
abbrev Store := Remote Revision RefName String Bytes

/-! ## Readiness -/

structure ShardCapacityAudit where
  ledgerCoversReferencedTransport : Bool
  durableRecordCoverageComplete : Bool
  ledgerMatchesDurablePayloadHistory : Bool
  exactHistoryRebuildAvailable : Bool
deriving DecidableEq, Repr

/-- The fields that readiness checks; of the lists only their lengths. -/
structure RemoteShardAuditReport where
  schemaVersion : Nat
  repository : String
  branch : String
  revision : Revision
  shardId : String
  indexEntryCount : Nat
  completeArtifactCount : Nat
  logicalPayloadBytes : Nat
  uniqueTransportObjectCount : Nat
  uniqueTransportObjectBytes : Nat
  unreferencedManifestCount : Nat
  unreferencedEncodingCount : Nat
  unreferencedReceiptCount : Nat
  unreferencedObjectCount : Nat
  reconstructedPartitionCount : Nat
  capacityLedger : Option CapacityLedger
  capacity : ShardCapacityAudit
  issueCount : Nat
deriving DecidableEq, Repr

structure SuccessorShardReadinessEvidence where
  schemaVersion : Nat
  endpointId : String
  repositoryOwner : String
  repositoryName : String
  visibility : CacheVisibility
  ownershipAndVisibilityEvidenceDigest : ContentDigest
  branchProtectionEvidenceDigest : ContentDigest
  trustMetadataEvidenceDigest : ContentDigest
  readWriteHealthEvidenceDigest : ContentDigest
  reviewerApprovalDigest : ContentDigest
  auditedAtUnixSeconds : Nat
  audit : RemoteShardAuditReport
deriving DecidableEq, Repr

structure TopologyRolloverPlan where
  schemaVersion : Nat
  authorizedRegistryRepository : String
  registryRepository : String
  registryBranch : String
  registryPath : String
  expectedHead : Revision
  observedRegistryDigest : ContentDigest
  priorTopologyDigest : ContentDigest
  replacementRegistryDigest : ContentDigest
  replacementSizeBytes : Nat
  family : String
  visibility : CacheVisibility
  priorWritableShardId : String
  successorShardId : String
  successorReadinessDigest : ContentDigest
  replacement : TopologyRegistry
deriving DecidableEq, Repr

/-- What the outside supplies: SHA-256, the texts of floats, and (de)serialization. -/
structure Outside where
  sha256 : Sha256
  floatText : UInt64 → String
  evidenceValue : SuccessorShardReadinessEvidence → Value
  planValue : TopologyRolloverPlan → Value
  parseRegistry : Bytes → Result TopologyRegistry

namespace Outside
variable (o : Outside)

def canonical (value : Value) : Result Bytes := canonicalBytes o.floatText value

def digestOf (value : Value) : Result ContentDigest := do
  let bytes ← o.canonical value
  return contentDigest o.sha256 bytes

end Outside

section
variable (o : Outside)

def emptyAndHealthy (audit : RemoteShardAuditReport) (ledger : CapacityLedger) : Bool :=
  audit.issueCount == 0 && audit.indexEntryCount == 0 && audit.completeArtifactCount == 0 &&
    audit.logicalPayloadBytes == 0 && audit.uniqueTransportObjectCount == 0 &&
    audit.uniqueTransportObjectBytes == 0 && audit.unreferencedManifestCount == 0 &&
    audit.unreferencedEncodingCount == 0 && audit.unreferencedReceiptCount == 0 &&
    audit.unreferencedObjectCount == 0 && audit.reconstructedPartitionCount == 0 &&
    ledger.shardId == audit.shardId &&
    ledger.hardCapacityBytes == githubSafeRepositoryPayloadBytes &&
    ledger.firstSeenImmutablePayloadBytes == 0 && ledger.abandonedReachableBytes == 0 &&
    ledger.lastReconciledCommit == audit.revision &&
    audit.capacity.ledgerCoversReferencedTransport &&
    audit.capacity.durableRecordCoverageComplete &&
    audit.capacity.ledgerMatchesDurablePayloadHistory &&
    audit.capacity.exactHistoryRebuildAvailable

def SuccessorShardReadinessEvidence.validate (evidence : SuccessorShardReadinessEvidence) :
    Result ContentDigest := do
  let ledger ← require evidence.audit.capacityLedger
    (.invalidManifest "successor audit has no capacity ledger")
  CapacityLedger.validate ledger
  check (evidence.schemaVersion != 1 || blank evidence.endpointId ||
    blank evidence.repositoryOwner ||
      blank evidence.repositoryName ||
      [evidence.ownershipAndVisibilityEvidenceDigest, evidence.branchProtectionEvidenceDigest,
        evidence.trustMetadataEvidenceDigest, evidence.readWriteHealthEvidenceDigest,
        evidence.reviewerApprovalDigest].any (fun digest => !digest.validate) ||
      evidence.auditedAtUnixSeconds == 0 || evidence.audit.schemaVersion != 1 ||
      blank evidence.audit.repository ||
      blank evidence.audit.branch || blank evidence.audit.revision ||
      blank evidence.audit.shardId ||
      !emptyAndHealthy evidence.audit ledger)
    (.invalidManifest "successor readiness does not prove an empty, governed, healthy shard")
  o.digestOf (o.evidenceValue evidence)

/-! ## Plans -/

namespace TopologyRolloverPlan

def validate (plan : TopologyRolloverPlan) : Result Unit := do
  plan.replacement.validate
  let bytes ← o.canonical plan.replacement.toValue
  check (plan.schemaVersion != 1 || blank plan.authorizedRegistryRepository ||
    blank plan.registryRepository ||
      blank plan.registryBranch || blank plan.registryPath || blank plan.expectedHead ||
      blank plan.family ||
      blank plan.priorWritableShardId || blank plan.successorShardId ||
      !plan.observedRegistryDigest.validate ||
      !plan.priorTopologyDigest.validate || !plan.successorReadinessDigest.validate ||
      plan.replacementRegistryDigest != contentDigest o.sha256 bytes ||
      plan.replacementSizeBytes != bytes.length ||
      plan.replacement.previousRegistryDigest != some plan.priorTopologyDigest)
    (.invalidManifest "topology rollover plan is incomplete or digest-inconsistent")
  let route ← require (plan.replacement.route plan.family plan.visibility)
    (.invalidManifest "replacement route is absent")
  let prior := route.orderedShards.find? fun shard => shard.shardId == plan.priorWritableShardId
  let successor := route.orderedShards.find? fun shard => shard.shardId == plan.successorShardId
  check (!(prior.any fun shard => shard.status == .readOnly &&
    shard.successorShardId == some plan.successorShardId) ||
      !(successor.any fun shard => shard.status == .writable))
    (.invalidTransition "rollover replacement does not switch the declared successor")

def digest (plan : TopologyRolloverPlan) : Result ContentDigest := do
  plan.validate o
  o.digestOf (o.planValue plan)

end TopologyRolloverPlan

/-- The arguments of the planner. -/
structure RolloverRequest where
  authorizedRegistryRepository : String
  registryRepository : String
  registryBranch : String
  registryPath : String
  maximumRegistryBytes : Nat
  topologyTrust : TopologyTrustPolicy
  family : String
  visibility : CacheVisibility
  priorWritableShardId : String
  successor : SuccessorShardReadinessEvidence
deriving DecidableEq, Repr

/-- The remote at each of the planner's four reads, and whether the token was cancelled. -/
structure PlanReads where
  cancelled : Result Unit
  successorRef : Store
  successorLedger : Store
  registryRef : Store
  registryDocument : Store

def readRef (store : Store) (repository branch : String) : Result Revision :=
  require (store.refs ⟨repository, branch⟩) (.notFound branch)

def immutablePathDigest (store : Store) (revision : Revision) (path : String) :
    Option ContentDigest :=
  (store.file revision path).map (contentDigest o.sha256)

/-- `RemoteShardReader::read_json`: the registry and the digest of its bytes. -/
def readRegistry (store : Store) (revision : Revision) (path : String) (maximumBytes : Nat) :
    Result (TopologyRegistry × ContentDigest) := do
  check (maximumBytes == 0) (.resourceLimit "remote metadata limit must be positive")
  let bytes ← require (store.file revision path) (.notFound path)
  check (decide (bytes.length > maximumBytes))
    (.resourceLimit "remote document exceeds its byte bound")
  let registry ← o.parseRegistry bytes
  return (registry, contentDigest o.sha256 bytes)

def defaultCapacityLedgerPath : String := "ledger/capacity.json"

def modifyFirst {α : Type} (p : α → Bool) (f : α → α) : List α → List α
  | [] => []
  | x :: xs => if p x then f x :: xs else x :: modifyFirst p f xs

def withStatus (status : TopologyShardStatus) (shard : TopologyShardRoute) : TopologyShardRoute :=
  { shard with status }

/-- The registry after the switch of two shards of one route, by their positions. -/
def switched (registry : TopologyRegistry) (family : String) (visibility : CacheVisibility)
    (priorIndex successorIndex generation : Nat) (priorDigest : ContentDigest) : TopologyRegistry :=
  { registry with
    generation
    previousRegistryDigest := some priorDigest
    familyRoutes := modifyFirst (fun route => route.family == family &&
      route.visibility == visibility)
      (fun route => { route with
        orderedShards := (route.orderedShards.modify priorIndex (withStatus .readOnly)).modify
          successorIndex
          (withStatus .writable) }) registry.familyRoutes }

/-- The first shard of an identifier, with its position. -/
def shardAt (route : ArtifactFamilyRoute) (shardId : String) : Option (Nat × TopologyShardRoute) :=
  (route.orderedShards.findIdx? fun shard => shard.shardId == shardId).bind fun i =>
    (route.orderedShards[i]?).map fun shard => (i, shard)

def planTopologyRollover (request : RolloverRequest) (reads : PlanReads) :
    Result TopologyRolloverPlan := do
  let successor := request.successor
  let successorReadinessDigest ← successor.validate o
  reads.cancelled
  let successorHead ← readRef reads.successorRef successor.audit.repository successor.audit.branch
  check (successorHead != successor.audit.revision)
    (.invalidTransition "successor shard advanced after its readiness audit")
  let ledger ← require successor.audit.capacityLedger
    (.invalidManifest "successor audit has no capacity ledger")
  let expectedLedgerDigest ← o.digestOf (ledgerValue ledger)
  let currentLedgerDigest :=
    immutablePathDigest o reads.successorLedger successor.audit.revision defaultCapacityLedgerPath
  check (currentLedgerDigest != some expectedLedgerDigest)
    (.digestMismatch expectedLedgerDigest.text
      ((currentLedgerDigest.map ContentDigest.text).getD "missing"))
  let expectedHead ← readRef reads.registryRef request.registryRepository request.registryBranch
  let document ← readRegistry o reads.registryDocument expectedHead request.registryPath
    request.maximumRegistryBytes
  let priorTopologyDigest ← request.topologyTrust.verify o.sha256 o.floatText document.1
  check (document.2 != priorTopologyDigest)
    (.digestMismatch priorTopologyDigest.text document.2.text)
  let route ← require (document.1.route request.family request.visibility)
    (.invalidTransition "rollover family route is absent")
  let prior ← require (shardAt route request.priorWritableShardId)
    (.invalidTransition "prior writable shard is absent")
  let successorId ← require prior.2.successorShardId
    (.invalidTransition "prior shard has no successor")
  let next ← require (shardAt route successorId) (.invalidTransition "declared successor is absent")
  check (prior.2.status != .writable || next.2.status != .readOnly ||
      next.2.sequence != min (prior.2.sequence + 1) (2 ^ 32 - 1) ||
      next.2.endpointId != successor.endpointId ||
      next.2.shardId != successor.audit.shardId || successor.visibility != request.visibility)
    (.invalidTransition "successor identity, order, visibility, or preactivation state is invalid")
  let generation ← require (checkedAdd document.1.generation 1)
    (.invalidTransition "topology generation overflow")
  let replacement := switched document.1 request.family request.visibility prior.1 next.1 generation
    priorTopologyDigest
  replacement.validate
  let bytes ← o.canonical replacement.toValue
  check (decide (bytes.length > request.maximumRegistryBytes))
    (.resourceLimit "replacement topology exceeds its configured byte bound")
  let plan : TopologyRolloverPlan :=
    { schemaVersion := 1
      authorizedRegistryRepository := request.authorizedRegistryRepository
      registryRepository := request.registryRepository
      registryBranch := request.registryBranch
      registryPath := request.registryPath
      expectedHead
      observedRegistryDigest := document.2
      priorTopologyDigest
      replacementRegistryDigest := contentDigest o.sha256 bytes
      replacementSizeBytes := bytes.length
      family := request.family
      visibility := request.visibility
      priorWritableShardId := request.priorWritableShardId
      successorShardId := successorId
      successorReadinessDigest
      replacement }
  plan.validate o
  return plan

/-! ## Execution -/

inductive TopologyRolloverOutcome where
  | refConflict (currentHead : Option Revision)
  | committedAndVerified (commitId : Revision) (planDigest replacementRegistryDigest :
      ContentDigest)
deriving DecidableEq, Repr

/-- The remote at each remote call of one execution, with the identifier that the commit would
get. -/
structure ExecuteCalls where
  authorized : Result Unit
  cancelled : Result Unit
  staged : Result Unit
  headRead : Store
  digestRead : Store
  commitTime : Store
  commitId : Revision

def rolloverRequest (plan : TopologyRolloverPlan) (bytes : Bytes) :
    Request Revision RefName String Bytes where
  branch := ⟨plan.registryRepository, plan.registryBranch⟩
  expectedHead := plan.expectedHead
  edit := { parts := [(plan.registryPath, bytes)], deletePaths := [] }

/-- Everything before the compare-and-swap; no bytes when the branch has moved on. -/
def prepareRollover (plan : TopologyRolloverPlan) (calls : ExecuteCalls) :
    Result (Option Bytes × ContentDigest) := do
  plan.validate o
  calls.authorized
  calls.cancelled
  let currentHead ← readRef calls.headRead plan.registryRepository plan.registryBranch
  if currentHead != plan.expectedHead then return (none, plan.observedRegistryDigest)
  else do
    let currentDigest ← require
      (immutablePathDigest o calls.digestRead plan.expectedHead plan.registryPath)
      (.notFound plan.registryPath)
    check (currentDigest != plan.observedRegistryDigest)
      (.digestMismatch plan.observedRegistryDigest.text currentDigest.text)
    let bytes ← o.canonical plan.replacement.toValue
    calls.staged
    let planDigest ← plan.digest o
    return (some bytes, planDigest)

/-- The outcome, and the remote right after the compare-and-swap when it was called. -/
def executeTopologyRollover (plan : TopologyRolloverPlan) (calls : ExecuteCalls) :
    Result TopologyRolloverOutcome × Store :=
  match prepareRollover o plan calls with
  | .error error => (.error error, calls.commitTime)
  | .ok (none, _) =>
    (.ok (.refConflict (calls.headRead.refs ⟨plan.registryRepository, plan.registryBranch⟩)),
      calls.commitTime)
  | .ok (some bytes, planDigest) =>
    match calls.commitTime.compareAndSwap (rolloverRequest plan bytes) calls.commitId with
    | none =>
      (.ok (.refConflict (calls.commitTime.refs ⟨plan.registryRepository, plan.registryBranch⟩)),
        calls.commitTime)
    | some committed =>
      -- the committed part is read back before success is reported
      if immutablePathDigest o committed calls.commitId plan.registryPath =
          some (contentDigest o.sha256 bytes) then
        (.ok (.committedAndVerified calls.commitId planDigest plan.replacementRegistryDigest),
          committed)
      else (.error (.digestMismatch (contentDigest o.sha256 bytes).text "missing"), committed)

end

/-! ## What a plan changes -/

section
variable {α κ : Type} {key : α → κ} {f : α → α}

theorem modifyFirst_eq_map {p : α → Bool} {k : κ} (hp : ∀ x, p x = true ↔ key x = k) {xs : List α}
    (h : (xs.map key).Nodup) : modifyFirst p f xs = xs.map fun x => if p x then f x else x := by
  induction xs with
  | nil => rfl
  | cons x xs ih =>
    rw [List.map_cons, List.nodup_cons] at h
    rw [modifyFirst, List.map_cons]
    by_cases hx : p x = true
    · rw [if_pos hx, if_pos hx]
      -- no later key is the same
      have hrest : ∀ y ∈ xs, (if p y then f y else y) = y := by
        intro y hy
        have hne : ¬ p y = true := by
          intro hpy
          exact h.1 (List.mem_map.mpr ⟨y, hy, ((hp y).mp hpy).trans ((hp x).mp hx).symm⟩)
        rw [if_neg hne]
      rw [List.map_congr_left hrest, List.map_id']
    · rw [if_neg hx, if_neg hx, ih h.2]

theorem modify_eq_map [DecidableEq κ] {xs : List α} (h : (xs.map key).Nodup) {i : Nat}
    (hi : i < xs.length) :
    xs.modify i f = xs.map fun x => if key x = key xs[i] then f x else x := by
  refine List.ext_getElem (by simp) fun j hj hj' => ?_
  have hjx : j < xs.length := by simpa using hj
  rw [List.getElem_modify, List.getElem_map]
  have hkeys : key xs[j] = key xs[i] ↔ j = i := by
    have hinj := @List.Nodup.getElem_inj_iff _ (xs.map key) h j (by simpa using hjx) i
      (by simpa using hi)
    simpa using hinj
  by_cases hij : i = j
  · subst hij
    rw [if_pos rfl, if_pos rfl]
  · rw [if_neg hij, if_neg (fun heq => hij (hkeys.mp heq).symm)]

end

def switchShard (priorId successorId : String) (shard : TopologyShardRoute) : TopologyShardRoute :=
  if shard.shardId = priorId then withStatus .readOnly shard
  else if shard.shardId = successorId then withStatus .writable shard
  else shard

def switchRoute (family : String) (visibility : CacheVisibility) (priorId successorId : String)
    (route : ArtifactFamilyRoute) : ArtifactFamilyRoute :=
  if route.family = family ∧ route.visibility = visibility then
    { route with orderedShards := route.orderedShards.map (switchShard priorId successorId) }
  else route

theorem shardAt_some {route : ArtifactFamilyRoute} {shardId : String} {i : Nat}
    {shard : TopologyShardRoute} (h : shardAt route shardId = some (i, shard)) :
    ∃ hi : i < route.orderedShards.length, route.orderedShards[i] = shard ∧
    shard.shardId = shardId := by
  unfold shardAt at h
  obtain ⟨j, hj, h⟩ := Option.bind_eq_some_iff.mp h
  obtain ⟨found, hfound, hpair⟩ := Option.map_eq_some_iff.mp h
  cases hpair
  obtain ⟨hlt, hid, -⟩ := List.findIdx?_eq_some_iff_getElem.mp hj
  rw [List.getElem?_eq_getElem hlt, Option.some.injEq] at hfound
  refine ⟨hlt, hfound, ?_⟩
  rw [← hfound]
  simpa using hid

/-- Switching two positions of a route is switching two identifiers. -/
theorem switch_shards {route : ArtifactFamilyRoute}
    (hnodup : (route.orderedShards.map (·.shardId)).Nodup)
    {priorId successorId : String} {i j : Nat} {prior next : TopologyShardRoute}
    (hprior : shardAt route priorId = some (i, prior))
    (hnext : shardAt route successorId = some (j, next)) (hne : prior.status ≠ next.status) :
    (route.orderedShards.modify i (withStatus .readOnly)).modify j (withStatus .writable) =
      route.orderedShards.map (switchShard priorId successorId) := by
  obtain ⟨hi, hiprior, hpriorId⟩ := shardAt_some hprior
  obtain ⟨hj, hjnext, hnextId⟩ := shardAt_some hnext
  have hids : priorId ≠ successorId := by
    intro heq
    rw [heq, hnext, Option.some.injEq, Prod.mk.injEq] at hprior
    exact hne (by rw [hprior.2])
  have hkeep : ((route.orderedShards.modify i (withStatus .readOnly)).map (·.shardId)).Nodup := by
    rw [modify_eq_map hnodup hi, List.map_map]
    refine (List.map_congr_left fun shard _ => ?_).symm ▸ hnodup
    simp only [Function.comp_apply]
    split <;> rfl
  have hj' : j < (route.orderedShards.modify i (withStatus .readOnly)).length := by simpa using hj
  have hjId : ((route.orderedShards.modify i (withStatus .readOnly))[j]).shardId = successorId := by
    rw [List.getElem_modify]
    split
    · rw [hjnext]
      exact hnextId
    · rw [hjnext]
      exact hnextId
  rw [modify_eq_map hkeep hj', hjId, modify_eq_map hnodup hi, hiprior, hpriorId, List.map_map]
  refine List.map_congr_left fun shard _ => ?_
  simp only [Function.comp_apply, switchShard]
  by_cases hp : shard.shardId = priorId
  · rw [if_pos hp, if_pos hp, if_neg]
    change ¬ shard.shardId = successorId
    rw [hp]
    exact hids
  · rw [if_neg hp, if_neg hp]

theorem switched_eq {registry : TopologyRegistry} (hvalid : registry.validate = .ok ())
    {family : String}
    {visibility : CacheVisibility} {route : ArtifactFamilyRoute}
    (hroute : registry.route family visibility = some route)
    {priorId successorId : String} {i j : Nat} {prior next : TopologyShardRoute}
    (hprior : shardAt route priorId = some (i, prior))
    (hnext : shardAt route successorId = some (j, next))
    (hne : prior.status ≠ next.status) (generation : Nat) (digest : ContentDigest) :
    switched registry family visibility i j generation digest =
      { registry with
        generation
        previousRegistryDigest := some digest
        familyRoutes := registry.familyRoutes.map
            (switchRoute family visibility priorId successorId) } := by
  obtain ⟨hkeys, hshards⟩ := validate_unique hvalid
  have hfind : registry.familyRoutes.find? (fun r => r.family == family &&
      r.visibility == visibility) = some route :=
    hroute
  unfold switched
  have hp : ∀ r : ArtifactFamilyRoute, (r.family == family && r.visibility == visibility) = true ↔
      r.key = (family, visibility) := by
    intro r
    simp [ArtifactFamilyRoute.key]
  rw [modifyFirst_eq_map hp hkeys]
  have hmap : ∀ r ∈ registry.familyRoutes, (if r.family == family && r.visibility == visibility then
      { r with orderedShards := (r.orderedShards.modify i
        (withStatus .readOnly)).modify j (withStatus .writable) }
      else r) = switchRoute family visibility priorId successorId r := by
    intro r hr
    unfold switchRoute
    by_cases hsame : r.family = family ∧ r.visibility = visibility
    · have hfound : r = route := by
        have hmatch := List.find?_some hfind
        have hrouteKey := (hp route).mp hmatch
        have hrKey : r.key = (family, visibility) :=
          by simp [ArtifactFamilyRoute.key, hsame.1, hsame.2]
        exact List.inj_on_of_nodup_map hkeys hr (List.mem_of_find?_eq_some hfind)
          (hrKey.trans hrouteKey.symm)
      rw [if_pos (by simp [hsame.1, hsame.2]), if_pos hsame, hfound,
        switch_shards (hshards route (List.mem_of_find?_eq_some hfind)) hprior hnext hne]
    · rw [if_neg (by simpa using hsame), if_neg hsame]
  rw [List.map_congr_left hmap]

/-- The registry that a plan was made from, and what the plan makes of it. -/
structure PlannedFrom (o : Outside) (plan : TopologyRolloverPlan) (prior : TopologyRegistry)
    (stored : Bytes) : Prop where
  parsed : o.parseRegistry stored = .ok prior
  priorValid : prior.validate = .ok ()
  priorDigest : prior.digest o.sha256 o.floatText = .ok plan.priorTopologyDigest
  storedDigest : contentDigest o.sha256 stored = plan.priorTopologyDigest
  observed : plan.observedRegistryDigest = plan.priorTopologyDigest
  replacementValid : plan.replacement.validate = .ok ()
  replacement : plan.replacement =
    { prior with
      generation := prior.generation + 1
      previousRegistryDigest := some plan.priorTopologyDigest
      familyRoutes := prior.familyRoutes.map
        (switchRoute plan.family plan.visibility plan.priorWritableShardId plan.successorShardId) }

theorem plan_ok {o : Outside} {request : RolloverRequest} {reads : PlanReads}
    {plan : TopologyRolloverPlan} (h : planTopologyRollover o request reads = .ok plan) :
    ∃ prior stored, reads.registryDocument.file plan.expectedHead plan.registryPath = some stored ∧
      PlannedFrom o plan prior stored := by
  unfold planTopologyRollover at h
  obtain ⟨readiness, _, h⟩ := bind_eq_ok h
  obtain ⟨_, _, h⟩ := bind_eq_ok h
  obtain ⟨successorHead, _, h⟩ := bind_eq_ok h
  obtain ⟨_, _, h⟩ := bind_eq_ok h
  obtain ⟨ledger, _, h⟩ := bind_eq_ok h
  obtain ⟨ledgerDigest, _, h⟩ := bind_eq_ok h
  obtain ⟨_, _, h⟩ := bind_eq_ok h
  obtain ⟨head, _, h⟩ := bind_eq_ok h
  obtain ⟨document, hdocument, h⟩ := bind_eq_ok h
  obtain ⟨digest, hverify, h⟩ := bind_eq_ok h
  obtain ⟨_, hsame, h⟩ := bind_eq_ok h
  obtain ⟨route, hroute, h⟩ := bind_eq_ok h
  obtain ⟨prior, hprior, h⟩ := bind_eq_ok h
  obtain ⟨successorId, _, h⟩ := bind_eq_ok h
  obtain ⟨next, hnext, h⟩ := bind_eq_ok h
  obtain ⟨_, hstates, h⟩ := bind_eq_ok h
  obtain ⟨generation, hgeneration, h⟩ := bind_eq_ok h
  obtain ⟨_, hreplacement, h⟩ := bind_eq_ok h
  obtain ⟨bytes, _, h⟩ := bind_eq_ok h
  obtain ⟨_, _, h⟩ := bind_eq_ok h
  obtain ⟨_, _, h⟩ := bind_eq_ok h
  cases h
  unfold readRegistry at hdocument
  obtain ⟨_, _, hdocument⟩ := bind_eq_ok hdocument
  obtain ⟨stored, hstored, hdocument⟩ := bind_eq_ok hdocument
  obtain ⟨_, _, hdocument⟩ := bind_eq_ok hdocument
  obtain ⟨registry, hparsed, hdocument⟩ := bind_eq_ok hdocument
  cases hdocument
  obtain ⟨hdigest, hvalid⟩ := verify_ok hverify
  have hobserved : contentDigest o.sha256 stored = digest := by simpa using check_ok hsame
  have hne : prior.2.status ≠ next.2.status := by
    have hstate := check_ok hstates
    simp only [Bool.or_eq_false_iff, bne_eq_false_iff_eq] at hstate
    rw [hstate.1.1.1.1.1, hstate.1.1.1.1.2]
    exact fun hstatus => nomatch hstatus
  refine ⟨registry, stored, require_ok hstored, hparsed, hvalid, hdigest, hobserved, hobserved,
    hreplacement, ?_⟩
  dsimp only
  rw [switched_eq hvalid (require_ok hroute) (require_ok hprior) (require_ok hnext) hne,
    checkedAdd_some (require_ok hgeneration)]

/-! ## What an execution changes -/

/-- The registry branch was still at the planned head, and its registry at the observed digest, when
the replacement was committed; nothing else moved. -/
structure Replaced (o : Outside) (plan : TopologyRolloverPlan) (calls : ExecuteCalls)
    (later : Store) : Prop where
  head : calls.commitTime.refs ⟨plan.registryRepository, plan.registryBranch⟩ =
    some plan.expectedHead
  stored : ∃ stored, calls.digestRead.file plan.expectedHead plan.registryPath = some stored ∧
    contentDigest o.sha256 stored = plan.observedRegistryDigest
  newHead : later.refs ⟨plan.registryRepository, plan.registryBranch⟩ = some calls.commitId
  newRegistry : ∃ bytes, o.canonical plan.replacement.toValue = .ok bytes ∧
    later.file calls.commitId plan.registryPath = some bytes
  otherRefs : ∀ ref, ref ≠ ⟨plan.registryRepository, plan.registryBranch⟩ →
    later.refs ref = calls.commitTime.refs ref
  otherFiles : ∀ path, path ≠ plan.registryPath →
    later.file calls.commitId path = calls.commitTime.file plan.expectedHead path

/-- What was checked before the compare-and-swap. -/
def Prepared (o : Outside) (plan : TopologyRolloverPlan) (calls : ExecuteCalls) (bytes : Bytes) :
    Prop :=
  o.canonical plan.replacement.toValue = .ok bytes ∧
    immutablePathDigest o calls.digestRead plan.expectedHead plan.registryPath =
      some plan.observedRegistryDigest

theorem prepare_ok {o : Outside} {plan : TopologyRolloverPlan} {calls : ExecuteCalls}
    {bytes : Bytes}
    {digest : ContentDigest} (h : prepareRollover o plan calls = .ok (some bytes, digest)) :
    Prepared o plan calls bytes := by
  unfold prepareRollover at h
  obtain ⟨_, _, h⟩ := bind_eq_ok h
  obtain ⟨_, _, h⟩ := bind_eq_ok h
  obtain ⟨_, _, h⟩ := bind_eq_ok h
  obtain ⟨head, _, h⟩ := bind_eq_ok h
  split at h
  · cases h
  · obtain ⟨current, hcurrent, h⟩ := bind_eq_ok h
    obtain ⟨_, hsame, h⟩ := bind_eq_ok h
    obtain ⟨found, hbytes, h⟩ := bind_eq_ok h
    obtain ⟨_, _, h⟩ := bind_eq_ok h
    obtain ⟨_, _, h⟩ := bind_eq_ok h
    cases h
    have hdigest : current = plan.observedRegistryDigest := by simpa using check_ok hsame
    refine ⟨hbytes, ?_⟩
    rw [require_ok hcurrent, hdigest]

theorem swap_replaces {o : Outside} {plan : TopologyRolloverPlan} {calls : ExecuteCalls}
    {bytes : Bytes} {committed : Store} (hprepared : Prepared o plan calls bytes)
    (h : calls.commitTime.compareAndSwap (rolloverRequest plan bytes) calls.commitId =
      some committed) :
    Replaced o plan calls committed := by
  obtain ⟨hhead, rfl⟩ := compareAndSwap_some h
  obtain ⟨hbytes, hdigest⟩ := hprepared
  obtain ⟨stored, hstored, hsame⟩ := Option.map_eq_some_iff.mp hdigest
  refine ⟨hhead, ⟨stored, hstored, hsame⟩, advance_refs_self _ _ _ _,
    ⟨bytes, hbytes, ?_⟩, fun ref href => ?_, fun path hpath => ?_⟩
  · rw [advance_file_self]
    simp [rolloverRequest, Edit.apply]
  · exact advance_refs_of_ne href _ _ _
  · rw [advance_file_self]
    simp [rolloverRequest, Edit.apply, List.lookup, beq_eq_false_iff_ne.mpr hpath]

theorem execute_changes {o : Outside} {plan : TopologyRolloverPlan} {calls : ExecuteCalls}
    {outcome : Result TopologyRolloverOutcome} {later : Store}
    (h : executeTopologyRollover o plan calls = (outcome, later)) :
    later = calls.commitTime ∨ Replaced o plan calls later := by
  unfold executeTopologyRollover at h
  split at h
  · cases h
    exact .inl rfl
  · cases h
    exact .inl rfl
  · rename_i bytes digest hprepared
    split at h
    · cases h
      exact .inl rfl
    · rename_i committed hswap
      have hreplaced := swap_replaces (prepare_ok hprepared) hswap
      split at h
      · cases h
        exact .inr hreplaced
      · cases h
        exact .inr hreplaced

/-- **Rollover.** A plan's replacement is the stored registry, one generation later, with the two
shards switched; executing the plan leaves the remote alone unless the branch is still at the
planned head and the registry there is, up to a collision, the one the plan was made from. -/
theorem rollover_replaces_prior (o : Outside) (request : RolloverRequest) (reads : PlanReads)
    (plan : TopologyRolloverPlan) (h : planTopologyRollover o request reads = .ok plan) :
    ∃ prior stored, reads.registryDocument.file plan.expectedHead plan.registryPath = some stored ∧
      PlannedFrom o plan prior stored ∧
      ∀ calls outcome later, executeTopologyRollover o plan calls = (outcome, later) →
        calls.digestRead.Extends calls.commitTime →
        later = calls.commitTime ∨ (Replaced o plan calls later ∧
          ∃ current, calls.commitTime.file plan.expectedHead plan.registryPath = some current ∧
            contentDigest o.sha256 current = plan.priorTopologyDigest ∧
            (NoCollision o.sha256 [current, stored] → current = stored)) := by
  obtain ⟨prior, stored, hstored, hplanned⟩ := plan_ok h
  refine ⟨prior, stored, hstored, hplanned, fun calls outcome later hexecute hextends => ?_⟩
  rcases execute_changes hexecute with hsame | hreplaced
  · exact .inl hsame
  · obtain ⟨current, hcurrent, hdigest⟩ := hreplaced.stored
    rw [hplanned.observed] at hdigest
    refine .inr ⟨hreplaced, current, hextends.file_eq hcurrent, hdigest, fun hcollision => ?_⟩
    exact hcollision current (by simp) stored (by simp)
      (contentDigest_injective (hdigest.trans hplanned.storedDigest.symm))

/-! A family with one writable shard and its empty successor. -/

def sampleDigest : ContentDigest := ⟨String.ofList (List.replicate 64 'a')⟩

def sampleRegistry : TopologyRegistry where
  schemaVersion := 1
  generation := 4
  previousRegistryDigest := none
  policyDigest := sampleDigest
  trustAnchorIds := []
  familyRoutes := [⟨"f", .team,
    [⟨"a", "e", 0, .writable, some "b"⟩, ⟨"b", "e", 1, .readOnly, none⟩]⟩]

def sampleLedger : CapacityLedger where
  schemaVersion := 1
  shardId := "b"
  hardCapacityBytes := githubSafeRepositoryPayloadBytes
  warningReserveBytes := 0
  firstSeenImmutablePayloadBytes := 0
  manifestIndexReceiptBytes := 0
  estimatedHistoryBytes := 0
  emergencyReserveBytes := 0
  abandonedReachableBytes := 0
  lastReconciledCommit := "r1"
  reconciliationDigest := sampleDigest

def sampleEvidence : SuccessorShardReadinessEvidence where
  schemaVersion := 1
  endpointId := "e"
  repositoryOwner := "o"
  repositoryName := "n"
  visibility := .team
  ownershipAndVisibilityEvidenceDigest := sampleDigest
  branchProtectionEvidenceDigest := sampleDigest
  trustMetadataEvidenceDigest := sampleDigest
  readWriteHealthEvidenceDigest := sampleDigest
  reviewerApprovalDigest := sampleDigest
  auditedAtUnixSeconds := 1
  audit := ⟨1, "shard", "main", "r1", "b", 0, 0, 0, 0, 0, 0, 0, 0, 0, 0, some sampleLedger,
    ⟨true, true, true, true⟩, 0⟩

/-- The digests of the five documents that the sample hashes, told apart by their lengths. -/
def sampleSha256 : Sha256 := fun payload =>
  if payload.length = 14 then
    ⟨#[0xa9, 0x04, 0x94, 0x29, 0x17, 0x15, 0x92, 0x93, 0x40, 0x4b, 0xa1, 0x13, 0xe4, 0xfe,
      0xfd, 0x2b,
      0xfd, 0x06, 0xbd, 0x9a, 0x5f, 0x76, 0x7f, 0x2f, 0x8e, 0x89, 0x94, 0x3e, 0xf5, 0x03, 0x50,
      0x79], rfl⟩
  else if payload.length = 19 then
    ⟨#[0x4e, 0xfe, 0xe3, 0xba, 0x96, 0xd3, 0x54, 0x1a, 0x15, 0x03, 0x9a, 0x02, 0x16, 0x4f,
      0x9c, 0x65,
      0xb3, 0x13, 0x30, 0xf4, 0x3d, 0xba, 0xd5, 0x6c, 0xff, 0xbb, 0x29, 0xaf, 0x66, 0x9c, 0x8b,
      0x2b], rfl⟩
  else if payload.length = 375 then
    ⟨#[0xf2, 0x5a, 0x06, 0x96, 0x18, 0x97, 0x3e, 0xc9, 0xc4, 0xcd, 0x51, 0x67, 0x57, 0x4c,
      0x8d, 0xaa,
      0x9b, 0x7e, 0x4e, 0x7d, 0xd6, 0x7d, 0xc6, 0x6d, 0x02, 0x79, 0x2b, 0x53, 0x76, 0x3a, 0xd0,
      0xd8], rfl⟩
  else if payload.length = 432 then
    ⟨#[0xc3, 0x7c, 0x38, 0x06, 0x94, 0x18, 0x1c, 0x84, 0xe8, 0x90, 0x9e, 0x4a, 0x3f, 0xba,
      0x00, 0x4a,
      0xc8, 0xeb, 0x9d, 0x84, 0xf0, 0x56, 0x05, 0x4b, 0xfc, 0x33, 0x6d, 0xbc, 0x45, 0xdd, 0x6d,
      0xb3], rfl⟩
  else
    ⟨#[0x85, 0x87, 0x15, 0x6b, 0x7c, 0xf3, 0xdb, 0x06, 0x74, 0x06, 0xb4, 0x80, 0x19, 0xa0,
      0xba, 0x92,
      0x5d, 0xb1, 0x22, 0x9f, 0xbb, 0x65, 0x98, 0x32, 0xdf, 0x38, 0xf5, 0x17, 0xcd, 0x21, 0x8a,
      0x73], rfl⟩

def sampleOutside : Outside where
  sha256 := sampleSha256
  floatText _ := "0.0"
  evidenceValue evidence := record [("endpoint_id", .string evidence.endpointId)]
  planValue plan := record [("family", .string plan.family)]
  parseRegistry _ := .ok sampleRegistry

def sampleFile (value : Value) : Option Bytes := (sampleOutside.canonical value).toOption

def sampleStore : Store where
  refs ref := if ref.repository = "shard" then some "r1" else some "r2"
  commits id := some ⟨none, fun _ => if id = "r1" then sampleFile (ledgerValue sampleLedger)
    else sampleFile sampleRegistry.toValue⟩

def sampleRequest : RolloverRequest where
  authorizedRegistryRepository := "o/registry"
  registryRepository := "registry"
  registryBranch := "main"
  registryPath := "topology.json"
  maximumRegistryBytes := 4096
  topologyTrust := ⟨0, none, none⟩
  family := "f"
  visibility := .team
  priorWritableShardId := "a"
  successor := sampleEvidence

def sampleReads : PlanReads := ⟨.ok (), sampleStore, sampleStore, sampleStore, sampleStore⟩

def sampleCalls : ExecuteCalls :=
  ⟨.ok (), .ok (), .ok (), sampleStore, sampleStore, sampleStore, "r3"⟩

theorem sampleExecution_moves :
    (planTopologyRollover sampleOutside sampleRequest sampleReads).toOption.map (fun plan =>
      decide ((executeTopologyRollover sampleOutside plan sampleCalls).2.refs ⟨"registry", "main"⟩ =
        some "r3")) =
        some true := by
  decide +kernel

/-- The plan is made and executed, and the branch gets the replacement. -/
theorem rollover_replaces_prior_sample : ∃ plan prior stored later,
    planTopologyRollover sampleOutside sampleRequest sampleReads = .ok plan ∧
      PlannedFrom sampleOutside plan prior stored ∧
      Replaced sampleOutside plan sampleCalls later := by
  cases hplan : planTopologyRollover sampleOutside sampleRequest sampleReads with
  | error error =>
    have hmoves := sampleExecution_moves
    rw [hplan] at hmoves
    cases hmoves
  | ok plan =>
    have hmoves := sampleExecution_moves
    rw [hplan] at hmoves
    obtain ⟨prior, stored, -, hplanned, hexecution⟩ :=
      rollover_replaces_prior sampleOutside sampleRequest sampleReads plan hplan
    refine ⟨plan, prior, stored, (executeTopologyRollover sampleOutside plan sampleCalls).2, rfl,
      hplanned, ?_⟩
    have hnew : (executeTopologyRollover sampleOutside plan sampleCalls).2.refs
        ⟨"registry", "main"⟩ = some "r3" :=
      of_decide_eq_true (Option.some.inj hmoves)
    rcases hexecution sampleCalls _ (executeTopologyRollover sampleOutside plan sampleCalls).2 rfl
      fun _ _ h => h with
      hsame | hreplaced
    · rw [hsame] at hnew
      exact absurd hnew (by decide)
    · exact hreplaced.1

end Xcelerator.Cache.TopologyRollover
