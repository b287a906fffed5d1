import Mathlib
import Xcelerator.Foundations.TopologicalOrder
import Xcelerator.Cache.ArtifactState

/-! # Dependency-aware derivation planning

Nodes are planned in a deterministic topological order; each takes the best of
its admissible candidates, and every choice is charged to the running totals.
A `BTreeSet<String>` is a strictly sorted list, the node map a list sorted by
identity. A panic of the source is an error of its own here, and `{:?}` of an
identity is its quotation. -/

namespace Xcelerator.Cache.Planner
open Xcelerator.Foundations Machine
open Artifact (ArtifactAssuranceState)

/-! ## Requests -/

inductive CachePlanAction where
  | load
  | derive
  | recompute
  | certify
deriving DecidableEq, Repr

def CachePlanAction.debug : CachePlanAction → String
  | load => "Load"
  | derive => "Derive"
  | recompute => "Recompute"
  | certify => "Certify"

inductive CachePlanTrust where
  | unverified
  | hashVerified
  | policyTrusted
  | independentlyArchived
deriving DecidableEq, Repr

/-- The position in the derived order. -/
def CachePlanTrust.rank : CachePlanTrust → Nat
  | unverified => 0
  | hashVerified => 1
  | policyTrusted => 2
  | independentlyArchived => 3

def CachePlanTrust.debug : CachePlanTrust → String
  | unverified => "Unverified"
  | hashVerified => "HashVerified"
  | policyTrusted => "PolicyTrusted"
  | independentlyArchived => "IndependentlyArchived"

inductive CachePlanLocality where
  | processLocal
  | workstationLocal
  | projectPrivate
  | teamPrivateRemote
  | publicRemote
  | externalRemote
deriving DecidableEq, Repr

def CachePlanLocality.rank : CachePlanLocality → Nat
  | processLocal => 0
  | workstationLocal => 1
  | projectPrivate => 2
  | teamPrivateRemote => 3
  | publicRemote => 4
  | externalRemote => 5

inductive CachePreferenceCriterion where
  | trust
  | precision
  | locality
  | transferBytes
  | recomputationCost
  | actionPreference
deriving DecidableEq, Repr

def allCriteria : List CachePreferenceCriterion :=
  [.trust, .precision, .locality, .transferBytes, .recomputationCost, .actionPreference]

structure CachePlannerPolicy where
  schemaVersion : Nat
  minimumTrust : CachePlanTrust
  maximumTotalTransferBytes : Option Nat
  maximumTotalRecomputationUnits : Option Nat
  preferenceOrder : List CachePreferenceCriterion
  actionPreference : List CachePlanAction

/-- A set of strings. -/
structure StringSet where
  items : List String
  sorted : items.Pairwise (· < ·)
deriving DecidableEq

structure CachePlanCandidate where
  candidateId : String
  action : CachePlanAction
  source : Option String
  trust : CachePlanTrust
  precisionBits : Nat
  locality : CachePlanLocality
  transferBytes : Nat
  recomputationUnits : Nat
  projectedAssurance : ArtifactAssuranceState
  dependencyNodeIds : StringSet
  compatible : Bool
  revoked : Bool
  available : Bool

structure CachePlanNode where
  nodeId : String
  artifactFamily : String
  semanticDigest : ContentDigest
  requiredAssurance : ArtifactAssuranceState
  minimumPrecisionBits : Nat
  dependencyNodeIds : StringSet
  candidates : List CachePlanCandidate

structure CachePlanRequest where
  schemaVersion : Nat
  policy : CachePlannerPolicy
  nodes : List CachePlanNode

structure CacheCandidatePlanDecision where
  candidateId : String
  action : CachePlanAction
  source : Option String
  admissible : Bool
  selected : Bool
  trust : CachePlanTrust
  precisionBits : Nat
  locality : CachePlanLocality
  transferBytes : Nat
  recomputationUnits : Nat
  projectedAssurance : ArtifactAssuranceState
  reasons : List String
deriving DecidableEq

structure CacheNodePlan where
  nodeId : String
  artifactFamily : String
  semanticDigest : ContentDigest
  selectedCandidateId : Option String
  selectedAction : Option CachePlanAction
  decisions : List CacheCandidatePlanDecision
deriving DecidableEq

structure CacheDerivationPlan where
  schemaVersion : Nat
  complete : Bool
  executionOrder : List String
  totalTransferBytes : Nat
  totalRecomputationUnits : Nat
  nodes : List CacheNodePlan
deriving DecidableEq

inductive Failure where
  | refused (error : CacheError)
  | panic (fault : Fault)
deriving DecidableEq

abbrev Planned := Except Failure

def refusing {α : Type} (x : Result α) : Planned α := x.mapError .refused

def panicking {α : Type} (x : Checked α) : Planned α := x.mapError .panic

/-! ## Validation -/

/-- All criteria are contained: as there are no others, the sets are equal. -/
def CachePlannerPolicy.validate (self : CachePlannerPolicy) : Result Unit :=
  check (self.schemaVersion == 0 || self.preferenceOrder.length != allCriteria.length ||
      !(allCriteria.all fun c => self.preferenceOrder.contains c) ||
      self.actionPreference.isEmpty ||
      self.actionPreference.dedup.length != self.actionPreference.length)
    (.invalidManifest "cache planner policy must contain every preference criterion once and a unique action preference")

def CachePlannerPolicy.actionRank (self : CachePlannerPolicy) (action : CachePlanAction) :
    Option Nat :=
  self.actionPreference.findIdx? fun candidate => candidate = action

def CachePlanCandidate.validate (self : CachePlanCandidate) : Result Unit :=
  check (blank self.candidateId || self.precisionBits == 0 || self.source.any blank)
    (.invalidManifest "cache plan candidate identity, source, or precision is invalid")

/-- The loop over the candidates, with the identities seen so far. -/
def validateCandidates : List String → List CachePlanCandidate → Result Unit
  | _, [] => .ok ()
  | seen, candidate :: rest => do
    candidate.validate
    check (seen.contains candidate.candidateId)
      (.invalidManifest "cache plan node contains duplicate candidate identities")
    validateCandidates (candidate.candidateId :: seen) rest

def CachePlanNode.validate (self : CachePlanNode) : Result Unit := do
  check (blank self.nodeId || blank self.artifactFamily || !self.semanticDigest.validate ||
      self.minimumPrecisionBits == 0 || self.candidates.isEmpty ||
      self.dependencyNodeIds.items.contains self.nodeId)
    (.invalidManifest "cache plan node identity, family, precision, dependencies, or candidates are invalid")
  validateCandidates [] self.candidates

/-! ## Candidates -/

/-- The reason a projected total is refused for, if it is. -/
def projectedReasons (maximum : Option Nat) (overflow : String) (message : Nat → String)
    (current added : Nat) : List String :=
  match checkedAdd current added with
  | none => [overflow]
  | some total => if maximum.any fun maximum => total > maximum then [message total] else []

def evaluateCandidate (policy : CachePlannerPolicy) (node : CachePlanNode)
    (unavailableDependencies : List String) (currentTransferBytes currentRecomputationUnits : Nat)
    (candidate : CachePlanCandidate) : CacheCandidatePlanDecision :=
  let reasons :=
    (if (policy.actionRank candidate.action).isNone then
      [s!"action {candidate.action.debug} is disabled by policy"] else []) ++
    (if !candidate.available then ["candidate source or implementation is unavailable"] else []) ++
    (if candidate.revoked then ["candidate is revoked"] else []) ++
    (if !candidate.compatible then ["candidate is incompatible with the request"] else []) ++
    (if candidate.trust.rank < policy.minimumTrust.rank then
      [s!"candidate trust {candidate.trust.debug} is below {policy.minimumTrust.debug}"] else []) ++
    (if candidate.precisionBits < node.minimumPrecisionBits then
      [s!"candidate precision {candidate.precisionBits} is below {node.minimumPrecisionBits} bits"]
      else []) ++
    (if candidate.projectedAssurance < node.requiredAssurance then
      [s!"candidate assurance {candidate.projectedAssurance.debug} is below {node.requiredAssurance.debug}"]
      else []) ++
    (if candidate.dependencyNodeIds ≠ node.dependencyNodeIds then
      ["candidate dependency identity set does not match the node"] else []) ++
    (if !unavailableDependencies.isEmpty then
      ["required dependency nodes are unavailable: " ++
        String.intercalate ", " unavailableDependencies]
      else []) ++
    projectedReasons policy.maximumTotalTransferBytes "projected transfer bytes exceed u64"
      (fun total => s!"projected transfer {total} exceeds policy") currentTransferBytes
      candidate.transferBytes ++
    projectedReasons policy.maximumTotalRecomputationUnits
      "projected recomputation units exceed u64"
      (fun total => s!"projected recomputation {total} exceeds policy") currentRecomputationUnits
      candidate.recomputationUnits
  { candidateId := candidate.candidateId
    action := candidate.action
    source := candidate.source
    admissible := reasons.isEmpty
    selected := false
    trust := candidate.trust
    precisionBits := candidate.precisionBits
    locality := candidate.locality
    transferBytes := candidate.transferBytes
    recomputationUnits := candidate.recomputationUnits
    projectedAssurance := candidate.projectedAssurance
    reasons }

/-- `Option<usize>` is ordered with `None` first. -/
def rankKey : Option Nat → Nat
  | none => 0
  | some rank => rank + 1

def compareCriterion (policy : CachePlannerPolicy) (criterion : CachePreferenceCriterion)
    (left right : CacheCandidatePlanDecision) : Ordering :=
  match criterion with
  | .trust => compare right.trust.rank left.trust.rank
  | .precision => compare right.precisionBits left.precisionBits
  | .locality => compare left.locality.rank right.locality.rank
  | .transferBytes => compare left.transferBytes right.transferBytes
  | .recomputationCost => compare left.recomputationUnits right.recomputationUnits
  | .actionPreference =>
    compare (rankKey (policy.actionRank left.action)) (rankKey (policy.actionRank right.action))

/-- The loop over the criteria that remain. -/
def compareBy (policy : CachePlannerPolicy) :
    List CachePreferenceCriterion → CacheCandidatePlanDecision →
    CacheCandidatePlanDecision → Ordering
  | [], left, right => compare left.candidateId right.candidateId
  | criterion :: rest, left, right =>
    (compareCriterion policy criterion left right).then (compareBy policy rest left right)

def compareCandidates (policy : CachePlannerPolicy) (left right : CacheCandidatePlanDecision) :
    Ordering :=
  compareBy policy policy.preferenceOrder left right

/-- `Iterator::min_by`: the first of the least elements. -/
def minBy {α : Type} (cmp : α → α → Ordering) : List α → Option α
  | [] => none
  | x :: xs => some (xs.foldl (fun best y => if cmp best y = .gt then y else best) x)

/-! ## The plan -/

/-- `nodes.insert(node_id, node)` on the map, refusing a key that is taken. -/
def insertNodes : List CachePlanNode → List CachePlanNode → Result (List CachePlanNode)
  | map, [] => .ok map
  | map, node :: rest => do
    node.validate
    check (map.any fun n => n.nodeId = node.nodeId)
      (.invalidManifest "cache plan contains duplicate node identities")
    insertNodes (map.orderedInsert (fun a b => a.nodeId ≤ b.nodeId) node) rest

def findNode (nodes : List CachePlanNode) (nodeId : String) : Option CachePlanNode :=
  nodes.find? fun node => node.nodeId = nodeId

def checkDependencies (nodes : List CachePlanNode) : List CachePlanNode → Result Unit
  | [] => .ok ()
  | node :: rest => do
    check (node.dependencyNodeIds.items.any fun dependency => (findNode nodes dependency).isNone)
      (.invalidManifest ("cache plan node " ++ debugText node.nodeId ++
        " names an unknown dependency"))
    checkDependencies nodes rest

/-- The checks before the order, with the map they build. -/
def plannedNodes (request : CachePlanRequest) : Result (List CachePlanNode) := do
  check (request.schemaVersion == 0 || request.nodes.isEmpty)
    (.invalidManifest "cache plan request schema and nodes are required")
  request.policy.validate
  let nodes ← insertNodes [] request.nodes
  checkDependencies nodes nodes
  return nodes

def dependenciesOf (nodes : List CachePlanNode) (nodeId : String) : List String :=
  match findNode nodes nodeId with
  | some node => node.dependencyNodeIds.items
  | none => []

def cycleError : CacheError := .invalidManifest "cache plan dependency graph contains a cycle"

def topologicalOrder (nodes : List CachePlanNode) : Planned (List String) := do
  let order ← panicking
    (TopologicalOrder.ordered (nodes.map CachePlanNode.nodeId) (dependenciesOf nodes))
  refusing (check (order.length != nodes.length) cycleError)
  return order

structure PlanState where
  selectedNodes : Finset String
  totalTransferBytes : Nat
  totalRecomputationUnits : Nat
  plans : List CacheNodePlan

def sortDecisions (decisions : List CacheCandidatePlanDecision) : List CacheCandidatePlanDecision :=
  decisions.insertionSort fun left right => left.candidateId ≤ right.candidateId

/-- The decisions on one node, before one is selected. -/
def nodeDecisions (policy : CachePlannerPolicy) (node : CachePlanNode) (s : PlanState) :
    List CacheCandidatePlanDecision :=
  let unavailable := node.dependencyNodeIds.items.filter (· ∉ s.selectedNodes)
  node.candidates.map
    (evaluateCandidate policy node unavailable s.totalTransferBytes s.totalRecomputationUnits)

def bestDecision (policy : CachePlannerPolicy) (decisions : List CacheCandidatePlanDecision) :
    Option (CacheCandidatePlanDecision × Nat) :=
  minBy (fun left right => compareCandidates policy left.1 right.1)
    (decisions.zipIdx.filter fun decision => decision.1.admissible)

def markSelected (decision : CacheCandidatePlanDecision) : CacheCandidatePlanDecision :=
  { decision with selected := true }

def planNode (policy : CachePlannerPolicy) (nodes : List CachePlanNode) (s : PlanState)
    (nodeId : String) : Planned PlanState := do
  let node ← panicking (match findNode nodes nodeId with
    | some node => .ok node
    | none => .error .outOfBounds)
  let decisions := nodeDecisions policy node s
  match bestDecision policy decisions with
  | some best => do
    let transfer ← refusing (require (checkedAdd s.totalTransferBytes best.1.transferBytes)
      (.resourceLimit "cache plan transfer bytes exceed u64"))
    let recomputation ← refusing
      (require (checkedAdd s.totalRecomputationUnits best.1.recomputationUnits)
        (.resourceLimit "cache plan recomputation units exceed u64"))
    return {
      selectedNodes := insert nodeId s.selectedNodes
      totalTransferBytes := transfer
      totalRecomputationUnits := recomputation
      plans := s.plans ++ [{
        nodeId
        artifactFamily := node.artifactFamily
        semanticDigest := node.semanticDigest
        selectedCandidateId := some best.1.candidateId
        selectedAction := some best.1.action
        decisions := sortDecisions (decisions.modify best.2 markSelected) }] }
  | none =>
    return { s with plans := s.plans ++ [{
      nodeId
      artifactFamily := node.artifactFamily
      semanticDigest := node.semanticDigest
      selectedCandidateId := none
      selectedAction := none
      decisions := sortDecisions decisions }] }

def planCacheDerivations (request : CachePlanRequest) : Planned CacheDerivationPlan := do
  let nodes ← refusing (plannedNodes request)
  let executionOrder ← topologicalOrder nodes
  let s ← executionOrder.foldlM (planNode request.policy nodes) ⟨∅, 0, 0, []⟩
  return {
    schemaVersion := 1
    complete := s.selectedNodes.card == nodes.length
    executionOrder
    totalTransferBytes := s.totalTransferBytes
    totalRecomputationUnits := s.totalRecomputationUnits
    nodes := s.plans }

end Xcelerator.Cache.Planner
