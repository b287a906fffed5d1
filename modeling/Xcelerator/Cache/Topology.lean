import Mathlib
import Xcelerator.Foundations.Machine
import Xcelerator.Cache.Digest
import Xcelerator.Cache.CanonicalJson

/-! # The topology registry

Which shards hold the artifacts of a family, in what order, and which one of
them is written to. Validation keeps routes unique by family and visibility and
shards unique within their route. -/

namespace Xcelerator.Cache.Topology
open Xcelerator.Foundations.Machine (bind_eq_ok ok_bind)
open Xcelerator.Core.ConfigResolution (Value insertField)
open Xcelerator.Cache.Digest Xcelerator.Cache.CanonicalJson

/-! ## Records -/

inductive CacheVisibility where
  | localOnly
  | privateTeam
  | team
  | publicShared
deriving DecidableEq, Repr

/-- The name in a record. -/
def CacheVisibility.text : CacheVisibility → String
  | .localOnly => "local"
  | .privateTeam => "private"
  | .team => "team"
  | .publicShared => "public"

inductive TopologyShardStatus where
  | writable
  | readOnly
  | sealed
  | incidentHold
deriving DecidableEq, Repr

def TopologyShardStatus.text : TopologyShardStatus → String
  | .writable => "writable"
  | .readOnly => "read_only"
  | .sealed => "sealed"
  | .incidentHold => "incident_hold"

structure TopologyShardRoute where
  shardId : String
  endpointId : String
  sequence : Nat
  status : TopologyShardStatus
  successorShardId : Option String
deriving DecidableEq, Repr

structure ArtifactFamilyRoute where
  family : String
  visibility : CacheVisibility
  orderedShards : List TopologyShardRoute
deriving DecidableEq, Repr

structure TopologyRegistry where
  schemaVersion : Nat
  generation : Nat
  previousRegistryDigest : Option ContentDigest
  policyDigest : ContentDigest
  trustAnchorIds : List String
  familyRoutes : List ArtifactFamilyRoute
deriving DecidableEq, Repr

/-- The key of a route. -/
def ArtifactFamilyRoute.key (route : ArtifactFamilyRoute) : String × CacheVisibility :=
  (route.family, route.visibility)

/-! ## Validation -/

/-- The shards of one route; `global` are the routes of all shards so far. -/
def validateShards (route : ArtifactFamilyRoute) : List TopologyShardRoute → List Nat →
    List String →
    List (String × (String × CacheVisibility)) → Result (List (String × (String × CacheVisibility)))
  | [], _, _, global => .ok global
  | shard :: rest, sequences, shardIds, global => do
    check (blank shard.shardId || blank shard.endpointId || sequences.contains shard.sequence ||
        shardIds.contains shard.shardId)
      (.invalidManifest ("route " ++ debugText route.family ++
        " contains an invalid or duplicate shard"))
    check ((global.lookup shard.shardId).any fun owner => owner.1 != route.family ||
      owner.2 != route.visibility)
      (.invalidManifest ("shard " ++ debugText shard.shardId ++
        " is assigned to multiple family routes"))
    validateShards route rest (shard.sequence :: sequences) (shard.shardId :: shardIds)
      ((shard.shardId, route.key) :: global)

def validateSuccessor (route : ArtifactFamilyRoute) (shard : TopologyShardRoute) : Result Unit :=
  check (shard.successorShardId.any fun successor =>
    !(route.orderedShards.map (·.shardId)).contains successor)
    (.invalidManifest ("successor for shard " ++ debugText shard.shardId ++
      " is outside its family route"))

def validateRoutes : List ArtifactFamilyRoute → List (String × CacheVisibility) →
    List (String × (String × CacheVisibility)) → Result Unit
  | [], _, _ => .ok ()
  | route :: rest, routeKeys, global => do
    check (blank route.family || route.orderedShards.isEmpty || routeKeys.contains route.key)
      (.invalidManifest "topology family routes must be nonempty and unique by family/visibility")
    let global ← validateShards route route.orderedShards [] [] global
    route.orderedShards.forM (validateSuccessor route)
    validateRoutes rest (route.key :: routeKeys) global

namespace TopologyRegistry

def validate (registry : TopologyRegistry) : Result Unit := do
  check (registry.schemaVersion == 0 || !registry.policyDigest.validate)
    (.invalidManifest "topology registry requires a schema and policy digest")
  check (registry.previousRegistryDigest.any fun digest => !digest.validate)
    (.invalidManifest "topology registry has an invalid predecessor digest")
  check (registry.trustAnchorIds.any blank)
    (.invalidManifest "topology trust anchor identifiers must be nonempty")
  validateRoutes registry.familyRoutes [] []

def route (registry : TopologyRegistry) (family : String) (visibility : CacheVisibility) :
    Option ArtifactFamilyRoute :=
  registry.familyRoutes.find? fun route => route.family == family && route.visibility == visibility

end TopologyRegistry

/-! ## Canonical bytes -/

def record (fields : List (String × Value)) : Value :=
  .object (fields.foldl (fun map field => insertField map field.1 field.2) [])

def optionalText : Option String → Value
  | none => .null
  | some text => .string text

def TopologyShardRoute.toValue (shard : TopologyShardRoute) : Value :=
  record [("shard_id", .string shard.shardId), ("endpoint_id", .string shard.endpointId),
    ("sequence", .number (.posInt shard.sequence)), ("status", .string shard.status.text),
    ("successor_shard_id", optionalText shard.successorShardId)]

def ArtifactFamilyRoute.toValue (route : ArtifactFamilyRoute) : Value :=
  record [("family", .string route.family), ("visibility", .string route.visibility.text),
    ("ordered_shards", .array (route.orderedShards.map TopologyShardRoute.toValue))]

def TopologyRegistry.toValue (registry : TopologyRegistry) : Value :=
  record [("schema_version", .number (.posInt registry.schemaVersion)),
    ("generation", .number (.posInt registry.generation)),
    ("previous_registry_digest",
      optionalText (registry.previousRegistryDigest.map ContentDigest.text)),
    ("policy_digest", .string registry.policyDigest.text),
    ("trust_anchor_ids", .array (registry.trustAnchorIds.map .string)),
    ("family_routes", .array (registry.familyRoutes.map ArtifactFamilyRoute.toValue))]

section
variable (sha256 : Sha256) (floatText : UInt64 → String)

/-- `canonical_json_bytes` of a record. -/
def canonicalBytes (value : Value) : Result (List UInt8) := do
  let bytes ← canonicalJsonBytes floatText value
  return bytes.data.toList

def TopologyRegistry.digest (registry : TopologyRegistry) : Result ContentDigest := do
  registry.validate
  let bytes ← canonicalBytes floatText registry.toValue
  return contentDigest sha256 bytes

structure TopologyTrustPolicy where
  minimumGeneration : Nat
  pinnedRegistryDigest : Option ContentDigest
  requiredTrustAnchor : Option String
deriving DecidableEq, Repr

def TopologyTrustPolicy.verify (policy : TopologyTrustPolicy) (registry : TopologyRegistry) :
    Result ContentDigest := do
  let digest ← registry.digest sha256 floatText
  check (decide (registry.generation < policy.minimumGeneration))
    (.invalidManifest ("topology generation " ++ toString registry.generation ++
      " is below trusted minimum " ++ toString policy.minimumGeneration))
  check (policy.pinnedRegistryDigest.any fun pinned => pinned != digest)
    (.digestMismatch ((policy.pinnedRegistryDigest.map ContentDigest.text).getD "") digest.text)
  check (policy.requiredTrustAnchor.any fun required => !registry.trustAnchorIds.contains required)
    (.invalidManifest "topology registry does not carry the required trust anchor")
  return digest

end

/-! ## Uniqueness -/

/-- Validated shards have distinct identifiers, none of them seen before. -/
theorem validateShards_unique {route : ArtifactFamilyRoute} {shards : List TopologyShardRoute}
    {sequences : List Nat}
    {shardIds : List String} {global global' : List (String × (String × CacheVisibility))}
    (h : validateShards route shards sequences shardIds global = .ok global') :
    (shards.map (·.shardId)).Nodup ∧ ∀ shard ∈ shards, shard.shardId ∉ shardIds := by
  induction shards generalizing sequences shardIds global with
  | nil => simp
  | cons shard rest ih =>
    rw [validateShards] at h
    obtain ⟨_, hfirst, h⟩ := bind_eq_ok h
    obtain ⟨_, _, h⟩ := bind_eq_ok h
    obtain ⟨hnodup, hfresh⟩ := ih h
    have hnew := check_ok hfirst
    simp only [Bool.or_eq_false_iff, List.contains_eq_mem, decide_eq_false_iff_not] at hnew
    constructor
    · rw [List.map_cons, List.nodup_cons]
      refine ⟨fun hmem => ?_, hnodup⟩
      obtain ⟨other, hother, heq⟩ := List.mem_map.mp hmem
      exact hfresh other hother (by rw [heq]; exact List.mem_cons_self)
    · intro other hother
      rcases List.mem_cons.mp hother with rfl | hother
      · exact hnew.2
      · exact fun hmem => hfresh other hother (List.mem_cons_of_mem _ hmem)

theorem validateRoutes_unique {routes : List ArtifactFamilyRoute}
    {routeKeys : List (String × CacheVisibility)}
    {global : List (String × (String × CacheVisibility))}
    (h : validateRoutes routes routeKeys global = .ok ()) :
    (routes.map ArtifactFamilyRoute.key).Nodup ∧ (∀ route ∈ routes, route.key ∉ routeKeys) ∧
      ∀ route ∈ routes, (route.orderedShards.map (·.shardId)).Nodup := by
  induction routes generalizing routeKeys global with
  | nil => simp
  | cons route rest ih =>
    rw [validateRoutes] at h
    obtain ⟨_, hfirst, h⟩ := bind_eq_ok h
    obtain ⟨_, hshards, h⟩ := bind_eq_ok h
    obtain ⟨_, _, h⟩ := bind_eq_ok h
    obtain ⟨hnodup, hfresh, hrest⟩ := ih h
    have hnew := check_ok hfirst
    simp only [Bool.or_eq_false_iff, List.contains_eq_mem, decide_eq_false_iff_not] at hnew
    refine ⟨?_, fun other hother => ?_, fun other hother => ?_⟩
    · rw [List.map_cons, List.nodup_cons]
      refine ⟨fun hmem => ?_, hnodup⟩
      obtain ⟨other, hother, heq⟩ := List.mem_map.mp hmem
      exact hfresh other hother (by rw [heq]; exact List.mem_cons_self)
    · rcases List.mem_cons.mp hother with rfl | hother
      · exact hnew.2
      · exact fun hmem => hfresh other hother (List.mem_cons_of_mem _ hmem)
    · rcases List.mem_cons.mp hother with rfl | hother
      · exact (validateShards_unique hshards).1
      · exact hrest other hother

theorem validate_unique {registry : TopologyRegistry} (h : registry.validate = .ok ()) :
    (registry.familyRoutes.map ArtifactFamilyRoute.key).Nodup ∧
      ∀ route ∈ registry.familyRoutes, (route.orderedShards.map (·.shardId)).Nodup := by
  unfold TopologyRegistry.validate at h
  obtain ⟨_, _, h⟩ := bind_eq_ok h
  obtain ⟨_, _, h⟩ := bind_eq_ok h
  obtain ⟨_, _, h⟩ := bind_eq_ok h
  obtain ⟨hkeys, _, hshards⟩ := validateRoutes_unique h
  exact ⟨hkeys, hshards⟩

/-- What a trusted registry is known by. -/
theorem verify_ok {sha256 : Sha256} {floatText : UInt64 → String} {policy : TopologyTrustPolicy}
    {registry : TopologyRegistry} {digest : ContentDigest}
    (h : policy.verify sha256 floatText registry = .ok digest) :
    registry.digest sha256 floatText = .ok digest ∧ registry.validate = .ok () := by
  unfold TopologyTrustPolicy.verify at h
  obtain ⟨found, hdigest, h⟩ := bind_eq_ok h
  obtain ⟨_, _, h⟩ := bind_eq_ok h
  obtain ⟨_, _, h⟩ := bind_eq_ok h
  obtain ⟨_, _, h⟩ := bind_eq_ok h
  cases h
  refine ⟨hdigest, ?_⟩
  unfold TopologyRegistry.digest at hdigest
  obtain ⟨_, hvalid, _⟩ := bind_eq_ok hdigest
  exact hvalid

end Xcelerator.Cache.Topology
