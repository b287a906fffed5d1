import Mathlib
import Xcelerator.Cache.ArtifactManifest
import Xcelerator.Cache.Digest

/-! # The session-local store

A bounded in-memory cache with the evidence sink of one managed computation. The
clones of a store share one locked state, so a run is a sequence of operations. A
refused operation returns before it writes. The encoded length of a record is a
parameter, and so is the semantic envelope, which the store only compares. -/

namespace Xcelerator.Cache.EphemeralStore
open Xcelerator.Foundations.Machine
open Xcelerator.Cache.Artifact (ArtifactAssuranceState)
open Xcelerator.Cache.Digest (Sha256 contentDigest emptyDigest letterDigest)
open Xcelerator.Cache.Manifest

def maximumRecords : Nat := 8192

structure ProducedArtifactRecord (Envelope : Type) where
  operation : String
  semanticKey : Envelope
  logicalKey : String
  manifest : ArtifactManifest
  achievedAssurance : ArtifactAssuranceState
  assuranceEvidenceDigests : List ContentDigest
  payload : List UInt8
deriving DecidableEq

/-- The length of what `serde_json::to_vec` writes. -/
structure Encoded (Envelope : Type) where
  manifest : ArtifactManifest → Nat
  produced : ProducedArtifactRecord Envelope → Nat
  requirement : ArtifactAssuranceRequirement → Nat
  attestation : ArtifactAssuranceAttestation → Nat

structure State (Envelope : Type) where
  artifacts : List (ArtifactManifest × List UInt8)
  produced : List (ProducedArtifactRecord Envelope)
  attestations : List ArtifactAssuranceAttestation
  requirements : List ArtifactAssuranceRequirement
  evidence : List (ContentDigest × List UInt8)
  accountedBytes : Nat
deriving DecidableEq

def State.default {Envelope : Type} : State Envelope := ⟨[], [], [], [], [], 0⟩

variable {Envelope : Type}

/-- `new`: the budget of a store that exists is positive. -/
def new (maximumBytes : Nat) : Result (State Envelope) := do
  check (maximumBytes == 0) (.resourceLimit "ephemeral memory budget is zero")
  return .default

/-- The account after a reservation. -/
def reserve (maximumBytes : Nat) (state : State Envelope) (bytes count : Nat) : Result Nat := do
  let next ← require (checkedAdd state.accountedBytes bytes)
    (.resourceLimit "ephemeral memory accounting overflow")
  check (decide (maximumBytes < next) || decide (maximumRecords ≤ count))
    (.resourceLimit "ephemeral cache budget exhausted")
  return next

/-- Two encoded lengths and an allowance for the record. -/
def metadataBytes (encoded : Nat) : Result Nat :=
  require (if encoded * 2 < 2 ^ 64 then checkedAdd (encoded * 2) 1024 else none)
    (.resourceLimit "ephemeral metadata accounting overflow")

def checkEvidence (state : State Envelope) (digests : List ContentDigest) : Result Unit :=
  invalid (digests.any fun digest => !(state.evidence.any fun entry => entry.1 == digest))
    "ephemeral assurance references missing evidence"

def isKindByte (c : Char) : Bool :=
  isAsciiDigit c || ('a' ≤ c && c ≤ 'z') || ('A' ≤ c && c ≤ 'Z') || c == '_' || c == '-' || c == '.'

def draftManifest (sha256 : Sha256) (draft : ArtifactDraft) (payload : List UInt8) :
    ArtifactManifest where
  schemaVersion := draft.schemaVersion
  key := draft.key
  contentDigest := contentDigest sha256 payload
  sizeBytes := payload.length
  objects := [⟨contentDigest sha256 payload, payload.length⟩]
  createdUnixSeconds := 0
  producerToolkitVersion := draft.producerToolkitVersion
  minimumReaderVersion := draft.minimumReaderVersion
  maximumReaderVersion := draft.maximumReaderVersion
  quality := draft.quality
  visibility := draft.visibility
  immutable := draft.immutable
  dependencies := draft.dependencies
  tags := draft.tags
  provenanceDigest := draft.provenanceDigest

/-! ## Operations -/

section
variable (sha256 : Sha256) (encoded : Encoded Envelope) (maximumBytes : Nat)
    (state : State Envelope)

def put (draft : ArtifactDraft) (payload : List UInt8) :
    Result (ArtifactManifest × State Envelope) := do
  invalid (draft.visibility != .localOnly) "ephemeral drafts must be local"
  let manifest := draftManifest sha256 draft payload
  manifest.validate
  let metadata ← metadataBytes (encoded.manifest manifest)
  let bytes ← require (checkedAdd metadata payload.length)
    (.resourceLimit "ephemeral payload accounting overflow")
  if state.artifacts.any fun entry => entry.1 == manifest then return (manifest, state)
  else do
    let next ← reserve maximumBytes state bytes state.artifacts.length
    return (manifest, { state with
      artifacts := state.artifacts ++ [(manifest, payload)], accountedBytes := next })

def candidates (key : ArtifactKey) : Result (List ArtifactManifest) := do
  key.validate
  return (state.artifacts.filter fun entry => entry.1.key == key).map Prod.fst

def readPayload (manifest : ArtifactManifest) : Result (List UInt8) := do
  manifest.validate
  let entry ← require (state.artifacts.find? fun entry => entry.1 == manifest)
    (.notFound "ephemeral manifest")
  invalid (entry.2.length != manifest.sizeBytes ||
    contentDigest sha256 entry.2 != manifest.contentDigest)
    "ephemeral payload binding failed"
  return entry.2

variable [DecidableEq Envelope]

/-- The sink keeps the metadata of a record; its payload stays in the cache. -/
def record (artifact : ProducedArtifactRecord Envelope) : Result (State Envelope) := do
  artifact.manifest.validate
  invalid (contentDigest sha256 artifact.payload != artifact.manifest.contentDigest ||
    artifact.payload.length != artifact.manifest.sizeBytes)
      "ephemeral production payload binding failed"
  (ArtifactProductionAssessment.mk artifact.achievedAssurance
    artifact.assuranceEvidenceDigests).validate
  let retained := { artifact with payload := [] }
  let bytes ← metadataBytes (encoded.produced retained)
  checkEvidence state artifact.assuranceEvidenceDigests
  if state.produced.any fun entry => entry == retained then return state
  else do
    let next ← reserve maximumBytes state bytes state.produced.length
    return { state with produced := state.produced ++ [retained], accountedBytes := next }

/-- The newest attestation of an artifact, else its newest production. -/
def retainedAssurance (key : ArtifactKey) (digest : ContentDigest) :
    Option ArtifactProductionAssessment :=
  match state.attestations.reverse.find? fun entry => entry.artifactKey == key &&
    entry.contentDigest == digest with
  | some attestation => some attestation.assessment
  | none =>
    (state.produced.reverse.find? fun entry =>
      entry.manifest.key == key && entry.manifest.contentDigest == digest).map fun entry =>
        ⟨entry.achievedAssurance, entry.assuranceEvidenceDigests⟩

def recordAssuranceRequirement (requirement : ArtifactAssuranceRequirement) :
    Result (State Envelope) := do
  requirement.validate
  let bytes ← metadataBytes (encoded.requirement requirement)
  if state.requirements.contains requirement then return state
  else do
    let next ← reserve maximumBytes state bytes state.requirements.length
    return { state with requirements := state.requirements ++
            [requirement], accountedBytes := next }

def recordAssurance (attestation : ArtifactAssuranceAttestation) : Result (State Envelope) := do
  attestation.validate
  let bytes ← metadataBytes (encoded.attestation attestation)
  checkEvidence state attestation.evidenceDigests
  if state.attestations.contains attestation then return state
  else do
    let next ← reserve maximumBytes state bytes state.attestations.length
    return { state with attestations := state.attestations ++
            [attestation], accountedBytes := next }

def evidenceCharge (length : Nat) : Nat := min (length + 1024) (2 ^ 64 - 1)

def recordEvidence (kind : String) (bytes : List UInt8) :
    Result (ContentDigest × State Envelope) := do
  invalid (kind.isEmpty || decide (128 < kind.utf8ByteSize) || !kind.toList.all isKindByte)
    "ephemeral evidence kind is invalid"
  let digest := contentDigest sha256 bytes
  if state.evidence.any fun entry => entry.1 == digest then return (digest, state)
  else do
    let next ← reserve maximumBytes state (evidenceCharge bytes.length) state.evidence.length
    return (digest, { state with
      evidence := state.evidence ++ [(digest, bytes)], accountedBytes := next })

/-! ## Runs -/

inductive Operation (Envelope : Type) where
  | put (draft : ArtifactDraft) (payload : List UInt8)
  | record (artifact : ProducedArtifactRecord Envelope)
  | requirement (requirement : ArtifactAssuranceRequirement)
  | assurance (attestation : ArtifactAssuranceAttestation)
  | evidence (kind : String) (bytes : List UInt8)

/-- The state an operation returns, where it succeeds. -/
def outcome : Operation Envelope → Result (State Envelope)
  | .put draft payload => (put sha256 encoded maximumBytes state draft payload).map Prod.snd
  | .record artifact => record sha256 encoded maximumBytes state artifact
  | .requirement requirement => recordAssuranceRequirement encoded maximumBytes state requirement
  | .assurance attestation => recordAssurance encoded maximumBytes state attestation
  | .evidence kind bytes => (recordEvidence sha256 maximumBytes state kind bytes).map Prod.snd

def step (operation : Operation Envelope) : State Envelope :=
  match outcome sha256 encoded maximumBytes state operation with
  | .ok next => next
  | .error _ => state

def run (operations : List (Operation Envelope)) : State Envelope :=
  operations.foldl (fun state operation => step sha256 encoded maximumBytes state operation) state

end

/-! ## What an operation does -/

section
variable {sha256 : Sha256} {encoded : Encoded Envelope} {maximumBytes : Nat} {s t : State Envelope}

def artifactCharge (encoded : Encoded Envelope) (entry : ArtifactManifest × List UInt8) : Nat :=
  encoded.manifest entry.1 * 2 + 1024 + entry.2.length

def producedCharge (encoded : Encoded Envelope) (entry : ProducedArtifactRecord Envelope) : Nat :=
  encoded.produced entry * 2 + 1024

def attestationCharge (encoded : Encoded Envelope) (entry : ArtifactAssuranceAttestation) : Nat :=
  encoded.attestation entry * 2 + 1024

def requirementCharge (encoded : Encoded Envelope) (entry : ArtifactAssuranceRequirement) : Nat :=
  encoded.requirement entry * 2 + 1024

/-- The evidence of an assessment is in the store. -/
def Resident (s : State Envelope) (digests : List ContentDigest) : Prop :=
  ∀ digest ∈ digests, digest ∈ s.evidence.map Prod.fst

/-- One retained record, within the budget. -/
inductive Retains (sha256 : Sha256) (encoded : Encoded Envelope) (maximumBytes : Nat)
    (s : State Envelope) :
    State Envelope → Prop
  | artifact (manifest : ArtifactManifest) (payload : List UInt8) (next : Nat)
      (valid : manifest.validate = .ok ())
      (digest : manifest.contentDigest = contentDigest sha256 payload)
      (size : manifest.sizeBytes = payload.length) (own : manifest.visibility = .localOnly)
      (fresh : manifest ∉ s.artifacts.map Prod.fst) (count : s.artifacts.length < maximumRecords)
      (account : next = s.accountedBytes + artifactCharge encoded (manifest, payload))
      (budget : next ≤ maximumBytes) :
      Retains sha256 encoded maximumBytes s
        { s with artifacts := s.artifacts ++ [(manifest, payload)], accountedBytes := next }
  | produced (entry : ProducedArtifactRecord Envelope) (next : Nat)
      (valid : entry.manifest.validate = .ok ()) (cleared : entry.payload = [])
      (supported : Supported ⟨entry.achievedAssurance, entry.assuranceEvidenceDigests⟩)
      (resident : Resident s entry.assuranceEvidenceDigests)
      (fresh : entry ∉ s.produced) (count : s.produced.length < maximumRecords)
      (account : next = s.accountedBytes + producedCharge encoded entry)
      (budget : next ≤ maximumBytes) :
      Retains sha256 encoded maximumBytes s { s with
        produced := s.produced ++ [entry], accountedBytes := next }
  | requirement (entry : ArtifactAssuranceRequirement) (next : Nat)
      (valid : entry.validate = .ok ())
      (fresh : entry ∉ s.requirements) (count : s.requirements.length < maximumRecords)
      (account : next = s.accountedBytes + requirementCharge encoded entry)
      (budget : next ≤ maximumBytes) :
      Retains sha256 encoded maximumBytes s { s with
        requirements := s.requirements ++ [entry], accountedBytes := next }
  | attestation (entry : ArtifactAssuranceAttestation) (next : Nat)
      (supported : Supported entry.assessment)
      (resident : Resident s entry.evidenceDigests)
      (fresh : entry ∉ s.attestations) (count : s.attestations.length < maximumRecords)
      (account : next = s.accountedBytes + attestationCharge encoded entry)
      (budget : next ≤ maximumBytes) :
      Retains sha256 encoded maximumBytes s { s with
        attestations := s.attestations ++ [entry], accountedBytes := next }
  | evidence (bytes : List UInt8) (next : Nat)
      (fresh : contentDigest sha256 bytes ∉ s.evidence.map Prod.fst)
      (count : s.evidence.length < maximumRecords)
      (account : next = s.accountedBytes + evidenceCharge bytes.length)
      (budget : next ≤ maximumBytes) :
      Retains sha256 encoded maximumBytes s
        { s with evidence := s.evidence ++
          [(contentDigest sha256 bytes, bytes)], accountedBytes := next }

theorem reserve_ok {bytes count next : Nat} (h : reserve maximumBytes s bytes count = .ok next) :
    next = s.accountedBytes + bytes ∧ next ≤ maximumBytes ∧ count < maximumRecords := by
  obtain ⟨a, ha, h⟩ := bind_eq_ok h
  obtain ⟨_, hc, h⟩ := bind_eq_ok h
  cases h
  have hcheck := check_ok hc
  simp only [Bool.or_eq_false_iff, decide_eq_false_iff_not, not_lt, not_le] at hcheck
  exact ⟨checkedAdd_some (require_ok ha), hcheck.1, hcheck.2⟩

theorem metadataBytes_ok {length bytes : Nat} (h : metadataBytes length = .ok bytes) :
    bytes = length * 2 + 1024 := by
  have hsome := require_ok h
  split at hsome
  · exact checkedAdd_some hsome
  · cases hsome

theorem mem_fst_iff {α : Type} {entries : List (α × List UInt8)} {a : α} :
    a ∈ entries.map Prod.fst ↔ ∃ bytes, (a, bytes) ∈ entries := by
  simp

theorem any_fst {α : Type} [DecidableEq α] {entries : List (α × List UInt8)} {a : α} :
    (entries.any fun entry => entry.1 == a) = true ↔ a ∈ entries.map Prod.fst := by
  simp

theorem checkEvidence_ok {digests : List ContentDigest} {u : Unit}
    (h : checkEvidence s digests = .ok u) :
    Resident s digests := by
  have hall := check_ok h
  rw [List.any_eq_false] at hall
  intro digest hmem
  have hany := hall digest hmem
  rw [Bool.not_eq_true, Bool.not_eq_false'] at hany
  exact any_fst.mp hany

theorem put_ok {draft : ArtifactDraft} {payload : List UInt8} {manifest : ArtifactManifest}
    (h : put sha256 encoded maximumBytes s draft payload = .ok (manifest, t)) :
    manifest = draftManifest sha256 draft payload ∧ manifest.validate = .ok () ∧
      (manifest ∈ s.artifacts.map Prod.fst ∧ t = s ∨
        Retains sha256 encoded maximumBytes s t ∧ (manifest, payload) ∈ t.artifacts) := by
  obtain ⟨_, hlocal, h⟩ := bind_eq_ok h
  obtain ⟨_, hvalid, h⟩ := bind_eq_ok h
  obtain ⟨metadata, hmetadata, h⟩ := bind_eq_ok h
  obtain ⟨bytes, hbytes, h⟩ := bind_eq_ok h
  have hown : draft.visibility = .localOnly := by simpa using check_ok hlocal
  have hcharge : bytes = artifactCharge encoded (draftManifest sha256 draft payload, payload) := by
    rw [checkedAdd_some (require_ok hbytes), metadataBytes_ok hmetadata]
    rfl
  split at h
  · next hany =>
    cases h
    exact ⟨rfl, hvalid, .inl ⟨any_fst.mp hany, rfl⟩⟩
  · next hany =>
    obtain ⟨next, hnext, h⟩ := bind_eq_ok h
    obtain ⟨haccount, hbudget, hcount⟩ := reserve_ok hnext
    cases h
    refine ⟨rfl, hvalid, .inr ⟨?_, by simp⟩⟩
    exact .artifact _ payload next hvalid rfl rfl hown (fun hmem => hany (any_fst.mpr hmem)) hcount
      (hcharge ▸ haccount) hbudget

theorem recordEvidence_ok {kind : String} {bytes : List UInt8} {digest : ContentDigest}
    (h : recordEvidence sha256 maximumBytes s kind bytes = .ok (digest, t)) :
    t = s ∨ Retains sha256 encoded maximumBytes s t := by
  obtain ⟨_, -, h⟩ := bind_eq_ok h
  replace h : (if (s.evidence.any fun entry => entry.1 == contentDigest sha256 bytes) = true then _
    else _) = _ := h
  split at h
  · cases h
    exact .inl rfl
  · next hany =>
    obtain ⟨next, hnext, h⟩ := bind_eq_ok h
    obtain ⟨haccount, hbudget, hcount⟩ := reserve_ok hnext
    cases h
    exact .inr (.evidence bytes next (fun hmem => hany (any_fst.mpr hmem)) hcount haccount hbudget)

theorem recordAssuranceRequirement_ok {requirement : ArtifactAssuranceRequirement}
    (h : recordAssuranceRequirement encoded maximumBytes s requirement = .ok t) :
    t = s ∨ Retains sha256 encoded maximumBytes s t := by
  obtain ⟨_, hvalid, h⟩ := bind_eq_ok h
  obtain ⟨bytes, hbytes, h⟩ := bind_eq_ok h
  split at h
  · cases h
    exact .inl rfl
  · next hcontains =>
    obtain ⟨next, hnext, h⟩ := bind_eq_ok h
    obtain ⟨haccount, hbudget, hcount⟩ := reserve_ok hnext
    cases h
    rw [metadataBytes_ok hbytes] at haccount
    exact .inr (.requirement requirement next hvalid
      (by simpa using hcontains) hcount haccount hbudget)

theorem recordAssurance_ok {attestation : ArtifactAssuranceAttestation}
    (h : recordAssurance encoded maximumBytes s attestation = .ok t) :
    attestation ∈ s.attestations ∧ t = s ∨
      Retains sha256 encoded maximumBytes s t ∧ t.attestations = s.attestations ++
        [attestation] := by
  obtain ⟨_, hvalid, h⟩ := bind_eq_ok h
  obtain ⟨bytes, hbytes, h⟩ := bind_eq_ok h
  obtain ⟨_, hevidence, h⟩ := bind_eq_ok h
  split at h
  · next hcontains =>
    cases h
    exact .inl ⟨by simpa using hcontains, rfl⟩
  · next hcontains =>
    obtain ⟨next, hnext, h⟩ := bind_eq_ok h
    obtain ⟨haccount, hbudget, hcount⟩ := reserve_ok hnext
    cases h
    rw [metadataBytes_ok hbytes] at haccount
    refine .inr ⟨.attestation attestation next ?_ ?_ (by simpa using hcontains) hcount haccount
      hbudget, rfl⟩
    · exact ArtifactAssuranceAttestation.supported hvalid
    · exact checkEvidence_ok hevidence

variable [DecidableEq Envelope]

theorem record_ok {artifact : ProducedArtifactRecord Envelope}
    (h : record sha256 encoded maximumBytes s artifact = .ok t) :
    t = s ∨ Retains sha256 encoded maximumBytes s t := by
  obtain ⟨_, hvalid, h⟩ := bind_eq_ok h
  obtain ⟨_, -, h⟩ := bind_eq_ok h
  obtain ⟨_, hassessment, h⟩ := bind_eq_ok h
  obtain ⟨bytes, hbytes, h⟩ := bind_eq_ok h
  obtain ⟨_, hevidence, h⟩ := bind_eq_ok h
  split at h
  · cases h
    exact .inl rfl
  · next hany =>
    obtain ⟨next, hnext, h⟩ := bind_eq_ok h
    obtain ⟨haccount, hbudget, hcount⟩ := reserve_ok hnext
    cases h
    rw [metadataBytes_ok hbytes] at haccount
    refine .inr (.produced _ next hvalid rfl ?_ (checkEvidence_ok hevidence)
      (by simpa using hany) hcount haccount
      hbudget)
    exact ArtifactProductionAssessment.supported hassessment

theorem map_snd_ok {α β : Type} {x : Result (α × β)} {b : β} (h : x.map Prod.snd = .ok b) :
    ∃ a, x = .ok (a, b) := by
  cases x with
  | error e => cases h
  | ok p => exact ⟨p.1, by cases h; rfl⟩

/-- An operation retains one record or leaves the state as it was. -/
theorem step_cases (operation : Operation Envelope) :
    step sha256 encoded maximumBytes s operation = s ∨
      Retains sha256 encoded maximumBytes s (step sha256 encoded maximumBytes s operation) := by
  unfold step
  cases houtcome : outcome sha256 encoded maximumBytes s operation with
  | error e => exact .inl rfl
  | ok t =>
    cases operation with
    | put draft payload =>
      obtain ⟨manifest, h⟩ := map_snd_ok houtcome
      rcases (put_ok h).2.2 with ⟨-, rfl⟩ | ⟨h, -⟩
      · exact .inl rfl
      · exact .inr h
    | record artifact => exact record_ok houtcome
    | requirement requirement => exact recordAssuranceRequirement_ok houtcome
    | assurance attestation =>
      rcases recordAssurance_ok houtcome with ⟨-, rfl⟩ | ⟨h, -⟩
      · exact .inl rfl
      · exact .inr h
    | evidence kind bytes =>
      obtain ⟨digest, h⟩ := map_snd_ok houtcome
      exact recordEvidence_ok h

/-- What every single retained record keeps, a run keeps. -/
theorem run_induction {P : State Envelope → Prop} (hs : P s)
    (hstep : ∀ u v, P u → Retains sha256 encoded maximumBytes u v → P v)
    (operations : List (Operation Envelope)) :
    P (run sha256 encoded maximumBytes s operations) := by
  induction operations generalizing s with
  | nil => exact hs
  | cons operation operations ih =>
    refine ih ?_
    rcases @step_cases _ sha256 encoded maximumBytes s _ operation with h | h
    · change P (step sha256 encoded maximumBytes s operation)
      rw [h]
      exact hs
    · exact hstep s _ hs h

end

/-! ## The budget -/

section
variable {sha256 : Sha256} {encoded : Encoded Envelope} {maximumBytes : Nat} {s t : State Envelope}

/-- The charges of everything the store holds. -/
def charges (encoded : Encoded Envelope) (s : State Envelope) : Nat :=
  (s.artifacts.map (artifactCharge encoded)).sum + (s.produced.map (producedCharge encoded)).sum +
    (s.attestations.map (attestationCharge encoded)).sum +
    (s.requirements.map (requirementCharge encoded)).sum +
      (s.evidence.map fun entry => evidenceCharge entry.2.length).sum

structure Bounded (encoded : Encoded Envelope) (maximumBytes : Nat) (s : State Envelope) :
    Prop where
  account : s.accountedBytes = charges encoded s
  budget : s.accountedBytes ≤ maximumBytes
  counts : s.artifacts.length ≤ maximumRecords ∧ s.produced.length ≤ maximumRecords ∧
    s.attestations.length ≤ maximumRecords ∧ s.requirements.length ≤ maximumRecords ∧
    s.evidence.length ≤ maximumRecords
  distinct : (s.artifacts.map Prod.fst).Nodup ∧ s.produced.Nodup ∧ s.attestations.Nodup ∧
    s.requirements.Nodup ∧
    (s.evidence.map Prod.fst).Nodup

theorem bounded_default : Bounded encoded maximumBytes (.default : State Envelope) :=
  ⟨rfl, Nat.zero_le _, by simp [State.default], by simp [State.default]⟩

theorem nodup_concat {α : Type} {xs : List α} {x : α} (hx : x ∉ xs) (h : xs.Nodup) :
    (xs ++ [x]).Nodup :=
  List.Nodup.append h (List.nodup_singleton x) (by simpa using hx)

theorem Bounded.retains (hs : Bounded encoded maximumBytes s)
    (h : Retains sha256 encoded maximumBytes s t) :
    Bounded encoded maximumBytes t := by
  obtain ⟨haccount, -, ⟨ha, hp, ht, hr, he⟩, da, dp, dt, dr, de⟩ := hs
  cases h with
  | artifact manifest payload next valid digest size own fresh count account budget =>
    refine ⟨?_, budget, ⟨by simpa using count, hp, ht, hr, he⟩, by
      simpa using nodup_concat fresh da, dp, dt, dr, de⟩
    rw [account, haccount]
    simp only [charges, List.map_append, List.map_cons, List.map_nil, List.sum_append,
      List.sum_singleton]
    omega
  | produced entry next valid cleared supported resident fresh count account budget =>
    refine ⟨?_, budget, ⟨ha, by simpa using count, ht, hr, he⟩, da, nodup_concat fresh dp,
      dt, dr, de⟩
    rw [account, haccount]
    simp only [charges, List.map_append, List.map_cons, List.map_nil, List.sum_append,
      List.sum_singleton]
    omega
  | requirement entry next valid fresh count account budget =>
    refine ⟨?_, budget, ⟨ha, hp, ht, by simpa using count, he⟩, da, dp, dt,
      nodup_concat fresh dr, de⟩
    rw [account, haccount]
    simp only [charges, List.map_append, List.map_cons, List.map_nil, List.sum_append,
      List.sum_singleton]
    omega
  | attestation entry next supported resident fresh count account budget =>
    refine ⟨?_, budget, ⟨ha, hp, by simpa using count, hr, he⟩, da, dp,
      nodup_concat fresh dt, dr, de⟩
    rw [account, haccount]
    simp only [charges, List.map_append, List.map_cons, List.map_nil, List.sum_append,
      List.sum_singleton]
    omega
  | evidence bytes next fresh count account budget =>
    refine ⟨?_, budget, ⟨ha, hp, ht, hr, by simpa using count⟩, da, dp, dt, dr, by
      simpa using nodup_concat fresh de⟩
    rw [account, haccount]
    simp only [charges, List.map_append, List.map_cons, List.map_nil, List.sum_append,
      List.sum_singleton]
    omega

end

/-! ## What is held -/

section
variable {sha256 : Sha256} {encoded : Encoded Envelope} {maximumBytes : Nat} {s t : State Envelope}

structure Bound (sha256 : Sha256) (s : State Envelope) : Prop where
  artifacts : ∀ entry ∈ s.artifacts, entry.1.validate = .ok () ∧
    entry.1.contentDigest = contentDigest sha256 entry.2 ∧ entry.1.sizeBytes = entry.2.length ∧
      entry.1.visibility = .localOnly
  evidence : ∀ entry ∈ s.evidence, entry.1 = contentDigest sha256 entry.2
  requirements : ∀ entry ∈ s.requirements, entry.validate = .ok ()
  produced : ∀ entry ∈ s.produced, entry.manifest.validate = .ok () ∧ entry.payload = [] ∧
    Supported ⟨entry.achievedAssurance, entry.assuranceEvidenceDigests⟩ ∧
    Resident s entry.assuranceEvidenceDigests
  attestations : ∀ entry ∈ s.attestations, Supported entry.assessment ∧
    Resident s entry.evidenceDigests

theorem bound_default : Bound sha256 (.default : State Envelope) := by
  constructor <;> simp [State.default]

theorem forall_concat {α : Type} {P : α → Prop} {xs : List α} {x : α} (h : ∀ y ∈ xs, P y)
    (hx : P x) :
    ∀ y ∈ xs ++ [x], P y := by
  intro y hy
  rcases List.mem_append.mp hy with hy | hy
  · exact h y hy
  · exact List.mem_singleton.mp hy ▸ hx

theorem Resident.mono {digests : List ContentDigest} (h : Resident s digests)
    (hsub : ∀ entry ∈ s.evidence, entry ∈ t.evidence) : Resident t digests := by
  intro digest hdigest
  obtain ⟨bytes, hmem⟩ := mem_fst_iff.mp (h digest hdigest)
  exact mem_fst_iff.mpr ⟨bytes, hsub _ hmem⟩

theorem Bound.retains (hs : Bound sha256 s) (h : Retains sha256 encoded maximumBytes s t) :
    Bound sha256 t := by
  cases h with
  | artifact manifest payload next valid digest size own fresh count account budget =>
    exact ⟨forall_concat hs.artifacts ⟨valid, digest, size, own⟩, hs.evidence, hs.requirements,
      hs.produced, hs.attestations⟩
  | produced entry next valid cleared supported resident fresh count account budget =>
    exact ⟨hs.artifacts, hs.evidence, hs.requirements,
      forall_concat hs.produced ⟨valid, cleared, supported, resident⟩, hs.attestations⟩
  | requirement entry next valid fresh count account budget =>
    exact ⟨hs.artifacts, hs.evidence, forall_concat hs.requirements valid, hs.produced,
      hs.attestations⟩
  | attestation entry next supported resident fresh count account budget =>
    exact ⟨hs.artifacts, hs.evidence, hs.requirements, hs.produced,
      forall_concat hs.attestations ⟨supported, resident⟩⟩
  | evidence bytes next fresh count account budget =>
    refine ⟨hs.artifacts, forall_concat hs.evidence rfl, hs.requirements, fun entry hentry => ?_,
      fun entry hentry => ?_⟩
    · obtain ⟨hvalid, hcleared, hsupported, hresident⟩ := hs.produced entry hentry
      exact ⟨hvalid, hcleared, hsupported, hresident.mono fun _ h => List.mem_append_left _ h⟩
    · obtain ⟨hsupported, hresident⟩ := hs.attestations entry hentry
      exact ⟨hsupported, hresident.mono fun _ h => List.mem_append_left _ h⟩

theorem run_bounded [DecidableEq Envelope] {start : State Envelope}
    (hnew : new maximumBytes = .ok start) (operations : List (Operation Envelope)) :
    Bounded encoded maximumBytes (run sha256 encoded maximumBytes start operations) := by
  obtain ⟨_, -, h⟩ := bind_eq_ok hnew
  cases h
  exact run_induction bounded_default (fun _ _ hs h => hs.retains h) operations

theorem run_bound [DecidableEq Envelope] {start : State Envelope}
    (hnew : new maximumBytes = .ok start)
    (operations : List (Operation Envelope)) :
    Bound sha256 (run sha256 encoded maximumBytes start operations) := by
  obtain ⟨_, -, h⟩ := bind_eq_ok hnew
  cases h
  exact run_induction bound_default (fun _ _ hs h => hs.retains h) operations

/-- Every session stays inside its budget, whose account is what its records cost, and holds only
local payloads bound to their manifests, evidence under its own digest, and assurance claims whose
evidence is resident. -/
theorem session_invariant [DecidableEq Envelope] {start : State Envelope}
    (hnew : new maximumBytes = .ok start) (operations : List (Operation Envelope)) :
    Bounded encoded maximumBytes (run sha256 encoded maximumBytes start operations) ∧
      Bound sha256 (run sha256 encoded maximumBytes start operations) :=
  ⟨run_bounded hnew operations, run_bound hnew operations⟩

end

/-! A session that produces one payload and cross-checks it against two texts. -/

def sampleKey : ArtifactKey := ⟨"fixture", "exact", contentDigest letterDigest []⟩

def sampleDraft : ArtifactDraft where
  schemaVersion := 1
  key := sampleKey
  producerToolkitVersion := ⟨0, 14, 0, none⟩
  minimumReaderVersion := ⟨0, 14, 0, none⟩
  maximumReaderVersion := none
  quality := .validated
  visibility := .localOnly
  immutable := true
  dependencies := []
  tags := []
  provenanceDigest := none

def samplePayload : List UInt8 := [0x61]

def sampleManifest : ArtifactManifest := draftManifest letterDigest sampleDraft samplePayload

def sampleEvidence : List ContentDigest :=
  [contentDigest letterDigest [0x63], contentDigest letterDigest [0x62]]

def sampleRecord : ProducedArtifactRecord Unit :=
  ⟨"exact_product", (), "exact", sampleManifest, .computed, [], samplePayload⟩

def sampleRequirement : ArtifactAssuranceRequirement :=
  ⟨1, sampleKey, contentDigest letterDigest samplePayload, .crossChecked⟩

def sampleAttestation : ArtifactAssuranceAttestation :=
  ⟨1, sampleKey, contentDigest letterDigest samplePayload, .crossChecked, sampleEvidence⟩

def sampleEncoded : Encoded Unit := ⟨fun _ => 688, fun _ => 848, fun _ => 284, fun _ => 439⟩

/-- What follows the payload: its record, the requirement, the two texts and the attestation. -/
def sampleLater : List (Operation Unit) :=
  [.record sampleRecord, .requirement sampleRequirement, .evidence "report" [0x62],
    .evidence "report" [0x63], .assurance sampleAttestation]

def sampleOperations : List (Operation Unit) := .put sampleDraft samplePayload :: sampleLater

/-- The session after the payload alone, and after everything. -/
def sampleHeld : State Unit :=
  { State.default with artifacts := [(sampleManifest, samplePayload)], accountedBytes := 2401 }

def sampleAttested : State Unit :=
  { sampleHeld with
    produced := [{ sampleRecord with payload := [] }]
    attestations := [sampleAttestation]
    requirements := [sampleRequirement]
    evidence := [(contentDigest letterDigest [0x62], [0x62]),
      (contentDigest letterDigest [0x63], [0x63])]
    accountedBytes := 10665 }

theorem sample_session :
    (put letterDigest sampleEncoded 16384 .default sampleDraft samplePayload).toOption =
        some (sampleManifest, sampleHeld) ∧
      run letterDigest sampleEncoded 16384 .default sampleOperations = sampleAttested ∧
      retainedAssurance sampleAttested sampleKey (contentDigest letterDigest samplePayload) =
        some ⟨.crossChecked, sampleEvidence⟩ := by
  decide +kernel

theorem session_invariant_sample :
    Bounded sampleEncoded 16384 sampleAttested ∧ Bound letterDigest sampleAttested := by
  rw [← sample_session.2.1]
  exact @session_invariant Unit letterDigest sampleEncoded 16384 _ .default rfl sampleOperations

/-! ## What stays -/

section
variable {sha256 : Sha256} {encoded : Encoded Envelope} {maximumBytes : Nat} {s t : State Envelope}

/-- Nothing is dropped or reordered. -/
structure Extends (s t : State Envelope) : Prop where
  artifacts : s.artifacts <+: t.artifacts
  produced : s.produced <+: t.produced
  attestations : s.attestations <+: t.attestations
  requirements : s.requirements <+: t.requirements
  evidence : s.evidence <+: t.evidence
  account : s.accountedBytes ≤ t.accountedBytes

theorem Extends.refl (s : State Envelope) : Extends s s :=
  ⟨List.prefix_rfl, List.prefix_rfl, List.prefix_rfl, List.prefix_rfl, List.prefix_rfl, le_rfl⟩

theorem Extends.trans {s t u : State Envelope} (h : Extends s t) (k : Extends t u) : Extends s u :=
  ⟨h.artifacts.trans k.artifacts, h.produced.trans k.produced, h.attestations.trans k.attestations,
    h.requirements.trans k.requirements, h.evidence.trans k.evidence, h.account.trans k.account⟩

theorem Retains.extends (h : Retains sha256 encoded maximumBytes s t) : Extends s t := by
  have hs := Extends.refl s
  cases h with
  | artifact manifest payload next valid digest size own fresh count account budget =>
    exact { hs with artifacts := List.prefix_append .., account := account ▸ Nat.le_add_right .. }
  | produced entry next valid cleared supported resident fresh count account budget =>
    exact { hs with produced := List.prefix_append .., account := account ▸ Nat.le_add_right .. }
  | requirement entry next valid fresh count account budget =>
    exact { hs with requirements := List.prefix_append .., account := account ▸
      Nat.le_add_right .. }
  | attestation entry next supported resident fresh count account budget =>
    exact { hs with attestations := List.prefix_append .., account := account ▸
      Nat.le_add_right .. }
  | evidence bytes next fresh count account budget =>
    exact { hs with evidence := List.prefix_append .., account := account ▸ Nat.le_add_right .. }

theorem run_extends [DecidableEq Envelope] (operations : List (Operation Envelope)) :
    Extends s (run sha256 encoded maximumBytes s operations) :=
  run_induction (Extends.refl s) (fun _ _ hs h => hs.trans h.extends) operations

theorem find_fst {α : Type} [DecidableEq α] {entries : List (α × List UInt8)} {a : α}
    (h : a ∈ entries.map Prod.fst) :
    ∃ bytes, (a, bytes) ∈ entries ∧
    (entries.find? fun entry => entry.1 == a) = some (a, bytes) := by
  cases hfind : entries.find? fun entry => entry.1 == a with
  | none =>
    obtain ⟨bytes, hmem⟩ := mem_fst_iff.mp h
    exact absurd (List.find?_eq_none.mp hfind _ hmem) (by simp)
  | some entry =>
    have hkey : entry.1 = a := by simpa using List.find?_some hfind
    exact ⟨entry.2, hkey ▸ List.mem_of_find?_eq_some hfind, by rw [← hkey]⟩

theorem readPayload_of_mem (hs : Bound sha256 s) {manifest : ArtifactManifest}
    (h : manifest ∈ s.artifacts.map Prod.fst) :
    ∃ bytes, (manifest, bytes) ∈ s.artifacts ∧ readPayload sha256 s manifest = .ok bytes := by
  obtain ⟨bytes, hmem, hfind⟩ := find_fst h
  obtain ⟨hvalid, hdigest, hsize, -⟩ := hs.artifacts _ hmem
  refine ⟨bytes, hmem, ?_⟩
  have hbinding : (bytes.length != manifest.sizeBytes ||
      contentDigest sha256 bytes != manifest.contentDigest) = false := by
    simp only [Bool.or_eq_false_iff, bne_eq_false_iff_eq]
    exact ⟨hsize.symm, hdigest.symm⟩
  unfold readPayload
  rw [hvalid, ok_bind, hfind, require, ok_bind]
  dsimp only
  rw [hbinding]
  rfl

/-- A payload that a session accepted is read back for the rest of the session, under the manifest
it was accepted with: the same length and the same SHA-256, whatever else is recorded or refused. -/
theorem accepted_payload_reads_back [DecidableEq Envelope] {start : State Envelope}
    (hnew : new maximumBytes = .ok start) (before after : List (Operation Envelope))
    {draft : ArtifactDraft} {payload : List UInt8} {manifest : ArtifactManifest}
    {accepted : State Envelope}
    (hput : put sha256 encoded maximumBytes (run sha256 encoded maximumBytes start before)
      draft payload =
      .ok (manifest, accepted)) :
    ∃ bytes, readPayload sha256 (run sha256 encoded maximumBytes accepted after) manifest =
      .ok bytes ∧
      sha256 bytes = sha256 payload ∧ bytes.length = payload.length ∧
      ∃ listed, candidates (run sha256 encoded maximumBytes accepted after) manifest.key =
        .ok listed ∧
        manifest ∈ listed := by
  obtain ⟨hmanifest, hvalid, hcases⟩ := put_ok hput
  have hbefore := @run_bound _ sha256 encoded maximumBytes _ start hnew before
  have haccepted : Bound sha256 accepted ∧ manifest ∈ accepted.artifacts.map Prod.fst := by
    rcases hcases with ⟨hmem, rfl⟩ | ⟨hretains, hmem⟩
    · exact ⟨hbefore, hmem⟩
    · exact ⟨hbefore.retains hretains, mem_fst_iff.mpr ⟨payload, hmem⟩⟩
  have hrun : Bound sha256 (run sha256 encoded maximumBytes accepted after) :=
    run_induction haccepted.1 (fun _ _ hs h => hs.retains h) after
  have hextends := @run_extends _ sha256 encoded maximumBytes accepted _ after
  have hmem := (hextends.artifacts.map Prod.fst).subset haccepted.2
  obtain ⟨bytes, hentry, hread⟩ := readPayload_of_mem hrun hmem
  obtain ⟨-, hdigest, hsize, -⟩ := hrun.artifacts _ hentry
  refine ⟨bytes, hread, ?_, ?_, ?_⟩
  · refine Digest.contentDigest_injective (hdigest.symm.trans ?_)
    rw [hmanifest]
    rfl
  · rw [← hsize, hmanifest]
    rfl
  · obtain ⟨_, hkey, -⟩ := bind_eq_ok hvalid
    refine ⟨_, by rw [candidates, hkey, ok_bind]; rfl, ?_⟩
    exact List.mem_map.mpr ⟨_, List.mem_filter.mpr ⟨hentry, by simp⟩, rfl⟩

theorem accepted_payload_reads_back_sample :
    ∃ bytes, readPayload letterDigest (run letterDigest sampleEncoded 16384 sampleHeld sampleLater)
      sampleManifest =
        .ok bytes ∧
      letterDigest bytes = letterDigest samplePayload ∧ bytes.length = 1 ∧
      ∃ listed, candidates (run letterDigest sampleEncoded 16384 sampleHeld sampleLater) sampleKey =
        .ok listed ∧
        sampleManifest ∈ listed :=
  @accepted_payload_reads_back Unit letterDigest sampleEncoded 16384 _ .default rfl [] sampleLater
    sampleDraft samplePayload sampleManifest sampleHeld (toOption_ok sample_session.1)

/-! ## Assurance -/

theorem retainedAssurance_mem [DecidableEq Envelope] {key : ArtifactKey} {digest : ContentDigest}
    {assessment : ArtifactProductionAssessment}
    (h : retainedAssurance s key digest = some assessment) :
    (∃ entry ∈ s.attestations, entry.assessment = assessment) ∨
      ∃ entry ∈ s.produced, ArtifactProductionAssessment.mk entry.achievedAssurance
        entry.assuranceEvidenceDigests =
        assessment := by
  unfold retainedAssurance at h
  split at h
  · next attestation hfind =>
    exact .inl ⟨attestation, List.mem_reverse.mp (List.mem_of_find?_eq_some hfind),
      Option.some.inj h⟩
  · obtain ⟨entry, hfind, hentry⟩ := Option.map_eq_some_iff.mp h
    exact .inr ⟨entry, List.mem_reverse.mp (List.mem_of_find?_eq_some hfind), hentry⟩

theorem Bound.retainedAssurance [DecidableEq Envelope] (hs : Bound sha256 s) {key : ArtifactKey}
    {digest : ContentDigest} {assessment : ArtifactProductionAssessment}
    (h : EphemeralStore.retainedAssurance s key digest = some assessment) :
    Supported assessment ∧ Resident s assessment.evidenceDigests := by
  rcases retainedAssurance_mem h with ⟨entry, hmem, rfl⟩ | ⟨entry, hmem, rfl⟩
  · exact hs.attestations entry hmem
  · exact (hs.produced entry hmem).2.2

theorem retainedAssurance_isSome [DecidableEq Envelope] {key : ArtifactKey}
    {digest : ContentDigest} :
    (retainedAssurance s key digest).isSome = true ↔
      (∃ entry ∈ s.attestations, entry.artifactKey = key ∧ entry.contentDigest = digest) ∨
        ∃ entry ∈ s.produced, entry.manifest.key = key ∧ entry.manifest.contentDigest = digest := by
  unfold retainedAssurance
  split
  · next attestation hfind =>
    have hkey := List.find?_some hfind
    simp only [Bool.and_eq_true, beq_iff_eq] at hkey
    simp only [Option.isSome_some, true_iff]
    exact .inl ⟨attestation, List.mem_reverse.mp (List.mem_of_find?_eq_some hfind), hkey⟩
  · next hfind =>
    rw [List.find?_eq_none] at hfind
    rw [Option.isSome_map, List.find?_isSome]
    simp only [List.mem_reverse, Bool.and_eq_true, beq_iff_eq] at hfind ⊢
    constructor
    · exact .inr
    · rintro (⟨entry, hmem, hkey⟩ | h)
      · exact absurd hkey (hfind entry hmem)
      · exact h

/-- Evidence for a claim: the texts its digests name are resident, two different ones for a
cross-check and at least one for a certificate. -/
structure Witnessed (sha256 : Sha256) (s : State Envelope)
    (assessment : ArtifactProductionAssessment) : Prop where
  resident : ∀ digest ∈ assessment.evidenceDigests, ∃ bytes, (digest, bytes) ∈ s.evidence ∧
    digest = contentDigest sha256 bytes
  crossChecked : assessment.achievedAssurance = .crossChecked →
    ∃ a ∈ s.evidence, ∃ b ∈ s.evidence, a.1 ∈ assessment.evidenceDigests ∧
    b.1 ∈ assessment.evidenceDigests ∧
      a.2 ≠ b.2
  certified : assessment.achievedAssurance = .certified →
    ∃ a ∈ s.evidence, a.1 ∈ assessment.evidenceDigests

theorem Bound.witnessed (hs : Bound sha256 s) {assessment : ArtifactProductionAssessment}
    (hsupported : Supported assessment) (hresident : Resident s assessment.evidenceDigests) :
    Witnessed sha256 s assessment := by
  have hbytes : ∀ digest ∈ assessment.evidenceDigests, ∃ bytes, (digest, bytes) ∈ s.evidence ∧
      digest = contentDigest sha256 bytes := by
    intro digest hdigest
    obtain ⟨bytes, hmem⟩ := mem_fst_iff.mp (hresident digest hdigest)
    exact ⟨bytes, hmem, hs.evidence _ hmem⟩
  refine ⟨hbytes, fun hstate => ?_, fun hstate => ?_⟩
  · have hlength := hsupported.crossChecked hstate
    have hne := (List.nodup_iff_injective_get.mp hsupported.distinct).ne
      (show (⟨0, by omega⟩ : Fin assessment.evidenceDigests.length) ≠ ⟨1, by omega⟩ by simp)
    obtain ⟨a, ha, hadigest⟩ := hbytes _ (List.get_mem assessment.evidenceDigests ⟨0, by omega⟩)
    obtain ⟨b, hb, hbdigest⟩ := hbytes _ (List.get_mem assessment.evidenceDigests ⟨1, by omega⟩)
    refine ⟨_, ha, _, hb, List.get_mem _ _, List.get_mem _ _, fun heq => hne ?_⟩
    rw [hadigest, hbdigest]
    exact congrArg _ heq
  · obtain ⟨digest, hdigest⟩ := List.exists_mem_of_length_pos (hsupported.certified hstate)
    obtain ⟨bytes, hmem, -⟩ := hbytes digest hdigest
    exact ⟨_, hmem, hdigest⟩

/-- An assurance answer of a session is backed by resident evidence, a cross-check by two different
texts; an artifact that has an answer keeps one; and an accepted attestation is the answer unless
the session already held it, which changes nothing. -/
theorem assurance_is_witnessed [DecidableEq Envelope] {start : State Envelope}
    (hnew : new maximumBytes = .ok start) (before after : List (Operation Envelope)) :
    (∀ key digest assessment,
      retainedAssurance (run sha256 encoded maximumBytes start before) key digest =
        some assessment →
        Witnessed sha256 (run sha256 encoded maximumBytes start before) assessment ∧
          (retainedAssurance (run sha256 encoded maximumBytes
            (run sha256 encoded maximumBytes start before) after)
            key digest).isSome = true) ∧
    ∀ attestation accepted,
      recordAssurance encoded maximumBytes (run sha256 encoded maximumBytes start before)
        attestation = .ok accepted →
        attestation ∈ (run sha256 encoded maximumBytes start before).attestations ∧
            accepted = run sha256 encoded maximumBytes start before ∨
          retainedAssurance accepted attestation.artifactKey attestation.contentDigest =
            some attestation.assessment := by
  have hbound := @run_bound _ sha256 encoded maximumBytes _ start hnew before
  refine ⟨fun key digest assessment hretained => ⟨?_, ?_⟩, fun attestation accepted haccepted => ?_⟩
  · obtain ⟨hsupported, hresident⟩ := hbound.retainedAssurance hretained
    exact hbound.witnessed hsupported hresident
  · have hextends := @run_extends _ sha256 encoded maximumBytes
      (run sha256 encoded maximumBytes start before) _ after
    rw [retainedAssurance_isSome]
    rcases retainedAssurance_isSome.mp (Option.isSome_of_eq_some hretained) with
      ⟨entry, hmem, hkey⟩ | ⟨entry, hmem, hkey⟩
    · exact .inl ⟨entry, hextends.attestations.subset hmem, hkey⟩
    · exact .inr ⟨entry, hextends.produced.subset hmem, hkey⟩
  · rcases @recordAssurance_ok _ sha256 encoded maximumBytes _ _ _ haccepted with h | ⟨-, hlist⟩
    · exact .inl h
    · refine .inr ?_
      unfold retainedAssurance
      rw [hlist]
      simp

theorem assurance_is_witnessed_sample :
    Witnessed letterDigest sampleAttested ⟨.crossChecked, sampleEvidence⟩ := by
  have hrun := sample_session.2.1
  have hanswer := (@assurance_is_witnessed Unit letterDigest sampleEncoded 16384 _ .default rfl
    sampleOperations []).1
    sampleKey (contentDigest letterDigest samplePayload) ⟨.crossChecked, sampleEvidence⟩
  rw [hrun] at hanswer
  exact (hanswer sample_session.2.2).1

end

end Xcelerator.Cache.EphemeralStore
