import Mathlib
import Xcelerator.Foundations.Machine
import Xcelerator.Cache.Digest
import Xcelerator.Cache.PublicationJournal
import Xcelerator.Cache.CanonicalJson

/-! # The capacity ledger of a shard

A publication adds its bytes to the ledger of its shard, and the ledger's own
canonical encoding is part of what it adds. The encoding's length is a constant
plus the number of digits of one field, so the search for a consistent length
settles after a few rounds. -/

namespace Xcelerator.Cache.CapacityLedger
open Xcelerator.Foundations.Machine (bind_eq_ok bind_eq_error ok_bind)
open Xcelerator.Core.ConfigResolution (Value Number)
open Xcelerator.Cache.Digest Xcelerator.Cache.CanonicalJson
open Xcelerator.Cache.Publication
  (CapacityLedger CapacityReconciliationEvidence githubSafeRepositoryPayloadBytes)

/-! ## Records -/

/-- A record as `serde_json` holds it: a map sorted by key. -/
def record (fields : List (String × Value)) : Value :=
  .object (fields.insertionSort fun a b => a.1 ≤ b.1)

def unsigned (n : Nat) : Value := .number (.posInt n)

def ledgerFields (ledger : CapacityLedger) : List (String × Value) :=
  [("schema_version", unsigned ledger.schemaVersion), ("shard_id", .string ledger.shardId),
    ("hard_capacity_bytes", unsigned ledger.hardCapacityBytes),
    ("warning_reserve_bytes", unsigned ledger.warningReserveBytes),
    ("first_seen_immutable_payload_bytes", unsigned ledger.firstSeenImmutablePayloadBytes),
    ("manifest_index_receipt_bytes", unsigned ledger.manifestIndexReceiptBytes),
    ("estimated_history_bytes", unsigned ledger.estimatedHistoryBytes),
    ("emergency_reserve_bytes", unsigned ledger.emergencyReserveBytes),
    ("abandoned_reachable_bytes", unsigned ledger.abandonedReachableBytes),
    ("last_reconciled_commit", .string ledger.lastReconciledCommit),
    ("reconciliation_digest", .string ledger.reconciliationDigest.text)]

def ledgerValue (ledger : CapacityLedger) : Value := record (ledgerFields ledger)

def evidenceValue (evidence : CapacityReconciliationEvidence) : Value :=
  record [("schema_version", unsigned evidence.schemaVersion),
    ("transaction_id", .string evidence.transactionId),
    ("base_revision", .string evidence.baseRevision),
    ("base_ledger_digest", .string evidence.baseLedgerDigest.text),
    ("index_digest", .string evidence.indexDigest.text),
    ("receipt_digest", .string evidence.receiptDigest.text),
    ("unique_payload_bytes_added", unsigned evidence.uniquePayloadBytesAdded),
    ("metadata_bytes_added", unsigned evidence.metadataBytesAdded),
    ("projected_history_bytes_added", unsigned evidence.projectedHistoryBytesAdded)]

/-! ## Accounting -/

structure CapacityAdmission where
  accepted : Bool
  currentAccountedBytes : Nat
  projectedAccountedBytes : Nat
  hardCapacityBytes : Nat
  remainingAfterBytes : Nat
  warningReserveReached : Bool
  reasons : List String
deriving DecidableEq, Repr

def checkedAccountedBytes (ledger : CapacityLedger) : Result Nat :=
  require ((checkedAdd ledger.firstSeenImmutablePayloadBytes ledger.manifestIndexReceiptBytes).bind
      fun n =>
      (checkedAdd n ledger.estimatedHistoryBytes).bind fun n =>
        (checkedAdd n ledger.emergencyReserveBytes).bind fun n =>
          checkedAdd n ledger.abandonedReachableBytes)
    (.resourceLimit "capacity ledger accounted bytes exceed u64")

def validate (ledger : CapacityLedger) : Result Unit := do
  check (ledger.schemaVersion == 0 || blank ledger.shardId || blank ledger.lastReconciledCommit ||
      !ledger.reconciliationDigest.validate || ledger.hardCapacityBytes == 0 ||
      decide (ledger.hardCapacityBytes > githubSafeRepositoryPayloadBytes) ||
      decide (ledger.warningReserveBytes > ledger.hardCapacityBytes) ||
      decide (ledger.emergencyReserveBytes > ledger.hardCapacityBytes))
    (.invalidManifest "capacity ledger identity or limits are invalid")
  let _ ← checkedAccountedBytes ledger

def assessAddition (ledger : CapacityLedger)
    (uniquePayloadBytes metadataBytes projectedHistoryBytes : Nat) :
    Result CapacityAdmission := do
  validate ledger
  let current ← checkedAccountedBytes ledger
  let projected ← require ((checkedAdd current uniquePayloadBytes).bind fun n =>
      (checkedAdd n metadataBytes).bind fun n => checkedAdd n projectedHistoryBytes)
    (.resourceLimit "capacity ledger projected bytes exceed u64")
  let accepted := decide (projected ≤ ledger.hardCapacityBytes)
  let remaining := ledger.hardCapacityBytes - projected
  return { accepted, currentAccountedBytes := current, projectedAccountedBytes := projected,
           hardCapacityBytes := ledger.hardCapacityBytes, remainingAfterBytes := remaining,
           warningReserveReached := decide (remaining < ledger.warningReserveBytes),
           reasons := if accepted then [] else ["projected shard bytes " ++ toString projected ++
             " exceed hard capacity " ++ toString ledger.hardCapacityBytes] }

/-! ## The update -/

/-- The arguments of one update: the journal's transaction, the target's head, the digests and
the byte counts. -/
structure Update where
  transactionId : String
  expectedHead : Revision
  base : CapacityLedger
  baseDigest : ContentDigest
  indexDigest : ContentDigest
  indexBytes : Nat
  receiptDigest : ContentDigest
  receiptBytes : Nat
  uniquePayloadBytesAdded : Nat
  immutableMetadataBytesAdded : Nat
  projectedHistoryBytes : Nat
deriving DecidableEq, Repr

abbrev Updated := CapacityLedger × ByteArray × Nat × CapacityAdmission

def componentOverflow : CacheError := .resourceLimit "publication ledger component exceeds u64"
def notConverged : CacheError := .invalidManifest "capacity ledger byte accounting did not converge"

section
variable (sha256 : Sha256) (floatText : UInt64 → String) (update : Update)

def canonicalDigest (value : Value) : Result ContentDigest := do
  return contentDigest sha256 (← canonicalJsonBytes floatText value).toList

def evidenceOf (metadataBytesAdded : Nat) : CapacityReconciliationEvidence :=
  { schemaVersion := 1
    transactionId := update.transactionId
    baseRevision := update.expectedHead
    baseLedgerDigest := update.baseDigest
    indexDigest := update.indexDigest
    receiptDigest := update.receiptDigest
    uniquePayloadBytesAdded := update.uniquePayloadBytesAdded
    metadataBytesAdded
    projectedHistoryBytesAdded := update.projectedHistoryBytes }

/-- One round: the ledger of an assumed own length, with its encoding. -/
def attempt (ledgerSize : Nat) : Result (CapacityLedger × ByteArray × Nat) := do
  let metadataBytesAdded ← require
      ((checkedAdd update.immutableMetadataBytesAdded update.indexBytes).bind fun n =>
      (checkedAdd n update.receiptBytes).bind fun n => checkedAdd n ledgerSize)
    (.resourceLimit "publication ledger metadata bytes exceed u64")
  let payload ← require
    (checkedAdd update.base.firstSeenImmutablePayloadBytes update.uniquePayloadBytesAdded)
      componentOverflow
  let metadata ← require (checkedAdd update.base.manifestIndexReceiptBytes metadataBytesAdded)
    componentOverflow
  let history ← require (checkedAdd update.base.estimatedHistoryBytes update.projectedHistoryBytes)
    componentOverflow
  let digest ← canonicalDigest sha256 floatText
    (evidenceValue (evidenceOf update metadataBytesAdded))
  let ledger := { update.base with
    firstSeenImmutablePayloadBytes := payload
    manifestIndexReceiptBytes := metadata
    estimatedHistoryBytes := history
    lastReconciledCommit := update.expectedHead
    reconciliationDigest := digest }
  validate ledger
  let bytes ← canonicalJsonBytes floatText (ledgerValue ledger)
  return (ledger, bytes, metadataBytesAdded)

def admitAddition (ledger : CapacityLedger) (bytes : ByteArray) (metadataBytesAdded : Nat) :
    Result Updated := do
  let capacity ← assessAddition update.base update.uniquePayloadBytesAdded metadataBytesAdded
    update.projectedHistoryBytes
  check (!capacity.accepted) (.noWritableShard ("publication projections exceed capacity: " ++
    String.intercalate "; " capacity.reasons))
  return (ledger, bytes, metadataBytesAdded, capacity)

def ledgerRounds : Nat → Nat → Result Updated
  | 0, _ => .error notConverged
  | rounds + 1, ledgerSize => do
    let found ← attempt sha256 floatText update ledgerSize
    if found.2.1.size = ledgerSize then admitAddition update found.1 found.2.1 found.2.2
    else ledgerRounds rounds found.2.1.size

def buildUpdatedLedger : Result Updated := ledgerRounds sha256 floatText update 16 0

end

/-! ## Lengths of the encoding -/

def digitCount (n : Nat) : Nat := (Nat.toDigits 10 n).length

theorem digitCount_le {n k : Nat} (hk : 0 < k) : digitCount n ≤ k ↔ n < 10 ^ k :=
  Nat.length_toDigits_le_iff (by norm_num) hk

theorem digitCount_pos (n : Nat) : 0 < digitCount n := Nat.length_toDigits_pos

theorem lt_pow_digitCount (n : Nat) : n < 10 ^ digitCount n :=
  (digitCount_le (digitCount_pos n)).mp le_rfl

theorem digitCount_mono {a b : Nat} (h : a ≤ b) : digitCount a ≤ digitCount b :=
  (digitCount_le (digitCount_pos b)).mpr (h.trans_lt (lt_pow_digitCount b))

theorem utf8ByteSize_toString (n : Nat) : (toString n).utf8ByteSize = digitCount n := by
  have hlen : ∀ l : List Char, (∀ c ∈ l, c.isDigit = true) → String.utf8Len l = l.length := by
    intro l hl
    induction l with
    | nil => rfl
    | cons c l ih =>
      have hc : c.utf8Size = 1 := by
        have h := hl c List.mem_cons_self
        simp only [Char.isDigit, Bool.and_eq_true, decide_eq_true_eq] at h
        have hval : c.val ≤ 127 := UInt32.le_trans h.2 (by decide)
        exact Char.utf8Size_eq_one_iff.mpr hval
      rw [String.utf8Len_cons, ih fun d hd => hl d (List.mem_cons_of_mem c hd), hc,
        List.length_cons]
  rw [Nat.toString_eq_ofList_toDigits, String.utf8ByteSize_ofList, digitCount]
  exact hlen _ fun c hc => Nat.isDigit_of_mem_toDigits (by norm_num) (by norm_num) hc

/-- A length that counts the digits of a number it is part of. The first guess can be short by
the digits of one field; correcting it crosses at most one more power of ten. -/
theorem length_settles {constant rest s₁ s₂ s₃ s₄ : Nat} (hconstant : 100 ≤ constant)
    (h₁ : s₁ = constant + digitCount rest) (h₂ : s₂ = constant + digitCount (rest + s₁))
    (h₃ : s₃ = constant + digitCount (rest + s₂)) (h₄ : s₄ = constant + digitCount (rest + s₃))
    (hfits : rest + s₁ < 2 ^ 64) : s₄ = s₃ := by
  have hfew : digitCount (rest + s₁) ≤ 20 :=
    (digitCount_le (by norm_num)).mpr (hfits.trans (by norm_num))
  have hmany : 3 ≤ digitCount (rest + s₁) := by
    by_contra hlt
    have := (digitCount_le (by norm_num : 0 < 2)).mp (by omega : digitCount (rest + s₁) ≤ 2)
    omega
  have hpos := digitCount_pos rest
  have hmono₁ : digitCount rest ≤ digitCount (rest + s₁) := digitCount_mono (by omega)
  have hlt := lt_pow_digitCount (rest + s₁)
  have hthousand : 10 ^ 3 ≤ 10 ^ digitCount (rest + s₁) := Nat.pow_le_pow_right (by norm_num) hmany
  have hmono₂ : digitCount (rest + s₁) ≤ digitCount (rest + s₂) := digitCount_mono (by omega)
  have hmono₃ : digitCount (rest + s₂) ≤ digitCount (rest + s₃) := digitCount_mono (by omega)
  have hnext : ∀ n, n < 10 ^ digitCount (rest + s₁) + 20 →
      digitCount n ≤ digitCount (rest + s₁) + 1 := by
    intro n hn
    refine (digitCount_le (by omega)).mpr ?_
    rw [pow_succ]
    omega
  have hstep₂ := hnext (rest + s₂) (by omega)
  have hstep₃ := hnext (rest + s₃) (by omega)
  by_cases heq : digitCount (rest + s₂) = digitCount (rest + s₁)
  · have : s₃ = s₂ := by omega
    rw [h₄, this]
    exact h₃.symm.trans this
  · omega

/-- The bytes of the ledger but for the digits of its metadata count. -/
def overhead (floatText : UInt64 → String) (update : Update) : Nat :=
  fieldSize floatText ("schema_version", unsigned update.base.schemaVersion) +
  fieldSize floatText ("shard_id", .string update.base.shardId) +
  fieldSize floatText ("hard_capacity_bytes", unsigned update.base.hardCapacityBytes) +
  fieldSize floatText ("warning_reserve_bytes", unsigned update.base.warningReserveBytes) +
  fieldSize floatText ("first_seen_immutable_payload_bytes",
    unsigned (update.base.firstSeenImmutablePayloadBytes + update.uniquePayloadBytesAdded)) +
  fieldSize floatText ("estimated_history_bytes",
    unsigned (update.base.estimatedHistoryBytes + update.projectedHistoryBytes)) +
  fieldSize floatText ("emergency_reserve_bytes", unsigned update.base.emergencyReserveBytes) +
  fieldSize floatText ("abandoned_reachable_bytes", unsigned update.base.abandonedReachableBytes) +
  fieldSize floatText ("last_reconciled_commit", .string update.expectedHead) +
  ((quoted "reconciliation_digest").utf8ByteSize + 1 + 66) +
  ((quoted "manifest_index_receipt_bytes").utf8ByteSize + 1) + 12

theorem overhead_large (floatText : UInt64 → String) (update : Update) :
    100 ≤ overhead floatText update := by
  have hdigest : (quoted "reconciliation_digest").utf8ByteSize = 23 := by decide +kernel
  have hmanifest : (quoted "manifest_index_receipt_bytes").utf8ByteSize = 30 := by decide +kernel
  unfold overhead
  omega

/-- A well-formed digest is written without escapes. -/
theorem quoted_digest_size {digest : ContentDigest} (h : digest.validate = true) :
    (quoted digest.text).utf8ByteSize = 66 := by
  unfold ContentDigest.validate at h
  rw [Bool.and_eq_true, beq_iff_eq, List.all_eq_true] at h
  rw [quoted_size_of_plain, h.1]
  intro c hc
  have hdigit := h.2 c hc
  simp only [isAsciiDigit, Bool.or_eq_true, Bool.and_eq_true, decide_eq_true_eq] at hdigit
  have hrange : 48 ≤ c.toNat ∧ c.toNat ≤ 57 ∨ 97 ≤ c.toNat ∧ c.toNat ≤ 102 := hdigit
  refine ⟨?_, ?_, by omega⟩
  · rintro rfl
    revert hrange
    decide
  · rintro rfl
    revert hrange
    decide

/-! ## A round -/

section
variable {sha256 : Sha256} {floatText : UInt64 → String} {update : Update}

theorem canonicalJsonBytes_ok {value : Value} {bytes : ByteArray}
    (h : canonicalJsonBytes floatText value = .ok bytes) :
    bytes = (writeCanonicalJson floatText value).toUTF8 := by
  unfold canonicalJsonBytes at h
  split at h
  · cases h
  · cases h
    rfl

/-- What a successful round has computed. -/
structure Attempted (sha256 : Sha256) (floatText : UInt64 → String) (update : Update)
    (ledgerSize : Nat)
    (ledger : CapacityLedger) (bytes : ByteArray) (metadataBytesAdded : Nat) : Prop where
  metadata : metadataBytesAdded =
    update.immutableMetadataBytesAdded + update.indexBytes + update.receiptBytes + ledgerSize
  fits : update.base.manifestIndexReceiptBytes + metadataBytesAdded < 2 ^ 64
  recorded : ∃ digest : ContentDigest, digest.validate = true ∧ ledger = { update.base with
    firstSeenImmutablePayloadBytes :=
      update.base.firstSeenImmutablePayloadBytes + update.uniquePayloadBytesAdded
    manifestIndexReceiptBytes := update.base.manifestIndexReceiptBytes + metadataBytesAdded
    estimatedHistoryBytes := update.base.estimatedHistoryBytes + update.projectedHistoryBytes
    lastReconciledCommit := update.expectedHead
    reconciliationDigest := digest }
  encoded : canonicalJsonBytes floatText (ledgerValue ledger) = .ok bytes

theorem checkedAdd_fits {a b c : Nat} (h : checkedAdd a b = some c) : a + b < 2 ^ 64 := by
  unfold checkedAdd at h
  split at h
  · assumption
  · cases h

theorem attempt_ok {ledgerSize : Nat} {found : CapacityLedger × ByteArray × Nat}
    (h : attempt sha256 floatText update ledgerSize = .ok found) :
    Attempted sha256 floatText update ledgerSize found.1 found.2.1 found.2.2 := by
  unfold attempt at h
  obtain ⟨metadataBytesAdded, hmetadata, h⟩ := bind_eq_ok h
  obtain ⟨payload, hpayload, h⟩ := bind_eq_ok h
  obtain ⟨metadata, hmanifest, h⟩ := bind_eq_ok h
  obtain ⟨history, hhistory, h⟩ := bind_eq_ok h
  obtain ⟨digest, hdigest, h⟩ := bind_eq_ok h
  obtain ⟨_, _, h⟩ := bind_eq_ok h
  obtain ⟨bytes, hbytes, h⟩ := bind_eq_ok h
  cases h
  obtain ⟨withIndex, hindex, hmetadata⟩ := Option.bind_eq_some_iff.mp (require_ok hmetadata)
  obtain ⟨withReceipt, hreceipt, hmetadata⟩ := Option.bind_eq_some_iff.mp hmetadata
  have hindex := checkedAdd_some hindex
  have hreceipt := checkedAdd_some hreceipt
  have hmetadata := checkedAdd_some hmetadata
  have hvalid : digest.validate = true := by
    obtain ⟨evidence, _, hdigest⟩ := bind_eq_ok hdigest
    rw [← Except.ok.inj hdigest]
    exact contentDigest_validate sha256 evidence.toList
  have hfits := checkedAdd_fits (require_ok hmanifest)
  have hpayload := checkedAdd_some (require_ok hpayload)
  have hmanifest := checkedAdd_some (require_ok hmanifest)
  have hhistory := checkedAdd_some (require_ok hhistory)
  have htotal : metadataBytesAdded =
      update.immutableMetadataBytesAdded + update.indexBytes + update.receiptBytes + ledgerSize :=
        by omega
  refine ⟨htotal, hfits, ⟨digest, hvalid, ?_⟩, hbytes⟩
  rw [hpayload, hmanifest, hhistory]

/-- The length of the encoding is the overhead and the digits of the metadata count. -/
theorem Attempted.size {ledgerSize metadataBytesAdded : Nat} {ledger : CapacityLedger}
    {bytes : ByteArray}
    (h : Attempted sha256 floatText update ledgerSize ledger bytes metadataBytesAdded) :
    bytes.size = overhead floatText update +
      digitCount (update.base.manifestIndexReceiptBytes + metadataBytesAdded) := by
  obtain ⟨digest, hdigest, hledger⟩ := h.recorded
  have hsize : bytes.size = (writeCanonicalJson floatText (ledgerValue ledger)).utf8ByteSize := by
    rw [canonicalJsonBytes_ok h.encoded]
    rfl
  have hperm := (ledgerFields ledger).perm_insertionSort fun a b => a.1 ≤ b.1
  have hquoted := quoted_digest_size hdigest
  rw [hsize, ledgerValue, record, writeObject_size, (hperm.map _).sum_eq, hperm.length_eq, hledger]
  simp only [ledgerFields, List.map_cons, List.map_nil, List.sum_cons, List.sum_nil,
    List.length_cons, List.length_nil, overhead]
  simp only [fieldSize, writeCanonicalJson, unsigned, numberText, utf8ByteSize_toString, hquoted]
  omega

/-! ## Refusals -/

mutual
theorem inspectValue_error {context path message : String} :
    ∀ {value : Value}, inspectValue context path value = .error message →
    ∃ rest, message = context ++ rest
  | .object fields, h => by
    rw [inspectValue] at h
    exact inspectFields_error h
  | .array items, h => by
    rw [inspectValue] at h
    exact inspectItems_error h
  | .string text, h => by
    rw [inspectValue] at h
    split at h
    · cases h
      exact ⟨" contains credential-shaped material at " ++ path, by rw [String.append_assoc]⟩
    · cases h
  | .null, h => by cases h
  | .bool _, h => by cases h
  | .number _, h => by cases h

theorem inspectFields_error {context path message : String} :
    ∀ {fields : List (String × Value)}, inspectFields context path fields = .error message →
      ∃ rest, message = context ++ rest
  | [], h => by cases h
  | (key, child) :: rest, h => by
    rw [inspectFields] at h
    split at h
    · cases h
      exact ⟨" contains a credential-bearing field at " ++ (path ++ "." ++ key),
        by rw [String.append_assoc]⟩
    · rcases bind_eq_error h with h | ⟨_, _, h⟩
      · exact inspectValue_error h
      · exact inspectFields_error h

theorem inspectItems_error {context path message : String} {index : Nat} :
    ∀ {items : List Value}, inspectItems context path index items = .error message →
      ∃ rest, message = context ++ rest
  | [], h => by cases h
  | child :: rest, h => by
    rw [inspectItems] at h
    rcases bind_eq_error h with h | ⟨_, _, h⟩
    · exact inspectValue_error h
    · exact inspectItems_error h
end

theorem canonicalJsonBytes_ne {value : Value} :
    canonicalJsonBytes floatText value ≠ .error notConverged := by
  intro h
  unfold canonicalJsonBytes at h
  split at h
  · rename_i message hmessage
    obtain ⟨rest, rfl⟩ := inspectValue_error hmessage
    have htext := congrArg (fun t => t.toList.take 3)
      (CacheError.invalidManifest.inj (Except.error.inj h))
    have hhead : ("canonical cache record" ++ rest).toList.take 3 = ['c', 'a', 'n'] := by
      rw [String.toList_append, List.take_append_of_le_length (by decide)]
      decide
    have hcapacity : "capacity ledger byte accounting did not converge".toList.take 3 =
        ['c', 'a', 'p'] := by
      decide
    exact absurd (hhead.symm.trans (htext.trans hcapacity)) (by decide)
  · cases h

theorem require_ne {α : Type} {x : Option α} {message : String} :
    require x (.resourceLimit message) ≠ .error notConverged := by
  intro h
  cases x with
  | none => cases h
  | some a => cases h

theorem validate_ne {ledger : CapacityLedger} : validate ledger ≠ .error notConverged := by
  intro h
  unfold validate at h
  rcases bind_eq_error h with h | ⟨_, _, h⟩
  · unfold check at h
    split at h
    · exact absurd (CacheError.invalidManifest.inj (Except.error.inj h)) (by decide)
    · cases h
  · rcases bind_eq_error h with h | ⟨_, _, h⟩
    · exact require_ne h
    · cases h

theorem attempt_ne {ledgerSize : Nat} :
    attempt sha256 floatText update ledgerSize ≠ .error notConverged := by
  intro h
  unfold attempt at h
  rcases bind_eq_error h with h | ⟨_, _, h⟩
  · exact require_ne h
  rcases bind_eq_error h with h | ⟨_, _, h⟩
  · exact require_ne h
  rcases bind_eq_error h with h | ⟨_, _, h⟩
  · exact require_ne h
  rcases bind_eq_error h with h | ⟨_, _, h⟩
  · exact require_ne h
  rcases bind_eq_error h with h | ⟨_, _, h⟩
  · unfold canonicalDigest at h
    rcases bind_eq_error h with h | ⟨_, _, h⟩
    · exact canonicalJsonBytes_ne h
    · cases h
  rcases bind_eq_error h with h | ⟨_, _, h⟩
  · exact validate_ne h
  rcases bind_eq_error h with h | ⟨_, _, h⟩
  · exact canonicalJsonBytes_ne h
  · cases h

theorem admitAddition_ne {ledger : CapacityLedger} {bytes : ByteArray} {metadataBytesAdded : Nat} :
    admitAddition update ledger bytes metadataBytesAdded ≠ .error notConverged := by
  intro h
  unfold admitAddition assessAddition at h
  rcases bind_eq_error h with h | ⟨_, _, h⟩
  · rcases bind_eq_error h with h | ⟨_, _, h⟩
    · exact validate_ne h
    rcases bind_eq_error h with h | ⟨_, _, h⟩
    · exact require_ne h
    rcases bind_eq_error h with h | ⟨_, _, h⟩
    · exact require_ne h
    · cases h
  rcases bind_eq_error h with h | ⟨_, _, h⟩
  · unfold check at h
    split at h
    · cases h
    · cases h
  · cases h

/-! ## The loop -/

/-- The metadata bytes before those of the ledger itself. -/
def settledBytes (update : Update) : Nat :=
  update.base.manifestIndexReceiptBytes +
    (update.immutableMetadataBytesAdded + update.indexBytes + update.receiptBytes)

/-- A loop that runs out of rounds has just seen a length that does not fit itself. -/
theorem rounds_exhausted {rounds ledgerSize : Nat}
    (h : ledgerRounds sha256 floatText update (rounds + 1) ledgerSize = .error notConverged) :
    ∃ next, next = overhead floatText update + digitCount (settledBytes update + ledgerSize) ∧
      settledBytes update + ledgerSize < 2 ^ 64 ∧ next ≠ ledgerSize ∧
      ledgerRounds sha256 floatText update rounds next = .error notConverged := by
  rw [ledgerRounds] at h
  rcases bind_eq_error h with h | ⟨found, hfound, h⟩
  · exact absurd h attempt_ne
  · have hattempt := attempt_ok hfound
    have hsum : settledBytes update + ledgerSize = update.base.manifestIndexReceiptBytes +
        found.2.2 := by
      have := hattempt.metadata
      unfold settledBytes
      omega
    split at h
    · exact absurd h admitAddition_ne
    · rename_i hne
      refine ⟨found.2.1.size, ?_, ?_, hne, h⟩
      · rw [hsum]
        exact hattempt.size
      · rw [hsum]
        exact hattempt.fits

theorem rounds_settle (rounds : Nat) :
    ledgerRounds sha256 floatText update (rounds + 4) 0 ≠ .error notConverged := by
  intro h
  obtain ⟨s₁, h₁, _, _, h⟩ := rounds_exhausted h
  obtain ⟨s₂, h₂, hfits, _, h⟩ := rounds_exhausted h
  obtain ⟨s₃, h₃, _, _, h⟩ := rounds_exhausted h
  obtain ⟨s₄, h₄, _, hne, _⟩ := rounds_exhausted h
  exact hne (length_settles (overhead_large floatText update) h₁ h₂ h₃ h₄ hfits)

/-- A result comes from a round whose assumed length is the length of its encoding. -/
theorem rounds_ok {rounds ledgerSize : Nat} {result : Updated}
    (h : ledgerRounds sha256 floatText update rounds ledgerSize = .ok result) :
    Attempted sha256 floatText update result.2.1.size result.1 result.2.1 result.2.2.1 ∧
      admitAddition update result.1 result.2.1 result.2.2.1 = .ok result := by
  induction rounds generalizing ledgerSize with
  | zero => cases h
  | succ rounds ih =>
    rw [ledgerRounds] at h
    obtain ⟨found, hfound, h⟩ := bind_eq_ok h
    split at h
    · rename_i hsize
      have hattempt := attempt_ok hfound
      rw [← hsize] at hattempt
      have hresult : result.1 = found.1 ∧ result.2.1 = found.2.1 ∧ result.2.2.1 = found.2.2 := by
        unfold admitAddition at h
        obtain ⟨capacity, _, h⟩ := bind_eq_ok h
        obtain ⟨_, _, h⟩ := bind_eq_ok h
        cases h
        exact ⟨rfl, rfl, rfl⟩
      rw [hresult.1, hresult.2.1, hresult.2.2]
      exact ⟨hattempt, h⟩
    · exact ih h

/-- The bytes a ledger accounts for. -/
def accounted (ledger : CapacityLedger) : Nat :=
  ledger.firstSeenImmutablePayloadBytes + ledger.manifestIndexReceiptBytes +
    ledger.estimatedHistoryBytes + ledger.emergencyReserveBytes + ledger.abandonedReachableBytes

theorem checkedAccountedBytes_ok {ledger : CapacityLedger} {n : Nat}
    (h : checkedAccountedBytes ledger = .ok n) : n = accounted ledger := by
  unfold checkedAccountedBytes at h
  obtain ⟨a, ha, h⟩ := Option.bind_eq_some_iff.mp (require_ok h)
  obtain ⟨b, hb, h⟩ := Option.bind_eq_some_iff.mp h
  obtain ⟨c, hc, h⟩ := Option.bind_eq_some_iff.mp h
  have ha := checkedAdd_some ha
  have hb := checkedAdd_some hb
  have hc := checkedAdd_some hc
  have h := checkedAdd_some h
  unfold accounted
  omega

/-- An admitted addition stays within the hard capacity. -/
theorem admitAddition_ok {ledger : CapacityLedger} {bytes : ByteArray} {metadataBytesAdded : Nat}
    {result : Updated} (h : admitAddition update ledger bytes metadataBytesAdded = .ok result) :
    accounted update.base + update.uniquePayloadBytesAdded + metadataBytesAdded +
      update.projectedHistoryBytes ≤ update.base.hardCapacityBytes := by
  unfold admitAddition at h
  obtain ⟨capacity, hcapacity, h⟩ := bind_eq_ok h
  obtain ⟨_, haccepted, _⟩ := bind_eq_ok h
  unfold assessAddition at hcapacity
  obtain ⟨_, _, hcapacity⟩ := bind_eq_ok hcapacity
  obtain ⟨current, hcurrent, hcapacity⟩ := bind_eq_ok hcapacity
  obtain ⟨projected, hprojected, hcapacity⟩ := bind_eq_ok hcapacity
  obtain ⟨a, ha, hprojected⟩ := Option.bind_eq_some_iff.mp (require_ok hprojected)
  obtain ⟨b, hb, hprojected⟩ := Option.bind_eq_some_iff.mp hprojected
  have hcurrent := checkedAccountedBytes_ok hcurrent
  have ha := checkedAdd_some ha
  have hb := checkedAdd_some hb
  have hprojected := checkedAdd_some hprojected
  have haccepted := check_ok haccepted
  cases hcapacity
  have hle : projected ≤ update.base.hardCapacityBytes := by simpa using haccepted
  omega

/-! ## Updates that nothing refuses -/

theorem checkedAdd_of_lt {a b : Nat} (h : a + b < 2 ^ 64) : checkedAdd a b = some (a + b) :=
  if_pos h

/-- A text without one of the pattern's characters does not contain the pattern. -/
theorem afterFirst_none {pattern : List Char} {marker : Char} (hmarker : marker ∈ pattern) :
    ∀ {text : List Char}, marker ∉ text → afterFirst pattern text = none
  | [], _ => by
    cases pattern with
    | nil => cases hmarker
    | cons c pattern => rfl
  | c :: text, h => by
    have hprefix : ¬ pattern.isPrefixOf (c :: text) = true := fun hprefix =>
      h ((List.isPrefixOf_iff_prefix.mp hprefix).subset hmarker)
    rw [afterFirst, if_neg hprefix]
    exact afterFirst_none hmarker fun hmem => h (List.mem_cons_of_mem c hmem)

theorem trim_subset (text : List Char) : trim text ⊆ text := by
  intro c hc
  have hinner := (List.dropWhile_sublist isWhiteSpace).subset (List.mem_reverse.mp hc)
  exact (List.dropWhile_sublist isWhiteSpace).subset (List.mem_reverse.mp hinner)

abbrev isHex (c : Char) : Prop := 48 ≤ c.toNat ∧ c.toNat ≤ 57 ∨ 97 ≤ c.toNat ∧ c.toNat ≤ 102

theorem toAsciiLowercase_hex {c : Char} (h : isHex c) : toAsciiLowercase c = c := by
  unfold toAsciiLowercase
  rw [if_neg]
  rintro ⟨hlow, hhigh⟩
  have hrange : 65 ≤ c.toNat ∧ c.toNat ≤ 90 := ⟨hlow, hhigh⟩
  omega

/-- Every shape of a credential has a character that no digest has. -/
theorem secretMarker_digest {digest : ContentDigest} (h : digest.validate = true) :
    secretMarker digest.text = none := by
  unfold ContentDigest.validate at h
  rw [Bool.and_eq_true, beq_iff_eq, List.all_eq_true] at h
  have htrimmed : ∀ c ∈ trim digest.text.toList, isHex c := by
    intro c hc
    have hdigit := h.2 c (trim_subset _ hc)
    simp only [isAsciiDigit, Bool.or_eq_true, Bool.and_eq_true, decide_eq_true_eq] at hdigit
    exact hdigit
  have hlower : (trim digest.text.toList).map toAsciiLowercase = trim digest.text.toList :=
    (List.map_congr_left fun c hc => toAsciiLowercase_hex (htrimmed c hc)).trans (List.map_id _)
  have habsent : ∀ {marker : Char}, ¬ isHex marker → marker ∉ trim digest.text.toList :=
    fun hmarker hmem => hmarker (htrimmed _ hmem)
  have hdash : ¬ isHex '-' := by decide
  have hscore : ¬ isHex '_' := by decide
  have hfront : ∀ {pattern : List Char} {marker : Char}, marker ∈ pattern → ¬ isHex marker →
      pattern.isPrefixOf (trim digest.text.toList) = false := by
    intro pattern marker hmem hmarker
    rw [Bool.eq_false_iff]
    intro hprefix
    exact habsent hmarker ((List.isPrefixOf_iff_prefix.mp hprefix).subset hmem)
  have hsigned : (signedMaterial.any fun pattern =>
      (afterFirst pattern.toList (trim digest.text.toList)).isSome) = false := by
    rw [List.any_eq_false]
    intro pattern hpattern
    have hmem : '-' ∈ pattern.toList := by
      revert pattern
      decide
    rw [afterFirst_none hmem (habsent hdash)]
    simp
  have hprovider : (providerPrefixes.any fun pattern =>
      (afterFirst pattern.toList (trim digest.text.toList)).any fun rest =>
        decide (String.utf8Len rest ≥ 16)) = false := by
    rw [List.any_eq_false]
    intro pattern hpattern
    have hmem : '_' ∈ pattern.toList ∨ '-' ∈ pattern.toList := by
      revert pattern
      decide
    rcases hmem with hmem | hmem
    · rw [afterFirst_none hmem (habsent hscore)]
      simp
    · rw [afterFirst_none hmem (habsent hdash)]
      simp
  have hcloud : ("AKIA".toList.isPrefixOf (trim digest.text.toList) ||
      "ASIA".toList.isPrefixOf (trim digest.text.toList)) = false := by
    rw [hfront (by decide : 'K' ∈ "AKIA".toList) (by decide),
      hfront (by decide : 'S' ∈ "ASIA".toList) (by decide)]
    rfl
  unfold secretMarker
  dsimp only
  rw [hlower, hsigned, hprovider, hcloud, Bool.and_false, Bool.false_and]
  rfl

/-- A value of the records: a number, or a text without credentials. -/
inductive Plain : Value → Prop
  | unsigned (n : Nat) : Plain (unsigned n)
  | text {text : String} (h : secretMarker text = none) : Plain (.string text)

theorem inspectFields_plain {context path : String} :
    ∀ {fields : List (String × Value)}, (∀ field ∈ fields, sensitiveKey field.1 = false ∧
      Plain field.2) →
      inspectFields context path fields = .ok ()
  | [], _ => rfl
  | (key, child) :: rest, h => by
    obtain ⟨hkey, hvalue⟩ := h (key, child) List.mem_cons_self
    have hinspected : inspectValue context (path ++ "." ++ key) child = .ok () := by
      cases hvalue with
      | unsigned n => rfl
      | text hmarker =>
        rw [inspectValue, hmarker]
        rfl
    rw [inspectFields, hkey, if_neg Bool.false_ne_true, hinspected, ok_bind]
    exact inspectFields_plain fun field hfield => h field (List.mem_cons_of_mem _ hfield)

theorem canonicalJsonBytes_record {fields : List (String × Value)}
    (hkeys : (fields.map Prod.fst).all (fun key => !sensitiveKey key) = true)
    (hvalues : ∀ field ∈ fields, Plain field.2) :
    ∃ bytes, canonicalJsonBytes floatText (record fields) = .ok bytes := by
  have hperm := fields.perm_insertionSort fun a b => a.1 ≤ b.1
  have hfree : validateSecretFree (record fields) "canonical cache record" = .ok () := by
    rw [validateSecretFree, record, inspectValue]
    refine inspectFields_plain fun field hfield => ?_
    have hmem := hperm.mem_iff.mp hfield
    have hkey := List.all_eq_true.mp hkeys field.1 (List.mem_map_of_mem hmem)
    exact ⟨by simpa using hkey, hvalues field hmem⟩
  exact ⟨_, by rw [canonicalJsonBytes, hfree]⟩

/-- The bytes that a round adds up, over everything the ledger already accounts for. -/
def roundTotal (update : Update) (ledgerSize : Nat) : Nat :=
  accounted update.base + update.uniquePayloadBytesAdded +
    (update.immutableMetadataBytesAdded + update.indexBytes + update.receiptBytes + ledgerSize) +
    update.projectedHistoryBytes

/-- The lengths that the rounds assume. -/
inductive Visited (sha256 : Sha256) (floatText : UInt64 → String) (update : Update) : Nat → Prop
  | start : Visited sha256 floatText update 0
  | next {ledgerSize : Nat} {found : CapacityLedger × ByteArray × Nat}
      (visited : Visited sha256 floatText update ledgerSize)
      (attempted : attempt sha256 floatText update ledgerSize = .ok found) :
      Visited sha256 floatText update found.2.1.size

/-- The texts of the update that its records repeat. -/
def recordedTexts (update : Update) : List String :=
  [update.base.shardId, update.transactionId, update.expectedHead, update.baseDigest.text,
    update.indexDigest.text, update.receiptDigest.text]

/-- Nothing refuses the update: its base ledger is valid, its head is not blank, no text of it is
shaped like a credential, and in every round the sum of all counts fits a `u64`. -/
structure Unrefused (sha256 : Sha256) (floatText : UInt64 → String) (update : Update) : Prop where
  base : validate update.base = .ok ()
  head : blank update.expectedHead = false
  sanitized : ∀ text ∈ recordedTexts update, secretMarker text = none
  sums : ∀ ledgerSize, Visited sha256 floatText update ledgerSize →
    roundTotal update ledgerSize < 2 ^ 64

theorem checkedAccountedBytes_of_lt {ledger : CapacityLedger} (h : accounted ledger < 2 ^ 64) :
    checkedAccountedBytes ledger = .ok (accounted ledger) := by
  unfold accounted at h
  unfold checkedAccountedBytes
  rw [checkedAdd_of_lt (by omega), Option.bind_some, checkedAdd_of_lt (by omega), Option.bind_some,
    checkedAdd_of_lt (by omega), Option.bind_some, checkedAdd_of_lt (by omega)]
  rfl

theorem evidence_encoded (h : ∀ text ∈ recordedTexts update, secretMarker text = none)
    (metadataBytesAdded : Nat) :
    ∃ bytes, canonicalJsonBytes floatText (evidenceValue (evidenceOf update metadataBytesAdded)) =
      .ok bytes := by
  simp only [recordedTexts, List.forall_mem_cons, List.not_mem_nil, false_imp_iff, implies_true,
    and_true] at h
  obtain ⟨-, htransaction, hhead, hbase, hindex, hreceipt⟩ := h
  refine canonicalJsonBytes_record ?_ ?_
  · simp only [List.map_cons, List.map_nil]
    decide +kernel
  · simp only [List.forall_mem_cons, List.not_mem_nil, false_imp_iff, implies_true, and_true,
      evidenceOf]
    exact ⟨.unsigned _, .text htransaction, .text hhead, .text hbase, .text hindex, .text hreceipt,
      .unsigned _, .unsigned _, .unsigned _⟩

theorem ledger_encoded {ledger : CapacityLedger} (hshard : secretMarker ledger.shardId = none)
    (hcommit : secretMarker ledger.lastReconciledCommit = none)
    (hdigest : ledger.reconciliationDigest.validate = true) :
    ∃ bytes, canonicalJsonBytes floatText (ledgerValue ledger) = .ok bytes := by
  refine canonicalJsonBytes_record ?_ ?_
  · simp only [ledgerFields, List.map_cons, List.map_nil]
    decide +kernel
  · simp only [ledgerFields, List.forall_mem_cons, List.not_mem_nil, false_imp_iff,
      implies_true, and_true]
    exact ⟨.unsigned _, .text hshard, .unsigned _, .unsigned _, .unsigned _, .unsigned _,
      .unsigned _, .unsigned _, .unsigned _, .text hcommit, .text (secretMarker_digest hdigest)⟩

/-- A valid ledger stays valid under another commit and digest where its new sum fits. -/
theorem validate_updated {base ledger : CapacityLedger} (hbase : validate base = .ok ())
    (hschema : ledger.schemaVersion = base.schemaVersion) (hshard : ledger.shardId = base.shardId)
    (hhard : ledger.hardCapacityBytes = base.hardCapacityBytes)
    (hwarning : ledger.warningReserveBytes = base.warningReserveBytes)
    (hemergency : ledger.emergencyReserveBytes = base.emergencyReserveBytes)
    (hcommit : blank ledger.lastReconciledCommit = false)
    (hdigest : ledger.reconciliationDigest.validate = true)
    (hsum : accounted ledger < 2 ^ 64) : validate ledger = .ok () := by
  unfold validate at hbase
  obtain ⟨_, hcheck, -⟩ := bind_eq_ok hbase
  have hcheck := check_ok hcheck
  simp only [Bool.or_eq_false_iff] at hcheck
  obtain ⟨⟨⟨⟨⟨⟨⟨hversion, hname⟩, -⟩, -⟩, hpositive⟩, hsafe⟩, hreserve⟩, hheld⟩ := hcheck
  unfold validate
  rw [hschema, hshard, hhard, hwarning, hemergency, hcommit, hdigest, hversion, hname, hpositive,
    hsafe, hreserve, hheld, checkedAccountedBytes_of_lt hsum]
  rfl

theorem attempt_of_unrefused (h : Unrefused sha256 floatText update) {ledgerSize : Nat}
    (hvisited : Visited sha256 floatText update ledgerSize) :
    ∃ found, attempt sha256 floatText update ledgerSize = .ok found := by
  have htotal := h.sums ledgerSize hvisited
  have hshard := h.sanitized update.base.shardId (by simp [recordedTexts])
  have hhead := h.sanitized update.expectedHead (by simp [recordedTexts])
  unfold roundTotal accounted at htotal
  obtain ⟨evidence, hevidence⟩ := @evidence_encoded floatText update h.sanitized
    (update.immutableMetadataBytesAdded + update.indexBytes + update.receiptBytes + ledgerSize)
  have hvalid := contentDigest_validate sha256 evidence.toList
  obtain ⟨ledger, hledger⟩ : ∃ ledger : CapacityLedger, ledger = { update.base with
      firstSeenImmutablePayloadBytes :=
        update.base.firstSeenImmutablePayloadBytes + update.uniquePayloadBytesAdded
      manifestIndexReceiptBytes := update.base.manifestIndexReceiptBytes +
        (update.immutableMetadataBytesAdded + update.indexBytes + update.receiptBytes + ledgerSize)
      estimatedHistoryBytes := update.base.estimatedHistoryBytes + update.projectedHistoryBytes
      lastReconciledCommit := update.expectedHead
      reconciliationDigest := contentDigest sha256 evidence.toList } := ⟨_, rfl⟩
  have hvalidated : validate ledger = .ok () := by
    rw [hledger]
    exact validate_updated h.base rfl rfl rfl rfl rfl h.head hvalid
      (by unfold accounted; dsimp only; omega)
  have hencoded : ∃ bytes, canonicalJsonBytes floatText (ledgerValue ledger) = .ok bytes := by
    rw [hledger]
    exact ledger_encoded hshard hhead hvalid
  obtain ⟨bytes, hbytes⟩ := hencoded
  unfold attempt
  rw [checkedAdd_of_lt (by omega), Option.bind_some, checkedAdd_of_lt (by omega), Option.bind_some,
    checkedAdd_of_lt (by omega), require, ok_bind, checkedAdd_of_lt (by omega), require, ok_bind,
    checkedAdd_of_lt (by omega), require, ok_bind, checkedAdd_of_lt (by omega), require, ok_bind,
    canonicalDigest, hevidence, ok_bind]
  simp only [pure, Except.pure, ok_bind]
  rw [← hledger, hvalidated, ok_bind, hbytes]
  exact ⟨_, rfl⟩

/-- Where nothing is refused, an addition is admitted or lacks capacity. -/
theorem admitAddition_of_unrefused (hbase : validate update.base = .ok ()) {ledgerSize : Nat}
    (htotal : roundTotal update ledgerSize < 2 ^ 64) (ledger : CapacityLedger) (bytes : ByteArray) :
    (∃ result, admitAddition update ledger bytes
        (update.immutableMetadataBytesAdded + update.indexBytes + update.receiptBytes + ledgerSize)
          = .ok result) ∨
      (∃ reason, admitAddition update ledger bytes
        (update.immutableMetadataBytesAdded + update.indexBytes + update.receiptBytes +
          ledgerSize) =
          .error (.noWritableShard reason)) ∧ update.base.hardCapacityBytes <
          roundTotal update ledgerSize := by
  unfold roundTotal at htotal ⊢
  unfold admitAddition assessAddition
  rw [hbase, ok_bind, checkedAccountedBytes_of_lt (by omega), ok_bind, checkedAdd_of_lt (by omega),
    Option.bind_some, checkedAdd_of_lt (by omega), Option.bind_some, checkedAdd_of_lt (by omega),
    require, ok_bind]
  simp only [pure, Except.pure, ok_bind]
  unfold check
  split
  · next hover =>
    rw [Bool.not_eq_true', decide_eq_false_iff_not, not_le] at hover
    exact .inr ⟨⟨_, rfl⟩, hover⟩
  · exact .inl ⟨_, rfl⟩

theorem rounds_unrefused (h : Unrefused sha256 floatText update) {rounds ledgerSize : Nat}
    (hvisited : Visited sha256 floatText update ledgerSize) :
    ledgerRounds sha256 floatText update rounds ledgerSize = .error notConverged ∨
      (∃ result, ledgerRounds sha256 floatText update rounds ledgerSize = .ok result) ∨
        (∃ reason, ledgerRounds sha256 floatText update rounds ledgerSize =
          .error (.noWritableShard reason)) ∧
          ∃ settled, Visited sha256 floatText update settled ∧
            update.base.hardCapacityBytes < roundTotal update settled := by
  induction rounds generalizing ledgerSize with
  | zero => exact .inl rfl
  | succ rounds ih =>
    obtain ⟨found, hfound⟩ := attempt_of_unrefused h hvisited
    have hmetadata := (attempt_ok hfound).metadata
    rw [ledgerRounds, hfound, ok_bind]
    split
    · rw [hmetadata]
      exact .inr ((admitAddition_of_unrefused h.base
        (h.sums ledgerSize hvisited) found.1 found.2.1).imp_right
        fun hover => ⟨hover.1, ledgerSize, hvisited, hover.2⟩)
    · exact ih (hvisited.next hfound)

/-- No round assumes more than the overhead and the twenty digits of a `u64`. -/
theorem Visited.le {ledgerSize : Nat} (h : Visited sha256 floatText update ledgerSize) :
    ledgerSize ≤ overhead floatText update + 20 := by
  cases h with
  | start => omega
  | next visited attempted =>
    have hattempt := attempt_ok attempted
    have hdigits := (digitCount_le (by norm_num : 0 < 20)).mpr
      (hattempt.fits.trans (by norm_num : 2 ^ 64 < 10 ^ 20))
    rw [hattempt.size]
    omega

end

/-- The update always settles on a consistent length: it runs out of rounds for no input, and where
nothing is refused it returns a ledger or has settled beyond the hard capacity. What it returns
accounts for itself. -/
theorem buildUpdatedLedger_settles (sha256 : Sha256) (floatText : UInt64 → String)
    (update : Update) :
    buildUpdatedLedger sha256 floatText update ≠ .error notConverged ∧
    (Unrefused sha256 floatText update →
      (∃ result, buildUpdatedLedger sha256 floatText update = .ok result) ∨
        (∃ reason, buildUpdatedLedger sha256 floatText update = .error (.noWritableShard reason)) ∧
          ∃ settled, Visited sha256 floatText update settled ∧
            update.base.hardCapacityBytes < roundTotal update settled) ∧
    ∀ ledger bytes metadataBytesAdded capacity,
      buildUpdatedLedger sha256 floatText update = .ok (ledger, bytes, metadataBytesAdded,
        capacity) →
      canonicalJsonBytes floatText (ledgerValue ledger) = .ok bytes ∧
      metadataBytesAdded = update.immutableMetadataBytesAdded + update.indexBytes +
        update.receiptBytes + bytes.size ∧
      accounted ledger = accounted update.base + update.uniquePayloadBytesAdded +
        metadataBytesAdded + update.projectedHistoryBytes ∧
      accounted ledger ≤ ledger.hardCapacityBytes := by
  refine ⟨rounds_settle 12, fun h => ?_, fun ledger bytes metadataBytesAdded capacity h => ?_⟩
  · exact (@rounds_unrefused sha256 floatText update h 16 0 .start).resolve_left (rounds_settle 12)
  · obtain ⟨hattempt, hadmit⟩ := rounds_ok h
    obtain ⟨digest, _, hledger⟩ := hattempt.recorded
    dsimp only at hledger
    have hcapacity := admitAddition_ok hadmit
    have htotal : accounted ledger = accounted update.base + update.uniquePayloadBytesAdded +
        metadataBytesAdded + update.projectedHistoryBytes := by
      rw [hledger]
      unfold accounted
      dsimp only
      omega
    refine ⟨hattempt.encoded, hattempt.metadata, htotal, ?_⟩
    rw [htotal, hledger]
    exact hcapacity

/-! A payload of a thousand bytes in an empty shard. -/

def sampleUpdate : Update where
  transactionId := "publication-1"
  expectedHead := "head"
  base := ⟨1, "shard", 1000000, 1000, 0, 0, 0, 500, 0, "base", contentDigest emptyDigest []⟩
  baseDigest := contentDigest emptyDigest []
  indexDigest := contentDigest emptyDigest []
  indexBytes := 300
  receiptDigest := contentDigest emptyDigest []
  receiptBytes := 200
  uniquePayloadBytesAdded := 1000
  immutableMetadataBytesAdded := 100
  projectedHistoryBytes := 50

theorem sampleUpdate_total {ledgerSize : Nat}
    (h : Visited emptyDigest (fun _ => "") sampleUpdate ledgerSize) :
    roundTotal sampleUpdate ledgerSize ≤ 2554 := by
  have hoverhead : overhead (fun _ => "") sampleUpdate = 384 := by decide +kernel
  have htotal : roundTotal sampleUpdate ledgerSize =
    500 + 1000 + (100 + 300 + 200 + ledgerSize) + 50 := rfl
  have hle := h.le
  omega

theorem buildUpdatedLedger_settles_sample :
    ∃ ledger bytes metadataBytesAdded capacity,
      buildUpdatedLedger emptyDigest (fun _ => "") sampleUpdate =
        .ok (ledger, bytes, metadataBytesAdded, capacity) ∧
      metadataBytesAdded = 600 + bytes.size ∧ accounted ledger = 1550 + metadataBytesAdded := by
  obtain ⟨-, hsettles, haccounts⟩ :=
    buildUpdatedLedger_settles emptyDigest (fun _ => "") sampleUpdate
  have hdigest := secretMarker_digest (contentDigest_validate emptyDigest [])
  have hunrefused : Unrefused emptyDigest (fun _ => "") sampleUpdate :=
    { base := rfl
      head := rfl
      sanitized := by
        simp only [recordedTexts, sampleUpdate, List.forall_mem_cons, hdigest, List.not_mem_nil,
          false_imp_iff, implies_true, and_true]
        decide +kernel
      sums := fun ledgerSize h => (sampleUpdate_total h).trans_lt (by norm_num) }
  rcases hsettles hunrefused with ⟨⟨ledger, bytes, metadataBytesAdded, capacity⟩, hok⟩
    | ⟨-, settled, hvisited, hover⟩
  · obtain ⟨-, hmetadata, htotal, -⟩ := haccounts _ _ _ _ hok
    have htotal : accounted ledger = 500 + 1000 + metadataBytesAdded + 50 := htotal
    exact ⟨_, _, _, _, hok, hmetadata, by omega⟩
  · have hsmall := sampleUpdate_total hvisited
    have hcapacity : sampleUpdate.base.hardCapacityBytes = 1000000 := rfl
    omega

end Xcelerator.Cache.CapacityLedger
