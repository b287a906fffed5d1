import Mathlib
import Xcelerator.Cache.JournalOperations

/-! # Valid journals stay valid

The checks of the journal as invariants of its commits, batches and targets. An operation
that succeeds is a step with its guards spelled out. Every step keeps the invariants, the
few that do not test the state of the target wherever the receipt is not complete; and only
these few leave a terminal state. -/

namespace Xcelerator.Cache.Publication
open Xcelerator.Foundations.Machine (ok_bind bind_eq_ok)

theorem checked {condition : Bool} {error : CacheError} (h : condition = false) :
    check condition error = .ok () := by
  rw [check, h]
  rfl

theorem toBool_iff {x : Result Unit} : x.toBool = true ↔ x = .ok () := by
  cases x with
  | error e => simp [Except.toBool]
  | ok u => simp [Except.toBool]

theorem present_some {id : Revision} (h : blank id = false) : present (some id) = true := by
  simp [present, h]

/-! ## Commits -/

structure ValidCommit (c : PublicationCommitJournal) : Prop where
  files : ∃ total, validateCommitFiles c.files = .ok total
  receipt : (c.receiptDigest.any fun digest => !digest.validate) = false
  identities : ((c.state == .planned && (present c.parentHead || present c.commitId)) ||
    (c.state != .planned && !(present c.parentHead && present c.commitId))) = false
  accounting : (invalidAccounting c.newlyCommittedDigests (partDigests c.files) ||
    (c.state == .planned && !c.newlyCommittedDigests.isEmpty)) = false

theorem commit_validate_iff {c : PublicationCommitJournal} :
    c.validate = .ok () ↔ ValidCommit c := by
  unfold PublicationCommitJournal.validate
  constructor
  · intro h
    obtain ⟨total, hfiles, h⟩ := bind_eq_ok h
    obtain ⟨_, hreceipt, h⟩ := bind_eq_ok h
    obtain ⟨_, hidentities, h⟩ := bind_eq_ok h
    exact ⟨⟨total, hfiles⟩, check_ok hreceipt, check_ok hidentities, check_ok h⟩
  · rintro ⟨⟨total, hfiles⟩, hreceipt, hidentities, haccounting⟩
    rw [hfiles, ok_bind, checked hreceipt, ok_bind, checked hidentities, ok_bind,
      checked haccounting]

theorem planned_valid {files : List TransportPart} {receiptDigest : Option ContentDigest}
    {c : PublicationCommitJournal}
    (h : PublicationCommitJournal.planned files receiptDigest = .ok c) :
    ValidCommit c ∧ c.state = .planned ∧ c.files = files ∧ c.receiptDigest = receiptDigest := by
  obtain ⟨total, hfiles, h⟩ := bind_eq_ok h
  obtain ⟨_, hreceipt, h⟩ := bind_eq_ok h
  cases h
  exact ⟨⟨⟨total, hfiles⟩, check_ok hreceipt, rfl, by simp [invalidAccounting]⟩, rfl, rfl, rfl⟩

theorem ValidCommit.markCommitted {c c' : PublicationCommitJournal} (h : ValidCommit c)
    {parentHead commitId : Revision}
    {digests : List ContentDigest} (hok : c.markCommitted parentHead commitId digests = .ok c') :
    ValidCommit c' ∧ c'.state = .committed ∧ c'.files = c.files ∧
    c'.receiptDigest = c.receiptDigest ∧
      blank commitId = false := by
  obtain ⟨_, hguard, hok⟩ := bind_eq_ok hok
  obtain ⟨_, haccounting, hok⟩ := bind_eq_ok hok
  cases hok
  have hguard := check_ok hguard
  have haccounting := check_ok haccounting
  simp only [Bool.or_eq_false_iff] at hguard haccounting
  obtain ⟨⟨-, hparent⟩, hcommit⟩ := hguard
  refine ⟨⟨h.files, h.receipt, ?_, ?_⟩, rfl, rfl, rfl, hcommit⟩
  · simp [present_some hparent, present_some hcommit]
  · simp [haccounting.2]

theorem ValidCommit.markReused {c c' : PublicationCommitJournal} (h : ValidCommit c)
    {revision : Revision} (hok : c.markReused revision = .ok c') :
    ValidCommit c' ∧ c'.state = .remoteVerified ∧ c'.files = c.files ∧
    c'.receiptDigest = c.receiptDigest := by
  obtain ⟨_, hguard, hok⟩ := bind_eq_ok hok
  cases hok
  have hguard := check_ok hguard
  simp only [Bool.or_eq_false_iff] at hguard
  refine ⟨⟨h.files, h.receipt, ?_, ?_⟩, rfl, rfl, rfl⟩
  · simp [present_some hguard.2]
  · simp [invalidAccounting]

theorem ValidCommit.markRemoteVerified {c c' : PublicationCommitJournal} (h : ValidCommit c)
    {commitId : Revision} (hok : c.markRemoteVerified commitId = .ok c') :
    ValidCommit c' ∧ c'.state = .remoteVerified ∧ c'.files = c.files ∧
    c'.receiptDigest = c.receiptDigest := by
  obtain ⟨_, hguard, hok⟩ := bind_eq_ok hok
  cases hok
  have hguard := check_ok hguard
  simp only [Bool.or_eq_false_iff, bne_eq_false_iff_eq] at hguard
  have hidentities := h.identities
  have haccounting := h.accounting
  rw [hguard.1] at hidentities haccounting
  exact ⟨⟨h.files, h.receipt, by simpa using hidentities, by simpa using haccounting⟩,
    rfl, rfl, rfl⟩

/-! ## Batches -/

/-- The record goes with the state of the batch. -/
def recordAgrees (state : PublicationBatchState) (record : Option PublicationCommitState) : Bool :=
  match state with
  | .planned | .committed => record.isNone
  | .payloadVerified => record == some .planned
  | .recordCommitted => record == some .committed
  | .remoteVerified => record == some .remoteVerified || record.isNone

/-- The checks of a batch that only read its plan. -/
structure ValidPlan (plan : PublicationBatchPlan) : Prop where
  bounded : (plan.parts.isEmpty || plan.payloadBytes == 0 ||
    decide (githubMaxPublicationBatchBytes < plan.payloadBytes)) = false
  parts : (!plan.parts.all TransportPart.valid) = false
  accounted : checkedSum 0 (plan.parts.map (·.sizeBytes)) = some plan.payloadBytes

structure ValidBatch (b : PublicationBatchJournal) : Prop where
  plan : ValidPlan b.plan
  identities : ((b.state == .planned && (present b.parentHead || present b.commitId)) ||
    (b.state != .planned && !(present b.parentHead && present b.commitId))) = false
  accounting : (invalidAccounting b.newlyCommittedDigests (partDigests b.plan.parts) ||
    (b.state == .planned && !b.newlyCommittedDigests.isEmpty)) = false
  record : ∀ record ∈ b.recordCommit,
    ValidCommit record ∧ (record.files.length != 1 || record.receiptDigest.isSome) = false
  agrees : recordAgrees b.state (b.recordCommit.map (·.state)) = true

theorem batch_validate_iff {b : PublicationBatchJournal} : b.validate = .ok () ↔ ValidBatch b := by
  unfold PublicationBatchJournal.validate
  constructor
  · intro h
    obtain ⟨_, hbounded, h⟩ := bind_eq_ok h
    obtain ⟨_, hparts, h⟩ := bind_eq_ok h
    obtain ⟨planned, hplanned, h⟩ := bind_eq_ok h
    obtain ⟨_, haccounted, h⟩ := bind_eq_ok h
    obtain ⟨_, hidentities, h⟩ := bind_eq_ok h
    obtain ⟨_, haccounting, h⟩ := bind_eq_ok h
    have hsum := require_ok hplanned
    rw [bne_eq_false_iff_eq.mp (check_ok haccounted)] at hsum
    have hplan : ValidPlan b.plan := ⟨check_ok hbounded, check_ok hparts, hsum⟩
    have hagrees : ∀ {u}, check (!recordAgrees b.state (b.recordCommit.map (·.state)))
        (.invalidManifest "publication batch and durable record states disagree") = .ok u →
        recordAgrees b.state (b.recordCommit.map (·.state)) = true := by
      intro u hcheck
      simpa using check_ok hcheck
    cases hrecord : b.recordCommit with
    | none =>
      rw [hrecord] at h hagrees
      refine ⟨hplan, check_ok hidentities, check_ok haccounting, ?_, ?_⟩
      · simp [hrecord]
      · rw [hrecord]
        exact hagrees h
    | some record =>
      rw [hrecord] at h hagrees
      obtain ⟨_, hvalid, h⟩ := bind_eq_ok h
      obtain ⟨_, hsingle, h⟩ := bind_eq_ok h
      refine ⟨hplan, check_ok hidentities, check_ok haccounting, ?_, ?_⟩
      · rintro record' hmem
        rw [hrecord] at hmem
        cases hmem
        exact ⟨commit_validate_iff.mp hvalid, check_ok hsingle⟩
      · rw [hrecord]
        exact hagrees h
  · rintro ⟨⟨hbounded, hparts, hsum⟩, hidentities, haccounting, hrecord, hagrees⟩
    have hagrees : check (!recordAgrees b.state (b.recordCommit.map (·.state)))
        (.invalidManifest "publication batch and durable record states disagree") = .ok () :=
      checked (by simp [hagrees])
    rw [checked hbounded, ok_bind, checked hparts, ok_bind, hsum, require, ok_bind,
      checked (by simp), ok_bind, checked hidentities, ok_bind, checked haccounting, ok_bind]
    cases hsome : b.recordCommit with
    | none =>
      rw [hsome] at hagrees
      exact hagrees
    | some record =>
      obtain ⟨hvalid, hsingle⟩ := hrecord record hsome
      rw [hsome] at hagrees
      simp only [commit_validate_iff.mpr hvalid, ok_bind, checked hsingle]
      exact hagrees

/-! ## Targets -/

structure ValidBatchAt (transactionId : String) (destination : PublicationDestination) (index : Nat)
    (b : PublicationBatchJournal) : Prop where
  sequence : b.plan.sequence = index
  valid : ValidBatch b
  path : ∀ record ∈ b.recordCommit,
    record.files.head?.map (·.repositoryPath) =
      some (batchRecordPath transactionId destination index)

def ValidBatches (transactionId : String) (destination : PublicationDestination)
    (batches : List PublicationBatchJournal) : Prop :=
  ∀ (index : Nat) (b : PublicationBatchJournal), batches[index]? = some b →
    ValidBatchAt transactionId destination index b

section
variable {transactionId : String} {destination : PublicationDestination}

theorem invalidBatch_iff {index : Nat} {b : PublicationBatchJournal} :
    PublicationTransactionJournal.invalidBatch transactionId destination index b = false ↔
      ValidBatchAt transactionId destination index b := by
  unfold PublicationTransactionJournal.invalidBatch
  simp only [Bool.or_eq_false_iff, bne_eq_false_iff_eq, Bool.not_eq_false', toBool_iff,
    batch_validate_iff]
  constructor
  · rintro ⟨⟨hsequence, hvalid⟩, hpath⟩
    refine ⟨hsequence, hvalid, ?_⟩
    intro record hmem
    rw [Option.mem_def.mp hmem] at hpath
    simpa using hpath
  · rintro ⟨hsequence, hvalid, hpath⟩
    refine ⟨⟨hsequence, hvalid⟩, ?_⟩
    cases hrecord : b.recordCommit with
    | none => rfl
    | some record => simpa using hpath record hrecord

theorem batches_iff {batches : List PublicationBatchJournal} :
    (batches.mapIdx (PublicationTransactionJournal.invalidBatch transactionId destination)).any
      id = false ↔
      ValidBatches transactionId destination batches := by
  rw [List.any_eq_false]
  constructor
  · intro h index b hb
    refine invalidBatch_iff.mp ?_
    have hmem : PublicationTransactionJournal.invalidBatch transactionId destination index b ∈
        batches.mapIdx (PublicationTransactionJournal.invalidBatch transactionId destination) :=
      List.mem_of_getElem? (by rw [List.getElem?_mapIdx, hb]; rfl)
    simpa using h _ hmem
  · intro h verdict hmem
    obtain ⟨index, hindex⟩ := List.getElem?_of_mem hmem
    rw [List.getElem?_mapIdx] at hindex
    obtain ⟨b, hb, rfl⟩ := Option.map_eq_some_iff.mp hindex
    simp [invalidBatch_iff.mpr (h index b hb)]

theorem ValidBatches.set {batches : List PublicationBatchJournal}
    (h : ValidBatches transactionId destination batches)
    {sequence : Nat} {b : PublicationBatchJournal}
    (hb : ValidBatchAt transactionId destination sequence b) :
    ValidBatches transactionId destination (batches.set sequence b) := by
  intro index b' hb'
  rw [List.getElem?_set] at hb'
  split at hb'
  · rename_i hindex
    split at hb'
    · cases hb'
      exact hindex ▸ hb
    · cases hb'
  · exact h index b' hb'

end

/-- The journals of the two metadata commits, and the receipt, go with the state of the target. -/
structure ValidCommits (t : TargetPublicationJournal) : Prop where
  metadata : ∀ c ∈ t.metadataCommit, ValidCommit c
  discoverability : ∀ c ∈ t.discoverabilityCommit, ValidCommit c ∧
    (c.receiptDigest.all fun digest => !c.files.any fun file =>
      file.contentDigest == digest) = false
  precedence : t.discoverabilityCommit.isSome = true → ∃ m ∈ t.metadataCommit, m.state =
    .remoteVerified
  complete : t.state = .receiptComplete → t.receiptDigest.isSome = true ∧
    ∃ c ∈ t.discoverabilityCommit, c.state = .remoteVerified ∧ c.receiptDigest = t.receiptDigest
  verified : ∀ c ∈ t.discoverabilityCommit, c.state = .remoteVerified → t.state = .receiptComplete

theorem option_all_eq_false {α : Type} {x : Option α} {p : α → Bool} :
    x.all p = false ↔ ∃ a ∈ x, p a = false := by
  cases x <;> simp

theorem coupled_iff {t : TargetPublicationJournal} : ((do
    check (t.discoverabilityCommit.isSome && t.metadataCommit.all fun commit =>
      commit.state != .remoteVerified)
      (.invalidManifest "discoverability commit precedes verified immutable metadata")
    check (t.state == .receiptComplete && (t.receiptDigest.isNone ||
        t.discoverabilityCommit.all fun commit =>
          commit.state != .remoteVerified || commit.receiptDigest != t.receiptDigest))
      (.invalidManifest "receipt-complete target lacks a verified discoverability commit")
    check ((t.discoverabilityCommit.any fun commit => commit.state == .remoteVerified) &&
      t.state != .receiptComplete)
      (.invalidManifest "a remotely verified discoverability commit must be receipt-complete") :
      Result Unit) = .ok ()) ↔
    (t.discoverabilityCommit.isSome = true → ∃ m ∈ t.metadataCommit, m.state = .remoteVerified) ∧
    (t.state = .receiptComplete → t.receiptDigest.isSome = true ∧
      ∃ c ∈ t.discoverabilityCommit, c.state = .remoteVerified ∧
      c.receiptDigest = t.receiptDigest) ∧
    ∀ c ∈ t.discoverabilityCommit, c.state = .remoteVerified → t.state = .receiptComplete := by
  have hprecedence : (t.discoverabilityCommit.isSome &&
      t.metadataCommit.all fun commit => commit.state != .remoteVerified) = false ↔
      (t.discoverabilityCommit.isSome = true → ∃ m ∈ t.metadataCommit, m.state =
          .remoteVerified) := by
    rw [Bool.and_eq_false_imp, option_all_eq_false]
    simp only [bne_eq_false_iff_eq]
  have hcomplete : (t.state == .receiptComplete && (t.receiptDigest.isNone ||
      t.discoverabilityCommit.all fun commit =>
        commit.state != .remoteVerified || commit.receiptDigest != t.receiptDigest)) = false ↔
      (t.state = .receiptComplete → t.receiptDigest.isSome = true ∧
        ∃ c ∈ t.discoverabilityCommit, c.state = .remoteVerified ∧
        c.receiptDigest = t.receiptDigest) := by
    rw [Bool.and_eq_false_imp, beq_iff_eq, Bool.or_eq_false_iff, option_all_eq_false]
    simp only [Bool.or_eq_false_iff, bne_eq_false_iff_eq, Option.isNone_eq_false_iff]
  have hverified : ((t.discoverabilityCommit.any fun commit => commit.state == .remoteVerified) &&
      t.state != .receiptComplete) = false ↔
      ∀ c ∈ t.discoverabilityCommit, c.state = .remoteVerified → t.state = .receiptComplete := by
    rw [Bool.and_eq_false_imp, bne_eq_false_iff_eq]
    cases t.discoverabilityCommit <;> simp
  constructor
  · intro h
    obtain ⟨_, h₁, h⟩ := bind_eq_ok h
    obtain ⟨_, h₂, h⟩ := bind_eq_ok h
    exact ⟨hprecedence.mp (check_ok h₁), hcomplete.mp (check_ok h₂), hverified.mp (check_ok h)⟩
  · rintro ⟨h₁, h₂, h₃⟩
    rw [checked (hprecedence.mpr h₁), ok_bind, checked (hcomplete.mpr h₂), ok_bind,
      checked (hverified.mpr h₃)]

theorem validateCommits_iff {t : TargetPublicationJournal} :
    PublicationTransactionJournal.validateCommits t = .ok () ↔ ValidCommits t := by
  have hcoupled := coupled_iff (t := t)
  unfold PublicationTransactionJournal.validateCommits
  constructor
  · intro h
    have hmetadata : ∀ c ∈ t.metadataCommit, ValidCommit c := by
      intro c hc
      rw [Option.mem_def.mp hc] at h
      obtain ⟨_, hvalid, -⟩ := bind_eq_ok h
      exact commit_validate_iff.mp hvalid
    have hdiscoverability : ∀ c ∈ t.discoverabilityCommit, ValidCommit c ∧
        (c.receiptDigest.all fun digest => !c.files.any fun file => file.contentDigest == digest) =
            false := by
      intro c hc
      rw [Option.mem_def.mp hc] at h
      dsimp only at h
      split at h
      all_goals
        obtain ⟨_, -, h⟩ := bind_eq_ok h
        obtain ⟨_, hvalid, h⟩ := bind_eq_ok h
        obtain ⟨_, hreceipt, -⟩ := bind_eq_ok h
        exact ⟨commit_validate_iff.mp hvalid, check_ok hreceipt⟩
    have hrest := hcoupled.mp (by
      split at h
      · split at h
        all_goals
          obtain ⟨_, -, h⟩ := bind_eq_ok h
          obtain ⟨_, -, h⟩ := bind_eq_ok h
          exact h
      · split at h
        all_goals
          obtain ⟨_, -, h⟩ := bind_eq_ok h
          obtain ⟨_, -, h⟩ := bind_eq_ok h
          obtain ⟨_, -, h⟩ := bind_eq_ok h
          exact h)
    exact ⟨hmetadata, hdiscoverability, hrest.1, hrest.2.1, hrest.2.2⟩
  · rintro ⟨hmetadata, hdiscoverability, hprecedence, hcomplete, hverified⟩
    have hrest := hcoupled.mpr ⟨hprecedence, hcomplete, hverified⟩
    have hdiscoverability : ∀ c, t.discoverabilityCommit = some c → c.validate = .ok () ∧
        ∀ e, check (c.receiptDigest.all fun digest => !c.files.any fun file =>
          file.contentDigest == digest) e =
          .ok () := by
      intro c hc
      obtain ⟨hvalid, hreceipt⟩ := hdiscoverability c hc
      exact ⟨commit_validate_iff.mpr hvalid, fun e => checked hreceipt⟩
    split
    · split
      · exact hrest
      · rename_i m hm
        rw [commit_validate_iff.mpr (hmetadata m hm)]
        exact hrest
    · rename_i c hc
      split
      · rw [ok_bind, (hdiscoverability c hc).1, ok_bind, (hdiscoverability c hc).2]
        exact hrest
      · rename_i m hm
        rw [commit_validate_iff.mpr (hmetadata m hm), ok_bind, (hdiscoverability c hc).1, ok_bind,
          (hdiscoverability c hc).2]
        exact hrest
structure ValidTarget (transactionId : String) (destination : PublicationDestination)
    (t : TargetPublicationJournal) : Prop where
  head : blank t.expectedHead = false
  batches : ValidBatches transactionId destination t.batches
  commits : ValidCommits t

/-! ## Steps -/

/-- What an operation that succeeds found and left. -/
inductive Step (t : TargetPublicationJournal) :
    TargetOperation → TargetPublicationJournal → Prop where
  | start (hstate : t.state = .planned ∨ t.state = .batchVerified ∨ t.state = .failed) :
      Step t .start { t with state := .uploading, failure := none }
  | fail (message : String) : Step t (.fail message) { t with
      failure := some message, state := .failed }
  | markBatchCommitted {sequence : Nat} {parentHead commitId : Revision}
      {digests : List ContentDigest}
      {b : PublicationBatchJournal} (hstate : t.state = .uploading)
      (hhead : parentHead = t.expectedHead)
      (hcommit : blank commitId = false) (hb : t.batches[sequence]? = some b)
      (hplanned : b.state = .planned)
      (hdigests : invalidAccounting digests (partDigests b.plan.parts) = false) :
      Step t (.markBatchCommitted sequence parentHead commitId digests)
        { t with
          batches := t.batches.set sequence { b with
            state := .committed, parentHead := some parentHead, commitId := some commitId
            newlyCommittedDigests := digests }
          expectedHead := commitId }
  | planVerifiedBatchRecord {sequence : Nat} {commitId : Revision} {file : TransportPart}
      {b : PublicationBatchJournal} {record : PublicationCommitJournal}
      (hb : t.batches[sequence]? = some b)
      (hcommitted : b.state = .committed)
      (hrecord : PublicationCommitJournal.planned [file] none = .ok record) :
      Step t (.planVerifiedBatchRecord sequence commitId file)
        { t with batches := t.batches.set sequence { b with
          recordCommit := some record, state := .payloadVerified } }
  | markBatchRecordCommitted {sequence : Nat} {parentHead commitId : Revision}
      {digests : List ContentDigest}
      {b : PublicationBatchJournal} {record record' : PublicationCommitJournal}
      (hb : t.batches[sequence]? = some b) (hverified : b.state = .payloadVerified)
      (hrecord : b.recordCommit = some record)
      (hmarked : record.markCommitted parentHead commitId digests = .ok record') :
      Step t (.markBatchRecordCommitted sequence parentHead commitId digests)
        { t with
          batches := t.batches.set sequence { b with
            recordCommit := some record', state := .recordCommitted }
          expectedHead := commitId }
  | markBatchRecordReused {sequence : Nat} {revision : Revision} {b : PublicationBatchJournal}
      {record record' : PublicationCommitJournal} (hb : t.batches[sequence]? = some b)
      (hverified : b.state = .payloadVerified) (hrecord : b.recordCommit = some record)
      (hmarked : record.markReused revision = .ok record') :
      Step t (.markBatchRecordReused sequence revision)
        { t with
          batches := t.batches.set sequence { b with
            recordCommit := some record', state := .remoteVerified }
          state := .batchVerified }
  | markBatchRecordVerified {sequence : Nat} {commitId : Revision} {b : PublicationBatchJournal}
      {record record' : PublicationCommitJournal} (hb : t.batches[sequence]? = some b)
      (hcommitted : b.state = .recordCommitted) (hrecord : b.recordCommit = some record)
      (hmarked : record.markRemoteVerified commitId = .ok record') :
      Step t (.markBatchRecordVerified sequence commitId)
        { t with
          batches := t.batches.set sequence { b with
            recordCommit := some record', state := .remoteVerified }
          state := .batchVerified }
  | markBatchReused {sequence : Nat} {revision : Revision} {b : PublicationBatchJournal}
      (hstate : t.state = .uploading) (hrevision : blank revision = false)
      (hb : t.batches[sequence]? = some b)
      (hplanned : b.state = .planned) :
      Step t (.markBatchReused sequence revision)
        { t with
          batches := t.batches.set sequence { b with
            state := .remoteVerified, parentHead := some revision, commitId := some revision
            newlyCommittedDigests := [] }
          state := .batchVerified }
  | recordRefConflict {newHead : Revision} (hstate : t.state = .uploading)
      (hhead : blank newHead = false) :
      Step t (.recordRefConflict newHead) { t with
        expectedHead := newHead, retryCount := t.retried }
  | markPayloadVerifiedByFamilyCommit {parentHead commitId : Revision}
      (hstate : t.state = .planned ∨ t.state = .uploading) (hparent : blank parentHead = false)
      (hcommit : blank commitId = false) (hplanned : ∀ b ∈ t.batches, b.state = .planned) :
      Step t (.markPayloadVerifiedByFamilyCommit parentHead commitId)
        { t with
          batches := t.batches.map fun b => { b with
            state := .remoteVerified, parentHead := some parentHead, commitId := some commitId
            newlyCommittedDigests := [], recordCommit := none }
          expectedHead := commitId
          state := .batchVerified }
  | planMetadataCommit {files : List TransportPart} {c : PublicationCommitJournal}
      (hstate : t.state = .batchVerified) (hnone : t.metadataCommit = none)
      (hc : PublicationCommitJournal.planned files none = .ok c) :
      Step t (.planMetadataCommit files) { t with metadataCommit := some c }
  | planDiscoverabilityCommit {files : List TransportPart} {receiptDigest : ContentDigest}
      {c m : PublicationCommitJournal} (hstate : t.state = .remoteVerified)
      (hm : t.metadataCommit = some m)
      (hverified : m.state = .remoteVerified)
      (hcontained : (files.any fun file => file.contentDigest == receiptDigest) = true)
      (hc : PublicationCommitJournal.planned files (some receiptDigest) = .ok c) :
      Step t (.planDiscoverabilityCommit files receiptDigest) { t with
        discoverabilityCommit := some c }
  | discardPlannedDiscoverabilityAfterConflict {currentHead : Revision}
      {c : PublicationCommitJournal}
      (hc : t.discoverabilityCommit = some c) (hplanned : c.state = .planned)
      (hhead : blank currentHead = false) :
      Step t (.discardPlannedDiscoverabilityAfterConflict currentHead)
        { t with expectedHead := currentHead, retryCount := t.retried, discoverabilityCommit := none
          }
  | markRemoteVerified : Step t .markRemoteVerified { t with state := .remoteVerified }
  | completeReceipt {receipt : ContentDigest} {c : PublicationCommitJournal}
      (hstate : t.state = .remoteVerified)
      (hc : t.discoverabilityCommit = some c) (hverified : c.state = .remoteVerified)
      (hreceipt : c.receiptDigest = some receipt) :
      Step t (.completeReceipt receipt) { t with
        receiptDigest := some receipt, state := .receiptComplete }
  | abandon {reason : String} (hstate : t.state ≠ .receiptComplete) :
      Step t (.abandon reason) { t with
        failure := some (TargetPublicationJournal.trimmed reason), state := .abandoned }
  | restoreFailedResumeState {state : PublicationTargetState} (hstate : t.state = .failed)
      (hrestored : state = .uploading ∨ state = .remoteVerified ∨ state = .batchVerified) :
      Step t .restoreFailedResumeState { t with state, failure := none }

theorem batch_ok {t : TargetPublicationJournal} {sequence : Nat} {b : PublicationBatchJournal}
    (h : t.batch sequence = .ok b) : t.batches[sequence]? = some b :=
  require_ok h

theorem plannedRecord_ok {b : PublicationBatchJournal} {record : PublicationCommitJournal}
    (h : TargetPublicationJournal.plannedRecord b = .ok record) : b.recordCommit = some record :=
  require_ok h

theorem apply_step {t t' : TargetPublicationJournal} {operation : TargetOperation}
    (h : t.apply operation = .ok t') : Step t operation t' := by
  cases operation with
  | start =>
    obtain ⟨_, hguard, h⟩ := bind_eq_ok h
    have hguard := check_ok hguard
    simp only [Bool.and_eq_false_iff, bne_eq_false_iff_eq, or_assoc] at hguard
    cases h
    exact .start hguard
  | fail message =>
    cases h
    exact .fail message
  | markBatchCommitted sequence parentHead commitId digests =>
    obtain ⟨_, hguard, h⟩ := bind_eq_ok h
    obtain ⟨b, hb, h⟩ := bind_eq_ok h
    obtain ⟨_, hplanned, h⟩ := bind_eq_ok h
    obtain ⟨_, hdigests, h⟩ := bind_eq_ok h
    have hguard := check_ok hguard
    have hplanned := check_ok hplanned
    have hdigests := check_ok hdigests
    simp only [Bool.or_eq_false_iff, bne_eq_false_iff_eq] at hguard hplanned hdigests
    cases h
    exact .markBatchCommitted hguard.1.1 hguard.1.2 hguard.2 (batch_ok hb) hplanned hdigests.2
  | planVerifiedBatchRecord sequence commitId file =>
    obtain ⟨b, hb, h⟩ := bind_eq_ok h
    obtain ⟨_, hguard, h⟩ := bind_eq_ok h
    obtain ⟨record, hrecord, h⟩ := bind_eq_ok h
    have hguard := check_ok hguard
    simp only [Bool.or_eq_false_iff, bne_eq_false_iff_eq] at hguard
    cases h
    exact .planVerifiedBatchRecord (batch_ok hb) hguard.1.1 hrecord
  | markBatchRecordCommitted sequence parentHead commitId digests =>
    obtain ⟨_, -, h⟩ := bind_eq_ok h
    obtain ⟨b, hb, h⟩ := bind_eq_ok h
    obtain ⟨_, hverified, h⟩ := bind_eq_ok h
    obtain ⟨record, hrecord, h⟩ := bind_eq_ok h
    obtain ⟨record', hmarked, h⟩ := bind_eq_ok h
    cases h
    exact .markBatchRecordCommitted (batch_ok hb) (bne_eq_false_iff_eq.mp (check_ok hverified))
      (plannedRecord_ok hrecord) hmarked
  | markBatchRecordReused sequence revision =>
    obtain ⟨b, hb, h⟩ := bind_eq_ok h
    obtain ⟨_, hverified, h⟩ := bind_eq_ok h
    obtain ⟨record, hrecord, h⟩ := bind_eq_ok h
    obtain ⟨record', hmarked, h⟩ := bind_eq_ok h
    cases h
    exact .markBatchRecordReused (batch_ok hb) (bne_eq_false_iff_eq.mp (check_ok hverified))
      (plannedRecord_ok hrecord) hmarked
  | markBatchRecordVerified sequence commitId =>
    obtain ⟨b, hb, h⟩ := bind_eq_ok h
    obtain ⟨_, hcommitted, h⟩ := bind_eq_ok h
    obtain ⟨record, hrecord, h⟩ := bind_eq_ok h
    obtain ⟨record', hmarked, h⟩ := bind_eq_ok h
    cases h
    exact .markBatchRecordVerified (batch_ok hb) (bne_eq_false_iff_eq.mp (check_ok hcommitted))
      (plannedRecord_ok hrecord) hmarked
  | markBatchReused sequence revision =>
    obtain ⟨_, hguard, h⟩ := bind_eq_ok h
    obtain ⟨b, hb, h⟩ := bind_eq_ok h
    obtain ⟨_, hplanned, h⟩ := bind_eq_ok h
    have hguard := check_ok hguard
    simp only [Bool.or_eq_false_iff, bne_eq_false_iff_eq] at hguard
    cases h
    exact .markBatchReused hguard.1 hguard.2 (batch_ok hb)
      (bne_eq_false_iff_eq.mp (check_ok hplanned))
  | recordRefConflict newHead =>
    obtain ⟨_, hstate, h⟩ := bind_eq_ok h
    obtain ⟨_, hhead, h⟩ := bind_eq_ok h
    cases h
    exact .recordRefConflict (bne_eq_false_iff_eq.mp (check_ok hstate)) (check_ok hhead)
  | markPayloadVerifiedByFamilyCommit parentHead commitId =>
    obtain ⟨_, hguard, h⟩ := bind_eq_ok h
    have hguard := check_ok hguard
    simp only [Bool.or_eq_false_iff, Bool.and_eq_false_iff, bne_eq_false_iff_eq, List.any_eq_false,
      bne_iff_ne, ne_eq, not_not] at hguard
    obtain ⟨⟨⟨⟨⟨hstate, -⟩, hparent⟩, hcommit⟩, -⟩, hplanned⟩ := hguard
    cases h
    exact .markPayloadVerifiedByFamilyCommit hstate hparent hcommit hplanned
  | planMetadataCommit files =>
    obtain ⟨_, hguard, h⟩ := bind_eq_ok h
    obtain ⟨c, hc, h⟩ := bind_eq_ok h
    have hguard := check_ok hguard
    simp only [Bool.or_eq_false_iff, bne_eq_false_iff_eq, Option.isSome_eq_false_iff,
      Option.isNone_iff_eq_none]
      at hguard
    cases h
    exact .planMetadataCommit hguard.1.1 hguard.2 hc
  | planDiscoverabilityCommit files receiptDigest =>
    obtain ⟨_, hguard, h⟩ := bind_eq_ok h
    obtain ⟨_, hcontained, h⟩ := bind_eq_ok h
    obtain ⟨c, hc, h⟩ := bind_eq_ok h
    have hguard := check_ok hguard
    simp only [Bool.or_eq_false_iff, bne_eq_false_iff_eq, option_all_eq_false] at hguard
    obtain ⟨⟨hstate, m, hm, hverified⟩, -⟩ := hguard
    cases h
    exact .planDiscoverabilityCommit hstate hm hverified (by simpa using check_ok hcontained) hc
  | discardPlannedDiscoverabilityAfterConflict currentHead =>
    obtain ⟨_, hguard, h⟩ := bind_eq_ok h
    obtain ⟨_, hhead, h⟩ := bind_eq_ok h
    obtain ⟨c, hc, hplanned⟩ := option_all_eq_false.mp (check_ok hguard)
    cases h
    exact .discardPlannedDiscoverabilityAfterConflict hc (bne_eq_false_iff_eq.mp hplanned)
      (check_ok hhead)
  | markRemoteVerified =>
    obtain ⟨_, -, h⟩ := bind_eq_ok h
    cases h
    exact .markRemoteVerified
  | completeReceipt receipt =>
    obtain ⟨_, hguard, h⟩ := bind_eq_ok h
    have hguard := check_ok hguard
    simp only [Bool.or_eq_false_iff, bne_eq_false_iff_eq, option_all_eq_false] at hguard
    obtain ⟨⟨hstate, -⟩, c, hc, hverified, hreceipt⟩ := hguard
    cases h
    exact .completeReceipt hstate hc hverified hreceipt
  | abandon reason =>
    obtain ⟨_, -, h⟩ := bind_eq_ok h
    obtain ⟨_, hstate, h⟩ := bind_eq_ok h
    cases h
    exact .abandon (by simpa using check_ok hstate)
  | restoreFailedResumeState =>
    obtain ⟨_, hstate, h⟩ := bind_eq_ok h
    cases h
    refine .restoreFailedResumeState (bne_eq_false_iff_eq.mp (check_ok hstate)) ?_
    split
    · exact .inl rfl
    · split
      · exact .inr (.inl rfl)
      · exact .inr (.inr rfl)

/-- `ReceiptComplete` and `Abandoned`. -/
def PublicationTargetState.terminal (state : PublicationTargetState) : Bool :=
  state == .receiptComplete || state == .abandoned

namespace TargetOperation

/-- The operations that write the state of the target without reading it. -/
def unguarded : TargetOperation → Bool
  | .fail _ | .markBatchRecordReused _ _ | .markBatchRecordVerified _ _ | .markRemoteVerified =>
    true
  | _ => false

/-- A planned batch record lies where the check of the journal looks for it. -/
def recordsAt (transactionId : String) (destination : PublicationDestination) :
    TargetOperation → Prop
  | .planVerifiedBatchRecord sequence _ file =>
    file.repositoryPath = batchRecordPath transactionId destination sequence
  | _ => True

end TargetOperation

section
variable {t t' : TargetPublicationJournal} {operation : TargetOperation}

theorem Step.terminal (h : Step t operation t') (hterminal : t.state.terminal = true)
    (hguarded : operation.unguarded = false) : t'.state = t.state := by
  cases h with
  | markBatchCommitted => rfl
  | planVerifiedBatchRecord => rfl
  | markBatchRecordCommitted => rfl
  | recordRefConflict => rfl
  | planMetadataCommit => rfl
  | planDiscoverabilityCommit => rfl
  | discardPlannedDiscoverabilityAfterConflict => rfl
  | fail => cases hguarded
  | markBatchRecordReused => cases hguarded
  | markBatchRecordVerified => cases hguarded
  | markRemoteVerified => cases hguarded
  | start hstate =>
    rcases hstate with hstate | hstate | hstate <;> rw [hstate] at hterminal <;> cases hterminal
  | markBatchReused hstate =>
    rw [hstate] at hterminal
    cases hterminal
  | markPayloadVerifiedByFamilyCommit hstate =>
    rcases hstate with hstate | hstate <;> rw [hstate] at hterminal <;> cases hterminal
  | completeReceipt hstate =>
    rw [hstate] at hterminal
    cases hterminal
  | abandon hstate =>
    have habandoned : t.state = .abandoned :=
      by simpa [PublicationTargetState.terminal, hstate] using hterminal
    exact habandoned.symm
  | restoreFailedResumeState hstate =>
    rw [hstate] at hterminal
    cases hterminal

/-- Where the target publishes. -/
theorem Step.route (h : Step t operation t') :
    t'.destination = t.destination ∧ t'.repository = t.repository ∧ t'.shardId = t.shardId ∧
    t'.branch = t.branch := by
  cases h <;> exact ⟨rfl, rfl, rfl, rfl⟩

theorem ValidCommits.moved (h : ValidCommits t) (hmetadata : t'.metadataCommit = t.metadataCommit)
    (hdiscoverability : t'.discoverabilityCommit = t.discoverabilityCommit)
    (hreceipt : t'.receiptDigest = t.receiptDigest)
    (hstate : t'.state = .receiptComplete ↔ t.state = .receiptComplete) : ValidCommits t' := by
  refine ⟨?_, ?_, ?_, ?_, ?_⟩
  · rw [hmetadata]
    exact h.metadata
  · rw [hdiscoverability]
    exact h.discoverability
  · rw [hmetadata, hdiscoverability]
    exact h.precedence
  · rw [hdiscoverability, hreceipt, hstate]
    exact h.complete
  · rw [hdiscoverability, hstate]
    exact h.verified

/-- The receipt was not complete and is not. -/
theorem ValidCommits.left (h : ValidCommits t) (hmetadata : t'.metadataCommit = t.metadataCommit)
    (hdiscoverability : t'.discoverabilityCommit = t.discoverabilityCommit)
    (hreceipt : t'.receiptDigest = t.receiptDigest) (hbefore : t.state ≠ .receiptComplete)
    (hafter : t'.state ≠ .receiptComplete) : ValidCommits t' :=
  h.moved hmetadata hdiscoverability hreceipt (iff_of_false hafter hbefore)

variable {transactionId : String} {destination : PublicationDestination}

theorem Step.head (h : Step t operation t') (hvalid : ValidTarget transactionId destination t) :
    blank t'.expectedHead = false := by
  cases h with
  | markBatchCommitted _ _ hcommit => exact hcommit
  | markBatchRecordCommitted hb _ hrecord hmarked =>
    have hrecord := ((hvalid.batches _ _ hb).valid.record _ hrecord).1
    exact (hrecord.markCommitted hmarked).2.2.2.2
  | recordRefConflict _ hhead => exact hhead
  | markPayloadVerifiedByFamilyCommit _ _ hcommit => exact hcommit
  | discardPlannedDiscoverabilityAfterConflict _ _ hhead => exact hhead
  | _ => exact hvalid.head

/-- Where the receipt is complete, nothing is left to plan, and what remains keeps the commits. -/
theorem Step.commits (h : Step t operation t') (hvalid : ValidCommits t)
    (hguarded : t.state = .receiptComplete → operation.unguarded = false) : ValidCommits t' := by
  cases h with
  | planMetadataCommit hstate hnone hc =>
    obtain ⟨hplanned, -⟩ := planned_valid hc
    have hnothing : t.discoverabilityCommit = none := by
      by_contra hsome
      obtain ⟨m, hm, -⟩ := hvalid.precedence (Option.isSome_iff_ne_none.mpr hsome)
      rw [hnone] at hm
      cases hm
    refine ⟨?_, hvalid.discoverability, ?_, hvalid.complete, hvalid.verified⟩
    · rintro c' hc'
      cases hc'
      exact hplanned
    · intro hsome
      rw [hnothing] at hsome
      cases hsome
  | planDiscoverabilityCommit hstate hm hverified hcontained hc =>
    obtain ⟨hplanned, hcstate, hfiles, hreceipt⟩ := planned_valid hc
    refine ⟨hvalid.metadata, ?_, fun _ => ⟨_, hm, hverified⟩, ?_, ?_⟩
    · rintro c' hc'
      cases hc'
      refine ⟨hplanned, ?_⟩
      rw [hreceipt, hfiles]
      simpa using hcontained
    · intro hcomplete
      rw [hstate] at hcomplete
      cases hcomplete
    · rintro c' hc' hcverified
      cases hc'
      rw [hcstate] at hcverified
      cases hcverified
  | discardPlannedDiscoverabilityAfterConflict hc hplanned =>
    refine ⟨hvalid.metadata, by simp, by simp, ?_, by simp⟩
    intro hcomplete
    obtain ⟨-, c', hc', hverified, -⟩ := hvalid.complete hcomplete
    rw [hc] at hc'
    cases hc'
    rw [hplanned] at hverified
    cases hverified
  | completeReceipt hstate hc hverified =>
    have hcomplete := hvalid.verified _ hc hverified
    rw [hstate] at hcomplete
    cases hcomplete
  | markBatchCommitted => exact hvalid.moved rfl rfl rfl Iff.rfl
  | planVerifiedBatchRecord => exact hvalid.moved rfl rfl rfl Iff.rfl
  | markBatchRecordCommitted => exact hvalid.moved rfl rfl rfl Iff.rfl
  | recordRefConflict => exact hvalid.moved rfl rfl rfl Iff.rfl
  | start hstate =>
    refine hvalid.left rfl rfl rfl ?_ (by simp)
    rcases hstate with hstate | hstate | hstate <;> simp [hstate]
  | fail => exact hvalid.left rfl rfl rfl (fun hcomplete => by cases hguarded hcomplete) (by simp)
  | markBatchRecordReused =>
    exact hvalid.left rfl rfl rfl (fun hcomplete => by cases hguarded hcomplete) (by simp)
  | markBatchRecordVerified =>
    exact hvalid.left rfl rfl rfl (fun hcomplete => by cases hguarded hcomplete) (by simp)
  | markRemoteVerified => exact hvalid.left rfl rfl rfl (fun hcomplete => by
      cases hguarded hcomplete) (by simp)
  | markBatchReused hstate => exact hvalid.left rfl rfl rfl (by simp [hstate]) (by simp)
  | markPayloadVerifiedByFamilyCommit hstate =>
    refine hvalid.left rfl rfl rfl ?_ (by simp)
    rcases hstate with hstate | hstate <;> simp [hstate]
  | abandon hstate => exact hvalid.left rfl rfl rfl hstate (by simp)
  | restoreFailedResumeState hstate hrestored =>
    refine hvalid.left rfl rfl rfl (by simp [hstate]) ?_
    rcases hrestored with rfl | rfl | rfl <;> simp

theorem ValidBatch.unrecorded {b : PublicationBatchJournal} (h : ValidBatch b)
    (hplanned : b.state = .planned) :
    b.recordCommit = none := by
  have hagrees := h.agrees
  rw [hplanned] at hagrees
  simpa [recordAgrees] using hagrees

/-- The batch is verified or committed with identities of its own. -/
theorem ValidBatchAt.committed {index : Nat} {b : PublicationBatchJournal}
    (h : ValidBatchAt transactionId destination index b) (hnone : b.recordCommit = none)
    {parentHead commitId : Revision}
    (hparent : blank parentHead = false) (hcommit : blank commitId = false)
    {digests : List ContentDigest}
    (hdigests : invalidAccounting digests (partDigests b.plan.parts) = false)
    {state : PublicationBatchState} (hstate : state = .committed ∨ state = .remoteVerified) :
    ValidBatchAt transactionId destination index { b with
      state, parentHead := some parentHead, commitId := some commitId,
      newlyCommittedDigests := digests } := by
  refine ⟨h.sequence, ⟨h.valid.plan, ?_, ?_, ?_, ?_⟩, ?_⟩
  · rcases hstate with rfl | rfl <;> simp [present_some hparent, present_some hcommit]
  · rcases hstate with rfl | rfl <;> simp [hdigests]
  · rw [hnone]
    simp
  · rw [hnone]
    rcases hstate with rfl | rfl <;> rfl
  · rw [hnone]
    simp

/-- The record of a batch that has its identities is replaced. -/
theorem ValidBatchAt.recorded {index : Nat} {b : PublicationBatchJournal}
    (h : ValidBatchAt transactionId destination index b) (hidentified : b.state ≠ .planned)
    {record : PublicationCommitJournal} (hvalid : ValidCommit record)
    (hsingle : (record.files.length != 1 || record.receiptDigest.isSome) = false)
    (hpath : record.files.head?.map (·.repositoryPath) =
      some (batchRecordPath transactionId destination index))
    {state : PublicationBatchState} (hstate : state ≠ .planned)
    (hagrees : recordAgrees state (some record.state) = true) :
    ValidBatchAt transactionId destination index { b with recordCommit := some record, state } := by
  have hidentities := h.valid.identities
  have haccounting := h.valid.accounting
  simp only [Bool.or_eq_false_iff, bne, beq_eq_false_iff_ne.mpr hidentified, Bool.false_and,
    Bool.not_false, Bool.true_and, true_and, and_true] at hidentities haccounting
  refine ⟨h.sequence, ⟨h.valid.plan, ?_, ?_, ?_, hagrees⟩, ?_⟩
  · simp only [bne, beq_eq_false_iff_ne.mpr hstate, Bool.false_and, Bool.false_or, Bool.not_false,
      Bool.true_and, hidentities]
  · simp only [beq_eq_false_iff_ne.mpr hstate, Bool.false_and, Bool.or_false, haccounting]
  · rintro record' hmem
    cases hmem
    exact ⟨hvalid, hsingle⟩
  · rintro record' hmem
    cases hmem
    exact hpath

theorem Step.batches (h : Step t operation t') (hvalid : ValidTarget transactionId destination t)
    (hrecords : operation.recordsAt transactionId destination) :
    ValidBatches transactionId destination t'.batches := by
  have hempty : ∀ parts : List TransportPart, invalidAccounting [] (partDigests parts) = false := by
    intro parts
    simp [invalidAccounting]
  cases h with
  | markBatchCommitted hstate hhead hcommit hb hplanned hdigests =>
    have hat := hvalid.batches _ _ hb
    exact hvalid.batches.set
      (hat.committed (hat.valid.unrecorded hplanned) (hhead ▸ hvalid.head) hcommit hdigests
      (.inl rfl))
  | planVerifiedBatchRecord hb hcommitted hrecord =>
    obtain ⟨hrecorded, hstate, hfiles, hreceipt⟩ := planned_valid hrecord
    refine hvalid.batches.set
      ((hvalid.batches _ _ hb).recorded (by simp [hcommitted]) hrecorded ?_ ?_ (by simp) ?_)
    · simp [hfiles, hreceipt]
    · rw [hfiles]
      exact congrArg some hrecords
    · rw [hstate]
      rfl
  | markBatchRecordCommitted hb hverified hrecord hmarked =>
    have hat := hvalid.batches _ _ hb
    obtain ⟨hrecorded, hsingle⟩ := hat.valid.record _ hrecord
    obtain ⟨hmarked, hstate, hfiles, hreceipt, -⟩ := hrecorded.markCommitted hmarked
    refine hvalid.batches.set
      (hat.recorded (by simp [hverified]) hmarked ?_ ?_ (by simp) (by rw [hstate]; rfl))
    · rw [hfiles, hreceipt]
      exact hsingle
    · rw [hfiles]
      exact hat.path _ hrecord
  | markBatchRecordReused hb hverified hrecord hmarked =>
    have hat := hvalid.batches _ _ hb
    obtain ⟨hrecorded, hsingle⟩ := hat.valid.record _ hrecord
    obtain ⟨hmarked, hstate, hfiles, hreceipt⟩ := hrecorded.markReused hmarked
    refine hvalid.batches.set
      (hat.recorded (by simp [hverified]) hmarked ?_ ?_ (by simp) (by rw [hstate]; rfl))
    · rw [hfiles, hreceipt]
      exact hsingle
    · rw [hfiles]
      exact hat.path _ hrecord
  | markBatchRecordVerified hb hcommitted hrecord hmarked =>
    have hat := hvalid.batches _ _ hb
    obtain ⟨hrecorded, hsingle⟩ := hat.valid.record _ hrecord
    obtain ⟨hmarked, hstate, hfiles, hreceipt⟩ := hrecorded.markRemoteVerified hmarked
    refine hvalid.batches.set
      (hat.recorded (by simp [hcommitted]) hmarked ?_ ?_ (by simp) (by rw [hstate]; rfl))
    · rw [hfiles, hreceipt]
      exact hsingle
    · rw [hfiles]
      exact hat.path _ hrecord
  | markBatchReused hstate hrevision hb hplanned =>
    have hat := hvalid.batches _ _ hb
    exact hvalid.batches.set (hat.committed (hat.valid.unrecorded hplanned) hrevision hrevision
      (hempty _) (.inr rfl))
  | markPayloadVerifiedByFamilyCommit hstate hparent hcommit hplanned =>
    intro index b' hb'
    rw [List.getElem?_map] at hb'
    obtain ⟨b, hb, rfl⟩ := Option.map_eq_some_iff.mp hb'
    have hat := hvalid.batches index b hb
    have hnone := hat.valid.unrecorded (hplanned b (List.mem_of_getElem? hb))
    have hcommitted := hat.committed hnone hparent hcommit (hempty _) (.inr rfl)
    rw [hnone] at hcommitted
    exact hcommitted
  | _ => exact hvalid.batches

theorem Step.valid (h : Step t operation t') (hvalid : ValidTarget transactionId destination t)
    (hrecords : operation.recordsAt transactionId destination)
    (hguarded : t.state = .receiptComplete → operation.unguarded = false) :
    ValidTarget transactionId destination t' :=
  ⟨h.head hvalid, h.batches hvalid hrecords, h.commits hvalid.commits hguarded⟩

/-- What the operations leave of a target that `new` planned: only its metadata is ever planned. -/
structure Unreceipted (t : TargetPublicationJournal) : Prop where
  metadata : ∀ c ∈ t.metadataCommit, c.state = .planned
  discoverability : t.discoverabilityCommit = none
  state : t.state ≠ .receiptComplete

theorem Step.unreceipted (h : Step t operation t') (hfresh : Unreceipted t) : Unreceipted t' := by
  have hnone := hfresh.discoverability
  cases h with
  | planMetadataCommit hstate _ hc =>
    refine ⟨?_, hnone, hfresh.state⟩
    rintro c' hc'
    cases hc'
    exact (planned_valid hc).2.1
  | planDiscoverabilityCommit _ hm hverified =>
    have hplanned := hfresh.metadata _ hm
    rw [hverified] at hplanned
    cases hplanned
  | discardPlannedDiscoverabilityAfterConflict hc =>
    rw [hnone] at hc
    cases hc
  | completeReceipt _ hc =>
    rw [hnone] at hc
    cases hc
  | restoreFailedResumeState _ hrestored =>
    refine ⟨hfresh.metadata, hnone, ?_⟩
    rcases hrestored with rfl | rfl | rfl <;> simp
  | markBatchCommitted => exact ⟨hfresh.metadata, hnone, hfresh.state⟩
  | planVerifiedBatchRecord => exact ⟨hfresh.metadata, hnone, hfresh.state⟩
  | markBatchRecordCommitted => exact ⟨hfresh.metadata, hnone, hfresh.state⟩
  | recordRefConflict => exact ⟨hfresh.metadata, hnone, hfresh.state⟩
  | _ => exact ⟨hfresh.metadata, hnone, by simp⟩

end

/-! ## The journal of a transaction -/

theorem lifted_ok {α : Type} {x : Result α} {a : α} : lifted x = .ok a ↔ x = .ok a := by
  cases x with
  | error e => simp [lifted, Except.mapError]
  | ok b => simp [lifted, Except.mapError]

theorem invalid_ok {condition : Bool} {message : String} {u : Unit} :
    invalid condition message = .ok u ↔ condition = false := by
  rw [invalid, lifted_ok]
  exact ⟨check_ok, checked⟩

structure ValidAuthorizedTarget (sealing : Sealing) (transactionId : String)
    (destination : PublicationDestination) (target : AuthorizedTarget) : Prop where
  placed : (destination != target.journal.destination || blank target.authorizedRepository ||
    blank target.journal.repository || blank target.journal.shardId ||
    blank target.journal.branch) = false
  audited : (target.auditEvidence.any fun evidence => !evidence.validate.toBool) = false
  journal : ValidTarget transactionId destination target.journal
  permitted : target.permissionEvidence.validate sealing = .ok ()
  named : (!eqIgnoreAsciiCase target.permissionEvidence.repository target.authorizedRepository) =
    false

theorem validate_target_iff {sealing : Sealing} {transactionId : String}
    {destination : PublicationDestination}
    {target : AuthorizedTarget} : target.validate sealing transactionId destination = .ok () ↔
      ValidAuthorizedTarget sealing transactionId destination target := by
  unfold AuthorizedTarget.validate
  constructor
  · intro h
    obtain ⟨_, hfields, h⟩ := bind_eq_ok h
    obtain ⟨_, hpermitted, h⟩ := bind_eq_ok h
    obtain ⟨_, hnamed, h⟩ := bind_eq_ok h
    have hfields := invalid_ok.mp hfields
    rw [Bool.or_eq_false_iff, Bool.or_eq_false_iff, Bool.or_eq_false_iff, batches_iff] at hfields
    obtain ⟨⟨⟨hplaced, hhead⟩, haudited⟩, hbatches⟩ := hfields
    exact ⟨hplaced, haudited, ⟨hhead, hbatches, validateCommits_iff.mp (lifted_ok.mp h)⟩,
      hpermitted, invalid_ok.mp hnamed⟩
  · rintro ⟨hplaced, haudited, ⟨hhead, hbatches, hcommits⟩, hpermitted, hnamed⟩
    rw [hplaced, hhead, haudited, batches_iff.mpr hbatches, invalid_ok (u := ()) |>.mpr (by simp),
      ok_bind, hpermitted, ok_bind,
      invalid_ok (u := ()) |>.mpr hnamed, ok_bind, validateCommits_iff.mpr hcommits,
      lifted_ok.mpr rfl]

namespace AuthorizedTransactionJournal

structure Valid (sealing : Sealing) (journal : AuthorizedTransactionJournal) : Prop where
  identified : journal.identify sealing = .ok ()
  targets : ∀ destination, ∀ target ∈ journal.targets destination,
    ValidAuthorizedTarget sealing journal.transactionId destination target

theorem validateTargets_iff {sealing : Sealing} {journal : AuthorizedTransactionJournal}
    {among : List PublicationDestination} : journal.validateTargets sealing among = .ok () ↔
      ∀ destination ∈ among, ∀ target ∈ journal.targets destination,
        ValidAuthorizedTarget sealing journal.transactionId destination target := by
  induction among with
  | nil => simp [validateTargets]
  | cons destination rest ih =>
    have hfirst : (journal.targets destination).forM (fun target =>
        target.validate sealing journal.transactionId destination) = .ok () ↔
          ∀ target ∈ journal.targets destination,
            ValidAuthorizedTarget sealing journal.transactionId destination target := by
      cases htarget : journal.targets destination with
      | none => simp [Option.forM, pure, Except.pure]
      | some target => simp [Option.forM, validate_target_iff]
    rw [List.forall_mem_cons, ← hfirst, ← ih, validateTargets]
    constructor
    · intro h
      obtain ⟨_, htarget, hrest⟩ := bind_eq_ok h
      exact ⟨htarget, hrest⟩
    · rintro ⟨htarget, hrest⟩
      rw [htarget, ok_bind, hrest]

theorem validate_iff {sealing : Sealing} {journal : AuthorizedTransactionJournal} :
    journal.validate sealing = .ok () ↔ journal.Valid sealing := by
  have hall : ∀ destination, destination ∈ destinations .both := by
    intro destination
    cases destination <;> simp [destinations]
  unfold validate
  constructor
  · intro h
    obtain ⟨_, hidentified, h⟩ := bind_eq_ok h
    have htargets := validateTargets_iff.mp h
    exact ⟨hidentified, fun destination => htargets destination (hall destination)⟩
  · rintro ⟨hidentified, htargets⟩
    rw [hidentified, ok_bind, validateTargets_iff]
    exact fun destination _ => htargets destination

section
variable {journal journal' : AuthorizedTransactionJournal} {destination : PublicationDestination}
  {operation : TargetOperation}

theorem operate_ok (h : journal.operate destination operation = .ok journal') :
    ∃ (target : AuthorizedTarget) (moved : TargetPublicationJournal), journal.targets destination =
      some target ∧
      Step target.journal operation moved ∧
      journal' = { journal with
        targets := Function.update journal.targets destination
          (some { target with journal := moved }) } := by
  obtain ⟨target, htarget, h⟩ := bind_eq_ok h
  obtain ⟨moved, hmoved, h⟩ := bind_eq_ok h
  cases h
  exact ⟨target, moved, require_ok htarget, apply_step hmoved, rfl⟩

theorem map_update {α β : Type} {map : ByDestination α} {a b : α} (h : map destination = some a)
    (f : α → β) (hf : f b = f a) (other : PublicationDestination) :
    (Function.update map destination (some b) other).map f = (map other).map f := by
  by_cases hother : other = destination
  · rw [hother, Function.update_self, h, Option.map_some, Option.map_some, hf]
  · rw [Function.update_of_ne hother]

/-- The identity of the journal reads nothing that an operation writes. -/
theorem identify_update {target : AuthorizedTarget} {moved : TargetPublicationJournal}
    (h : journal.targets destination = some target) (hstep : Step target.journal operation moved)
    (sealing : Sealing) :
    identify { journal with
      targets := Function.update journal.targets destination
        (some { target with journal := moved }) } sealing =
        journal.identify sealing := by
  obtain ⟨-, hrepository, hshard, hbranch⟩ := hstep.route
  have hsome : ∀ other,
      (Function.update journal.targets destination
        (some { target with journal := moved }) other).isSome =
        (journal.targets other).isSome := by
    intro other
    have hmap := map_update (b := { target with journal := moved }) h (fun _ => ()) rfl other
    simpa using congrArg Option.isSome hmap
  have htarget : AuthorizedTransactionJournal.target { journal with
      targets := Function.update journal.targets destination
        (some { target with journal := moved }) } =
        journal.target := by
    simp only [AuthorizedTransactionJournal.target, hsome]
  have henvelope : envelope { journal with
      targets := Function.update journal.targets destination
        (some { target with journal := moved }) } =
        journal.envelope := by
    simp only [envelope, htarget]
    congr 1
    · exact funext (map_update h (fun entry => entry.journal.repository) hrepository)
    · exact funext (map_update h (fun entry => entry.authorizedRepository) rfl)
    · exact funext (map_update h (fun entry => entry.journal.shardId) hshard)
    · exact funext (map_update h (fun entry => entry.journal.branch) hbranch)
  simp only [identify, htarget, henvelope]

theorem Valid.operate {sealing : Sealing} (hvalid : journal.Valid sealing)
    (h : journal.operate destination operation = .ok journal')
    (hrecords : operation.recordsAt journal.transactionId destination)
    (hguarded : journal.targetState destination = some .receiptComplete →
      operation.unguarded = false) :
    journal'.Valid sealing := by
  obtain ⟨target, moved, htarget, hstep, rfl⟩ := operate_ok h
  refine ⟨(identify_update htarget hstep sealing).trans hvalid.identified, ?_⟩
  intro other entry hentry
  by_cases hother : other = destination
  · subst hother
    have heq : entry = { target with journal := moved } := by
      simpa using (Option.mem_def.mp hentry).symm
    obtain ⟨hplaced, haudited, hjournal, hpermitted, hnamed⟩ := hvalid.targets other target htarget
    obtain ⟨hdestination, hrepository, hshard, hbranch⟩ := hstep.route
    have hmoved := hstep.valid hjournal hrecords (fun hcomplete =>
      hguarded (by simp [targetState, htarget, hcomplete]))
    rw [heq]
    refine ⟨?_, haudited, hmoved, hpermitted, hnamed⟩
    simpa only [hdestination, hrepository, hshard, hbranch] using hplaced
  · have hsame : journal.targets other = some entry := by
      simpa [Function.update_of_ne hother] using hentry
    exact hvalid.targets other entry hsame

end

/-! ## Runs -/

/-- Each command meets the conditions under which it keeps the journal valid, in the state it
finds. -/
def Permitted (journal : AuthorizedTransactionJournal) : List Command → Prop
  | [] => True
  | command :: rest => command.2.recordsAt journal.transactionId command.1 ∧
      (journal.targetState command.1 = some .receiptComplete → command.2.unguarded = false) ∧
      Permitted (journal.advance command) rest

section
variable {journal : AuthorizedTransactionJournal}

theorem advance_cases (journal : AuthorizedTransactionJournal) (command : Command) :
    journal.operate command.1 command.2 = .ok (journal.advance command) ∨ journal.advance command =
      journal := by
  unfold advance
  cases h : journal.operate command.1 command.2 with
  | error e => exact .inr rfl
  | ok journal' => exact .inl rfl

theorem Permitted.valid {sealing : Sealing} {commands : List Command}
    (h : Permitted journal commands)
    (hvalid : journal.Valid sealing) : (journal.run commands).Valid sealing := by
  induction commands generalizing journal with
  | nil => exact hvalid
  | cons command rest ih =>
    obtain ⟨hrecords, hguarded, hrest⟩ := h
    refine ih hrest ?_
    rcases advance_cases journal command with hok | hsame
    · exact hvalid.operate hok hrecords hguarded
    · rw [hsame]
      exact hvalid

theorem operate_transactionId {journal' : AuthorizedTransactionJournal}
    {destination : PublicationDestination}
    {operation : TargetOperation} (h : journal.operate destination operation = .ok journal') :
    journal'.transactionId = journal.transactionId := by
  obtain ⟨_, _, -, -, rfl⟩ := operate_ok h
  rfl

/-- No receipt was ever planned. -/
def AllUnreceipted (journal : AuthorizedTransactionJournal) : Prop :=
  ∀ destination, ∀ target ∈ journal.targets destination, Unreceipted target.journal

theorem AllUnreceipted.operate {journal' : AuthorizedTransactionJournal}
    {destination : PublicationDestination}
    {operation : TargetOperation} (hfresh : journal.AllUnreceipted)
    (h : journal.operate destination operation = .ok journal') : journal'.AllUnreceipted := by
  obtain ⟨target, moved, htarget, hstep, rfl⟩ := operate_ok h
  intro other entry hentry
  by_cases hother : other = destination
  · subst hother
    have heq : entry = { target with journal := moved } := by
      simpa using (Option.mem_def.mp hentry).symm
    rw [heq]
    exact hstep.unreceipted (hfresh other target htarget)
  · have hsame : journal.targets other = some entry := by
      simpa [Function.update_of_ne hother] using hentry
    exact hfresh other entry hsame

theorem AllUnreceipted.permitted {commands : List Command} (hfresh : journal.AllUnreceipted)
    (hrecords : ∀ command ∈ commands, command.2.recordsAt journal.transactionId command.1) :
    Permitted journal commands := by
  induction commands generalizing journal with
  | nil => trivial
  | cons command rest ih =>
    obtain ⟨hfirst, hrest⟩ := List.forall_mem_cons.mp hrecords
    refine ⟨hfirst, ?_, ?_⟩
    · intro hcomplete
      obtain ⟨target, htarget, hstate⟩ := Option.map_eq_some_iff.mp hcomplete
      exact absurd hstate (hfresh command.1 target htarget).state
    · rcases advance_cases journal command with hok | hsame
      · refine ih (hfresh.operate hok) ?_
        rw [operate_transactionId hok]
        exact hrest
      · rw [hsame]
        exact ih hfresh hrest

theorem targetState_operate {journal' : AuthorizedTransactionJournal} {command : Command}
    (h : journal.operate command.1 command.2 = .ok journal') {destination : PublicationDestination}
    {state : PublicationTargetState} (hstate : journal.targetState destination = some state)
    (hterminal : state.terminal = true)
    (hguarded : command.1 = destination → command.2.unguarded = false) :
    journal'.targetState destination = some state := by
  obtain ⟨target, moved, htarget, hstep, rfl⟩ := operate_ok h
  by_cases hother : destination = command.1
  · subst hother
    rw [targetState, htarget, Option.map_some, Option.some.injEq] at hstate
    simp only [targetState, Function.update_self, Option.map_some, Option.some.injEq]
    rw [hstep.terminal (hstate ▸ hterminal) (hguarded rfl), hstate]
  · simpa only [targetState, Function.update_of_ne hother] using hstate

theorem targetState_run {commands : List Command} {destination : PublicationDestination}
    {state : PublicationTargetState} (hstate : journal.targetState destination = some state)
    (hterminal : state.terminal = true)
    (hguarded : ∀ command ∈ commands, command.1 = destination → command.2.unguarded = false) :
    (journal.run commands).targetState destination = some state := by
  induction commands generalizing journal with
  | nil => exact hstate
  | cons command rest ih =>
    obtain ⟨hfirst, hrest⟩ := List.forall_mem_cons.mp hguarded
    refine ih ?_ hrest
    rcases advance_cases journal command with hok | hsame
    · exact targetState_operate hok hstate hterminal hfirst
    · rw [hsame]
      exact hstate

theorem newTargets_unreceipted {request : Request} {sealing : Sealing}
    {required : List PublicationDestination}
    {targets : ByDestination AuthorizedTarget}
    (h : newTargets request sealing required = .ok targets) :
    ∀ destination, ∀ target ∈ targets destination, Unreceipted target.journal := by
  induction required generalizing targets with
  | nil =>
    cases h
    simp
  | cons first rest ih =>
    obtain ⟨planned, hplanned, h⟩ := bind_eq_ok h
    obtain ⟨others, hothers, h⟩ := bind_eq_ok h
    cases h
    intro destination target htarget
    by_cases hfirst : destination = first
    · subst hfirst
      have heq : target = planned := by simpa using (Option.mem_def.mp htarget).symm
      obtain ⟨evidence, -, hplanned⟩ := bind_eq_ok hplanned
      obtain ⟨_, -, hplanned⟩ := bind_eq_ok hplanned
      obtain ⟨_, -, hplanned⟩ := bind_eq_ok hplanned
      obtain ⟨_, -, hplanned⟩ := bind_eq_ok hplanned
      cases hplanned
      rw [heq]
      refine ⟨?_, rfl, ?_⟩
      · simp [PublicationTransactionJournal.plannedTarget]
      · simp [PublicationTransactionJournal.plannedTarget]
    · refine ih hothers destination target ?_
      simpa [Function.update_of_ne hfirst] using htarget

theorem new_ok {request : Request} {sealing : Sealing} (h : new request sealing = .ok journal) :
    journal.Valid sealing ∧ journal.AllUnreceipted := by
  obtain ⟨_, -, h⟩ := bind_eq_ok h
  obtain ⟨_, -, h⟩ := bind_eq_ok h
  obtain ⟨_, -, h⟩ := bind_eq_ok h
  obtain ⟨key, -, h⟩ := bind_eq_ok h
  obtain ⟨targets, htargets, h⟩ := bind_eq_ok h
  obtain ⟨_, hvalid, h⟩ := bind_eq_ok h
  cases h
  exact ⟨validate_iff.mp hvalid, newTargets_unreceipted htargets⟩

end

/-- Terminal states stay under every operation that reads the state it writes, and every journal
that runs reach from a new one passes its check. -/
theorem terminal_and_valid (sealing : Sealing) :
    (∀ (journal : AuthorizedTransactionJournal) (commands : List Command)
    (destination : PublicationDestination)
      (state : PublicationTargetState), journal.targetState destination = some state →
      state.terminal = true →
      (∀ command ∈ commands, command.1 = destination → command.2.unguarded = false) →
      (journal.run commands).targetState destination = some state) ∧
    ∀ (request : Request) (journal : AuthorizedTransactionJournal) (commands : List Command),
      new request sealing = .ok journal →
      (∀ command ∈ commands, command.2.recordsAt journal.transactionId command.1) →
      (journal.run commands).validate sealing = .ok () := by
  constructor
  · intro journal commands destination state hstate hterminal hguarded
    exact targetState_run hstate hterminal hguarded
  · intro request journal commands hnew hrecords
    obtain ⟨hvalid, hfresh⟩ := new_ok hnew
    exact validate_iff.mpr ((hfresh.permitted hrecords).valid hvalid)

def sampleDigest : ContentDigest := ⟨String.ofList (List.replicate 64 '0')⟩

def sampleSealing : Sealing := ⟨fun _ => .ok sampleDigest, fun _ => .ok sampleDigest⟩

def sampleField (text : String) : ByDestination String
  | .privateShard => some text
  | .publicShard => none

/-- One batch of one part, for the private shard. -/
def sampleRequest : Request where
  semanticDigest := sampleDigest
  targetManifestDigests
    | .privateShard => some sampleDigest
    | .publicShard => none
  payloadDigest := sampleDigest
  policyDigest := sampleDigest
  target := .privateTarget
  repositories := sampleField "https://h/o/n"
  authorizedRepositories := sampleField "o/n"
  permissionEvidence
    | .privateShard => some ⟨⟨providerId, "owner", "o/n", .privateVisibility, .write, 1⟩,
        sampleDigest⟩
    | .publicShard => none
  shardIds := sampleField "shard"
  branches := sampleField "main"
  expectedHeads := sampleField "head"
  batches := [⟨0, 1, [⟨0, ["object"], 1, sampleDigest, .object ""⟩]⟩]

def sampleRecordFile (path : Path) : TransportPart := ⟨0, path, 1, sampleDigest, .object ""⟩

/-- The batch is committed, and its record planned at a path. -/
def sampleRecorded (path : Path) : List Command :=
  [(.privateShard, .start), (.privateShard, .markBatchCommitted 0 "head" "commit" [sampleDigest]),
   (.privateShard, .planVerifiedBatchRecord 0 "commit" (sampleRecordFile path))]

def sampleRecordPath : Path := batchRecordPath sampleDigest.text .privateShard 0

def sampleAbandoned : List Command :=
  sampleRecorded sampleRecordPath ++ [(.privateShard, .abandon "superseded")]

/-- Where the record of the first batch lies. -/
def recordPath (journal : AuthorizedTransactionJournal) : Option Path := do
  let target ← journal.targets .privateShard
  let batch ← target.journal.batches[0]?
  let record ← batch.recordCommit
  let file ← record.files.head?
  return file.repositoryPath

theorem Valid.recordPath {sealing : Sealing} {journal : AuthorizedTransactionJournal}
    (h : journal.Valid sealing) {path : Path} (hpath : journal.recordPath = some path) :
    path = batchRecordPath journal.transactionId .privateShard 0 := by
  obtain ⟨target, htarget, hpath⟩ := Option.bind_eq_some_iff.mp hpath
  obtain ⟨batch, hbatch, hpath⟩ := Option.bind_eq_some_iff.mp hpath
  obtain ⟨record, hrecord, hpath⟩ := Option.bind_eq_some_iff.mp hpath
  obtain ⟨file, hfile, hpath⟩ := Option.bind_eq_some_iff.mp hpath
  have hplace := ((h.targets _ target htarget).journal.batches 0 batch hbatch).path record hrecord
  rw [hfile] at hplace
  cases hpath
  exact Option.some.inj hplace

theorem sample_observed : (new sampleRequest sampleSealing).toOption.map (fun journal =>
    (journal.transactionId,
      (journal.run sampleAbandoned).targetState .privateShard,
      (journal.run (sampleAbandoned ++ [(.privateShard, .fail "late")])).targetState .privateShard,
      ((journal.run ((sampleRecorded ["elsewhere"]).take 2)).operate .privateShard
        (.planVerifiedBatchRecord 0 "commit" (sampleRecordFile ["elsewhere"]))).toOption.map
          recordPath)) =
    some (sampleDigest.text, some .abandoned, some .failed, some (some ["elsewhere"])) := by
  decide +kernel

theorem sample_new : ∃ journal, new sampleRequest sampleSealing = .ok journal ∧
    journal.transactionId = sampleDigest.text ∧
    (journal.run sampleAbandoned).targetState .privateShard = some .abandoned ∧
    (journal.run (sampleAbandoned ++ [(.privateShard, .fail "late")])).targetState .privateShard =
      some .failed ∧
    ∃ recorded, (journal.run ((sampleRecorded ["elsewhere"]).take 2)).operate .privateShard
        (.planVerifiedBatchRecord 0 "commit" (sampleRecordFile ["elsewhere"])) = .ok recorded ∧
      recorded.validate sampleSealing ≠ .ok () := by
  have hobserved := sample_observed
  cases hnew : new sampleRequest sampleSealing with
  | error e =>
    rw [hnew] at hobserved
    cases hobserved
  | ok journal =>
    rw [hnew] at hobserved
    simp only [Except.toOption, Option.map_some, Option.some.injEq, Prod.mk.injEq] at hobserved
    obtain ⟨hid, habandoned, hfailed, hmisplaced⟩ := hobserved
    refine ⟨journal, rfl, hid, habandoned, hfailed, ?_⟩
    cases hrecorded : (journal.run ((sampleRecorded ["elsewhere"]).take 2)).operate .privateShard
        (.planVerifiedBatchRecord 0 "commit" (sampleRecordFile ["elsewhere"])) with
    | error e =>
      rw [hrecorded] at hmisplaced
      cases hmisplaced
    | ok recorded =>
      rw [hrecorded] at hmisplaced
      refine ⟨recorded, rfl, ?_⟩
      intro hvalid
      have hpath := (validate_iff.mp hvalid).recordPath (Option.some.inj hmisplaced)
      simp [batchRecordPath] at hpath

theorem terminal_and_valid_abandoned : ∃ journal, new sampleRequest sampleSealing = .ok journal ∧
    (journal.run sampleAbandoned).validate sampleSealing = .ok () ∧
    ((journal.run sampleAbandoned).run [(.privateShard, .start)]).targetState .privateShard =
      some .abandoned := by
  obtain ⟨journal, hnew, hid, habandoned, -⟩ := sample_new
  refine ⟨journal, hnew, (terminal_and_valid sampleSealing).2 sampleRequest journal
    sampleAbandoned hnew ?_,
    (terminal_and_valid sampleSealing).1 _ _ .privateShard .abandoned habandoned rfl ?_⟩
  · rw [hid]
    simp [sampleAbandoned, sampleRecorded, TargetOperation.recordsAt, sampleRecordFile,
      sampleRecordPath]
  · simp [TargetOperation.unguarded]

theorem abandoned_target_fails : ∃ journal, new sampleRequest sampleSealing = .ok journal ∧
    (journal.run sampleAbandoned).targetState .privateShard = some .abandoned ∧
    (journal.run (sampleAbandoned ++ [(.privateShard, .fail "late")])).targetState .privateShard =
      some .failed ∧
    ∃ recorded, (journal.run ((sampleRecorded ["elsewhere"]).take 2)).operate .privateShard
        (.planVerifiedBatchRecord 0 "commit" (sampleRecordFile ["elsewhere"])) = .ok recorded ∧
      recorded.validate sampleSealing ≠ .ok () := by
  obtain ⟨journal, hnew, -, hrest⟩ := sample_new
  exact ⟨journal, hnew, hrest⟩

end AuthorizedTransactionJournal

end Xcelerator.Cache.Publication
