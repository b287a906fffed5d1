import Mathlib
import Xcelerator.Cache.Durability

/-! # No prune loses a payload

The accepted copies are a maximal set without a shared identity or locator, so the count
is at least half of the best. A prune deletes one file whose bytes are the declared ones, and only
where the copies that remain satisfy the policy; over a run, later prunes keep what earlier ones
relied on. -/

namespace Xcelerator.Cache.Durability
open Xcelerator.Foundations.Machine
open Xcelerator.Cache.Artifact (ArtifactAssuranceState ArtifactDisposition PublicationTargetState)
open Xcelerator.Cache.Digest (Sha256 contentDigest letterDigest)

/-! ## Accepted copies -/

section
variable {policy : DurabilityPolicy} {digest : ContentDigest}

structure Eligible (policy : DurabilityPolicy) (digest : ContentDigest)
    (copy : ArtifactCopyEvidence) : Prop where
  valid : copy.validate = .ok ()
  payload : copy.canonicalPayloadDigest = digest
  allowed : copy.location ∈ policy.allowedLocations
  current : copy.revoked = false

theorem rejected_eq_none {accepted : List ArtifactCopyEvidence} {copy : ArtifactCopyEvidence} :
    rejected policy digest accepted copy = none ↔
      Eligible policy digest copy ∧ copy.copyId ∉ accepted.map (·.copyId) ∧
      copy.locator ∉ accepted.map (·.locator) := by
  unfold rejected
  constructor
  · intro h
    split_ifs at h with hvalid hpayload hallowed hrevoked hid hlocator
    refine ⟨⟨?_, ?_, ?_, ?_⟩, ?_, ?_⟩
    · simpa using hvalid
    · simpa using hpayload
    · simpa using hallowed
    · simpa using hrevoked
    · simpa using hid
    · simpa using hlocator
  · rintro ⟨⟨hvalid, hpayload, hallowed, hrevoked⟩, hid, hlocator⟩
    rw [if_neg (by simp [hvalid]), if_neg (by simp [hpayload]), if_neg (by simp [hallowed]),
      if_neg (by simp [hrevoked]), if_neg (by simpa using hid), if_neg (by simpa using hlocator)]

/-- What the loop knows of the copies it has seen. -/
structure Tallied (policy : DurabilityPolicy) (digest : ContentDigest)
    (seen : List ArtifactCopyEvidence) (t : Tally) :
    Prop where
  sublist : t.accepted.Sublist seen
  eligible : ∀ copy ∈ t.accepted, Eligible policy digest copy
  ids : (t.accepted.map (·.copyId)).Nodup
  locators : (t.accepted.map (·.locator)).Nodup
  covered : ∀ copy ∈ seen, Eligible policy digest copy →
    copy.copyId ∈ t.accepted.map (·.copyId) ∨ copy.locator ∈ t.accepted.map (·.locator)
  partition : (t.accepted.map (·.copyId) ++ t.rejections.map (·.copyId)).Perm (seen.map (·.copyId))

theorem nodup_map_concat {α β : Type} {f : α → β} {xs : List α} {x : α} (h : (xs.map f).Nodup)
    (hx : f x ∉ xs.map f) :
    ((xs ++ [x]).map f).Nodup := by
  rw [List.map_append, List.map_singleton]
  exact List.Nodup.append h (List.nodup_singleton _) (by simpa using hx)

theorem Tallied.add {seen : List ArtifactCopyEvidence} {t : Tally}
    (h : Tallied policy digest seen t)
    (copy : ArtifactCopyEvidence) :
    Tallied policy digest (seen ++ [copy]) (t.add policy digest copy) := by
  unfold Tally.add
  cases hrejected : rejected policy digest t.accepted copy with
  | some reason =>
    refine ⟨h.sublist.trans (List.sublist_append_left ..), h.eligible, h.ids,
      h.locators, fun other hother helig => ?_, ?_⟩
    · rcases List.mem_append.mp hother with hother | hother
      · exact h.covered other hother helig
      · cases List.mem_singleton.mp hother
        by_contra hnew
        rw [not_or] at hnew
        rw [rejected_eq_none.mpr ⟨helig, hnew⟩] at hrejected
        cases hrejected
    · rw [List.map_append, List.map_append, ← List.append_assoc]
      exact h.partition.append_right _
  | none =>
    obtain ⟨helig, hid, hlocator⟩ := rejected_eq_none.mp hrejected
    refine ⟨h.sublist.append (List.Sublist.refl _), ?_, nodup_map_concat h.ids hid,
      nodup_map_concat h.locators hlocator, fun other hother hothers => ?_, ?_⟩
    · intro other hother
      rcases List.mem_append.mp hother with hother | hother
      · exact h.eligible other hother
      · exact List.mem_singleton.mp hother ▸ helig
    · rcases List.mem_append.mp hother with hother | hother
      · rcases h.covered other hother hothers with hcovered | hcovered
        · exact .inl (by rw [List.map_append]; exact List.mem_append_left _ hcovered)
        · exact .inr (by rw [List.map_append]; exact List.mem_append_left _ hcovered)
      · cases List.mem_singleton.mp hother
        exact .inl (by simp)
    · rw [List.map_append, List.map_append, List.append_assoc]
      exact (List.perm_append_comm.append_left _).trans (by
        rw [← List.append_assoc]
        exact h.partition.append_right _)

theorem tallied (copies : List ArtifactCopyEvidence) :
    Tallied policy digest copies (tally policy digest copies) := by
  have hfold : ∀ (rest seen : List ArtifactCopyEvidence) (t : Tally), Tallied policy digest seen t →
      Tallied policy digest (seen ++ rest) (rest.foldl (Tally.add policy digest) t) := by
    intro rest
    induction rest with
    | nil =>
      intro seen t h
      rwa [List.append_nil]
    | cons copy rest ih =>
      intro seen t h
      have hnext := ih (seen ++ [copy]) _ (h.add copy)
      rwa [List.append_assoc, List.singleton_append] at hnext
  exact hfold copies [] ⟨[], []⟩ ⟨List.nil_sublist _, by simp, by simp, by simp, by
    simp, List.Perm.refl _⟩

/-- Declared copies that could count together. -/
structure Independent (policy : DurabilityPolicy) (digest : ContentDigest)
    (copies chosen : List ArtifactCopyEvidence) :
    Prop where
  declared : ∀ copy ∈ chosen, copy ∈ copies
  eligible : ∀ copy ∈ chosen, Eligible policy digest copy
  ids : (chosen.map (·.copyId)).Nodup
  locators : (chosen.map (·.locator)).Nodup

/-- An accepted copy shuts out at most two others, one by its identity and one by its locator. -/
theorem Tallied.half {copies chosen : List ArtifactCopyEvidence} {t : Tally}
    (h : Tallied policy digest copies t)
    (hchosen : Independent policy digest copies chosen) :
    chosen.length ≤ 2 * t.accepted.length := by
  let blame : ArtifactCopyEvidence → String ⊕ String := fun copy =>
    if copy.copyId ∈ t.accepted.map (·.copyId) then .inl copy.copyId else .inr copy.locator
  have hinj : ∀ a ∈ chosen, ∀ b ∈ chosen, blame a = blame b → a = b := by
    intro a ha b hb heq
    simp only [blame] at heq
    split at heq <;> split at heq <;> simp only [Sum.inl.injEq, Sum.inr.injEq, reduceCtorEq] at heq
    · exact List.inj_on_of_nodup_map hchosen.ids ha hb heq
    · exact List.inj_on_of_nodup_map hchosen.locators ha hb heq
  have hnodup : (chosen.map blame).Nodup := (List.Nodup.of_map _ hchosen.ids).map_on hinj
  have hsubset : chosen.map blame ⊆
      (t.accepted.map (·.copyId)).map Sum.inl ++ (t.accepted.map (·.locator)).map Sum.inr := by
    intro x hx
    obtain ⟨copy, hcopy, rfl⟩ := List.mem_map.mp hx
    simp only [blame]
    split
    · next hid => exact List.mem_append_left _ (List.mem_map_of_mem hid)
    · next hid =>
      have hlocator := (h.covered copy (hchosen.declared copy hcopy)
        (hchosen.eligible copy hcopy)).resolve_left hid
      exact List.mem_append_right _ (List.mem_map_of_mem hlocator)
  have hlength := (List.subperm_of_subset hnodup hsubset).length_le
  simp only [List.length_map, List.length_append] at hlength
  omega

/-! ## The assessment -/

theorem deficits_eq_nil {copies domains : Nat} {archive : Bool} :
    deficits policy copies domains archive = [] ↔
      policy.minimumVerifiedCopies ≤ copies ∧ policy.minimumIndependentFailureDomains ≤ domains ∧
        (policy.requireArchiveCopy = true → archive = true) := by
  unfold deficits
  rw [List.append_eq_nil_iff, List.append_eq_nil_iff, and_assoc]
  refine and_congr ?_ (and_congr ?_ ?_)
  · split <;> simp <;> omega
  · split <;> simp <;> omega
  · cases policy.requireArchiveCopy <;> cases archive <;> simp

theorem asU32_ok {n k : Nat} {message : String} (h : asU32 n message = .ok k) :
    k = n ∧ n < 2 ^ 32 := by
  obtain ⟨_, hn, h⟩ := bind_eq_ok h
  cases h
  have := check_ok hn
  simp only [decide_eq_false_iff_not, not_le] at this
  exact ⟨rfl, this⟩

theorem assessDurability_ok {copies : List ArtifactCopyEvidence} {assessment : DurabilityAssessment}
    (h : assessDurability policy digest copies = .ok assessment) :
    assessment.verifiedCopyCount = (tally policy digest copies).accepted.length ∧
    assessment.independentFailureDomainCount = (tally policy digest copies).failureDomains.length ∧
    assessment.archiveCopyPresent = (tally policy digest copies).archiveCopyPresent ∧
    assessment.acceptedCopyIds.Perm ((tally policy digest copies).accepted.map (·.copyId)) ∧
    assessment.rejections.Perm (tally policy digest copies).rejections ∧
    assessment.deficits = deficits policy assessment.verifiedCopyCount
      assessment.independentFailureDomainCount
      assessment.archiveCopyPresent ∧
    assessment.satisfied = assessment.deficits.isEmpty := by
  obtain ⟨_, -, h⟩ := bind_eq_ok h
  obtain ⟨_, -, h⟩ := bind_eq_ok h
  obtain ⟨count, hcount, h⟩ := bind_eq_ok h
  obtain ⟨domains, hdomains, h⟩ := bind_eq_ok h
  cases h
  exact ⟨(asU32_ok hcount).1, (asU32_ok hdomains).1, rfl, List.mergeSort_perm _ _,
    List.mergeSort_perm _ _, rfl, rfl⟩

/-- The copies an assessment counts: declared, eligible and without a shared identity or locator, as
many as it says, with the failure domains and the archive copy it says, and every other declared
copy rejected under its identity; it is satisfied exactly where they reach the policy. No
independent choice of declared copies is more than twice as large. -/
theorem assessDurability_counts (policy : DurabilityPolicy) (digest : ContentDigest)
    (copies : List ArtifactCopyEvidence)
    (assessment : DurabilityAssessment)
    (h : assessDurability policy digest copies = .ok assessment) :
    (∃ accepted, accepted.Sublist copies ∧ Independent policy digest copies accepted ∧
      assessment.acceptedCopyIds.Perm (accepted.map (·.copyId)) ∧
      assessment.verifiedCopyCount = accepted.length ∧
      assessment.independentFailureDomainCount = (accepted.map (·.failureDomain)).dedup.length ∧
      (assessment.archiveCopyPresent = true ↔ ∃ copy ∈ accepted, copy.location = .archive) ∧
      (assessment.acceptedCopyIds ++ assessment.rejections.map (·.copyId)).Perm
        (copies.map (·.copyId)) ∧
      assessment.rejections.length + accepted.length = copies.length) ∧
    (assessment.satisfied = true ↔ policy.minimumVerifiedCopies ≤ assessment.verifiedCopyCount ∧
      policy.minimumIndependentFailureDomains ≤ assessment.independentFailureDomainCount ∧
      (policy.requireArchiveCopy = true → assessment.archiveCopyPresent = true)) ∧
    ∀ chosen, Independent policy digest copies chosen →
    chosen.length ≤ 2 * assessment.verifiedCopyCount := by
  obtain ⟨hcount, hdomains, harchive, hids, hrejections, hdeficits, hsatisfied⟩ :=
    assessDurability_ok h
  have htallied : Tallied policy digest copies (tally policy digest copies) := tallied copies
  have hpartition : (assessment.acceptedCopyIds ++ assessment.rejections.map (·.copyId)).Perm
      (copies.map (·.copyId)) :=
    (hids.append (hrejections.map _)).trans htallied.partition
  refine ⟨⟨_, htallied.sublist, ?_, hids, hcount, hdomains, ?_, hpartition, ?_⟩,
    ?_, fun chosen hchosen => ?_⟩
  · exact ⟨fun copy hcopy => htallied.sublist.subset hcopy, htallied.eligible, htallied.ids,
      htallied.locators⟩
  · rw [harchive]
    simp [Tally.archiveCopyPresent]
  · have hlength := hpartition.length_eq
    rw [List.length_append, List.length_map, List.length_map, hids.length_eq,
      List.length_map] at hlength
    omega
  · rw [hsatisfied, List.isEmpty_iff, hdeficits, deficits_eq_nil]
  · rw [hcount]
    exact htallied.half hchosen

/-! ## Durable payloads -/

/-- The assessment of the copies succeeds and is satisfied. -/
def Durable (policy : DurabilityPolicy) (digest : ContentDigest)
    (copies : List ArtifactCopyEvidence) : Prop :=
  ∃ assessment, assessDurability policy digest copies = .ok assessment ∧ assessment.satisfied = true

end

/-! ## One prune -/

section
variable {sha256 : Sha256} {system : System} {policy : LocalPrunePolicy}
    {durabilityPolicy : DurabilityPolicy}
  {candidate : LocalPruneCandidate} {copies : List ArtifactCopyEvidence}

theorem dedupAdjacent_eq_nil : ∀ {reasons : List String}, dedupAdjacent reasons = [] →
    reasons = [] := by
  intro reasons h
  induction reasons with
  | nil => rfl
  | cons a rest ih =>
    cases rest with
    | nil => cases h
    | cons b rest =>
      unfold dedupAdjacent at h
      split at h
      · exact absurd (ih h) (by simp)
      · cases h

/-- Nothing protects the candidate. -/
structure Unprotected (policy : LocalPrunePolicy) (candidate : LocalPruneCandidate) : Prop where
  age : policy.minimumAgeSeconds ≤ candidate.ageSeconds
  pinned : candidate.projectPinned = false
  reachable : candidate.dependencyReachable = false
  active : candidate.activeTransaction = false
  disposition : candidate.disposition ∈ policy.allowedDispositions
  cost : candidate.recomputationCost.rank ≤ policy.maximumRecomputationCost.rank
  assurance : ∀ minimum, policy.protectAssuranceAtOrAbove = some minimum →
    candidate.achievedAssurance < minimum
  published : ∀ target ∈ candidate.requiredPublicationTargets,
    candidate.publicationStates target = some .receiptComplete

theorem ite_singleton_eq_nil {condition : Prop} [Decidable condition] {reason : String} :
    (if condition then [reason] else []) = [] ↔ ¬condition := by
  split <;> simp_all

theorem protections_eq_nil (h : protections policy candidate = []) :
    Unprotected policy candidate := by
  unfold protections at h
  simp only [List.append_eq_nil_iff, ite_singleton_eq_nil, List.map_eq_nil_iff,
    List.filter_eq_nil_iff] at h
  obtain ⟨⟨⟨⟨⟨⟨⟨hage, hpinned⟩, hreachable⟩, hactive⟩, hdisposition⟩, hcost⟩, hassurance⟩,
    hpublished⟩ := h
  refine ⟨by omega, by simpa using hpinned, by simpa using hreachable, by simpa using hactive,
    by simpa using hdisposition, by omega, fun minimum hminimum => ?_, fun target htarget => ?_⟩
  · rw [hminimum] at hassurance
    simpa using hassurance
  · simpa using hpublished target htarget

theorem planLocalPrune_removable {plan : LocalPrunePlan}
    (h : planLocalPrune policy durabilityPolicy candidate copies = .ok plan)
    (hremovable : plan.removable = true) :
    Unprotected policy candidate ∧
      Durable durabilityPolicy candidate.canonicalPayloadDigest
        (retainedCopies candidate copies) := by
  obtain ⟨_, -, h⟩ := bind_eq_ok h
  obtain ⟨_, -, h⟩ := bind_eq_ok h
  obtain ⟨_, -, h⟩ := bind_eq_ok h
  obtain ⟨_, -, h⟩ := bind_eq_ok h
  obtain ⟨durability, hdurability, h⟩ := bind_eq_ok h
  cases h
  have hsorted := dedupAdjacent_eq_nil (List.isEmpty_iff.mp hremovable)
  have hperm := List.mergeSort_perm (protections policy candidate ++
    durability.deficits.map fun deficit =>
      "durability deficit after removal: " ++ deficit) (fun a b => decide (a ≤ b))
  rw [hsorted] at hperm
  have hnil := List.append_eq_nil_iff.mp (List.nil_perm.mp hperm)
  refine ⟨protections_eq_nil hnil.1, durability, hdurability, ?_⟩
  obtain ⟨_, -, -, -, -, -, hsatisfied⟩ := assessDurability_ok hdurability
  rw [hsatisfied, List.map_eq_nil_iff.mp hnil.2]
  rfl

theorem readLoop_ok {pieces : List (List UInt8)} {reads size : Nat} {hashed : List UInt8}
    {result : List UInt8 × Nat} (h : readLoop system reads hashed size pieces = .ok result) :
    result = (hashed ++ pieces.flatten, size + pieces.flatten.length) := by
  induction pieces generalizing reads size hashed with
  | nil =>
    obtain ⟨_, -, h⟩ := bind_eq_ok h
    obtain ⟨_, -, h⟩ := bind_eq_ok h
    cases h
    simp
  | cons piece pieces ih =>
    obtain ⟨_, -, h⟩ := bind_eq_ok h
    obtain ⟨_, -, h⟩ := bind_eq_ok h
    obtain ⟨_, -, h⟩ := bind_eq_ok h
    rw [ih h]
    simp [Nat.add_assoc]

theorem retainedCopies_apart {copy : ArtifactCopyEvidence}
    (h : copy ∈ retainedCopies candidate copies) :
    copy ∈ copies ∧ copy.copyId ≠ candidate.copyId ∧ copy.locator ≠ candidate.localPath ∧
      ∀ other ∈ copies, other.copyId = candidate.copyId → copy.locator ≠ other.locator := by
  obtain ⟨hdeclared, hkept⟩ := List.mem_filter.mp h
  simp only [Bool.and_eq_true, bne_iff_ne, ne_eq, Bool.not_eq_true', List.contains_eq_mem,
    decide_eq_false_iff_not]
    at hkept
  obtain ⟨hid, hlocator⟩ := hkept
  refine ⟨hdeclared, hid, fun hpath =>
    hlocator (hpath ▸ List.mem_cons_self), fun other hother hsame hshared => ?_⟩
  have hmem : other ∈ copies.filter fun copy => copy.copyId == candidate.copyId :=
    List.mem_filter.mpr ⟨hother, by simpa using hsame⟩
  exact hlocator (hshared ▸ List.mem_cons_of_mem _ (List.mem_map_of_mem hmem))

section
variable {Place : Type} [DecidableEq Place]

theorem Files.follow_unlink {files : Files Place} {gone place : Place} {links : Nat} :
    (files.unlink gone).follow links place =
      if files.leads gone links place then none else files.follow links place := by
  induction links generalizing place with
  | zero =>
    unfold Files.follow Files.leads Files.unlink
    by_cases hplace : place = gone
    · simp [hplace]
    · simp [hplace]
  | succ links ih =>
    unfold Files.follow Files.leads
    by_cases hplace : place = gone
    · simp [hplace, Files.unlink]
    · have hentry : (files.unlink gone).entries place = files.entries place := if_neg hplace
      rw [hentry]
      cases files.entries place with
      | none => simp
      | some entry =>
        cases entry with
        | file inode => simp [hplace]
        | symlink target => simpa [hplace] using ih
        | other => simp

/-- What the paths read once an entry is gone. -/
theorem Files.opened_unlink {files : Files Place} {gone : Place} {path : String} :
    (files.unlink gone).opened path = if files.leadsTo gone path then none else
      files.opened path := by
  unfold Files.opened Files.leadsTo
  have hplace : (files.unlink gone).place path = files.place path := rfl
  rw [hplace]
  cases files.place path with
  | none => rfl
  | some place =>
    have hlimit : (files.unlink gone).linkLimit = files.linkLimit := rfl
    have hcontents : (files.unlink gone).contents = files.contents := rfl
    simp only [Option.bind_eq_bind, Option.bind_some, Option.any_some, hlimit, hcontents,
      Files.follow_unlink]
    split <;> rfl

/-- A prune that deleted its file. -/
structure Deleted (sha256 : Sha256) (policy : LocalPrunePolicy)
    (durabilityPolicy : DurabilityPolicy)
    (candidate : LocalPruneCandidate) (copies : List ArtifactCopyEvidence)
    (files next : Files Place) (gone : Place) :
    Prop where
  unprotected : Unprotected policy candidate
  durable : Durable durabilityPolicy candidate.canonicalPayloadDigest
    (retainedCopies candidate copies)
  apart : ∀ copy ∈ retainedCopies candidate copies, copy ∈ copies ∧ copy.copyId ≠ candidate.copyId ∧
    copy.locator ≠ candidate.localPath ∧ ∀ other ∈ copies, other.copyId = candidate.copyId →
    copy.locator ≠ other.locator
  named : files.place candidate.localPath = some gone
  regular : ∃ inode, files.entries gone = some (.file inode) ∧
    (files.contents inode).length = candidate.localFileSizeBytes ∧
    contentDigest sha256 (files.contents inode) = candidate.localFileDigest
  unlinked : next = files.unlink gone
  opened : ∀ path, next.opened path = if files.leadsTo gone path then none else files.opened path

end

theorem refuse_ok {condition : Bool} {error : PruneError} {u : Unit}
    (h : refuse condition error = .ok u) :
    condition = false := by
  unfold refuse at h
  split at h
  · cases h
  · simpa using ‹¬ condition = true›

theorem executeLocalPrune_ok {Place : Type} [DecidableEq Place]
    (hpieces : ∀ content, (system.pieces content).flatten = content) {files next : Files Place}
    {report : LocalPruneExecutionReport}
    (h : executeLocalPrune sha256 system policy durabilityPolicy candidate copies files =
      (.ok report, next)) :
    ∃ gone, Deleted sha256 policy durabilityPolicy candidate copies files next gone := by
  unfold executeLocalPrune at h
  cases hverify : verifyPrune sha256 system policy durabilityPolicy candidate copies files with
  | error error =>
    rw [hverify] at h
    cases h
  | ok verified =>
    rw [hverify] at h
    cases hremove : system.removeError with
    | some message =>
      rw [hremove] at h
      cases h
    | none =>
      rw [hremove] at h
      cases h
      obtain ⟨plan, hplan, hverify⟩ := bind_eq_ok hverify
      obtain ⟨_, hremovable, hverify⟩ := bind_eq_ok hverify
      obtain ⟨_, -, hverify⟩ := bind_eq_ok hverify
      obtain ⟨_, -, hverify⟩ := bind_eq_ok hverify
      obtain ⟨hunprotected, hdurable⟩ :=
        planLocalPrune_removable (mapError_ok hplan) (by simpa using refuse_ok hremovable)
      split at hverify
      · cases hverify
      · next inode hfile =>
        obtain ⟨gone, hplace, hentry⟩ := Option.bind_eq_some_iff.mp hfile
        have hunlinked : files.remove candidate.localPath = files.unlink gone :=
          by rw [Files.remove, hplace]
        refine ⟨gone, hunprotected, hdurable, fun _ => retainedCopies_apart, hplace,
          ⟨inode, hentry, ?_⟩, hunlinked, fun path => by rw [hunlinked, Files.opened_unlink]⟩
        obtain ⟨_, hsize, hverify⟩ := bind_eq_ok hverify
        obtain ⟨_, -, hverify⟩ := bind_eq_ok hverify
        obtain ⟨read, hread, hverify⟩ := bind_eq_ok hverify
        obtain ⟨_, hcompare, -⟩ := bind_eq_ok hverify
        have hresult := readLoop_ok hread
        rw [hpieces] at hresult
        have hdigest := refuse_ok hcompare
        rw [hresult, Bool.or_eq_false_iff] at hdigest
        exact ⟨by simpa using refuse_ok hsize, by simpa using hdigest.2⟩
      · cases hverify

theorem executeLocalPrune_error {Place : Type} [DecidableEq Place] {files next : Files Place}
    {error : PruneError}
    (h : executeLocalPrune sha256 system policy durabilityPolicy candidate copies files =
      (.error error, next)) :
    next = files := by
  unfold executeLocalPrune at h
  split at h
  · cases h
    rfl
  · split at h
    · cases h
      rfl
    · cases h

end

/-! ## Runs -/

/-- One call of the prune, with the copies its caller declares and the answers of its system. -/
structure Prune where
  policy : LocalPrunePolicy
  durabilityPolicy : DurabilityPolicy
  candidate : LocalPruneCandidate
  copies : List ArtifactCopyEvidence
  system : System

section
variable {Place : Type} [DecidableEq Place] (sha256 : Sha256)

def Prune.execute (call : Prune) (files : Files Place) :
    Attempt LocalPruneExecutionReport × Files Place :=
  executeLocalPrune sha256 call.system call.policy call.durabilityPolicy call.candidate
    call.copies files

def Files.run (files : Files Place) (calls : List Prune) : Files Place :=
  calls.foldl (fun files call => (call.execute sha256 files).2) files

/-- A call either deletes one verified file or changes nothing. -/
def Prune.Settled (call : Prune) (files : Files Place) : Prop :=
  (∃ report gone, (call.execute sha256 files).1 = .ok report ∧
    Deleted sha256 call.policy call.durabilityPolicy call.candidate call.copies files
      (call.execute sha256 files).2 gone) ∨
  ∃ error, (call.execute sha256 files).1 = .error error ∧ (call.execute sha256 files).2 = files

variable {sha256} {files : Files Place} {call : Prune} {calls : List Prune}

theorem Prune.settled (hpieces : ∀ content, (call.system.pieces content).flatten = content) :
    call.Settled sha256 files := by
  cases hexecute : (call.execute sha256 files).1 with
  | ok report =>
    obtain ⟨gone, hdeleted⟩ := executeLocalPrune_ok hpieces (Prod.ext hexecute rfl)
    exact .inl ⟨report, gone, hexecute, hdeleted⟩
  | error error => exact .inr ⟨error, hexecute, executeLocalPrune_error (Prod.ext hexecute rfl)⟩

/-- The call that takes a file from a path. -/
structure Loses (sha256 : Sha256) (files : Files Place) (call : Prune) (path : String)
    (gone : Place) : Prop where
  deleted : Deleted sha256 call.policy call.durabilityPolicy call.candidate call.copies files
    (call.execute sha256 files).2 gone
  leads : files.leadsTo gone path = true

/-- What one call does to what a path reads. -/
theorem Prune.opened (hpieces : ∀ content, (call.system.pieces content).flatten = content)
    (path : String) :
    (call.execute sha256 files).2.opened path = files.opened path ∨
      (call.execute sha256 files).2.opened path = none ∧
      ∃ gone, Loses sha256 files call path gone := by
  have hsettled : call.Settled sha256 files := Prune.settled hpieces
  rcases hsettled with ⟨report, gone, -, hdeleted⟩ | ⟨error, -, hsame⟩
  · cases hleads : files.leadsTo gone path with
    | true => exact .inr ⟨by rw [hdeleted.opened, if_pos hleads], gone, hdeleted, hleads⟩
    | false => exact .inl (by rw [hdeleted.opened, if_neg (by simp [hleads])])
  · exact .inl (congrArg (fun files => Files.opened files path) hsame)

/-- A path that opens nothing opens nothing later. -/
theorem Files.run_opened_none
    (hpieces : ∀ call ∈ calls, ∀ content, (call.system.pieces content).flatten = content)
    {path : String} (h : files.opened path = none) :
    (files.run sha256 calls).opened path = none := by
  induction calls generalizing files with
  | nil => exact h
  | cons call calls ih =>
    refine ih (fun other hother => hpieces other (List.mem_cons_of_mem _ hother)) ?_
    have hcall := @Prune.opened Place _ sha256 files call (hpieces call List.mem_cons_self) path
    rcases hcall with hsame | ⟨hnone, -⟩
    · exact hsame.trans h
    · exact hnone

theorem Files.run_opened
    (hpieces : ∀ call ∈ calls, ∀ content, (call.system.pieces content).flatten = content)
    (path : String) :
    (files.run sha256 calls).opened path = files.opened path ∨
      (files.run sha256 calls).opened path = none ∧ ∃ before call after gone, calls = before ++
        call :: after ∧
        Loses sha256 (files.run sha256 before) call path gone := by
  induction calls generalizing files with
  | nil => exact .inl rfl
  | cons call calls ih =>
    have hrest : ∀ other ∈ calls, ∀ content, (other.system.pieces content).flatten = content :=
      fun other hother => hpieces other (List.mem_cons_of_mem _ hother)
    have hcall := @Prune.opened Place _ sha256 files call (hpieces call List.mem_cons_self) path
    rcases hcall with hsame | ⟨hnone, gone, hloses⟩
    · have hlater := @ih (call.execute sha256 files).2 hrest
      rcases hlater with hkept | ⟨hnone, before, found, after, gone, hcalls, h⟩
      · exact .inl (hkept.trans hsame)
      · exact .inr ⟨hnone, call :: before, found, after, gone, by rw [hcalls, List.cons_append], h⟩
    · exact .inr ⟨Files.run_opened_none hrest hnone, [], call, calls, gone, rfl, hloses⟩

end

/-- In any run of prunes, each with the copies that its caller declares, every call either fails and
changes nothing, or unlinks exactly the entry that its path names: a regular file of the declared
length and digest, unprotected, and durable by the declared copies of another identity whose
locators are spelled otherwise. A path reads at the end what it read at the beginning, unless one of
the calls took an entry that the path leads to, under this or another spelling or by a link. -/
theorem prunes_delete_verified_files {Place : Type} [DecidableEq Place] (sha256 : Sha256)
    (files : Files Place)
    (calls : List Prune) (hpieces :
      ∀ call ∈ calls, ∀ content, (call.system.pieces content).flatten = content) :
    (∀ before call after, calls = before ++ call :: after →
      call.Settled sha256 (files.run sha256 before)) ∧
    ∀ path, (files.run sha256 calls).opened path = files.opened path ∨
      (files.run sha256 calls).opened path = none ∧ ∃ before call after gone, calls = before ++
        call :: after ∧
        Loses sha256 (files.run sha256 before) call path gone := by
  refine ⟨fun before call after hcalls => ?_, Files.run_opened hpieces⟩
  exact Prune.settled (hpieces call (hcalls ▸ List.mem_append_right _ List.mem_cons_self))

/-! A local file under two spellings and a link, declared once under each spelling, with a remote
copy. -/

def sampleCopy (copyId locator failureDomain : String) (location : ArtifactCopyLocation) :
    ArtifactCopyEvidence where
  schemaVersion := 1
  copyId := copyId
  location := location
  locator := locator
  failureDomain := failureDomain
  canonicalPayloadDigest := contentDigest letterDigest [0x61]
  placementReceiptDigest := some (contentDigest letterDigest [0x62])
  verificationEvidenceDigest := contentDigest letterDigest [0x63]
  verifiedAtUnixSeconds := 1
  revoked := false

def sampleCopies : List ArtifactCopyEvidence :=
  [sampleCopy "local" "cache/a.zip" "workstation" .workstationLocal,
    sampleCopy "alias" "cache/./a.zip" "workstation" .workstationLocal,
    sampleCopy "private" "shard/a.zip" "private" .teamPrivateRemote,
    sampleCopy "private" "shard/alias.zip" "mirror" .teamPrivateRemote]

def samplePolicy : DurabilityPolicy where
  schemaVersion := 1
  artifactFamily := "ccm"
  durabilityClass := .recomputable
  minimumVerifiedCopies := 1
  minimumIndependentFailureDomains := 1
  requireArchiveCopy := false
  allowedLocations := [.workstationLocal, .teamPrivateRemote]

def sampleCandidate : LocalPruneCandidate where
  schemaVersion := 1
  copyId := "local"
  localPath := "cache/a.zip"
  localFileDigest := contentDigest letterDigest [0x61]
  localFileSizeBytes := 1
  location := .workstationLocal
  artifactFamily := "ccm"
  canonicalPayloadDigest := contentDigest letterDigest [0x61]
  ageSeconds := 10000
  projectPinned := false
  dependencyReachable := false
  activeTransaction := false
  achievedAssurance := .computed
  disposition := .active
  recomputationCost := .moderate
  requiredPublicationTargets := [.privateShard]
  publicationStates := fun _ => some .receiptComplete

def sampleCall : Prune where
  policy := ⟨1, 100, .moderate, [.active], some .certified⟩
  durabilityPolicy := samplePolicy
  candidate := sampleCandidate
  copies := sampleCopies
  system := ⟨none, none, fun _ => none, fun content => [content], none, fun _ => none⟩

/-- Entry 0 is the file, entry 1 a link to it, entry 2 another name of the same file. -/
def sampleFiles : Files Nat where
  place := fun path =>
    if path = "cache/a.zip" ∨ path = "cache/./a.zip" then some 0
    else if path = "links/a.zip" then some 1
    else if path = "pool/a.zip" then some 2
    else none
  entries := fun place =>
    if place = 1 then some (.symlink 0) else if place = 0 ∨ place = 2 then some (.file 7) else none
  contents := fun _ => [0x61]
  linkLimit := 40

theorem sample_prune :
    (assessDurability samplePolicy (contentDigest letterDigest [0x61]) sampleCopies).toOption.map
      (fun a => (a.satisfied, a.verifiedCopyCount)) = some (true, 3) ∧
    (sampleCall.execute letterDigest sampleFiles).1.toOption.map (·.deleted) = some true := by
  decide +kernel

theorem assessDurability_counts_alias : ∃ assessment,
    assessDurability samplePolicy (contentDigest letterDigest [0x61]) sampleCopies =
      .ok assessment ∧
    assessment.satisfied = true ∧
    ∀ chosen, Independent samplePolicy (contentDigest letterDigest [0x61]) sampleCopies chosen →
      chosen.length ≤ 2 * assessment.verifiedCopyCount := by
  obtain ⟨assessment, hassessment, hfields⟩ := Option.map_eq_some_iff.mp sample_prune.1
  have hok : assessDurability samplePolicy (contentDigest letterDigest [0x61]) sampleCopies =
      .ok assessment :=
    toOption_ok hassessment
  obtain ⟨-, -, hhalf⟩ :=
    assessDurability_counts samplePolicy (contentDigest letterDigest [0x61]) sampleCopies
      assessment hok
  exact ⟨assessment, hok, (Prod.mk.inj hfields).1, hhalf⟩

/-- One call takes the file from its path, from the other spelling, which was declared as a copy of
its own and counted, and from the link; the other name of the file still reads it. -/
theorem prunes_delete_verified_files_alias :
    (∃ gone, Loses letterDigest sampleFiles sampleCall "cache/./a.zip" gone) ∧
      (sampleFiles.run letterDigest [sampleCall]).opened "cache/./a.zip" = none ∧
      (sampleFiles.run letterDigest [sampleCall]).opened "links/a.zip" = none ∧
      (sampleFiles.run letterDigest [sampleCall]).opened "pool/a.zip" = some [0x61] := by
  obtain ⟨report, hreport, -⟩ := Option.map_eq_some_iff.mp sample_prune.2
  have hok := toOption_ok hreport
  obtain ⟨hsettled, -⟩ := prunes_delete_verified_files letterDigest sampleFiles [sampleCall]
    (fun call hcall content => by rw [List.mem_singleton.mp hcall]; simp [sampleCall])
  rcases hsettled [] sampleCall [] rfl with ⟨_, gone, -, hdeleted⟩ | ⟨error, herror, -⟩
  · have hgone : gone = 0 := (Option.some.inj hdeleted.named).symm
    subst hgone
    refine ⟨⟨0, hdeleted, by decide⟩, ?spelling, ?link, ?name⟩
    case spelling => exact (hdeleted.opened _).trans (if_pos (by decide))
    case link => exact (hdeleted.opened _).trans (if_pos (by decide))
    case name => exact (hdeleted.opened _).trans (by decide)
  · have himpossible := hok.symm.trans herror
    cases himpossible

end Xcelerator.Cache.Durability
