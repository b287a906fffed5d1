import Mathlib
import Xcelerator.Foundations.Machine
import Xcelerator.Cache.Transport
import Xcelerator.Cache.PublicationJournal

/-! # Publication batches

The planner that groups transport parts into commits of bounded payload, for one
artifact and for a whole family. A `BTreeMap` keyed by path is a list in the order
of its keys; a slice has fewer than `2 ^ 64` elements, so an index is a `u64`. -/

namespace Xcelerator.Cache.PublicationBatches
open Xcelerator.Foundations.Machine (bind_eq_ok ok_bind)
open Xcelerator.Cache.Transport

structure PublicationBatchPlan where
  sequence : Nat
  payloadBytes : Nat
  parts : List TransportPart
deriving DecidableEq, Repr

/-- `u64::saturating_add`. -/
def saturatingAdd (a b : Nat) : Nat := min (a + b) (2 ^ 64 - 1)

/-- The loop state of the planner. -/
structure Planning where
  physicalParts : List (String × ContentDigest × Nat)
  batches : List PublicationBatchPlan
  currentParts : List TransportPart
  currentBytes : Nat
deriving DecidableEq, Repr

/-- Close the batch being filled. -/
def Planning.push (s : Planning) : List PublicationBatchPlan :=
  s.batches ++ [⟨s.batches.length, s.currentBytes, s.currentParts⟩]

/-- A part whose path is new: it joins the current batch or opens the next one. -/
def Planning.place (policy : TransportPolicy) (s : Planning) (part : TransportPart) : Planning :=
  let physicalParts := (part.repositoryPath, part.contentDigest, part.sizeBytes) :: s.physicalParts
  if !s.currentParts.isEmpty &&
      decide (saturatingAdd s.currentBytes part.sizeBytes > policy.maximumBatchPayloadBytes) then
    { physicalParts, batches := s.push, currentParts := [part],
      currentBytes := saturatingAdd 0 part.sizeBytes }
  else
    { physicalParts, batches := s.batches, currentParts := s.currentParts ++ [part],
      currentBytes := saturatingAdd s.currentBytes part.sizeBytes }

def planPart (policy : TransportPolicy) (index : Nat) (s : Planning) (part : TransportPart) :
    Result Planning := do
  check (part.sequence != index || part.sizeBytes == 0 ||
      decide (part.sizeBytes ≥ policy.maximumFileBytesExclusive) ||
      decide (part.sizeBytes > policy.maximumBatchPayloadBytes))
    (.invalidManifest ("part " ++ toString index ++ " violates publication limits"))
  check (!normalizedRelativePath part.repositoryPath || !part.contentDigest.validate)
    (.invalidManifest "publication part identity or path is invalid")
  match s.physicalParts.lookup part.repositoryPath with
  | some (digest, size) => do
    check (digest != part.contentDigest || size != part.sizeBytes)
      (.invalidManifest "publication part path has conflicting bytes")
    return s
  | none => return s.place policy part

def planParts (policy : TransportPolicy) : Nat → Planning → List TransportPart → Result Planning
  | _, s, [] => .ok s
  | index, s, part :: rest => do
    let s ← planPart policy index s part
    planParts policy (index + 1) s rest

def planPublicationBatches (parts : List TransportPart) (policy : TransportPolicy) :
    Result (List PublicationBatchPlan) := do
  policy.validate
  check parts.isEmpty (.invalidManifest "publication requires at least one transport part")
  let s ← planParts policy 0 ⟨[], [], [], 0⟩ parts
  return if s.currentParts.isEmpty then s.batches else s.push

/-! ## Families -/

/-- The parts of a family under their paths, in the order of the paths. -/
def admitPart (debug : String → String) (policy : TransportPolicy) (unique : List TransportPart)
    (part : TransportPart) : Result (List TransportPart) := do
  check (!normalizedRelativePath part.repositoryPath || part.sizeBytes == 0 ||
      decide (part.sizeBytes ≥ policy.maximumFileBytesExclusive) ||
      decide (part.sizeBytes > policy.maximumBatchPayloadBytes) || !part.contentDigest.validate)
    (.invalidManifest ("family publication part " ++ debug part.repositoryPath ++
      " violates publication limits"))
  match unique.find? fun existing => existing.repositoryPath == part.repositoryPath with
  | some existing => do
    check (existing.sizeBytes != part.sizeBytes || existing.contentDigest != part.contentDigest)
      (.digestMismatch existing.contentDigest.text part.contentDigest.text)
    return unique
  | none => return unique.orderedInsert (fun a b => a.repositoryPath ≤ b.repositoryPath) part

/-- `debug` is the `Debug` text of a string. -/
def planFamilyPublicationBatches (debug : String → String)
    (artifactParts : List (List TransportPart))
    (policy : TransportPolicy) : Result (List PublicationBatchPlan) := do
  policy.validate
  let unique ← artifactParts.foldlM (fun unique parts =>
    parts.foldlM (admitPart debug policy) unique) []
  check unique.isEmpty (.invalidManifest "family publication requires at least one transport part")
  let ordered := unique.zipIdx.map fun (part, sequence) => { part with sequence }
  planPublicationBatches ordered policy

/-! ## What a plan is -/

def payload (parts : List TransportPart) : Nat := (parts.map (·.sizeBytes)).sum

/-- The parts that are first under their path. -/
def firstOccurrences (parts : List TransportPart) : List TransportPart :=
  parts.eraseDupsBy fun a b => a.repositoryPath == b.repositoryPath

/-- The next batch was opened because its first part did not fit. -/
def Greedy (limit : Nat) (previous next : List TransportPart) : Prop :=
  ∀ first ∈ next.head?, limit < payload previous + first.sizeBytes

/-- The staged file of a part under the components of its path. -/
def journalPart (bytes : Publication.Document) (part : TransportPart) : Publication.TransportPart :=
  { sequence := part.sequence
    repositoryPath := (components part.repositoryPath.toList).map String.ofList
    sizeBytes := part.sizeBytes
    contentDigest := part.contentDigest
    bytes }

/-- The journal a planned batch starts with. -/
def plannedJournal (bytes : Publication.Document) (plan : PublicationBatchPlan) :
    Publication.PublicationBatchJournal :=
  { plan := ⟨plan.sequence, plan.payloadBytes, plan.parts.map (journalPart bytes)⟩
    state := .planned
    parentHead := none
    commitId := none
    newlyCommittedDigests := []
    recordCommit := none }

/-- The batches of a list of parts under a policy. -/
structure Planned (policy : TransportPolicy) (parts : List TransportPart)
    (batches : List PublicationBatchPlan) : Prop where
  delivered : batches.flatMap (·.parts) = firstOccurrences parts
  nonempty : ∀ plan ∈ batches, plan.parts ≠ []
  accounted : ∀ plan ∈ batches, plan.payloadBytes = payload plan.parts
  bounded : ∀ plan ∈ batches, plan.payloadBytes ≤ policy.maximumBatchPayloadBytes
  sequences : batches.map (·.sequence) = List.range batches.length
  greedy : (batches.map (·.parts)).IsChain (Greedy policy.maximumBatchPayloadBytes)
  journaled : ∀ plan ∈ batches, ∀ bytes, (plannedJournal bytes plan).validate = .ok ()

/-! ## The loop -/

/-- A part that passed the checks of the planner. -/
structure Admitted (policy : TransportPolicy) (part : TransportPart) : Prop where
  positive : 0 < part.sizeBytes
  belowFile : part.sizeBytes < policy.maximumFileBytesExclusive
  belowBatch : part.sizeBytes ≤ policy.maximumBatchPayloadBytes
  path : normalizedRelativePath part.repositoryPath = true
  digest : part.contentDigest.validate = true

structure Limits (policy : TransportPolicy) : Prop where
  file : policy.maximumFileBytesExclusive ≤ githubHardFileBoundaryBytes
  batch : policy.maximumBatchPayloadBytes ≤ githubMaxPublicationBatchBytes

theorem validate_limits {policy : TransportPolicy} (h : policy.validate = .ok ()) :
    Limits policy := by
  unfold TransportPolicy.validate at h
  obtain ⟨_, hfile, h⟩ := bind_eq_ok h
  obtain ⟨_, _, h⟩ := bind_eq_ok h
  obtain ⟨_, hbatch, h⟩ := bind_eq_ok h
  have hfile := check_ok hfile
  have hbatch := check_ok hbatch
  simp only [Bool.or_eq_false_iff, decide_eq_false_iff_not, not_lt] at hfile hbatch
  exact ⟨hfile.2, hbatch.1.2⟩

/-- Batches that are closed. -/
structure Closed (policy : TransportPolicy) (batches : List PublicationBatchPlan) : Prop where
  nonempty : ∀ plan ∈ batches, plan.parts ≠ []
  accounted : ∀ plan ∈ batches, plan.payloadBytes = payload plan.parts
  bounded : ∀ plan ∈ batches, plan.payloadBytes ≤ policy.maximumBatchPayloadBytes
  admitted : ∀ plan ∈ batches, ∀ part ∈ plan.parts, Admitted policy part
  sequences : batches.map (·.sequence) = List.range batches.length

/-- What holds of the planner's state between two parts. -/
structure Inv (policy : TransportPolicy) (s : Planning) : Prop where
  started : s.currentParts = [] → s.batches = []
  bytes : s.currentBytes = payload s.currentParts
  fits : s.currentBytes ≤ policy.maximumBatchPayloadBytes
  admitted : ∀ part ∈ s.currentParts, Admitted policy part
  closed : Closed policy s.batches
  greedy : (s.batches.map (·.parts) ++ [s.currentParts]).IsChain
    (Greedy policy.maximumBatchPayloadBytes)

/-- The parts taken over so far. -/
def Planning.delivered (s : Planning) : List TransportPart :=
  s.batches.flatMap (·.parts) ++ s.currentParts

theorem saturatingAdd_eq {a b : Nat} (h : a + b < 2 ^ 64) : saturatingAdd a b = a + b := by
  unfold saturatingAdd
  omega

theorem initial_inv (policy : TransportPolicy) : Inv policy ⟨[], [], [], 0⟩ := by
  refine ⟨fun _ => rfl, rfl, Nat.zero_le _, by simp, ⟨?_, ?_, ?_, ?_, rfl⟩, by simp⟩ <;> simp

theorem forall_push {s : Planning} {P : PublicationBatchPlan → Prop}
    (h : ∀ plan ∈ s.batches, P plan)
    (hlast : P ⟨s.batches.length, s.currentBytes, s.currentParts⟩) : ∀ plan ∈ s.push, P plan := by
  intro plan hplan
  rcases List.mem_append.mp hplan with hmem | hmem
  · exact h plan hmem
  · rw [List.mem_singleton.mp hmem]
    exact hlast

theorem push_closed {policy : TransportPolicy} {s : Planning} (hs : Inv policy s)
    (hne : s.currentParts ≠ []) : Closed policy s.push where
  nonempty := forall_push hs.closed.nonempty hne
  accounted := forall_push hs.closed.accounted hs.bytes
  bounded := forall_push hs.closed.bounded hs.fits
  admitted := forall_push hs.closed.admitted hs.admitted
  sequences := by simp [Planning.push, hs.closed.sequences, List.range_succ]

theorem place_inv {policy : TransportPolicy} (hlimits : Limits policy) {s : Planning}
    (hs : Inv policy s)
    {part : TransportPart} (hpart : Admitted policy part) : Inv policy (s.place policy part) := by
  have hbatch : policy.maximumBatchPayloadBytes ≤ 1000000000 := hlimits.batch
  have hsize := hpart.belowBatch
  have hfits := hs.fits
  have hsat : saturatingAdd s.currentBytes part.sizeBytes = s.currentBytes + part.sizeBytes :=
    saturatingAdd_eq (by omega)
  have hsat0 : saturatingAdd 0 part.sizeBytes = part.sizeBytes := by
    rw [saturatingAdd_eq (by omega), Nat.zero_add]
  unfold Planning.place
  dsimp only
  rw [hsat, hsat0]
  split
  · -- the part opens the next batch
    rename_i hfull
    simp only [Bool.and_eq_true, Bool.not_eq_true', List.isEmpty_eq_false_iff,
      decide_eq_true_eq] at hfull
    obtain ⟨hne, hover⟩ := hfull
    refine ⟨fun h => by simp at h, by simp [payload], hsize, by
      simpa using hpart, push_closed hs hne, ?_⟩
    simp only [Planning.push, List.map_append, List.map_cons, List.map_nil]
    refine List.isChain_append.mpr ⟨hs.greedy, List.isChain_singleton _, ?_⟩
    intro previous hprevious next hnext
    simp only [List.getLast?_append, List.getLast?_singleton, Option.some_or, Option.mem_def,
      Option.some.injEq] at hprevious
    simp only [List.head?_cons, Option.mem_def, Option.some.injEq] at hnext
    subst hprevious hnext
    intro first hfirst
    simp only [List.head?_cons, Option.mem_def, Option.some.injEq] at hfirst
    subst hfirst
    rw [← hs.bytes]
    exact hover
  · -- the part joins the current batch
    rename_i hfull
    simp only [Bool.and_eq_true, Bool.not_eq_true', List.isEmpty_eq_false_iff, decide_eq_true_eq,
      not_and, not_lt] at hfull
    refine ⟨fun h => by simp at h, by simp [payload, hs.bytes], ?_, ?_, hs.closed, ?_⟩
    · by_cases hne : s.currentParts = []
      · have h0 : s.currentBytes = 0 := by rw [hs.bytes, hne]; rfl
        show s.currentBytes + part.sizeBytes ≤ _
        omega
      · exact hfull hne
    · intro p hp
      rcases List.mem_append.mp hp with h | h
      · exact hs.admitted p h
      · rw [List.mem_singleton.mp h]
        exact hpart
    · by_cases hne : s.currentParts = []
      · rw [hs.started hne]
        exact List.isChain_singleton _
      · have hchain := List.isChain_append.mp hs.greedy
        refine List.isChain_append.mpr ⟨hchain.1, List.isChain_singleton _, ?_⟩
        intro previous hprevious next hnext
        simp only [List.head?_cons, Option.mem_def, Option.some.injEq] at hnext
        subst hnext
        have h := hchain.2.2 previous hprevious s.currentParts (by simp)
        intro first hfirst
        refine h first ?_
        rwa [List.head?_append_of_ne_nil _ hne] at hfirst

theorem place_delivered (policy : TransportPolicy) (s : Planning) (part : TransportPart) :
    (s.place policy part).delivered = s.delivered ++ [part] := by
  unfold Planning.place Planning.delivered
  dsimp only
  split
  · simp [Planning.push]
  · simp

theorem place_paths (policy : TransportPolicy) (s : Planning) (part : TransportPart) :
    (s.place policy part).physicalParts.map Prod.fst =
      part.repositoryPath :: s.physicalParts.map Prod.fst := by
  unfold Planning.place
  dsimp only
  split <;> rfl

/-- One part of the loop. -/
theorem planPart_spec {policy : TransportPolicy} {index : Nat} {s s' : Planning}
    {part : TransportPart} (h : planPart policy index s part = .ok s') :
    Admitted policy part ∧
      (part.repositoryPath ∈ s.physicalParts.map Prod.fst ∧ s' = s ∨
        part.repositoryPath ∉ s.physicalParts.map Prod.fst ∧ s' = s.place policy part) := by
  unfold planPart at h
  obtain ⟨_, hlimits, h⟩ := bind_eq_ok h
  obtain ⟨_, hidentity, h⟩ := bind_eq_ok h
  have hlimits := check_ok hlimits
  have hidentity := check_ok hidentity
  simp only [Bool.or_eq_false_iff, decide_eq_false_iff_not, not_lt, not_le, beq_eq_false_iff_ne,
    Bool.not_eq_false'] at hlimits hidentity
  refine ⟨⟨Nat.pos_of_ne_zero hlimits.1.1.2, hlimits.1.2, hlimits.2, hidentity.1, hidentity.2⟩, ?_⟩
  split at h
  · rename_i digest size hfound
    obtain ⟨_, _, h⟩ := bind_eq_ok h
    cases h
    obtain ⟨before, after, heq, _⟩ := List.lookup_eq_some_iff.mp hfound
    exact .inl ⟨by simp [heq], rfl⟩
  · rename_i hfound
    cases h
    refine .inr ⟨?_, rfl⟩
    rw [List.lookup_eq_none_iff] at hfound
    intro hmem
    obtain ⟨entry, hentry, heq⟩ := List.mem_map.mp hmem
    exact absurd heq.symm (by simpa using hfound entry hentry)

/-- A run of the loop takes over the first occurrence of every new path. -/
theorem planParts_spec {policy : TransportPolicy} (hlimits : Limits policy) {index : Nat}
    {s s' : Planning} {parts : List TransportPart} (h : planParts policy index s parts = .ok s')
    (hs : Inv policy s) :
    Inv policy s' ∧ s'.delivered = s.delivered ++
      firstOccurrences (parts.filter fun part =>
        part.repositoryPath ∉ s.physicalParts.map Prod.fst) := by
  induction parts generalizing index s with
  | nil =>
    cases h
    exact ⟨hs, by simp [firstOccurrences]⟩
  | cons part rest ih =>
    rw [planParts] at h
    obtain ⟨next, hnext, h⟩ := bind_eq_ok h
    obtain ⟨hadmitted, ⟨hmem, heq⟩ | ⟨hnew, heq⟩⟩ := planPart_spec hnext
    · rw [heq] at h
      obtain ⟨hinv, hdelivered⟩ := ih h hs
      refine ⟨hinv, ?_⟩
      rw [hdelivered, List.filter_cons_of_neg (by simpa using hmem)]
    · rw [heq] at h
      obtain ⟨hinv, hdelivered⟩ := ih h (place_inv hlimits hs hadmitted)
      refine ⟨hinv, ?_⟩
      rw [hdelivered, place_delivered, place_paths, List.filter_cons_of_pos (by simpa using hnew),
        firstOccurrences, firstOccurrences, List.eraseDupsBy_cons, List.filter_filter,
        List.append_assoc, List.singleton_append]
      congr 4
      funext other
      rw [Bool.eq_iff_iff]
      simp only [List.mem_cons, not_or, decide_eq_true_eq, Bool.and_eq_true,
        beq_eq_false_iff_ne, ne_eq]

/-! ## The journal of a planned batch -/

theorem components_clear {path part : List Char} {c : Char} (hc : c ∈ part)
    (h : part ∈ components path) : c ∈ path ∧ c ≠ '/' := by
  unfold components List.splitOn at h
  induction path generalizing part with
  | nil =>
    rw [List.splitOnP_nil, List.mem_singleton] at h
    rw [h] at hc
    cases hc
  | cons x path ih =>
    rw [List.splitOnP_cons_eq_if_modifyHead] at h
    split at h
    · rcases List.mem_cons.mp h with rfl | h
      · cases hc
      · obtain ⟨hmem, hne⟩ := ih hc h
        exact ⟨List.mem_cons_of_mem x hmem, hne⟩
    · rename_i hx
      obtain ⟨first, rest, hsplit⟩ :=
        List.exists_cons_of_ne_nil (List.splitOnP_ne_nil (· == '/') path)
      rw [hsplit, List.modifyHead_cons] at h
      rcases List.mem_cons.mp h with rfl | h
      · rcases List.mem_cons.mp hc with rfl | hc
        · exact ⟨List.mem_cons_self, by simpa using hx⟩
        · obtain ⟨hmem, hne⟩ := ih hc (by simp [hsplit])
          exact ⟨List.mem_cons_of_mem x hmem, hne⟩
      · obtain ⟨hmem, hne⟩ := ih hc (by simp [hsplit, h])
        exact ⟨List.mem_cons_of_mem x hmem, hne⟩

/-- A normalized path has normalized components. -/
theorem normalized_components {path : String} (h : normalizedRelativePath path = true) :
    Publication.normalizedRelativePath ((components path.toList).map String.ofList) = true := by
  unfold normalizedRelativePath at h
  simp only [Bool.and_eq_true, Bool.not_eq_true', List.contains_eq_mem, decide_eq_false_iff_not,
    List.any_eq_false, Bool.or_eq_true, beq_iff_eq, not_or, List.isEmpty_iff] at h
  obtain ⟨⟨⟨⟨_, hslash⟩, hcolon⟩, hcontrol⟩, hparts⟩ := h
  have hne : components path.toList ≠ [] := List.splitOnP_ne_nil _ _
  unfold Publication.normalizedRelativePath
  simp only [Bool.and_eq_true, Bool.not_eq_true', List.isEmpty_eq_false_iff, List.all_eq_true,
    bne_iff_ne]
  refine ⟨by simpa using hne, fun text htext => ?_⟩
  obtain ⟨part, hpart, rfl⟩ := List.mem_map.mp htext
  obtain ⟨⟨hnil, hdot⟩, hdots⟩ := hparts part hpart
  refine ⟨⟨⟨?_, ?_⟩, ?_⟩, fun c hc => ?_⟩
  · intro heq
    exact hnil (by simpa using congrArg String.toList heq)
  · intro heq
    exact hdot (by simpa using congrArg String.toList heq)
  · intro heq
    exact hdots (by simpa using congrArg String.toList heq)
  · rw [String.toList_ofList] at hc
    obtain ⟨hmem, hsep⟩ := components_clear hc hpart
    refine ⟨⟨⟨hsep, ?_⟩, ?_⟩, ?_⟩
    · rintro rfl
      exact hslash hmem
    · rintro rfl
      exact hcolon hmem
    · have hclear := hcontrol c hmem
      simp only [isControl, Bool.or_eq_true, Bool.and_eq_true, decide_eq_true_eq, not_or, not_and,
        not_lt] at hclear
      simp only [Publication.isControl, Bool.or_eq_false_iff, Bool.and_eq_false_iff,
        decide_eq_false_iff_not, not_lt, not_le]
      omega

theorem journalPart_valid {policy : TransportPolicy} (hlimits : Limits policy)
    {part : TransportPart}
    (h : Admitted policy part) (bytes : Publication.Document) :
    (journalPart bytes part).valid = true := by
  have hbelow : part.sizeBytes < Publication.githubHardFileBoundaryBytes := by
    have hfile : policy.maximumFileBytesExclusive ≤ 100000000 := hlimits.file
    have := h.belowFile
    show part.sizeBytes < 100000000
    omega
  have hpos := h.positive
  unfold Publication.TransportPart.valid journalPart
  simp only [Bool.and_eq_true, decide_eq_true_eq, bne_iff_ne]
  exact ⟨⟨⟨normalized_components h.path, by omega⟩, hbelow⟩, h.digest⟩

theorem checkedSum_eq {total : Nat} {sizes : List Nat} (h : total + sizes.sum < 2 ^ 64) :
    Publication.checkedSum total sizes = some (total + sizes.sum) := by
  induction sizes generalizing total with
  | nil => simp [Publication.checkedSum]
  | cons size sizes ih =>
    rw [List.sum_cons] at h ⊢
    have hstep : checkedAdd total size = some (total + size) := if_pos (by omega)
    rw [Publication.checkedSum, List.foldlM_cons, hstep]
    exact (ih (by omega)).trans (by rw [Nat.add_assoc])

theorem check_false {condition : Bool} (h : condition = false) (error : CacheError) :
    check condition error = .ok () := by
  rw [check, h]
  rfl

/-- The validation of a planned journal only concerns its plan. -/
theorem planned_validate {plan : Publication.PublicationBatchPlan} (hne : plan.parts ≠ [])
    (hpos : 0 < plan.payloadBytes)
    (hlimit : plan.payloadBytes ≤ Publication.githubMaxPublicationBatchBytes)
    (hsum : Publication.checkedSum 0 (plan.parts.map (·.sizeBytes)) = some plan.payloadBytes)
    (hall : plan.parts.all Publication.TransportPart.valid = true) :
    (⟨plan, .planned, none, none, [], none⟩ : Publication.PublicationBatchJournal).validate =
      .ok () := by
  have hfirst : (plan.parts.isEmpty || plan.payloadBytes == 0 ||
      decide (Publication.githubMaxPublicationBatchBytes < plan.payloadBytes)) = false := by
    simp only [Bool.or_eq_false_iff, List.isEmpty_eq_false_iff, beq_eq_false_iff_ne,
      decide_eq_false_iff_not, not_lt]
    exact ⟨⟨hne, by omega⟩, hlimit⟩
  unfold Publication.PublicationBatchJournal.validate
  dsimp only
  rw [check_false hfirst, ok_bind, check_false (by rw [hall]; rfl), ok_bind, hsum, require, ok_bind,
    check_false (by simp), ok_bind]
  rfl

/-- A batch of admitted parts with its exact total passes the journal's validation. -/
theorem plannedJournal_validate {policy : TransportPolicy} (hlimits : Limits policy)
    {plan : PublicationBatchPlan} (hne : plan.parts ≠ [])
    (hbytes : plan.payloadBytes = payload plan.parts)
    (hbound : plan.payloadBytes ≤ policy.maximumBatchPayloadBytes)
    (hvalid : ∀ part ∈ plan.parts, Admitted policy part) (bytes : Publication.Document) :
    (plannedJournal bytes plan).validate = .ok () := by
  have hlimit : plan.payloadBytes ≤ 1000000000 := hbound.trans hlimits.batch
  have hpos : 0 < plan.payloadBytes := by
    obtain ⟨part, hpart⟩ := List.exists_mem_of_ne_nil _ hne
    have hle : part.sizeBytes ≤ payload plan.parts := List.le_sum_of_mem (List.mem_map_of_mem hpart)
    have := (hvalid part hpart).positive
    omega
  refine planned_validate (by simpa using hne) hpos hlimit ?_ ?_
  · have hsizes : ((plan.parts.map (journalPart bytes)).map (·.sizeBytes)).sum =
        plan.payloadBytes := by
      rw [hbytes, payload, List.map_map]
      rfl
    rw [checkedSum_eq (by rw [hsizes]; omega), hsizes, Nat.zero_add]
  · rw [List.all_eq_true]
    intro p hp
    obtain ⟨part, hpart, rfl⟩ := List.mem_map.mp hp
    exact journalPart_valid hlimits (hvalid part hpart) bytes

/-- Closing the last batch keeps the invariant for the finished plan. -/
theorem finish_planned {policy : TransportPolicy} (hlimits : Limits policy) {s : Planning}
    (hs : Inv policy s) {parts : List TransportPart}
    (hdelivered : s.delivered = firstOccurrences parts) :
    Planned policy parts (if s.currentParts.isEmpty then s.batches else s.push) := by
  split
  · rename_i hempty
    have hcurrent := List.isEmpty_iff.mp hempty
    have hbatches := hs.started hcurrent
    have hnil : firstOccurrences parts = [] := by
      rw [← hdelivered, Planning.delivered, hcurrent, hbatches]
      rfl
    rw [hbatches]
    refine ⟨hnil.symm, ?_, ?_, ?_, rfl, .nil, ?_⟩ <;> simp
  · rename_i hfull
    have hclosed := push_closed hs fun h => hfull (by simp [h])
    refine ⟨?_, hclosed.nonempty, hclosed.accounted, hclosed.bounded, hclosed.sequences, ?_,
      fun plan hplan => ?_⟩
    · rw [← hdelivered]
      simp [Planning.push, Planning.delivered]
    · simpa [Planning.push] using hs.greedy
    · exact plannedJournal_validate hlimits (hclosed.nonempty plan hplan)
        (hclosed.accounted plan hplan)
        (hclosed.bounded plan hplan) (hclosed.admitted plan hplan)

theorem planPublicationBatches_planned {parts : List TransportPart} {policy : TransportPolicy}
    {batches : List PublicationBatchPlan} (h : planPublicationBatches parts policy = .ok batches) :
    Planned policy parts batches := by
  unfold planPublicationBatches at h
  obtain ⟨_, hpolicy, h⟩ := bind_eq_ok h
  obtain ⟨_, _, h⟩ := bind_eq_ok h
  obtain ⟨s, hs, h⟩ := bind_eq_ok h
  cases h
  have hlimits := validate_limits hpolicy
  obtain ⟨hinv, hdelivered⟩ := planParts_spec hlimits hs (initial_inv policy)
  refine finish_planned hlimits hinv ?_
  simpa [Planning.delivered] using hdelivered

/-! ## Families forget the order of their parts -/

/-- What the family planner keeps of a part. -/
def identity (part : TransportPart) : String × Nat × ContentDigest :=
  (part.repositoryPath, part.sizeBytes, part.contentDigest)

/-- The check of one part of a family. -/
def refused (policy : TransportPolicy) (part : TransportPart) : Bool :=
  !normalizedRelativePath part.repositoryPath || part.sizeBytes == 0 ||
    decide (part.sizeBytes ≥ policy.maximumFileBytesExclusive) ||
    decide (part.sizeBytes > policy.maximumBatchPayloadBytes) || !part.contentDigest.validate

/-- Parts that share a path agree on their bytes, and every part is within the limits. -/
structure Consistent (policy : TransportPolicy) (parts : List TransportPart) : Prop where
  accepted : ∀ part ∈ parts, refused policy part = false
  agree : ∀ a ∈ parts, ∀ b ∈ parts, a.repositoryPath = b.repositoryPath → identity a = identity b

/-- A map that holds exactly the paths of the parts, in order. -/
structure Collected (parts unique : List TransportPart) : Prop where
  sorted : unique.Pairwise fun a b => a.repositoryPath < b.repositoryPath
  known : ∀ a ∈ unique, ∃ b ∈ parts, identity a = identity b
  complete : ∀ b ∈ parts, ∃ a ∈ unique, identity a = identity b

theorem find?_path {unique : List TransportPart} {part existing : TransportPart}
    (h : unique.find? (fun existing => existing.repositoryPath == part.repositoryPath) =
      some existing) :
    existing ∈ unique ∧ existing.repositoryPath = part.repositoryPath :=
  ⟨List.mem_of_find?_eq_some h, by simpa using List.find?_some h⟩

/-- Inserting under a new path keeps the order strict. -/
theorem orderedInsert_sorted {unique : List TransportPart} {part : TransportPart}
    (hsorted : unique.Pairwise fun a b => a.repositoryPath < b.repositoryPath)
    (hnew : ∀ a ∈ unique, a.repositoryPath ≠ part.repositoryPath) :
    (unique.orderedInsert (fun a b => a.repositoryPath ≤ b.repositoryPath) part).Pairwise
      fun a b => a.repositoryPath < b.repositoryPath := by
  induction unique with
  | nil => simp
  | cons first rest ih =>
    obtain ⟨hfirst, hrest⟩ := List.pairwise_cons.mp hsorted
    have hne : part.repositoryPath ≠ first.repositoryPath := (hnew first List.mem_cons_self).symm
    rw [List.orderedInsert_cons]
    split
    · rename_i hle
      have hlt := lt_of_le_of_ne hle hne
      refine List.pairwise_cons.mpr ⟨fun b hb => ?_, hsorted⟩
      rcases List.mem_cons.mp hb with rfl | hb
      · exact hlt
      · exact hlt.trans (hfirst b hb)
    · rename_i hle
      refine List.pairwise_cons.mpr ⟨fun b hb => ?_, ih hrest fun a ha =>
        hnew a (List.mem_cons_of_mem _ ha)⟩
      rcases (List.mem_orderedInsert _).mp hb with rfl | hb
      · exact not_le.mp hle
      · exact hfirst b hb

theorem path_injective {unique : List TransportPart}
    (hsorted : unique.Pairwise fun a b => a.repositoryPath < b.repositoryPath) {a b : TransportPart}
    (ha : a ∈ unique) (hb : b ∈ unique) (h : a.repositoryPath = b.repositoryPath) : a = b := by
  have hnodup : (unique.map (·.repositoryPath)).Nodup := by
    rw [List.Nodup, List.pairwise_map]
    exact hsorted.imp ne_of_lt
  exact List.inj_on_of_nodup_map hnodup ha hb h

section
variable {debug : String → String} {policy : TransportPolicy}
    {seen unique unique' : List TransportPart}
  {part : TransportPart}

/-- A part that is admitted agrees with the family so far. -/
theorem admitPart_ok (hunique : Collected seen unique)
    (h : admitPart debug policy unique part = .ok unique') :
    Collected (part :: seen) unique' ∧ refused policy part = false ∧
      ∀ a ∈ seen, a.repositoryPath = part.repositoryPath → identity a = identity part := by
  unfold admitPart at h
  obtain ⟨_, haccepted, h⟩ := bind_eq_ok h
  have haccepted : refused policy part = false := check_ok haccepted
  split at h
  · rename_i existing hfound
    obtain ⟨hmem, hpath⟩ := find?_path hfound
    obtain ⟨_, hsame, h⟩ := bind_eq_ok h
    cases h
    have hsame := check_ok hsame
    simp only [Bool.or_eq_false_iff, bne_eq_false_iff_eq] at hsame
    have hidentity : identity existing = identity part := by simp [identity, hpath, hsame]
    refine ⟨⟨hunique.sorted, fun a ha => ?_, fun b hb => ?_⟩, haccepted, fun a ha heq => ?_⟩
    · obtain ⟨b, hb, heq⟩ := hunique.known a ha
      exact ⟨b, List.mem_cons_of_mem _ hb, heq⟩
    · rcases List.mem_cons.mp hb with rfl | hb
      · exact ⟨existing, hmem, hidentity⟩
      · exact hunique.complete b hb
    · obtain ⟨c, hc, hca⟩ := hunique.complete a ha
      have hcpath : c.repositoryPath = a.repositoryPath := congrArg Prod.fst hca
      rw [← hca, path_injective hunique.sorted hc hmem (hcpath.trans (heq.trans hpath.symm)),
        hidentity]
  · rename_i hfound
    cases h
    have hnew : ∀ a ∈ unique, a.repositoryPath ≠ part.repositoryPath := by
      intro a ha
      simpa using List.find?_eq_none.mp hfound a ha
    refine ⟨⟨orderedInsert_sorted hunique.sorted hnew, fun a ha => ?_, fun b hb => ?_⟩, haccepted,
      fun a ha heq => ?_⟩
    · rcases (List.mem_orderedInsert _).mp ha with rfl | ha
      · exact ⟨a, List.mem_cons_self, rfl⟩
      · obtain ⟨b, hb, heq⟩ := hunique.known a ha
        exact ⟨b, List.mem_cons_of_mem _ hb, heq⟩
    · rcases List.mem_cons.mp hb with rfl | hb
      · exact ⟨b, (List.mem_orderedInsert _).mpr (.inl rfl), rfl⟩
      · obtain ⟨a, ha, heq⟩ := hunique.complete b hb
        exact ⟨a, (List.mem_orderedInsert _).mpr (.inr ha), heq⟩
    · obtain ⟨c, hc, hca⟩ := hunique.complete a ha
      exact absurd ((congrArg Prod.fst hca).trans heq) (hnew c hc)

variable (debug) in
/-- A part that agrees with the family so far is admitted. -/
theorem admitPart_exists (hunique : Collected seen unique) (haccepted : refused policy part = false)
    (hagree : ∀ a ∈ seen, a.repositoryPath = part.repositoryPath → identity a = identity part) :
    ∃ unique', admitPart debug policy unique part = .ok unique' := by
  unfold refused at haccepted
  unfold admitPart
  rw [check_false haccepted, ok_bind]
  split
  · rename_i existing hfound
    obtain ⟨hmem, hpath⟩ := find?_path hfound
    obtain ⟨b, hb, hidentity⟩ := hunique.known existing hmem
    have hbpath : b.repositoryPath = part.repositoryPath :=
      (congrArg Prod.fst hidentity).symm.trans hpath
    have hsame := hidentity.trans (hagree b hb hbpath)
    have hsize : existing.sizeBytes = part.sizeBytes := congrArg (fun x => x.2.1) hsame
    have hdigest : existing.contentDigest = part.contentDigest := congrArg (fun x => x.2.2) hsame
    refine ⟨unique, ?_⟩
    rw [check_false (by simp [hsize, hdigest]), ok_bind]
    rfl
  · exact ⟨_, rfl⟩

/-- A family is collected exactly where it is consistent. -/
theorem admitParts_ok {parts : List TransportPart} (hunique : Collected seen unique)
    (hseen : Consistent policy seen)
    (h : parts.foldlM (admitPart debug policy) unique = .ok unique') :
    Collected (parts.reverse ++ seen) unique' ∧ Consistent policy (parts.reverse ++ seen) := by
  induction parts generalizing seen unique with
  | nil =>
    cases h
    exact ⟨hunique, hseen⟩
  | cons part rest ih =>
    rw [List.foldlM_cons] at h
    obtain ⟨next, hnext, h⟩ := bind_eq_ok h
    obtain ⟨hcollected, haccepted, hagree⟩ := admitPart_ok hunique hnext
    have hconsistent : Consistent policy (part :: seen) := by
      refine ⟨fun p hp => ?_, fun a ha b hb heq => ?_⟩
      · rcases List.mem_cons.mp hp with rfl | hp
        · exact haccepted
        · exact hseen.accepted p hp
      · rcases List.mem_cons.mp ha with ha' | ha
        · rcases List.mem_cons.mp hb with hb' | hb
          · rw [ha', hb']
          · rw [ha'] at heq ⊢
            exact (hagree b hb heq.symm).symm
        · rcases List.mem_cons.mp hb with hb' | hb
          · rw [hb'] at heq ⊢
            exact hagree a ha heq
          · exact hseen.agree a ha b hb heq
    simpa using ih hcollected hconsistent h

variable (debug) in
theorem admitParts_exists {parts : List TransportPart} (hunique : Collected seen unique)
    (h : Consistent policy (parts.reverse ++ seen)) :
    ∃ unique', parts.foldlM (admitPart debug policy) unique = .ok unique' := by
  induction parts generalizing seen unique with
  | nil => exact ⟨unique, rfl⟩
  | cons part rest ih =>
    have hpart : part ∈ (part :: rest).reverse ++ seen := by simp
    obtain ⟨next, hnext⟩ := admitPart_exists debug hunique (h.accepted part hpart)
      fun a ha heq => h.agree a (by simp [ha]) part hpart heq
    obtain ⟨unique', hrest⟩ := ih (admitPart_ok hunique hnext).1 (by simpa using h)
    exact ⟨unique', by rw [List.foldlM_cons, hnext]; exact hrest⟩

end

theorem Collected.identities {parts parts' unique unique' : List TransportPart}
    (h : Collected parts unique) (h' : Collected parts' unique')
    (hmem : ∀ p, p ∈ parts ↔ p ∈ parts') :
    unique.map identity = unique'.map identity := by
  have hsorted : ∀ {parts unique : List TransportPart}, Collected parts unique →
      (unique.map identity).Pairwise fun a b => a.1 < b.1 := by
    intro parts unique h
    rw [List.pairwise_map]
    exact h.sorted
  have hnodup : ∀ {parts unique : List TransportPart}, Collected parts unique →
      (unique.map identity).Nodup := by
    intro parts unique h
    exact (hsorted h).imp fun hlt heq => absurd (congrArg Prod.fst heq) (ne_of_lt hlt)
  have hsub : ∀ {parts parts' unique unique' : List TransportPart}, Collected parts unique →
      Collected parts' unique' → (∀ p ∈ parts, p ∈ parts') →
      ∀ x ∈ unique.map identity, x ∈ unique'.map identity := by
    intro parts parts' unique unique' h h' hle x hx
    obtain ⟨a, ha, rfl⟩ := List.mem_map.mp hx
    obtain ⟨b, hb, heq⟩ := h.known a ha
    obtain ⟨c, hc, heq'⟩ := h'.complete b (hle b hb)
    exact List.mem_map.mpr ⟨c, hc, heq'.trans heq.symm⟩
  have hperm : (unique.map identity).Perm (unique'.map identity) := by
    rw [List.perm_ext_iff_of_nodup (hnodup h) (hnodup h')]
    exact fun x => ⟨hsub h h' (fun p hp => (hmem p).mp hp) x,
      hsub h' h (fun p hp => (hmem p).mpr hp) x⟩
  exact hperm.eq_of_pairwise (fun a b _ _ hab hba => absurd hba (lt_asymm hab)) (hsorted h)
    (hsorted h')

theorem foldlM_flatten {debug : String → String} {policy : TransportPolicy}
    (artifactParts : List (List TransportPart)) (unique : List TransportPart) :
    artifactParts.foldlM (fun unique parts => parts.foldlM (admitPart debug policy) unique) unique =
      artifactParts.flatten.foldlM (admitPart debug policy) unique := by
  induction artifactParts generalizing unique with
  | nil => rfl
  | cons parts rest ih =>
    rw [List.foldlM_cons, List.flatten_cons, List.foldlM_append]
    simp only [ih]

/-- The reindexed parts depend on the identities only. -/
theorem reindex_eq (unique : List TransportPart) :
    (unique.zipIdx.map fun (part, sequence) => { part with sequence }) =
      (unique.map identity).zipIdx.map fun (kept, sequence) =>
      ⟨sequence, kept.1, kept.2.1, kept.2.2⟩ := by
  rw [List.zipIdx_map, List.map_map]
  rfl

/-- Reordering the parts of a family changes nothing about an accepted plan. -/
theorem planFamily_perm {debug : String → String} {policy : TransportPolicy}
    {artifactParts artifactParts' : List (List TransportPart)} {batches : List PublicationBatchPlan}
    (hperm : artifactParts.flatten.Perm artifactParts'.flatten)
    (h : planFamilyPublicationBatches debug artifactParts policy = .ok batches) :
    planFamilyPublicationBatches debug artifactParts' policy = .ok batches := by
  have hempty : Collected [] [] := ⟨.nil, by simp, by simp⟩
  have hconsistent : Consistent policy [] := ⟨by simp, by simp⟩
  unfold planFamilyPublicationBatches at h ⊢
  obtain ⟨_, hpolicy, h⟩ := bind_eq_ok h
  obtain ⟨unique, hunique, h⟩ := bind_eq_ok h
  obtain ⟨_, hnonempty, h⟩ := bind_eq_ok h
  rw [foldlM_flatten] at hunique
  obtain ⟨hcollected, hcons⟩ := admitParts_ok hempty hconsistent hunique
  have hmem : ∀ p, p ∈ artifactParts.flatten.reverse ++ [] ↔
      p ∈ artifactParts'.flatten.reverse ++ [] := by
    intro p
    simpa using hperm.mem_iff
  have hcons' : Consistent policy (artifactParts'.flatten.reverse ++ []) :=
    ⟨fun p hp => hcons.accepted p ((hmem p).mpr hp),
      fun a ha b hb => hcons.agree a ((hmem a).mpr ha) b ((hmem b).mpr hb)⟩
  obtain ⟨unique', hunique'⟩ := admitParts_exists debug hempty hcons'
  have hcollected' := (admitParts_ok hempty hconsistent hunique').1
  have hidentities := hcollected.identities hcollected' hmem
  have hlength : unique.isEmpty = unique'.isEmpty := by
    have := congrArg List.isEmpty hidentities
    simpa using this
  rw [reindex_eq, hidentities, ← reindex_eq] at h
  rw [hpolicy, ok_bind, foldlM_flatten, hunique', ok_bind, ← hlength, hnonempty, ok_bind]
  exact h

/-- A plan delivers the first part under every path in greedy batches within the limits, and
the plan of a family does not depend on the order of its artifacts or of their parts. -/
theorem publication_batches_planned (debug : String → String) :
    (∀ parts policy batches, planPublicationBatches parts policy = .ok batches →
      Planned policy parts batches) ∧
    ∀ artifactParts artifactParts' policy batches,
      artifactParts.flatten.Perm artifactParts'.flatten →
      planFamilyPublicationBatches debug artifactParts policy = .ok batches →
      planFamilyPublicationBatches debug artifactParts' policy = .ok batches :=
  ⟨fun _ _ _ h => planPublicationBatches_planned h, fun _ _ _ _ hperm h => planFamily_perm hperm h⟩

/-- A part of one letter's digest. -/
def samplePart (sequence : Nat) (path : String) (size : Nat) : TransportPart :=
  ⟨sequence, path, size, ⟨String.ofList (List.replicate 64 'a')⟩⟩

def sampleParts : List TransportPart :=
  [samplePart 0 "b" 4, samplePart 1 "a" 3, samplePart 2 "b" 4, samplePart 3 "c" 2]

theorem sampleParts_runs :
    planPublicationBatches sampleParts ⟨10, 5, 7, 1⟩ =
      .ok [⟨0, 7, [samplePart 0 "b" 4, samplePart 1 "a" 3]⟩, ⟨1, 2, [samplePart 3 "c" 2]⟩] ∧
    planFamilyPublicationBatches id [[samplePart 0 "b" 4, samplePart 1 "a" 3], [samplePart 0 "c" 2]]
      ⟨10, 5, 7, 1⟩ =
      .ok [⟨0, 7, [samplePart 0 "a" 3, samplePart 1 "b" 4]⟩, ⟨1, 2, [samplePart 2 "c" 2]⟩] := by
  decide +kernel

/-- A repeated path is delivered once, a batch closes where the next part does not fit, and the
artifacts of a family may come in another order. -/
theorem publication_batches_planned_sample :
    Planned ⟨10, 5, 7, 1⟩ sampleParts
      [⟨0, 7, [samplePart 0 "b" 4, samplePart 1 "a" 3]⟩, ⟨1, 2, [samplePart 3 "c" 2]⟩] ∧
    planFamilyPublicationBatches id [[samplePart 0 "c" 2], [samplePart 1 "a" 3, samplePart 0 "b" 4]]
      ⟨10, 5, 7, 1⟩ =
      .ok [⟨0, 7, [samplePart 0 "a" 3, samplePart 1 "b" 4]⟩, ⟨1, 2, [samplePart 2 "c" 2]⟩] := by
  obtain ⟨hplanned, hfamily⟩ := publication_batches_planned id
  refine ⟨hplanned _ _ _ sampleParts_runs.1, hfamily _ _ _ _ ?_ sampleParts_runs.2⟩
  exact (@List.perm_append_comm _ [samplePart 0 "b" 4, samplePart 1 "a" 3]
    [samplePart 0 "c" 2]).trans ((List.Perm.swap ..).cons _)

end Xcelerator.Cache.PublicationBatches
