import Mathlib
import Xcelerator.Cache.PrivateCoordination

/-! # Leases fence publishers

Any number of publishers run the operations of the coordination module against
one store, in any order and with any clocks. An accepted operation whose answer
is lost changes the store and leaves the publisher with what it held; a crash
leaves it with nothing. Shard content may also be advanced by others, and the
coordination branch removed by hand.

`log` is the history of accepted coordination operations, newest first. No
function reads it; the results below compare it with the store. -/

namespace Xcelerator.Cache.LeaseFencing
open Xcelerator.Foundations.Machine (ok_bind bind_eq_ok)
open Xcelerator.Foundations.RemoteRefs Xcelerator.Cache.PrivateCoordination

/-! ## The system -/

/-- The shard: its cache branch is not the coordination branch. -/
structure Shard where
  repository : String
  mainBranch : String
  distinct : mainBranch ≠ privateCoordinationBranch

def Shard.main (shard : Shard) : RefName := ⟨shard.repository, shard.mainBranch⟩
def Shard.coordination (shard : Shard) : RefName := ⟨shard.repository, privateCoordinationBranch⟩

structure Publisher where
  owner : LeaseOwner
  transactionHint : String
  policy : LeasePolicy

def Publisher.acquisition (publisher : Publisher) (shard : Shard) : Acquisition where
  repository := shard.repository
  mainBranch := shard.mainBranch
  owner := publisher.owner
  transactionHint := publisher.transactionHint
  policy := publisher.policy

/-- Where a publisher is: in the acquisition loop, between its reads, or with a lease. -/
inductive Local where
  | idle
  | observedMain (mainHead : Revision)
  | observedAbsence (mainHead : Revision) (now : Nat)
  | observedHead (mainHead : Revision) (now : Nat) (head : Revision)
  | holding (lease : Lease)

/-- An accepted operation on the coordination branch. -/
inductive Event (P : Type) where
  | acquired (p : P) (head : Revision) (generation : Nat)
  | renewed (p : P) (head : Revision)
  | batch (p : P) (mainHead head : Revision)
  | released (p : P) (head : Option Revision)
  | removed

namespace Event
variable {P : Type}

/-- Where the coordination branch is after the event. -/
def head : Event P → Option Revision
  | acquired _ head _ | renewed _ head | batch _ _ head => some head
  | released _ head => head
  | removed => none

def publisher : Event P → Option P
  | acquired p _ _ | renewed p _ | batch p _ _ | released p _ => some p
  | removed => none

end Event

section
variable {P : Type}

/-- Who acquired last. -/
def lastAcquirer : List (Event P) → Option P
  | [] => none
  | .acquired p _ _ :: _ => some p
  | _ :: rest => lastAcquirer rest

/-- The generations acquired in the current lifetime of the branch, newest first. -/
def generations : List (Event P) → List Nat
  | [] => []
  | .acquired _ _ generation :: rest => generation :: generations rest
  | .released _ none :: _ => []
  | .removed :: _ => []
  | _ :: rest => generations rest

structure System (P : Type) where
  store : Store
  locals : P → Local
  log : List (Event P)

variable [DecidableEq P]

def System.setLocal (s : System P) (p : P) (l : Local) : System P :=
  { s with locals := Function.update s.locals p l }

def System.accept (s : System P) (p : P) (store : Store) (l : Local) (event : Event P) :
    System P where
  store
  locals := Function.update s.locals p l
  log := event :: s.log

/-- One step of one publisher, of another writer, or of the operator of the remote. -/
inductive Step (shard : Shard) (publishers : P → Publisher) : System P → System P → Prop where
  | readMain {s p mainHead} (hl : s.locals p = .idle)
    (hv : ((publishers p).acquisition shard).validate = .ok ())
    (hr : s.store.refs shard.main = some mainHead) :
    Step shard publishers s (s.setLocal p (.observedMain mainHead))
  | readAbsence {s p mainHead now} (hl : s.locals p = .observedMain mainHead)
    (hr : s.store.refs shard.coordination = none) :
    Step shard publishers s (s.setLocal p (.observedAbsence mainHead now))
  | readHead {s p mainHead now head} (hl : s.locals p = .observedMain mainHead)
    (hr : s.store.refs shard.coordination = some head) :
    Step shard publishers s (s.setLocal p (.observedHead mainHead now head))
  | create {s p mainHead now id store lease} (delivered : Bool)
    (hl : s.locals p = .observedAbsence mainHead now) (hf : s.store.Fresh id)
    (hr : createLease ((publishers p).acquisition shard) s.store mainHead now id =
      .ok (some (store, lease))) :
    Step shard publishers s (s.accept p store (if delivered then .holding lease else .idle)
      (.acquired p id lease.state.fencingGeneration))
  | takeover {s p mainHead now head id store lease} (delivered : Bool)
    (hl : s.locals p = .observedHead mainHead now head) (hf : s.store.Fresh id)
    (hr : takeoverLease ((publishers p).acquisition shard) s.store mainHead now head id =
      .ok (some (store, lease))) :
    Step shard publishers s (s.accept p store (if delivered then .holding lease else .idle)
      (.acquired p id lease.state.fencingGeneration))
  | renew {s p lease observed wallTime id store renewed} (delivered : Bool)
    (hl : s.locals p = .holding lease) (hf : s.store.Fresh id)
    (hr : renewPrivatePublicationLease s.store lease observed (publishers p).policy wallTime id =
      .ok (store, renewed)) :
    Step shard publishers s
      (s.accept p store (.holding (if delivered then renewed else lease)) (.renewed p id))
  | batch {s p lease request wallTime mainId id store renewed} (delivered : Bool)
    (hl : s.locals p = .holding lease) (hm : s.store.Fresh mainId) (hf : s.store.Fresh id)
    (hne : mainId ≠ id)
    (hr : commitPrivateBatchAtomically s.store lease request
      (publishers p).policy wallTime mainId id =
      .ok (store, renewed)) :
    Step shard publishers s
      (s.accept p store (.holding (if delivered then renewed else lease)) (.batch p mainId id))
  | release {s p lease store} (hl : s.locals p = .holding lease)
    (hr : releasePrivatePublicationLease s.store lease = .ok store) :
    Step shard publishers s (s.accept p store (.holding lease) (.released p none))
  | releaseByCommit {s p lease completed now id store} (hl : s.locals p = .holding lease)
    (hf : s.store.Fresh id) (hr : releaseByCommit s.store lease completed now id = .ok store) :
    Step shard publishers s (s.accept p store (.holding lease) (.released p (some id)))
  | setTransactionId {s p lease} (transactionId : String) (hl : s.locals p = .holding lease) :
    Step shard publishers s (s.setLocal p (.holding { lease with
      lock := { lease.lock with publicationTransactionId := transactionId } }))
  | abandon {s p} : Step shard publishers s (s.setLocal p .idle)
  | outside {s head id} (edit : Edit String Document) (hr : s.store.refs shard.main = some head)
    (hf : s.store.Fresh id) :
    Step shard publishers s { s with store := s.store.advance shard.main (some head) edit id }
  | remove {s} :
    Step shard publishers s { s with
      store := { s.store with refs := Function.update s.store.refs shard.coordination none }
      log := .removed :: s.log }

/-- From a shard without a coordination branch and publishers that hold nothing. -/
inductive Reachable (shard : Shard) (publishers : P → Publisher) : System P → Prop where
  | start {store root} (hm : store.refs shard.main = some root)
    (hc : store.refs shard.coordination = none) :
    Reachable shard publishers { store, locals := fun _ => .idle, log := [] }
  | step {s s'} (h : Reachable shard publishers s) (hs : Step shard publishers s s') :
    Reachable shard publishers s'

/-! ## What one operation does -/

theorem createLease_ok {self : Acquisition} {store later : Store} {mainHead id : Revision}
    {now : Nat}
    {lease : Lease} (h : createLease self store mainHead now id = .ok (some (later, lease))) :
    ∃ lock, lease = self.lease id initialState lock ∧ store.refs self.coordination = none ∧
      later = store.advance self.coordination none (leaseParts initialState lock) id := by
  unfold createLease at h
  obtain ⟨lock, _, h⟩ := bind_eq_ok h
  split at h
  · rename_i later' hc
    cases h
    exact ⟨lock, rfl, createIfAbsent_some hc⟩
  · cases h

theorem takeoverRecords_ok {self : Acquisition} {store : Store} {mainHead head : Revision}
    {now : Nat} {state : CoordinationState} {lock : PublicationLock}
    (h : takeoverRecords self store mainHead now head = .ok (some (state, lock))) :
    ∃ old, readState store head = .ok old ∧ state.fencingGeneration =
      old.fencingGeneration + 1 := by
  unfold takeoverRecords at h
  obtain ⟨old, hold, h⟩ := bind_eq_ok h
  obtain ⟨_, _, h⟩ := bind_eq_ok h
  obtain ⟨existing, _, h⟩ := bind_eq_ok h
  obtain ⟨_, _, h⟩ := bind_eq_ok h
  split at h
  · obtain ⟨generation, hgeneration, h⟩ := bind_eq_ok h
    obtain ⟨_, _, h⟩ := bind_eq_ok h
    cases h
    exact ⟨old, hold, checkedAdd_some (require_ok hgeneration)⟩
  · cases h

theorem takeoverLease_ok {self : Acquisition} {store later : Store} {mainHead head id : Revision}
    {now : Nat} {lease : Lease}
    (h : takeoverLease self store mainHead now head id = .ok (some (later, lease))) :
    ∃ state lock old, lease = self.lease id state lock ∧ store.refs self.coordination = some head ∧
      readState store head = .ok old ∧ state.fencingGeneration = old.fencingGeneration + 1 ∧
      later = store.advance self.coordination (some head) (leaseParts state lock) id := by
  unfold takeoverLease at h
  obtain ⟨records, hrecords, h⟩ := bind_eq_ok h
  split at h
  · cases h
  · rename_i state lock
    split at h
    · rename_i later' hc
      cases h
      obtain ⟨old, hold, hgeneration⟩ := takeoverRecords_ok hrecords
      obtain ⟨href, hlater⟩ := compareAndSwap_some hc
      exact ⟨state, lock, old, rfl, href, hold, hgeneration, hlater⟩
    · cases h

/-- The one edit of a renewal: the lock is rewritten. -/
def lockEdit (lock : PublicationLock) : Edit String Document where
  parts := [(privatePublicationLockPath, .lock lock)]
  deletePaths := []

theorem preparePrivateLeaseRenewal_ok {lease : Lease} {observed : Revision} {policy : LeasePolicy}
    {wallTime : Nat} {request : CommitRequest} {renewed : PublicationLock}
    (h : preparePrivateLeaseRenewal lease observed policy wallTime = .ok (request, renewed)) :
    request = ⟨lease.coordination, lease.coordinationHead, lockEdit renewed⟩ := by
  unfold preparePrivateLeaseRenewal at h
  obtain ⟨_, _, h⟩ := bind_eq_ok h
  cases h
  rfl

theorem renew_ok {store later : Store} {lease renewed : Lease} {observed id : Revision}
    {policy : LeasePolicy} {wallTime : Nat}
    (h : renewPrivatePublicationLease store lease observed policy wallTime id =
      .ok (later, renewed)) :
    ∃ lock, renewed = { lease with coordinationHead := id, lock } ∧
      store.refs lease.coordination = some lease.coordinationHead ∧
      later = store.advance lease.coordination (some lease.coordinationHead)
          (lockEdit lock) id := by
  unfold renewPrivatePublicationLease at h
  obtain ⟨⟨request, lock⟩, hprepared, h⟩ := bind_eq_ok h
  obtain ⟨later', hc, h⟩ := bind_eq_ok h
  cases h
  have hrequest := preparePrivateLeaseRenewal_ok hprepared
  obtain ⟨href, hlater⟩ := compareAndSwap_some (require_ok hc)
  rw [hrequest] at href hlater
  exact ⟨lock, rfl, href, hlater⟩

theorem commit_ok {store later : Store} {lease renewed : Lease} {request : CommitRequest}
    {policy : LeasePolicy} {wallTime : Nat} {mainId id : Revision}
    (h : commitPrivateBatchAtomically store lease request policy wallTime mainId id =
      .ok (later, renewed)) :
    ∃ lock written, renewed = { lease with coordinationHead := id, lock } ∧
      request.branch = ⟨lease.repository, lease.mainBranch⟩ ∧ request.branch ≠ lease.coordination ∧
      store.refs request.branch = some request.expectedHead ∧
      store.refs lease.coordination = some lease.coordinationHead ∧
      later = (store.advance request.branch (some request.expectedHead) request.edit mainId).advance
        lease.coordination (some lease.coordinationHead) (lockEdit written) id := by
  unfold commitPrivateBatchAtomically at h
  obtain ⟨_, htarget, h⟩ := bind_eq_ok h
  obtain ⟨⟨coordinationRequest, written⟩, hprepared, h⟩ := bind_eq_ok h
  obtain ⟨later', hc, h⟩ := bind_eq_ok h
  cases h
  have hrequest := preparePrivateLeaseRenewal_ok hprepared
  have htarget := check_ok htarget
  simp only [Bool.or_eq_false_iff, bne_eq_false_iff_eq] at htarget
  obtain ⟨hne, hmain, hcoordination, hlater⟩ := compareAndSwapBoth_some (require_ok hc)
  rw [hrequest] at hne hcoordination hlater
  refine ⟨_, written, rfl, ?_, hne, hmain, hcoordination, hlater⟩
  rw [← htarget.1.1, ← htarget.1.2]

theorem release_ok {store later : Store} {lease : Lease}
    (h : releasePrivatePublicationLease store lease = .ok later) :
    store.refs lease.coordination = some lease.coordinationHead ∧
      later = { store with refs := Function.update store.refs lease.coordination none } := by
  unfold releasePrivatePublicationLease at h
  split at h
  · cases h
  · exact deleteIfHead_some (require_ok h)

/-- The edit of a release by commit. -/
def releaseEdit (state : CoordinationState) : Edit String Document where
  parts := [(privateCoordinationStatePath, .state state)]
  deletePaths := [privatePublicationLockPath]

theorem releaseByCommit_ok {store later : Store} {lease : Lease} {completed : Bool} {now : Nat}
    {id : Revision} (h : PrivateCoordination.releaseByCommit store lease completed now id =
      .ok later) :
    store.refs lease.coordination = some lease.coordinationHead ∧
      later = store.advance lease.coordination (some lease.coordinationHead)
        (releaseEdit (releasedState lease completed now)) id := by
  unfold PrivateCoordination.releaseByCommit at h
  obtain ⟨_, _, h⟩ := bind_eq_ok h
  exact compareAndSwap_some (require_ok h)

/-! ## The stored state -/

theorem readState_extends {store later : Store} (hx : store.Extends later) {head : Revision}
    {state : CoordinationState} (h : readState store head = .ok state) :
    readState later head = .ok state := by
  unfold readState at h ⊢
  split at h
  · rename_i hf
    rw [hx.file_eq hf]
    exact h
  · cases h

/-- A commit that writes the state document stores that state. -/
theorem readState_written {store : Store} {ref : RefName} {parent : Option Revision}
    {edit : Edit String Document} {id : Revision} {state : CoordinationState}
    (h : edit.parts.lookup privateCoordinationStatePath = some (.state state)) :
    readState (store.advance ref parent edit id) id = .ok state := by
  rw [readState, advance_file_self, Edit.apply, h]

/-- A renewal keeps the state document of the commit it is made on. -/
theorem readState_renewed {store : Store} {head : Revision} {state : CoordinationState}
    (ref : RefName)
    (id : Revision) (lock : PublicationLock) (h : readState store head = .ok state) :
    readState (store.advance ref (some head) (lockEdit lock) id) id = .ok state := by
  have hlookup : (lockEdit lock).parts.lookup privateCoordinationStatePath = none := by
    simp [lockEdit, List.lookup, privateCoordinationStatePath, privatePublicationLockPath]
  rw [readState, advance_file_self, Edit.apply, hlookup]
  unfold readState at h
  simpa [lockEdit] using h

end

/-! ## The invariant -/

section
variable {P : Type}
variable {shard : Shard} {publishers : P → Publisher} {s s' : System P}

/-- A lease of `p`: on this shard, at a head `p` itself put there, over the state
stored at it. -/
structure Owned (shard : Shard) (s : System P) (p : P) (lease : Lease) : Prop where
  main_eq : (⟨lease.repository, lease.mainBranch⟩ : RefName) = shard.main
  coordination_eq : lease.coordination = shard.coordination
  event : ∃ e ∈ s.log, e.publisher = some p ∧ e.head = some lease.coordinationHead
  state : readState s.store lease.coordinationHead = .ok lease.state

structure Invariant (shard : Shard) (s : System P) : Prop where
  ref_eq : s.store.refs shard.coordination = s.log.head?.bind Event.head
  known : ∀ e ∈ s.log, ∀ head, e.head = some head → ¬ s.store.Fresh head
  unique : ∀ e ∈ s.log, ∀ e' ∈ s.log, ∀ head, e.head = some head → e'.head = some head → e = e'
  owned : ∀ p lease, s.locals p = .holding lease → Owned shard s p lease
  acquirer : ∀ e rest, s.log = e :: rest → e.head ≠ none → e.publisher = lastAcquirer s.log
  stored : ∀ head, s.store.refs shard.coordination = some head →
    ∃ state, readState s.store head = .ok state ∧
      (generations s.log).head? = some state.fencingGeneration
  increasing : (generations s.log).Pairwise (· > ·)
  main : ∃ head, s.store.refs shard.main = some head
  batches : ∀ p mainHead head, .batch p mainHead head ∈ s.log →
    ∃ current, s.store.refs shard.main = some current ∧ s.store.Ancestor mainHead current

/-- A publisher whose lease is at the coordination head made that head, and is
the last to have acquired. -/
theorem Invariant.holder (hi : Invariant shard s) {p : P} {lease : Lease}
    (hl : s.locals p = .holding lease)
    (hr : s.store.refs shard.coordination = some lease.coordinationHead) :
    ∃ e rest, s.log = e :: rest ∧ e.publisher = some p ∧ e.head = some lease.coordinationHead ∧
      lastAcquirer s.log = some p := by
  obtain ⟨e, he, hp, hh⟩ := (hi.owned p lease hl).event
  have href := hi.ref_eq
  rw [hr] at href
  cases hlog : s.log with
  | nil => rw [hlog] at he; cases he
  | cons newest rest =>
    rw [hlog] at href
    have hnewest : newest.head = some lease.coordinationHead := href.symm
    -- identifiers are never reused, so the newest event is the publisher's own
    obtain rfl : newest = e := hi.unique newest (by simp [hlog]) e he _ hnewest hh
    refine ⟨newest, rest, rfl, hp, hnewest, ?_⟩
    rw [← hlog, ← hi.acquirer newest rest hlog (by simp [hnewest]), hp]

/-- No branch, no generations: a lifetime starts from nothing. -/
theorem Invariant.generations_nil (hi : Invariant shard s)
    (hr : s.store.refs shard.coordination = none) : generations s.log = [] := by
  have href := hi.ref_eq
  rw [hr] at href
  cases hlog : s.log with
  | nil => rfl
  | cons newest rest =>
    rw [hlog] at href
    cases newest with
    | acquired p head generation => cases href
    | renewed p head => cases href
    | batch p mainHead head => cases href
    | released p head =>
      cases head with
      | none => rfl
      | some head => cases href
    | removed => rfl

theorem Owned.later {p : P} {lease : Lease} (ho : Owned shard s p lease)
    (hx : s.store.Extends s'.store) (hlog : ∀ e ∈ s.log, e ∈ s'.log) : Owned shard s' p lease := by
  obtain ⟨e, he, hp, hh⟩ := ho.event
  exact ⟨ho.main_eq, ho.coordination_eq, ⟨e, hlog e he, hp, hh⟩, readState_extends hx ho.state⟩

variable [DecidableEq P]

/-- A step that changes only what a publisher knows. -/
theorem Invariant.setLocal (hi : Invariant shard s) {p : P} {l : Local}
    (hl : ∀ lease, l = .holding lease → Owned shard s p lease) :
    Invariant shard (s.setLocal p l) := by
  refine { hi with owned := fun q lease hq => ?_ }
  by_cases hqp : q = p
  · subst hqp
    have hq : l = .holding lease := by simpa [System.setLocal] using hq
    exact (hl lease hq).later (fun _ _ h => h) (fun _ he => he)
  · have hq : s.locals q = .holding lease := by simpa [System.setLocal, hqp] using hq
    exact (hi.owned q lease hq).later (fun _ _ h => h) (fun _ he => he)

/-- What an accepted operation owes the invariant. -/
structure Accepted (shard : Shard) (s : System P) (p : P) (later : Store) (l : Local)
    (e : Event P) :
    Prop where
  extension : s.store.Extends later
  ref : later.refs shard.coordination = e.head
  fresh : ∀ head, e.head = some head → s.store.Fresh head ∧ ¬ later.Fresh head
  owned : ∀ lease, l = .holding lease → Owned shard (s.accept p later l e) p lease
  acquirer : e.head ≠ none → e.publisher = lastAcquirer (e :: s.log)
  stored : ∀ head, e.head = some head → ∃ state, readState later head = .ok state ∧
    (generations (e :: s.log)).head? = some state.fencingGeneration
  increasing : (generations (e :: s.log)).Pairwise (· > ·)
  main : ∀ head, s.store.refs shard.main = some head →
    ∃ current, later.refs shard.main = some current ∧ later.Ancestor head current
  batch : ∀ q mainHead head, e = .batch q mainHead head → later.refs shard.main = some mainHead

theorem Invariant.accept (hi : Invariant shard s) {p : P} {later : Store} {l : Local} {e : Event P}
    (ha : Accepted shard s p later l e) : Invariant shard (s.accept p later l e) := by
  obtain ⟨root, hroot⟩ := hi.main
  obtain ⟨current, hcurrent, hancestor⟩ := ha.main root hroot
  -- a new head is unlike every recorded one
  have hnew : ∀ e' ∈ s.log, ∀ head, e.head = some head → e'.head ≠ some head := by
    intro e' he' head hh hh'
    exact hi.known e' he' head hh' (ha.fresh head hh).1
  refine ⟨ha.ref, ?_, ?_, ?_, ?_, ?_, ha.increasing, ⟨current, hcurrent⟩, ?_⟩
  · intro e' he' head hh
    rcases List.mem_cons.mp he' with rfl | he'
    · exact (ha.fresh head hh).2
    · exact ha.extension.known (hi.known e' he' head hh)
  · intro e₁ h₁ e₂ h₂ head hh₁ hh₂
    rcases List.mem_cons.mp h₁ with rfl | m₁ <;> rcases List.mem_cons.mp h₂ with rfl | m₂
    · rfl
    · exact absurd hh₂ (hnew e₂ m₂ head hh₁)
    · exact absurd hh₁ (hnew e₁ m₁ head hh₂)
    · exact hi.unique e₁ m₁ e₂ m₂ head hh₁ hh₂
  · intro q lease hq
    by_cases hqp : q = p
    · subst hqp
      exact ha.owned lease (by simpa [System.accept] using hq)
    · have hq : s.locals q = .holding lease := by simpa [System.accept, hqp] using hq
      exact (hi.owned q lease hq).later ha.extension (fun _ he => List.mem_cons_of_mem _ he)
  · intro e' rest hlog hh
    obtain ⟨rfl, rfl⟩ := List.cons.inj hlog
    exact ha.acquirer hh
  · intro head hh
    exact ha.stored head (ha.ref.symm.trans hh)
  · intro q mainHead head hmem
    rcases List.mem_cons.mp hmem with he | hmem
    · exact ⟨mainHead, ha.batch q mainHead head he.symm, .self⟩
    · obtain ⟨old, hold, hmain⟩ := hi.batches q mainHead head hmem
      obtain ⟨new, hnewRef, hnewAncestor⟩ := ha.main old hold
      exact ⟨new, hnewRef, (ha.extension.ancestor hmain).trans hnewAncestor⟩

/-! ## Every step keeps it -/

theorem shard_main_ne (shard : Shard) : shard.main ≠ shard.coordination := by
  intro h
  exact shard.distinct (congrArg RefName.branch h)

/-- A commit on the coordination branch leaves the cache branch where it is. -/
theorem main_kept {store : Store} {parent : Option Revision} {edit : Edit String Document}
    {id head : Revision} (h : store.refs shard.main = some head) :
    ∃ current, (store.advance shard.coordination parent edit id).refs shard.main = some current ∧
      (store.advance shard.coordination parent edit id).Ancestor head current :=
  ⟨head, (advance_refs_of_ne (shard_main_ne shard) _ _ _).trans h, .self⟩

theorem not_fresh_advance {store : Store} {ref : RefName} {parent : Option Revision}
    {edit : Edit String Document} {id : Revision} :
    ¬ (store.advance ref parent edit id).Fresh id := by
  intro h
  rw [Remote.Fresh, advance_commits_self] at h
  cases h

/-- An accepted acquisition, over the parent it was made on. -/
theorem accepted_acquisition {p : P} {parent : Option Revision} {state : CoordinationState}
    {lock : PublicationLock} {id : Revision} (hf : s.store.Fresh id) (delivered : Bool)
    (hfirst : ∀ g ∈ generations s.log, g < state.fencingGeneration)
    (hi : Invariant shard s) :
    Accepted shard s p (s.store.advance shard.coordination parent (leaseParts state lock) id)
      (if delivered then
        .holding (((publishers p).acquisition shard).lease id state lock) else .idle)
      (.acquired p id state.fencingGeneration) := by
  have hstate : readState (s.store.advance shard.coordination parent (leaseParts state lock) id)
    id =
      .ok state := readState_written rfl
  refine ⟨advance_extends hf _ _ _, advance_refs_self _ _ _ _, ?_, ?_, fun _ => rfl, ?_, ?_,
    fun head hh => main_kept hh, nofun⟩
  · rintro head hh
    cases hh
    exact ⟨hf, not_fresh_advance⟩
  · intro lease hlease
    split at hlease
    · cases hlease
      exact ⟨rfl, rfl, ⟨_, List.mem_cons_self, rfl, rfl⟩, hstate⟩
    · cases hlease
  · rintro head hh
    cases hh
    exact ⟨state, hstate, rfl⟩
  · exact List.pairwise_cons.mpr ⟨hfirst, hi.increasing⟩

theorem Invariant.create (hi : Invariant shard s) {p : P} {mainHead id : Revision} {now : Nat}
    {store : Store} {lease : Lease} (delivered : Bool) (hf : s.store.Fresh id)
    (hr : createLease ((publishers p).acquisition shard) s.store mainHead now id =
      .ok (some (store, lease))) :
    Invariant shard (s.accept p store (if delivered then .holding lease else .idle)
      (.acquired p id lease.state.fencingGeneration)) := by
  obtain ⟨lock, rfl, habsent, rfl⟩ := createLease_ok hr
  refine hi.accept (accepted_acquisition hf delivered ?_ hi)
  rw [hi.generations_nil habsent]
  exact nofun

theorem Invariant.takeover (hi : Invariant shard s) {p : P} {mainHead head id : Revision}
    {now : Nat} {store : Store} {lease : Lease} (delivered : Bool) (hf : s.store.Fresh id)
    (hr : takeoverLease ((publishers p).acquisition shard) s.store mainHead now head id =
      .ok (some (store, lease))) :
    Invariant shard (s.accept p store (if delivered then .holding lease else .idle)
      (.acquired p id lease.state.fencingGeneration)) := by
  obtain ⟨state, lock, old, rfl, href, hold, hgeneration, rfl⟩ := takeoverLease_ok hr
  refine hi.accept (accepted_acquisition hf delivered ?_ hi)
  -- the generation read at the head is the newest of the lifetime
  obtain ⟨stored, hstored, hnewest⟩ := hi.stored head href
  obtain rfl : old = stored := Except.ok.inj (hold.symm.trans hstored)
  have hsorted := hi.increasing
  cases hg : generations s.log with
  | nil => exact nofun
  | cons newest rest =>
    rw [hg] at hnewest hsorted
    obtain rfl : newest = old.fencingGeneration := Option.some.inj hnewest
    intro g hmem
    rcases List.mem_cons.mp hmem with rfl | hmem
    · omega
    · have := (List.pairwise_cons.mp hsorted).1 g hmem
      omega

/-- An accepted operation of the holder that leaves a new head on the branch. -/
theorem accepted_held (hi : Invariant shard s) {p : P} {lease : Lease} {l : Local} {id : Revision}
    {later : Store} {e : Event P} (hl : s.locals p = .holding lease)
    (href : s.store.refs shard.coordination = some lease.coordinationHead)
    (hx : s.store.Extends later) (hf : s.store.Fresh id) (hknown : ¬ later.Fresh id)
    (hhead : e.head = some id) (hrefLater : later.refs shard.coordination = some id)
    (hpublisher : e.publisher = some p) (hacquirer : lastAcquirer (e :: s.log) = lastAcquirer s.log)
    (hgenerations : generations (e :: s.log) = generations s.log)
    (hstate : ∃ state, readState later id = .ok state ∧
      state.fencingGeneration = lease.state.fencingGeneration)
    (howned : ∀ lease, l = .holding lease → Owned shard (s.accept p later l e) p lease)
    (hmain : ∀ head, s.store.refs shard.main = some head →
      ∃ current, later.refs shard.main = some current ∧ later.Ancestor head current)
    (hbatch : ∀ q mainHead head, e = .batch q mainHead head →
      later.refs shard.main = some mainHead) :
    Accepted shard s p later l e := by
  obtain ⟨-, -, -, -, -, hlast⟩ := hi.holder hl href
  refine ⟨hx, hrefLater.trans hhead.symm, ?_, howned, ?_, ?_, ?_, hmain, hbatch⟩
  · rintro head hh
    cases hhead.symm.trans hh
    exact ⟨hf, hknown⟩
  · intro _
    rw [hpublisher, hacquirer, hlast]
  · rintro head hh
    cases hhead.symm.trans hh
    obtain ⟨state, hread, hgeneration⟩ := hstate
    obtain ⟨stored, hstored, hnewest⟩ := hi.stored _ href
    obtain rfl : lease.state = stored :=
      Except.ok.inj ((hi.owned p lease hl).state.symm.trans hstored)
    exact ⟨state, hread, by rw [hgenerations, hnewest, hgeneration]⟩
  · rw [hgenerations]
    exact hi.increasing

theorem Invariant.renew (hi : Invariant shard s) {p : P} {lease renewed : Lease}
    {observed id : Revision} {policy : LeasePolicy} {wallTime : Nat} {store : Store}
    (delivered : Bool) (hl : s.locals p = .holding lease) (hf : s.store.Fresh id)
    (hr : renewPrivatePublicationLease s.store lease observed policy wallTime id =
      .ok (store, renewed)) :
    Invariant shard
      (s.accept p store (.holding (if delivered then renewed else lease)) (.renewed p id)) := by
  have ho := hi.owned p lease hl
  obtain ⟨lock, rfl, href, rfl⟩ := renew_ok hr
  rw [ho.coordination_eq] at href ⊢
  have hx := advance_extends hf shard.coordination (some lease.coordinationHead) (lockEdit lock)
  have hread := readState_renewed shard.coordination id lock ho.state
  refine hi.accept (accepted_held hi hl href hx hf not_fresh_advance rfl (advance_refs_self _ _ _ _)
    rfl rfl rfl ⟨_, hread, rfl⟩ ?_ (fun head hh => main_kept hh) nofun)
  rintro held ⟨⟩
  cases delivered with
  | false => exact ho.later hx fun _ he => List.mem_cons_of_mem _ he
  | true => exact ⟨ho.main_eq, ho.coordination_eq, ⟨_, List.mem_cons_self, rfl, rfl⟩, hread⟩

theorem Invariant.batch (hi : Invariant shard s) {p : P} {lease renewed : Lease}
    {request : CommitRequest} {policy : LeasePolicy} {wallTime : Nat} {mainId id : Revision}
    {store : Store} (delivered : Bool) (hl : s.locals p = .holding lease)
    (hm : s.store.Fresh mainId) (hf : s.store.Fresh id) (hne : mainId ≠ id)
    (hr : commitPrivateBatchAtomically s.store lease request policy wallTime mainId id =
      .ok (store, renewed)) :
    Invariant shard
      (s.accept p store (.holding (if delivered then renewed else lease))
      (.batch p mainId id)) := by
  have ho := hi.owned p lease hl
  obtain ⟨lock, written, rfl, hbranch, -, hmain, href, rfl⟩ := commit_ok hr
  rw [hbranch, ho.main_eq] at hmain
  rw [ho.coordination_eq] at href
  rw [hbranch, ho.main_eq, ho.coordination_eq]
  -- the cache branch first, then the renewal on top of it
  have hx₁ := advance_extends hm shard.main (some request.expectedHead) request.edit
  have hf₂ := hf.advance hne.symm shard.main (some request.expectedHead) request.edit
  have hx₂ := advance_extends hf₂ shard.coordination (some lease.coordinationHead)
    (lockEdit written)
  have hread := readState_renewed shard.coordination id written (readState_extends hx₁ ho.state)
  have hmainRef : ((s.store.advance shard.main (some request.expectedHead) request.edit
    mainId).advance
      shard.coordination (some lease.coordinationHead) (lockEdit written) id).refs shard.main =
        some mainId := by
    rw [advance_refs_of_ne (shard_main_ne shard), advance_refs_self]
  refine hi.accept (accepted_held hi hl href (fun _ _ h =>
    hx₂ _ _ (hx₁ _ _ h)) hf not_fresh_advance rfl
    (advance_refs_self _ _ _ _) rfl rfl rfl ⟨_, hread, rfl⟩ ?_ ?_ ?_)
  · rintro held ⟨⟩
    cases delivered with
    | false =>
      exact ho.later (fun _ _ h => hx₂ _ _ (hx₁ _ _ h)) fun _ he => List.mem_cons_of_mem _ he
    | true => exact ⟨ho.main_eq, ho.coordination_eq, ⟨_, List.mem_cons_self, rfl, rfl⟩, hread⟩
  · intro head hh
    obtain rfl : request.expectedHead = head := Option.some.inj (hmain.symm.trans hh)
    exact ⟨mainId, hmainRef, hx₂.ancestor (advance_ancestor _ _)⟩
  · rintro q mainHead head ⟨⟩
    exact hmainRef

theorem Invariant.releaseByCommit (hi : Invariant shard s) {p : P} {lease : Lease}
    {completed : Bool}
    {now : Nat} {id : Revision} {store : Store} (hl : s.locals p = .holding lease)
    (hf : s.store.Fresh id)
    (hr : PrivateCoordination.releaseByCommit s.store lease completed now id = .ok store) :
    Invariant shard (s.accept p store (.holding lease) (.released p (some id))) := by
  have ho := hi.owned p lease hl
  obtain ⟨href, rfl⟩ := releaseByCommit_ok hr
  rw [ho.coordination_eq] at href ⊢
  have hx := advance_extends hf shard.coordination (some lease.coordinationHead)
    (releaseEdit (releasedState lease completed now))
  refine hi.accept (accepted_held hi hl href hx hf not_fresh_advance rfl (advance_refs_self _ _ _ _)
    rfl rfl rfl ⟨_, readState_written rfl, rfl⟩ ?_ (fun head hh => main_kept hh) nofun)
  rintro held ⟨⟩
  exact ho.later hx fun _ he => List.mem_cons_of_mem _ he

omit [DecidableEq P] in
/-- Deletion of the coordination branch, by its holder or by hand. -/
theorem Invariant.deleted (hi : Invariant shard s) {e : Event P} (hhead : e.head = none)
    (hgenerations : generations (e :: s.log) = []) (hbatch : ∀ q m h, e ≠ .batch q m h) :
    Invariant shard { s with
      store := { s.store with refs := Function.update s.store.refs shard.coordination none }
      log := e :: s.log } := by
  have hmain : Function.update s.store.refs shard.coordination none shard.main =
      s.store.refs shard.main := Function.update_of_ne (shard_main_ne shard) _ _
  have hx : s.store.Extends
      { s.store with refs := Function.update s.store.refs shard.coordination none } := fun _ _ h =>
        h
  refine ⟨?_, ?_, ?_, ?_, ?_, ?_, ?_, ?_, ?_⟩
  · exact (Function.update_self _ _ _).trans hhead.symm
  · intro e' he' head hh
    rcases List.mem_cons.mp he' with rfl | he'
    · rw [hhead] at hh
      cases hh
    · exact hi.known e' he' head hh
  · intro e₁ h₁ e₂ h₂ head hh₁ hh₂
    rcases List.mem_cons.mp h₁ with rfl | m₁
    · rw [hhead] at hh₁
      cases hh₁
    · rcases List.mem_cons.mp h₂ with rfl | m₂
      · rw [hhead] at hh₂
        cases hh₂
      · exact hi.unique e₁ m₁ e₂ m₂ head hh₁ hh₂
  · intro q lease hq
    exact (hi.owned q lease hq).later hx fun _ he => List.mem_cons_of_mem _ he
  · intro e' rest hlog hh
    obtain ⟨rfl, rfl⟩ := List.cons.inj hlog
    exact absurd hhead hh
  · intro head hh
    exact absurd ((Function.update_self _ _ _).symm.trans hh) nofun
  · rw [hgenerations]
    exact .nil
  · obtain ⟨head, hh⟩ := hi.main
    exact ⟨head, hmain.trans hh⟩
  · intro q mainHead head hmem
    rcases List.mem_cons.mp hmem with he | hmem
    · exact absurd he.symm (hbatch q mainHead head)
    · obtain ⟨current, hcurrent, hancestor⟩ := hi.batches q mainHead head hmem
      exact ⟨current, hmain.trans hcurrent, hx.ancestor hancestor⟩

theorem Invariant.release (hi : Invariant shard s) {p : P} {lease : Lease} {store : Store}
    (hl : s.locals p = .holding lease)
    (hr : releasePrivatePublicationLease s.store lease = .ok store) :
    Invariant shard (s.accept p store (.holding lease) (.released p none)) := by
  obtain ⟨-, rfl⟩ := release_ok hr
  have hsame : Function.update s.locals p (.holding lease) = s.locals := by
    rw [← hl, Function.update_eq_self]
  rw [System.accept, (hi.owned p lease hl).coordination_eq, hsame]
  exact hi.deleted (e := .released p none) rfl rfl nofun

omit [DecidableEq P] in
/-- Another writer's commit on the cache branch. -/
theorem Invariant.outside (hi : Invariant shard s) {head id : Revision}
    (edit : Edit String Document)
    (hr : s.store.refs shard.main = some head) (hf : s.store.Fresh id) :
    Invariant shard { s with store := s.store.advance shard.main (some head) edit id } := by
  have hx := advance_extends hf shard.main (some head) edit
  have hcoordination : (s.store.advance shard.main (some head) edit id).refs shard.coordination =
      s.store.refs shard.coordination := advance_refs_of_ne (shard_main_ne shard).symm _ _ _
  refine ⟨hcoordination.trans hi.ref_eq, fun e he h hh => hx.known (hi.known e he h hh), hi.unique,
    fun q lease hq => (hi.owned q lease hq).later hx fun _ he => he, hi.acquirer, ?_, hi.increasing,
    ⟨id, advance_refs_self _ _ _ _⟩, ?_⟩
  · intro h hh
    obtain ⟨state, hstate, hnewest⟩ := hi.stored h (hcoordination.symm.trans hh)
    exact ⟨state, readState_extends hx hstate, hnewest⟩
  · intro q mainHead h hmem
    obtain ⟨current, hcurrent, hancestor⟩ := hi.batches q mainHead h hmem
    obtain rfl : head = current := Option.some.inj (hr.symm.trans hcurrent)
    exact ⟨id, advance_refs_self _ _ _ _, (hx.ancestor hancestor).trans (advance_ancestor _ _)⟩

theorem Invariant.step (hi : Invariant shard s) (h : Step shard publishers s s') :
    Invariant shard s' := by
  cases h with
  | readMain hl hv hr => exact hi.setLocal nofun
  | readAbsence hl hr => exact hi.setLocal nofun
  | readHead hl hr => exact hi.setLocal nofun
  | create delivered hl hf hr => exact hi.create delivered hf hr
  | takeover delivered hl hf hr => exact hi.takeover delivered hf hr
  | renew delivered hl hf hr => exact hi.renew delivered hl hf hr
  | batch delivered hl hm hf hne hr => exact hi.batch delivered hl hm hf hne hr
  | release hl hr => exact hi.release hl hr
  | releaseByCommit hl hf hr => exact hi.releaseByCommit hl hf hr
  | setTransactionId transactionId hl =>
    have ho := hi.owned _ _ hl
    refine hi.setLocal fun retitled h => ?_
    cases h
    exact ⟨ho.main_eq, ho.coordination_eq, ho.event, ho.state⟩
  | abandon => exact hi.setLocal nofun
  | outside edit hr hf => exact hi.outside edit hr hf
  | remove => exact hi.deleted (e := .removed) rfl rfl nofun

theorem Reachable.invariant (h : Reachable shard publishers s) : Invariant shard s := by
  induction h with
  | start hm hc => exact ⟨hc, nofun, nofun, nofun, nofun, by simp [hc], .nil, ⟨_, hm⟩, nofun⟩
  | step _ hs ih => exact ih.step hs

/-! ## The results -/

/-- **Fencing.** In every reachable state:

* a leased batch is accepted only while the coordination branch is exactly at
  the head of the publisher's own lease, the newest accepted operation on it
  being the publisher's, and nobody else having acquired since;
* after somebody else's acquisition neither renewal, batch nor release of the
  old lease succeeds;
* every accepted batch stays in the history of the cache branch;
* the generations acquired in one lifetime of the branch increase strictly, and
  the stored one is the newest. -/
theorem lease_fencing (shard : Shard) (publishers : P → Publisher) (s : System P)
    (h : Reachable shard publishers s) :
    (∀ p lease request policy wallTime mainId id later renewed, s.locals p = .holding lease →
      commitPrivateBatchAtomically s.store lease request policy wallTime mainId id =
        .ok (later, renewed) →
      s.store.refs shard.coordination = some lease.coordinationHead ∧
      (∃ e rest, s.log = e :: rest ∧ e.publisher = some p ∧ e.head = some lease.coordinationHead) ∧
      lastAcquirer s.log = some p ∧
      s.store.refs shard.main = some request.expectedHead ∧ later.refs shard.main = some mainId) ∧
    (∀ p lease, s.locals p = .holding lease → lastAcquirer s.log ≠ some p →
      (∀ observed policy wallTime id out,
        renewPrivatePublicationLease s.store lease observed policy wallTime id ≠ .ok out) ∧
      (∀ request policy wallTime mainId id out,
        commitPrivateBatchAtomically s.store lease request policy wallTime mainId id ≠ .ok out) ∧
      (∀ out, releasePrivatePublicationLease s.store lease ≠ .ok out) ∧
      ∀ completed now id out,
        PrivateCoordination.releaseByCommit s.store lease completed now id ≠ .ok out) ∧
    (∀ p mainHead head, .batch p mainHead head ∈ s.log →
      ∃ current, s.store.refs shard.main = some current ∧ s.store.Ancestor mainHead current) ∧
    (generations s.log).Pairwise (· > ·) ∧
    ∀ head, s.store.refs shard.coordination = some head → ∃ state,
      readState s.store head = .ok state ∧
        (generations s.log).head? = some state.fencingGeneration := by
  have hi := h.invariant
  -- an operation that found the branch at the head of a lease of `p` found `p` the last to acquire
  have hlast : ∀ p lease, s.locals p = .holding lease →
      s.store.refs lease.coordination = some lease.coordinationHead →
      lastAcquirer s.log = some p := by
    intro p lease hl hr
    rw [(hi.owned p lease hl).coordination_eq] at hr
    obtain ⟨-, -, -, -, -, hlast⟩ := hi.holder hl hr
    exact hlast
  refine ⟨?_, ?_, hi.batches, hi.increasing, hi.stored⟩
  · intro p lease request policy wallTime mainId id later renewed hl hr
    have ho := hi.owned p lease hl
    obtain ⟨lock, written, rfl, hbranch, -, hmain, href, rfl⟩ := commit_ok hr
    rw [hbranch, ho.main_eq] at hmain
    rw [ho.coordination_eq] at href
    obtain ⟨e, rest, hlog, hp, hh, hacquirer⟩ := hi.holder hl href
    refine ⟨href, ⟨e, rest, hlog, hp, hh⟩, hacquirer, hmain, ?_⟩
    rw [hbranch, ho.main_eq, ho.coordination_eq, advance_refs_of_ne (shard_main_ne shard),
      advance_refs_self]
  · intro p lease hl hne
    refine ⟨?_, ?_, ?_, ?_⟩
    · rintro observed policy wallTime id ⟨later, renewed⟩ hr
      obtain ⟨-, -, href, -⟩ := renew_ok hr
      exact hne (hlast p lease hl href)
    · rintro request policy wallTime mainId id ⟨later, renewed⟩ hr
      obtain ⟨-, -, -, -, -, -, href, -⟩ := commit_ok hr
      exact hne (hlast p lease hl href)
    · intro later hr
      exact hne (hlast p lease hl (release_ok hr).1)
    · intro completed now id later hr
      exact hne (hlast p lease hl (releaseByCommit_ok hr).1)

end

/-! ## A takeover -/

def sampleShard : Shard := ⟨"repository", "main", by decide⟩

def samplePublisher (p : Bool) : Publisher where
  owner := ⟨if p then "second" else "first", "principal", ⟨String.ofList (List.replicate 64 'a')⟩,
    1⟩
  transactionHint := "transaction"
  policy := ⟨60, 0, 1, 1, 1⟩

def rootRevision : Revision := String.ofList (List.replicate 40 '0')

def sampleStore : Store where
  refs ref := if ref = sampleShard.main then some rootRevision else none
  commits id := if id = rootRevision then some ⟨none, fun _ => none⟩ else none

def sampleLock (p : Bool) (generation now : Nat) : PublicationLock where
  schemaVersion := 1
  ownerRunId := if p then "second" else "first"
  publicationTransactionId := "transaction"
  githubPrincipal := "principal"
  toolkitVersion := "0.17.0"
  instanceFingerprint := ⟨String.ofList (List.replicate 64 'a')⟩
  processId := 1
  fencingGeneration := generation
  observedMainHead := rootRevision
  acquiredAtUnixSeconds := now
  heartbeatAtUnixSeconds := now
  leaseExpiresAtUnixSeconds := now + 60

def createdStore : Store :=
  sampleStore.advance sampleShard.coordination none
    (leaseParts initialState (sampleLock false 1 1)) "first"

def firstLease : Lease :=
  ((samplePublisher false).acquisition sampleShard).lease "first" initialState
    (sampleLock false 1 1)

def secondState : CoordinationState := { initialState with fencingGeneration := 2 }

def takenStore : Store :=
  createdStore.advance sampleShard.coordination (some "first")
    (leaseParts secondState (sampleLock true 2 100)) "second"

def secondLease : Lease :=
  ((samplePublisher true).acquisition sampleShard).lease "second" secondState
    (sampleLock true 2 100)

theorem createLease_sample :
    createLease ((samplePublisher false).acquisition sampleShard) sampleStore rootRevision
      1 "first" =
      .ok (some (createdStore, firstLease)) := by
  have hlock : lockRecord (samplePublisher false).owner "transaction" 1 rootRevision 1 1
      (samplePublisher false).policy = .ok (sampleLock false 1 1) := by decide +kernel
  rw [createLease]
  change (lockRecord (samplePublisher false).owner "transaction" 1 rootRevision 1 1
      (samplePublisher false).policy >>= _) = _
  rw [hlock]
  rfl

theorem takeoverLease_sample :
    takeoverLease ((samplePublisher true).acquisition sampleShard) createdStore rootRevision
      100 "first"
      "second" = .ok (some (takenStore, secondLease)) := by
  have hrecords : takeoverRecords ((samplePublisher true).acquisition sampleShard) createdStore
      rootRevision 100 "first" = .ok (some (secondState, sampleLock true 2 100)) :=
        by decide +kernel
  rw [takeoverLease, hrecords]
  rfl

/-- The first lease expires and is taken over: its holder can do nothing with it. -/
theorem lease_fencing_takeover :
    ∃ s, Reachable sampleShard samplePublisher s ∧ s.locals false = .holding firstLease ∧
      generations s.log = [2, 1] ∧
      (∀ out, releasePrivatePublicationLease s.store firstLease ≠ .ok out) ∧
      ∃ state, readState s.store "second" = .ok state ∧ state.fencingGeneration = 2 := by
  have h₀ : Reachable sampleShard samplePublisher
      { store := sampleStore, locals := fun _ => .idle, log := [] } := .start rfl rfl
  have h₁ := h₀.step (.readMain (p := false) rfl (by decide +kernel) rfl)
  have h₂ := h₁.step (@Step.readAbsence _ _ _ _ _ false _ 1 rfl rfl)
  have h₃ := h₂.step (.create (p := false) true rfl (show Remote.Fresh _ "first" from rfl)
    createLease_sample)
  have h₄ := h₃.step (.readMain (p := true) rfl (by decide +kernel) rfl)
  have h₅ := h₄.step (@Step.readHead _ _ _ _ _ true _ 100 "first" rfl rfl)
  have h₆ := h₅.step (.takeover (p := true) true rfl (show Remote.Fresh _ "second" from rfl)
    takeoverLease_sample)
  have hall := lease_fencing sampleShard samplePublisher _ h₆
  refine ⟨_, h₆, rfl, rfl, (hall.2.1 false firstLease rfl (by decide)).2.2.1, ?_⟩
  obtain ⟨state, hstate, hgeneration⟩ := hall.2.2.2.2 "second" rfl
  exact ⟨state, hstate, (Option.some.inj hgeneration).symm⟩

end Xcelerator.Cache.LeaseFencing
