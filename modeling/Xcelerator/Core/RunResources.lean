import Mathlib
import Xcelerator.Foundations.Machine

/-! # The run-resource ledger

Retained, working and independent byte reservations of one run, shared by any
number of threads. Every operation is one critical section of the ledger's
mutex, so an interleaving is a sequence of critical sections. A blocked
`reserve` holds no lock: each wake-up, spurious ones included, is another pass
through the body of its loop. A reservation grows only by taking a further one.

Byte counters are `u64` and their arithmetic is checked. A reservation holds a
counted reference to its ledger, so the number of live ones stays far below the
range of `usize`, and the per-owner counts are natural numbers. -/

namespace Xcelerator.Core.RunResources
open Xcelerator.Foundations.Machine

variable {T : Type} [DecidableEq T]

/-! ## The ledger -/

/-- The counters behind the mutex; `owners` maps a thread to its entry. -/
structure Usage (T : Type) where
  retained : Nat
  working : Nat
  independent : Nat
  peak : Nat
  owners : T → Option Nat

structure Ledger (T : Type) where
  maximumBytes : Nat
  workerLimit : Nat
  usage : Usage T
  cancelled : Bool

def withWorkerLimit (maximumBytes workerLimit : UInt64) : Except String (Ledger T) :=
  if workerLimit = 0 then .error "run worker limit must be positive"
  else if maximumBytes = 0 then .error "run memory budget must be positive"
  else .ok
    { maximumBytes := maximumBytes.toNat
      workerLimit := workerLimit.toNat
      usage := { retained := 0, working := 0, independent := 0, peak := 0, owners := fun _ => none }
      cancelled := false }

inductive Reservation (T : Type) where
  | memory (bytes : Nat) (working : Bool) (owner : T)
  | independent (bytes : Nat)
deriving DecidableEq

/-- A call of `reserve`; `waiting` is the view that waits for independent tasks. -/
structure Request where
  bytes : Nat
  working : Bool
  wait : Bool
  waiting : Bool
deriving DecidableEq

inductive Outcome (T : Type) where
  | admitted (reservation : Reservation T)
  | refused (message : String)
  | blocked

def cancelledMessage : String := "run work cancelled by owner"

/-- The counters after admitting `request` on top of `used` bytes. -/
def chargeMemory (u : Usage T) (request : Request) (owner : T) (used : Nat) :
    Checked (Usage T) := do
  let total ← unsigned 64 (used + request.bytes)
  if request.working then
    let working ← unsigned 64 (u.working + request.bytes)
    return { u with
      working
      owners := Function.update u.owners owner (some ((u.owners owner).getD 0 + 1))
      peak := max u.peak total }
  else
    let retained ← unsigned 64 (u.retained + request.bytes)
    return { u with retained, peak := max u.peak total }

/-- Whether the release of independent tasks alone would admit the request. -/
def independentCanAdmit (ledger : Ledger T) (request : Request) (used : Nat) : Checked Bool :=
  if request.waiting && 0 < ledger.usage.independent then do
    let foreground ← subtract used ledger.usage.independent
    let room ← subtract ledger.maximumBytes foreground
    return request.bytes ≤ room
  else return false

/-- One pass through the loop of `reserve`. -/
def reservePass (ledger : Ledger T) (request : Request) (owner : T) :
    Checked (Ledger T × Outcome T) :=
  let u := ledger.usage
  if ledger.cancelled then return (ledger, .refused cancelledMessage)
  else do
    let used ← unsigned 64 (u.retained + u.working)
    let room ← subtract ledger.maximumBytes used
    if request.bytes ≤ room then
      let usage ← chargeMemory u request owner used
      return ({ ledger with usage }, .admitted (.memory request.bytes request.working owner))
    else
      let independent ← independentCanAdmit ledger request used
      if !independent && (!request.wait || (u.owners owner).isSome || u.working == 0 ||
          request.bytes > ledger.maximumBytes - u.retained) then
        return (ledger, .refused
          s!"run memory budget exceeded: requested={request.bytes}, retained={u.retained}, working={u.working}, maximum={ledger.maximumBytes}")
      else return (ledger, .blocked)

def independentMessage : String := "independent task exceeds available run budget"

def tryReserveIndependent (ledger : Ledger T) (bytes : Nat) : Checked (Ledger T × Outcome T) :=
  let u := ledger.usage
  if ledger.cancelled then return (ledger, .refused cancelledMessage)
  else do
    let used ← unsigned 64 (u.retained + u.working)
    if bytes = 0 then return (ledger, .refused independentMessage)
    else
      let room ← subtract ledger.maximumBytes used
      if room < bytes then return (ledger, .refused independentMessage)
      else
        let working ← unsigned 64 (u.working + bytes)
        let independent ← unsigned 64 (u.independent + bytes)
        let total ← unsigned 64 (used + bytes)
        return ({ ledger with usage := { u with working, independent, peak := max u.peak total } },
          .admitted (.independent bytes))

/-- `expect("reservation owner")`. -/
def expectOwner : Option Nat → Checked Nat
  | some count => .ok count
  | none => .error .failedAssertion

/-- `Drop`, of either kind of reservation. -/
def release (u : Usage T) : Reservation T → Checked (Usage T)
  | .memory bytes true owner => do
    let working ← subtract u.working bytes
    let count ← expectOwner (u.owners owner)
    let count ← subtract count 1
    return { u with working, owners := Function.update u.owners owner (if count = 0 then none else
      some count) }
  | .memory bytes false _ => do
    let retained ← subtract u.retained bytes
    return { u with retained }
  | .independent bytes => do
    let working ← subtract u.working bytes
    let independent ← subtract u.independent bytes
    return { u with working, independent }

/-! ## Interleavings -/

/-- The ledger, the live reservations and the threads blocked in `reserve`. -/
structure System (T : Type) where
  ledger : Ledger T
  live : List (Reservation T)
  blocked : T → Option Request

/-- One critical section of the thread named in it. -/
inductive Event (T : Type) where
  | reserve (thread : T) (request : Request)
  | wake (thread : T)
  | reserveIndependent (thread : T) (bytes : Nat)
  | drop (thread : T) (reservation : Reservation T)
  | cancel (thread : T)

/-- A blocked thread can only wake, byte counts are `u64`, and only a live
reservation can be dropped. -/
def enabled (s : System T) : Event T → Prop
  | .reserve thread request => s.blocked thread = none ∧ request.bytes < 2 ^ 64
  | .wake thread => ∃ request, s.blocked thread = some request
  | .reserveIndependent thread bytes => s.blocked thread = none ∧ bytes < 2 ^ 64
  | .drop thread reservation => s.blocked thread = none ∧ reservation ∈ s.live
  | .cancel thread => s.blocked thread = none

/-- What the caller of a pass is left with. -/
def settle (s : System T) (thread : T) (request : Request) (ledger : Ledger T) :
    Outcome T → System T
  | .admitted reservation =>
    { ledger, live := reservation :: s.live, blocked := Function.update s.blocked thread none }
  | .refused _ => { s with ledger, blocked := Function.update s.blocked thread none }
  | .blocked => { s with ledger, blocked := Function.update s.blocked thread (some request) }

def passOf (s : System T) (thread : T) (request : Request) : Checked (System T) := do
  let pass ← reservePass s.ledger request thread
  return settle s thread request pass.1 pass.2

def step (s : System T) : Event T → Checked (System T)
  | .reserve thread request => passOf s thread request
  | .wake thread =>
    match s.blocked thread with
    | some request => passOf s thread request
    | none => .ok s
  | .reserveIndependent thread bytes => do
    let pass ← tryReserveIndependent s.ledger bytes
    return settle s thread ⟨bytes, true, false, false⟩ pass.1 pass.2
  | .drop _ reservation => do
    let usage ← release s.ledger.usage reservation
    return { s with ledger := { s.ledger with usage }, live := s.live.erase reservation }
  | .cancel _ => .ok { s with ledger := { s.ledger with cancelled := true } }

def Next (s s' : System T) : Prop := ∃ event, enabled s event ∧ step s event = .ok s'

/-- A run of the threads from a fresh ledger. -/
def Reachable (ledger : Ledger T) (s : System T) : Prop :=
  Relation.ReflTransGen Next ⟨ledger, [], fun _ => none⟩ s

/-! ## Accounting -/

namespace Reservation

def retainedBytes : Reservation T → Nat
  | memory bytes false _ => bytes
  | _ => 0

/-- Bytes charged as working: those of working and of independent reservations. -/
def workingBytes : Reservation T → Nat
  | memory bytes true _ => bytes
  | memory _ false _ => 0
  | independent bytes => bytes

def independentBytes : Reservation T → Nat
  | independent bytes => bytes
  | memory .. => 0

/-- A working reservation of `owner`. -/
def workingOf (owner : T) : Reservation T → Bool
  | memory _ true holder => holder = owner
  | _ => false

end Reservation

open Reservation

/-- The owner's entry: its number of live working reservations, no entry for none. -/
def ownerEntry (live : List (Reservation T)) (owner : T) : Option Nat :=
  if live.countP (workingOf owner) = 0 then none else some (live.countP (workingOf owner))

/-- The counters agree with the live reservations. -/
structure Accounted (u : Usage T) (live : List (Reservation T)) : Prop where
  retained : u.retained = (live.map retainedBytes).sum
  working : u.working = (live.map workingBytes).sum
  independent : u.independent = (live.map independentBytes).sum
  owners : ∀ owner, u.owners owner = ownerEntry live owner

/-- The counters stay within the budget and the peak covers them. -/
structure Bounded (ledger : Ledger T) : Prop where
  maximum_lt : ledger.maximumBytes < 2 ^ 64
  used_le_peak : ledger.usage.retained + ledger.usage.working ≤ ledger.usage.peak
  peak_le : ledger.usage.peak ≤ ledger.maximumBytes

structure Inv (s : System T) : Prop where
  accounted : Accounted s.ledger.usage s.live
  bounded : Bounded s.ledger

omit [DecidableEq T] in
theorem independentBytes_le (r : Reservation T) : r.independentBytes ≤ r.workingBytes := by
  rcases r with ⟨bytes, _ | _, owner⟩ | bytes <;> simp [independentBytes, workingBytes]

theorem Accounted.independent_le {u : Usage T} {live : List (Reservation T)}
    (h : Accounted u live) :
    u.independent ≤ u.working := by
  rw [h.independent, h.working]
  exact List.sum_le_sum fun r _ => independentBytes_le r

/-- Admission of a request, the only outcome that changes a counter. -/
theorem chargeMemory_ok {u : Usage T} {request : Request} {owner : T} {maximum : Nat}
    (hmax : maximum < 2 ^ 64) (hfit : u.retained + u.working + request.bytes ≤ maximum) :
    chargeMemory u request owner (u.retained + u.working) = .ok
      (if request.working then
        { u with
          working := u.working + request.bytes
          owners := Function.update u.owners owner (some ((u.owners owner).getD 0 + 1))
          peak := max u.peak (u.retained + u.working + request.bytes) }
      else
        { u with
          retained := u.retained + request.bytes
          peak := max u.peak (u.retained + u.working + request.bytes) }) := by
  unfold chargeMemory
  rw [unsigned_ok (by omega), ok_bind]
  split
  · rw [unsigned_ok (by omega)]
    rfl
  · rw [unsigned_ok (by omega)]
    rfl

theorem Accounted.charge {u : Usage T} {live : List (Reservation T)} (h : Accounted u live)
    (request : Request) (owner : T) (peak : Nat) :
    Accounted
      (if request.working then
        { u with
          working := u.working + request.bytes
          owners := Function.update u.owners owner (some ((u.owners owner).getD 0 + 1))
          peak := peak }
      else { u with retained := u.retained + request.bytes, peak := peak })
      (.memory request.bytes request.working owner :: live) := by
  obtain ⟨bytes, working, wait, waiting⟩ := request
  cases working with
  | false =>
    refine ⟨?_, ?_, ?_, fun t => ?_⟩
    · simp [h.retained, retainedBytes, Nat.add_comm]
    · simp [h.working, workingBytes]
    · simp [h.independent, independentBytes]
    · simp [h.owners t, ownerEntry, workingOf]
  | true =>
    refine ⟨?_, ?_, ?_, fun t => ?_⟩
    · simp [h.retained, retainedBytes]
    · simp [h.working, workingBytes, Nat.add_comm]
    · simp [h.independent, independentBytes]
    · have hcount : (u.owners owner).getD 0 = live.countP (workingOf owner) := by
        rw [h.owners owner, ownerEntry]
        split
        · rename_i hzero
          exact hzero.symm
        · rfl
      by_cases ht : t = owner
      · subst ht
        simp [ownerEntry, workingOf, hcount]
      · simp [h.owners t, ownerEntry, workingOf, Function.update_of_ne ht, Ne.symm ht]

theorem Accounted.chargeIndependent {u : Usage T} {live : List (Reservation T)}
    (h : Accounted u live) (bytes peak : Nat) :
    Accounted { u with working := u.working + bytes, independent :=
      u.independent + bytes, peak := peak }
      (.independent bytes :: live) := by
  refine ⟨?_, ?_, ?_, fun t => ?_⟩
  · simp [h.retained, retainedBytes]
  · simp [h.working, workingBytes, Nat.add_comm]
  · simp [h.independent, independentBytes, Nat.add_comm]
  · simp [h.owners t, ownerEntry, workingOf]

/-- The shares of a live reservation in every counter. -/
theorem Accounted.split {u : Usage T} {live : List (Reservation T)} (h : Accounted u live)
    {r : Reservation T} (hr : r ∈ live) :
    u.retained = r.retainedBytes + ((live.erase r).map retainedBytes).sum ∧
      u.working = r.workingBytes + ((live.erase r).map workingBytes).sum ∧
      u.independent = r.independentBytes + ((live.erase r).map independentBytes).sum ∧
      ∀ owner, live.countP (workingOf owner) =
        (live.erase r).countP (workingOf owner) + if workingOf owner r then 1 else 0 := by
  have hperm := List.perm_cons_erase hr
  refine ⟨?_, ?_, ?_, fun owner => ?_⟩
  · rw [h.retained, (hperm.map _).sum_eq, List.map_cons, List.sum_cons]
  · rw [h.working, (hperm.map _).sum_eq, List.map_cons, List.sum_cons]
  · rw [h.independent, (hperm.map _).sum_eq, List.map_cons, List.sum_cons]
  · rw [hperm.countP_eq, List.countP_cons]

/-- Dropping a live reservation never underflows and gives back its share. -/
theorem release_ok {u : Usage T} {live : List (Reservation T)} (h : Accounted u live)
    {r : Reservation T} (hr : r ∈ live) :
    ∃ u', release u r = .ok u' ∧ Accounted u' (live.erase r) ∧ u'.peak = u.peak ∧
      u'.retained + u'.working ≤ u.retained + u.working := by
  obtain ⟨hret, hwork, hind, hcount⟩ := h.split hr
  rcases r with ⟨bytes, _ | _, owner⟩ | bytes
  · simp only [retainedBytes, workingBytes, independentBytes, Nat.zero_add] at hret hwork hind
    have hrun : release u (.memory bytes false owner) =
        .ok { u with retained := u.retained - bytes } := by
      rw [release, subtract_ok (by omega)]
      rfl
    refine ⟨_, hrun, ⟨by simp [hret], hwork, hind, fun t => ?_⟩, rfl, by simp⟩
    simpa [ownerEntry, hcount t, workingOf] using h.owners t
  · simp only [retainedBytes, workingBytes, independentBytes, Nat.zero_add] at hret hwork hind
    have hown : u.owners owner = some ((live.erase (.memory bytes true owner)).countP
        (workingOf owner) + 1) := by
      rw [h.owners owner, ownerEntry, hcount owner]
      simp [workingOf]
    have hrun : release u (.memory bytes true owner) = .ok { u with
        working := u.working - bytes
        owners := Function.update u.owners owner
          (ownerEntry (live.erase (.memory bytes true owner)) owner) } := by
      rw [release, subtract_ok (by omega), ok_bind, hown, expectOwner, ok_bind,
        subtract_ok (by omega)]
      rfl
    refine ⟨_, hrun, ⟨hret, by simp [hwork], hind, fun t => ?_⟩, rfl, by simp⟩
    by_cases ht : t = owner
    · subst ht
      exact Function.update_self ..
    · simpa [ownerEntry, hcount t, workingOf, Function.update_of_ne ht, Ne.symm ht] using h.owners t
  · simp only [retainedBytes, workingBytes, independentBytes, Nat.zero_add] at hret hwork hind
    have hrun : release u (.independent bytes) =
        .ok { u with working := u.working - bytes, independent := u.independent - bytes } := by
      rw [release, subtract_ok (by omega), ok_bind, subtract_ok (by omega)]
      rfl
    refine ⟨_, hrun, ⟨hret, by simp [hwork], by simp [hind], fun t => ?_⟩, rfl, by simp⟩
    simpa [ownerEntry, hcount t, workingOf] using h.owners t

/-- All a critical section that reserves can do: it admits, or it changes nothing. -/
def Admission (ledger : Ledger T) (live : List (Reservation T)) (ledger' : Ledger T) :
    Outcome T → Prop
  | .admitted r => Accounted ledger'.usage (r :: live) ∧ Bounded ledger' ∧
      ledger.usage.peak ≤ ledger'.usage.peak ∧ ledger'.maximumBytes = ledger.maximumBytes
  | _ => ledger' = ledger

theorem independentCanAdmit_ok {ledger : Ledger T} {live : List (Reservation T)}
    (ha : Accounted ledger.usage live) (hb : Bounded ledger) (request : Request) :
    ∃ fits, independentCanAdmit ledger request (ledger.usage.retained + ledger.usage.working) =
      .ok fits := by
  have hle := ha.independent_le
  have hused := hb.used_le_peak.trans hb.peak_le
  unfold independentCanAdmit
  split
  · rw [subtract_ok (by omega), ok_bind, subtract_ok (by omega)]
    exact ⟨_, rfl⟩
  · exact ⟨_, rfl⟩

theorem reservePass_ok {ledger : Ledger T} {live : List (Reservation T)}
    (ha : Accounted ledger.usage live) (hb : Bounded ledger) (request : Request) (owner : T) :
    ∃ pass, reservePass ledger request owner = .ok pass ∧ Admission ledger live pass.1 pass.2 := by
  have hused := hb.used_le_peak.trans hb.peak_le
  have hmax := hb.maximum_lt
  unfold reservePass
  dsimp only
  split
  · exact ⟨_, rfl, rfl⟩
  rw [unsigned_ok (by omega), ok_bind, subtract_ok hused, ok_bind]
  split
  · rename_i hfit
    have hle : ledger.usage.retained + ledger.usage.working + request.bytes ≤
        ledger.maximumBytes := by
      omega
    rw [chargeMemory_ok hmax hle]
    refine ⟨_, rfl, ha.charge request owner _, ?_, ?_, rfl⟩
    · cases request.working
      · exact ⟨hmax, by simp; omega, by simpa using ⟨hb.peak_le, hle⟩⟩
      · exact ⟨hmax, by simp; omega, by simpa using ⟨hb.peak_le, hle⟩⟩
    · cases request.working <;> simp
  · obtain ⟨fits, hfits⟩ := independentCanAdmit_ok ha hb request
    rw [hfits, ok_bind]
    split
    · exact ⟨_, rfl, rfl⟩
    · exact ⟨_, rfl, rfl⟩

theorem tryReserveIndependent_ok {ledger : Ledger T} {live : List (Reservation T)}
    (ha : Accounted ledger.usage live) (hb : Bounded ledger) (bytes : Nat) :
    ∃ pass, tryReserveIndependent ledger bytes = .ok pass ∧
    Admission ledger live pass.1 pass.2 := by
  have hused := hb.used_le_peak.trans hb.peak_le
  have hmax := hb.maximum_lt
  have hind := ha.independent_le
  unfold tryReserveIndependent
  dsimp only
  split
  · exact ⟨_, rfl, rfl⟩
  rw [unsigned_ok (by omega), ok_bind]
  split
  · exact ⟨_, rfl, rfl⟩
  rw [subtract_ok hused, ok_bind]
  split
  · exact ⟨_, rfl, rfl⟩
  · rename_i hroom
    have hle : ledger.usage.retained + ledger.usage.working + bytes ≤ ledger.maximumBytes :=
      by omega
    rw [unsigned_ok (by omega), ok_bind, unsigned_ok (by omega), ok_bind, unsigned_ok (by omega),
      ok_bind]
    refine ⟨_, rfl, ha.chargeIndependent bytes _, ⟨hmax, by simp; omega, ?_⟩, by simp, rfl⟩
    simpa using ⟨hb.peak_le, hle⟩

/-! ## Runs -/

/-- What one critical section keeps. -/
structure Keeps (s s' : System T) : Prop where
  inv : Inv s'
  peak : s.ledger.usage.peak ≤ s'.ledger.usage.peak
  maximum : s'.ledger.maximumBytes = s.ledger.maximumBytes

theorem settle_keeps {s : System T} (h : Inv s) {ledger : Ledger T} {outcome : Outcome T}
    (hpass : Admission s.ledger s.live ledger outcome) (thread : T) (request : Request) :
    Keeps s (settle s thread request ledger outcome) := by
  cases outcome with
  | admitted reservation =>
    obtain ⟨ha, hb, hpeak, hmax⟩ := hpass
    exact ⟨⟨ha, hb⟩, hpeak, hmax⟩
  | refused message =>
    cases hpass
    exact ⟨⟨h.accounted, h.bounded⟩, le_rfl, rfl⟩
  | blocked =>
    cases hpass
    exact ⟨⟨h.accounted, h.bounded⟩, le_rfl, rfl⟩

theorem passOf_keeps {s : System T} (h : Inv s) (thread : T) (request : Request) :
    ∃ s', passOf s thread request = .ok s' ∧ Keeps s s' := by
  obtain ⟨pass, hpass, hadmission⟩ := reservePass_ok h.accounted h.bounded request thread
  refine ⟨_, by rw [passOf, hpass]; rfl, settle_keeps h hadmission thread request⟩

/-- No critical section fails, and each keeps the accounting. -/
theorem step_keeps {s : System T} (h : Inv s) {event : Event T} (he : enabled s event) :
    ∃ s', step s event = .ok s' ∧ Keeps s s' := by
  cases event with
  | reserve thread request => exact passOf_keeps h thread request
  | wake thread =>
    obtain ⟨request, hrequest⟩ := he
    obtain ⟨s', hs', hkeeps⟩ := passOf_keeps h thread request
    exact ⟨s', by rw [step, hrequest]; exact hs', hkeeps⟩
  | reserveIndependent thread bytes =>
    obtain ⟨pass, hpass, hadmission⟩ := tryReserveIndependent_ok h.accounted h.bounded bytes
    exact ⟨_, by rw [step, hpass]; rfl, settle_keeps h hadmission thread _⟩
  | drop thread reservation =>
    obtain ⟨u, hu, haccounted, hpeak, hle⟩ := release_ok h.accounted he.2
    have hrun : step s (.drop thread reservation) = .ok
        { s with
          ledger := { s.ledger with usage := u }
          live := s.live.erase reservation } := by
      rw [step, hu]
      rfl
    refine ⟨_, hrun, ⟨haccounted, h.bounded.maximum_lt, ?_, ?_⟩, hpeak.ge, rfl⟩
    · exact (hle.trans h.bounded.used_le_peak).trans hpeak.ge
    · exact hpeak.le.trans h.bounded.peak_le
  | cancel thread =>
    exact ⟨_, rfl, ⟨h.accounted, h.bounded.maximum_lt, h.bounded.used_le_peak, h.bounded.peak_le⟩,
      le_rfl, rfl⟩

theorem next_keeps {s s' : System T} (h : Inv s) (hnext : Next s s') : Keeps s s' := by
  obtain ⟨event, he, hstep⟩ := hnext
  obtain ⟨s'', hs'', hkeeps⟩ := step_keeps h he
  rw [hstep] at hs''
  cases hs''
  exact hkeeps

theorem run_keeps {s s' : System T} (h : Inv s) (hrun : Relation.ReflTransGen Next s s') :
    Keeps s s' := by
  induction hrun with
  | refl => exact ⟨h, le_rfl, rfl⟩
  | tail _ hnext ih =>
    have hkeeps := next_keeps ih.inv hnext
    exact ⟨hkeeps.inv, ih.peak.trans hkeeps.peak, hkeeps.maximum.trans ih.maximum⟩

theorem fresh_inv {maximumBytes workerLimit : UInt64} {ledger : Ledger T}
    (h : withWorkerLimit maximumBytes workerLimit = .ok ledger) :
    Inv ⟨ledger, [], fun _ => none⟩ ∧ ledger.maximumBytes = maximumBytes.toNat := by
  unfold withWorkerLimit at h
  split at h
  · cases h
  split at h
  · cases h
  cases h
  exact ⟨⟨⟨rfl, rfl, rfl, fun _ => rfl⟩, maximumBytes.toNat_lt, Nat.zero_le _, Nat.zero_le _⟩, rfl⟩

/-- The accounting of a ledger in every state any interleaving reaches. -/
theorem ledger_accounting {maximumBytes workerLimit : UInt64} {ledger : Ledger T}
    (hnew : withWorkerLimit maximumBytes workerLimit = .ok ledger) {s : System T}
    (hs : Reachable ledger s) :
    s.ledger.usage.retained + s.ledger.usage.working ≤ maximumBytes.toNat ∧
    s.ledger.usage.working = (s.live.map workingBytes).sum ∧
    s.ledger.usage.retained = (s.live.map retainedBytes).sum ∧
    (∀ owner, s.ledger.usage.owners owner = ownerEntry s.live owner) ∧
    (∀ earlier, Reachable ledger earlier → Relation.ReflTransGen Next earlier s →
      earlier.ledger.usage.retained + earlier.ledger.usage.working ≤ s.ledger.usage.peak) ∧
    s.ledger.usage.peak ≤ maximumBytes.toNat ∧
    (∀ event, enabled s event → ∃ s', step s event = .ok s') ∧
    (s.live = [] → s.ledger.usage.retained = 0 ∧ s.ledger.usage.working = 0 ∧
      s.ledger.usage.independent = 0 ∧ ∀ owner, s.ledger.usage.owners owner = none) := by
  obtain ⟨hinv, hmax⟩ := fresh_inv hnew
  have hkeeps := run_keeps hinv hs
  have ha := hkeeps.inv.accounted
  have hb := hkeeps.inv.bounded
  have hmaximum : s.ledger.maximumBytes = maximumBytes.toNat := hkeeps.maximum.trans hmax
  rw [← hmaximum]
  refine ⟨hb.used_le_peak.trans hb.peak_le, ha.working, ha.retained, ha.owners, ?_,
    hb.peak_le, ?_, ?_⟩
  · intro earlier hearlier hlater
    have hstart := (run_keeps hinv hearlier).inv
    exact hstart.bounded.used_le_peak.trans (run_keeps hstart hlater).peak
  · intro event he
    obtain ⟨s', hstep, -⟩ := step_keeps hkeeps.inv he
    exact ⟨s', hstep⟩
  · intro hlive
    rw [hlive] at ha
    exact ⟨ha.retained, ha.working, ha.independent, ha.owners⟩

/-- The thread a reservation was made by. -/
def Reservation.holder : Reservation T → Option T
  | memory _ _ owner => some owner
  | independent _ => none

def sampleLedger : Ledger Nat :=
  ⟨100, 1, { retained := 0, working := 0, independent := 0, peak := 0, owners := fun _ => none },
    false⟩

/-- One thread has reserved 40 retained bytes. -/
def sampleSystem : System Nat :=
  ⟨⟨100, 1, { retained := 40, working := 0, independent := 0, peak := 40, owners := fun _ => none },
    false⟩, [.memory 40 false 7], Function.update (fun _ => none) 7 none⟩

theorem Reachable.next {ledger : Ledger T} {s s' : System T} (hs : Reachable ledger s)
    (event : Event T)
    (henabled : enabled s event) (hstep : step s event = .ok s') : Reachable ledger s' :=
  hs.tail ⟨event, henabled, hstep⟩

theorem sampleSystem_reachable : Reachable sampleLedger sampleSystem :=
  Reachable.next .refl (.reserve 7 ⟨40, false, false, false⟩) ⟨rfl, by norm_num⟩ rfl

/-- A working request of the second thread, which waits. -/
def sampleRequest : Request := ⟨20, true, true, false⟩

/-- Then it has taken 30 working bytes, another thread 20 independent ones, and that thread waits
for 20 more. -/
def crowdedSystem : System Nat :=
  ⟨⟨100, 1,
      { retained := 40, working := 50, independent := 20, peak := 90
        owners := Function.update (fun _ => none) 7 (some 1) }, false⟩,
    [.independent 20, .memory 30 true 7, .memory 40 false 7],
    Function.update (Function.update sampleSystem.blocked 7 none) 9 (some sampleRequest)⟩

theorem crowdedSystem_reachable : Reachable sampleLedger crowdedSystem := by
  have hworking := sampleSystem_reachable.next (.reserve 7 ⟨30, true, false, false⟩) ⟨rfl, by
    norm_num⟩ rfl
  have hindependent := hworking.next (.reserveIndependent 9 20) ⟨rfl, by norm_num⟩ rfl
  refine hindependent.next (.reserve 9 sampleRequest) ⟨rfl, by decide⟩ ?_
  change Except.ok _ = Except.ok _
  congr 1
  simp [settle, crowdedSystem, sampleSystem]

/-- The first thread has dropped its working bytes, and the second one was admitted. -/
def admittedSystem : System Nat :=
  ⟨⟨100, 1,
      { retained := 40, working := 40, independent := 20, peak := 90
        owners := Function.update (Function.update crowdedSystem.ledger.usage.owners 7 none) 9
          (some 1) }, false⟩,
    [.memory 20 true 9, .independent 20, .memory 40 false 7],
    Function.update crowdedSystem.blocked 9 none⟩

theorem admittedSystem_later : Relation.ReflTransGen Next crowdedSystem admittedSystem := by
  have hdropped : Relation.ReflTransGen Next crowdedSystem _ :=
    .single ⟨.drop 7 (.memory 30 true 7), ⟨rfl, by decide⟩, rfl⟩
  exact hdropped.tail ⟨.wake 9, ⟨sampleRequest, rfl⟩, rfl⟩

/-- Every reservation is dropped. -/
def emptySystem : System Nat :=
  ⟨⟨100, 1,
      { retained := 0, working := 0, independent := 0, peak := 90
        owners := Function.update admittedSystem.ledger.usage.owners 9 none }, false⟩,
    [], admittedSystem.blocked⟩

theorem emptySystem_later : Relation.ReflTransGen Next admittedSystem emptySystem := by
  have hworking : Relation.ReflTransGen Next admittedSystem _ :=
    .single ⟨.drop 9 (.memory 20 true 9), ⟨rfl, by decide⟩, rfl⟩
  have hindependent := hworking.tail ⟨.drop 9 (.independent 20), ⟨rfl, by decide⟩, rfl⟩
  exact hindependent.tail ⟨.drop 7 (.memory 40 false 7), ⟨rfl, by decide⟩, rfl⟩

/-- Two threads with retained, working and independent bytes, a wait, and the drops of all. -/
theorem ledger_accounting_sample :
    (admittedSystem.ledger.usage.retained + admittedSystem.ledger.usage.working ≤
      (100 : UInt64).toNat ∧
      admittedSystem.ledger.usage.working = (admittedSystem.live.map workingBytes).sum ∧
      admittedSystem.ledger.usage.owners 9 = ownerEntry admittedSystem.live 9 ∧
      crowdedSystem.ledger.usage.retained + crowdedSystem.ledger.usage.working ≤
        admittedSystem.ledger.usage.peak ∧
      ∃ s', step admittedSystem (.cancel 7) = .ok s') ∧
    emptySystem.ledger.usage.owners 9 = none := by
  have hnew : withWorkerLimit 100 1 = .ok sampleLedger := rfl
  have hadmitted : Reachable sampleLedger admittedSystem :=
    crowdedSystem_reachable.trans admittedSystem_later
  obtain ⟨hbudget, hworking, -, howners, hpeak, -, hsteps, -⟩ := ledger_accounting hnew hadmitted
  obtain ⟨-, -, -, -, -, -, -, hempty⟩ := ledger_accounting hnew (hadmitted.trans emptySystem_later)
  exact ⟨⟨hbudget, hworking, howners 9,
    hpeak crowdedSystem crowdedSystem_reachable admittedSystem_later,
    hsteps (.cancel 7) rfl⟩, (hempty rfl).2.2.2 9⟩

/-- A retained reservation names its thread but has no entry among the owners. -/
theorem retained_owner_uncounted :
    ¬ ∀ s : System Nat, Reachable sampleLedger s → ∀ owner,
      (s.ledger.usage.owners owner).getD 0 = s.live.countP fun r => r.holder = some owner := by
  intro h
  have := h sampleSystem sampleSystem_reachable 7
  revert this
  decide

end Xcelerator.Core.RunResources
