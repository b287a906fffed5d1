import Mathlib
import Xcelerator.Foundations.Machine
import Xcelerator.Cache.Basic

/-! # The lifecycle of an artifact

Completion, assurance and publication of one artifact. The operations take the
state by `&mut`, so each returns the state it leaves behind together with its
result: a failed operation is one whose state is compared with the one before.
The publication map has two keys and is a function of the destination. -/

namespace Xcelerator.Cache.Artifact
open Xcelerator.Foundations.Machine (ok_bind bind_eq_ok forM_ok_iff)

/-! ## The state -/

inductive ArtifactCompletionState where
  | planned
  | inProgress
  | partialResult
  | complete
  | failed
  | abandoned
deriving DecidableEq, Repr

inductive ArtifactAssuranceState where
  | unchecked
  | structurallyValidated
  | computed
  | crossChecked
  | certified
deriving DecidableEq, Repr

namespace ArtifactAssuranceState

def rank : ArtifactAssuranceState → Nat
  | unchecked => 0
  | structurallyValidated => 1
  | computed => 2
  | crossChecked => 3
  | certified => 4

theorem rank_injective : Function.Injective rank := by
  intro a b h
  cases a <;> cases b <;> first | rfl | cases h

/-- The derived order. -/
instance : LinearOrder ArtifactAssuranceState := LinearOrder.lift' rank rank_injective

def debug : ArtifactAssuranceState → String
  | unchecked => "Unchecked"
  | structurallyValidated => "StructurallyValidated"
  | computed => "Computed"
  | crossChecked => "CrossChecked"
  | certified => "Certified"

end ArtifactAssuranceState

inductive ArtifactDisposition where
  | active
  | deprecated
  | quarantined
  | revoked
deriving DecidableEq, Repr

inductive ArtifactLocationKind where
  | process
  | workstation
  | projectPrivate
  | teamPrivate
  | publicShard
  | exportBundle
deriving DecidableEq, Repr

structure ArtifactLocation where
  kind : ArtifactLocationKind
  locator : String
  verified : Bool
deriving DecidableEq, Repr

inductive PublicationTargetState where
  | planned
  | uploading
  | batchVerified
  | remoteVerified
  | receiptComplete
  | failed
  | abandoned
deriving DecidableEq, Repr

def PublicationTargetState.debug : PublicationTargetState → String
  | planned => "Planned"
  | uploading => "Uploading"
  | batchVerified => "BatchVerified"
  | remoteVerified => "RemoteVerified"
  | receiptComplete => "ReceiptComplete"
  | failed => "Failed"
  | abandoned => "Abandoned"

def currentDebug : Option PublicationTargetState → String
  | none => "None"
  | some state => "Some(" ++ state.debug ++ ")"

structure AssuranceTransition where
  source : ArtifactAssuranceState
  target : ArtifactAssuranceState
  evidenceDigest : ContentDigest
deriving DecidableEq, Repr

structure ArtifactState where
  completion : ArtifactCompletionState
  achievedAssurance : ArtifactAssuranceState
  disposition : ArtifactDisposition
  locations : List ArtifactLocation
  publication : PublicationDestination → Option PublicationTargetState
  assuranceHistory : List AssuranceTransition

/-! ## Validation -/

/-- The loop over the history, from the level reached so far. -/
def historyEnd (previous : ArtifactAssuranceState) :
    List AssuranceTransition → Result ArtifactAssuranceState
  | [] => .ok previous
  | transition :: rest => do
    check (transition.target ≤ transition.source || !transition.evidenceDigest.validate ||
        previous != transition.source)
      (.invalidManifest "assurance history must be increasing, connected and digest-bound")
    historyEnd transition.target rest

def publicationStarted : PublicationTargetState → Bool
  | .uploading | .batchVerified | .remoteVerified | .receiptComplete => true
  | _ => false

def ArtifactState.checkPublication (self : ArtifactState) (state : PublicationTargetState) :
    Result Unit := do
  check (publicationStarted state && self.completion != .complete)
    (.invalidManifest "publication may not advance before artifact completion")
  check (state == .receiptComplete && self.disposition != .active)
    (.invalidManifest "a non-active artifact may not acquire a completed publication receipt")

/-- `publication.values()`, in key order. -/
def ArtifactState.publicationValues (self : ArtifactState) : List PublicationTargetState :=
  [PublicationDestination.privateShard, .publicShard].filterMap self.publication

def ArtifactState.validate (self : ArtifactState) : Result Unit := do
  check (self.achievedAssurance == .certified && self.completion != .complete)
    (.invalidManifest "Certified assurance requires a complete artifact")
  check (self.achievedAssurance != .unchecked && self.assuranceHistory.isEmpty)
    (.invalidManifest "achieved assurance requires a recorded evidence transition")
  let previous ← historyEnd .unchecked self.assuranceHistory
  check (previous != self.achievedAssurance)
    (.invalidManifest "assurance history does not end at achieved assurance")
  self.locations.forM fun location =>
    check (blank location.locator)
      (.invalidManifest "artifact location must have a nonempty locator")
  self.publicationValues.forM self.checkPublication

/-! ## Operations -/

/-- The tests of `promote_assurance`, before it writes. -/
def ArtifactState.promotionAllowed (self : ArtifactState) (next : ArtifactAssuranceState)
    (evidenceDigest : ContentDigest) : Result Unit := do
  self.validate
  check (!evidenceDigest.validate)
    (.invalidTransition "assurance transition evidence digest is invalid")
  check (next ≤ self.achievedAssurance)
    (.invalidTransition
      s!"assurance must increase from {self.achievedAssurance.debug}, got {next.debug}")
  check (next == .certified && self.completion != .complete)
    (.invalidTransition "Certified assurance requires a complete artifact")

def ArtifactState.promoteAssurance (self : ArtifactState) (next : ArtifactAssuranceState)
    (evidenceDigest : ContentDigest) : ArtifactState × Result Unit :=
  match self.promotionAllowed next evidenceDigest with
  | .error error => (self, .error error)
  | .ok _ =>
    ({ self with
        achievedAssurance := next
        assuranceHistory := self.assuranceHistory ++
          [⟨self.achievedAssurance, next, evidenceDigest⟩] },
      .ok ())

def publicationAllowed : Option PublicationTargetState → PublicationTargetState → Bool
  | none, .planned => true
  | some .planned, .uploading => true
  | some .uploading, .batchVerified => true
  | some .batchVerified, .uploading => true
  | some .batchVerified, .remoteVerified => true
  | some .remoteVerified, .receiptComplete => true
  | some .failed, .planned => true
  | current, next => current == some next || next == .failed || next == .abandoned

/-- `insert` and `remove` of the map. -/
def ArtifactState.setPublication (self : ArtifactState) (destination : PublicationDestination)
    (state : Option PublicationTargetState) : ArtifactState :=
  { self with publication := Function.update self.publication destination state }

def ArtifactState.transitionPublication (self : ArtifactState)
    (destination : PublicationDestination)
    (next : PublicationTargetState) : ArtifactState × Result Unit :=
  let current := self.publication destination
  if publicationAllowed current next then
    let written := self.setPublication destination (some next)
    match written.validate with
    | .error error => (written.setPublication destination current, .error error)
    | .ok _ => (written, .ok ())
  else
    (self, .error (.invalidTransition
      s!"publication {destination.debug} may not move from {currentDebug current} to {next.debug}"))

inductive Operation where
  | promoteAssurance (next : ArtifactAssuranceState) (evidenceDigest : ContentDigest)
  | transitionPublication (destination : PublicationDestination) (next : PublicationTargetState)

def ArtifactState.apply (self : ArtifactState) : Operation → ArtifactState × Result Unit
  | .promoteAssurance next evidenceDigest => self.promoteAssurance next evidenceDigest
  | .transitionPublication destination next => self.transitionPublication destination next

/-- The state after a sequence of operations, failed ones included. -/
def ArtifactState.run (self : ArtifactState) (operations : List Operation) : ArtifactState :=
  operations.foldl (fun state operation => (state.apply operation).1) self

/-! ## What validation says -/

/-- A connected, strictly increasing chain of evidenced transitions. -/
def EvidencedChain (first : ArtifactAssuranceState) :
    List AssuranceTransition → ArtifactAssuranceState → Prop
  | [], last => first = last
  | transition :: rest, last => transition.source = first ∧ first < transition.target ∧
      transition.evidenceDigest.validate = true ∧ EvidencedChain transition.target rest last

theorem EvidencedChain.append {first middle last : ArtifactAssuranceState}
    {earlier later : List AssuranceTransition} (h : EvidencedChain first earlier middle)
    (h' : EvidencedChain middle later last) : EvidencedChain first (earlier ++ later) last := by
  induction earlier generalizing first with
  | nil => cases h; exact h'
  | cons transition rest ih => exact ⟨h.1, h.2.1, h.2.2.1, ih h.2.2.2⟩

theorem EvidencedChain.le {first last : ArtifactAssuranceState} {history : List AssuranceTransition}
    (h : EvidencedChain first history last) : first ≤ last := by
  induction history generalizing first with
  | nil => exact le_of_eq h
  | cons transition rest ih => exact h.2.1.le.trans (ih h.2.2.2)

theorem check_iff {condition : Bool} {error : CacheError} {u : Unit} :
    check condition error = .ok u ↔ condition = false := by
  cases condition <;> simp [check]

theorem bind_ok_iff {α β : Type} {x : Result α} {f : α → Result β} {b : β} :
    x >>= f = .ok b ↔ ∃ a, x = .ok a ∧ f a = .ok b := by
  refine ⟨bind_eq_ok, ?_⟩
  rintro ⟨a, rfl, h⟩
  exact h

theorem historyEnd_iff {first last : ArtifactAssuranceState} {history : List AssuranceTransition} :
    historyEnd first history = .ok last ↔ EvidencedChain first history last := by
  induction history generalizing first with
  | nil => simp [historyEnd, EvidencedChain]
  | cons transition rest ih =>
    constructor
    · intro h
      obtain ⟨_, hcheck, hrest⟩ := bind_eq_ok h
      have hc := check_ok hcheck
      simp only [Bool.or_eq_false_iff, decide_eq_false_iff_not, not_le, Bool.not_eq_false',
        bne_eq_false_iff_eq] at hc
      obtain ⟨⟨hlt, hdigest⟩, rfl⟩ := hc
      exact ⟨rfl, hlt, hdigest, ih.mp hrest⟩
    · rintro ⟨rfl, hlt, hdigest, h⟩
      have hc : check (transition.target ≤ transition.source ||
          !transition.evidenceDigest.validate || transition.source != transition.source)
          (.invalidManifest "assurance history must be increasing, connected and digest-bound") =
          .ok () := by
        rw [check_iff]
        simpa [hdigest] using hlt
      rw [historyEnd, hc, ok_bind]
      exact ih.mpr h

structure Valid (s : ArtifactState) : Prop where
  certified : s.achievedAssurance = .certified → s.completion = .complete
  history : EvidencedChain .unchecked s.assuranceHistory s.achievedAssurance
  locations : ∀ location ∈ s.locations, blank location.locator = false
  publication : ∀ destination state, s.publication destination = some state →
    s.checkPublication state = .ok ()

theorem publicationValues_iff {s : ArtifactState} {P : PublicationTargetState → Prop} :
    (∀ state ∈ s.publicationValues, P state) ↔
      ∀ destination state, s.publication destination = some state → P state := by
  constructor
  · intro h destination state hstate
    refine h state (List.mem_filterMap.mpr ⟨destination, ?_, hstate⟩)
    cases destination <;> simp
  · intro h state hstate
    obtain ⟨destination, -, hd⟩ := List.mem_filterMap.mp hstate
    exact h destination state hd

theorem validate_iff {s : ArtifactState} : s.validate = .ok () ↔ Valid s := by
  simp only [ArtifactState.validate, bind_ok_iff, check_iff, forM_ok_iff, historyEnd_iff,
    publicationValues_iff]
  constructor
  · rintro ⟨_, hcert, _, -, previous, hchain, _, hend, _, hloc, hpub⟩
    simp only [bne_eq_false_iff_eq] at hend
    exact ⟨by simpa using hcert, hend ▸ hchain, hloc, hpub⟩
  · intro h
    refine ⟨(), by simpa using h.certified, (), ?_, _, h.history, (), by simp, (), h.locations,
      h.publication⟩
    have hchain := h.history
    cases hhistory : s.assuranceHistory with
    | nil =>
      rw [hhistory] at hchain
      simp [← show ArtifactAssuranceState.unchecked = s.achievedAssurance from hchain]
    | cons transition rest => simp

/-! ## One operation -/

/-- All a promotion can do. -/
theorem promoteAssurance_cases (s : ArtifactState) (next : ArtifactAssuranceState)
    (evidence : ContentDigest) :
    (∃ error, s.promoteAssurance next evidence = (s, .error error)) ∨
    (s.promoteAssurance next evidence =
        ({ s with
            achievedAssurance := next
            assuranceHistory := s.assuranceHistory ++ [⟨s.achievedAssurance, next, evidence⟩] },
          .ok ()) ∧
      Valid s ∧ evidence.validate = true ∧ s.achievedAssurance < next ∧
      (next = .certified → s.completion = .complete)) := by
  unfold ArtifactState.promoteAssurance
  cases h : s.promotionAllowed next evidence with
  | error error => exact .inl ⟨error, rfl⟩
  | ok u =>
    obtain ⟨_, hvalid, h⟩ := bind_eq_ok h
    obtain ⟨_, hdigest, h⟩ := bind_eq_ok h
    obtain ⟨_, hlt, h⟩ := bind_eq_ok h
    exact .inr ⟨rfl, validate_iff.mp hvalid, by simpa using check_ok hdigest,
      by simpa using check_ok hlt, by simpa using check_ok h⟩

theorem setPublication_restore (s : ArtifactState) (destination : PublicationDestination)
    (state : Option PublicationTargetState) :
    (s.setPublication destination state).setPublication destination (s.publication destination) =
      s := by
  simp [ArtifactState.setPublication]

/-- All a publication transition can do. -/
theorem transitionPublication_cases (s : ArtifactState) (destination : PublicationDestination)
    (next : PublicationTargetState) :
    (∃ error, s.transitionPublication destination next = (s, .error error)) ∨
    (s.transitionPublication destination next = (s.setPublication destination (some next), .ok ()) ∧
      publicationAllowed (s.publication destination) next = true ∧
      Valid (s.setPublication destination (some next))) := by
  unfold ArtifactState.transitionPublication
  dsimp only
  split
  · rename_i hallowed
    cases h : (s.setPublication destination (some next)).validate with
    | error error => exact .inl ⟨error, by rw [setPublication_restore]⟩
    | ok u => exact .inr ⟨rfl, hallowed, validate_iff.mp h⟩
  · exact .inl ⟨_, rfl⟩

theorem promote_valid {s : ArtifactState} (h : Valid s) {next : ArtifactAssuranceState}
    {evidence : ContentDigest} (hdigest : evidence.validate = true)
    (hlt : s.achievedAssurance < next) (hcomplete : next = .certified → s.completion = .complete) :
    Valid { s with
      achievedAssurance := next
      assuranceHistory := s.assuranceHistory ++ [⟨s.achievedAssurance, next, evidence⟩] } :=
  ⟨hcomplete, h.history.append ⟨rfl, hlt, hdigest, rfl⟩, h.locations, h.publication⟩

/-- The guarantees of a single operation on any state. -/
structure Effect (before : ArtifactState) (operation : Operation) (after : ArtifactState)
    (result : Result Unit) : Prop where
  failed : ∀ error, result = .error error → after = before
  passed : result = .ok () → after.validate = .ok ()
  assurance : before.achievedAssurance ≤ after.achievedAssurance
  promotion : ∀ next evidence, operation = .promoteAssurance next evidence →
    after.publication = before.publication
  publication : ∀ destination next, operation = .transitionPublication destination next →
    after.achievedAssurance = before.achievedAssurance ∧
    after.assuranceHistory = before.assuranceHistory ∧
    ∀ other ≠ destination, after.publication other = before.publication other

/-- How an operation moves the history and the state of one destination. -/
structure Moves (before after : ArtifactState) : Prop where
  history : ∃ added, after.assuranceHistory = before.assuranceHistory ++ added ∧
    EvidencedChain before.achievedAssurance added after.achievedAssurance
  destination : ∀ destination, after.publication destination = before.publication destination ∨
    ∃ next, after.publication destination = some next ∧
      publicationAllowed (before.publication destination) next = true

theorem Moves.refl (s : ArtifactState) : Moves s s :=
  ⟨⟨[], by simp, rfl⟩, fun _ => .inl rfl⟩

theorem apply_effect (s : ArtifactState) (operation : Operation) :
    Effect s operation (s.apply operation).1 (s.apply operation).2 := by
  cases operation with
  | promoteAssurance next evidence =>
    simp only [ArtifactState.apply]
    obtain ⟨error, h⟩ | ⟨h, hvalid, hdigest, hlt, hcomplete⟩ :=
      promoteAssurance_cases s next evidence
    · rw [h]
      exact ⟨fun _ _ => rfl, by simp, le_rfl, fun _ _ _ => rfl, by simp⟩
    · rw [h]
      exact ⟨by simp, fun _ => validate_iff.mpr (promote_valid hvalid hdigest hlt hcomplete),
        hlt.le, fun _ _ _ => rfl, by simp⟩
  | transitionPublication destination next =>
    simp only [ArtifactState.apply]
    obtain ⟨error, h⟩ | ⟨h, -, hvalid⟩ := transitionPublication_cases s destination next
    · rw [h]
      exact ⟨fun _ _ => rfl, by simp, le_rfl, by simp, fun _ _ _ => ⟨rfl, rfl, fun _ _ => rfl⟩⟩
    · rw [h]
      refine ⟨by simp, fun _ => validate_iff.mpr hvalid, le_rfl, by simp, ?_⟩
      rintro _ _ ⟨rfl, rfl⟩
      exact ⟨rfl, rfl, fun other hother => Function.update_of_ne hother _ _⟩

theorem apply_moves (s : ArtifactState) (operation : Operation) :
    Moves s (s.apply operation).1 := by
  cases operation with
  | promoteAssurance next evidence =>
    simp only [ArtifactState.apply]
    obtain ⟨error, h⟩ | ⟨h, -, hdigest, hlt, -⟩ := promoteAssurance_cases s next evidence
    · rw [h]
      exact Moves.refl s
    · rw [h]
      exact ⟨⟨_, rfl, rfl, hlt, hdigest, rfl⟩, fun _ => .inl rfl⟩
  | transitionPublication destination next =>
    simp only [ArtifactState.apply]
    obtain ⟨error, h⟩ | ⟨h, hallowed, -⟩ := transitionPublication_cases s destination next
    · rw [h]
      exact Moves.refl s
    · rw [h]
      refine ⟨⟨[], by simp [ArtifactState.setPublication], rfl⟩, fun other => ?_⟩
      by_cases hother : other = destination
      · subst hother
        exact .inr ⟨next, Function.update_self .., hallowed⟩
      · exact .inl (Function.update_of_ne hother _ _)

theorem apply_valid {s : ArtifactState} (h : Valid s) (operation : Operation) :
    Valid (s.apply operation).1 := by
  have heffect := apply_effect s operation
  cases hresult : (s.apply operation).2 with
  | error error => rw [heffect.failed error hresult]; exact h
  | ok _ => exact validate_iff.mp (heffect.passed hresult)

/-! ## Sequences of operations -/

theorem run_valid {s : ArtifactState} (h : Valid s) (operations : List Operation) :
    Valid (s.run operations) := by
  induction operations generalizing s with
  | nil => exact h
  | cons operation rest ih => exact ih (apply_valid h operation)

theorem run_history (s : ArtifactState) (operations : List Operation) :
    ∃ added, (s.run operations).assuranceHistory = s.assuranceHistory ++ added ∧
      EvidencedChain s.achievedAssurance added (s.run operations).achievedAssurance := by
  induction operations generalizing s with
  | nil => exact ⟨[], by simp [ArtifactState.run], rfl⟩
  | cons operation rest ih =>
    obtain ⟨first, hfirst, hchain⟩ := (apply_moves s operation).history
    obtain ⟨later, hlater, hchain'⟩ := ih (s.apply operation).1
    exact ⟨first ++ later, by rw [← List.append_assoc, ← hfirst]; exact hlater,
      hchain.append hchain'⟩

/-- The destination's state after the first `i` operations. -/
def trace (s : ArtifactState) (operations : List Operation) (destination : PublicationDestination)
    (i : Nat) : Option PublicationTargetState :=
  (s.run (operations.take i)).publication destination

section
variable (s : ArtifactState) (operations : List Operation) (destination : PublicationDestination)

theorem trace_step (i : Nat) :
    trace s operations destination (i + 1) = trace s operations destination i ∨
      ∃ next, trace s operations destination (i + 1) = some next ∧
        publicationAllowed (trace s operations destination i) next = true := by
  unfold trace
  by_cases hi : i < operations.length
  · have hrun : s.run (operations.take (i + 1)) =
        ((s.run (operations.take i)).apply (operations[i])).1 := by
      rw [ArtifactState.run, List.take_add_one, List.getElem?_eq_getElem hi, List.foldl_append]
      rfl
    rw [hrun]
    exact (apply_moves _ _).destination destination
  · rw [List.take_of_length_le (by omega), List.take_of_length_le (by omega)]
    exact .inl rfl

/-- A set of states that is left outside at `i` and reached at `n` is entered by
an allowed transition in between. -/
theorem exists_entry {Q : Option PublicationTargetState → Prop} {i n : Nat} (hin : i ≤ n)
    (hi : ¬ Q (trace s operations destination i)) (hn : Q (trace s operations destination n)) :
    ∃ j next, i ≤ j ∧ j < n ∧ ¬ Q (trace s operations destination j) ∧ Q (some next) ∧
      publicationAllowed (trace s operations destination j) next = true := by
  induction n, hin using Nat.le_induction with
  | base => exact absurd hn hi
  | succ n hin ih =>
    by_cases hq : Q (trace s operations destination n)
    · obtain ⟨j, next, hij, hjn, h⟩ := ih hq
      exact ⟨j, next, hij, by omega, h⟩
    · rcases trace_step s operations destination n with hsame | ⟨next, hnext, hallowed⟩
      · rw [hsame] at hn
        exact absurd hn hq
      · rw [hnext] at hn
        exact ⟨n, next, hin, by omega, hq, hn, hallowed⟩

end

theorem allowed_receiptComplete {current : Option PublicationTargetState}
    (h : publicationAllowed current .receiptComplete = true)
    (hne : current ≠ some .receiptComplete) :
    current = some .remoteVerified := by
  revert h hne
  rcases current with _ | current
  · decide
  · cases current <;> decide

theorem allowed_remoteVerified {current : Option PublicationTargetState}
    (h : publicationAllowed current .remoteVerified = true) (hne : current ≠ some .remoteVerified) :
    current = some .batchVerified := by
  revert h hne
  rcases current with _ | current
  · decide
  · cases current <;> decide

theorem allowed_batchVerified {current : Option PublicationTargetState}
    (h : publicationAllowed current .batchVerified = true) (hne : current ≠ some .batchVerified) :
    current = some .uploading := by
  revert h hne
  rcases current with _ | current
  · decide
  · cases current <;> decide

/-- The states from `Uploading` to `ReceiptComplete`. -/
def started : Option PublicationTargetState → Bool
  | some state => publicationStarted state
  | none => false

theorem allowed_started {current : Option PublicationTargetState} {next : PublicationTargetState}
    (h : publicationAllowed current next = true) (hnext : started (some next) = true)
    (hcurrent : ¬ started current = true) : current = some .planned := by
  revert h hnext hcurrent
  rcases current with _ | current
  · cases next <;> decide
  · cases current <;> cases next <;> decide

/-- The last step into a state the trace is not in at `i`. -/
theorem exists_predecessor (s : ArtifactState) (operations : List Operation)
    (destination : PublicationDestination) {target before : PublicationTargetState}
    (hpred : ∀ current, publicationAllowed current target = true → current ≠ some target →
      current = some before) {i n : Nat} (hin : i ≤ n)
    (hi : trace s operations destination i ≠ some target)
    (hn : trace s operations destination n = some target) :
    ∃ j, i ≤ j ∧ j < n ∧ trace s operations destination j = some before := by
  obtain ⟨j, next, hij, hjn, hne, hnext, hallowed⟩ :=
    exists_entry s operations destination (Q := (· = some target)) hin hi hn
  cases hnext
  exact ⟨j, hij, hjn, hpred _ hallowed hne⟩

theorem receipt_path (s : ArtifactState) (operations : List Operation)
    (destination : PublicationDestination) {i n : Nat} (hin : i ≤ n)
    (hi : trace s operations destination i = some .planned)
    (hn : trace s operations destination n = some .receiptComplete) :
    ∃ j k l, i < j ∧ j < k ∧ k < l ∧ l < n ∧ trace s operations destination j = some .uploading ∧
      trace s operations destination k = some .batchVerified ∧
      trace s operations destination l = some .remoteVerified := by
  have later {j : Nat} {state : PublicationTargetState} (hij : i ≤ j) (hne : state ≠ .planned)
      (hj : trace s operations destination j = some state) : i < j := by
    refine lt_of_le_of_ne hij fun he => hne ?_
    rw [he, hj] at hi
    exact Option.some.inj hi
  obtain ⟨l, hil, hln, hl⟩ := exists_predecessor s operations destination
    (fun _ => allowed_receiptComplete) hin (by simp [hi]) hn
  obtain ⟨k, hik, hkl, hk⟩ := exists_predecessor s operations destination
    (fun _ => allowed_remoteVerified) hil (by simp [hi]) hl
  obtain ⟨j, hij, hjk, hj⟩ := exists_predecessor s operations destination
    (fun _ => allowed_batchVerified) hik (by simp [hi]) hk
  exact ⟨j, k, l, later hij (by decide) hj, hjk, hkl, hln, hj, hk, hl⟩

theorem receipt_planned (s : ArtifactState) (operations : List Operation)
    (destination : PublicationDestination) {n : Nat}
    (h0 : started (trace s operations destination 0) = false)
    (hn : trace s operations destination n = some .receiptComplete) :
    ∃ i, i < n ∧ trace s operations destination i = some .planned := by
  obtain ⟨j, next, -, hjn, hne, hnext, hallowed⟩ :=
    exists_entry s operations destination (Q := fun state => started state = true) (Nat.zero_le n)
      (by simp [h0]) (by rw [hn]; rfl)
  exact ⟨j, hjn, allowed_started hallowed hnext hne⟩

/-- Over any sequence of operations on a valid state. The path to a receipt is
stated from every `Planned` state, hence from the last; a destination that had
not started before the sequence has such a state. -/
theorem operations_keep_lifecycle (s : ArtifactState) (h : s.validate = .ok ())
    (operations : List Operation) :
    (∀ earlier operation later, operations = earlier ++ operation :: later →
      Effect (s.run earlier) operation ((s.run earlier).apply operation).1
        ((s.run earlier).apply operation).2) ∧
    (s.run operations).validate = .ok () ∧
    EvidencedChain .unchecked (s.run operations).assuranceHistory
      (s.run operations).achievedAssurance ∧
    (∃ added, (s.run operations).assuranceHistory = s.assuranceHistory ++ added ∧
      EvidencedChain s.achievedAssurance added (s.run operations).achievedAssurance) ∧
    ∀ destination n, trace s operations destination n = some .receiptComplete →
      (started (s.publication destination) = false →
        ∃ i, i < n ∧ trace s operations destination i = some .planned) ∧
      ∀ i ≤ n, trace s operations destination i = some .planned →
        ∃ j k l, i < j ∧ j < k ∧ k < l ∧ l < n ∧
        trace s operations destination j = some .uploading ∧
          trace s operations destination k = some .batchVerified ∧
          trace s operations destination l = some .remoteVerified := by
  have hvalid := run_valid (validate_iff.mp h) operations
  refine ⟨fun earlier operation later _ => apply_effect _ operation, validate_iff.mpr hvalid,
    hvalid.history, run_history s operations, fun destination n hn => ⟨fun h0 => ?_, ?_⟩⟩
  · exact receipt_planned s operations destination h0 hn
  · intro i hin hi
    exact receipt_path s operations destination hin hi hn

def sampleState : ArtifactState where
  completion := .complete
  achievedAssurance := .unchecked
  disposition := .active
  locations := []
  publication := fun _ => none
  assuranceHistory := []

theorem operations_keep_lifecycle_sample :
    sampleState.validate = .ok () ∧
      (sampleState.run [.transitionPublication .publicShard .planned,
        .transitionPublication .publicShard .uploading]).validate = .ok () :=
  have h : sampleState.validate = .ok () := rfl
  ⟨h, (operations_keep_lifecycle sampleState h _).2.1⟩

end Xcelerator.Cache.Artifact
