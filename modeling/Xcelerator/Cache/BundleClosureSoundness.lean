import Mathlib
import Xcelerator.Cache.BundleClosure

/-! # What a bundle's validation decides

The uniqueness of an artifact's dependencies comes from the order its payload is
validated in; with it the readiness counters are exact, and the three loops agree
on one graph. -/

namespace Xcelerator.Cache.BundleClosure
open Xcelerator.Foundations
open Xcelerator.Foundations.Machine (bind_eq_ok Refuses ok_bind forM_ok_iff)
open TopologicalOrder (DependsOn Cyclic)

theorem refuse_iff {condition : Prop} [Decidable condition] {message : String} {u : Unit} :
    refuse condition message = .ok u ↔ ¬condition := by
  rw [refuse]
  split <;> simp_all

theorem refuse_not {condition : Prop} [Decidable condition] (message : String) (h : ¬condition) :
    refuse condition message = .ok () := refuse_iff.mpr h

theorem bind_ok_iff {α β : Type} {x : Outcome α} {f : α → Outcome β} {b : β} :
    x >>= f = .ok b ↔ ∃ a, x = .ok a ∧ f a = .ok b := by
  refine ⟨bind_eq_ok, ?_⟩
  rintro ⟨a, rfl, h⟩
  exact h

/-- The errors that are neither a panic nor a loop cut short. -/
def Failure.Reported : Failure → Prop
  | .cache _ | .invalidPath _ => True
  | .fault _ | .unfinished => False

theorem refuse_reported (condition : Prop) [Decidable condition] (message : String) :
    Refuses Failure.Reported (refuse condition message) := by
  intro e h
  rw [refuse] at h
  split at h
  · cases h
    trivial
  · cases h

theorem forM_reported {α : Type} {xs : List α} {f : α → Outcome Unit}
    (h : ∀ x ∈ xs, Refuses Failure.Reported (f x)) :
    Refuses Failure.Reported (xs.forM f) := by
  induction xs with
  | nil => exact .ok ()
  | cons x xs ih =>
    rw [List.forall_mem_cons] at h
    exact h.1.bind fun _ _ => ih h.2

theorem foldlM_reported {α β : Type} {step : β → α → Outcome β}
    (h : ∀ total x, Refuses Failure.Reported (step total x)) (xs : List α) (total : β) :
    Refuses Failure.Reported (xs.foldlM step total) := by
  induction xs generalizing total with
  | nil => exact .ok total
  | cons x xs ih => exact (h total x).bind fun next _ => ih next

theorem mapError_reported {α : Type} (x : Result α) :
    Refuses Failure.Reported (x.mapError Failure.cache) := by
  intro e h
  cases x with
  | error error =>
    cases h
    trivial
  | ok a => cases h

/-! ## The order of a payload's dependencies -/

theorem descends_iff {identities : List CacheBundleArtifactIdentity} :
    descends identities = false ↔ identities.Pairwise (· < ·) := by
  rw [← List.isChain_iff_pairwise]
  induction identities with
  | nil => simp [descends]
  | cons x rest ih =>
    cases rest with
    | nil => simp [descends]
    | cons y rest =>
      have hstep : descends (x :: y :: rest) = (decide (y ≤ x) || descends (y :: rest)) := rfl
      rw [hstep, Bool.or_eq_false_iff, ih, List.isChain_cons_cons, decide_eq_false_iff_not, not_le]

theorem validateDependencies_sorted {previous : Option CacheBundleArtifactIdentity}
    {dependencies : List PayloadDependencyIdentity}
    (h : CanonicalPayloadEnvelope.validateDependencies previous dependencies = .ok ()) :
    (dependencies.map PayloadDependencyIdentity.identity).Pairwise (· < ·) ∧
      ∀ p ∈ previous, ∀ d ∈ dependencies, p < d.identity := by
  induction dependencies generalizing previous with
  | nil => simp
  | cons dependency rest ih =>
    obtain ⟨_, -, h⟩ := bind_eq_ok h
    obtain ⟨_, horder, h⟩ := bind_eq_ok h
    obtain ⟨hsorted, hrest⟩ := ih h
    have horder := refuse_iff.mp horder
    have hfirst : ∀ d ∈ rest, dependency.identity < d.identity := hrest _ rfl
    refine ⟨?_, fun p hp d hd => ?_⟩
    · rw [List.map_cons, List.pairwise_cons]
      refine ⟨fun identity hidentity => ?_, hsorted⟩
      obtain ⟨d, hd, rfl⟩ := List.mem_map.mp hidentity
      exact hfirst d hd
    · rw [Option.mem_def.mp hp] at horder
      have hlt : p < dependency.identity := by simpa using horder
      rcases List.mem_cons.mp hd with rfl | hd
      · exact hlt
      · exact hlt.trans (hfirst d hd)

section
variable {Rest : Type} {checks : RecordChecks Rest}

theorem record_dependencies_nodup {artifact : CacheBundleArtifactRecord Rest}
    (h : artifact.validate checks = .ok ()) :
    artifact.dependencies.Nodup := by
  obtain ⟨_, -, h⟩ := bind_eq_ok h
  obtain ⟨_, -, h⟩ := bind_eq_ok h
  obtain ⟨_, hpayload, -⟩ := bind_eq_ok h
  obtain ⟨_, -, hpayload⟩ := bind_eq_ok hpayload
  obtain ⟨_, -, hpayload⟩ := bind_eq_ok hpayload
  obtain ⟨_, -, hpayload⟩ := bind_eq_ok hpayload
  exact (validateDependencies_sorted hpayload).1.imp fun hlt => ne_of_lt hlt

/-! ## The maps -/

variable {artifacts : List (CacheBundleArtifactRecord Rest)}

theorem artifactAt_some {identity : CacheBundleArtifactIdentity}
    {artifact : CacheBundleArtifactRecord Rest}
    (h : artifactAt artifacts identity = some artifact) :
    artifact ∈ artifacts ∧ artifact.identity = identity :=
  ⟨List.mem_reverse.mp (List.mem_of_find?_eq_some h), by simpa using List.find?_some h⟩

theorem artifactAt_mem {identity : CacheBundleArtifactIdentity}
    (h : identity ∈ artifacts.map CacheBundleArtifactRecord.identity) :
    ∃ artifact, artifactAt artifacts identity = some artifact := by
  obtain ⟨artifact, hmem, hidentity⟩ := List.mem_map.mp h
  refine Option.isSome_iff_exists.mp
    (List.find?_isSome.mpr ⟨artifact, List.mem_reverse.mpr hmem, ?_⟩)
  simpa using hidentity

/-- Distinct identities keep every artifact in the map. -/
theorem artifactAt_self (hnodup : (artifacts.map CacheBundleArtifactRecord.identity).Nodup)
    {artifact : CacheBundleArtifactRecord Rest} (h : artifact ∈ artifacts) :
    artifactAt artifacts artifact.identity = some artifact := by
  obtain ⟨found, hfound⟩ := artifactAt_mem (List.mem_map_of_mem h)
  obtain ⟨hmem, hidentity⟩ := artifactAt_some hfound
  rw [hfound, List.inj_on_of_nodup_map hnodup hmem h hidentity]

theorem dependenciesOf_self (hnodup : (artifacts.map CacheBundleArtifactRecord.identity).Nodup)
    {artifact : CacheBundleArtifactRecord Rest} (h : artifact ∈ artifacts) :
    dependenciesOf artifacts artifact.identity = artifact.dependencies := by
  rw [dependenciesOf, artifactAt_self hnodup h]
  rfl

/-- The graph of the artifacts: distinct identities, and dependencies that are distinct and
present. -/
structure Graph (artifacts : List (CacheBundleArtifactRecord Rest)) : Prop where
  sorted : (artifacts.map CacheBundleArtifactRecord.identity).Pairwise (· < ·)
  distinct : ∀ artifact ∈ artifacts, artifact.dependencies.Nodup
  present : ∀ artifact ∈ artifacts, ∀ d ∈ artifact.dependencies,
    d ∈ artifacts.map CacheBundleArtifactRecord.identity

namespace Graph

theorem nodup (h : Graph artifacts) : (artifacts.map CacheBundleArtifactRecord.identity).Nodup :=
  h.sorted.imp fun hlt => ne_of_lt hlt

theorem dependenciesOf_nodup (h : Graph artifacts) (identity : CacheBundleArtifactIdentity) :
    (dependenciesOf artifacts identity).Nodup := by
  rw [dependenciesOf]
  cases hfound : artifactAt artifacts identity with
  | none => exact List.nodup_nil
  | some artifact => exact h.distinct artifact (artifactAt_some hfound).1

theorem closed (h : Graph artifacts) :
    ∀ x ∈ (artifacts.map CacheBundleArtifactRecord.identity).toFinset,
    ∀ d ∈ dependenciesOf artifacts x,
    d ∈ (artifacts.map CacheBundleArtifactRecord.identity).toFinset := by
  intro x hx d hd
  obtain ⟨artifact, hmem, rfl⟩ := List.mem_map.mp (List.mem_toFinset.mp hx)
  rw [dependenciesOf_self h.nodup hmem] at hd
  exact List.mem_toFinset.mpr (h.present artifact hmem d hd)

/-- The stack is emptied in as many turns as it is given. -/
theorem turns_eq (h : Graph artifacts) (start : List CacheBundleArtifactIdentity) :
    start.reverse.length + ∑ x ∈ (artifacts.map CacheBundleArtifactRecord.identity).toFinset,
      (dependenciesOf artifacts x).length = turns start artifacts := by
  rw [List.length_reverse, turns, List.sum_toFinset _ h.nodup, List.map_map]
  congr 2
  refine List.map_congr_left fun artifact hmem => ?_
  rw [Function.comp_apply, dependenciesOf_self h.nodup hmem]

/-- A closure is the set of reachable identities, or the error of one of them. -/
theorem closure_spec (h : Graph artifacts)
    {visit : CacheBundleArtifactIdentity → Outcome (List CacheBundleArtifactIdentity)}
    (hvisit : ∀ x ∈ artifacts.map CacheBundleArtifactRecord.identity, ∀ found, visit x = .ok found →
      found = dependenciesOf artifacts x)
    {start : List CacheBundleArtifactIdentity}
    (hstart : ∀ x ∈ start, x ∈ artifacts.map CacheBundleArtifactRecord.identity) :
    (∃ reachable, closure visit start artifacts = .ok reachable ∧
        (∀ x, x ∈ reachable ↔ WorklistClosure.Reachable (dependenciesOf artifacts) start x) ∧
        ∀ x, WorklistClosure.Reachable (dependenciesOf artifacts) start x →
        visit x = .ok (dependenciesOf artifacts x)) ∨
      ∃ x e, WorklistClosure.Reachable (dependenciesOf artifacts) start x ∧ visit x = .error e ∧
        closure visit start artifacts = .error e := by
  have hreverse : ∀ x, WorklistClosure.Reachable (dependenciesOf artifacts) start.reverse x ↔
      WorklistClosure.Reachable (dependenciesOf artifacts) start x := by
    intro x
    simp only [WorklistClosure.Reachable, List.mem_reverse]
  have hwalk := WorklistClosure.walk_closure (fun x hx =>
    hvisit x (List.mem_toFinset.mp hx)) h.closed
    (fun x hx => List.mem_toFinset.mpr (hstart x (List.mem_reverse.mp hx))) (h.turns_eq start).le
  simp only [hreverse] at hwalk
  rcases hwalk with ⟨final, hfinal, hempty, hseen, hok⟩ | ⟨x, e, hx, he, hfinal⟩
  · refine .inl ⟨final.visited, ?_, hseen, hok⟩
    rw [closure, hfinal, ok_bind, if_pos hempty]
  · refine .inr ⟨x, e, hx, he, ?_⟩
    rw [closure, hfinal]
    rfl

theorem indexDependencies_ok {x : CacheBundleArtifactIdentity}
    (hx : x ∈ artifacts.map CacheBundleArtifactRecord.identity) :
    indexDependencies artifacts x = .ok (dependenciesOf artifacts x) := by
  obtain ⟨artifact, hfound⟩ := artifactAt_mem hx
  rw [indexDependencies, dependenciesOf, hfound]
  rfl

/-- No index is missing: the closure of the roots is the set they reach. -/
theorem closure_roots (h : Graph artifacts) {roots : List CacheBundleArtifactIdentity}
    (hroots : ∀ x ∈ roots, x ∈ artifacts.map CacheBundleArtifactRecord.identity) :
    ∃ reachable, closure (indexDependencies artifacts) roots artifacts = .ok reachable ∧
      ∀ x, x ∈ reachable ↔ WorklistClosure.Reachable (dependenciesOf artifacts) roots x := by
  have hvisit : ∀ x ∈ artifacts.map CacheBundleArtifactRecord.identity, ∀ found,
      indexDependencies artifacts x = .ok found → found = dependenciesOf artifacts x := by
    intro x hx found hfound
    rw [indexDependencies_ok hx] at hfound
    exact (Except.ok.inj hfound).symm
  rcases h.closure_spec hvisit hroots with ⟨reachable, hclosure, hmem, -⟩ | ⟨x, e, hx, he, -⟩
  · exact ⟨reachable, hclosure, hmem⟩
  · have hnode := hx.mem h.closed fun x hx => List.mem_toFinset.mpr (hroots x hx)
    rw [indexDependencies_ok (List.mem_toFinset.mp hnode)] at he
    cases he

/-- No counter underflows, the worklist is emptied, and all the artifacts are ordered unless there
is a cycle. -/
theorem visitedCount_spec (h : Graph artifacts) :
    ∃ count, visitedCount (artifacts.map CacheBundleArtifactRecord.identity)
    (dependenciesOf artifacts) = .ok count ∧
      (count ≠ artifacts.length ↔ Cyclic (artifacts.map CacheBundleArtifactRecord.identity)
      (dependenciesOf artifacts)) := by
  have hclosed : ∀ n ∈ artifacts.map CacheBundleArtifactRecord.identity,
    ∀ d ∈ dependenciesOf artifacts n,
      d ∈ artifacts.map CacheBundleArtifactRecord.identity := fun n hn d hd =>
    List.mem_toFinset.mp (h.closed n (List.mem_toFinset.mpr hn) d hd)
  obtain ⟨final, hfinal, -, hready⟩ := TopologicalOrder.loop_spec h.nodup h.dependenciesOf_nodup
    (TopologicalOrder.initial_inv h.sorted) (Nat.le_add_left _ _)
  obtain ⟨order, horder, hcyclic, -, -⟩ :=
    TopologicalOrder.ordered_spec h.sorted h.dependenciesOf_nodup hclosed
  rw [TopologicalOrder.ordered, hfinal, ok_bind] at horder
  rw [← Except.ok.inj horder, List.length_map] at hcyclic
  refine ⟨final.order.length, ?_, hcyclic⟩
  rw [visitedCount, hfinal]
  exact if_pos hready

end Graph

/-! ## The bundle -/

namespace CacheBundleManifest
variable {manifest : CacheBundleManifest Rest}

/-- A bundle listed in order whose roots and artifacts are valid one by one. -/
structure Listed (checks : RecordChecks Rest) (manifest : CacheBundleManifest Rest) : Prop where
  schema : manifest.schemaVersion ≠ 0
  roots : manifest.roots ≠ []
  artifacts : manifest.artifacts ≠ []
  rootsSorted : manifest.roots.Pairwise (· < ·)
  sorted : manifest.identities.Pairwise (· < ·)
  rootsValid : ∀ root ∈ manifest.roots, root.validate = .ok ()
  valid : ∀ artifact ∈ manifest.artifacts, artifact.validate checks = .ok ()

/-- Roots and dependencies are present, the roots reach exactly the artifacts, and no artifact
depends on itself. -/
structure Closed (manifest : CacheBundleManifest Rest) : Prop where
  roots : ∀ root ∈ manifest.roots, root ∈ manifest.identities
  dependencies : ∀ artifact ∈ manifest.artifacts, ∀ d ∈ artifact.dependencies,
    d ∈ manifest.identities
  reached : ∀ x, x ∈ manifest.identities ↔
    WorklistClosure.Reachable (dependenciesOf manifest.artifacts) manifest.roots x
  acyclic : ¬ Cyclic manifest.identities (dependenciesOf manifest.artifacts)

theorem checkRoot_iff {root : CacheBundleArtifactIdentity} :
    manifest.checkRoot root = .ok () ↔ root.validate = .ok () ∧ root ∈ manifest.identities := by
  rw [checkRoot, bind_ok_iff]
  constructor
  · rintro ⟨_, hvalid, hpresent⟩
    exact ⟨hvalid, not_not.mp (refuse_iff.mp hpresent)⟩
  · rintro ⟨hvalid, hpresent⟩
    exact ⟨(), hvalid, refuse_iff.mpr (not_not.mpr hpresent)⟩

theorem checkDependencies_iff {artifact : CacheBundleArtifactRecord Rest} :
    manifest.checkDependencies artifact = .ok () ↔
    ∀ d ∈ artifact.dependencies, d ∈ manifest.identities := by
  rw [checkDependencies, forM_ok_iff]
  simp only [refuse_iff, not_not]

theorem graph_of_checked (hsorted : descends manifest.identities = false)
    (hvalid : manifest.artifacts.forM (CacheBundleArtifactRecord.validate checks) = .ok ())
    (hpresent : manifest.artifacts.forM manifest.checkDependencies = .ok ()) :
    Graph manifest.artifacts where
  sorted := descends_iff.mp hsorted
  distinct artifact hmem := record_dependencies_nodup (forM_ok_iff.mp hvalid artifact hmem)
  present artifact hmem := checkDependencies_iff.mp (forM_ok_iff.mp hpresent artifact hmem)

theorem card_identities (h : Graph manifest.artifacts) :
    manifest.identities.toFinset.card = manifest.artifacts.length := by
  rw [identities, List.toFinset_card_of_nodup h.nodup, List.length_map]

/-- Validation never panics: every map index is present, every counter stays above zero and both
loops end, for any graph. -/
theorem validate_reported (checks : RecordChecks Rest) (manifest : CacheBundleManifest Rest) :
    Refuses Failure.Reported (manifest.validate checks) := by
  have hitems : ∀ previous items, Refuses Failure.Reported
      (CanonicalPayloadEnvelope.validateItems previous items) := by
    intro previous items
    induction items generalizing previous with
    | nil => exact .ok ()
    | cons item rest ih =>
      intro e h
      rw [CanonicalPayloadEnvelope.validateItems] at h
      split at h
      · cases h
        trivial
      · exact ih _ e h
  have hdependencies : ∀ previous dependencies,
      Refuses Failure.Reported
          (CanonicalPayloadEnvelope.validateDependencies previous dependencies) := by
    intro previous dependencies
    induction dependencies generalizing previous with
    | nil => exact .ok ()
    | cons dependency rest ih => exact (refuse_reported _ _).bind fun _ _ =>
        (refuse_reported _ _).bind fun _ _ => ih _
  have hsize : ∀ envelope :
      CanonicalPayloadEnvelope, Refuses Failure.Reported envelope.checkedLogicalSizeBytes := by
    intro envelope
    refine foldlM_reported (fun total item e h => ?_) envelope.orderedItems 0
    cases hsum : checkedAdd total item.sizeBytes with
    | some next =>
      rw [hsum] at h
      cases h
    | none =>
      rw [hsum] at h
      cases h
      trivial
  have hrecord : ∀ artifact : CacheBundleArtifactRecord Rest, Refuses Failure.Reported
      (artifact.validate checks) := by
    intro artifact
    refine (refuse_reported _ _).bind fun _ _ => (mapError_reported _).bind fun _ _ =>
      .bind ?_ fun _ _ => mapError_reported _
    exact (refuse_reported _ _).bind fun _ _ => (hsize _).bind fun _ _ =>
      (hitems _ _).bind fun _ _ => hdependencies _ _
  refine (refuse_reported _ _).bind fun _ _ => (refuse_reported _ _).bind fun _ hsorted => ?_
  refine (forM_reported fun artifact _ => hrecord artifact).bind fun _ hvalid => ?_
  refine (forM_reported fun root _ => (refuse_reported _ _).bind fun _ _ =>
    refuse_reported _ _).bind fun _ hroots => ?_
  refine (forM_reported fun artifact _ => forM_reported fun _ _ => refuse_reported _ _).bind
    fun _ hpresent => ?_
  have hdescends : descends manifest.identities = false := by
    have hsorted := refuse_iff.mp hsorted
    rw [not_or] at hsorted
    simpa using hsorted.2
  have hgraph := graph_of_checked hdescends hvalid hpresent
  have hroots : ∀ root ∈ manifest.roots, root ∈ manifest.identities :=
    fun root hroot => (checkRoot_iff.mp (forM_ok_iff.mp hroots root hroot)).2
  obtain ⟨reachable, hclosure, -⟩ := hgraph.closure_roots hroots
  obtain ⟨count, hcount, -⟩ := hgraph.visitedCount_spec
  rw [hclosure, ok_bind]
  refine (refuse_reported _ _).bind fun _ _ => ?_
  rw [identities, hcount, ok_bind]
  exact refuse_reported _ _

/-- What a validated bundle is. -/
theorem validate_iff : manifest.validate checks = .ok () ↔ Listed checks manifest ∧
    Closed manifest := by
  constructor
  · intro h
    obtain ⟨_, hcomplete, h⟩ := bind_eq_ok h
    obtain ⟨_, hsorted, h⟩ := bind_eq_ok h
    obtain ⟨_, hvalid, h⟩ := bind_eq_ok h
    obtain ⟨_, hroots, h⟩ := bind_eq_ok h
    obtain ⟨_, hpresent, h⟩ := bind_eq_ok h
    have hcomplete := refuse_iff.mp hcomplete
    have hsorted := refuse_iff.mp hsorted
    simp only [not_or, Bool.not_eq_true, List.isEmpty_eq_false_iff] at hcomplete hsorted
    have hgraph := graph_of_checked hsorted.2 hvalid hpresent
    have hroot := fun root hroot => checkRoot_iff.mp (forM_ok_iff.mp hroots root hroot)
    obtain ⟨reachable, hclosure, hmem⟩ := hgraph.closure_roots fun root h => (hroot root h).2
    obtain ⟨count, hcount, hcyclic⟩ := hgraph.visitedCount_spec
    rw [hclosure, ok_bind] at h
    obtain ⟨_, hsame, h⟩ := bind_eq_ok h
    have hsame := not_not.mp (refuse_iff.mp hsame)
    rw [identities, hcount, ok_bind, ← identities] at h
    have hall := not_not.mp (refuse_iff.mp h)
    rw [card_identities hgraph] at hall
    refine ⟨⟨hcomplete.1, hcomplete.2.1, hcomplete.2.2, descends_iff.mp hsorted.1, hgraph.sorted,
      fun root h => (hroot root h).1, forM_ok_iff.mp hvalid⟩,
      ⟨fun root h => (hroot root h).2, hgraph.present,
      fun x => ?_, fun hcycle => hcyclic.mpr hcycle hall⟩⟩
    rw [← hmem x, hsame, List.mem_toFinset]
  · rintro ⟨hlisted, hclosed⟩
    have hpresent : manifest.artifacts.forM manifest.checkDependencies = .ok () :=
      forM_ok_iff.mpr fun artifact hmem =>
        checkDependencies_iff.mpr (hclosed.dependencies artifact hmem)
    have hvalid : manifest.artifacts.forM (CacheBundleArtifactRecord.validate checks) = .ok () :=
      forM_ok_iff.mpr hlisted.valid
    have hroots : manifest.roots.forM manifest.checkRoot = .ok () :=
      forM_ok_iff.mpr fun root h =>
        checkRoot_iff.mpr ⟨hlisted.rootsValid root h, hclosed.roots root h⟩
    have hgraph := graph_of_checked (descends_iff.mpr hlisted.sorted) hvalid hpresent
    obtain ⟨reachable, hclosure, hmem⟩ := hgraph.closure_roots hclosed.roots
    obtain ⟨count, hcount, hcyclic⟩ := hgraph.visitedCount_spec
    have hsame : reachable = manifest.identities.toFinset := by
      ext x
      rw [hmem x, List.mem_toFinset, hclosed.reached x]
    have hall : count = manifest.identities.toFinset.card := by
      rw [card_identities hgraph]
      exact not_not.mp fun hne => hclosed.acyclic (hcyclic.mp hne)
    have hcomplete : ¬(manifest.schemaVersion = 0 ∨ manifest.roots = [] ∨
        manifest.artifacts.isEmpty = true) := by
      simp [hlisted.schema, hlisted.roots, hlisted.artifacts]
    have hsorted : ¬(descends manifest.roots = true ∨ descends manifest.identities = true) := by
      rw [descends_iff.mpr hlisted.rootsSorted, descends_iff.mpr hlisted.sorted]
      simp
    rw [validate, refuse_not _ hcomplete, ok_bind, refuse_not _ hsorted, ok_bind, hvalid, ok_bind,
      hroots, ok_bind,
      hpresent, ok_bind, hclosure, ok_bind, refuse_not _ (not_not.mpr hsame), ok_bind, identities,
      hcount, ok_bind]
    exact refuse_not _ (not_not.mpr hall)

theorem Listed.graph (h : Listed checks manifest) (hclosed : Closed manifest) :
    Graph manifest.artifacts where
  sorted := h.sorted
  distinct artifact hmem := record_dependencies_nodup (h.valid artifact hmem)
  present := hclosed.dependencies

end CacheBundleManifest

/-! ## Consumption -/

/-- A disposition the policy admits and a reader's version within the artifact's range. -/
def Admissible (policy : CacheBundleConsumptionPolicy) (artifact : CacheBundleArtifactRecord Rest) :
    Prop :=
  (artifact.disposition = .active ∨ artifact.disposition = .deprecated ∧
    policy.allowDeprecated = true) ∧
    policy.readerVersion.cmp artifact.manifest.minimumReaderVersion ≠ .lt ∧
    ∀ maximum ∈ artifact.manifest.maximumReaderVersion, policy.readerVersion.cmp maximum ≠ .gt

theorem checkDisposition_iff {policy : CacheBundleConsumptionPolicy}
    {disposition : Artifact.ArtifactDisposition} :
    checkDisposition policy disposition = .ok () ↔
      disposition = .active ∨ disposition = .deprecated ∧ policy.allowDeprecated = true := by
  cases disposition <;> simp [checkDisposition, refuse_iff]

theorem incompatible_iff {policy : CacheBundleConsumptionPolicy}
    {manifest : CanonicalArtifactManifest} :
    ¬incompatible policy manifest = true ↔
    policy.readerVersion.cmp manifest.minimumReaderVersion ≠ .lt ∧
      ∀ maximum ∈ manifest.maximumReaderVersion, policy.readerVersion.cmp maximum ≠ .gt := by
  rw [incompatible, Bool.or_eq_true, not_or]
  cases manifest.maximumReaderVersion <;> simp

theorem consume_iff (hnodup : (artifacts.map CacheBundleArtifactRecord.identity).Nodup)
    {policy : CacheBundleConsumptionPolicy}
    {artifact : CacheBundleArtifactRecord Rest} (h : artifact ∈ artifacts)
    {found : List CacheBundleArtifactIdentity} :
    consume policy artifacts artifact.identity = .ok found ↔ Admissible policy artifact ∧
    found = artifact.dependencies := by
  rw [consume, artifactAt_self hnodup h]
  simp only [bind_ok_iff, refuse_iff, incompatible_iff, Admissible]
  constructor
  · rintro ⟨_, hdisposition, _, hversion, hfound⟩
    exact ⟨⟨checkDisposition_iff.mp hdisposition, hversion⟩, (Except.ok.inj hfound).symm⟩
  · rintro ⟨⟨hdisposition, hversion⟩, rfl⟩
    exact ⟨(), checkDisposition_iff.mpr hdisposition, (), hversion, rfl⟩

/-- The selected artifact and its transitive dependencies. -/
theorem reachable_one {deps : CacheBundleArtifactIdentity → List CacheBundleArtifactIdentity}
    {identity x : CacheBundleArtifactIdentity} :
    WorklistClosure.Reachable deps [identity] x ↔ x = identity ∨
    Relation.TransGen (DependsOn deps) identity x := by
  have honly : WorklistClosure.Reachable deps [identity] x ↔
      Relation.ReflTransGen (DependsOn deps) identity x := by
    simp [WorklistClosure.Reachable]
  rw [honly, Relation.reflTransGen_iff_eq_or_transGen]

section
variable {manifest : CacheBundleManifest Rest} {selected : CacheBundleArtifactRecord Rest}
  {policy : CacheBundleConsumptionPolicy}

/-- The artifacts the walk visits may all be consumed. -/
def ClosureAdmissible (manifest : CacheBundleManifest Rest)
    (selected : CacheBundleArtifactRecord Rest) (policy : CacheBundleConsumptionPolicy) : Prop :=
  ∀ artifact ∈ manifest.artifacts, artifact.identity = selected.identity ∨
    Relation.TransGen (DependsOn (dependenciesOf manifest.artifacts)) selected.identity
      artifact.identity →
    Admissible policy artifact

theorem closure_consume (hgraph : Graph manifest.artifacts)
    (hselected : selected ∈ manifest.artifacts) :
    (∃ visited, closure (consume policy manifest.artifacts)
    [selected.identity] manifest.artifacts = .ok visited ∧
        (∀ x, x ∈ visited ↔ x = selected.identity ∨
          Relation.TransGen (DependsOn (dependenciesOf manifest.artifacts)) selected.identity x) ∧
        ClosureAdmissible manifest selected policy) ∨
      (∃ e, closure (consume policy manifest.artifacts)
      [selected.identity] manifest.artifacts = .error e) ∧
        ¬ClosureAdmissible manifest selected policy := by
  have hvisit : ∀ x ∈ manifest.artifacts.map CacheBundleArtifactRecord.identity, ∀ found,
      consume policy manifest.artifacts x = .ok found →
          found = dependenciesOf manifest.artifacts x := by
    intro x hx found hfound
    obtain ⟨artifact, hmem, rfl⟩ := List.mem_map.mp hx
    rw [dependenciesOf_self hgraph.nodup hmem]
    exact ((consume_iff hgraph.nodup hmem).mp hfound).2
  have hstart : ∀ x ∈ [selected.identity],
      x ∈ manifest.artifacts.map CacheBundleArtifactRecord.identity := by
    intro x hx
    rw [List.mem_singleton.mp hx]
    exact List.mem_map_of_mem hselected
  rcases hgraph.closure_spec hvisit hstart with ⟨visited, hclosure, hmem, hok⟩
    | ⟨x, e, hx, he, hclosure⟩
  · refine .inl ⟨visited, hclosure, fun x =>
      (hmem x).trans reachable_one, fun artifact hartifact hreach => ?_⟩
    have hconsumed := hok _ (reachable_one.mpr hreach)
    exact ((consume_iff hgraph.nodup hartifact).mp hconsumed).1
  · refine .inr ⟨⟨e, hclosure⟩, fun hadmissible => ?_⟩
    have hnode := hx.mem hgraph.closed fun x hx => List.mem_toFinset.mpr (hstart x hx)
    obtain ⟨artifact, hartifact, rfl⟩ := List.mem_map.mp (List.mem_toFinset.mp hnode)
    have hconsumed := (consume_iff hgraph.nodup hartifact).mpr
      ⟨hadmissible artifact hartifact (reachable_one.mp hx), rfl⟩
    rw [hconsumed] at he
    cases he

/-- The visited artifacts but the selected one are its transitive dependencies. -/
theorem card_visited {deps : CacheBundleArtifactIdentity → List CacheBundleArtifactIdentity}
    {identity : CacheBundleArtifactIdentity} {visited : Finset CacheBundleArtifactIdentity}
    (hmem : ∀ x, x ∈ visited ↔ x = identity ∨ Relation.TransGen (DependsOn deps) identity x)
    (hacyclic : ¬Relation.TransGen (DependsOn deps) identity identity) :
    visited.card - 1 = Set.ncard {x | Relation.TransGen (DependsOn deps) identity x} := by
  have herase : {x | Relation.TransGen (DependsOn deps) identity x} =
      ↑(visited.erase identity) := by
    ext x
    simp only [Set.mem_ofPred_eq, Finset.coe_erase, Set.mem_sdiff, Finset.mem_coe,
      Set.mem_singleton_iff, hmem]
    constructor
    · intro hx
      exact ⟨.inr hx, fun heq => hacyclic (heq ▸ hx)⟩
    · rintro ⟨hx, hne⟩
      exact hx.resolve_left hne
  rw [herase, Set.ncard_coe_finset, Finset.card_erase_of_mem ((hmem identity).mpr (.inl rfl))]

theorem validateConsumableClosure_spec (hgraph : Graph manifest.artifacts)
    (hacyclic : ¬Cyclic manifest.identities (dependenciesOf manifest.artifacts))
    (hselected : selected ∈ manifest.artifacts) :
    ((∃ count, validateConsumableClosure selected manifest.artifacts policy = .ok count) ↔
        policy.minimumAssurance ≤ selected.achievedAssurance ∧
        ClosureAdmissible manifest selected policy) ∧
      ∀ count, validateConsumableClosure selected manifest.artifacts policy = .ok count →
        count = Set.ncard {x | Relation.TransGen (DependsOn (dependenciesOf manifest.artifacts))
          selected.identity x} := by
  have hself : ¬Relation.TransGen (DependsOn (dependenciesOf manifest.artifacts)) selected.identity
      selected.identity :=
    fun hcycle => hacyclic ⟨_, List.mem_map_of_mem hselected, hcycle⟩
  rw [validateConsumableClosure]
  by_cases hassurance : selected.achievedAssurance < policy.minimumAssurance
  · rw [refuse, if_pos hassurance]
    refine ⟨⟨?_, fun h => absurd h.1 (not_le.mpr hassurance)⟩, ?_⟩
    · rintro ⟨count, h⟩
      cases h
    · intro count h
      cases h
  · rw [refuse, if_neg hassurance, ok_bind]
    rcases @closure_consume Rest manifest selected policy hgraph hselected with
      ⟨visited, hclosure, hmem, hadmissible⟩ | ⟨⟨e, hclosure⟩, hnot⟩
    · rw [hclosure, ok_bind]
      refine ⟨⟨fun _ => ⟨not_lt.mp hassurance, hadmissible⟩, fun _ => ⟨_, rfl⟩⟩, fun count h => ?_⟩
      rw [← Except.ok.inj h]
      exact card_visited hmem hself
    · rw [hclosure]
      refine ⟨⟨?_, fun h => absurd h.2 hnot⟩, ?_⟩
      · rintro ⟨count, h⟩
        cases h
      · intro count h
        cases h

end

/-- Validation is exact for every listed bundle and never panics for any; a validated bundle's
artifact is consumed exactly when its closure may be, and the count returned is that of its
transitive dependencies. -/
theorem bundle_closure_exact (checks : RecordChecks Rest) (manifest : CacheBundleManifest Rest) :
    Refuses Failure.Reported (manifest.validate checks) ∧
      (manifest.Listed checks → (manifest.validate checks = .ok () ↔ manifest.Closed)) ∧
      (manifest.validate checks = .ok () → ∀ selected ∈ manifest.artifacts, ∀ policy,
        ((∃ count, validateConsumableClosure selected manifest.artifacts policy = .ok count) ↔
          policy.minimumAssurance ≤ selected.achievedAssurance ∧
          ClosureAdmissible manifest selected policy) ∧
        ∀ count, validateConsumableClosure selected manifest.artifacts policy = .ok count →
          count = Set.ncard {x | Relation.TransGen (DependsOn (dependenciesOf manifest.artifacts))
            selected.identity x}) := by
  refine ⟨CacheBundleManifest.validate_reported checks manifest, fun hlisted =>
    ?_, fun hvalid selected hselected policy => ?_⟩
  · rw [CacheBundleManifest.validate_iff]
    exact ⟨fun h => h.2, fun h => ⟨hlisted, h⟩⟩
  · obtain ⟨hlisted, hclosed⟩ := CacheBundleManifest.validate_iff.mp hvalid
    exact validateConsumableClosure_spec (hlisted.graph hclosed) hclosed.acyclic hselected

end

/-! A bundle in which two dependencies of the root share the third. -/

def sampleDigest : ContentDigest := Digest.contentDigest Digest.letterDigest [0x61]

def sampleArtifact (family : String) (dependencies : List String) :
    CacheBundleArtifactRecord Unit where
  identity := ⟨family, sampleDigest, sampleDigest, sampleDigest⟩
  achievedAssurance := .computed
  disposition := .active
  manifest :=
    { canonicalPayload := ⟨1, "rug", none, "hex", "none", "none", [⟨"m", sampleDigest, 1⟩],
        dependencies.map fun dependency => ⟨dependency, sampleDigest, sampleDigest, sampleDigest⟩⟩
      minimumReaderVersion := ⟨1, 0, 0, none⟩
      maximumReaderVersion := none }
  rest := ()

def sampleChecks : RecordChecks Unit := ⟨fun _ => .ok (), fun _ => .ok ()⟩

def sampleRoot : CacheBundleArtifactRecord Unit :=
  sampleArtifact "eigenvalues" ["matrix", "quadrature"]

def sampleBundle : CacheBundleManifest Unit :=
  ⟨1, [sampleRoot.identity],
    [sampleRoot, sampleArtifact "matrix" ["zeros"], sampleArtifact "quadrature" ["zeros"],
      sampleArtifact "zeros" []]⟩

def samplePolicy : CacheBundleConsumptionPolicy := ⟨⟨1, 2, 0, none⟩, .computed, false⟩

theorem sampleBundle_runs : sampleBundle.validate sampleChecks = .ok () ∧
    validateConsumableClosure sampleRoot sampleBundle.artifacts samplePolicy = .ok 3 := by
  decide +kernel

/-- The bundle is closed, its root is admissible, and the three dependencies are counted once
each. -/
theorem bundle_closure_exact_sample :
    sampleBundle.Closed ∧ ClosureAdmissible sampleBundle sampleRoot samplePolicy ∧
      Set.ncard {x | Relation.TransGen (DependsOn (dependenciesOf sampleBundle.artifacts))
        sampleRoot.identity x} = 3 := by
  obtain ⟨hvalid, hrun⟩ := sampleBundle_runs
  obtain ⟨-, hclosed, hconsumable⟩ := bundle_closure_exact sampleChecks sampleBundle
  have hlisted : sampleBundle.Listed sampleChecks := (CacheBundleManifest.validate_iff.mp hvalid).1
  obtain ⟨hadmissible, hcount⟩ := hconsumable hvalid sampleRoot List.mem_cons_self samplePolicy
  exact ⟨(hclosed hlisted).mp hvalid, (hadmissible.mp ⟨3, hrun⟩).2, (hcount 3 hrun).symm⟩

end Xcelerator.Cache.BundleClosure
