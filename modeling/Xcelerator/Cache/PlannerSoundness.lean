import Mathlib
import Xcelerator.Cache.Planner

/-! # What a derivation plan guarantees

The comparison of candidates is a total order, so the choice on a node is the
least admissible decision. Over the fold along the execution order the totals
are the sums over the selections, and every selection was admitted with the
nodes selected before it. The order comes from the general facts on sorted
worklists. -/

namespace Xcelerator.Cache.Planner
open Xcelerator.Foundations Machine
open Artifact (ArtifactAssuranceState check_iff)

/-! ## The choice on a node -/

theorem compareCriterion_trans (policy : CachePlannerPolicy)
    (criterion : CachePreferenceCriterion) :
    Std.TransCmp (compareCriterion policy criterion) := by
  cases criterion with
  | trust =>
    exact @Std.TransCmp.opposite _ (compareOn fun d : CacheCandidatePlanDecision => d.trust.rank) _
  | precision =>
    exact @Std.TransCmp.opposite _ (compareOn CacheCandidatePlanDecision.precisionBits) _
  | locality => exact inferInstanceAs (Std.TransCmp
      (compareOn fun d : CacheCandidatePlanDecision => d.locality.rank))
  | transferBytes => exact inferInstanceAs (Std.TransCmp
      (compareOn CacheCandidatePlanDecision.transferBytes))
  | recomputationCost => exact inferInstanceAs (Std.TransCmp
      (compareOn CacheCandidatePlanDecision.recomputationUnits))
  | actionPreference => exact inferInstanceAs (Std.TransCmp
      (compareOn fun d : CacheCandidatePlanDecision => rankKey (policy.actionRank d.action)))

theorem compareBy_trans (policy : CachePlannerPolicy) (criteria : List CachePreferenceCriterion) :
    Std.TransCmp (compareBy policy criteria) := by
  induction criteria with
  | nil => exact inferInstanceAs (Std.TransCmp (compareOn CacheCandidatePlanDecision.candidateId))
  | cons criterion rest ih =>
    have := compareCriterion_trans policy criterion
    exact inferInstanceAs (Std.TransCmp (compareLex (compareCriterion policy criterion)
      (compareBy policy rest)))

/-- Decisions that compare equal have the same identity. -/
theorem compareBy_eq {policy : CachePlannerPolicy} {criteria : List CachePreferenceCriterion}
    {left right : CacheCandidatePlanDecision} (h : compareBy policy criteria left right = .eq) :
    left.candidateId = right.candidateId := by
  induction criteria with
  | nil => exact Std.LawfulEqOrd.eq_of_compare h
  | cons criterion rest ih => exact ih (Ordering.then_eq_eq.mp h).2

section
variable {α : Type} {cmp : α → α → Ordering}

theorem foldl_min [Std.TransCmp cmp] (xs : List α) (x : α) :
    let best := xs.foldl (fun best y => if cmp best y = .gt then y else best) x
    best ∈ x :: xs ∧ ∀ y ∈ x :: xs, (cmp best y).isLE := by
  induction xs generalizing x with
  | nil =>
    refine ⟨List.mem_singleton_self x, fun y hy => ?_⟩
    rw [List.mem_singleton.mp hy]
    exact Ordering.isLE_of_eq_eq Std.ReflCmp.compare_self
  | cons z xs ih =>
    dsimp only [List.foldl_cons]
    by_cases hgt : cmp x z = .gt
    · have hzx : (cmp z x).isLE :=
        Std.OrientedCmp.isLE_of_isGE (Ordering.isGE_of_eq_gt hgt)
      obtain ⟨hmem, hle⟩ := ih z
      rw [if_pos hgt]
      refine ⟨List.mem_cons_of_mem _ hmem, fun y hy => ?_⟩
      rcases List.mem_cons.mp hy with rfl | hy
      · exact Std.TransCmp.isLE_trans (hle z (by simp)) hzx
      · exact hle y hy
    · have hxz : (cmp x z).isLE := by
        cases hc : cmp x z with
        | gt => exact absurd hc hgt
        | lt => rfl
        | eq => rfl
      obtain ⟨hmem, hle⟩ := ih x
      rw [if_neg hgt]
      refine ⟨?_, fun y hy => ?_⟩
      · rcases List.mem_cons.mp hmem with h | h
        · rw [h]
          exact List.mem_cons_self
        · exact List.mem_cons_of_mem _ (List.mem_cons_of_mem _ h)
      · rcases List.mem_cons.mp hy with rfl | hy
        · exact hle _ List.mem_cons_self
        · rcases List.mem_cons.mp hy with rfl | hy
          · exact Std.TransCmp.isLE_trans (hle x List.mem_cons_self) hxz
          · exact hle y (List.mem_cons_of_mem _ hy)

theorem minBy_some [Std.TransCmp cmp] {l : List α} {best : α} (h : minBy cmp l = some best) :
    best ∈ l ∧ ∀ y ∈ l, (cmp best y).isLE := by
  cases l with
  | nil => cases h
  | cons x xs =>
    cases h
    exact foldl_min xs x

theorem minBy_none {l : List α} (h : minBy cmp l = none) : l = [] := by
  cases l with
  | nil => rfl
  | cons x xs => cases h

end

/-- The least admissible decision, with its position. -/
structure Best (policy : CachePlannerPolicy) (decisions : List CacheCandidatePlanDecision)
    (best : CacheCandidatePlanDecision × Nat) : Prop where
  position : decisions[best.2]? = some best.1
  admissible : best.1.admissible = true
  least : ∀ d ∈ decisions, d.admissible = true → (compareCandidates policy best.1 d).isLE

theorem bestDecision_some {policy : CachePlannerPolicy}
    {decisions : List CacheCandidatePlanDecision}
    {best : CacheCandidatePlanDecision × Nat} (h : bestDecision policy decisions = some best) :
    Best policy decisions best := by
  have := compareBy_trans policy policy.preferenceOrder
  have : Std.TransCmp fun l r : CacheCandidatePlanDecision × Nat =>
    compareCandidates policy l.1 r.1 :=
    { eq_swap := fun {a b} =>
      @Std.OrientedCmp.eq_swap _ (compareBy policy policy.preferenceOrder) _ a.1 b.1
      isLE_trans := fun {a b c} =>
        @Std.TransCmp.isLE_trans _ (compareBy policy policy.preferenceOrder) _ a.1 b.1 c.1 }
  obtain ⟨hmem, hle⟩ := minBy_some h
  obtain ⟨hzip, hadm⟩ := List.mem_filter.mp hmem
  refine ⟨List.mem_zipIdx_iff_getElem?.mp hzip, by simpa using hadm, fun d hd hda => ?_⟩
  obtain ⟨i, hi⟩ := List.getElem?_of_mem hd
  exact hle (d, i) (List.mem_filter.mpr ⟨List.mem_zipIdx_iff_getElem?.mpr hi, by simpa using hda⟩)

theorem bestDecision_none {policy : CachePlannerPolicy}
    {decisions : List CacheCandidatePlanDecision}
    (h : bestDecision policy decisions = none) : ∀ d ∈ decisions, d.admissible = false := by
  intro d hd
  obtain ⟨i, hi⟩ := List.getElem?_of_mem hd
  have hnil := minBy_none h
  rw [List.filter_eq_nil_iff] at hnil
  simpa using hnil (d, i) (List.mem_zipIdx_iff_getElem?.mpr hi)

/-! ## Admission -/

/-- A total that stays within `u64` and within the policy's maximum, if any. -/
def Within (maximum : Option Nat) (total : Nat) : Prop :=
  total < 2 ^ 64 ∧ ∀ m, maximum = some m → total ≤ m

/-- The admission predicate, given the nodes selected so far and the totals. -/
structure Admitted (policy : CachePlannerPolicy) (node : CachePlanNode)
    (candidate : CachePlanCandidate)
    (selected : Finset String) (transfer recomputation : Nat) : Prop where
  action : (policy.actionRank candidate.action).isSome = true
  available : candidate.available = true
  revoked : candidate.revoked = false
  compatible : candidate.compatible = true
  trust : policy.minimumTrust.rank ≤ candidate.trust.rank
  precision : node.minimumPrecisionBits ≤ candidate.precisionBits
  assurance : node.requiredAssurance ≤ candidate.projectedAssurance
  dependencies : candidate.dependencyNodeIds = node.dependencyNodeIds
  selected : ∀ d ∈ node.dependencyNodeIds.items, d ∈ selected
  transfer : Within policy.maximumTotalTransferBytes (transfer + candidate.transferBytes)
  recomputation : Within policy.maximumTotalRecomputationUnits
    (recomputation + candidate.recomputationUnits)

theorem ite_nil {α : Type} {c : Prop} [Decidable c] {x : α} :
    (if c then [x] else []) = [] ↔ ¬ c := by
  split <;> simp_all

theorem projectedReasons_nil {maximum : Option Nat} {current added : Nat} {overflow : String}
    {message : Nat → String} :
    projectedReasons maximum overflow message current added = [] ↔
    Within maximum (current + added) := by
  unfold projectedReasons checkedAdd Within
  by_cases h : current + added < 2 ^ 64
  · rw [if_pos h]
    dsimp only
    rw [ite_nil, and_iff_right h]
    cases maximum <;> simp
  · rw [if_neg h]
    exact ⟨fun hnil => (List.cons_ne_nil _ _ hnil).elim, fun hwithin => absurd hwithin.1 h⟩

theorem evaluate_admissible {policy : CachePlannerPolicy} {node : CachePlanNode}
    {candidate : CachePlanCandidate} {selected : Finset String} {transfer recomputation : Nat} :
    (evaluateCandidate policy node (node.dependencyNodeIds.items.filter (· ∉ selected)) transfer
      recomputation candidate).admissible = true ↔
      Admitted policy node candidate selected transfer recomputation := by
  unfold evaluateCandidate
  simp only [List.isEmpty_iff, List.append_eq_nil_iff, ite_nil, projectedReasons_nil,
    Bool.not_eq_true',
    Bool.not_eq_false, Option.isNone_iff_eq_none, not_lt, ne_eq, not_not, Bool.not_eq_true,
    List.filter_eq_nil_iff, decide_eq_true_eq]
  constructor
  · rintro ⟨⟨⟨⟨⟨⟨⟨⟨⟨⟨h1, h2⟩, h3⟩, h4⟩, h5⟩, h6⟩, h7⟩, h8⟩, h9⟩, h10⟩, h11⟩
    exact ⟨Option.isSome_iff_ne_none.mpr h1, h2, h3, h4, h5, h6, h7, h8, h9, h10, h11⟩
  · rintro ⟨h1, h2, h3, h4, h5, h6, h7, h8, h9, h10, h11⟩
    exact ⟨⟨⟨⟨⟨⟨⟨⟨⟨⟨Option.isSome_iff_ne_none.mp h1, h2⟩, h3⟩, h4⟩, h5⟩, h6⟩, h7⟩, h8⟩, h9⟩, h10⟩,
      h11⟩

/-! ## One node -/

def spentTransfer (plan : CacheNodePlan) : Nat :=
  ((plan.decisions.filter fun d => d.selected).map fun d => d.transferBytes).sum

def spentRecomputation (plan : CacheNodePlan) : Nat :=
  ((plan.decisions.filter fun d => d.selected).map fun d => d.recomputationUnits).sum

theorem nodeDecisions_unselected {policy : CachePlannerPolicy} {node : CachePlanNode}
    {s : PlanState} :
    ∀ d ∈ nodeDecisions policy node s, d.selected = false := by
  intro d hd
  obtain ⟨candidate, -, rfl⟩ := List.mem_map.mp hd
  rfl

theorem filter_modify {decisions : List CacheCandidatePlanDecision} {i : Nat}
    {d : CacheCandidatePlanDecision} (h : ∀ d ∈ decisions, d.selected = false)
    (hi : decisions[i]? = some d) :
    (decisions.modify i markSelected).filter (fun d => d.selected) = [markSelected d] := by
  induction decisions generalizing i with
  | nil => simp at hi
  | cons x rest ih =>
    have hrest : ∀ d ∈ rest, d.selected = false := fun d hd => h d (by simp [hd])
    cases i with
    | zero =>
      cases hi
      rw [List.modify_zero_cons, List.filter_cons_of_pos (by rfl), List.filter_eq_nil_iff.mpr]
      intro d hd
      simp [hrest d hd]
    | succ i =>
      rw [List.modify_succ_cons, List.filter_cons_of_neg (by simp [h x]),
        ih hrest (by simpa using hi)]

theorem sortDecisions_perm (decisions : List CacheCandidatePlanDecision) :
    (sortDecisions decisions).Perm decisions :=
  List.perm_insertionSort _ _

theorem selected_sum {decisions : List CacheCandidatePlanDecision}
    {chosen : List CacheCandidatePlanDecision}
    (h : decisions.filter (fun d => d.selected) = chosen) (f : CacheCandidatePlanDecision → Nat) :
    (((sortDecisions decisions).filter fun d => d.selected).map f).sum = (chosen.map f).sum := by
  rw [← h]
  exact (((sortDecisions_perm decisions).filter _).map f).sum_eq

/-- The nodes with a selection. -/
def selectedIds (plans : List CacheNodePlan) : Finset String :=
  ((plans.filter fun plan => plan.selectedCandidateId.isSome).map CacheNodePlan.nodeId).toFinset

/-- What the plan of a node says, given the plans made before it. -/
def NodeSpec (policy : CachePlannerPolicy) (nodes : List CachePlanNode)
    (earlier : List CacheNodePlan) (plan : CacheNodePlan) : Prop :=
  ∃ node ∈ nodes, node.nodeId = plan.nodeId ∧
    match plan.selectedCandidateId with
    | none => ∀ candidate ∈ node.candidates, ¬ Admitted policy node candidate (selectedIds earlier)
        (earlier.map spentTransfer).sum (earlier.map spentRecomputation).sum
    | some id => ∃ candidate ∈ node.candidates, candidate.candidateId = id ∧
        plan.selectedAction = some candidate.action ∧
        spentTransfer plan = candidate.transferBytes ∧
        spentRecomputation plan = candidate.recomputationUnits ∧
        Admitted policy node candidate (selectedIds earlier) (earlier.map spentTransfer).sum
          (earlier.map spentRecomputation).sum

/-- The state after the nodes of `done`. -/
structure PlanInv (policy : CachePlannerPolicy) (nodes : List CachePlanNode) (s : PlanState)
    (done : List String) : Prop where
  ids : s.plans.map CacheNodePlan.nodeId = done
  selected : s.selectedNodes = selectedIds s.plans
  transfer : s.totalTransferBytes = (s.plans.map spentTransfer).sum
  recomputation : s.totalRecomputationUnits = (s.plans.map spentRecomputation).sum
  transfer_within : Within policy.maximumTotalTransferBytes s.totalTransferBytes
  recomputation_within : Within policy.maximumTotalRecomputationUnits s.totalRecomputationUnits
  spec : ∀ earlier plan later, s.plans = earlier ++ plan :: later →
    NodeSpec policy nodes earlier plan

theorem spec_append {policy : CachePlannerPolicy} {nodes : List CachePlanNode}
    {plans : List CacheNodePlan} {last : CacheNodePlan}
    (h : ∀ earlier plan later, plans = earlier ++ plan :: later →
      NodeSpec policy nodes earlier plan)
    (hlast : NodeSpec policy nodes plans last) :
    ∀ earlier plan later, plans ++ [last] = earlier ++ plan :: later →
      NodeSpec policy nodes earlier plan := by
  intro earlier plan later he
  rcases List.eq_nil_or_concat later with rfl | ⟨later', final, rfl⟩
  · obtain ⟨rfl, hplan⟩ := List.append_inj' he rfl
    cases hplan
    exact hlast
  · rw [List.concat_eq_append, ← List.cons_append, ← List.append_assoc] at he
    exact h earlier plan later' (List.append_inj' he rfl).1

theorem selectedIds_append (plans : List CacheNodePlan) (plan : CacheNodePlan) :
    selectedIds (plans ++ [plan]) =
      if plan.selectedCandidateId.isSome then insert plan.nodeId (selectedIds plans)
      else selectedIds plans := by
  unfold selectedIds
  rw [List.filter_append, List.map_append, List.toFinset_append]
  split
  · rename_i h
    ext x
    simp [h]
  · rename_i h
    simp [h]

theorem checkedAdd_ok {a b : Nat} (h : a + b < 2 ^ 64) : checkedAdd a b = some (a + b) := if_pos h

theorem planNode_step {policy : CachePlannerPolicy} {nodes : List CachePlanNode} {s : PlanState}
    {done : List String} (h : PlanInv policy nodes s done) {nodeId : String} {node : CachePlanNode}
    (hnode : findNode nodes nodeId = some node) :
    ∃ s', planNode policy nodes s nodeId = .ok s' ∧ PlanInv policy nodes s' (done ++ [nodeId]) := by
  have hmem : node ∈ nodes := List.mem_of_find?_eq_some hnode
  have hid : node.nodeId = nodeId := by simpa using List.find?_some hnode
  unfold planNode
  rw [hnode]
  simp only [panicking, Except.mapError, ok_bind]
  cases hbest : bestDecision policy (nodeDecisions policy node s) with
  | none =>
    refine ⟨_, rfl, ?_⟩
    have hnone := bestDecision_none hbest
    have hspent : (nodeDecisions policy node s).filter (fun d => d.selected) = [] :=
      List.filter_eq_nil_iff.mpr fun d hd => by simp [nodeDecisions_unselected d hd]
    refine ⟨by simp [h.ids], ?_, ?_, ?_, h.transfer_within, h.recomputation_within,
      spec_append h.spec ?_⟩
    · rw [selectedIds_append]
      exact h.selected
    · simp [h.transfer, spentTransfer, selected_sum hspent]
    · simp [h.recomputation, spentRecomputation, selected_sum hspent]
    · refine ⟨node, hmem, hid, fun candidate hcandidate hadmitted => ?_⟩
      rw [← h.transfer, ← h.recomputation, ← h.selected] at hadmitted
      have := hnone _ (List.mem_map_of_mem hcandidate)
      rw [evaluate_admissible.mpr hadmitted] at this
      cases this
  | some best =>
    obtain ⟨hposition, hadmissible, -⟩ := bestDecision_some hbest
    obtain ⟨candidate, hcandidate, hdecision⟩ := List.mem_map.mp (List.mem_of_getElem? hposition)
    rw [← hdecision] at hadmissible
    have hadmitted := evaluate_admissible.mp hadmissible
    have htransfer : best.1.transferBytes = candidate.transferBytes := by rw [← hdecision]; rfl
    have hrecomputation : best.1.recomputationUnits = candidate.recomputationUnits := by
      rw [← hdecision]
      rfl
    have hspent := filter_modify nodeDecisions_unselected hposition
    have htotal := hadmitted.transfer
    have hunits := hadmitted.recomputation
    rw [← htransfer] at htotal
    rw [← hrecomputation] at hunits
    simp only [checkedAdd_ok htotal.1, checkedAdd_ok hunits.1, require,
      refusing, Except.mapError, ok_bind]
    refine ⟨_, rfl, ⟨by simp [h.ids], ?_, ?_, ?_, htotal, hunits,
      spec_append h.spec ?_⟩⟩
    · rw [selectedIds_append, h.selected]
      rfl
    · simp [h.transfer, spentTransfer, selected_sum hspent, markSelected]
    · simp [h.recomputation, spentRecomputation, selected_sum hspent, markSelected]
    · refine ⟨node, hmem, hid, candidate, hcandidate, ?_, ?_, ?_, ?_, ?_⟩
      · rw [← hdecision]
        rfl
      · rw [← hdecision]
        rfl
      · simp [spentTransfer, selected_sum hspent, markSelected, htransfer]
      · simp [spentRecomputation, selected_sum hspent, markSelected, hrecomputation]
      · rw [← h.transfer, ← h.recomputation, ← h.selected]
        exact hadmitted

/-! ## The node map -/

theorem orderedInsert_sorted {map : List CachePlanNode} {node : CachePlanNode}
    (h : (map.map CachePlanNode.nodeId).Pairwise (· < ·))
    (hnew : ∀ n ∈ map, n.nodeId ≠ node.nodeId) :
    ((map.orderedInsert (fun a b => a.nodeId ≤ b.nodeId) node).map CachePlanNode.nodeId).Pairwise
      (· < ·) := by
  induction map with
  | nil => simp
  | cons n map ih =>
    rw [List.map_cons, List.pairwise_cons] at h
    rw [List.orderedInsert_cons]
    have hne := hnew n (by simp)
    split
    · rename_i hle
      have hlt : node.nodeId < n.nodeId := lt_of_le_of_ne hle (Ne.symm hne)
      rw [List.map_cons, List.pairwise_cons, List.map_cons]
      refine ⟨fun id hid => ?_, List.pairwise_cons.mpr h⟩
      rcases List.mem_cons.mp hid with rfl | hid
      · exact hlt
      · exact hlt.trans (h.1 id hid)
    · rename_i hle
      have hlt : n.nodeId < node.nodeId := not_le.mp hle
      rw [List.map_cons, List.pairwise_cons]
      refine ⟨fun id hid => ?_, ih h.2 fun m hm => hnew m (by simp [hm])⟩
      obtain ⟨m, hm, rfl⟩ := List.mem_map.mp hid
      rcases List.mem_orderedInsert _ |>.mp hm with rfl | hm
      · exact hlt
      · exact h.1 _ (List.mem_map_of_mem hm)

/-- The map holds the nodes sorted by identity, all of them valid. -/
theorem insertNodes_spec {map nodes result : List CachePlanNode}
    (h : insertNodes map nodes = .ok result)
    (hsorted : (map.map CachePlanNode.nodeId).Pairwise (· < ·)) :
    (result.map CachePlanNode.nodeId).Pairwise (· < ·) ∧ result.Perm (map ++ nodes) ∧
      ∀ node ∈ nodes, node.validate = .ok () := by
  induction nodes generalizing map with
  | nil =>
    cases h
    exact ⟨hsorted, by simp, by simp⟩
  | cons node rest ih =>
    obtain ⟨_, hvalid, hrest⟩ := bind_eq_ok h
    obtain ⟨_, hnew, hrest⟩ := bind_eq_ok hrest
    have hnew := check_ok hnew
    rw [List.any_eq_false] at hnew
    obtain ⟨hresult, hperm, hall⟩ := ih hrest
      (orderedInsert_sorted hsorted fun n hn => by simpa using hnew n hn)
    refine ⟨hresult, hperm.trans ?_, List.forall_mem_cons.mpr ⟨hvalid, hall⟩⟩
    exact ((List.perm_orderedInsert _ node map).append_right rest).trans List.perm_middle.symm

theorem checkDependencies_spec {nodes rest : List CachePlanNode} {u : Unit}
    (h : checkDependencies nodes rest = .ok u) :
    ∀ node ∈ rest, ∀ d ∈ node.dependencyNodeIds.items, (findNode nodes d).isSome = true := by
  induction rest with
  | nil => simp
  | cons node rest ih =>
    obtain ⟨_, hcheck, hrest⟩ := bind_eq_ok h
    have hcheck := check_ok hcheck
    rw [List.any_eq_false] at hcheck
    refine List.forall_mem_cons.mpr ⟨fun d hd => ?_, ih hrest⟩
    exact Option.isSome_iff_ne_none.mpr (by simpa using hcheck d hd)

/-- What the checks before the order establish. -/
structure Mapped (nodes : List CachePlanNode) : Prop where
  sorted : (nodes.map CachePlanNode.nodeId).Pairwise (· < ·)
  closed : ∀ n ∈ nodes.map CachePlanNode.nodeId, ∀ d ∈ dependenciesOf nodes n,
    d ∈ nodes.map CachePlanNode.nodeId

theorem mem_ids_iff {nodes : List CachePlanNode} {id : String} :
    id ∈ nodes.map CachePlanNode.nodeId ↔ ∃ node, findNode nodes id = some node := by
  constructor
  · intro h
    obtain ⟨node, hnode, rfl⟩ := List.mem_map.mp h
    cases hfind : findNode nodes node.nodeId with
    | some found => exact ⟨found, rfl⟩
    | none => simpa using List.find?_eq_none.mp hfind node hnode
  · rintro ⟨node, hnode⟩
    have hid : node.nodeId = id := by simpa using List.find?_some hnode
    exact List.mem_map.mpr ⟨node, List.mem_of_find?_eq_some hnode, hid⟩

theorem plannedNodes_spec {request : CachePlanRequest} {nodes : List CachePlanNode}
    (h : plannedNodes request = .ok nodes) : Mapped nodes ∧ nodes.Perm request.nodes := by
  obtain ⟨_, -, h⟩ := bind_eq_ok h
  obtain ⟨_, -, h⟩ := bind_eq_ok h
  obtain ⟨map, hmap, h⟩ := bind_eq_ok h
  obtain ⟨_, hdeps, h⟩ := bind_eq_ok h
  cases h
  obtain ⟨hsorted, hperm, -⟩ := insertNodes_spec hmap (by simp)
  refine ⟨⟨hsorted, fun n hn d hd => ?_⟩, by simpa using hperm⟩
  obtain ⟨node, hnode⟩ := mem_ids_iff.mp hn
  rw [dependenciesOf, hnode] at hd
  have := checkDependencies_spec hdeps node (List.mem_of_find?_eq_some hnode) d hd
  exact mem_ids_iff.mpr (Option.isSome_iff_exists.mp this)

theorem dependenciesOf_nodup (nodes : List CachePlanNode) (id : String) :
    (dependenciesOf nodes id).Nodup := by
  unfold dependenciesOf
  split
  · rename_i node _
    exact node.dependencyNodeIds.sorted.imp fun h => ne_of_lt h
  · exact List.nodup_nil

/-- The dependency graph of a map has a cycle. -/
def CyclicGraph (nodes : List CachePlanNode) : Prop :=
  TopologicalOrder.Cyclic (nodes.map CachePlanNode.nodeId) (dependenciesOf nodes)

/-- An order of the nodes that puts dependencies first. -/
structure Execution (nodes : List CachePlanNode) (order : List String) : Prop where
  perm : order.Perm (nodes.map CachePlanNode.nodeId)
  dependencies : ∀ earlier id later, order = earlier ++ id :: later →
    ∀ d ∈ dependenciesOf nodes id, d ∈ earlier

theorem topologicalOrder_spec {nodes : List CachePlanNode} (h : Mapped nodes) :
    (CyclicGraph nodes ∧ topologicalOrder nodes = .error (.refused cycleError)) ∨
      (¬ CyclicGraph nodes ∧ ∃ order, topologicalOrder nodes = .ok order ∧
        Execution nodes order) := by
  obtain ⟨order, horder, hcyclic, hperm, htop⟩ :=
    TopologicalOrder.ordered_spec h.sorted (dependenciesOf_nodup nodes) h.closed
  rw [List.length_map] at hcyclic hperm
  unfold topologicalOrder
  rw [horder]
  simp only [panicking, Except.mapError, ok_bind, check, bne_iff_ne, ne_eq]
  by_cases hlen : order.length = nodes.length
  · refine .inr ⟨fun hc => hcyclic.mpr hc hlen, order, ?_, hperm hlen, htop⟩
    simp [hlen, refusing, Except.mapError, pure, Except.pure]
  · refine .inl ⟨hcyclic.mp hlen, ?_⟩
    simp [hlen, refusing, Except.mapError]

/-! ## The whole plan -/

theorem foldlM_planNode {policy : CachePlannerPolicy} {nodes : List CachePlanNode}
    {rest done : List String} {s : PlanState} (h : PlanInv policy nodes s done)
    (hrest : ∀ id ∈ rest, ∃ node, findNode nodes id = some node) :
    ∃ s', rest.foldlM (planNode policy nodes) s = .ok s' ∧
    PlanInv policy nodes s' (done ++ rest) := by
  induction rest generalizing s done with
  | nil => exact ⟨s, rfl, by simpa using h⟩
  | cons id rest ih =>
    obtain ⟨node, hnode⟩ := hrest id (by simp)
    obtain ⟨s₁, hs₁, hinv⟩ := planNode_step h hnode
    obtain ⟨s₂, hs₂, hinv⟩ := ih hinv fun id hid => hrest id (by simp [hid])
    refine ⟨s₂, by rw [List.foldlM_cons, hs₁]; exact hs₂, ?_⟩
    rwa [List.append_assoc] at hinv

theorem initial_planInv (policy : CachePlannerPolicy) (nodes : List CachePlanNode) :
    PlanInv policy nodes ⟨∅, 0, 0, []⟩ [] :=
  ⟨rfl, rfl, rfl, rfl, ⟨by norm_num, fun _ _ => Nat.zero_le _⟩,
    ⟨by norm_num, fun _ _ => Nat.zero_le _⟩, fun earlier plan later h => by simp at h⟩

theorem selected_card {plans : List CacheNodePlan} (h : (plans.map CacheNodePlan.nodeId).Nodup) :
    (selectedIds plans).card = plans.length ↔
      ∀ plan ∈ plans, plan.selectedCandidateId.isSome = true := by
  have hnodup : ((plans.filter fun plan => plan.selectedCandidateId.isSome).map
      CacheNodePlan.nodeId).Nodup := h.sublist (List.filter_sublist.map _)
  rw [selectedIds, List.toFinset_card_of_nodup hnodup, List.length_map,
    List.length_filter_eq_length_iff]

/-- All the parts of a plan. -/
structure PlanSpec (request : CachePlanRequest) (nodes : List CachePlanNode)
    (plan : CacheDerivationPlan) : Prop where
  execution : Execution nodes plan.executionOrder
  ids : plan.nodes.map CacheNodePlan.nodeId = plan.executionOrder
  selections : ∀ earlier node later, plan.nodes = earlier ++ node :: later →
    NodeSpec request.policy nodes earlier node
  transfer : plan.totalTransferBytes = (plan.nodes.map spentTransfer).sum
  recomputation : plan.totalRecomputationUnits = (plan.nodes.map spentRecomputation).sum
  transfer_le : ∀ m, request.policy.maximumTotalTransferBytes = some m → plan.totalTransferBytes ≤ m
  recomputation_le : ∀ m, request.policy.maximumTotalRecomputationUnits = some m →
    plan.totalRecomputationUnits ≤ m
  complete : plan.complete = true ↔ ∀ node ∈ plan.nodes, node.selectedCandidateId.isSome = true

/-- What the function does once the checks have passed. -/
theorem planCacheDerivations_cases {request : CachePlanRequest} {nodes : List CachePlanNode}
    (h : plannedNodes request = .ok nodes) :
    (CyclicGraph nodes ∧ planCacheDerivations request = .error (.refused cycleError)) ∨
      (¬ CyclicGraph nodes ∧ ∃ plan, planCacheDerivations request = .ok plan ∧
        PlanSpec request nodes plan) := by
  obtain ⟨hmapped, -⟩ := plannedNodes_spec h
  unfold planCacheDerivations
  rw [h]
  simp only [refusing, Except.mapError, ok_bind]
  rcases topologicalOrder_spec hmapped with ⟨hcyclic, herror⟩ | ⟨hacyclic, order, horder, hexec⟩
  · exact .inl ⟨hcyclic, by rw [herror]; rfl⟩
  refine .inr ⟨hacyclic, ?_⟩
  obtain ⟨s, hs, hinv⟩ := foldlM_planNode (initial_planInv request.policy nodes)
    fun id hid => mem_ids_iff.mp (hexec.perm.mem_iff.mp hid)
  rw [List.nil_append] at hinv
  have hlen : s.plans.length = nodes.length := by
    have := congrArg List.length hinv.ids
    rw [List.length_map, hexec.perm.length_eq, List.length_map] at this
    exact this
  have hnodup : (s.plans.map CacheNodePlan.nodeId).Nodup := by
    rw [hinv.ids]
    exact hexec.perm.nodup_iff.mpr (hmapped.sorted.imp fun hlt => ne_of_lt hlt)
  refine ⟨_, by rw [horder, ok_bind, hs]; rfl, hexec, hinv.ids, hinv.spec, hinv.transfer,
    hinv.recomputation, hinv.transfer_within.2, hinv.recomputation_within.2, ?_⟩
  rw [beq_iff_eq, hinv.selected, ← hlen]
  exact selected_card hnodup

theorem planCacheDerivations_refused {request : CachePlanRequest} {error : CacheError}
    (h : plannedNodes request = .error error) :
    planCacheDerivations request = .error (.refused error) := by
  rw [planCacheDerivations, h]
  rfl

/-- **Derivation plans.** A request that passes the checks is refused exactly
when its graph has a cycle, otherwise it is planned; nothing else can happen, so
the refusals behind the selection are dead. -/
theorem planCacheDerivations_spec (request : CachePlanRequest) :
    (∀ error, plannedNodes request = .error error →
      planCacheDerivations request = .error (.refused error)) ∧
    ∀ nodes, plannedNodes request = .ok nodes → nodes.Perm request.nodes ∧
      (planCacheDerivations request = .error (.refused cycleError) ↔ CyclicGraph nodes) ∧
      (¬ CyclicGraph nodes → ∃ plan, planCacheDerivations request = .ok plan) ∧
      ∀ plan, planCacheDerivations request = .ok plan → PlanSpec request nodes plan := by
  constructor
  · intro error h
    exact planCacheDerivations_refused h
  · intro nodes h
    refine ⟨(plannedNodes_spec h).2, ?_⟩
    rcases planCacheDerivations_cases h with ⟨hcyclic, herror⟩ | ⟨hacyclic, plan, hplan, hspec⟩
    · refine ⟨⟨fun _ => hcyclic, fun _ => herror⟩, fun hne =>
        absurd hcyclic hne, fun plan hplan => ?_⟩
      rw [herror] at hplan
      cases hplan
    · refine ⟨⟨fun herror => ?_, fun hc => absurd hc hacyclic⟩, fun _ =>
        ⟨plan, hplan⟩, fun plan' hplan' => ?_⟩
      · rw [hplan] at herror
        cases herror
      · rw [hplan] at hplan'
        cases hplan'
        exact hspec

def samplePolicy : CachePlannerPolicy where
  schemaVersion := 1
  minimumTrust := .hashVerified
  maximumTotalTransferBytes := none
  maximumTotalRecomputationUnits := none
  preferenceOrder := allCriteria
  actionPreference := [.load]

def sampleCandidate : CachePlanCandidate where
  candidateId := "c"
  action := .load
  source := none
  trust := .hashVerified
  precisionBits := 64
  locality := .processLocal
  transferBytes := 1
  recomputationUnits := 0
  projectedAssurance := .computed
  dependencyNodeIds := ⟨["a"], by simp⟩
  compatible := true
  revoked := false
  available := true

/-- A node that names itself as a dependency. -/
def selfDependent : CachePlanNode where
  nodeId := "a"
  artifactFamily := "f"
  semanticDigest := ⟨"0000000000000000000000000000000000000000000000000000000000000000"⟩
  requiredAssurance := .computed
  minimumPrecisionBits := 1
  dependencyNodeIds := ⟨["a"], by simp⟩
  candidates := [sampleCandidate]

/-- Its graph is cyclic, but the checks on the node refuse it first. -/
theorem selfDependent_refused_earlier :
    ¬ ∀ request : CachePlanRequest,
      (planCacheDerivations request = .error (.refused cycleError) ↔
        CyclicGraph request.nodes) := by
  intro h
  have hcyclic : CyclicGraph [selfDependent] := ⟨"a", by simp [selfDependent], .single (by
    show "a" ∈ dependenciesOf [selfDependent] "a"
    decide)⟩
  have hplan := (h ⟨1, samplePolicy, [selfDependent]⟩).mpr hcyclic
  have hrefused : planCacheDerivations ⟨1, samplePolicy, [selfDependent]⟩ = .error (.refused
      (.invalidManifest "cache plan node identity, family, precision, dependencies, or candidates are invalid")) := by
    decide +kernel
  rw [hrefused] at hplan
  revert hplan
  decide

/-! ## Order independence -/

/-- Nodes that differ in the order of their candidates only. -/
structure SameNode (a b : CachePlanNode) : Prop where
  nodeId : a.nodeId = b.nodeId
  artifactFamily : a.artifactFamily = b.artifactFamily
  semanticDigest : a.semanticDigest = b.semanticDigest
  requiredAssurance : a.requiredAssurance = b.requiredAssurance
  minimumPrecisionBits : a.minimumPrecisionBits = b.minimumPrecisionBits
  dependencyNodeIds : a.dependencyNodeIds = b.dependencyNodeIds
  candidates : a.candidates.Perm b.candidates

theorem SameNode.symm {a b : CachePlanNode} (h : SameNode a b) : SameNode b a :=
  ⟨h.nodeId.symm, h.artifactFamily.symm, h.semanticDigest.symm, h.requiredAssurance.symm,
    h.minimumPrecisionBits.symm, h.dependencyNodeIds.symm, h.candidates.symm⟩

/-- Requests that differ in the order of nodes and candidates only. -/
structure SameRequest (r r' : CachePlanRequest) : Prop where
  schemaVersion : r.schemaVersion = r'.schemaVersion
  policy : r.policy = r'.policy
  nodes : ∃ nodes, r.nodes.Perm nodes ∧ List.Forall₂ SameNode nodes r'.nodes

theorem SameRequest.symm {r r' : CachePlanRequest} (h : SameRequest r r') : SameRequest r' r := by
  refine ⟨h.schemaVersion.symm, h.policy.symm, ?_⟩
  obtain ⟨nodes, hperm, hall⟩ := h.nodes
  have hcomp : Relation.Comp List.Perm (List.Forall₂ SameNode) r.nodes r'.nodes :=
    ⟨nodes, hperm, hall⟩
  rw [← List.forall₂_comp_perm_eq_perm_comp_forall₂] at hcomp
  obtain ⟨middle, hall, hperm⟩ := hcomp
  exact ⟨middle, hperm.symm, List.Forall₂.flip (hall.imp fun _ _ h => h.symm)⟩

/-! ### The node map -/

theorem validateCandidates_iff {seen : List String} {candidates : List CachePlanCandidate}
    {u : Unit} :
    validateCandidates seen candidates = .ok u ↔ (∀ c ∈ candidates, c.validate = .ok ()) ∧
      (candidates.map CachePlanCandidate.candidateId).Nodup ∧
      ∀ c ∈ candidates, c.candidateId ∉ seen := by
  induction candidates generalizing seen with
  | nil => exact ⟨fun _ => ⟨by simp, by simp, by simp⟩, fun _ => rfl⟩
  | cons c rest ih =>
    rw [validateCandidates, Artifact.bind_ok_iff]
    simp only [Artifact.bind_ok_iff, check_iff, ih, List.contains_eq_mem, decide_eq_false_iff_not,
      List.map_cons, List.nodup_cons, List.mem_cons, not_or, List.mem_map, not_exists,
      not_and, forall_eq_or_imp]
    constructor
    · rintro ⟨_, hc, _, hseen, hvalid, hnodup, hrest⟩
      exact ⟨⟨hc, hvalid⟩, ⟨fun d hd => (hrest d hd).1, hnodup⟩, hseen, fun d hd => (hrest d hd).2⟩
    · rintro ⟨⟨hc, hvalid⟩, ⟨hne, hnodup⟩, hseen, hrest⟩
      exact ⟨(), hc, (), hseen, hvalid, hnodup, fun d hd => ⟨hne d hd, hrest d hd⟩⟩

theorem validate_iff {node : CachePlanNode} :
    node.validate = .ok () ↔
      (blank node.nodeId || blank node.artifactFamily || !node.semanticDigest.validate ||
        node.minimumPrecisionBits == 0 || node.candidates.isEmpty ||
        node.dependencyNodeIds.items.contains node.nodeId) = false ∧
      (∀ c ∈ node.candidates, c.validate = .ok ()) ∧
      (node.candidates.map CachePlanCandidate.candidateId).Nodup := by
  rw [CachePlanNode.validate, Artifact.bind_ok_iff]
  simp only [check_iff, validateCandidates_iff]
  constructor
  · rintro ⟨_, hcheck, hvalid, hnodup, -⟩
    exact ⟨hcheck, hvalid, hnodup⟩
  · rintro ⟨hcheck, hvalid, hnodup⟩
    exact ⟨(), hcheck, hvalid, hnodup, by simp⟩

theorem SameNode.validate {a b : CachePlanNode} (h : SameNode a b) (ha : a.validate = .ok ()) :
    b.validate = .ok () := by
  rw [validate_iff] at ha ⊢
  rw [← h.nodeId, ← h.artifactFamily, ← h.semanticDigest, ← h.minimumPrecisionBits,
    ← h.dependencyNodeIds, ← h.candidates.isEmpty_eq]
  exact ⟨ha.1, fun c hc => ha.2.1 c (h.candidates.mem_iff.mpr hc),
    (h.candidates.map _).nodup_iff.mp ha.2.2⟩

theorem insertNodes_ok {map nodes : List CachePlanNode}
    (hvalid : ∀ node ∈ nodes, node.validate = .ok ())
    (hnodup : (nodes.map CachePlanNode.nodeId).Nodup)
    (hnew : ∀ node ∈ nodes, ∀ n ∈ map, n.nodeId ≠ node.nodeId) :
    ∃ result, insertNodes map nodes = .ok result := by
  induction nodes generalizing map with
  | nil => exact ⟨map, rfl⟩
  | cons node rest ih =>
    rw [List.map_cons, List.nodup_cons] at hnodup
    have hcheck : check (map.any fun n => n.nodeId = node.nodeId)
        (.invalidManifest "cache plan contains duplicate node identities") = .ok () := by
      rw [check_iff, List.any_eq_false]
      intro n hn
      simpa using hnew node (by simp) n hn
    rw [insertNodes, hvalid node (by simp), ok_bind, hcheck, ok_bind]
    refine ih (fun n hn => hvalid n (by simp [hn])) hnodup.2 fun n hn m hm => ?_
    rcases (List.mem_orderedInsert _).mp hm with rfl | hm
    · exact fun he => hnodup.1 (he ▸ List.mem_map_of_mem hn)
    · exact hnew n (by simp [hn]) m hm

theorem forall₂_of_ids {nodes nodes' : List CachePlanNode}
    (hids : nodes.map CachePlanNode.nodeId = nodes'.map CachePlanNode.nodeId)
    (h : ∀ a ∈ nodes, ∀ b ∈ nodes', a.nodeId = b.nodeId → SameNode a b) :
    List.Forall₂ SameNode nodes nodes' := by
  induction nodes generalizing nodes' with
  | nil =>
    cases nodes' with
    | nil => exact .nil
    | cons b rest => cases hids
  | cons a rest ih =>
    cases nodes' with
    | nil => cases hids
    | cons b rest' =>
      rw [List.map_cons, List.map_cons, List.cons.injEq] at hids
      exact .cons (h a (by simp) b (by simp) hids.1)
        (ih hids.2 fun x hx y hy => h x (by simp [hx]) y (by simp [hy]))

theorem checkDependencies_ok {nodes rest : List CachePlanNode}
    (h : ∀ node ∈ rest, ∀ d ∈ node.dependencyNodeIds.items, (findNode nodes d).isSome = true) :
    checkDependencies nodes rest = .ok () := by
  induction rest with
  | nil => rfl
  | cons node rest ih =>
    have hcheck : check (node.dependencyNodeIds.items.any fun d => (findNode nodes d).isNone)
        (.invalidManifest ("cache plan node " ++ debugText node.nodeId ++
          " names an unknown dependency")) =
        .ok () := by
      rw [check_iff, List.any_eq_false]
      intro d hd
      have := h node (by simp) d hd
      simp [Option.isSome_iff_ne_none.mp this]
    rw [checkDependencies, hcheck, ok_bind]
    exact ih fun n hn => h n (by simp [hn])

theorem forall₂_mem {nodes nodes' : List CachePlanNode} (h : List.Forall₂ SameNode nodes nodes') :
    (∀ a ∈ nodes, ∃ b ∈ nodes', SameNode a b) ∧ ∀ b ∈ nodes', ∃ a ∈ nodes, SameNode a b := by
  induction h with
  | nil => simp
  | cons hab _ ih =>
    refine ⟨List.forall_mem_cons.mpr ⟨⟨_, by simp, hab⟩, fun x hx => ?_⟩,
      List.forall_mem_cons.mpr ⟨⟨_, by simp, hab⟩, fun y hy => ?_⟩⟩
    · obtain ⟨y, hy, hxy⟩ := ih.1 x hx
      exact ⟨y, by simp [hy], hxy⟩
    · obtain ⟨x, hx, hxy⟩ := ih.2 y hy
      exact ⟨x, by simp [hx], hxy⟩

theorem forall₂_ids {nodes nodes' : List CachePlanNode} (h : List.Forall₂ SameNode nodes nodes') :
    nodes.map CachePlanNode.nodeId = nodes'.map CachePlanNode.nodeId := by
  induction h with
  | nil => rfl
  | cons hab _ ih => rw [List.map_cons, List.map_cons, ih, hab.nodeId]

/-- Requests that differ in order only build the same map, up to the order of
the candidates. -/
theorem SameRequest.plannedNodes {r r' : CachePlanRequest} (h : SameRequest r r')
    {nodes : List CachePlanNode} (hnodes : plannedNodes r = .ok nodes) :
    (∀ node ∈ nodes, node.validate = .ok ()) ∧
      ∃ nodes', plannedNodes r' = .ok nodes' ∧ List.Forall₂ SameNode nodes nodes' := by
  obtain ⟨_, hschema, hrest⟩ := bind_eq_ok hnodes
  obtain ⟨_, hpolicy, hrest⟩ := bind_eq_ok hrest
  obtain ⟨map, hmap, hrest⟩ := bind_eq_ok hrest
  obtain ⟨_, hdeps, hrest⟩ := bind_eq_ok hrest
  cases hrest
  obtain ⟨hsorted, hperm, hvalid⟩ := insertNodes_spec hmap (by simp)
  rw [List.nil_append] at hperm
  obtain ⟨aligned, haligned, hall⟩ := h.nodes
  have hids : (r.nodes.map CachePlanNode.nodeId).Perm (r'.nodes.map CachePlanNode.nodeId) :=
    (haligned.map _).trans (List.Perm.of_eq (forall₂_ids hall))
  have hnodup : (r.nodes.map CachePlanNode.nodeId).Nodup :=
    (hperm.map _).nodup_iff.mp (hsorted.imp fun hlt => ne_of_lt hlt)
  have hvalid' : ∀ node ∈ r'.nodes, node.validate = .ok () := by
    intro b hb
    obtain ⟨a, ha, hab⟩ := (forall₂_mem hall).2 b hb
    exact hab.validate (hvalid a (haligned.mem_iff.mpr ha))
  obtain ⟨map', hmap'⟩ : ∃ result, insertNodes [] r'.nodes = .ok result :=
    insertNodes_ok hvalid' (hids.nodup_iff.mp hnodup) (by simp)
  obtain ⟨hsorted', hperm', -⟩ := insertNodes_spec hmap' (by simp)
  rw [List.nil_append] at hperm'
  have hidsMap : nodes.map CachePlanNode.nodeId = map'.map CachePlanNode.nodeId :=
    List.Perm.eq_of_pairwise (fun a b _ _ hab hba => absurd hba hab.asymm) hsorted hsorted'
      ((hperm.map _).trans (hids.trans (hperm'.map _).symm))
  have hsame : List.Forall₂ SameNode nodes map' := by
    refine forall₂_of_ids hidsMap fun a ha b hb hid => ?_
    obtain ⟨c, hc, hac⟩ := (forall₂_mem hall).1 a (haligned.mem_iff.mp (hperm.mem_iff.mp ha))
    have hbc : b = c := List.inj_on_of_nodup_map (hids.nodup_iff.mp hnodup)
      (hperm'.mem_iff.mp hb) hc
      (hid.symm.trans hac.nodeId)
    rw [hbc]
    exact hac
  have hdeps' : checkDependencies map' map' = .ok () := by
    refine checkDependencies_ok fun b hb d hd => ?_
    obtain ⟨a, ha, hab⟩ := (forall₂_mem hsame).2 b hb
    have hsome := checkDependencies_spec hdeps a ha d (by rw [hab.dependencyNodeIds]; exact hd)
    have hmem : d ∈ nodes.map CachePlanNode.nodeId :=
      mem_ids_iff.mpr (Option.isSome_iff_exists.mp hsome)
    rw [hidsMap] at hmem
    exact Option.isSome_iff_exists.mpr (mem_ids_iff.mp hmem)
  refine ⟨fun node hnode => hvalid node (hperm.mem_iff.mp hnode), map', ?_, hsame⟩
  have hempty : r.nodes.isEmpty = r'.nodes.isEmpty := by
    rw [haligned.isEmpty_eq, Bool.eq_iff_iff, List.isEmpty_iff_length_eq_zero,
      List.isEmpty_iff_length_eq_zero, hall.length_eq]
  unfold Planner.plannedNodes
  rw [h.schemaVersion, hempty] at hschema
  rw [h.policy] at hpolicy
  rw [hschema, ok_bind, hpolicy, ok_bind, hmap', ok_bind, hdeps', ok_bind]
  rfl

/-! ### The choice -/

section
variable {policy : CachePlannerPolicy} {decisions decisions' : List CacheCandidatePlanDecision}

theorem sortDecisions_eq (hperm : decisions.Perm decisions')
    (hnodup : (decisions.map CacheCandidatePlanDecision.candidateId).Nodup) :
    sortDecisions decisions = sortDecisions decisions' := by
  have : Std.Total fun l r : CacheCandidatePlanDecision => l.candidateId ≤ r.candidateId :=
    ⟨fun l r => le_total l.candidateId r.candidateId⟩
  have : IsTrans CacheCandidatePlanDecision fun l r => l.candidateId ≤ r.candidateId :=
    ⟨fun _ _ _ => le_trans⟩
  refine List.Perm.eq_of_pairwise (fun a b ha hb hab hba => ?_)
    (List.pairwise_insertionSort _ decisions) (List.pairwise_insertionSort _ decisions')
    ((sortDecisions_perm decisions).trans (hperm.trans (sortDecisions_perm decisions').symm))
  exact List.inj_on_of_nodup_map hnodup ((sortDecisions_perm decisions).mem_iff.mp ha)
    (hperm.mem_iff.mpr ((sortDecisions_perm decisions').mem_iff.mp hb)) (le_antisymm hab hba)

/-- With distinct identities the position of a decision does not matter. -/
theorem modify_eq_map (hnodup : (decisions.map CacheCandidatePlanDecision.candidateId).Nodup)
    {i : Nat} {d : CacheCandidatePlanDecision} (hi : decisions[i]? = some d) :
    decisions.modify i markSelected =
      decisions.map fun x => if x.candidateId = d.candidateId then markSelected x else x := by
  refine List.ext_getElem (by simp) fun j hj hj' => ?_
  rw [List.length_map] at hj'
  rw [List.getElem_modify, List.getElem_map]
  obtain ⟨hlt, hget⟩ := List.getElem?_eq_some_iff.mp hi
  by_cases hij : i = j
  · subst hij
    simp [hget]
  · have hne : decisions[j].candidateId ≠ d.candidateId := by
      intro he
      have hd : decisions[j] = d :=
        List.inj_on_of_nodup_map hnodup (List.getElem_mem hj') (hget ▸ List.getElem_mem hlt) he
      exact hij ((List.Nodup.of_map _ hnodup).getElem_inj_iff.mp (hget.trans hd.symm))
    simp [hij, hne]

/-- The best decision does not depend on the order. -/
theorem bestDecision_perm (hperm : decisions.Perm decisions')
    (hnodup : (decisions.map CacheCandidatePlanDecision.candidateId).Nodup) :
    (bestDecision policy decisions = none ∧ bestDecision policy decisions' = none) ∨
      ∃ d i j, bestDecision policy decisions = some (d, i) ∧
        bestDecision policy decisions' = some (d, j) ∧
        sortDecisions (decisions.modify i markSelected) =
          sortDecisions (decisions'.modify j markSelected) := by
  have hadmissible : ∀ d, (d ∈ decisions ↔ d ∈ decisions') := fun d => hperm.mem_iff
  cases hb : bestDecision policy decisions with
  | none =>
    have hnone := bestDecision_none hb
    cases hb' : bestDecision policy decisions' with
    | none => exact .inl ⟨rfl, rfl⟩
    | some best' =>
      obtain ⟨hpos, hadm, -⟩ := bestDecision_some hb'
      rw [hnone _ ((hadmissible _).mpr (List.mem_of_getElem? hpos))] at hadm
      cases hadm
  | some best =>
    obtain ⟨hpos, hadm, hleast⟩ := bestDecision_some hb
    have hmem := (hadmissible _).mp (List.mem_of_getElem? hpos)
    cases hb' : bestDecision policy decisions' with
    | none =>
      rw [bestDecision_none hb' _ hmem] at hadm
      cases hadm
    | some best' =>
      obtain ⟨hpos', hadm', hleast'⟩ := bestDecision_some hb'
      have hmem' := (hadmissible _).mpr (List.mem_of_getElem? hpos')
      have := compareBy_trans policy policy.preferenceOrder
      have heq : compareBy policy policy.preferenceOrder best.1 best'.1 = .eq :=
        Std.OrientedCmp.isLE_antisymm (hleast _ hmem' hadm') (hleast' _ hmem hadm)
      have hsame : best.1 = best'.1 :=
        List.inj_on_of_nodup_map hnodup (List.mem_of_getElem? hpos) hmem' (compareBy_eq heq)
      have hnodup' := (hperm.map CacheCandidatePlanDecision.candidateId).nodup_iff.mp hnodup
      refine .inr ⟨best.1, best.2, best'.2, rfl, by rw [hsame], ?_⟩
      rw [modify_eq_map hnodup hpos, modify_eq_map hnodup' hpos', ← hsame]
      refine sortDecisions_eq (hperm.map _) ?_
      rw [List.map_map]
      refine (List.map_congr_left fun d _ => ?_).symm ▸ hnodup
      simp only [Function.comp_apply]
      split <;> rfl

end

theorem SameNode.decisions {a b : CachePlanNode} (h : SameNode a b) (policy : CachePlannerPolicy)
    (s : PlanState) : (nodeDecisions policy a s).Perm (nodeDecisions policy b s) := by
  have hevaluate : ∀ unavailable transfer recomputation,
      evaluateCandidate policy a unavailable transfer recomputation =
        evaluateCandidate policy b unavailable transfer recomputation := by
    intro unavailable transfer recomputation
    funext candidate
    simp only [evaluateCandidate, h.minimumPrecisionBits, h.requiredAssurance, h.dependencyNodeIds]
  simp only [nodeDecisions, hevaluate, h.dependencyNodeIds]
  exact h.candidates.map _

theorem nodeDecisions_ids (policy : CachePlannerPolicy) (node : CachePlanNode) (s : PlanState) :
    (nodeDecisions policy node s).map CacheCandidatePlanDecision.candidateId =
      node.candidates.map CachePlanCandidate.candidateId := by
  simp [nodeDecisions, evaluateCandidate, Function.comp_def]

theorem findNode_same {nodes nodes' : List CachePlanNode} (h : List.Forall₂ SameNode nodes nodes')
    (id : String) :
    (findNode nodes id = none ∧ findNode nodes' id = none) ∨
      ∃ a b, findNode nodes id = some a ∧ findNode nodes' id = some b ∧ SameNode a b := by
  induction h with
  | nil => exact .inl ⟨rfl, rfl⟩
  | @cons a b rest rest' hab _ ih =>
    by_cases hid : a.nodeId = id
    · exact .inr ⟨a, b, by simp [findNode, hid], by simp [findNode, ← hab.nodeId, hid], hab⟩
    · have hid' : b.nodeId ≠ id := fun he => hid (hab.nodeId.trans he)
      simpa [findNode, hid, hid'] using ih

theorem topologicalOrder_same {nodes nodes' : List CachePlanNode}
    (h : List.Forall₂ SameNode nodes nodes') :
    topologicalOrder nodes = topologicalOrder nodes' := by
  have hdeps : dependenciesOf nodes = dependenciesOf nodes' := by
    funext id
    unfold dependenciesOf
    rcases findNode_same h id with ⟨ha, hb⟩ | ⟨a, b, ha, hb, hab⟩
    · rw [ha, hb]
    · rw [ha, hb]
      exact congrArg StringSet.items hab.dependencyNodeIds
  unfold topologicalOrder
  rw [forall₂_ids h, hdeps, h.length_eq]

theorem planNode_same {nodes nodes' : List CachePlanNode} (h : List.Forall₂ SameNode nodes nodes')
    (hvalid : ∀ node ∈ nodes, node.validate = .ok ()) (policy : CachePlannerPolicy) :
    planNode policy nodes = planNode policy nodes' := by
  funext s id
  unfold planNode
  rcases findNode_same h id with ⟨ha, hb⟩ | ⟨a, b, ha, hb, hab⟩
  · rw [ha, hb]
  · have hnodup : ((nodeDecisions policy a s).map
        CacheCandidatePlanDecision.candidateId).Nodup := by
      rw [nodeDecisions_ids]
      exact (validate_iff.mp (hvalid a (List.mem_of_find?_eq_some ha))).2.2
    rw [ha, hb]
    simp only [panicking, Except.mapError, ok_bind]
    rcases @bestDecision_perm policy _ _ (hab.decisions policy s) hnodup with
      ⟨hn, hn'⟩ | ⟨d, i, j, hd, hd', hsort⟩
    · rw [hn, hn']
      simp only [hab.artifactFamily, hab.semanticDigest,
        sortDecisions_eq (hab.decisions policy s) hnodup]
    · rw [hd, hd']
      simp only [hab.artifactFamily, hab.semanticDigest, hsort]

theorem planCacheDerivations_same {r r' : CachePlanRequest} (h : SameRequest r r')
    {plan : CacheDerivationPlan} (hplan : planCacheDerivations r = .ok plan) :
    planCacheDerivations r' = .ok plan := by
  cases hnodes : plannedNodes r with
  | error error =>
    rw [planCacheDerivations_refused hnodes] at hplan
    cases hplan
  | ok nodes =>
    obtain ⟨hvalid, nodes', hnodes', hsame⟩ := h.plannedNodes hnodes
    rw [planCacheDerivations, hnodes] at hplan
    rw [planCacheDerivations, hnodes', ← hplan]
    simp only [refusing, Except.mapError, ok_bind, ← topologicalOrder_same hsame,
      ← planNode_same hsame hvalid, ← hsame.length_eq, h.policy]

/-- **Order independence.** Requests that differ only in the order of their
nodes and candidates get the same plan, or both fail. -/
theorem planCacheDerivations_order_independent {r r' : CachePlanRequest} (h : SameRequest r r') :
    (∃ plan, planCacheDerivations r = .ok plan ∧ planCacheDerivations r' = .ok plan) ∨
      ((∃ failure, planCacheDerivations r = .error failure) ∧
        ∃ failure, planCacheDerivations r' = .error failure) := by
  cases hr : planCacheDerivations r with
  | ok plan => exact .inl ⟨plan, rfl, planCacheDerivations_same h hr⟩
  | error failure =>
    refine .inr ⟨⟨failure, rfl⟩, ?_⟩
    cases hr' : planCacheDerivations r' with
    | error failure' => exact ⟨failure', rfl⟩
    | ok plan =>
      rw [planCacheDerivations_same h.symm hr'] at hr
      cases hr

/-- A leaf with two candidates. -/
def sampleLeaf : CachePlanNode where
  nodeId := "b"
  artifactFamily := "f"
  semanticDigest := selfDependent.semanticDigest
  requiredAssurance := .computed
  minimumPrecisionBits := 1
  dependencyNodeIds := ⟨[], by simp⟩
  candidates := [{ sampleCandidate with dependencyNodeIds := ⟨[], by simp⟩ },
    { sampleCandidate with candidateId := "d", transferBytes := 0, dependencyNodeIds := ⟨[], by
      simp⟩ }]

/-- A node over that leaf. -/
def sampleNode : CachePlanNode :=
  { selfDependent with
    dependencyNodeIds := ⟨["b"], by simp⟩
    candidates := [{ sampleCandidate with dependencyNodeIds := ⟨["b"], by simp⟩ }] }

/-- Both lists reversed: the cheaper leaf candidate is taken either way. -/
theorem planCacheDerivations_order_independent_sample :
    let r : CachePlanRequest := ⟨1, samplePolicy, [sampleLeaf, sampleNode]⟩
    let r' : CachePlanRequest :=
      ⟨1, samplePolicy, [sampleNode, { sampleLeaf with
        candidates := sampleLeaf.candidates.reverse }]⟩
    (planCacheDerivations r).map (fun plan => plan.nodes.map CacheNodePlan.selectedCandidateId) =
        .ok [some "d", some "c"] ∧
      ∃ plan, planCacheDerivations r = .ok plan ∧ planCacheDerivations r' = .ok plan := by
  intro r r'
  have hsame : SameRequest r r' := by
    refine ⟨rfl, rfl, [sampleNode, sampleLeaf], List.Perm.swap _ _ _, ?_⟩
    refine .cons ⟨rfl, rfl, rfl, rfl, rfl, rfl, .refl _⟩ (.cons ?_ .nil)
    exact ⟨rfl, rfl, rfl, rfl, rfl, rfl, (List.reverse_perm _).symm⟩
  have hchosen : (planCacheDerivations r).map (fun plan =>
    plan.nodes.map CacheNodePlan.selectedCandidateId) =
      .ok [some "d", some "c"] := by
    decide +kernel
  refine ⟨hchosen, ?_⟩
  rcases planCacheDerivations_order_independent hsame with h | ⟨⟨failure, hr⟩, -⟩
  · exact h
  · rw [hr] at hchosen
    cases hchosen

end Xcelerator.Cache.Planner
