import Mathlib
import Xcelerator.Variational.MaynardEnumeration
import Xcelerator.Variational.MaynardForms

/-! # The enumerations against their budgets

Both lists are strictly ordered by total degree and then lexicographically, and
their lengths are what the admission tests predict: the binomial coefficient of
the index budget, whose divisions are exact at every step, and the running total
of the partition counts. The partition table counts by largest part and the list
by number of parts; one recurrence governs both. -/

namespace Xcelerator.Variational.Maynard
open Xcelerator.Foundations.Machine

/-! ## Order -/

/-- By total degree, then lexicographically, strictly. -/
def gradedLt (a b : List Nat) : Prop := a.sum < b.sum ∨ a.sum = b.sum ∧ a < b

theorem gradedLt_of_le {a b : List Nat} (h : gradedLe a b) (hne : a ≠ b) : gradedLt a b := by
  rcases h with h | ⟨hsum, hle⟩
  · exact .inl h
  · exact .inr ⟨hsum, lt_of_le_of_ne hle hne⟩

instance : Std.Total gradedLe where
  total a b := by
    rcases lt_trichotomy a.sum b.sum with h | h | h
    · exact .inl (.inl h)
    · rcases le_total a b with hle | hle
      · exact .inl (.inr ⟨h, hle⟩)
      · exact .inr (.inr ⟨h.symm, hle⟩)
    · exact .inr (.inl h)

instance : IsTrans (List Nat) gradedLe where
  trans a b c hab hbc := by
    rcases hab with hab | ⟨hab, hle⟩
    · rcases hbc with hbc | ⟨hbc, _⟩
      · exact .inl (hab.trans hbc)
      · exact .inl (hab.trans_eq hbc)
    · rcases hbc with hbc | ⟨hbc, hle'⟩
      · exact .inl (hab.trans_lt hbc)
      · exact .inr ⟨hab.trans hbc, hle.trans hle'⟩

theorem pairwise_sortDedup {lists : List (List Nat)} (h : lists.Nodup) :
    (sortDedup lists).Pairwise gradedLt := by
  have hnodup := (sortDedup_perm h).nodup_iff.mpr h
  have hsame : sortDedup lists = lists.insertionSort gradedLe :=
    List.destutter_of_isChain (· ≠ ·) _
      (List.Pairwise.isChain ((List.perm_insertionSort gradedLe lists).nodup_iff.mpr h))
  have hsorted : (sortDedup lists).Pairwise gradedLe :=
    hsame ▸ List.pairwise_insertionSort gradedLe lists
  exact (hsorted.and hnodup).imp fun h => gradedLt_of_le h.1 h.2

/-! ## The index budget -/

theorem card_lexIndices (k bound : Nat) : (lexIndices k bound).length = (k + bound).choose k := by
  induction k generalizing bound with
  | zero => simp [lexIndices]
  | succ k ih =>
    induction bound with
    | zero => simp [lexIndices, ih]
    | succ bound ihbound =>
      have hsplit : (lexIndices (k + 1) (bound + 1)).length =
          (lexIndices k (bound + 1)).length + (lexIndices (k + 1) bound).length := by
        rw [lexIndices, lexIndices, List.range_succ_eq_map, List.flatMap_cons, List.length_append,
          List.length_map, Nat.sub_zero, List.flatMap_map, List.length_flatMap, List.length_flatMap]
        simp
      rw [hsplit, ih, ihbound, show k + 1 + (bound + 1) = k + 1 + bound + 1 by ring,
        Nat.choose_succ_succ, show k + (bound + 1) = k + 1 + bound by ring]

/-- What one step of the admission loop meets: the exact count so far, a division
without remainder and a product in range. -/
structure ExactStep (total order limit j : Nat) : Prop where
  count : budgetLoop total order limit (List.range' 1 j) 1 = .ok ((total - order + j).choose j)
  divides : j + 1 ∣ (total - order + j).choose j * (total - order + (j + 1))
  inRange : (total - order + j).choose j * (total - order + (j + 1)) < 2 ^ 128

theorem budgetLoop_append (total order limit : Nat) (done rest : List Nat) (count : Nat) :
    budgetLoop total order limit (done ++ rest) count =
      (budgetLoop total order limit done count >>= budgetLoop total order limit rest) := by
  induction done generalizing count with
  | nil => rfl
  | cons j done ih =>
    simp only [List.cons_append, budgetLoop, bind_assoc]
    congr 1
    funext scaled
    congr 1
    funext _
    exact ih _

/-- The binomial recurrence that the loop divides by. -/
theorem scaled_choose (excess j : Nat) :
    (excess + j).choose j * (excess + (j + 1)) = (j + 1) * (excess + (j + 1)).choose (j + 1) := by
  have h := Nat.add_one_mul_choose_eq (excess + j) j
  rw [show excess + (j + 1) = excess + j + 1 by ring, Nat.mul_comm, h, Nat.mul_comm]

theorem budgetLoop_exact {total order limit n count : Nat}
    (h : budgetLoop total order limit (List.range' 1 n) 1 = .ok count) :
    count = (total - order + n).choose n ∧ ∀ j < n, ExactStep total order limit j := by
  induction n generalizing count with
  | zero =>
    cases h
    exact ⟨by simp, by simp⟩
  | succ n ih =>
    rw [List.range'_1_concat, budgetLoop_append] at h
    obtain ⟨previous, hprevious, h⟩ := bind_eq_ok h
    obtain ⟨rfl, hsteps⟩ := ih hprevious
    obtain ⟨scaled, hscaled, h⟩ := bind_eq_ok h
    obtain ⟨_, -, h⟩ := bind_eq_ok h
    cases h
    obtain ⟨hrange, rfl⟩ := checked_eq_some (okOr_ok hscaled)
    rw [Nat.add_comm 1 n] at hrange ⊢
    refine ⟨?_, ?_⟩
    · rw [scaled_choose, Nat.mul_div_cancel_left _ (Nat.succ_pos n)]
    · intro j hj
      rcases Nat.lt_succ_iff_lt_or_eq.mp hj with hlt | rfl
      · exact hsteps j hlt
      · exact ⟨hprevious, scaled_choose _ _ ▸ Nat.dvd_mul_right _ _, hrange⟩

/-- The budget is the binomial coefficient, reached in exact steps. -/
theorem referenceIndexBudget_ok {k degree count : Nat}
    (h : referenceIndexBudget k degree = .ok count) :
    count = (k + degree).choose k ∧
      ∀ j < min k degree, ExactStep (k + degree) (min k degree)
      (256 * 2 ^ 20 / (8 * k + 192)) j := by
  unfold referenceIndexBudget at h
  obtain ⟨total, htotal, h⟩ := bind_eq_ok h
  obtain ⟨_, rfl⟩ := checked_eq_some (okOr_ok htotal)
  obtain ⟨reached, hreached, h⟩ := bind_eq_ok h
  obtain ⟨_, -, h⟩ := bind_eq_ok h
  obtain ⟨_, rfl⟩ := checked_eq_some (okOr_ok h)
  obtain ⟨hcount, hsteps⟩ := budgetLoop_exact hreached
  refine ⟨?_, hsteps⟩
  rw [hcount, Nat.sub_add_cancel (by omega)]
  rcases le_total k degree with hle | hle
  · rw [min_eq_left hle]
  · rw [min_eq_right hle, Nat.choose_symm_add]

/-! ## The partition counts -/

/-- Partitions of `total` into parts of at most `maximumPart`; by the same recurrence,
partitions into at most as many parts. -/
def partitionCount : Nat → Nat → Nat
  | 0, total => if total = 0 then 1 else 0
  | maximumPart + 1, total =>
    if _ : maximumPart + 1 ≤ total then
      partitionCount maximumPart total + partitionCount (maximumPart + 1)
        (total - (maximumPart + 1))
    else partitionCount maximumPart total
termination_by maximumPart total => (maximumPart, total)
decreasing_by
  all_goals
    simp_wf
    try omega

/-- The nonincreasing lists of `length` parts, zeros included, with a given sum. -/
def paddedPartitions : Nat → Nat → List (List Nat)
  | 0, total => if total = 0 then [[]] else []
  | length + 1, total =>
    if _ : length + 1 ≤ total then
      (paddedPartitions length total).map (· ++ [0]) ++
        (paddedPartitions (length + 1) (total - (length + 1))).map (List.map (· + 1))
    else (paddedPartitions length total).map (· ++ [0])
termination_by length total => (length, total)
decreasing_by
  all_goals
    simp_wf
    try omega

theorem length_paddedPartitions (length total : Nat) :
    (paddedPartitions length total).length = partitionCount length total := by
  induction length, total using paddedPartitions.induct with
  | case1 => simp [paddedPartitions, partitionCount]
  | case2 total h => simp [paddedPartitions, partitionCount, h]
  | case3 length total h ih ih' =>
    rw [paddedPartitions, partitionCount, dif_pos h, dif_pos h, List.length_append, List.length_map,
      List.length_map, ih, ih']
  | case4 length total h ih =>
    rw [paddedPartitions, partitionCount, dif_neg h, dif_neg h, List.length_map, ih]

theorem sum_map_succ (parts : List Nat) : (parts.map (· + 1)).sum = parts.sum + parts.length := by
  induction parts with
  | nil => rfl
  | cons x parts ih =>
    rw [List.map_cons, List.sum_cons, ih, List.sum_cons, List.length_cons]
    ring

/-- A nonincreasing list ends in zero or is a successor in every part. -/
theorem padded_cases {length : Nat} {parts : List Nat} (hlength : parts.length = length + 1)
    (hsorted : parts.Pairwise (· ≥ ·)) :
    (∃ front, parts = front ++ [0] ∧ front.length = length ∧ front.Pairwise (· ≥ ·)) ∨
      ∃ lower : List Nat, parts = lower.map (· + 1) ∧ lower.length = length + 1 ∧
      lower.Pairwise (· ≥ ·) := by
  have hne : parts ≠ [] := fun h => by simp [h] at hlength
  obtain ⟨front, final, rfl⟩ := (List.eq_nil_or_concat parts).resolve_left hne
  rw [List.concat_eq_append] at hlength hsorted ⊢
  obtain ⟨hfront, _, hfinal⟩ := List.pairwise_append.mp hsorted
  have hlen : front.length = length := by simpa using hlength
  rcases final with _ | final
  · exact .inl ⟨front, rfl, hlen, hfront⟩
  · refine .inr ⟨(front ++ [final + 1]).map Nat.pred, ?_, by simp [hlen], ?_⟩
    · rw [List.map_map]
      refine Eq.symm ((List.map_congr_left (g := id) fun x hx => ?_).trans (List.map_id _))
      have hpos : 0 < x := by
        rcases List.mem_append.mp hx with hx | hx
        · exact Nat.lt_of_lt_of_le (Nat.succ_pos final) (hfinal x hx (final + 1) (by simp))
        · rw [List.mem_singleton.mp hx]
          exact Nat.succ_pos final
      exact Nat.succ_pred_eq_of_pos hpos
    · exact List.pairwise_map.mpr (hsorted.imp fun h => Nat.pred_le_pred h)

theorem mem_paddedPartitions {length total : Nat} {parts : List Nat} :
    parts ∈ paddedPartitions length total ↔
      (parts.length = length ∧ parts.sum = total) ∧ parts.Pairwise (· ≥ ·) := by
  have hzero : ∀ {front : List Nat}, front.Pairwise (· ≥ ·) → (front ++ [0]).Pairwise (· ≥ ·) := by
    intro front h
    exact List.pairwise_append.mpr ⟨h, List.pairwise_singleton _ _, fun x _ y hy => by
      rw [List.mem_singleton.mp hy]
      exact Nat.zero_le x⟩
  induction length, total using paddedPartitions.induct generalizing parts with
  | case1 =>
    rw [paddedPartitions, if_pos rfl, List.mem_singleton]
    constructor
    · rintro rfl
      simp
    · intro h
      exact List.length_eq_zero_iff.mp h.1.1
  | case2 total h =>
    rw [paddedPartitions, if_neg h]
    simp only [List.not_mem_nil, false_iff]
    rintro ⟨⟨hlength, hsum⟩, _⟩
    rw [List.length_eq_zero_iff.mp hlength] at hsum
    exact h hsum.symm
  | case3 length total h ih ih' =>
    rw [paddedPartitions, dif_pos h, List.mem_append, List.mem_map, List.mem_map]
    constructor
    · rintro (⟨front, hfront, rfl⟩ | ⟨lower, hlower, rfl⟩)
      · obtain ⟨⟨hlength, hsum⟩, hsorted⟩ := ih.mp hfront
        exact ⟨⟨by simp [hlength], by simp [hsum]⟩, hzero hsorted⟩
      · obtain ⟨⟨hlength, hsum⟩, hsorted⟩ := ih'.mp hlower
        refine ⟨⟨by simp [hlength], ?_⟩,
          List.pairwise_map.mpr (hsorted.imp fun h => Nat.succ_le_succ h)⟩
        rw [sum_map_succ, hsum, hlength]
        omega
    · rintro ⟨⟨hlength, hsum⟩, hsorted⟩
      rcases padded_cases hlength hsorted with ⟨front, rfl, hfront, hf⟩ | ⟨lower, rfl, hlower, hl⟩
      · exact .inl ⟨front, ih.mpr ⟨⟨hfront, by simpa using hsum⟩, hf⟩, rfl⟩
      · refine .inr ⟨lower, ih'.mpr ⟨⟨hlower, ?_⟩, hl⟩, rfl⟩
        rw [sum_map_succ, hlower] at hsum
        omega
  | case4 length total h ih =>
    rw [paddedPartitions, dif_neg h, List.mem_map]
    constructor
    · rintro ⟨front, hfront, rfl⟩
      obtain ⟨⟨hlength, hsum⟩, hsorted⟩ := ih.mp hfront
      exact ⟨⟨by simp [hlength], by simp [hsum]⟩, hzero hsorted⟩
    · rintro ⟨⟨hlength, hsum⟩, hsorted⟩
      rcases padded_cases hlength hsorted with ⟨front, rfl, hfront, hf⟩ | ⟨lower, rfl, hlower, -⟩
      · exact ⟨front, ih.mpr ⟨⟨hfront, by simpa using hsum⟩, hf⟩, rfl⟩
      · rw [sum_map_succ, hlower] at hsum
        omega

theorem nodup_paddedPartitions (length total : Nat) : (paddedPartitions length total).Nodup := by
  have hfront : ∀ {lists : List (List Nat)}, lists.Nodup → (lists.map (· ++ [0])).Nodup := by
    intro lists h
    exact h.map fun a b hab => List.append_cancel_right hab
  induction length, total using paddedPartitions.induct with
  | case1 => simp [paddedPartitions]
  | case2 total h => simp [paddedPartitions, h]
  | case3 length total h ih ih' =>
    rw [paddedPartitions, dif_pos h]
    refine List.nodup_append'.mpr ⟨hfront ih, ih'.map (List.map_injective_iff.mpr fun a b h => ?_),
      ?_⟩
    · exact Nat.succ.inj h
    · -- one list ends in zero, the other has no zero
      intro parts hparts hparts'
      obtain ⟨front, -, rfl⟩ := List.mem_map.mp hparts
      obtain ⟨lower, -, hlower⟩ := List.mem_map.mp hparts'
      have hmem : 0 ∈ lower.map (· + 1) := by rw [hlower]; simp
      obtain ⟨x, -, hx⟩ := List.mem_map.mp hmem
      exact absurd hx (Nat.succ_ne_zero x)
  | case4 length total h ih =>
    rw [paddedPartitions, dif_neg h]
    exact hfront ih

/-- Padding with zeros is a bijection from the partitions with few parts. -/
theorem isPartition_iff {slots total : Nat} {parts : List Nat} :
    IsPartition slots total total parts ↔
      parts.length ≤ slots ∧ (∀ x ∈ parts, 0 < x) ∧
        parts ++ List.replicate (slots - parts.length) 0 ∈ paddedPartitions slots total := by
  rw [mem_paddedPartitions]
  constructor
  · intro h
    refine ⟨h.length, fun x hx => (h.bounds x hx).1, ⟨?_, by simp [h.sum]⟩, ?_⟩
    · have := h.length
      simp only [List.length_append, List.length_replicate]
      omega
    · refine List.pairwise_append.mpr ⟨h.nonincreasing, by simp, fun x _ y hy => ?_⟩
      rw [List.eq_of_mem_replicate hy]
      exact Nat.zero_le x
  · rintro ⟨hlength, hpos, ⟨-, hsum⟩, hsorted⟩
    have hsum : parts.sum = total := by simpa using hsum
    refine ⟨hsum, hlength, fun x hx => ⟨hpos x hx, hsum ▸ List.single_le_sum (by simp) x hx⟩, ?_⟩
    exact (List.pairwise_append.mp hsorted).1

/-- Removing the zeros of a padded partition leaves the partition. -/
theorem filter_pad {parts : List Nat} (h : ∀ x ∈ parts, 0 < x) (n : Nat) :
    (parts ++ List.replicate n 0).filter (0 < ·) = parts := by
  rw [List.filter_append, List.filter_eq_self.mpr (by simpa using h), List.filter_replicate]
  simp

/-- A nonincreasing list is its positive parts followed by zeros. -/
theorem pad_filter {parts : List Nat} (h : parts.Pairwise (· ≥ ·)) :
    parts.filter (0 < ·) ++ List.replicate (parts.length - (parts.filter (0 < ·)).length) 0 =
      parts := by
  induction parts with
  | nil => rfl
  | cons x parts ih =>
    obtain ⟨hle, hrest⟩ := List.pairwise_cons.mp h
    rcases Nat.eq_zero_or_pos x with rfl | hx
    · have hzero : ∀ y ∈ parts, y = 0 := fun y hy => Nat.le_zero.mp (hle y hy)
      have hfilter : (0 :: parts).filter (0 < ·) = [] := by
        rw [List.filter_eq_nil_iff]
        intro y hy
        rcases List.mem_cons.mp hy with rfl | hy
        · simp
        · simp [hzero y hy]
      rw [hfilter, List.nil_append, List.length_nil, Nat.sub_zero, eq_comm, List.eq_replicate_iff]
      exact ⟨rfl, fun y hy => (List.mem_cons.mp hy).elim id (hzero y)⟩
    · rw [List.filter_cons_of_pos (by simpa using hx), List.length_cons, List.length_cons,
        Nat.add_sub_add_right, List.cons_append, ih hrest]

/-- As many partitions with at most `slots` parts as the recurrence counts. -/
theorem exists_partitions (slots total : Nat) :
    ∃ partitions : List IntegerPartition,
    (partitions.Nodup ∧ partitions.length = partitionCount slots total) ∧
      ∀ parts, parts ∈ partitions ↔ IsPartition slots total total parts := by
  have hpositive : ∀ parts : List Nat, ∀ x ∈ parts.filter (0 < ·), 0 < x := by
    intro parts x hx
    simpa using (List.mem_filter.mp hx).2
  have hback : ∀ parts ∈ paddedPartitions slots total,
      parts.filter (0 < ·) ++ List.replicate (slots - (parts.filter (0 < ·)).length) 0 = parts := by
    intro parts hparts
    obtain ⟨⟨hlength, -⟩, hsorted⟩ := mem_paddedPartitions.mp hparts
    rw [← hlength]
    exact pad_filter hsorted
  refine ⟨(paddedPartitions slots total).map (List.filter (0 < ·)), ⟨?_, ?_⟩, ?_⟩
  · refine (nodup_paddedPartitions slots total).map_on fun a ha b hb hab => ?_
    rw [← hback a ha, ← hback b hb, hab]
  · rw [List.length_map, length_paddedPartitions]
  · intro parts
    rw [List.mem_map, isPartition_iff]
    constructor
    · rintro ⟨padded, hpadded, rfl⟩
      refine ⟨?_, hpositive padded, by rwa [hback padded hpadded]⟩
      exact (List.length_filter_le _ _).trans (mem_paddedPartitions.mp hpadded).1.1.le
    · rintro ⟨-, hpos, hmem⟩
      exact ⟨_, hmem, filter_pad hpos _⟩

theorem partitionCount_of_lt {maximumPart total : Nat} (h : total < maximumPart + 1) :
    partitionCount (maximumPart + 1) total = partitionCount maximumPart total := by
  rw [partitionCount, dif_neg (not_le.mpr h)]

theorem partitionCount_add (maximumPart total : Nat) :
    partitionCount (maximumPart + 1) (maximumPart + 1 + total) =
      partitionCount maximumPart (maximumPart + 1 + total) + partitionCount
        (maximumPart + 1) total := by
  rw [partitionCount, dif_pos (Nat.le_add_right _ _), Nat.add_sub_cancel_left]

/-- Parts above the total do not count. -/
theorem partitionCount_min {k degree total : Nat} (h : total ≤ degree) :
    partitionCount (min k degree) total = partitionCount k total := by
  rcases le_total k degree with hle | hle
  · rw [min_eq_left hle]
  · rw [min_eq_right hle]
    induction k, hle using Nat.le_induction with
    | base => rfl
    | succ k hk ih => rw [partitionCount_of_lt (by omega), ih]

/-! ## The table -/

/-- A table of counts that saturate above the limit. -/
def Saturates (limit degree : Nat) (counts : List Nat) (count : Nat → Nat) : Prop :=
  counts.length = degree + 1 ∧ ∀ total ≤ degree, counts.getD total 0 = min (count total) (limit + 1)

theorem saturates_initial (limit degree : Nat) :
    Saturates limit degree ((List.replicate (degree + 1) 0).set 0 1) (partitionCount 0) := by
  refine ⟨by simp, fun total htotal => ?_⟩
  rcases Nat.eq_zero_or_pos total with rfl | hpos
  · simp [partitionCount]
  · rw [List.getD_eq_getElem?_getD, List.getElem?_set_ne (by omega), partitionCount,
      if_neg (by omega)]
    simp [htotal]

/-- The inner loop reads what it has already written: after the totals below `bound`
the table counts partitions with the new part there and without it above. -/
theorem addPart_loop {limit degree part : Nat} {counts : List Nat}
    (h : Saturates limit degree counts (partitionCount part)) (n : Nat) (hn : n ≤ degree - part) :
    Saturates limit degree
      ((List.range' (part + 1) n).foldl (fun counts total => counts.set total
        (min (counts.getD total 0 + counts.getD (total - (part + 1)) 0) (limit + 1))) counts)
      fun total => if total < part + 1 + n then partitionCount (part + 1) total else
        partitionCount part total := by
  induction n with
  | zero =>
    refine ⟨h.1, fun total htotal => ?_⟩
    rw [List.range'_zero, List.foldl_nil, h.2 total htotal]
    dsimp only
    split
    · rename_i hlt
      rw [partitionCount_of_lt hlt]
    · rfl
  | succ n ih =>
    obtain ⟨hlength, hcounts⟩ := ih (by omega)
    rw [List.range'_concat, Nat.one_mul, List.foldl_append, List.foldl_cons, List.foldl_nil]
    generalize (List.range' (part + 1) n).foldl _ counts = table at hlength hcounts ⊢
    refine ⟨by rw [List.length_set, hlength], fun total htotal => ?_⟩
    rw [List.getD_eq_getElem?_getD]
    by_cases heq : total = part + 1 + n
    · subst heq
      have hold := hcounts (part + 1 + n) htotal
      have hback := hcounts n (by omega)
      dsimp only at hold hback ⊢
      rw [if_neg (by omega)] at hold
      rw [if_pos (by omega)] at hback
      rw [List.getElem?_set_self (by omega), Option.getD_some, hold, Nat.add_sub_cancel_left, hback,
        if_pos (by omega), partitionCount_add]
      omega
    · rw [List.getElem?_set_ne (Ne.symm heq), ← List.getD_eq_getElem?_getD, hcounts total htotal]
      congr 1
      dsimp only
      split
      · rw [if_pos (by omega)]
      · rw [if_neg (by omega)]

theorem addPart_saturates {limit degree part : Nat} {counts : List Nat} (hpart : part + 1 ≤ degree)
    (h : Saturates limit degree counts (partitionCount part)) :
    Saturates limit degree (addPart degree limit counts (part + 1))
    (partitionCount (part + 1)) := by
  obtain ⟨hlength, hcounts⟩ := addPart_loop h (degree - part) le_rfl
  unfold addPart
  rw [Nat.add_sub_add_right]
  refine ⟨hlength, fun total htotal => ?_⟩
  rw [hcounts total htotal]
  dsimp only
  rw [if_pos (by omega)]

theorem table_saturates (limit degree : Nat) {n : Nat} (hn : n ≤ degree) :
    Saturates limit degree ((List.range' 1 n).foldl (addPart degree limit)
      ((List.replicate (degree + 1) 0).set 0 1)) (partitionCount n) := by
  induction n with
  | zero => exact saturates_initial limit degree
  | succ n ih =>
    rw [List.range'_1_concat, List.foldl_append, List.foldl_cons, List.foldl_nil, Nat.add_comm 1 n]
    exact addPart_saturates hn (ih (by omega))

theorem cumulate_eq (counts : List Nat) :
    (cumulate counts).2 = counts.sum ∧
      ∀ n < counts.length, (cumulate counts).1[n]? = some (counts.take (n + 1)).sum := by
  have hrun : ∀ counts : List Nat, ∃ done, cumulate counts = (done, counts.sum) ∧
      done.length = counts.length ∧
      ∀ n < counts.length, done[n]? = some (counts.take (n + 1)).sum := by
    intro counts
    induction counts using List.reverseRecOn with
    | nil => exact ⟨[], rfl, rfl, by simp⟩
    | append_singleton counts count ih =>
      obtain ⟨done, hdone, hlength, hread⟩ := ih
      unfold cumulate at hdone ⊢
      rw [List.foldl_append, hdone]
      refine ⟨done ++ [counts.sum + count], by simp, by simp [hlength], fun n hn => ?_⟩
      rw [List.length_append, List.length_singleton] at hn
      rcases Nat.lt_succ_iff_lt_or_eq.mp hn with hlt | rfl
      · rw [List.getElem?_append_left (by omega), hread n hlt,
          List.take_append_of_le_length (by omega)]
      · rw [List.getElem?_append_right hlength.le, hlength, Nat.sub_self,
          List.take_of_length_le (by simp)]
        simp
  obtain ⟨done, hdone, -, hread⟩ := hrun counts
  rw [hdone]
  exact ⟨rfl, hread⟩

/-- Below the limit no count has saturated. -/
theorem sum_take_saturates {limit degree n : Nat} {counts : List Nat} {count : Nat → Nat}
    (h : Saturates limit degree counts count) (hlimit : counts.sum ≤ limit) (hn : n ≤ degree) :
    (counts.take (n + 1)).sum = ((List.range (n + 1)).map count).sum := by
  obtain ⟨hlength, hcounts⟩ := h
  congr 1
  refine List.ext_getElem (by simp; omega) fun i hi hi' => ?_
  rw [List.length_take] at hi
  have hget := hcounts i (by omega)
  rw [List.getD_eq_getElem _ _ (by omega)] at hget
  have hle : counts[i] ≤ limit :=
    (List.single_le_sum (by simp) _ (List.getElem_mem (by omega))).trans hlimit
  rw [List.getElem_take, List.getElem_map, List.getElem_range, hget]
  omega

/-- The admission table: at every degree the number of partitions up to it. -/
theorem partitionCountsWithBudget_ok {k degree : Nat} {counts : List Nat}
    (h : partitionCountsWithBudget k degree = .ok counts) {n : Nat} (hn : n ≤ degree) :
    counts[n]? = some ((List.range (n + 1)).map (partitionCount k)).sum := by
  unfold partitionCountsWithBudget at h
  obtain ⟨width, hwidth, h⟩ := bind_eq_ok h
  obtain ⟨-, rfl⟩ := checked_eq_some (okOr_ok hwidth)
  obtain ⟨_, -, h⟩ := bind_eq_ok h
  obtain ⟨_, hlimit, h⟩ := bind_eq_ok h
  cases h
  have htable := table_saturates (256 * 2 ^ 20 / (96 + 4 * min k degree)) degree
    (min_le_right k degree)
  obtain ⟨htotal, hread⟩ := cumulate_eq ((List.range' 1 (min k degree)).foldl
    (addPart degree (256 * 2 ^ 20 / (96 + 4 * min k degree)))
    ((List.replicate (degree + 1) 0).set 0 1))
  have hle := of_decide_eq_true (check_ok hlimit)
  rw [htotal] at hle
  rw [hread n (by rw [htable.1]; omega), sum_take_saturates htable hle hn]
  congr 2
  refine List.map_congr_left fun total htotal => ?_
  exact partitionCount_min ((Nat.lt_succ_iff.mp (List.mem_range.mp htotal)).trans hn)

/-! ## Agreement -/

theorem length_of_same_members {α : Type} {xs ys : List α} (hx : xs.Nodup) (hy : ys.Nodup)
    (h : ∀ a, a ∈ xs ↔ a ∈ ys) : xs.length = ys.length :=
  ((List.perm_ext_iff_of_nodup hx hy).mpr h).length_eq

/-- The partitions up to a degree, counted total by total. -/
theorem length_partitions {k degree : Nat} {partitions : List IntegerPartition}
    (hnodup : partitions.Nodup)
    (hmem : ∀ parts, parts ∈ partitions ↔ ∃ total ≤ degree, IsPartition k total total parts) :
    partitions.length = ((List.range (degree + 1)).map (partitionCount k)).sum := by
  choose blocks hblocks using exists_partitions k
  have hall : ((List.range (degree + 1)).flatMap blocks).Nodup := by
    refine List.nodup_flatMap.mpr ⟨fun total _ => (hblocks total).1.1, ?_⟩
    refine List.nodup_range.imp fun {x y} hne parts hx hy => ?_
    exact hne ((((hblocks x).2 parts).mp hx).sum.symm.trans (((hblocks y).2 parts).mp hy).sum)
  have hsame : ∀ parts, parts ∈ partitions ↔ parts ∈ (List.range (degree + 1)).flatMap blocks := by
    intro parts
    rw [hmem, List.mem_flatMap]
    constructor
    · rintro ⟨total, htotal, hpart⟩
      exact ⟨total, List.mem_range.mpr (by omega), ((hblocks total).2 parts).mpr hpart⟩
    · rintro ⟨total, htotal, hpart⟩
      exact ⟨total, Nat.lt_succ_iff.mp (List.mem_range.mp htotal),
        ((hblocks total).2 parts).mp hpart⟩
  rw [length_of_same_members hnodup hall hsame, List.length_flatMap]
  congr 1
  exact List.map_congr_left fun total _ => (hblocks total).1.2

/-- Where the enumerations succeed, they list every index and every partition once in
graded order, as many as their budgets predicted. -/
theorem enumerations_match_budgets (k degree : Nat) :
    (∀ indices, enumerateMultiIndices k degree = .ok indices →
        (indices.Pairwise gradedLt ∧ indices.Nodup ∧
            ∀ index, index ∈ indices ↔ index.length = k ∧ index.sum ≤ degree) ∧
          (indices.length = (k + degree).choose k ∧
            referenceIndexBudget k degree = .ok indices.length) ∧
            ∀ j < min k degree, ExactStep (k + degree) (min k degree)
            (256 * 2 ^ 20 / (8 * k + 192)) j) ∧
      ∀ partitions, enumerateIntegerPartitions k degree = .ok partitions →
        (partitions.Pairwise gradedLt ∧ partitions.Nodup ∧
            ∀ parts, parts ∈ partitions ↔ ∃ total ≤ degree, IsPartition k total total parts) ∧
          ∃ counts, partitionCountsWithBudget k degree = .ok counts ∧
            counts[degree]? = some partitions.length := by
  refine ⟨fun indices h => ?_, fun partitions h => ?_⟩
  · obtain ⟨hnodup, hmem⟩ := enumerateMultiIndices_ok h
    have hsame := enumerateMultiIndices_eq h
    have hlength : indices.length = (k + degree).choose k := by
      rw [length_of_same_members hnodup (nodup_lexIndices k degree) fun index =>
        (hmem index).trans mem_lexIndices.symm, card_lexIndices]
    obtain ⟨_, -, h⟩ := bind_eq_ok h
    obtain ⟨_, -, h⟩ := bind_eq_ok h
    obtain ⟨count, hcount, -⟩ := bind_eq_ok h
    obtain ⟨hchoose, hsteps⟩ := referenceIndexBudget_ok hcount
    refine ⟨⟨?_, hnodup, hmem⟩, ⟨hlength, by rw [hcount, hchoose, hlength]⟩, hsteps⟩
    rw [hsame]
    exact pairwise_sortDedup (nodup_lexIndices k degree)
  · obtain ⟨hnodup, hmem⟩ := enumerateIntegerPartitions_ok h
    obtain ⟨hsame, counts, count, ⟨hcounts, hcount⟩, -⟩ := enumerateIntegerPartitions_eq h
    refine ⟨⟨?_, hnodup, hmem⟩, counts, hcounts, ?_⟩
    · rw [hsame]
      exact pairwise_sortDedup (nodup_partitions k degree)
    · rw [partitionCountsWithBudget_ok hcounts le_rfl, length_partitions hnodup hmem]

/-- Degree two on two variables: six indices and four partitions. -/
theorem enumerations_match_budgets_plane :
    ∃ indices partitions, (enumerateMultiIndices 2 2 = .ok indices ∧
        enumerateIntegerPartitions 2 2 = .ok partitions) ∧ indices.length = 6 ∧
      partitionCountsWithBudget 2 2 = .ok [1, 2, 4] ∧ partitions.length = 4 := by
  have hindices : enumerateMultiIndices 2 2 =
      .ok [[0, 0], [0, 1], [1, 0], [0, 2], [1, 1], [2, 0]] := by decide +kernel
  have hpartitions : enumerateIntegerPartitions 2 2 = .ok [[], [1], [1, 1], [2]] :=
    by decide +kernel
  have hcounts : partitionCountsWithBudget 2 2 = .ok [1, 2, 4] := by decide +kernel
  refine ⟨_, _, ⟨hindices, hpartitions⟩, ?_, hcounts, ?_⟩
  · exact ((enumerations_match_budgets 2 2).1 _ hindices).2.1.1
  · obtain ⟨_, counts, hread, hlength⟩ := (enumerations_match_budgets 2 2).2 _ hpartitions
    cases hcounts.symm.trans hread
    exact (Option.some.inj hlength).symm

end Xcelerator.Variational.Maynard
