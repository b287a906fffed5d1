import Mathlib
import Xcelerator.Foundations.Enumeration
import Xcelerator.Variational.MaynardForms
import Xcelerator.Variational.MaynardSymmetric

/-! # The enumerations are complete

Multi-indices, partitions and orbits list what they are meant to list, each
element once. -/

namespace Xcelerator.Variational.Maynard
open Xcelerator.Foundations Machine Enumeration

/-! ## Multi-indices -/

/-- The successor of `advance`, read from the front; `bound` is what the
positions before leave of the degree. -/
def successor : Nat → MultiIndex → Option MultiIndex
  | _, [] => none
  | bound, x :: rest =>
    match successor (bound - x) rest with
    | some later => some (x :: later)
    | none => if x < bound then some ((x + 1) :: List.replicate rest.length 0) else none

theorem advance_append (degree : Nat) ( pre rest : MultiIndex)
    (hsum : pre.sum + rest.sum ≤ degree) :
    advance degree (pre.length + rest.length) (pre ++ rest) (pre.sum + rest.sum) =
      match successor (degree - pre.sum) rest with
      | some later => some (pre ++ later, pre.sum + later.sum)
      | none => advance degree pre.length (pre ++ List.replicate rest.length 0) pre.sum := by
  induction rest generalizing pre with
  | nil => simp [successor]
  | cons x rest ih =>
    have hin : (pre ++ [x]).sum + rest.sum ≤ degree := by
      simp only [List.sum_cons, List.sum_append, List.sum_nil] at hsum ⊢
      omega
    have h := ih (pre ++ [x]) hin
    simp only [List.length_append, List.length_singleton, List.append_assoc, List.singleton_append,
      List.sum_append, List.sum_singleton] at h
    rw [show pre.length + (x :: rest).length = pre.length + 1 + rest.length by simp; omega,
      show pre.sum + (x :: rest).sum = pre.sum + x + rest.sum by simp; omega, h, successor,
      Nat.sub_sub]
    cases hlater : successor (degree - (pre.sum + x)) rest with
    | some later =>
      simp only [List.sum_cons]
      rw [Nat.add_assoc]
    | none =>
      simp only [advance]
      have hget : (pre ++ x :: List.replicate rest.length 0).getD pre.length 0 = x := by simp
      rw [hget]
      by_cases hlt : pre.sum + x < degree
      · rw [if_pos hlt, if_pos (by omega)]
        simp only [List.set_append_right _ _ (le_refl pre.length), Nat.sub_self, List.set_cons_zero,
          List.sum_cons, List.sum_replicate, smul_zero, Nat.add_zero]
        rw [Nat.add_assoc]
      · rw [if_neg hlt, if_neg (by omega), Nat.add_sub_cancel]
        simp only [List.set_append_right _ _ (le_refl pre.length), Nat.sub_self, List.set_cons_zero,
          List.length_cons, List.replicate_succ]

/-- One turn of the loop. -/
theorem advance_eq {degree k : Nat} {current : MultiIndex} (hk : current.length = k)
    (hsum : current.sum ≤ degree) :
    advance degree k current current.sum = (successor degree current).map fun next =>
    (next, next.sum) := by
  have h := advance_append degree [] current (by simpa using hsum)
  simp only [List.nil_append, List.length_nil, Nat.zero_add, List.sum_nil, Nat.sub_zero, hk] at h
  rw [h]
  cases successor degree current <;> rfl

/-- All indices with `k` entries and sum at most `bound`, lexicographically. -/
def lexIndices : Nat → Nat → List MultiIndex
  | 0, _ => [[]]
  | k + 1, bound => (List.range (bound + 1)).flatMap fun x =>
    (lexIndices k (bound - x)).map (x :: ·)

theorem mem_lexIndices {k bound : Nat} {index : MultiIndex} :
    index ∈ lexIndices k bound ↔ index.length = k ∧ index.sum ≤ bound := by
  induction k generalizing bound index with
  | zero =>
    rw [lexIndices, List.mem_singleton]
    constructor
    · rintro rfl
      simp
    · intro h
      exact List.length_eq_zero_iff.mp h.1
  | succ k ih =>
    simp only [lexIndices, List.mem_flatMap, List.mem_range, List.mem_map, ih]
    constructor
    · rintro ⟨x, hx, rest, ⟨hlength, hsum⟩, rfl⟩
      refine ⟨by simp [hlength], ?_⟩
      rw [List.sum_cons]
      omega
    · rintro ⟨hlength, hsum⟩
      obtain ⟨x, rest, rfl⟩ := List.exists_cons_of_length_eq_add_one hlength
      rw [List.sum_cons] at hsum
      exact ⟨x, by omega, rest, ⟨by simpa using hlength, by omega⟩, rfl⟩

theorem nodup_lexIndices (k bound : Nat) : (lexIndices k bound).Nodup := by
  induction k generalizing bound with
  | zero => simp [lexIndices]
  | succ k ih =>
    rw [lexIndices, List.nodup_flatMap]
    refine ⟨fun x _ => (ih _).map fun a b h => (List.cons.inj h).2, ?_⟩
    refine List.nodup_range.imp fun {x y} hne index hx hy => ?_
    obtain ⟨a, -, rfl⟩ := List.mem_map.mp hx
    obtain ⟨b, -, hb⟩ := List.mem_map.mp hy
    exact hne (List.cons.inj hb).1.symm

theorem length_lexIndices (k bound : Nat) : (lexIndices k bound).length ≤ (bound + 1) ^ k := by
  induction k generalizing bound with
  | zero => simp [lexIndices]
  | succ k ih =>
    rw [lexIndices, List.length_flatMap]
    have hle : ∀ n ∈ (List.range (bound + 1)).map fun x =>
      ((lexIndices k (bound - x)).map (x :: ·)).length,
        n ≤ (bound + 1) ^ k := by
      intro n hn
      obtain ⟨x, -, rfl⟩ := List.mem_map.mp hn
      rw [List.length_map]
      exact (ih _).trans (Nat.pow_le_pow_left (by omega) k)
    have hsum := List.sum_le_card_nsmul _ _ hle
    simpa [pow_succ, Nat.mul_comm] using hsum

theorem runs_lexIndices (k bound : Nat) : Runs (successor bound) (List.replicate k 0)
    (lexIndices k bound) := by
  induction k generalizing bound with
  | zero => exact .last rfl
  | succ k ih =>
    have hfrom : ∀ left x, x + left = bound → Runs (successor bound) (x :: List.replicate k 0)
        ((List.range' x (left + 1)).flatMap fun x => (lexIndices k (bound - x)).map (x :: ·)) := by
      intro left
      induction left with
      | zero =>
        intro x hx
        rw [List.range'_one, List.flatMap_singleton]
        refine Runs.lifted (ih (bound - x)) (fun rest hrest later h => ?_) fun rest hrest h => ?_
        · rw [successor, h]
        · rw [successor, h]
          exact if_neg (by omega)
      | succ left ihleft =>
        intro x hx
        rw [List.range'_succ, List.flatMap_cons]
        refine Runs.continued (ih (bound - x)) (fun rest hrest later h => ?_)
          (fun rest hrest h => ?_)
          (ihleft (x + 1) (by omega))
        · rw [successor, h]
        · rw [successor, h, (mem_lexIndices.mp hrest).1]
          exact if_pos (by omega)
    have h := hfrom bound 0 (by omega)
    rw [lexIndices, List.range_eq_range']
    exact h

theorem enumerateLoop_eq {degree k fuel : Nat} {current : MultiIndex} (hk : current.length = k)
    (hsum : current.sum ≤ degree) {list : List MultiIndex}
    (h : Runs (successor degree) current list)
    (hmem : ∀ index ∈ list, index.length = k ∧ index.sum ≤ degree) (hfuel : list.length ≤ fuel) :
    enumerateLoop degree k fuel current current.sum = list := by
  induction h generalizing fuel with
  | @last a h =>
    cases fuel with
    | zero => simp at hfuel
    | succ fuel => rw [enumerateLoop, advance_eq hk hsum, h]; rfl
  | @step a b rest h hrest ih =>
    cases fuel with
    | zero => simp at hfuel
    | succ fuel =>
      have hb : b ∈ rest := by cases hrest <;> simp
      obtain ⟨hblength, hbsum⟩ := hmem b (List.mem_cons_of_mem _ hb)
      rw [enumerateLoop, advance_eq hk hsum, h]
      simp only [Option.map_some]
      rw [ih hblength hbsum (fun index hindex => hmem index (List.mem_cons_of_mem _ hindex))
        (by simpa using hfuel)]

theorem sortDedup_perm {lists : List (List Nat)} (h : lists.Nodup) :
    (sortDedup lists).Perm lists := by
  have hperm := List.perm_insertionSort gradedLe lists
  have hnodup := hperm.nodup_iff.mpr h
  have hsame : sortDedup lists = lists.insertionSort gradedLe :=
    List.destutter_of_isChain (· ≠ ·) _ (List.Pairwise.isChain hnodup)
  rw [hsame]
  exact hperm

theorem enumerateMultiIndices_eq {k degree : Nat} {indices : List MultiIndex}
    (h : enumerateMultiIndices k degree = .ok indices) :
    indices = sortDedup (lexIndices k degree) := by
  unfold enumerateMultiIndices at h
  obtain ⟨_, -, h⟩ := bind_eq_ok h
  obtain ⟨_, -, h⟩ := bind_eq_ok h
  obtain ⟨_, -, h⟩ := bind_eq_ok h
  cases h
  have hsum : (List.replicate k 0).sum = 0 := by simp
  have hloop := enumerateLoop_eq (List.length_replicate) (by rw [hsum]; exact Nat.zero_le _)
    (runs_lexIndices k degree)
    (fun index hindex => mem_lexIndices.mp hindex) (length_lexIndices k degree)
  rw [hsum] at hloop
  rw [hloop]

/-- The indices of the engine. -/
theorem enumerateMultiIndices_ok {k degree : Nat} {indices : List MultiIndex}
    (h : enumerateMultiIndices k degree = .ok indices) :
    indices.Nodup ∧ ∀ index, index ∈ indices ↔ index.length = k ∧ index.sum ≤ degree := by
  have hperm := sortDedup_perm (nodup_lexIndices k degree)
  rw [enumerateMultiIndices_eq h]
  exact ⟨hperm.nodup_iff.mpr (nodup_lexIndices k degree), fun index =>
    hperm.mem_iff.trans mem_lexIndices⟩

/-! ## Partitions -/

/-- Positive nonincreasing parts with a given sum, bounded in number and size. -/
structure IsPartition (slots total maximumPart : Nat) (parts : List Nat) : Prop where
  sum : parts.sum = total
  length : parts.length ≤ slots
  bounds : ∀ x ∈ parts, 0 < x ∧ x ≤ maximumPart
  nonincreasing : parts.Pairwise (· ≥ ·)

theorem mem_recurse {slots remaining maximumPart : Nat} {current parts : List Nat} :
    parts ∈ recurse slots remaining maximumPart current ↔
      ∃ rest, parts = current ++ rest ∧ IsPartition slots remaining maximumPart rest := by
  induction slots, remaining, maximumPart, current using recurse.induct generalizing parts with
  | case1 slots maximumPart current =>
    rw [recurse, List.mem_singleton]
    constructor
    · rintro rfl
      exact ⟨[], by simp, rfl, by simp, by simp, .nil⟩
    · rintro ⟨rest, rfl, h⟩
      have hnil : rest = [] := by
        rcases rest with _ | ⟨x, rest⟩
        · rfl
        · have hx := (h.bounds x (by simp)).1
          have hsum := h.sum
          rw [List.sum_cons] at hsum
          omega
      rw [hnil, List.append_nil]
  | case2 remaining maximumPart current =>
    simp only [recurse, List.not_mem_nil, false_iff]
    rintro ⟨rest, -, h⟩
    have hnil := List.length_eq_zero_iff.mp (Nat.le_zero.mp h.length)
    have hsum := h.sum
    rw [hnil, List.sum_nil] at hsum
    omega
  | case3 slots remaining maximumPart current ih =>
    simp only [recurse, List.mem_flatMap, List.mem_reverse, List.mem_range'_1]
    constructor
    · rintro ⟨part, ⟨hlow, hhigh⟩, hmem⟩
      obtain ⟨rest, rfl, h⟩ := (ih part).mp hmem
      have hpositive : 0 < (remaining + 1 + slots) / (slots + 1) :=
        Nat.div_pos (by omega) (by omega)
      refine ⟨part :: rest, by simp, ?_, ?_, ?_, ?_⟩
      · rw [List.sum_cons, h.sum]
        omega
      · have := h.length
        simp only [List.length_cons]
        omega
      · intro x hx
        rcases List.mem_cons.mp hx with rfl | hx
        · omega
        · obtain ⟨hx0, hx1⟩ := h.bounds x hx
          omega
      · exact List.pairwise_cons.mpr ⟨fun x hx => (h.bounds x hx).2, h.nonincreasing⟩
    · rintro ⟨rest, rfl, h⟩
      rcases rest with _ | ⟨part, rest⟩
      · have := h.sum
        simp at this
      have hbound := h.bounds part (by simp)
      obtain ⟨hle, hrest⟩ := List.pairwise_cons.mp h.nonincreasing
      have hsum := h.sum
      rw [List.sum_cons] at hsum
      have hlength := h.length
      rw [List.length_cons] at hlength
      -- The first part is at least the average.
      have haverage : remaining + 1 ≤ part * (slots + 1) := by
        have hcard := List.sum_le_card_nsmul rest part hle
        rw [smul_eq_mul] at hcard
        have hmul : rest.length * part ≤ slots * part := Nat.mul_le_mul_right part (by omega)
        calc remaining + 1 = part + rest.sum := hsum.symm
          _ ≤ part + slots * part := by omega
          _ = part * (slots + 1) := by ring
      have hminimum : (remaining + 1 + slots) / (slots + 1) ≤ part := by
        rw [Nat.div_le_iff_le_mul_add_pred (by omega)]
        rw [Nat.mul_comm]
        omega
      refine ⟨part, ⟨hminimum, by omega⟩,
        (ih part).mpr ⟨rest, by simp, by omega, by omega, fun x hx => ?_, hrest⟩⟩
      exact ⟨(h.bounds x (List.mem_cons_of_mem _ hx)).1, hle x hx⟩

theorem nodup_recurse (slots remaining maximumPart : Nat) (current : List Nat) :
    (recurse slots remaining maximumPart current).Nodup := by
  induction slots, remaining, maximumPart, current using recurse.induct with
  | case1 slots maximumPart current => simp [recurse]
  | case2 remaining maximumPart current => simp [recurse]
  | case3 slots remaining maximumPart current ih =>
    rw [recurse, List.nodup_flatMap]
    refine ⟨fun part _ => ih part, ?_⟩
    refine List.Pairwise.imp ?_ (List.nodup_reverse.mpr List.nodup_range')
    intro x y hne parts hx hy
    obtain ⟨rest, rfl, -⟩ := mem_recurse.mp hx
    obtain ⟨rest', heq, -⟩ := mem_recurse.mp hy
    rw [List.append_assoc, List.append_assoc, List.append_cancel_left_eq] at heq
    exact hne (List.cons.inj heq).1

/-- The recursion lists no partition twice. -/
theorem nodup_partitions (k degree : Nat) :
    ([] :: (List.range' 1 degree).flatMap fun total => recurse k total total []).Nodup := by
  rw [List.nodup_cons, List.nodup_flatMap]
  refine ⟨fun hmem => ?_, fun total _ => nodup_recurse k total total [], ?_⟩
  · obtain ⟨total, htotal, hmem⟩ := List.mem_flatMap.mp hmem
    obtain ⟨rest, hrest, hpart⟩ := mem_recurse.mp hmem
    rw [List.nil_append] at hrest
    have hsum := hpart.sum
    rw [← hrest, List.sum_nil] at hsum
    have := (List.mem_range'_1.mp htotal).1
    omega
  · refine List.Pairwise.imp ?_ (List.nodup_range')
    intro x y hne parts hx hy
    obtain ⟨rest, rfl, hrest⟩ := mem_recurse.mp hx
    obtain ⟨rest', heq, hrest'⟩ := mem_recurse.mp hy
    rw [List.nil_append] at heq
    exact hne (by rw [← hrest.sum, heq, hrest'.sum])

theorem enumerateIntegerPartitions_eq {k degree : Nat} {partitions : List IntegerPartition}
    (h : enumerateIntegerPartitions k degree = .ok partitions) :
    partitions = sortDedup ([] :: (List.range' 1 degree).flatMap fun total =>
      recurse k total total []) ∧
      ∃ counts count, (partitionCountsWithBudget k degree = .ok counts ∧
        counts[degree]? = some count) ∧
        count < 2 ^ 64 := by
  unfold enumerateIntegerPartitions at h
  obtain ⟨_, -, h⟩ := bind_eq_ok h
  obtain ⟨_, -, h⟩ := bind_eq_ok h
  obtain ⟨counts, hcounts, h⟩ := bind_eq_ok h
  obtain ⟨count, hcount, h⟩ := bind_eq_ok h
  obtain ⟨_, hsize, h⟩ := bind_eq_ok h
  cases h
  refine ⟨rfl, counts, count, ⟨hcounts, ?_⟩, (checked_eq_some (okOr_ok hsize)).1⟩
  unfold panicking Machine.read at hcount
  cases hread : counts[degree]? with
  | none => rw [hread] at hcount; cases hcount
  | some v => rw [hread] at hcount; cases hcount; rfl

theorem enumerateIntegerPartitions_ok {k degree : Nat} {partitions : List IntegerPartition}
    (h : enumerateIntegerPartitions k degree = .ok partitions) :
    partitions.Nodup ∧ ∀ parts, parts ∈ partitions ↔
    ∃ total ≤ degree, IsPartition k total total parts := by
  obtain ⟨rfl, -⟩ := enumerateIntegerPartitions_eq h
  have hnodup := nodup_partitions k degree
  have hperm := sortDedup_perm hnodup
  refine ⟨hperm.nodup_iff.mpr hnodup, fun parts => hperm.mem_iff.trans ?_⟩
  rw [List.mem_cons, List.mem_flatMap]
  constructor
  · rintro (rfl | ⟨total, htotal, hmem⟩)
    · exact ⟨0, Nat.zero_le _, rfl, by simp, by simp, .nil⟩
    · obtain ⟨rest, rfl, hrest⟩ := mem_recurse.mp hmem
      have := (List.mem_range'_1.mp htotal).2
      exact ⟨total, by omega, hrest⟩
  · rintro ⟨total, htotal, hpart⟩
    by_cases hzero : total = 0
    · left
      subst hzero
      have hmem : parts ∈ recurse k 0 0 [] := mem_recurse.mpr ⟨parts, rfl, hpart⟩
      simpa [recurse] using hmem
    · exact .inr ⟨total, List.mem_range'_1.mpr ⟨by omega, by omega⟩,
        mem_recurse.mpr ⟨parts, rfl, hpart⟩⟩

/-! ## The next permutation -/

theorem pivotOf_cons (x : Nat) (rest : List Nat) :
    pivotOf (x :: rest) =
      match pivotOf rest with
      | some pivot => some (pivot + 1)
      | none => if rest ≠ [] ∧ x < rest.getD 0 0 then some 0 else none := by
  rcases rest with _ | ⟨y, rest⟩
  · rfl
  · have hrange : List.range ((x :: y :: rest).length - 1) =
        0 :: (List.range ((y :: rest).length - 1)).map Nat.succ := by
      simp [List.range_succ_eq_map]
    rw [pivotOf, hrange, List.reverse_cons, List.find?_append, ← List.map_reverse, List.find?_map]
    unfold pivotOf
    simp only [Function.comp_def, List.getD_cons_succ]
    cases (List.range ((y :: rest).length - 1)).reverse.find? fun i =>
        decide ((y :: rest).getD i 0 < rest.getD i 0) with
    | some pivot => rfl
    | none => by_cases hlt : x < y <;> simp [hlt]

/-- The last position of a list whose entry exceeds `x`. -/
def lastAbove (x : Nat) (values : List Nat) : Option Nat :=
  (List.range values.length).reverse.find? fun i => x < values.getD i 0

theorem lastAbove_append (x : Nat) (values : List Nat) (y : Nat) :
    lastAbove x (values ++ [y]) = if x < y then some values.length else lastAbove x values := by
  unfold lastAbove
  rw [List.length_append, List.length_singleton, List.range_succ, List.reverse_append,
    List.reverse_singleton, List.singleton_append, List.find?_cons]
  have hlast : (values ++ [y]).getD values.length 0 = y := by simp
  rw [hlast]
  by_cases hlt : x < y
  · simp [hlt]
  · simp only [hlt, decide_false, if_false]
    refine List.find?_congr fun i hi => ?_
    have hi' : i < values.length := by simpa using hi
    rw [List.getD_append _ _ _ _ hi']

theorem range'_shift (start length : Nat) :
    List.range' (start + 1) length = (List.range' start length).map (· + 1) := by
  induction length generalizing start with
  | zero => rfl
  | succ length ih => rw [List.range'_succ, List.range'_succ, List.map_cons, ih]

theorem successorOf_zero (x : Nat) (rest : List Nat) :
    successorOf (x :: rest) 0 = (lastAbove x rest).map (· + 1) := by
  have hrange : List.range' (0 + 1) ((x :: rest).length - (0 + 1)) = (List.range rest.length).map
      (· + 1) := by
    rw [List.range_eq_range', ← range'_shift]
    simp
  unfold successorOf lastAbove
  rw [hrange, ← List.map_reverse, List.find?_map]
  rfl

theorem successorOf_succ (x : Nat) (rest : List Nat) (pivot : Nat) :
    successorOf (x :: rest) (pivot + 1) = (successorOf rest pivot).map (· + 1) := by
  have hrange : List.range' (pivot + 1 + 1) ((x :: rest).length - (pivot + 1 + 1)) =
      (List.range' (pivot + 1) (rest.length - (pivot + 1))).map (· + 1) := by
    rw [← range'_shift]
    simp
  unfold successorOf
  rw [hrange, ← List.map_reverse, List.find?_map]
  rfl

theorem exchangeReverse_succ (x : Nat) (rest : List Nat) (pivot successor : Nat) :
    exchangeReverse (x :: rest) (pivot + 1) (successor + 1) =
      x :: exchangeReverse rest pivot successor := rfl

theorem lastAbove_isSome {x : Nat} {values : List Nat} (h : ∃ y ∈ values, x < y) :
    (lastAbove x values).isSome := by
  obtain ⟨y, hy, hlt⟩ := h
  obtain ⟨i, hi, rfl⟩ := List.getElem_of_mem hy
  unfold lastAbove
  rw [List.find?_isSome]
  refine ⟨i, by simpa using hi, ?_⟩
  rw [List.getD_eq_getElem values 0 hi]
  simpa using hlt

/-- A pivot has a successor, so the expectation holds. -/
theorem nextPermutation_total (values : List Nat) : ∃ next, nextPermutation values = .ok next := by
  have hsuccessor : ∀ (values : List Nat) (pivot : Nat), pivotOf values = some pivot →
      (successorOf values pivot).isSome := by
    intro values
    induction values with
    | nil => intro pivot h; cases h
    | cons x rest ih =>
      intro pivot h
      rw [pivotOf_cons] at h
      cases hrest : pivotOf rest with
      | some inner =>
        rw [hrest] at h
        cases h
        rw [successorOf_succ, Option.isSome_map]
        exact ih inner hrest
      | none =>
        rw [hrest] at h
        simp only at h
        split at h
        · rename_i hx
          cases h
          rw [successorOf_zero, Option.isSome_map]
          obtain ⟨y, tail, rfl⟩ := List.exists_cons_of_ne_nil hx.1
          exact lastAbove_isSome ⟨y, by simp, by simpa using hx.2⟩
        · cases h
  unfold nextPermutation
  cases hpivot : pivotOf values with
  | none => exact ⟨none, rfl⟩
  | some pivot =>
    obtain ⟨successor, hsucc⟩ := Option.isSome_iff_exists.mp (hsuccessor values pivot hpivot)
    simp only [hsucc]
    exact ⟨_, rfl⟩

/-- The next permutation as a successor function. -/
def nextOf (values : List Nat) : Option (List Nat) := (nextPermutation values).toOption.join

theorem nextPermutation_eq (values : List Nat) : nextPermutation values = .ok (nextOf values) := by
  obtain ⟨next, h⟩ := nextPermutation_total values
  rw [nextOf, h]
  rfl

theorem nextOf_none {values : List Nat} : nextOf values = none ↔ pivotOf values = none := by
  have h := nextPermutation_eq values
  unfold nextPermutation at h
  cases hpivot : pivotOf values with
  | none =>
    rw [hpivot] at h
    injection h with h
    simp [← h]
  | some pivot =>
    rw [hpivot] at h
    dsimp only at h
    split at h
    · cases h
    · injection h with h
      simp [← h]

theorem nextOf_cons {x : Nat} {rest next : List Nat} (h : nextOf rest = some next) :
    nextOf (x :: rest) = some (x :: next) := by
  have hrest := nextPermutation_eq rest
  rw [h] at hrest
  have hall := nextPermutation_eq (x :: rest)
  unfold nextPermutation at hrest hall
  rw [pivotOf_cons] at hall
  cases hpivot : pivotOf rest with
  | none =>
    rw [hpivot] at hrest
    cases hrest
  | some pivot =>
    rw [hpivot] at hrest hall
    simp only [successorOf_succ] at hrest hall
    cases hsuccessor : successorOf rest pivot with
    | none =>
      rw [hsuccessor] at hrest
      cases hrest
    | some successor =>
      rw [hsuccessor] at hrest hall
      simp only [Option.map_some] at hrest hall
      rw [exchangeReverse_succ] at hall
      injection hrest with hrest
      injection hall with hall
      rw [Option.some.injEq] at hrest
      rw [← hall, hrest]

theorem pivotOf_none {values : List Nat} : pivotOf values = none ↔ values.Pairwise (· ≥ ·) := by
  rw [← List.isChain_iff_pairwise]
  induction values with
  | nil => exact ⟨fun _ => .nil, fun _ => rfl⟩
  | cons x rest ih =>
    rw [pivotOf_cons]
    rcases rest with _ | ⟨y, rest⟩
    · exact ⟨fun _ => .singleton x, fun _ => rfl⟩
    · rw [List.isChain_cons_cons, ← ih]
      cases pivotOf (y :: rest) with
      | some pivot => simp
      | none => simp

/-- A block of permutations with first entry `x` has ended: nothing exceeds it. -/
theorem nextOf_final {x : Nat} {rest : List Nat} (hrest : rest.Pairwise (· ≥ ·))
    (hle : ∀ y ∈ rest, y ≤ x) :
    nextOf (x :: rest) = none :=
  nextOf_none.mpr (pivotOf_none.mpr (List.pairwise_cons.mpr ⟨hle, hrest⟩))

/-- A block has ended and the smallest larger entry takes over. -/
theorem nextOf_carry {x y : Nat} {above upto : List Nat}
    (hrest : (above ++ y :: upto).Pairwise (· ≥ ·)) (hy : x < y) (hupto : ∀ z ∈ upto, z ≤ x) :
    nextOf (x :: (above ++ y :: upto)) = some (y :: (above ++ x :: upto).reverse) := by
  have hpivot : pivotOf (x :: (above ++ y :: upto)) = some 0 := by
    rw [pivotOf_cons, pivotOf_none.mpr hrest]
    have hhead : x < (above ++ y :: upto).getD 0 0 := by
      rcases above with _ | ⟨z, above⟩
      · simpa using hy
      · have hz : y ≤ z := (List.pairwise_append.mp hrest).2.2 z (by simp) y (by simp)
        simp only [List.cons_append, List.getD_cons_zero]
        omega
    rw [if_pos ⟨by simp, hhead⟩]
  have hlast : lastAbove x (above ++ y :: upto) = some above.length := by
    have hgeneral : ∀ (tail : List Nat), (∀ z ∈ tail, z ≤ x) →
        lastAbove x ((above ++ [y]) ++ tail) = some above.length := by
      intro tail
      induction tail using List.reverseRecOn with
      | nil =>
        intro _
        rw [List.append_nil, lastAbove_append, if_pos hy]
      | append_singleton tail z ih =>
        intro htail
        rw [← List.append_assoc, lastAbove_append, if_neg (not_lt.mpr (htail z (by simp)))]
        exact ih fun w hw => htail w (by simp [hw])
    have := hgeneral upto hupto
    rwa [List.append_assoc, List.singleton_append] at this
  have hall := nextPermutation_eq (x :: (above ++ y :: upto))
  unfold nextPermutation at hall
  rw [hpivot] at hall
  simp only [successorOf_zero, hlast, Option.map_some] at hall
  injection hall with hall
  rw [← hall, exchangeReverse]
  simp [List.set_append_right]

end Xcelerator.Variational.Maynard
