import Mathlib
import Xcelerator.Variational.MaynardEnumeration

/-! # The orbits partition the monomials

Every orbit lists the arrangements of its padded partition once, the orbits of
all partitions cover every multi-index once, and so the symmetric forms are the
monomial forms on the expanded coefficients. -/

namespace Xcelerator.Variational.Maynard
open Xcelerator.Foundations Machine Enumeration

/-! ## Arrangements -/

/-- The arrangements of a sorted list, lexicographically. -/
def arrangements : Nat → List Nat → List (List Nat)
  | 0, _ => [[]]
  | n + 1, values => values.dedup.flatMap fun x => (arrangements n (values.erase x)).map (x :: ·)

theorem mem_arrangements {n : Nat} {values list : List Nat} (hn : values.length = n) :
    list ∈ arrangements n values ↔ list.Perm values := by
  induction n generalizing values list with
  | zero =>
    rw [arrangements, List.mem_singleton, List.length_eq_zero_iff.mp hn]
    exact List.perm_nil.symm
  | succ n ih =>
    simp only [arrangements, List.mem_flatMap, List.mem_dedup, List.mem_map]
    constructor
    · rintro ⟨x, hx, rest, hrest, rfl⟩
      rw [ih (by rw [List.length_erase_of_mem hx, hn, Nat.add_sub_cancel])] at hrest
      exact List.cons_perm_iff_perm_erase.mpr ⟨hx, hrest⟩
    · intro hperm
      obtain ⟨x, rest, rfl⟩ := List.exists_cons_of_length_eq_add_one (hperm.length_eq.trans hn)
      obtain ⟨hx, hrest⟩ := List.cons_perm_iff_perm_erase.mp hperm
      refine ⟨x, hx, rest, ?_, rfl⟩
      rw [ih (by rw [List.length_erase_of_mem hx, hn, Nat.add_sub_cancel])]
      exact hrest

theorem nodup_arrangements (n : Nat) (values : List Nat) : (arrangements n values).Nodup := by
  induction n generalizing values with
  | zero => simp [arrangements]
  | succ n ih =>
    rw [arrangements, List.nodup_flatMap]
    refine ⟨fun x _ => (ih _).map fun a b h => (List.cons.inj h).2, ?_⟩
    refine (List.nodup_dedup values).imp fun {x y} hne list hx hy => ?_
    obtain ⟨a, -, rfl⟩ := List.mem_map.mp hx
    obtain ⟨b, -, hb⟩ := List.mem_map.mp hy
    exact hne (List.cons.inj hb).1.symm

theorem length_arrangements {n : Nat} {values : List Nat} (hn : values.length = n) :
    (arrangements n values).length ≤ n.factorial := by
  have hsub : arrangements n values ⊆ values.permutations := by
    intro list hlist
    exact List.mem_permutations.mpr ((mem_arrangements hn).mp hlist)
  have hle := ((nodup_arrangements n values).subperm hsub).length_le
  rwa [List.length_permutations, hn] at hle

/-! ### Sorted lists -/

section
variable {values other : List Nat}

theorem eq_of_perm_sorted (h : values.Perm other) (hv : values.Pairwise (· ≤ ·))
    (ho : other.Pairwise (· ≤ ·)) :
    values = other :=
  h.eq_of_pairwise (fun _ _ _ _ => le_antisymm) hv ho

theorem sorted_split (hv : values.Pairwise (· ≤ ·)) (x : Nat) :
    values = values.filter (· ≤ x) ++ values.filter (x < ·) := by
  refine eq_of_perm_sorted ?_ hv ?_
  · have h := List.filter_append_perm (fun y => decide (y ≤ x)) values
    simp only [← decide_not, not_le] at h
    exact h.symm
  · refine List.pairwise_append.mpr ⟨hv.filter _, hv.filter _, fun a ha b hb => ?_⟩
    have ha := (List.mem_filter.mp ha).2
    have hb := (List.mem_filter.mp hb).2
    simp only [decide_eq_true_eq] at ha hb
    omega

theorem sorted_dedup (hv : values.Pairwise (· ≤ ·)) : values.dedup.Pairwise (· < ·) := by
  have hle := hv.sublist values.dedup_sublist
  exact (hle.and (List.nodup_dedup values)).imp fun h => lt_of_le_of_ne h.1 h.2

/-- The last arrangement with first entry `x` is followed by the first one with
the next larger entry. -/
theorem nextOf_block {x y : Nat} {later rest : List Nat} { pre : List Nat}
    (hv : values.Pairwise (· ≤ ·))
    (hdedup : values.dedup = pre ++ x :: y :: later) (hrest : rest.Perm (values.erase x))
    (hlast : nextOf rest = none) : nextOf (x :: rest) = some (y :: values.erase y) := by
  have hstrict := sorted_dedup hv
  rw [hdedup] at hstrict
  obtain ⟨-, htail, hcross⟩ := List.pairwise_append.mp hstrict
  obtain ⟨hx, htail⟩ := List.pairwise_cons.mp htail
  obtain ⟨hy, -⟩ := List.pairwise_cons.mp htail
  have hxy : x < y := hx y (by simp)
  have hmem : ∀ z, z ∈ values ↔ z ∈ pre ++ x :: y :: later := by
    intro z
    rw [← hdedup, List.mem_dedup]
  have hxmem : x ∈ values := (hmem x).mpr (by simp)
  have hymem : y ∈ values := (hmem y).mpr (by simp)
  have hleast : ∀ z ∈ values, x < z → y ≤ z := by
    intro z hz hlt
    rcases List.mem_append.mp ((hmem z).mp hz) with hz | hz
    · have := hcross z hz x (by simp)
      omega
    · simp only [List.mem_cons] at hz
      rcases hz with rfl | rfl | hz
      · omega
      · exact le_rfl
      · exact (hy z hz).le
  -- Without `x` the list is what is at most `x`, then `y`, then the rest.
  have herase : (values.erase x).Pairwise (· ≤ ·) := hv.sublist List.erase_sublist
  have hsplit := sorted_split herase x
  obtain ⟨above, habove⟩ : ∃ above, (values.erase x).filter (x < ·) = y :: above := by
    have hyin : y ∈ (values.erase x).filter (x < ·) := by
      rw [List.mem_filter]
      exact ⟨(List.mem_erase_of_ne (by omega)).mpr hymem, by simpa using hxy⟩
    rcases hfilter : (values.erase x).filter (x < ·) with _ | ⟨z, above⟩
    · rw [hfilter] at hyin
      cases hyin
    · have hz : z ∈ (values.erase x).filter (x < ·) := by
        rw [hfilter]
        exact List.mem_cons_self
      have hzmem := List.mem_filter.mp hz
      have hyz := hleast z (List.mem_of_mem_erase hzmem.1) (by simpa using hzmem.2)
      have hsorted := herase.filter (fun z => decide (x < z))
      rw [hfilter] at hsorted hyin
      have hzy : z ≤ y := by
        rcases List.mem_cons.mp hyin with h | h
        · exact h.symm.le
        · exact (List.pairwise_cons.mp hsorted).1 y h
      exact ⟨above, by rw [le_antisymm hzy hyz]⟩
  rw [habove] at hsplit
  set upto := (values.erase x).filter (· ≤ x) with hupto
  -- The last arrangement is the reversed list.
  have hreversed : rest = above.reverse ++ y :: upto.reverse := by
    have hdown := pivotOf_none.mp (nextOf_none.mp hlast)
    have hup : rest.reverse.Pairwise (· ≤ ·) := List.pairwise_reverse.mpr hdown
    have heq := eq_of_perm_sorted ((List.reverse_perm rest).trans hrest) hup herase
    rw [← List.reverse_reverse rest, heq, hsplit]
    simp
  have hdown : (above.reverse ++ y :: upto.reverse).Pairwise (· ≥ ·) := by
    rw [← hreversed]
    exact pivotOf_none.mp (nextOf_none.mp hlast)
  have huptole : ∀ z ∈ upto.reverse, z ≤ x := by
    intro z hz
    have := (List.mem_filter.mp (List.mem_reverse.mp hz)).2
    simpa using this
  rw [hreversed, nextOf_carry hdown hxy huptole]
  congr 2
  refine eq_of_perm_sorted ?_ ?_ (hv.sublist List.erase_sublist)
  · have hall : (y :: (above.reverse ++ x :: upto.reverse).reverse).Perm values := by
      have h1 : values.Perm (x :: (upto ++ y :: above)) := by
        rw [← hsplit]
        exact List.perm_cons_erase hxmem
      refine List.Perm.trans ?_ h1.symm
      simp only [List.reverse_append, List.reverse_cons, List.reverse_reverse, List.append_assoc,
        List.singleton_append]
      refine (List.Perm.cons y (List.perm_middle)).trans ((List.Perm.swap x y _).trans ?_)
      exact List.Perm.cons x List.perm_middle.symm
    exact (List.cons_perm_iff_perm_erase.mp hall).2
  · rw [List.pairwise_reverse]
    have habove' := List.pairwise_append.mp hdown
    obtain ⟨hyabove, hcons, hcross'⟩ := habove'
    refine List.pairwise_append.mpr
      ⟨hyabove, List.pairwise_cons.mpr ⟨huptole, (List.pairwise_cons.mp hcons).2⟩,
      fun a ha b hb => ?_⟩
    have hay := hcross' a ha y (by simp)
    rcases List.mem_cons.mp hb with rfl | hb
    · omega
    · have := huptole b hb
      omega

end

theorem runs_arrangements {n : Nat} {values : List Nat} (hn : values.length = n)
    (hv : values.Pairwise (· ≤ ·)) :
    Runs nextOf values (arrangements n values) := by
  induction n generalizing values with
  | zero =>
    rw [List.length_eq_zero_iff.mp hn]
    exact .last rfl
  | succ n ih =>
    have hblock : ∀ x ∈ values, Runs nextOf (values.erase x) (arrangements n (values.erase x)) := by
      intro x hx
      exact ih (by rw [List.length_erase_of_mem hx, hn, Nat.add_sub_cancel])
        (hv.sublist List.erase_sublist)
    have hmem : ∀ x ∈ values, ∀ rest ∈ arrangements n (values.erase x), rest.Perm
        (values.erase x) := by
      intro x hx rest hrest
      exact (mem_arrangements (by rw [List.length_erase_of_mem hx, hn, Nat.add_sub_cancel])).mp
        hrest
    have hfrom : ∀ (later pre : List Nat) (x : Nat), values.dedup = pre ++ x :: later →
        Runs nextOf (x :: values.erase x)
          ((x :: later).flatMap fun x => (arrangements n (values.erase x)).map (x :: ·)) := by
      intro later
      induction later with
      | nil =>
        intro pre x hdedup
        have hx : x ∈ values := by
          rw [← List.mem_dedup, hdedup]
          simp
        rw [List.flatMap_singleton]
        refine Runs.lifted (hblock x hx) (fun rest _ next h => nextOf_cons h) fun rest hrest h => ?_
        refine nextOf_final (pivotOf_none.mp (nextOf_none.mp h)) fun y hy => ?_
        have hy' : y ∈ values.dedup :=
          List.mem_dedup.mpr (List.mem_of_mem_erase ((hmem x hx rest hrest).mem_iff.mp hy))
        have hstrict := sorted_dedup hv
        rw [hdedup] at hy' hstrict
        rcases List.mem_append.mp hy' with hy' | hy'
        · exact ((List.pairwise_append.mp hstrict).2.2 y hy' x (by simp)).le
        · exact (List.mem_singleton.mp hy').le
      | cons y later ihlater =>
        intro pre x hdedup
        have hx : x ∈ values := by
          rw [← List.mem_dedup, hdedup]
          simp
        rw [List.flatMap_cons]
        refine Runs.continued (hblock x hx) (fun rest _ next h => nextOf_cons h)
          (fun rest hrest h => ?_)
          (ihlater (pre ++ [x]) y (by rw [hdedup]; simp))
        exact nextOf_block hv hdedup (hmem x hx rest hrest) h
    obtain ⟨x, rest, rfl⟩ := List.exists_cons_of_length_eq_add_one hn
    rw [arrangements]
    obtain ⟨y, later, hdedup⟩ : ∃ y later, (x :: rest).dedup = y :: later :=
      List.exists_cons_of_ne_nil (by simp)
    have hrun := hfrom later [] y (by rw [hdedup]; rfl)
    rw [← hdedup] at hrun
    -- The first distinct value of a sorted list is its head.
    have hyx : y = x := by
      have hy : y ∈ x :: rest := by
        rw [← List.mem_dedup, hdedup]
        exact List.mem_cons_self
      have hx : x ∈ (x :: rest).dedup := List.mem_dedup.mpr List.mem_cons_self
      have hstrict := sorted_dedup hv
      rw [hdedup] at hx hstrict
      rcases List.mem_cons.mp hy with rfl | hy
      · rfl
      rcases List.mem_cons.mp hx with h | hx
      · exact h.symm
      have := (List.pairwise_cons.mp hv).1 y hy
      have := (List.pairwise_cons.mp hstrict).1 x hx
      omega
    rw [hyx, List.erase_cons_head] at hrun
    exact hrun

/-! ## Orbits -/

theorem orbitLoop_eq {fuel : Nat} {current : List Nat} {list : List (List Nat)}
    (h : Runs nextOf current list)
    (hfuel : list.length ≤ fuel) : orbitLoop fuel current = .ok list := by
  induction h generalizing fuel with
  | @last a h =>
    cases fuel with
    | zero => rfl
    | succ fuel =>
      rw [orbitLoop, nextPermutation_eq, h]
      rfl
  | @step a b rest h _ ih =>
    cases fuel with
    | zero => simp at hfuel
    | succ fuel =>
      rw [orbitLoop, nextPermutation_eq, h, ok_bind]
      simp only [ih (by simpa using hfuel), ok_bind]
      rfl

/-- The partition with zeros up to length `k`. -/
def padded (k : Nat) (partition : IntegerPartition) : List Nat :=
  partition ++ List.replicate (k - partition.length) 0

theorem length_padded {k : Nat} {partition : IntegerPartition} (h : partition.length ≤ k) :
    (padded k partition).length = k := by
  rw [padded, List.length_append, List.length_replicate]
  omega

theorem validatePartition_ok {k total : Nat} {partition : IntegerPartition}
    (h : IsPartition k total total partition) : validatePartition partition k = .ok () := by
  have hzero : partition.contains 0 = false := by
    rw [Bool.eq_false_iff, ne_eq, List.contains_iff_mem]
    intro hmem
    exact absurd (h.bounds 0 hmem).1 (lt_irrefl 0)
  have hdescent : ((List.range (partition.length - 1)).any fun i =>
      decide (partition.getD i 0 < partition.getD (i + 1) 0)) = false := by
    rw [List.any_eq_false]
    intro i hi
    have hi' : i + 1 < partition.length := by
      have := List.mem_range.mp hi
      omega
    have hpair := List.pairwise_iff_getElem.mp h.nonincreasing i (i + 1) (by omega) hi' (by omega)
    rw [List.getD_eq_getElem _ _ (by omega), List.getD_eq_getElem _ _ hi']
    simpa using hpair
  unfold validatePartition
  rw [hzero, hdescent]
  simp [check, h.length]

/-- The members of an orbit are the arrangements of the padded partition. -/
theorem partitionOrbit_ok {k total : Nat} {partition : IntegerPartition}
    (h : IsPartition k total total partition) :
    ∃ members, partitionOrbit partition k = .ok members ∧ members.Nodup ∧
      ∀ index, index ∈ members ↔ index.Perm (padded k partition) := by
  set values := (padded k partition).insertionSort (· ≤ ·) with hvalues
  have hperm : values.Perm (padded k partition) := List.perm_insertionSort _ _
  have hlength : values.length = k := hperm.length_eq.trans (length_padded h.length)
  have hsorted : values.Pairwise (· ≤ ·) := List.pairwise_insertionSort _ _
  refine ⟨arrangements k values, ?_, nodup_arrangements k values, fun index => ?_⟩
  · unfold partitionOrbit
    rw [validatePartition_ok h, ok_bind]
    exact orbitLoop_eq (runs_arrangements hlength hsorted) (length_arrangements hlength)
  · rw [mem_arrangements hlength]
    exact ⟨fun hi => hi.trans hperm, fun hi => hi.trans hperm.symm⟩

theorem filter_padded {k total : Nat} {partition : IntegerPartition}
    (h : IsPartition k total total partition) :
    (padded k partition).filter (· ≠ 0) = partition := by
  rw [padded, List.filter_append, List.filter_replicate]
  simp only [ne_eq, not_true_eq_false, decide_false, Bool.false_eq_true, if_false, List.append_nil]
  refine List.filter_eq_self.mpr fun x hx => ?_
  simpa using (h.bounds x hx).1.ne'

/-- A partition is determined by any arrangement. -/
theorem partition_unique {k total total' : Nat} {p q : IntegerPartition}
    (hp : IsPartition k total total p)
    (hq : IsPartition k total' total' q) (h : (padded k p).Perm (padded k q)) : p = q := by
  have hfilter := h.filter (· ≠ 0)
  rw [filter_padded hp, filter_padded hq] at hfilter
  exact hfilter.eq_of_pairwise (fun _ _ _ _ hab hba => le_antisymm hba hab) hp.nonincreasing
    hq.nonincreasing

/-- Every index is an arrangement of some padded partition. -/
theorem exists_partition {k : Nat} {index : MultiIndex} (hlength : index.length = k) :
    ∃ p, IsPartition k index.sum index.sum p ∧ index.Perm (padded k p) := by
  set p := (index.filter (· ≠ 0)).insertionSort (· ≥ ·) with hp
  have hperm : p.Perm (index.filter (· ≠ 0)) := List.perm_insertionSort _ _
  have hcount := List.filter_append_perm (fun x => decide (x ≠ 0)) index
  have hzeros : index.filter (fun x => !decide (x ≠ 0)) =
      List.replicate (index.filter (fun x => !decide (x ≠ 0))).length 0 := by
    refine List.eq_replicate_iff.mpr ⟨rfl, fun x hx => ?_⟩
    simpa using (List.mem_filter.mp hx).2
  have hsum : p.sum = index.sum := by
    rw [hperm.sum_eq, ← hcount.sum_eq, List.sum_append, hzeros, List.sum_replicate, smul_zero,
      Nat.add_zero]
  have hsize : (index.filter (· ≠ 0)).length + (index.filter (fun x => !decide (x ≠ 0))).length =
      k := by
    rw [← hlength, ← hcount.length_eq, List.length_append]
  refine ⟨p, ⟨hsum, ?_, fun x hx => ?_, List.pairwise_insertionSort _ _⟩, ?_⟩
  · rw [hperm.length_eq]
    omega
  · have hmem := List.mem_filter.mp (hperm.mem_iff.mp hx)
    refine ⟨Nat.pos_of_ne_zero (by simpa using hmem.2), ?_⟩
    exact List.le_sum_of_mem hmem.1
  · have hrest : k - p.length = (index.filter (fun x => !decide (x ≠ 0))).length := by
      rw [hperm.length_eq]
      omega
    rw [padded, hrest, ← hzeros]
    exact hcount.symm.trans (hperm.symm.append_right _)

/-! ## The symmetric engine -/

/-- Each orbit lists the arrangements of its partition. -/
theorem mapM_orbitOf {k : Nat} {partitions : List IntegerPartition}
    (h : ∀ p ∈ partitions, ∃ total, IsPartition k total total p) :
    ∃ orbits, partitions.mapM (orbitOf k) = .ok orbits ∧
      List.Forall₂ (fun p (o : SymmetricMonomialOrbit) => o.members.Nodup ∧
        ∀ index, index ∈ o.members ↔ index.Perm (padded k p)) partitions orbits := by
  refine mapM_forall₂ fun p hp => ?_
  obtain ⟨total, hpart⟩ := h p hp
  obtain ⟨members, hmembers, hnodup, hmem⟩ := partitionOrbit_ok hpart
  refine ⟨⟨p, members⟩, ?_, hnodup, hmem⟩
  unfold orbitOf
  rw [hmembers]
  rfl

/-- What the constructor guarantees. -/
structure Covers (s : MkSymmetricReference) (k degree : Nat) : Prop where
  engine : MkMonomialReference.new k degree = .ok s.monomial
  positions : s.monomialPositions = s.monomial.indices.zipIdx
  nodup : (s.orbits.flatMap SymmetricMonomialOrbit.members).Nodup
  mem : ∀ index, index ∈ s.orbits.flatMap SymmetricMonomialOrbit.members ↔
    index.length = k ∧ index.sum ≤ degree

theorem forall₂_flatMap {α β γ : Type} {R : α → β → Prop} {f : β → List γ} {xs : List α}
    {ys : List β}
    (h : List.Forall₂ R xs ys) (c : γ) : c ∈ ys.flatMap f ↔ ∃ x ∈ xs, ∃ y, R x y ∧ y ∈ ys ∧
    c ∈ f y := by
  induction h with
  | nil => simp
  | @cons x y xs ys hxy _ ih =>
    rw [List.flatMap_cons, List.mem_append, ih]
    constructor
    · rintro (hc | ⟨x', hx', y', hr, hy', hc⟩)
      · exact ⟨x, by simp, y, hxy, by simp, hc⟩
      · exact ⟨x', by simp [hx'], y', hr, by simp [hy'], hc⟩
    · rintro ⟨x', -, y', -, hy', hc⟩
      rcases List.mem_cons.mp hy' with rfl | hy'
      · exact .inl hc
      · right
        rw [← ih]
        exact List.mem_flatMap.mpr ⟨y', hy', hc⟩

theorem new_covers {k degree : Nat} {s : MkSymmetricReference}
    (h : MkSymmetricReference.new k degree = .ok s) :
    Covers s k degree := by
  unfold MkSymmetricReference.new at h
  obtain ⟨monomial, hmonomial, h⟩ := bind_eq_ok h
  obtain ⟨partitions, hpartitions, h⟩ := bind_eq_ok h
  obtain ⟨orbits, horbits, h⟩ := bind_eq_ok h
  cases h
  obtain ⟨hnodup, hmem⟩ := enumerateIntegerPartitions_ok hpartitions
  have hparts : ∀ p ∈ partitions, ∃ total, IsPartition k total total p := by
    intro p hp
    obtain ⟨total, -, hpart⟩ := (hmem p).mp hp
    exact ⟨total, hpart⟩
  obtain ⟨orbits', horbits', hall⟩ := mapM_orbitOf hparts
  rw [horbits] at horbits'
  cases horbits'
  obtain ⟨hlen, hget⟩ := List.forall₂_iff_get.mp hall
  refine ⟨hmonomial, rfl, ?_, fun index => ?_⟩
  · rw [List.nodup_flatMap]
    constructor
    · intro o ho
      obtain ⟨i, hi, rfl⟩ := List.getElem_of_mem ho
      exact (hget i (hlen ▸ hi) hi).1
    · have hpairs : List.Pairwise (fun o o' : SymmetricMonomialOrbit =>
        List.Disjoint o.members o'.members) orbits := by
        rw [List.pairwise_iff_getElem]
        intro i j hi hj hij index hx hy
        have hpi := (hget i (by omega) hi).2 index
        have hpj := (hget j (by omega) hj).2 index
        have hperm := (hpi.mp hx).symm.trans (hpj.mp hy)
        obtain ⟨_, hi'⟩ := hparts (partitions[i]) (List.getElem_mem (by omega))
        obtain ⟨_, hj'⟩ := hparts (partitions[j]) (List.getElem_mem (by omega))
        have heq := partition_unique hi' hj' hperm
        exact absurd (hnodup.getElem_inj_iff.mp heq) (by omega)
      exact hpairs
  · rw [forall₂_flatMap hall]
    constructor
    · rintro ⟨p, hp, o, ⟨-, hin⟩, -, hindex⟩
      obtain ⟨total, htotal, hpart⟩ := (hmem p).mp hp
      have hperm := (hin index).mp hindex
      refine ⟨hperm.length_eq.trans (length_padded hpart.length), ?_⟩
      rw [hperm.sum_eq, padded, List.sum_append, List.sum_replicate, smul_zero,
        Nat.add_zero, hpart.sum]
      exact htotal
    · rintro ⟨hlength, hsum⟩
      obtain ⟨p, hpart, hperm⟩ := exists_partition hlength
      have hp := (hmem p).mpr ⟨index.sum, hsum, hpart⟩
      obtain ⟨i, hi, rfl⟩ := List.getElem_of_mem hp
      have hi' : i < orbits.length := by omega
      exact ⟨_, hp, orbits[i], hget i hi hi', List.getElem_mem hi',
        ((hget i hi hi').2 index).mpr hperm⟩

/-! ## Forms -/

/-- `∑ c_r M_rc c_c` for a row-major matrix. -/
def denseForm (coefficients matrix : List ℚ) (dimension : Nat) : ℚ :=
  ∑ row ∈ Finset.range dimension, ∑ column ∈ Finset.range dimension,
    coefficients.getD row 0 * matrix.getD (row * dimension + column) 0 * coefficients.getD column 0

theorem foldlM_add {α : Type} {step : ℚ → α → Mk ℚ} {g : α → ℚ} {cells : List α}
    (h : ∀ c ∈ cells, ∀ total, step total c = .ok (total + g c)) (total : ℚ) :
    cells.foldlM step total = .ok (total + (cells.map g).sum) := by
  induction cells generalizing total with
  | nil => simp [pure, Except.pure]
  | cons c cells ih =>
    rw [List.foldlM_cons, h c (by simp), ok_bind, ih (fun d hd => h d (List.mem_cons_of_mem _ hd)),
      List.map_cons, List.sum_cons, add_assoc]

theorem sum_cells {α β : Type} (left : List α) (right : List β) (g : α → β → ℚ) :
    ((left.flatMap fun a => right.map fun b => (a, b)).map fun cell => g cell.1 cell.2).sum =
      (left.map fun a => (right.map fun b => g a b).sum).sum := by
  rw [List.map_flatMap, List.flatMap_def, List.sum_flatten, List.map_map]
  refine congrArg List.sum (List.map_congr_left fun a _ => ?_)
  simp [Function.comp_def]

theorem sum_range (n : Nat) (g : Nat → ℚ) :
    ((List.range n).map g).sum = ∑ i ∈ Finset.range n, g i := rfl

theorem denseOf_ok {dimension : Nat} {entry : Nat → Nat → Mk ℚ} {g : Nat → Nat → ℚ}
    (h : ∀ row < dimension, ∀ column < dimension, entry row column = .ok (g row column)) :
    ∃ matrix, MkMonomialReference.denseOf dimension entry = .ok matrix ∧
      ∀ row < dimension, ∀ column < dimension, matrix.getD (row * dimension + column) 0 =
        g row column := by
  refine ⟨_, mapM_ok (g := fun cell => g cell.1 cell.2) fun cell hcell =>
    ?_, fun row hrow column hcolumn => ?_⟩
  · simp only [List.mem_flatMap, List.mem_map, List.mem_range] at hcell
    obtain ⟨row, hrow, column, hcolumn, rfl⟩ := hcell
    exact h row hrow column hcolumn
  · have hlt : row * dimension + column < dimension * dimension := by
      calc row * dimension + column < row * dimension + dimension := by omega
        _ = (row + 1) * dimension := by ring
        _ ≤ dimension * dimension := Nat.mul_le_mul_right _ (by omega)
    rw [flatMap_rows (fun i j => (i, j)), List.map_map,
      List.getD_eq_getElem _ _ (by simpa using hlt)]
    simp only [List.getElem_map, List.getElem_range, Function.comp_apply]
    rw [Nat.mul_comm, Nat.mul_add_div (by omega), Nat.div_eq_of_lt hcolumn, Nat.mul_add_mod,
      Nat.mod_eq_of_lt hcolumn, Nat.add_zero]

section
variable {s : MkSymmetricReference} {k degree : Nat}

theorem Covers.indices (h : Covers s k degree) :
    s.monomial.indices.Nodup ∧
      ∀ index, index ∈ s.monomial.indices ↔ index.length = k ∧ index.sum ≤ degree := by
  obtain ⟨-, -, hindices, -⟩ := new_ok h.engine
  exact enumerateMultiIndices_ok hindices

theorem Covers.position (h : Covers s k degree) {member : MultiIndex}
    (hmember : member ∈ s.monomial.indices) :
    ∃ position, s.positionOf member = some position ∧
    s.monomial.indices[position]? = some member := by
  unfold MkSymmetricReference.positionOf
  rw [h.positions]
  obtain ⟨i, hi, hget⟩ := List.getElem_of_mem hmember
  have hsome : ((s.monomial.indices.zipIdx).reverse.find? fun entry =>
    entry.1 = member).isSome := by
    rw [List.find?_isSome]
    refine ⟨(member, i), ?_, by simp⟩
    rw [List.mem_reverse, List.mem_zipIdx_iff_getElem?]
    simp [← hget, List.getElem?_eq_getElem hi]
  obtain ⟨entry, hentry⟩ := Option.isSome_iff_exists.mp hsome
  have hmem := List.mem_reverse.mp (List.mem_of_find?_eq_some hentry)
  have heq := List.find?_some hentry
  rw [List.mem_zipIdx_iff_getElem?] at hmem
  refine ⟨entry.2, by rw [hentry]; rfl, ?_⟩
  rw [hmem]
  simpa using heq

/-- A linear functional of a coefficient vector. -/
def functional (s : MkSymmetricReference) (g : MultiIndex → ℚ) (expanded : List ℚ) : ℚ :=
  ∑ i ∈ Finset.range s.monomial.dimension, expanded.getD i 0 * g (s.monomial.indices.getD i [])

theorem functional_set (g : MultiIndex → ℚ) {expanded : List ℚ} {position : Nat}
    {member : MultiIndex} (hlength : expanded.length = s.monomial.dimension)
    (hposition : s.monomial.indices[position]? = some member) (c : ℚ) :
    functional s g (expanded.set position (expanded.getD position 0 + c)) =
      functional s g expanded + c * g member := by
  obtain ⟨hlt, hget⟩ := List.getElem?_eq_some_iff.mp hposition
  have hlt' : position < s.monomial.dimension := hlt
  have hmember : s.monomial.indices.getD position [] = member := by
    rw [List.getD_eq_getElem _ _ hlt, hget]
  unfold functional
  rw [← Finset.sum_erase_add _ _ (Finset.mem_range.mpr hlt'),
    ← Finset.sum_erase_add (Finset.range _)
    (fun i => expanded.getD i 0 * g (s.monomial.indices.getD i [])) (Finset.mem_range.mpr hlt'),
      hmember]
  have hself : (expanded.set position (expanded.getD position 0 + c)).getD position 0 =
      expanded.getD position 0 + c := by
    rw [List.getD_eq_getElem _ _ (by simpa [hlength] using hlt')]
    simp
  have hothers : ∀ i ∈ (Finset.range s.monomial.dimension).erase position,
      (expanded.set position (expanded.getD position 0 + c)).getD i 0 * g
        (s.monomial.indices.getD i []) =
        expanded.getD i 0 * g (s.monomial.indices.getD i []) := by
    intro i hi
    have hne := (Finset.mem_erase.mp hi).1
    rw [List.getD_eq_getElem?_getD, List.getElem?_set_ne hne.symm, ← List.getD_eq_getElem?_getD]
  rw [Finset.sum_congr rfl hothers, hself]
  ring

/-- Expansion is the sum over all members. -/
theorem foldlM_addMember (h : Covers s k degree) {cells : List (ℚ × MultiIndex)}
    (hcells : ∀ cell ∈ cells, cell.2 ∈ s.monomial.indices) {expanded : List ℚ}
    (hlength : expanded.length = s.monomial.dimension) :
    ∃ result, cells.foldlM s.addMember expanded = .ok result ∧
    result.length = s.monomial.dimension ∧
      ∀ g, functional s g result = functional s g expanded + (cells.map fun cell =>
        cell.1 * g cell.2).sum := by
  induction cells generalizing expanded with
  | nil => exact ⟨expanded, rfl, hlength, fun g => by simp⟩
  | cons cell cells ih =>
    obtain ⟨position, hposition, hget⟩ := h.position (hcells cell (by simp))
    have hstep : s.addMember expanded cell =
        .ok (expanded.set position (expanded.getD position 0 + cell.1)) := by
      unfold MkSymmetricReference.addMember
      rw [hposition]
      rfl
    have hset : (expanded.set position (expanded.getD position 0 + cell.1)).length =
        s.monomial.dimension := by
      rw [List.length_set, hlength]
    obtain ⟨result, hresult, hlength', hsum⟩ :=
      ih (fun c hc => hcells c (List.mem_cons_of_mem _ hc)) hset
    refine ⟨result, by rw [List.foldlM_cons, hstep, ok_bind, hresult], hlength', fun g => ?_⟩
    rw [hsum g, functional_set g hlength hget, List.map_cons, List.sum_cons, add_assoc]

theorem Covers.member (h : Covers s k degree) {o : SymmetricMonomialOrbit} (ho : o ∈ s.orbits)
    {index : MultiIndex} (hindex : index ∈ o.members) : index ∈ s.monomial.indices :=
  (h.indices.2 index).mpr ((h.mem index).mp (List.mem_flatMap.mpr ⟨o, ho, hindex⟩))

/-- The members of all orbits with the coefficients of their orbits. -/
def weighted (s : MkSymmetricReference) (coefficients : List ℚ) : List (ℚ × MultiIndex) :=
  (coefficients.zip s.orbits).flatMap fun pair => pair.2.members.map fun member => (pair.1, member)

theorem weighted_mem (h : Covers s k degree) (coefficients : List ℚ) :
    ∀ cell ∈ weighted s coefficients, cell.2 ∈ s.monomial.indices := by
  intro cell hcell
  obtain ⟨pair, hpair, hcell⟩ := List.mem_flatMap.mp hcell
  obtain ⟨member, hmember, rfl⟩ := List.mem_map.mp hcell
  exact h.member (List.of_mem_zip hpair).2 hmember

theorem weighted_sum {coefficients : List ℚ} (hlength : coefficients.length = s.dimension)
    (g : MultiIndex → ℚ) :
    ((weighted s coefficients).map fun cell => cell.1 * g cell.2).sum =
      ∑ row ∈ Finset.range s.dimension, coefficients.getD row 0 * ((s.members row).map g).sum := by
  have hrows : ((coefficients.zip s.orbits).map fun pair => pair.1 * (pair.2.members.map g).sum) =
      (List.range s.dimension).map fun row =>
        coefficients.getD row 0 * ((s.members row).map g).sum := by
    have hlength' : coefficients.length = s.orbits.length := hlength
    refine List.ext_getElem (by simp [MkSymmetricReference.dimension, hlength']) fun i hi hi' => ?_
    have hc : i < coefficients.length := by simpa [hlength] using hi'
    have ho : i < s.orbits.length := by omega
    simp only [List.getElem_map, List.getElem_zip, List.getElem_range, MkSymmetricReference.members,
      List.getD_eq_getElem _ _ hc, List.getElem?_eq_getElem ho, Option.map_some, Option.getD_some]
  rw [← sum_range, ← hrows, weighted, List.map_flatMap, List.flatMap_def, List.sum_flatten,
    List.map_map]
  refine congrArg List.sum (List.map_congr_left fun pair _ => ?_)
  simp [Function.comp_def, List.sum_map_mul_left]

/-- Every coefficient vector expands, and the expansion sums over all members. -/
theorem expand_ok (h : Covers s k degree) {coefficients : List ℚ}
    (hlength : coefficients.length = s.dimension) :
    ∃ expanded, s.expandCoefficientsExact coefficients = .ok expanded ∧
    expanded.length = s.monomial.dimension ∧
      ∀ g, functional s g expanded = ((weighted s coefficients).map fun cell =>
        cell.1 * g cell.2).sum := by
  obtain ⟨expanded, hexpanded, hsize, hfunctional⟩ :=
    foldlM_addMember h (weighted_mem h coefficients)
    (List.length_replicate : (List.replicate s.monomial.dimension (0 : ℚ)).length =
      s.monomial.dimension)
  refine ⟨expanded, ?_, hsize, fun g => ?_⟩
  · rw [MkSymmetricReference.expandCoefficientsExact, MkSymmetricReference.checkCoefficients,
      if_pos hlength, ok_bind]
    exact hexpanded
  · have hempty : functional s g (List.replicate s.monomial.dimension 0) = 0 := by
      refine Finset.sum_eq_zero fun i hi => ?_
      rw [List.getD_replicate _ (Finset.mem_range.mp hi), zero_mul]
    rw [hfunctional g, hempty, zero_add]

/-- A quadratic form of a coefficient vector is a functional of functionals. -/
theorem quadraticForm_functional {entry : MultiIndex → MultiIndex → Mk ℚ}
    {f : MultiIndex → MultiIndex → ℚ}
    (hentry : ∀ a ∈ s.monomial.indices, ∀ b ∈ s.monomial.indices, entry a b = .ok (f a b))
    (expanded : List ℚ) :
    s.monomial.quadraticForm expanded entry =
      .ok (functional s (fun a => functional s (f a) expanded) expanded) := by
  have hindex : ∀ i < s.monomial.dimension, s.monomial.indices.getD i [] ∈ s.monomial.indices :=
    fun i hi => getD_mem [] hi
  rw [MkMonomialReference.quadraticForm,
    foldlM_add (g := fun cell => expanded.getD cell.1 0 *
      (expanded.getD cell.2 0 * f (s.monomial.indices.getD cell.1 [])
      (s.monomial.indices.getD cell.2 []))),
    sum_cells (g := fun i j => expanded.getD i 0 *
      (expanded.getD j 0 * f (s.monomial.indices.getD i []) (s.monomial.indices.getD j []))),
        zero_add]
  · refine congrArg Except.ok ?_
    rw [sum_range]
    refine Finset.sum_congr rfl fun i _ => ?_
    rw [sum_range, ← Finset.mul_sum]
    rfl
  · intro cell hcell total
    simp only [List.mem_flatMap, List.mem_map, List.mem_range] at hcell
    obtain ⟨i, hi, j, hj, rfl⟩ := hcell
    unfold MkMonomialReference.addTerm
    split
    · rename_i hzero
      have hproduct : expanded.getD i 0 * (expanded.getD j 0 *
          f (s.monomial.indices.getD i []) (s.monomial.indices.getD j [])) = 0 := by
        rcases hzero with hzero | hzero
        · rw [hzero, zero_mul]
        · rw [hzero, zero_mul, mul_zero]
      rw [hproduct, add_zero]
    · rw [hentry _ (hindex i hi) _ (hindex j hj), ok_bind]
      simp only [pure, Except.pure, Except.ok.injEq]
      ring

/-- Both ways to a quadratic form, for one entry function. -/
theorem forms_agree (h : Covers s k degree) {entry : MultiIndex → MultiIndex → Mk ℚ}
    {f : MultiIndex → MultiIndex → ℚ}
    (hentry : ∀ a ∈ s.monomial.indices, ∀ b ∈ s.monomial.indices, entry a b = .ok (f a b))
    {coefficients expanded : List ℚ} (hlength : coefficients.length = s.dimension)
    (hexpanded : ∀ g, functional s g expanded =
      ((weighted s coefficients).map fun cell => cell.1 * g cell.2).sum)
    {symmetric : Nat → Nat → Mk ℚ}
    (hsymmetric : ∀ row < s.dimension, ∀ column < s.dimension,
      symmetric row column = MkSymmetricReference.orbitSum entry (s.members row)
      (s.members column)) :
    ∃ matrix, MkMonomialReference.denseOf s.dimension symmetric = .ok matrix ∧
      s.monomial.quadraticForm expanded entry =
        .ok (denseForm coefficients matrix s.dimension) := by
  have hmembers : ∀ row < s.dimension, ∀ a ∈ s.members row, a ∈ s.monomial.indices := by
    intro row hrow a ha
    have hrow' : row < s.orbits.length := hrow
    rw [MkSymmetricReference.members, List.getElem?_eq_getElem hrow'] at ha
    exact h.member (List.getElem_mem hrow') ha
  have hsum : ∀ row < s.dimension, ∀ column < s.dimension, symmetric row column =
      .ok (((s.members row).map fun a => ((s.members column).map fun b => f a b).sum).sum) := by
    intro row hrow column hcolumn
    rw [hsymmetric row hrow column hcolumn, MkSymmetricReference.orbitSum,
      foldlM_add (g := fun cell => f cell.1 cell.2), sum_cells, zero_add]
    intro cell hcell total
    simp only [List.mem_flatMap, List.mem_map] at hcell
    obtain ⟨a, ha, b, hb, rfl⟩ := hcell
    rw [hentry a (hmembers row hrow a ha) b (hmembers column hcolumn b hb)]
    rfl
  obtain ⟨matrix, hmatrix, hget⟩ := denseOf_ok hsum
  refine ⟨matrix, hmatrix, ?_⟩
  rw [quadraticForm_functional hentry]
  refine congrArg Except.ok ?_
  rw [hexpanded, weighted_sum hlength (fun a => functional s (f a) expanded), denseForm]
  refine Finset.sum_congr rfl fun row hrow => ?_
  have hinner : ∀ a, functional s (f a) expanded =
      ∑ column ∈ Finset.range s.dimension, coefficients.getD column 0 *
      ((s.members column).map (f a)).sum :=
    fun a => by rw [hexpanded, weighted_sum hlength]
  have hrow' := Finset.mem_range.mp hrow
  rw [show ((s.members row).map fun a => functional s (f a) expanded).sum =
      ∑ column ∈ Finset.range s.dimension, coefficients.getD column 0 *
        ((s.members row).map fun a => ((s.members column).map fun b => f a b).sum).sum from ?_]
  · rw [Finset.mul_sum]
    refine Finset.sum_congr rfl fun column hcolumn => ?_
    rw [hget row hrow' column (Finset.mem_range.mp hcolumn)]
    ring
  · simp only [hinner]
    induction s.members row with
    | nil => simp
    | cons a rest ih =>
      rw [List.map_cons, List.sum_cons, ih, ← Finset.sum_add_distrib]
      refine Finset.sum_congr rfl fun column _ => ?_
      rw [List.map_cons, List.sum_cons]
      ring

end

theorem count_eq {lists : List MultiIndex} {P : MultiIndex → Prop} [DecidablePred P]
    (hnodup : lists.Nodup) (hmem : ∀ index, index ∈ lists ↔ P index) (index : MultiIndex) :
    lists.count index = if P index then 1 else 0 := by
  by_cases h : P index
  · rw [if_pos h, List.count_eq_one_of_mem hnodup ((hmem index).mpr h)]
  · rw [if_neg h, List.count_eq_zero_of_not_mem fun hin => h ((hmem index).mp hin)]

theorem jTotalEntry_ok {r : MkMonomialReference} (hr : Admitted r) {a b : MultiIndex}
    (hab : Accepted r a b) :
    ∃ v, r.jTotalEntry a b = .ok v := by
  refine ⟨_, foldlM_add (g := fun m => (r.jEntry m a b).toOption.getD 0) (fun m hm total => ?_) 0⟩
  rw [jEntry_ok hr hab (List.mem_range.mp hm), ok_bind]
  rfl

/-- **Symmetric reduction.** The indices and the orbits both list every
multi-index of the space exactly once; every coefficient vector expands, and its
symmetric forms are the monomial forms of the expansion. -/
theorem symmetric_reduction {k degree : Nat} {s : MkSymmetricReference}
    (h : MkSymmetricReference.new k degree = .ok s) :
    (∀ index, (s.orbits.flatMap SymmetricMonomialOrbit.members).count index =
      if index.length = k ∧ index.sum ≤ degree then 1 else 0) ∧
    (∀ index, s.monomial.indices.count index = if index.length = k ∧ index.sum ≤ degree then
      1 else 0) ∧
    ∀ coefficients : List ℚ, coefficients.length = s.dimension →
      ∃ expanded denseI denseJ, s.expandCoefficientsExact coefficients = .ok expanded ∧
        s.denseIExact = .ok denseI ∧ s.denseJTotalExact = .ok denseJ ∧
        s.monomial.quadraticI expanded = .ok (denseForm coefficients denseI s.dimension) ∧
        s.monomial.quadraticJTotal expanded = .ok (denseForm coefficients denseJ s.dimension) := by
  have hcovers := new_covers h
  obtain ⟨hk, hdegree, -, hr⟩ := new_ok hcovers.engine
  obtain ⟨hnodup, hmem⟩ := hcovers.indices
  refine ⟨count_eq hcovers.nodup hcovers.mem, count_eq hnodup hmem, fun coefficients hlength => ?_⟩
  have haccepted : ∀ a ∈ s.monomial.indices, ∀ b ∈ s.monomial.indices, Accepted s.monomial a b := by
    intro a ha b hb
    obtain ⟨hal, has⟩ := (hmem a).mp ha
    obtain ⟨hbl, hbs⟩ := (hmem b).mp hb
    exact ⟨hal.trans hk.symm, hbl.trans hk.symm, hdegree ▸ has, hdegree ▸ hbs⟩
  have hi : ∀ a ∈ s.monomial.indices, ∀ b ∈ s.monomial.indices,
      s.monomial.iEntry a b = .ok ((s.monomial.iEntry a b).toOption.getD 0) := by
    intro a ha b hb
    rw [iEntry_ok hr (haccepted a ha b hb)]
    rfl
  have hj : ∀ a ∈ s.monomial.indices, ∀ b ∈ s.monomial.indices,
      s.monomial.jTotalEntry a b = .ok ((s.monomial.jTotalEntry a b).toOption.getD 0) := by
    intro a ha b hb
    obtain ⟨v, hv⟩ := jTotalEntry_ok hr (haccepted a ha b hb)
    rw [hv]
    rfl
  obtain ⟨expanded, hexpand, hsize, hzero⟩ := expand_ok hcovers hlength
  have hcheck : ∀ row < s.dimension, ∀ column < s.dimension, s.checkEntryIndices row column =
      .ok () := by
    intro row hrow column hcolumn
    simp [MkSymmetricReference.checkEntryIndices, check, hrow, hcolumn]
  have hsumI : ∀ row < s.dimension, ∀ column < s.dimension, s.iEntry row column =
      MkSymmetricReference.orbitSum s.monomial.iEntry (s.members row) (s.members column) := by
    intro row hrow column hcolumn
    rw [MkSymmetricReference.iEntry, hcheck row hrow column hcolumn, ok_bind]
  have hsumJ : ∀ row < s.dimension, ∀ column < s.dimension, s.jTotalEntry row column =
      MkSymmetricReference.orbitSum s.monomial.jTotalEntry (s.members row) (s.members column) := by
    intro row hrow column hcolumn
    rw [MkSymmetricReference.jTotalEntry, hcheck row hrow column hcolumn, ok_bind]
  obtain ⟨denseI, hdenseI, hformI⟩ := forms_agree hcovers hi hlength hzero hsumI
  obtain ⟨denseJ, hdenseJ, hformJ⟩ := forms_agree hcovers hj hlength hzero hsumJ
  refine ⟨expanded, denseI, denseJ, hexpand, hdenseI, hdenseJ, ?_, ?_⟩
  · rw [MkMonomialReference.quadraticI, MkMonomialReference.checkCoefficients,
      if_pos hsize, ok_bind]
    exact hformI
  · rw [MkMonomialReference.quadraticJTotal, MkMonomialReference.checkCoefficients,
      if_pos hsize, ok_bind]
    exact hformJ

/-- The vector (1, 2) expands to (1, 2, 2), and both pairs of forms agree on it. -/
theorem symmetric_reduction_plane :
    ∃ s denseI denseJ, MkSymmetricReference.new 2 1 = .ok s ∧
      (s.orbits.flatMap SymmetricMonomialOrbit.members).count [1, 0] = 1 ∧
      s.denseIExact = .ok denseI ∧ s.denseJTotalExact = .ok denseJ ∧
      s.monomial.quadraticI [1, 2, 2] = .ok (denseForm [1, 2] denseI 2) ∧
      s.monomial.quadraticJTotal [1, 2, 2] = .ok (denseForm [1, 2] denseJ 2) := by
  have hnew : MkSymmetricReference.new 2 1 =
      .ok ⟨⟨2, 1, [[0, 0], [0, 1], [1, 0]], [1, 1, 2, 6, 24, 120]⟩,
        [⟨[], [[0, 0]]⟩, ⟨[1], [[0, 1], [1, 0]]⟩], [([0, 0], 0), ([0, 1], 1), ([1, 0], 2)]⟩ := by
    decide +kernel
  obtain ⟨hcount, -, hforms⟩ := symmetric_reduction hnew
  obtain ⟨expanded, denseI, denseJ, hexpand, hI, hJ, hquadraticI, hquadraticJ⟩ := hforms [1, 2] rfl
  have hexpanded : expanded = [1, 2, 2] := Except.ok.inj (hexpand.symm.trans (by decide +kernel))
  subst hexpanded
  exact ⟨_, denseI, denseJ, hnew, hcount [1, 0], hI, hJ, hquadraticI, hquadraticJ⟩

end Xcelerator.Variational.Maynard
