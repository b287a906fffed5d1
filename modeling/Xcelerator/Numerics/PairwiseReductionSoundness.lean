import Mathlib
import Xcelerator.Numerics.PairwiseReduction

/-! # One tree for every route

The in-place passes hold the levels of the tree in strided slots, a block of 128
leaves is a subtree, and so every route returns the root of the one tree. -/

namespace Xcelerator.Numerics.PairwiseReduction
open Xcelerator.Foundations.Machine Xcelerator.Foundations.PairwiseTree

section
variable {F : Nat → Type} (A : Arithmetic F) {p : Nat}

/-! ## Fresh levels -/

theorem consume_eq (values : List (F p)) : consume A values = level A.add values := by
  induction values using consume.induct with
  | case1 => simp [consume, level]
  | case2 left => simp [consume, level]
  | case3 left right leaves ih => rw [consume, level, ih]

theorem sumPairs_ok (values : List (F p)) :
    (chunks 2 values).mapM (sumPair A) = .ok (level A.add values) := by
  induction values using level.induct with
  | case1 left right rest ih =>
    rw [chunks_of_ne (by omega) (by simp), List.mapM_cons]
    simp [sumPair, ih, level, pure, Except.pure]
  | case2 values h =>
    rcases values with _ | ⟨left, _ | ⟨right, rest⟩⟩
    · simp [level, pure, Except.pure]
    · simp [chunks_of_ne, sumPair, level, pure, Except.pure]
    · exact absurd rfl (h left right rest)

theorem level_ne_nil {values : List (F p)} (h : values ≠ []) : level A.add values ≠ [] := by
  intro hnil
  have hlength := length_level A.add values
  have hpos := List.length_pos_iff.mpr h
  rw [hnil, List.length_nil] at hlength
  omega

theorem pairLevels_ok {fuel : Nat} {values : List (F p)} {result : F p}
    (hfuel : values.length ≤ fuel)
    (h : root A.add values = some result) : pairLevels A fuel values = .ok [result] := by
  have hsettled : ∀ {values : List (F p)}, ¬1 < values.length → root A.add values = some result →
      values = [result] := by
    intro values hshort h
    rcases values with _ | ⟨left, _ | ⟨right, rest⟩⟩
    · simp at h
    · simpa using h
    · simp at hshort
  induction fuel generalizing values with
  | zero =>
    have hnil : values = [] := List.length_eq_zero_iff.mp (by omega)
    rw [hnil] at h
    simp at h
  | succ fuel ih =>
    rw [pairLevels]
    split
    · rename_i hlong
      rw [sumPairs_ok, ok_bind]
      refine ih ?_ (root_level A.add values ▸ h)
      rw [length_level]
      omega
    · rename_i hshort
      rw [hsettled hshort h]

theorem ownedLevels_eq (fuel : Nat) (values : List (F p)) :
    pairLevels A fuel values = .ok (ownedLevels A fuel values) := by
  induction fuel generalizing values with
  | zero => rfl
  | succ fuel ih =>
    rw [pairLevels, ownedLevels]
    split
    · rw [sumPairs_ok, ok_bind, ih, consume_eq]
    · rfl

theorem atPrecision_eq (value : Float F) : atPrecision A p value = A.withVal p value.value := by
  rw [atPrecision]
  split
  · rename_i h
    subst h
    exact (A.withVal_self _ _).symm
  · rfl

/-- The leaves at the precision of the sum. -/
def leavesAt (p : Nat) (values : List (Float F)) : List (F p) :=
  values.map fun value => A.withVal p value.value

/-- The root of the tree, zero where there are no leaves. -/
def treeSum (leaves : List (F p)) : F p := (root A.add leaves).getD (A.zero p)

theorem root_eq {leaves : List (F p)} (h : leaves ≠ []) :
    root A.add leaves = some (treeSum A leaves) := by
  obtain ⟨result, hresult⟩ := Option.isSome_iff_exists.mp (root_isSome A.add h)
  rw [treeSum, hresult, Option.getD_some]

theorem deterministicPairwiseSumHp_eq (values : List (Float F)) :
    deterministicPairwiseSumHp A values p = .ok (treeSum A (leavesAt A p values)) := by
  rw [deterministicPairwiseSumHp]
  cases values with
  | nil => simp [treeSum, leavesAt]
  | cons value values =>
    have hne : leavesAt A p (value :: values) ≠ [] := by simp [leavesAt]
    have hlevels : pairLevels A (value :: values).length (leavesAt A p (value :: values)) =
        .ok [treeSum A (leavesAt A p (value :: values))] :=
          pairLevels_ok A (by simp [leavesAt]) (root_eq A hne)
    rw [leavesAt] at hlevels
    rw [if_neg (by simp), hlevels]
    simp [pop, leavesAt]

theorem deterministicPairwiseSumHpOwned_eq (values : List (Float F)) :
    deterministicPairwiseSumHpOwned A values p = .ok (treeSum A (leavesAt A p values)) := by
  rw [← deterministicPairwiseSumHp_eq, deterministicPairwiseSumHp, deterministicPairwiseSumHpOwned]
  have hleaves : values.map (atPrecision A p) = values.map fun value => A.withVal p value.value :=
    List.map_congr_left fun value _ => atPrecision_eq A value
  rw [hleaves, ownedLevels_eq]
  rfl

/-! ## One pass -/

/-- The slots at multiples of the stride hold the given values. -/
def Holds (values : List (F p)) (stride : Nat) (xs : List (F p)) : Prop :=
  ∀ i, i < xs.length → values[i * stride]? = xs[i]?

theorem Update.apply_ok {values : List (F p)} {update : Update} {old source : F p}
    (hsplit : update.destination < update.split) (hold : values[update.destination]? = some old)
    (hsource : values[update.source]? = some source) :
    update.apply A values =
      .ok (values.set update.destination (if update.accumulate then A.add old source else
        source)) := by
  obtain ⟨hbound, -⟩ := List.getElem?_eq_some_iff.mp hsource
  have hle : update.split ≤ values.length := by rw [Update.source] at hbound; omega
  rw [Update.apply, if_pos ⟨hle, hsplit⟩, read_ok hold, ok_bind, read_ok hsource, ok_bind,
    write_ok _ (by omega)]

/-- A pass before the pair `m`: the earlier pairs are combined, the later slots are untouched. -/
structure Progress (xs : List (F p)) (stride length m : Nat) (values : List (F p)) : Prop where
  length_eq : values.length = length
  combined : ∀ i, i < m → values[i * stride]? = (level A.add xs)[i]?
  pending : ∀ j, 2 * m ≤ j → j < xs.length → values[j * stride]? = xs[j]?

theorem foldlM_two {values next : List (F p)} (first second : Update)
    (h : first.apply A values = .ok next) :
    [first, second].foldlM (Update.apply A) values = second.apply A next := by
  rw [List.foldlM_cons, h, ok_bind, List.foldlM_cons]
  cases second.apply A next <;> rfl

theorem foldlM_one {values : List (F p)} (first : Update) :
    [first].foldlM (Update.apply A) values = first.apply A values := by
  rw [List.foldlM_cons]
  cases first.apply A values <;> rfl

theorem Progress.step {xs : List (F p)} {stride length m : Nat} {values : List (F p)}
    (h : Progress A xs stride length m values) (hstride : 0 < stride) (hm : 0 < m)
    (hlt : 2 * m < xs.length) :
    ∃ later, (pairUpdates xs.length stride m).foldlM (Update.apply A) values = .ok later ∧
      Progress A xs stride length (m + 1) later := by
  have hleft : values[2 * m * stride]? = some xs[2 * m] := by
    rw [h.pending _ le_rfl hlt, List.getElem?_eq_getElem hlt]
  obtain ⟨hbound, -⟩ := List.getElem?_eq_some_iff.mp hleft
  have hbelow : m * stride < 2 * m * stride := by
    rw [Nat.mul_assoc, Nat.two_mul]
    have : 0 < m * stride := Nat.mul_pos hm hstride
    omega
  have hslot : m * stride < values.length := by omega
  -- every other slot keeps what it holds when the pair is written
  have hframe : ∀ x, Progress A xs stride length (m + 1) (values.set (m * stride) x) ↔
      some x = (level A.add xs)[m]? := by
    intro x
    constructor
    · intro hp
      rw [← hp.combined m (by omega), List.getElem?_set_self hslot]
    · intro hx
      refine ⟨by rw [List.length_set, h.length_eq], ?_, ?_⟩
      · intro i hi
        rcases Nat.lt_or_ge i m with hlt' | hge
        · have hne : m * stride ≠ i * stride := (Nat.mul_lt_mul_of_pos_right hlt' hstride).ne'
          rw [List.getElem?_set_ne hne, h.combined i hlt']
        · obtain rfl : i = m := by omega
          rw [List.getElem?_set_self hslot, hx]
      · intro j hj hj'
        have hne : m * stride ≠ j * stride := (Nat.mul_lt_mul_of_pos_right (by omega) hstride).ne
        rw [List.getElem?_set_ne hne, h.pending j (by omega) hj']
  have hassign : Update.apply A values ⟨false, 2 * m * stride, m * stride, 0⟩ =
      .ok (values.set (m * stride) xs[2 * m]) := by
    rw [Update.apply_ok A hbelow (List.getElem?_eq_getElem hslot) hleft]
    rfl
  have hlevel := getElem?_level A.add xs m
  rw [List.getElem?_eq_getElem hlt] at hlevel
  rw [pairUpdates]
  by_cases hnext : 2 * m + 1 < xs.length
  · have hright : values[2 * m * stride + stride]? = some xs[2 * m + 1] := by
      have := h.pending (2 * m + 1) (by omega) hnext
      rwa [Nat.add_mul, Nat.one_mul, List.getElem?_eq_getElem hnext] at this
    have hadd : Update.apply A (values.set (m * stride) xs[2 * m])
      ⟨true, 2 * m * stride, m * stride, stride⟩ =
        .ok (values.set (m * stride) (A.add xs[2 * m] xs[2 * m + 1])) := by
      have hold : (values.set (m * stride) xs[2 * m])[m * stride]? = some xs[2 * m] :=
        List.getElem?_set_self hslot
      have hsource : (values.set (m * stride) xs[2 * m])[2 * m * stride + stride]? =
          some xs[2 * m + 1] := by
        rw [List.getElem?_set_ne (by omega), hright]
      rw [@Update.apply_ok _ A p _ ⟨true, 2 * m * stride, m * stride, stride⟩ _ _ hbelow
        hold hsource]
      simp
    rw [if_pos hnext, foldlM_two A _ _ hassign, hadd]
    refine ⟨_, rfl, (hframe _).mpr ?_⟩
    rw [hlevel, List.getElem?_eq_getElem hnext]
  · rw [if_neg hnext, foldlM_one, hassign]
    refine ⟨_, rfl, (hframe _).mpr ?_⟩
    rw [hlevel, List.getElem?_eq_none (by omega)]

theorem Progress.run {xs : List (F p)} {stride length : Nat} (hstride : 0 < stride) (k m : Nat)
    {values : List (F p)} (h : Progress A xs stride length m values) (hm : 0 < m)
    (hend : m + k = (xs.length + 1) / 2) :
    ∃ later, ((List.range' m k).flatMap (pairUpdates xs.length stride)).foldlM
      (Update.apply A) values = .ok later ∧
      Progress A xs stride length (m + k) later := by
  induction k generalizing m values with
  | zero => exact ⟨values, rfl, h⟩
  | succ k ih =>
    obtain ⟨next, hnext, hprogress⟩ := h.step A hstride hm (by omega)
    obtain ⟨later, hlater, hdone⟩ := ih (m + 1) hprogress (by omega) (by omega)
    refine ⟨later, ?_, by rwa [show m + (k + 1) = m + 1 + k by ring]⟩
    rw [List.range'_succ, List.flatMap_cons, List.foldlM_append, hnext, ok_bind, hlater]

theorem pass_ok {values xs : List (F p)} {stride : Nat} (hstride : 0 < stride)
    (hlong : 1 < xs.length) (h : Holds values stride xs) :
    ∃ later, pass A values xs.length stride = .ok later ∧ later.length = values.length ∧
      Holds later stride (level A.add xs) := by
  have hfirst : values[0]? = some xs[0] := by
    have := h 0 (by omega)
    rwa [Nat.zero_mul, List.getElem?_eq_getElem (show 0 < xs.length by omega)] at this
  have hsecond : values[stride]? = some xs[1] := by
    have := h 1 hlong
    rwa [Nat.one_mul, List.getElem?_eq_getElem hlong] at this
  obtain ⟨hbound, -⟩ := List.getElem?_eq_some_iff.mp hfirst
  have hstart : Update.apply A values ⟨true, stride, 0, 0⟩ =
      .ok (values.set 0 (A.add xs[0] xs[1])) := by
    rw [@Update.apply_ok _ A p _ ⟨true, stride, 0, 0⟩ _ _ hstride hfirst hsecond]
    rfl
  have hprogress : Progress A xs stride values.length 1 (values.set 0 (A.add xs[0] xs[1])) := by
    refine ⟨List.length_set, ?_, ?_⟩
    · intro i hi
      obtain rfl : i = 0 := by omega
      rw [Nat.zero_mul, List.getElem?_set_self hbound, getElem?_level,
        List.getElem?_eq_getElem (by omega), List.getElem?_eq_getElem (by omega)]
    · intro j hj hj'
      have hne : 0 ≠ j * stride := (Nat.mul_pos (by omega) hstride).ne
      rw [List.getElem?_set_ne hne, h j hj']
  obtain ⟨later, hlater, hdone⟩ :=
    hprogress.run A hstride ((xs.length + 1) / 2 - 1) 1 (by omega) (by omega)
  refine ⟨later, ?_, hdone.length_eq, ?_⟩
  · rw [pass, passUpdates, List.foldlM_cons, hstart, ok_bind, hlater]
  · intro i hi
    rw [length_level] at hi
    exact hdone.combined i (by omega)

theorem reduceStrided_ok {values xs : List (F p)} {stride : Nat} (hstride : 0 < stride)
    (hne : xs ≠ []) (h : Holds values stride xs) :
    ∃ later, reduceStrided A values xs.length stride = .ok later ∧ later.length = values.length ∧
      later[0]? = root A.add xs := by
  induction xs using root.induct A.add generalizing values with
  | case1 xs hlong ih =>
    obtain ⟨next, hnext, hlength, hholds⟩ := pass_ok A hstride hlong h
    obtain ⟨later, hlater, hlength', hroot⟩ := ih (level_ne_nil A hne) hholds
    refine ⟨later, ?_, hlength'.trans hlength, hroot.trans (root_level A.add xs)⟩
    rw [reduceStrided, if_pos hlong, hnext, ok_bind, ← length_level A.add, hlater]
  | case2 xs hshort =>
    refine ⟨values, by rw [reduceStrided, if_neg hshort], rfl, ?_⟩
    have hpos := List.length_pos_iff.mpr hne
    have hfirst := h 0 hpos
    rw [Nat.zero_mul] at hfirst
    rw [hfirst, root, if_neg hshort, List.head?_eq_getElem?]

/-- A source of a pass lies beyond every slot the pass has written before. -/
theorem passUpdates_fresh (count stride : Nat) (hstride : 0 < stride) :
    (passUpdates count stride).Pairwise fun earlier later =>
    earlier.destination < later.source := by
  have hpair : ∀ i, ∀ update ∈ pairUpdates count stride i,
      update.destination = i * stride ∧ 2 * (i * stride) ≤ update.source := by
    intro i update hupdate
    rw [pairUpdates, List.mem_cons] at hupdate
    rcases hupdate with rfl | hupdate
    · exact ⟨rfl, by simp [Update.source, Nat.mul_assoc]⟩
    · split at hupdate
      · obtain rfl := List.mem_singleton.mp hupdate
        exact ⟨rfl, by simp [Update.source, Nat.mul_assoc]⟩
      · cases hupdate
  have hlater : ∀ i, 0 < i → ∀ j, i ≤ j →
    ∀ a ∈ pairUpdates count stride i, ∀ b ∈ pairUpdates count stride j,
      a.destination < b.source := by
    intro i hi j hij a ha b hb
    have hmono : i * stride ≤ j * stride := Nat.mul_le_mul_right _ hij
    have hpos : 0 < i * stride := Nat.mul_pos hi hstride
    have := hpair i a ha
    have := hpair j b hb
    omega
  rw [passUpdates, List.pairwise_cons]
  constructor
  · intro update hupdate
    obtain ⟨i, hi, hupdate⟩ := List.mem_flatMap.mp hupdate
    have hpos : 0 < i * stride := Nat.mul_pos (by rw [List.mem_range'_1] at hi; omega) hstride
    have := hpair i update hupdate
    simp only
    omega
  · rw [List.pairwise_flatMap]
    constructor
    · intro i hi
      have hpos : 0 < i := by rw [List.mem_range'_1] at hi; omega
      exact List.Pairwise.imp_of_mem (R := fun _ _ => True)
        (fun ha hb _ => hlater i hpos i le_rfl _ ha _ hb)
        (List.pairwise_of_forall fun _ _ => trivial)
    · refine List.Pairwise.imp_of_mem ?_ (List.pairwise_lt_range' (s := 1))
      intro i j hi _ hij a ha b hb
      exact hlater i (by rw [List.mem_range'_1] at hi; omega) j hij.le a ha b hb

/-! ## Blocks -/

/-- The closure leaves these values, whatever a slot held before. -/
def Writes (leaf : Nat → F p → F p) (leaves : List (F p)) : Prop :=
  ∀ i (h : i < leaves.length) (slot : F p), leaf i slot = leaves[i]

theorem Writes.writeLeaves {leaf : Nat → F p → F p} {leaves slots : List (F p)}
    (h : Writes leaf leaves)
    (hlength : slots.length = leaves.length) : writeLeaves leaf 0 slots = leaves := by
  refine List.ext_getElem (by simp [PairwiseReduction.writeLeaves, hlength]) fun i hi hi' => ?_
  simp [PairwiseReduction.writeLeaves, h i hi']

/-- The blocks are written as the whole slice is. -/
theorem writeLeaves_chunks (leaf : Nat → F p → F p) {m : Nat} (hm : 0 < m) (k : Nat)
    (slots : List (F p)) :
    ((chunks m slots).zipIdx k).map (fun block => writeLeaves leaf (block.2 * m) block.1) =
      chunks m (writeLeaves leaf (k * m) slots) := mapIdx_chunks leaf hm k slots

/-- A reduced block keeps its length and holds the root of its leaves in front. -/
def Reduced (reduced leaves : List (F p)) : Prop :=
  reduced.length = leaves.length ∧ reduced[0]? = root A.add leaves

theorem reduced_ok {leaves : List (F p)} (h : leaves ≠ []) :
    ∃ reduced, reduceStrided A leaves leaves.length 1 = .ok reduced ∧ Reduced A reduced leaves := by
  obtain ⟨reduced, hreduced, hlength, hroot⟩ :=
    @reduceStrided_ok _ A p leaves leaves 1 Nat.one_pos h fun i _ => by rw [Nat.mul_one]
  exact ⟨reduced, hreduced, hlength, hroot⟩

/-- The roots of reduced blocks stand at the multiples of the block length. -/
theorem Reduced.holds {m : Nat} (hm : 0 < m) {leaves : List (F p)} {blocks : List (List (F p))}
    (h : List.Forall₂ (Reduced A) blocks (chunks m leaves)) (i : Nat)
    (hi : i < (chunks m leaves).length) :
    blocks.flatten[i * m]? = ((chunks m leaves)[i]?).bind (root A.add) := by
  induction leaves using chunks.induct m generalizing blocks i with
  | case1 leaves hleaves => rw [chunks, if_pos hleaves] at hi; simp at hi
  | case2 leaves hleaves ih =>
    have hne : leaves ≠ [] := fun hnil => hleaves (.inl hnil)
    rw [chunks_of_ne hm hne] at h hi ⊢
    obtain ⟨first, rest, hfirst, hrest, rfl⟩ := List.forall₂_cons_right_iff.mp h
    have hpos := List.length_pos_iff.mpr hne
    have hblock : first.length = min m leaves.length := by rw [hfirst.1, List.length_take]
    rw [List.flatten_cons]
    cases i with
    | zero =>
      rw [Nat.zero_mul, List.getElem?_append_left (by omega), hfirst.2]
      rfl
    | succ i =>
      have hmore : leaves.drop m ≠ [] := by
        intro hnil
        rw [hnil, chunks_nil] at hi
        simp at hi
      have hfull : m < leaves.length := by
        have := List.length_pos_iff.mpr hmore
        rw [List.length_drop] at this
        omega
      have hlength : first.length = m := by omega
      rw [List.getElem?_append_right (by rw [hlength]; exact Nat.le_mul_of_pos_left _ (by omega)),
        hlength, show (i + 1) * m - m = i * m by rw [Nat.add_mul, Nat.one_mul, Nat.add_sub_cancel],
        ih hrest i (by simpa using hi)]
      simp

theorem mapM_exists {ε β γ : Type} {f : β → Except ε γ} {R : γ → β → Prop} {blocks : List β}
    (h : ∀ block ∈ blocks, ∃ result, f block = .ok result ∧ R result block) :
    ∃ results, blocks.mapM f = .ok results ∧ List.Forall₂ R results blocks := by
  induction blocks with
  | nil => exact ⟨[], rfl, .nil⟩
  | cons block blocks ih =>
    obtain ⟨first, hfirst, hresult⟩ := h block (by simp)
    obtain ⟨rest, hrest, hall⟩ := ih fun other hother => h other (by simp [hother])
    refine ⟨first :: rest, ?_, .cons hresult hall⟩
    rw [List.mapM_cons, hfirst, ok_bind, hrest, ok_bind]
    rfl

theorem reduceBlocks_ok {leaf : Nat → F p → F p} {leaves slots : List (F p)} {m : Nat} (hm : 0 < m)
    (h : Writes leaf leaves) (hlength : slots.length = leaves.length) :
    ∃ blocks, reduceBlocks A leaf m slots = .ok blocks.flatten ∧
      List.Forall₂ (Reduced A) blocks (chunks m leaves) := by
  have hwritten := writeLeaves_chunks leaf hm 0 slots
  rw [Nat.zero_mul, h.writeLeaves hlength] at hwritten
  have hblock : ∀ block ∈ (chunks m slots).zipIdx, ∃ reduced,
      reduceStrided A (writeLeaves leaf (block.2 * m) block.1)
        (writeLeaves leaf (block.2 * m) block.1).length 1 =
        .ok reduced ∧ Reduced A reduced (writeLeaves leaf (block.2 * m) block.1) := by
    intro block hblock
    have hne := chunks_ne_nil (List.fst_mem_of_mem_zipIdx hblock)
    exact reduced_ok A (by simp [writeLeaves, hne])
  obtain ⟨blocks, hblocks, hall⟩ := mapM_exists hblock
  refine ⟨blocks, ?_, by rwa [← hwritten, List.forall₂_map_right_iff]⟩
  rw [reduceBlocks]
  simp only [hblocks, ok_bind]
  rfl

/-- The strided pass over reduced blocks ends in the root of all the leaves. -/
theorem reduceStrided_blocks {leaves : List (F p)} {blocks : List (List (F p))} (rest : List (F p))
    (hne : leaves ≠ []) (k : Nat) (h : List.Forall₂ (Reduced A) blocks (chunks (2 ^ k) leaves)) :
    ∃ later, reduceStrided A (blocks.flatten ++ rest) ((leaves.length + 2 ^ k - 1) / 2 ^ k)
    (2 ^ k) = .ok later ∧
      later[0]? = root A.add leaves := by
  have hm : 0 < 2 ^ k := by positivity
  have hroots := root_chunks A.add k leaves
  have hlength : ((level A.add)^[k] leaves).length = (leaves.length + 2 ^ k - 1) / 2 ^ k := by
    rw [← length_chunks hm, ← List.length_map some, ← hroots, List.length_map]
  have hlevels : (level A.add)^[k] leaves ≠ [] := by
    intro hnil
    have := root_iterate A.add k leaves
    rw [hnil, root_nil, root_eq A hne] at this
    cases this
  have hholds : Holds (blocks.flatten ++ rest) (2 ^ k) ((level A.add)^[k] leaves) := by
    intro i hi
    have hchunk : i < (chunks (2 ^ k) leaves).length := by rwa [length_chunks hm, ← hlength]
    have hroot := Reduced.holds A hm h i hchunk
    have hmap := congrArg (·[i]?) hroots
    simp only [List.getElem?_map] at hmap
    rw [List.getElem?_eq_getElem hchunk, List.getElem?_eq_getElem hi] at hmap
    simp only [Option.map_some, Option.some.injEq] at hmap
    rw [List.getElem?_eq_getElem hchunk, Option.bind_some, hmap] at hroot
    obtain ⟨hbound, -⟩ := List.getElem?_eq_some_iff.mp hroot
    rw [List.getElem?_append_left hbound, hroot, List.getElem?_eq_getElem hi]
  obtain ⟨later, hlater, -, hroot⟩ := reduceStrided_ok A hm hlevels hholds
  rw [hlength] at hlater
  exact ⟨later, hlater, hroot.trans (root_iterate A.add k leaves)⟩

/-! ## Values and magnitudes -/

theorem magnitudes_eq {values slots : List (F p)} (h : values.length = slots.length) :
    List.zipWith (fun value _ => A.abs (A.withVal p value)) values slots = values.map A.abs := by
  refine List.ext_getElem (by simp [h]) fun i _ _ => ?_
  simp [A.withVal_self]

theorem evaluate_ok {leaf : Nat → F p → F p} {start : Nat} {slots absoluteSlots : List (F p)}
    (hne : slots ≠ []) (hlength : slots.length = absoluteSlots.length) :
    ∃ reduced, evaluate A leaf start slots absoluteSlots = .ok reduced ∧
      Reduced A reduced.1 (writeLeaves leaf start slots) ∧
      Reduced A reduced.2 ((writeLeaves leaf start slots).map A.abs) := by
  have hwritten : writeLeaves leaf start slots ≠ [] := by simp [writeLeaves, hne]
  obtain ⟨values, hvalues, hreduced⟩ := reduced_ok A hwritten
  obtain ⟨absolute, habsolute, hmagnitudes⟩ :=
    @reduced_ok _ A p ((writeLeaves leaf start slots).map A.abs) (by simpa using hwritten)
  refine ⟨(values, absolute), ?_, hreduced, hmagnitudes⟩
  rw [evaluate]
  simp only [magnitudes_eq A (show (writeLeaves leaf start slots).length = absoluteSlots.length by
    simpa [writeLeaves] using hlength), hvalues, habsolute, ok_bind]
  rfl

theorem length_of_chunks {m : Nat} {xs ys : List (F p)} (h : xs.length = ys.length) :
    (chunks m xs).map List.length = (chunks m ys).map List.length := by
  have hunits : ∀ zs : List (F p), (chunks m zs).map List.length =
      (chunks m (List.replicate zs.length ())).map List.length := by
    intro zs
    rw [← List.map_const', map_chunks, List.map_map]
    exact List.map_congr_left fun chunk _ => by simp
  rw [hunits, hunits ys, h]

theorem evaluateBlocks_ok {leaf : Nat → F p → F p} {leaves slots absoluteSlots : List (F p)}
    {m : Nat} (hm : 0 < m) (h : Writes leaf leaves) (hlength : slots.length = leaves.length)
    (habsolute : slots.length = absoluteSlots.length) :
    ∃ blocks absoluteBlocks, evaluateBlocks A leaf m slots absoluteSlots = .ok (blocks.flatten,
      absoluteBlocks.flatten) ∧
      List.Forall₂ (Reduced A) blocks (chunks m leaves) ∧
      List.Forall₂ (Reduced A) absoluteBlocks (chunks m (leaves.map A.abs)) := by
  have hlengths := length_of_chunks (m := m) habsolute
  have hcount : (chunks m slots).length = (chunks m absoluteSlots).length := by
    simpa using congrArg List.length hlengths
  have hwritten : (((chunks m slots).zip (chunks m absoluteSlots)).zipIdx).map
      (fun block => writeLeaves leaf (block.2 * m) block.1.1) = chunks m leaves := by
    rw [← h.writeLeaves hlength, ← Nat.zero_mul m, ← writeLeaves_chunks leaf hm 0 slots]
    refine List.ext_getElem (by simp [hcount]) fun i _ _ => ?_
    simp
  have hblock : ∀ block ∈ ((chunks m slots).zip (chunks m absoluteSlots)).zipIdx, ∃ reduced,
      evaluate A leaf (block.2 * m) block.1.1 block.1.2 = .ok reduced ∧
      (Reduced A reduced.1 (writeLeaves leaf (block.2 * m) block.1.1) ∧
        Reduced A reduced.2 ((writeLeaves leaf (block.2 * m) block.1.1).map A.abs)) := by
    intro block hblock
    obtain ⟨i, hi, rfl⟩ := List.mem_iff_getElem.mp hblock
    have hi' : i < (chunks m slots).length := by
      simp only [List.length_zipIdx, List.length_zip] at hi
      omega
    have hsame := congrArg (·[i]?) hlengths
    simp only [List.getElem?_map, List.getElem?_eq_getElem hi',
      List.getElem?_eq_getElem (hcount ▸ hi'), Option.map_some, Option.some.injEq] at hsame
    simp only [List.getElem_zipIdx, List.getElem_zip]
    exact evaluate_ok A (chunks_ne_nil (List.getElem_mem hi')) hsame
  obtain ⟨reduced, hreduced, hall⟩ := mapM_exists hblock
  refine ⟨reduced.map Prod.fst, reduced.map Prod.snd, ?_, ?_, ?_⟩
  · rw [evaluateBlocks]
    simp only [hreduced, ok_bind]
    rfl
  · rw [← hwritten, List.forall₂_map_right_iff, List.forall₂_map_left_iff]
    exact hall.imp fun _ _ hboth => hboth.1
  · rw [map_chunks, ← hwritten, List.map_map, List.forall₂_map_right_iff, List.forall₂_map_left_iff]
    exact hall.imp fun _ _ hboth => hboth.2

/-! ## The routes -/

theorem length_resizeWith (values : List (F p)) (length : Nat) :
    (resizeWith A values length).length = max values.length length := by
  simp only [resizeWith, List.length_append, List.length_replicate]
  omega

theorem read_root {values leaves : List (F p)} (hne : leaves ≠ [])
    (h : values[0]? = root A.add leaves) :
    read values 0 = .ok (treeSum A leaves) := read_ok (h.trans (root_eq A hne))

theorem sumBy_eq (scratch : PairwiseScratch F p) {leaf : Nat → F p → F p} {leaves : List (F p)}
    (h : Writes leaf leaves) :
    ∃ later, scratch.sumBy A leaves.length leaf = .ok (treeSum A leaves, later) := by
  rw [PairwiseScratch.sumBy]
  by_cases hne : leaves = []
  · subst hne
    exact ⟨scratch, by simp [treeSum]⟩
  · rw [if_neg (by simpa using hne)]
    simp only
    generalize hresized : (if scratch.values.length < leaves.length then
      resizeWith A scratch.values leaves.length
      else scratch.values) = resized
    have hlength : (resized.take leaves.length).length = leaves.length := by
      rw [← hresized]
      split <;> simp only [List.length_take, length_resizeWith] <;> omega
    rw [h.writeLeaves hlength]
    have hholds : Holds (leaves ++ resized.drop leaves.length) 1 leaves := fun i hi => by
      rw [Nat.mul_one, List.getElem?_append_left hi]
    obtain ⟨values, hvalues, -, hroot⟩ := reduceStrided_ok A Nat.one_pos hne hholds
    rw [hvalues, ok_bind, read_root A hne hroot, ok_bind]
    exact ⟨_, rfl⟩

theorem sumByIndexed_eq (scratch : PairwiseScratch F p) (threads : Nat) {leaf : Nat → F p → F p}
    {leaves : List (F p)} (h : Writes leaf leaves) :
    ∃ later, scratch.sumByIndexed A threads leaves.length leaf = .ok (treeSum A leaves, later) := by
  rw [PairwiseScratch.sumByIndexed]
  split
  · exact sumBy_eq A scratch h
  · rename_i hlong
    have hne : leaves ≠ [] := by
      intro hnil
      rw [hnil] at hlong
      exact hlong (.inl (by simp))
    have hlength : ((resizeWith A scratch.values (max scratch.values.length leaves.length)).take
        leaves.length).length = leaves.length := by
      rw [List.length_take, length_resizeWith]
      omega
    obtain ⟨blocks, hblocks, hall⟩ := reduceBlocks_ok A (m := block) (by decide) h hlength
    obtain ⟨values, hvalues, hroot⟩ := reduceStrided_blocks A
      ((resizeWith A scratch.values (max scratch.values.length leaves.length)).drop leaves.length)
        hne 7 hall
    rw [show (2 : Nat) ^ 7 = block from rfl] at hvalues
    simp only [hblocks, ok_bind, hvalues, read_root A hne hroot]
    exact ⟨_, rfl⟩

theorem blocks_of_whole {blockSize length : Nat} (h : blockSize = length) (hpos : 0 < length) :
    (length + blockSize - 1) / blockSize = 1 := by
  subst h
  exact Nat.div_eq_of_lt_le (by omega) (by omega)

theorem sumByWithAbsolute_eq (scratch : PairwiseScratch F p) (threads : Nat) (parallel : Bool)
    {leaf : Nat → F p → F p} {leaves : List (F p)} (h : Writes leaf leaves) :
    ∃ later, scratch.sumByWithAbsolute A threads leaves.length parallel leaf =
      .ok ((treeSum A leaves, treeSum A (leaves.map A.abs)), later) := by
  rw [PairwiseScratch.sumByWithAbsolute]
  by_cases hne : leaves = []
  · subst hne
    exact ⟨scratch, by simp [treeSum]⟩
  · have hpos := List.length_pos_iff.mpr hne
    have hmagnitudes : leaves.map A.abs ≠ [] := by simpa using hne
    rw [if_neg (by omega)]
    simp only
    generalize hvalues : resizeWith A scratch.values (max scratch.values.length leaves.length) =
      values
    generalize habsolute : resizeWith A scratch.absoluteValues
      (max scratch.absoluteValues.length leaves.length) =
      absolute
    have hlength : (values.take leaves.length).length = leaves.length := by
      rw [← hvalues, List.length_take, length_resizeWith]
      omega
    have hsame : (values.take leaves.length).length = (absolute.take leaves.length).length := by
      rw [hlength, ← habsolute, List.length_take, length_resizeWith]
      omega
    generalize hsize : (if parallel = true ∧ leaves.length ≥ 512 ∧ threads > 1 then 128 else
      leaves.length) = blockSize
    by_cases hwhole : blockSize = leaves.length
    · rw [if_pos hwhole]
      have hslots : values.take leaves.length ≠ [] := List.length_pos_iff.mp (by omega)
      obtain ⟨reduced, hreduced, hfirst, hsecond⟩ := @evaluate_ok _ A p leaf 0 _ _ hslots hsame
      rw [h.writeLeaves hlength] at hfirst hsecond
      have hstill : ∀ slots : List (F p), reduceStrided A slots 1 blockSize = .ok slots := by
        intro slots
        rw [reduceStrided, if_neg (by omega)]
      have hroot := hfirst.2
      have habsoluteRoot := hsecond.2
      rw [← @List.getElem?_append_left _ _ (values.drop leaves.length) _
        (by rw [hfirst.1]; exact hpos)] at hroot
      rw [← @List.getElem?_append_left _ _ (absolute.drop leaves.length) _
        (by rw [hsecond.1]; simpa using hpos)] at habsoluteRoot
      rw [hreduced, ok_bind, blocks_of_whole hwhole hpos, hstill, ok_bind, hstill, ok_bind,
        read_root A hne hroot, ok_bind, read_root A hmagnitudes habsoluteRoot, ok_bind]
      exact ⟨_, rfl⟩
    · have hparallel : blockSize = 2 ^ 7 := by
        rw [← hsize] at hwhole ⊢
        split
        · rfl
        · rename_i hserial
          exact absurd (if_neg hserial) hwhole
      subst hparallel
      obtain ⟨blocks, absoluteBlocks, hreduced, hall, hallAbsolute⟩ :=
        evaluateBlocks_ok A (m := 2 ^ 7) (by positivity) h hlength hsame
      obtain ⟨later, hlater, hroot⟩ := reduceStrided_blocks A (values.drop leaves.length) hne 7 hall
      obtain ⟨absoluteLater, habsoluteLater, habsoluteRoot⟩ :=
        reduceStrided_blocks A (absolute.drop leaves.length) hmagnitudes 7 hallAbsolute
      rw [List.length_map] at habsoluteLater
      rw [if_neg hwhole, hreduced, ok_bind, hlater, ok_bind, habsoluteLater,
        ok_bind, read_root A hne hroot, ok_bind, read_root A hmagnitudes habsoluteRoot, ok_bind]
      exact ⟨_, rfl⟩

/-- **One tree.** Every route forms the same sums of the leaves, whatever the workers and the
leftovers of the scratch are, and no pass reads a slot after writing it. -/
theorem one_reduction_tree (values : List (Float F)) (leaf : Nat → F p → F p)
    (h : Writes leaf (leavesAt A p values)) (scratch : PairwiseScratch F p) (threads : Nat) :
    ∃ sum absoluteSum,
      (deterministicPairwiseSumHp A values p = .ok sum ∧
        deterministicPairwiseSumHpOwned A values p = .ok sum) ∧
      (deterministicPairwiseSumHp A ((leavesAt A p values).map fun x => ⟨p, A.abs x⟩) p =
        .ok absoluteSum ∧
        deterministicPairwiseSumHpOwned A ((leavesAt A p values).map fun x => ⟨p, A.abs x⟩) p =
          .ok absoluteSum) ∧
      (∃ later, scratch.sumBy A values.length leaf = .ok (sum, later)) ∧
      (∃ later, scratch.sumByIndexed A threads values.length leaf = .ok (sum, later)) ∧
      (∀ parallel, ∃ later,
        scratch.sumByWithAbsolute A threads values.length parallel leaf =
          .ok ((sum, absoluteSum), later)) ∧
      ∀ count stride, 0 < stride →
        (passUpdates count stride).Pairwise fun earlier later =>
        later.source ≠ earlier.destination := by
  have hlength : values.length = (leavesAt A p values).length := by simp [leavesAt]
  have hmagnitudes : leavesAt A p ((leavesAt A p values).map fun x => ⟨p, A.abs x⟩) =
      (leavesAt A p values).map A.abs := by
    rw [leavesAt, List.map_map]
    exact List.map_congr_left fun x _ => A.withVal_self p (A.abs x)
  rw [hlength]
  refine ⟨treeSum A (leavesAt A p values), treeSum A ((leavesAt A p values).map A.abs),
    ⟨deterministicPairwiseSumHp_eq A values, deterministicPairwiseSumHpOwned_eq A values⟩, ⟨?_, ?_⟩,
    sumBy_eq A scratch h, sumByIndexed_eq A scratch threads h,
    fun parallel => sumByWithAbsolute_eq A scratch threads parallel h, fun count stride hstride =>
      ?_⟩
  · rw [deterministicPairwiseSumHp_eq, hmagnitudes]
  · rw [deterministicPairwiseSumHpOwned_eq, hmagnitudes]
  · exact (passUpdates_fresh count stride hstride).imp fun hlt => hlt.ne'

end

/-! Integers under subtraction, which is neither associative nor commutative. -/

def sampleArithmetic : Arithmetic fun _ => Int where
  zero _ := 0
  withVal _ _ x := x
  add x y := x - y
  abs x := |x|
  withVal_self _ _ := rfl

def sampleLeaves : List (Float fun _ => Int) :=
  (List.range 700).map fun (i : Nat) => ⟨2, (i : Int) * i - 7⟩

/-- What an earlier call left behind. -/
def sampleScratch : PairwiseScratch (fun _ => Int) 2 := ⟨List.replicate 900 11, [4, 4]⟩

/-- Seven hundred leaves fill whole blocks and a part of one. -/
theorem one_reduction_tree_odd :
    ∃ sum absoluteSum,
      (deterministicPairwiseSumHp sampleArithmetic sampleLeaves 2 = .ok sum ∧
        (∃ later, sampleScratch.sumByIndexed sampleArithmetic 4 700 (fun i _ => (i : Int) * i - 7) =
          .ok (sum, later))) ∧
      ∃ later, sampleScratch.sumByWithAbsolute sampleArithmetic 4 700 true (fun i _ =>
        (i : Int) * i - 7) =
        .ok ((sum, absoluteSum), later) := by
  have hwrites : @Writes (fun _ => Int) 2 (fun i (_ : Int) => (i : Int) * i - 7)
      (leavesAt sampleArithmetic 2 sampleLeaves) := by
    intro i hi _
    simp only [leavesAt, sampleLeaves, List.getElem_map, List.getElem_range]
    rfl
  have hlength : sampleLeaves.length = 700 :=
    by rw [sampleLeaves, List.length_map, List.length_range]
  obtain ⟨sum, absoluteSum, hserial, -, -, hindexed, habsolute, -⟩ :=
    one_reduction_tree sampleArithmetic sampleLeaves _ hwrites sampleScratch 4
  rw [hlength] at hindexed habsolute
  exact ⟨sum, absoluteSum, ⟨hserial.1, hindexed⟩, habsolute true⟩

end Xcelerator.Numerics.PairwiseReduction
