import Mathlib

/-! # The adjacent-pair tree

Combining neighbours level by level, an odd last element carried up as it is.
The operation is arbitrary, so the shape of the tree is all that is used: the
tree of a list is the tree of the roots of its blocks, for blocks of any power
of two and a shorter last one. -/

namespace Xcelerator.Foundations.PairwiseTree

variable {α : Type} (op : α → α → α)

def level : List α → List α
  | x :: y :: rest => op x y :: level rest
  | xs => xs

theorem length_level (xs : List α) : (level op xs).length = (xs.length + 1) / 2 := by
  induction xs using level.induct with
  | case1 x y rest ih => simp only [level, List.length_cons, ih]; omega
  | case2 xs h =>
    match xs, h with
    | [], _ => simp [level]
    | [x], _ => simp [level]
    | x :: y :: rest, h => exact absurd rfl (h x y rest)

theorem level_short {xs : List α} (h : xs.length ≤ 1) : level op xs = xs := by
  match xs, h with
  | [], _ => rfl
  | [x], _ => rfl
  | x :: y :: rest, h => simp at h

/-- What one level holds, by position. -/
theorem getElem?_level (xs : List α) (i : Nat) :
    (level op xs)[i]? = match xs[2 * i]?, xs[2 * i + 1]? with
      | some x, some y => some (op x y)
      | x, _ => x := by
  induction xs using level.induct generalizing i with
  | case1 x y rest ih =>
    cases i with
    | zero => rfl
    | succ i =>
      have heven : 2 * (i + 1) = 2 * i + 2 := by ring
      simp only [level, List.getElem?_cons_succ, ih i, heven]
  | case2 xs h =>
    match xs, h with
    | [], _ => simp [level]
    | [x], _ =>
      cases i with
      | zero => simp [level]
      | succ i => simp [level, Nat.mul_add]
    | x :: y :: rest, h => exact absurd rfl (h x y rest)

theorem level_append {xs : List α} (ys : List α) (h : xs.length % 2 = 0) :
    level op (xs ++ ys) = level op xs ++ level op ys := by
  induction xs using level.induct with
  | case1 x y rest ih =>
    have hrest : rest.length % 2 = 0 := by simp only [List.length_cons] at h; omega
    simp only [List.cons_append, level, ih hrest]
  | case2 xs hx =>
    match xs, hx, h with
    | [], _, _ => rfl
    | [x], _, h => simp at h
    | x :: y :: rest, hx, _ => exact absurd rfl (hx x y rest)

/-- The root of the tree; an empty list has none. -/
def root (xs : List α) : Option α := if 1 < xs.length then root (level op xs) else xs.head?
termination_by xs.length
decreasing_by rw [length_level]; omega

theorem root_of_long {xs : List α} (h : 1 < xs.length) : root op xs = root op (level op xs) := by
  rw [root, if_pos h]

@[simp] theorem root_nil : root op ([] : List α) = none := by rw [root]; rfl

@[simp] theorem root_singleton (x : α) : root op [x] = some x := by rw [root]; rfl

theorem root_level (xs : List α) : root op (level op xs) = root op xs := by
  rcases Nat.lt_or_ge 1 xs.length with h | h
  · exact (root_of_long op h).symm
  · rw [level_short op h]

theorem root_isSome {xs : List α} (h : xs ≠ []) : (root op xs).isSome := by
  induction xs using root.induct op with
  | case1 xs hlong ih =>
    rw [root_of_long op hlong]
    refine ih fun hnil => ?_
    have hlength := length_level op xs
    rw [hnil, List.length_nil] at hlength
    omega
  | case2 xs hshort =>
    rw [root, if_neg hshort]
    cases xs with
    | nil => exact absurd rfl h
    | cons x xs => rfl

/-! ## Blocks -/

/-- Blocks of `m` elements, the last one possibly shorter. -/
def chunks (m : Nat) (xs : List α) : List (List α) :=
  if xs = [] ∨ m = 0 then [] else xs.take m :: chunks m (xs.drop m)
termination_by xs.length
decreasing_by
  rename_i h
  have := List.length_pos_iff.mpr fun hnil => h (.inl hnil)
  rw [List.length_drop]
  omega

@[simp] theorem chunks_nil (m : Nat) : chunks m ([] : List α) = [] := by rw [chunks]; simp

theorem chunks_of_ne {m : Nat} {xs : List α} (hm : 0 < m) (h : xs ≠ []) :
    chunks m xs = xs.take m :: chunks m (xs.drop m) := by
  rw [chunks, if_neg (by simp [h]; omega)]

theorem flatten_chunks {m : Nat} (hm : 0 < m) (xs : List α) : (chunks m xs).flatten = xs := by
  induction xs using chunks.induct m with
  | case1 xs h =>
    obtain rfl | rfl := h
    · simp
    · omega
  | case2 xs h ih =>
    rw [chunks_of_ne hm fun hnil => h (.inl hnil), List.flatten_cons, ih, List.take_append_drop]

theorem chunks_ne_nil {m : Nat} {xs chunk : List α} (h : chunk ∈ chunks m xs) : chunk ≠ [] := by
  induction xs using chunks.induct m with
  | case1 xs hx => rw [chunks, if_pos hx] at h; cases h
  | case2 xs hx ih =>
    have hm : 0 < m := Nat.pos_of_ne_zero fun h0 => hx (.inr h0)
    have hne : xs ≠ [] := fun hnil => hx (.inl hnil)
    rw [chunks_of_ne hm hne] at h
    rcases List.mem_cons.mp h with rfl | h
    · simp [hne]; omega
    · exact ih h

theorem length_chunks {m : Nat} (hm : 0 < m) (xs : List α) :
    (chunks m xs).length = (xs.length + m - 1) / m := by
  induction xs using chunks.induct m with
  | case1 xs h =>
    obtain rfl | rfl := h
    · simp only [chunks_nil, List.length_nil]; exact (Nat.div_eq_of_lt (by omega)).symm
    · omega
  | case2 xs h ih =>
    have hne : xs ≠ [] := fun hnil => h (.inl hnil)
    have hpos := List.length_pos_iff.mpr hne
    rw [chunks_of_ne hm hne, List.length_cons, ih, List.length_drop]
    rcases Nat.lt_or_ge xs.length m with hlt | hge
    · have hone : (xs.length + m - 1) / m = 1 := Nat.div_eq_of_lt_le (by omega) (by omega)
      rw [Nat.div_eq_of_lt (by omega), hone]
    · rw [show xs.length + m - 1 = xs.length - m + m - 1 + m by omega, Nat.add_div_right _ hm]

theorem map_chunks {β : Type} (f : α → β) (m : Nat) (xs : List α) :
    chunks m (xs.map f) = (chunks m xs).map (List.map f) := by
  induction xs using chunks.induct m with
  | case1 xs h => rw [chunks, if_pos (by simpa using h), chunks, if_pos h]; rfl
  | case2 xs h ih =>
    rw [chunks, if_neg (by simpa using h), chunks.eq_1 m xs, if_neg h, List.map_cons, List.map_take,
      ← ih, List.map_drop]

theorem mapIdx_append_offset {β : Type} (f : Nat → α → β) (start : Nat) (xs ys : List α) :
    ((xs ++ ys).mapIdx fun i x => f (start + i) x) =
      (xs.mapIdx fun i x => f (start + i) x) ++ ys.mapIdx fun i y =>
      f (start + xs.length + i) y := by
  rw [List.mapIdx_append]
  simp only [Nat.add_comm, Nat.add_left_comm]

/-- A map that knows positions, block by block. -/
theorem mapIdx_chunks {β : Type} (f : Nat → α → β) {m : Nat} (hm : 0 < m) (k : Nat) (xs : List α) :
    ((chunks m xs).zipIdx k).map (fun block => block.1.mapIdx fun i x => f (block.2 * m + i) x) =
      chunks m (xs.mapIdx fun i x => f (k * m + i) x) := by
  induction xs using chunks.induct m generalizing k with
  | case1 xs h =>
    obtain rfl | rfl := h
    · simp
    · omega
  | case2 xs h ih =>
    have hne : xs ≠ [] := fun hnil => h (.inl hnil)
    have hmapped : (xs.mapIdx fun i x => f (k * m + i) x) ≠ [] := by simp [hne]
    have htake : (xs.mapIdx fun i x => f (k * m + i) x).take m = (xs.take m).mapIdx fun i x =>
      f (k * m + i) x := by
      refine List.ext_getElem? fun i => ?_
      simp only [List.getElem?_take, List.getElem?_mapIdx]
      split <;> rfl
    have hdrop : (xs.mapIdx fun i x => f (k * m + i) x).drop m =
        (xs.drop m).mapIdx fun i x => f ((k + 1) * m + i) x := by
      rcases Nat.lt_or_ge xs.length m with hlt | hge
      · rw [List.drop_of_length_le (by simp; omega), List.drop_of_length_le (by omega)]
        rfl
      · have hlength : (xs.take m).length = m := by rw [List.length_take]; omega
        have hwhole := mapIdx_append_offset f (k * m) (xs.take m) (xs.drop m)
        rw [List.take_append_drop, hlength] at hwhole
        rw [hwhole, List.drop_append_of_le_length (by simp; omega),
          List.drop_of_length_le (by simp), List.nil_append, Nat.add_mul, Nat.one_mul]
    rw [chunks_of_ne hm hne, chunks_of_ne hm hmapped, List.zipIdx_cons, List.map_cons, ih,
      htake, hdrop]

theorem chunks_level {m : Nat} (hm : 0 < m) (xs : List α) :
    chunks m (level op xs) = (chunks (2 * m) xs).map (level op) := by
  induction xs using chunks.induct (2 * m) with
  | case1 xs h =>
    obtain rfl | h := h
    · simp [level]
    · omega
  | case2 xs h ih =>
    have hne : xs ≠ [] := fun hnil => h (.inl hnil)
    have hpos := List.length_pos_iff.mpr hne
    have hlevel : level op xs ≠ [] := by
      intro hnil
      have hlength := length_level op xs
      rw [hnil, List.length_nil] at hlength
      omega
    rw [chunks_of_ne (by omega) hne, List.map_cons, ← ih, chunks_of_ne hm hlevel]
    rcases Nat.lt_or_ge xs.length (2 * m) with hlt | hge
    · have hshort : (level op xs).length ≤ m := by rw [length_level]; omega
      have htake : xs.take (2 * m) = xs := List.take_of_length_le (by omega)
      have hdrop : xs.drop (2 * m) = [] := List.drop_of_length_le (by omega)
      rw [List.take_of_length_le hshort, List.drop_of_length_le hshort, htake, hdrop]
      simp [level]
    · have htake : (xs.take (2 * m)).length = 2 * m := by rw [List.length_take]; omega
      have hsplit : level op xs = level op (xs.take (2 * m)) ++ level op (xs.drop (2 * m)) := by
        rw [← level_append op _ (by rw [htake]; omega), List.take_append_drop]
      have hhalf : (level op (xs.take (2 * m))).length = m := by rw [length_level, htake]; omega
      rw [hsplit, List.take_append_of_le_length (by omega), List.take_of_length_le (by omega),
        List.drop_append_of_le_length (by omega), List.drop_of_length_le (by omega),
        List.nil_append]

/-- **Blocks.** The tree over a list is the tree over the roots of its blocks of `2 ^ k`
elements. -/
theorem root_chunks (k : Nat) (xs : List α) :
    (chunks (2 ^ k) xs).map (root op) = ((level op)^[k] xs).map some := by
  induction k generalizing xs with
  | zero =>
    rw [pow_zero, Function.iterate_zero_apply]
    induction xs with
    | nil => simp
    | cons x xs ih =>
      rw [chunks_of_ne (by omega) (by simp), List.map_cons, List.map_cons]
      exact congrArg₂ _ (root_singleton op x) ih
  | succ k ih =>
    rw [Function.iterate_succ_apply, ← ih, chunks_level op (by positivity), List.map_map,
      pow_succ, mul_comm]
    exact List.map_congr_left fun chunk _ => (root_level op chunk).symm

theorem root_iterate (k : Nat) (xs : List α) : root op ((level op)^[k] xs) = root op xs := by
  induction k generalizing xs with
  | zero => rfl
  | succ k ih => rw [Function.iterate_succ_apply, ih, root_level]

end Xcelerator.Foundations.PairwiseTree
