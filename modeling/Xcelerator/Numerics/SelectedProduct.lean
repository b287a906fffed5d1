import Mathlib
import Xcelerator.Numerics.MpfrBallSoundness
import Xcelerator.Numerics.MpfrIdeal

/-! # Selected and full products of Schur-row endpoints

The two scratch multiplications of the symmetric kernel, over floats with signed
zeros: one rounds the corners that the signs select and takes the library's
minimum and maximum, the other goes over the distinct corners under `total_cmp`.
On finite ordered operands the endpoints of both are the directed roundings of
the extreme corner products, so they have equal values and succeed together. -/

namespace Xcelerator.Numerics.SelectedProduct
open Xcelerator.Foundations.BinaryRounding (Round)
open Xcelerator.Foundations.DirectedRounding
open Xcelerator.Numerics.Interval (IntervalError Result)
open Xcelerator.Numerics.MpfrFloat Xcelerator.Numerics.MpfrBall
  Xcelerator.Numerics.MpfrBallSoundness

structure ScratchInterval where
  lower : MpfrFloat
  upper : MpfrFloat

namespace ScratchInterval

def finiteOrdered (s : ScratchInterval) (message : String) : Result Unit :=
  if !s.lower.isFinite || !s.upper.isFinite || s.upper.lt s.lower then .error (.invalid message)
  else .ok ()

end ScratchInterval

/-- `min_mut`: a number beats NaN, and of two zeros the negative one stays. -/
def minMut (x y : MpfrFloat) : MpfrFloat :=
  match x.datum, y.datum with
  | .nan, _ => y
  | _, .nan => x
  | .zero negative, .zero _ => if negative then x else y
  | _, _ => if x.le y then x else y

/-- `max_mut`: a number beats NaN, and of two zeros the positive one stays. -/
def maxMut (x y : MpfrFloat) : MpfrFloat :=
  match x.datum, y.datum with
  | .nan, _ => y
  | _, .nan => x
  | .zero negative, .zero _ => if negative then y else x
  | _, _ => if x.le y then y else x

def nonnegative (x : MpfrFloat) : Bool := MpfrFloat.le (.ofInt x.precision 0) x

def nonpositive (x : MpfrFloat) : Bool := x.le (.ofInt x.precision 0)

/-- The corners of the lower and of the upper endpoint, unless both operands straddle zero. -/
def selectedCorners (al au bl bu : MpfrFloat) :
    Option ((MpfrFloat × MpfrFloat) × MpfrFloat × MpfrFloat) :=
  if nonnegative al then
    if nonnegative bl then some ((al, bl), au, bu)
    else if nonpositive bu then some ((au, bl), al, bu)
    else some ((au, bl), au, bu)
  else if nonpositive au then
    if nonnegative bl then some ((al, bu), au, bl)
    else if nonpositive bu then some ((au, bu), al, bl)
    else some ((al, bu), al, bl)
  else if nonnegative bl then some ((al, bu), au, bu)
  else if nonpositive bu then some ((au, bl), al, bl)
  else none

section
variable (m : Primitives)

/-- The endpoints that `selected_product` leaves in the buffers, of precision `p`. -/
def selectedEndpoints (p : Nat) (a b : ScratchInterval) : ScratchInterval :=
  match selectedCorners a.lower a.upper b.lower b.upper with
  | some ((ll, lr), ul, ur) => ⟨m.mul p .down ll lr, m.mul p .up ul ur⟩
  | none =>
    ⟨minMut (m.mul p .down a.lower b.upper) (m.mul p .down a.upper b.lower),
      maxMut (m.mul p .up a.lower b.lower) (m.mul p .up a.upper b.upper)⟩

def selectedProduct (p : Nat) (a b : ScratchInterval) : ScratchInterval × Result Unit :=
  let endpoints := selectedEndpoints m p a b
  (endpoints, endpoints.finiteOrdered "MPFR interval endpoints must be finite and ordered")

/-- The corners of one operand: one for a bitwise point, including zero sign. -/
def ScratchInterval.distinct (a : ScratchInterval) : List MpfrFloat :=
  if a.lower.eq a.upper && a.lower.isSignNegative == a.upper.isSignNegative then [a.lower]
  else [a.lower, a.upper]

/-- One corner of the loop, with the flag `first`. -/
def fullStep (p : Nat) (s : Bool × ScratchInterval) (corner : MpfrFloat × MpfrFloat) :
    Bool × ScratchInterval :=
  let down := m.mul p .down corner.1 corner.2
  let up := m.mul p .up corner.1 corner.2
  (false, ⟨if s.1 || down.totalLt s.2.lower then down else s.2.lower,
    if s.1 || s.2.upper.totalLt up then up else s.2.upper⟩)

/-- The endpoints that `full_product` leaves in buffers that held `previous`. -/
def fullEndpoints (p : Nat) (previous a b : ScratchInterval) : ScratchInterval :=
  ((MpfrInterval.cornerPairs a.distinct b.distinct).foldl (fullStep m p) (true, previous)).2

def fullProduct (p : Nat) (previous a b : ScratchInterval) : ScratchInterval × Result Unit :=
  let endpoints := fullEndpoints m p previous a b
  (endpoints, endpoints.finiteOrdered "invalid or unrepresentable MPFR interval")

end

/-! ## Minima and maxima of floats -/

theorem minMut_denotes {x y : MpfrFloat} {t u : EReal} (hx : x.Denotes t) (hy : y.Denotes u) :
    (minMut x y).Denotes (min t u) := by
  have hgeneral : (if x.le y then x else y).Denotes (min t u) := by
    split
    · rename_i hle
      rwa [min_eq_left ((le_iff hx hy).mp hle)]
    · rename_i hle
      rwa [min_eq_right (le_of_not_ge fun h => hle ((le_iff hx hy).mpr h))]
  unfold minMut
  split
  · rename_i hnan
    rw [MpfrFloat.Denotes, hnan] at hx
    exact hx.elim
  · rename_i hnan _
    rw [MpfrFloat.Denotes, hnan] at hy
    exact hy.elim
  · rename_i hzero hzero'
    have ht : t = 0 := by
      rw [MpfrFloat.Denotes, hzero] at hx
      exact hx
    have hu : u = 0 := by
      rw [MpfrFloat.Denotes, hzero'] at hy
      exact hy
    subst ht
    subst hu
    rw [min_self]
    split
    · exact hx
    · exact hy
  · exact hgeneral

theorem maxMut_denotes {x y : MpfrFloat} {t u : EReal} (hx : x.Denotes t) (hy : y.Denotes u) :
    (maxMut x y).Denotes (max t u) := by
  have hgeneral : (if x.le y then y else x).Denotes (max t u) := by
    split
    · rename_i hle
      rwa [max_eq_right ((le_iff hx hy).mp hle)]
    · rename_i hle
      rwa [max_eq_left (le_of_not_ge fun h => hle ((le_iff hx hy).mpr h))]
  unfold maxMut
  split
  · rename_i hnan
    rw [MpfrFloat.Denotes, hnan] at hx
    exact hx.elim
  · rename_i hnan _
    rw [MpfrFloat.Denotes, hnan] at hy
    exact hy.elim
  · rename_i hzero hzero'
    have ht : t = 0 := by
      rw [MpfrFloat.Denotes, hzero] at hx
      exact hx
    have hu : u = 0 := by
      rw [MpfrFloat.Denotes, hzero'] at hy
      exact hy
    subst ht
    subst hu
    rw [max_self]
    split
    · exact hy
    · exact hx
  · exact hgeneral

theorem nonnegative_iff {x : MpfrFloat} {a : ℚ} (h : x.finite? = some a) :
    nonnegative x = true ↔ 0 ≤ a := by
  rw [nonnegative, le_iff (denotes_of_finite (finite?_ofInt _ 0)) (denotes_of_finite h)]
  norm_cast

theorem nonpositive_iff {x : MpfrFloat} {a : ℚ} (h : x.finite? = some a) :
    nonpositive x = true ↔ a ≤ 0 := by
  rw [nonpositive, le_iff (denotes_of_finite h) (denotes_of_finite (finite?_ofInt _ 0))]
  norm_cast

/-! ## The full product -/

/-- After the first corner the loop keeps the least and the greatest product. -/
theorem foldl_fullStep (m : Primitives) (p : Nat) (s : ScratchInterval)
    (pairs : List (MpfrFloat × MpfrFloat)) :
    Least (s.lower :: pairs.map fun c => m.mul p .down c.1 c.2)
        (pairs.foldl (fullStep m p) (false, s)).2.lower ∧
      Greatest (s.upper :: pairs.map fun c => m.mul p .up c.1 c.2)
        (pairs.foldl (fullStep m p) (false, s)).2.upper := by
  induction pairs generalizing s with
  | nil => simp [Least, Greatest]
  | cons c pairs ih =>
    rw [List.foldl_cons]
    obtain ⟨hleast, hgreatest⟩ := ih (fullStep m p (false, s) c).2
    refine ⟨?_, ?_⟩
    · rw [List.map_cons]
      exact hleast.step
    · rw [List.map_cons]
      rcases hlt : s.upper.totalLt (m.mul p .up c.1 c.2) with _ | _
      · have hkept : (fullStep m p (false, s) c).2.upper = s.upper := by simp [fullStep, hlt]
        exact hgreatest.step (.inl hkept) (by rw [hkept])
          (by rw [hkept]; exact not_lt.mp (of_decide_eq_false hlt))
      · have hkept : (fullStep m p (false, s) c).2.upper = m.mul p .up c.1 c.2 := by
          simp [fullStep, hlt]
        exact hgreatest.step (.inr hkept) (by rw [hkept]; exact (of_decide_eq_true hlt).le)
          (by rw [hkept])

/-- The loop leaves the least and the greatest product over the distinct corners. -/
theorem fullEndpoints_extrema (m : Primitives) (p : Nat) (previous a b : ScratchInterval) :
    Least ((MpfrInterval.cornerPairs a.distinct b.distinct).map fun c => m.mul p .down c.1 c.2)
        (fullEndpoints m p previous a b).lower ∧
      Greatest ((MpfrInterval.cornerPairs a.distinct b.distinct).map fun c => m.mul p .up c.1 c.2)
        (fullEndpoints m p previous a b).upper := by
  have hne : ∀ s : ScratchInterval, ∃ x xs, s.distinct = x :: xs := by
    intro s
    unfold ScratchInterval.distinct
    split <;> exact ⟨_, _, rfl⟩
  obtain ⟨x, xs, hx⟩ := hne a
  obtain ⟨y, ys, hy⟩ := hne b
  obtain ⟨pairs, hpairs⟩ : ∃ pairs, MpfrInterval.cornerPairs (x :: xs) (y :: ys) =
      (x, y) :: pairs :=
    ⟨_, rfl⟩
  unfold fullEndpoints
  rw [hx, hy, hpairs, List.foldl_cons, List.map_cons, List.map_cons]
  exact foldl_fullStep m p ⟨m.mul p .down x y, m.mul p .up x y⟩ pairs

/-- The corners of an operand are its endpoints, and its values are theirs. -/
theorem mem_distinct {a : ScratchInterval} {l u : ℚ} (hl : a.lower.finite? = some l)
    (hu : a.upper.finite? = some u) :
    (∀ x ∈ a.distinct, x = a.lower ∨ x = a.upper) ∧ a.lower ∈ a.distinct ∧
      ∃ x ∈ a.distinct, x.finite? = some u := by
  unfold ScratchInterval.distinct
  split
  · rename_i hpoint
    rw [Bool.and_eq_true] at hpoint
    -- a point has one value
    have hlu : l = u := by
      obtain ⟨⟨p, d⟩, ⟨q, e⟩⟩ := a
      cases d <;> cases e <;>
        simp_all [MpfrFloat.eq, Datum.rank, MpfrFloat.finite?]
    refine ⟨by simp, by simp, a.lower, by simp, hlu ▸ hl⟩
  · exact ⟨by simp, by simp, a.upper, by simp, hu⟩

/-! ## Extreme corners -/

/-- The least of the four exact corner products. -/
def leastCorner (al au bl bu : ℚ) : ℚ := min (min (al * bl) (al * bu)) (min (au * bl) (au * bu))

def greatestCorner (al au bl bu : ℚ) : ℚ := max (max (al * bl) (al * bu)) (max (au * bl) (au * bu))

theorem leastCorner_eq {al au bl bu r : ℚ}
    (hmem : r = al * bl ∨ r = al * bu ∨ r = au * bl ∨ r = au * bu)
    (h : (r ≤ al * bl ∧ r ≤ al * bu) ∧ r ≤ au * bl ∧ r ≤ au * bu) :
    leastCorner al au bl bu = r := by
  refine le_antisymm ?_ (le_min (le_min h.1.1 h.1.2) (le_min h.2.1 h.2.2))
  unfold leastCorner
  rcases hmem with rfl | rfl | rfl | rfl <;> simp

theorem greatestCorner_eq {al au bl bu r : ℚ}
    (hmem : r = al * bl ∨ r = al * bu ∨ r = au * bl ∨ r = au * bu)
    (h : (al * bl ≤ r ∧ al * bu ≤ r) ∧ au * bl ≤ r ∧ au * bu ≤ r) :
    greatestCorner al au bl bu = r := by
  refine le_antisymm (max_le (max_le h.1.1 h.1.2) (max_le h.2.1 h.2.2)) ?_
  unfold greatestCorner
  rcases hmem with rfl | rfl | rfl | rfl <;> simp

/-- An operand with finite ordered endpoints. -/
structure Encloses (a : ScratchInterval) (l u : ℚ) : Prop where
  lower : a.lower.finite? = some l
  upper : a.upper.finite? = some u
  ordered : l ≤ u

section
variable {a b : ScratchInterval} {al au bl bu : ℚ}

/-- The signs select the corners of the extreme products. -/
theorem selectedCorners_extreme (ha : Encloses a al au) (hb : Encloses b bl bu)
    {ll lr ul ur : MpfrFloat}
    (h : selectedCorners a.lower a.upper b.lower b.upper = some ((ll, lr), ul, ur)) :
    (∃ x y, (ll.finite? = some x ∧ lr.finite? = some y) ∧ leastCorner al au bl bu = x * y) ∧
      ∃ x y, (ul.finite? = some x ∧ ur.finite? = some y) ∧ greatestCorner al au bl bu = x * y := by
  have hal := nonnegative_iff ha.lower
  have hau := nonpositive_iff ha.upper
  have hbl := nonnegative_iff hb.lower
  have hbu := nonpositive_iff hb.upper
  have hla := ha.ordered
  have hlb := hb.ordered
  unfold selectedCorners at h
  split_ifs at h with h1 h2 h3 h4 h5 h6 h7 h8 <;>
    simp only [Option.some.injEq, Prod.mk.injEq] at h <;>
    obtain ⟨⟨rfl, rfl⟩, rfl, rfl⟩ := h <;>
    simp only [hal, hau, hbl, hbu, not_le] at * <;>
    refine ⟨⟨_, _, ⟨by first | exact ha.lower | exact ha.upper,
        by first | exact hb.lower | exact hb.upper⟩, leastCorner_eq (by simp) ?_⟩,
      _, _, ⟨by first | exact ha.lower | exact ha.upper,
        by first | exact hb.lower | exact hb.upper⟩, greatestCorner_eq (by simp) ?_⟩ <;>
    refine ⟨⟨?_, ?_⟩, ?_, ?_⟩ <;> nlinarith

/-- Operands that both straddle zero attain the extrema at two corners each. -/
theorem straddling_extreme (ha : Encloses a al au) (hb : Encloses b bl bu)
    (h : selectedCorners a.lower a.upper b.lower b.upper = none) :
    leastCorner al au bl bu = min (al * bu) (au * bl) ∧
      greatestCorner al au bl bu = max (al * bl) (au * bu) := by
  have hsign : (al < 0 ∧ 0 < au) ∧ bl < 0 ∧ 0 < bu := by
    have hal := nonnegative_iff ha.lower
    have hau := nonpositive_iff ha.upper
    have hbl := nonnegative_iff hb.lower
    have hbu := nonpositive_iff hb.upper
    unfold selectedCorners at h
    split_ifs at h
    simp only [hal, hau, hbl, hbu, not_le] at *
    tauto
  obtain ⟨⟨hal, hau⟩, hbl, hbu⟩ := hsign
  have hll : 0 ≤ al * bl := (mul_pos_of_neg_of_neg hal hbl).le
  have huu : 0 ≤ au * bu := (mul_pos hau hbu).le
  have hlu : al * bu ≤ 0 := (mul_neg_of_neg_of_pos hal hbu).le
  have hul : au * bl ≤ 0 := (mul_neg_of_pos_of_neg hau hbl).le
  constructor
  · unfold leastCorner
    rw [min_eq_right (hlu.trans hll), min_eq_left (hul.trans huu)]
  · unfold greatestCorner
    rw [max_eq_left (hlu.trans hll), max_eq_right (hul.trans huu)]

/-- Every product of endpoints lies between the extreme corners. -/
theorem corner_between {x y : ℚ} (hx : x = al ∨ x = au) (hy : y = bl ∨ y = bu) :
    leastCorner al au bl bu ≤ x * y ∧ x * y ≤ greatestCorner al au bl bu := by
  unfold leastCorner greatestCorner
  rcases hx with rfl | rfl <;> rcases hy with rfl | rfl <;> simp

theorem extreme_corners (al au bl bu : ℚ) :
    (∃ x y, ((x = al ∨ x = au) ∧ (y = bl ∨ y = bu)) ∧ leastCorner al au bl bu = x * y) ∧
      ∃ x y, ((x = al ∨ x = au) ∧ (y = bl ∨ y = bu)) ∧ greatestCorner al au bl bu = x * y := by
  unfold leastCorner greatestCorner
  constructor
  · rcases min_choice (min (al * bl) (al * bu)) (min (au * bl) (au * bu)) with h | h <;> rw [h]
    · rcases min_choice (al * bl) (al * bu) with h | h <;> rw [h] <;> exact ⟨_, _, by simp, rfl⟩
    · rcases min_choice (au * bl) (au * bu) with h | h <;> rw [h] <;> exact ⟨_, _, by simp, rfl⟩
  · rcases max_choice (max (al * bl) (al * bu)) (max (au * bl) (au * bu)) with h | h <;> rw [h]
    · rcases max_choice (al * bl) (al * bu) with h | h <;> rw [h] <;> exact ⟨_, _, by simp, rfl⟩
    · rcases max_choice (au * bl) (au * bu) with h | h <;> rw [h] <;> exact ⟨_, _, by simp, rfl⟩

/-! ## Endpoints -/

variable {m : Primitives} {p : Nat}

/-- The endpoints of a product with directed rounding. -/
structure RoundsProduct (m : Primitives) (p : Nat) (al au bl bu : ℚ) (s : ScratchInterval) :
    Prop where
  lower : m.Rounds p .down (leastCorner al au bl bu : ℚ) s.lower
  upper : m.Rounds p .up (greatestCorner al au bl bu : ℚ) s.upper

/-- The minimum of two downward roundings rounds the minimum. -/
theorem rounds_minMut {x y : MpfrFloat} {r s : ℚ} (hx : m.Rounds p .down (r : ℝ) x)
    (hy : m.Rounds p .down (s : ℝ) y) : m.Rounds p .down ((min r s : ℚ) : ℝ) (minMut x y) := by
  obtain ⟨hpx, t, ht, hroundx⟩ := hx
  obtain ⟨hpy, u, hu, hroundy⟩ := hy
  refine ⟨?_, min t u, minMut_denotes ht hu, ?_⟩
  · unfold minMut
    split <;> first | assumption | (split <;> assumption)
  · rcases le_total r s with h | h
    · rw [min_eq_left h, min_eq_left (hroundx.mono hroundy (by exact_mod_cast h))]
      exact hroundx
    · rw [min_eq_right h, min_eq_right (hroundy.mono hroundx (by exact_mod_cast h))]
      exact hroundy

theorem rounds_maxMut {x y : MpfrFloat} {r s : ℚ} (hx : m.Rounds p .up (r : ℝ) x)
    (hy : m.Rounds p .up (s : ℝ) y) : m.Rounds p .up ((max r s : ℚ) : ℝ) (maxMut x y) := by
  obtain ⟨hpx, t, ht, hroundx⟩ := hx
  obtain ⟨hpy, u, hu, hroundy⟩ := hy
  refine ⟨?_, max t u, maxMut_denotes ht hu, ?_⟩
  · unfold maxMut
    split <;> first | assumption | (split <;> assumption)
  · rcases le_total r s with h | h
    · rw [max_eq_right h, max_eq_right (hroundx.mono hroundy (by exact_mod_cast h))]
      exact hroundy
    · rw [max_eq_left h, max_eq_left (hroundy.mono hroundx (by exact_mod_cast h))]
      exact hroundx

/-- The least of downward roundings rounds the least value. -/
theorem least_rounds {xs : List MpfrFloat} {v : MpfrFloat} {r : ℝ} (hv : Least xs v)
    (hmem : ∃ c ∈ xs, m.Rounds p .down r c) (hall : ∀ c ∈ xs, ∃ s, r ≤ s ∧ m.Rounds p .down s c) :
    m.Rounds p .down r v := by
  obtain ⟨c, hc, _, t, ht, hround⟩ := hmem
  obtain ⟨s, hrs, hp, u, hu, hroundv⟩ := hall v hv.1
  have htu : u = t := le_antisymm (le_of_totalRank hu ht (hv.2 c hc)) (hround.mono hroundv hrs)
  exact ⟨hp, u, hu, htu ▸ hround⟩

theorem greatest_rounds {xs : List MpfrFloat} {v : MpfrFloat} {r : ℝ} (hv : Greatest xs v)
    (hmem : ∃ c ∈ xs, m.Rounds p .up r c) (hall : ∀ c ∈ xs, ∃ s, s ≤ r ∧ m.Rounds p .up s c) :
    m.Rounds p .up r v := by
  obtain ⟨c, hc, _, t, ht, hround⟩ := hmem
  obtain ⟨s, hsr, hp, u, hu, hroundv⟩ := hall v hv.1
  have htu : u = t := le_antisymm (hroundv.mono hround hsr) (le_of_totalRank ht hu (hv.2 c hc))
  exact ⟨hp, u, hu, htu ▸ hround⟩

theorem selectedEndpoints_rounds (hm : m.Correct) (ha : Encloses a al au) (hb : Encloses b bl bu) :
    RoundsProduct m p al au bl bu (selectedEndpoints m p a b) := by
  unfold selectedEndpoints
  split
  · rename_i ll lr ul ur hselected
    obtain ⟨⟨x, y, hlow, hleast⟩, z, w, hup, hgreatest⟩ := selectedCorners_extreme ha hb hselected
    refine ⟨?_, ?_⟩
    · rw [hleast, Rat.cast_mul]
      exact hm.mul p .down hlow.1 hlow.2
    · rw [hgreatest, Rat.cast_mul]
      exact hm.mul p .up hup.1 hup.2
  · rename_i hnone
    obtain ⟨hleast, hgreatest⟩ := straddling_extreme ha hb hnone
    refine ⟨?_, ?_⟩
    · rw [hleast]
      exact rounds_minMut (by exact_mod_cast hm.mul p .down ha.lower hb.upper)
        (by exact_mod_cast hm.mul p .down ha.upper hb.lower)
    · rw [hgreatest]
      exact rounds_maxMut (by exact_mod_cast hm.mul p .up ha.lower hb.lower)
        (by exact_mod_cast hm.mul p .up ha.upper hb.upper)

/-- A distinct corner has the value of an endpoint, and both values occur. -/
theorem Encloses.distinct (ha : Encloses a al au) :
    (∀ x ∈ a.distinct, ∃ v, x.finite? = some v ∧ (v = al ∨ v = au)) ∧
      ∀ v, v = al ∨ v = au → ∃ x ∈ a.distinct, x.finite? = some v := by
  obtain ⟨hmem, hlower, x, hx, hxu⟩ := mem_distinct ha.lower ha.upper
  refine ⟨?_, ?_⟩
  · intro c hc
    rcases hmem c hc with rfl | rfl
    · exact ⟨al, ha.lower, .inl rfl⟩
    · exact ⟨au, ha.upper, .inr rfl⟩
  · intro v hv
    rcases hv with rfl | rfl
    · exact ⟨_, hlower, ha.lower⟩
    · exact ⟨x, hx, hxu⟩

theorem fullEndpoints_rounds (hm : m.Correct) (previous : ScratchInterval) (ha : Encloses a al au)
    (hb : Encloses b bl bu) : RoundsProduct m p al au bl bu (fullEndpoints m p previous a b) := by
  obtain ⟨hleast, hgreatest⟩ := fullEndpoints_extrema m p previous a b
  obtain ⟨hvalues, hattain⟩ := ha.distinct
  obtain ⟨hvalues', hattain'⟩ := hb.distinct
  obtain ⟨⟨x, y, ⟨hx, hy⟩, hlow⟩, z, w, ⟨hz, hw⟩, hup⟩ := extreme_corners al au bl bu
  refine ⟨least_rounds hleast ?_ ?_, greatest_rounds hgreatest ?_ ?_⟩
  · obtain ⟨c, hc, hcx⟩ := hattain x hx
    obtain ⟨d, hd, hdy⟩ := hattain' y hy
    rw [hlow, Rat.cast_mul]
    exact ⟨_, mem_products.mpr ⟨c, hc, d, hd, rfl⟩, hm.mul p .down hcx hdy⟩
  · intro e he
    obtain ⟨c, hc, d, hd, rfl⟩ := mem_products.mp he
    obtain ⟨v, hv, hvmem⟩ := hvalues c hc
    obtain ⟨v', hv', hvmem'⟩ := hvalues' d hd
    exact ⟨_, by exact_mod_cast (corner_between hvmem hvmem').1, hm.mul p .down hv hv'⟩
  · obtain ⟨c, hc, hcz⟩ := hattain z hz
    obtain ⟨d, hd, hdw⟩ := hattain' w hw
    rw [hup, Rat.cast_mul]
    exact ⟨_, mem_products.mpr ⟨c, hc, d, hd, rfl⟩, hm.mul p .up hcz hdw⟩
  · intro e he
    obtain ⟨c, hc, d, hd, rfl⟩ := mem_products.mp he
    obtain ⟨v, hv, hvmem⟩ := hvalues c hc
    obtain ⟨v', hv', hvmem'⟩ := hvalues' d hd
    exact ⟨_, by exact_mod_cast (corner_between hvmem hvmem').2, hm.mul p .up hv hv'⟩

end

/-! ## Agreement -/

/-- Floats of one precision and one value, which may differ in the sign of a zero. -/
def SameValue (x y : MpfrFloat) : Prop :=
  x.precision = y.precision ∧ ∃ t, x.Denotes t ∧ y.Denotes t

theorem SameValue.isFinite {x y : MpfrFloat} (h : SameValue x y) : x.isFinite = y.isFinite := by
  obtain ⟨_, t, hx, hy⟩ := h
  obtain ⟨p, d⟩ := x
  obtain ⟨q, e⟩ := y
  cases d <;> cases e <;>
    simp_all [MpfrFloat.Denotes, MpfrFloat.isFinite, MpfrFloat.finite?] <;> split at hy <;>
    simp_all

theorem SameValue.lt {x y z w : MpfrFloat} (h : SameValue x y) (h' : SameValue z w) :
    x.lt z = y.lt w := by
  obtain ⟨_, t, hx, hy⟩ := h
  obtain ⟨_, u, hz, hw⟩ := h'
  rw [Bool.eq_iff_iff, lt_iff hx hz, lt_iff hy hw]

/-- Equal values pass or fail the final test together. -/
theorem finiteOrdered_congr {s t : ScratchInterval} (hl : SameValue s.lower t.lower)
    (hu : SameValue s.upper t.upper) (message message' : String) :
    s.finiteOrdered message = .ok () ↔ t.finiteOrdered message' = .ok () := by
  unfold ScratchInterval.finiteOrdered
  rw [hl.isFinite, hu.isFinite, hu.lt hl]
  split <;> simp

theorem sameValue_of_rounds_down {m : Primitives} {p : Nat} {r : ℝ} {x y : MpfrFloat}
    (hx : m.Rounds p .down r x) (hy : m.Rounds p .down r y) : SameValue x y := by
  obtain ⟨hp, t, ht, hround⟩ := hx
  obtain ⟨hq, u, hu, hround'⟩ := hy
  exact ⟨hp.trans hq.symm, t, ht, hround.unique hround' ▸ hu⟩

theorem sameValue_of_rounds_up {m : Primitives} {p : Nat} {r : ℝ} {x y : MpfrFloat}
    (hx : m.Rounds p .up r x) (hy : m.Rounds p .up r y) : SameValue x y := by
  obtain ⟨hp, t, ht, hround⟩ := hx
  obtain ⟨hq, u, hu, hround'⟩ := hy
  exact ⟨hp.trans hq.symm, t, ht, hround.unique hround' ▸ hu⟩

/-- Finite endpoints in order, the operands both products are called on. -/
def FiniteInterval (a : ScratchInterval) : Prop :=
  (a.lower.isFinite = true ∧ a.upper.isFinite = true) ∧ a.upper.lt a.lower = false

instance (a : ScratchInterval) : Decidable (FiniteInterval a) := inferInstanceAs (Decidable (_ ∧ _))

theorem FiniteInterval.encloses {a : ScratchInterval} (h : FiniteInterval a) :
    ∃ l u, Encloses a l u := by
  obtain ⟨⟨hl, hu⟩, hlt⟩ := h
  obtain ⟨l, hl⟩ := isFinite_iff.mp hl
  obtain ⟨u, hu⟩ := isFinite_iff.mp hu
  refine ⟨l, u, hl, hu, ?_⟩
  by_contra hle
  have htrue := (lt_iff (denotes_of_finite hu) (denotes_of_finite hl)).mpr
    (EReal.coe_lt_coe_iff.mpr (by exact_mod_cast not_le.mp hle))
  rw [htrue] at hlt
  cases hlt

/-- The selected corners and all four give the same endpoints, the roundings of the
extreme products, and the same success. -/
theorem selectedProduct_agrees {m : Primitives} (hm : m.Correct) (p : Nat)
    (previous : ScratchInterval) {a b : ScratchInterval} (ha : FiniteInterval a)
    (hb : FiniteInterval b) :
    (SameValue (selectedProduct m p a b).1.lower (fullProduct m p previous a b).1.lower ∧
        SameValue (selectedProduct m p a b).1.upper (fullProduct m p previous a b).1.upper) ∧
      ((selectedProduct m p a b).2 = .ok () ↔ (fullProduct m p previous a b).2 = .ok ()) ∧
      ∃ al au bl bu, (Encloses a al au ∧ Encloses b bl bu) ∧
        RoundsProduct m p al au bl bu (selectedProduct m p a b).1 := by
  obtain ⟨al, au, ha⟩ := ha.encloses
  obtain ⟨bl, bu, hb⟩ := hb.encloses
  have hselected := selectedEndpoints_rounds (p := p) hm ha hb
  have hfull := fullEndpoints_rounds (p := p) hm previous ha hb
  have hlower := sameValue_of_rounds_down hselected.lower hfull.lower
  have hupper := sameValue_of_rounds_up hselected.upper hfull.upper
  exact ⟨⟨hlower, hupper⟩, finiteOrdered_congr hlower hupper _ _, al, au, bl, bu,
    ⟨ha, hb⟩, hselected⟩

/-- An operand that touches zero against one that straddles it, in the ideal library. -/
theorem selectedProduct_agrees_touching :
    FiniteInterval ⟨.ofInt 53 (-2), .ofInt 53 0⟩ ∧ FiniteInterval ⟨.ofInt 53 (-1), .ofInt 53 3⟩ ∧
      (SameValue
          (selectedProduct (MpfrIdeal.ideal (-100) 100) 53 ⟨.ofInt 53 (-2), .ofInt 53 0⟩
            ⟨.ofInt 53 (-1), .ofInt 53 3⟩).1.lower
          (fullProduct (MpfrIdeal.ideal (-100) 100) 53 ⟨.ofInt 53 0, .ofInt 53 0⟩
            ⟨.ofInt 53 (-2), .ofInt 53 0⟩ ⟨.ofInt 53 (-1), .ofInt 53 3⟩).1.lower) := by
  have ha : FiniteInterval ⟨.ofInt 53 (-2), .ofInt 53 0⟩ := by decide
  have hb : FiniteInterval ⟨.ofInt 53 (-1), .ofInt 53 3⟩ := by decide
  exact ⟨ha, hb, (selectedProduct_agrees (MpfrIdeal.ideal_correct (-100) 100) 53
    ⟨.ofInt 53 0, .ofInt 53 0⟩ ha hb).1.1⟩

end Xcelerator.Numerics.SelectedProduct
