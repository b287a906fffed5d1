import Mathlib

/-! # Turning angles of polygons

The angle a closed polygon turns around the origin is a whole number of turns,
and that number is the signed number of its crossings of the positive real
axis. Along a segment on which a polynomial keeps its values in a convex set
without the origin, the turn of the value is the sum of the turns of the linear
factors; around a rectangle a factor turns once when its root is inside and not
at all when it is outside. -/

namespace Xcelerator.Foundations.Winding
open Complex Polynomial
open scoped Real

/-- The angle from one nonzero number to another. -/
noncomputable def turn (w w' : ℂ) : ℝ := arg (w' / w)

/-- The chord between two numbers avoids the origin. -/
def Clear (w w' : ℂ) : Prop := (0 : ℂ) ∉ segment ℝ w w'

/-- Two representatives of an angle less than a full turn apart are equal. -/
theorem eq_of_angle {x y : ℝ} (h : (x : Real.Angle) = y) (hlt : x - y < 2 * π)
    (hgt : -(2 * π) < x - y) : x = y := by
  obtain ⟨k, hk⟩ := Real.Angle.angle_eq_iff_two_pi_dvd_sub.mp h
  have hpi : 0 < 2 * π := Real.two_pi_pos
  have h1 : (k : ℝ) < 1 := by nlinarith
  have h2 : (-1 : ℝ) < k := by nlinarith
  have hk0 : k = 0 := by
    have h1' : k < 1 := by exact_mod_cast h1
    have h2' : -1 < k := by exact_mod_cast h2
    omega
  rw [hk0, Int.cast_zero, mul_zero] at hk
  linarith

theorem turn_coe {w w' : ℂ} (hw : w ≠ 0) (hw' : w' ≠ 0) :
    (turn w w' : Real.Angle) = arg w' - arg w := arg_div_coe_angle hw' hw

theorem turn_self {w : ℂ} (hw : w ≠ 0) : turn w w = 0 := by
  rw [turn, div_self hw, arg_one]

theorem Clear.left_ne {w w' : ℂ} (h : Clear w w') : w ≠ 0 :=
  fun h0 => h (h0 ▸ left_mem_segment ℝ w w')

theorem Clear.right_ne {w w' : ℂ} (h : Clear w w') : w' ≠ 0 :=
  fun h0 => h (h0 ▸ right_mem_segment ℝ w w')

/-- The ends of a clear chord are not opposite. -/
theorem Clear.slitPlane {w w' : ℂ} (h : Clear w w') : w' / w ∈ slitPlane := by
  rw [mem_slitPlane_iff]
  by_contra hneg
  rw [not_or, not_lt, not_not] at hneg
  have hw := h.left_ne
  set c : ℝ := -(w' / w).re with hc
  have hc0 : 0 ≤ c := neg_nonneg.mpr hneg.1
  have hquot : w' / w = -(c : ℂ) := by
    apply Complex.ext
    · simp [hc]
    · simp [hneg.2]
  have hw' : w' = -(c : ℂ) * w := by rw [← hquot, div_mul_cancel₀ _ hw]
  -- the origin divides the chord in the ratio of the lengths
  have hpos : 0 < 1 + c := by linarith
  refine h ⟨c / (1 + c), 1 / (1 + c), by positivity, by positivity, by field_simp; ring, ?_⟩
  rw [hw', Complex.real_smul, Complex.real_smul]
  push_cast
  field_simp
  ring

theorem Clear.turn_bounds {w w' : ℂ} (h : Clear w w') : -π < turn w w' ∧ turn w w' < π := by
  refine ⟨neg_pi_lt_arg _, arg_lt_pi_iff.mpr ?_⟩
  exact (mem_slitPlane_iff.mp h.slitPlane).imp_left le_of_lt

/-- A continuous multiple of a full turn that starts at zero stays there. -/
theorem angle_lift {h : unitInterval → ℝ} (hc : Continuous h)
    (hz : ∀ t, (h t : Real.Angle) = 0) (h0 : h 0 = 0) : h 1 = 0 := by
  have hmaps : Set.MapsTo h Set.univ (AddSubgroup.zmultiples (2 * π) : Set ℝ) := by
    intro t _
    obtain ⟨n, hn⟩ := Real.Angle.coe_eq_zero_iff.mp (hz t)
    exact ⟨n, hn⟩
  have hdiscrete : IsDiscrete (AddSubgroup.zmultiples (2 * π) : Set ℝ) :=
    isDiscrete_iff_discreteTopology.mpr
      (inferInstanceAs (DiscreteTopology (AddSubgroup.zmultiples (2 * π))))
  rw [← h0]
  exact isPreconnected_univ.constant_of_mapsTo hdiscrete hc.continuousOn hmaps (Set.mem_univ 1)
    (Set.mem_univ 0)

/-- The point of the segment at a parameter. -/
noncomputable def along (a b : ℂ) (t : unitInterval) : ℂ := a + (t : ℝ) * (b - a)

theorem along_mem (a b : ℂ) (t : unitInterval) : along a b t ∈ segment ℝ a b := by
  refine ⟨1 - t, t, by linarith [t.2.2], t.2.1, by ring, ?_⟩
  rw [along, Complex.real_smul, Complex.real_smul]
  push_cast
  ring

theorem along_zero (a b : ℂ) : along a b 0 = a := by simp [along]

theorem along_one (a b : ℂ) : along a b 1 = b := by simp [along]

theorem continuous_along (a b : ℂ) : Continuous (along a b) := by
  unfold along
  fun_prop

theorem continuous_turn {w : ℂ} {f : unitInterval → ℂ} (hf : Continuous f)
    (hclear : ∀ t, Clear w (f t)) : Continuous fun t => turn w (f t) := by
  refine continuous_iff_continuousAt.mpr fun t => ?_
  have hdiv : ContinuousAt (fun t => f t / w) t := (hf.div_const w).continuousAt
  exact ContinuousAt.comp (f := fun t => f t / w) (continuousAt_arg (hclear t).slitPlane) hdiv

/-- Turns add up along a chord that avoids the origin. -/
theorem turn_add {a m b : ℂ} (h : Clear a b) (hm : m ∈ segment ℝ a b) :
    turn a m + turn m b = turn a b := by
  have hsub : ∀ t, along m b t ∈ segment ℝ a b := fun t =>
    (convex_segment a b).segment_subset hm (right_mem_segment ℝ a b) (along_mem m b t)
  have hclear : ∀ {x y}, x ∈ segment ℝ a b → y ∈ segment ℝ a b → Clear x y := fun hx hy h0 =>
    h ((convex_segment a b).segment_subset hx hy h0)
  have ha := left_mem_segment ℝ a b
  let f : unitInterval → ℝ := fun t => turn a m + turn m (along m b t) - turn a (along m b t)
  have hzero := angle_lift (h := f) ?_ (fun t => ?_) ?_
  · simp only [f, along_one] at hzero
    linarith
  · exact (continuous_const.add (continuous_turn (continuous_along m b) fun t =>
      hclear hm (hsub t))).sub (continuous_turn (continuous_along m b) fun t => hclear ha (hsub t))
  · have hne := (hclear hm (hsub t)).right_ne
    simp only [f, Real.Angle.coe_sub, Real.Angle.coe_add]
    rw [turn_coe h.left_ne (hclear ha hm).right_ne, turn_coe (hclear ha hm).right_ne hne,
      turn_coe h.left_ne hne]
    abel
  · simp only [f, along_zero]
    rw [turn_self (hclear ha hm).right_ne]
    ring

/-! ## Polynomials along a segment -/

theorem clear_sub {a b z r : ℂ} (hr : r ∉ segment ℝ a b) (hz : z ∈ segment ℝ a b) :
    Clear (a - r) (z - r) := by
  rintro ⟨s, t, hs, ht, hst, h0⟩
  refine hr ((convex_segment a b).segment_subset (left_mem_segment ℝ a b) hz
    ⟨s, t, hs, ht, hst, ?_⟩)
  simp only [Complex.real_smul] at h0 ⊢
  have hst' : (s : ℂ) + t = 1 := by exact_mod_cast hst
  linear_combination h0 + r * hst'

theorem arg_prod_coe {ι : Type} (s : Multiset ι) {g : ι → ℂ} (hg : ∀ i ∈ s, g i ≠ 0) :
    (arg (s.map g).prod : Real.Angle) = ((s.map fun i => arg (g i)).sum : ℝ) := by
  induction s using Multiset.induction with
  | empty => simp
  | cons i s ih =>
    have hs : ∀ j ∈ s, g j ≠ 0 := fun j hj => hg j (Multiset.mem_cons_of_mem hj)
    have hprod : (s.map g).prod ≠ 0 := by
      rw [Ne, Multiset.prod_eq_zero_iff, Multiset.mem_map]
      rintro ⟨j, hj, h0⟩
      exact hs j hj h0
    rw [Multiset.map_cons, Multiset.prod_cons, Multiset.map_cons, Multiset.sum_cons,
      arg_mul_coe_angle (hg i (Multiset.mem_cons_self i s)) hprod, ih hs, Real.Angle.coe_add]

/-- The turn of the value is the sum of the turns of the linear factors. -/
theorem turn_eval {p : ℂ[X]} {a b : ℂ}
    (hclear : ∀ z ∈ segment ℝ a b, Clear (p.eval a) (p.eval z)) :
    turn (p.eval a) (p.eval b) = (p.roots.map fun r => turn (a - r) (b - r)).sum := by
  have hroot : ∀ r ∈ p.roots, r ∉ segment ℝ a b := by
    intro r hr hmem
    exact (hclear r hmem).right_ne (isRoot_of_mem_roots hr)
  have hfactor : ∀ z, p.eval z / p.eval a = (p.roots.map fun r => (z - r) / (a - r)).prod *
      (p.leadingCoeff / p.leadingCoeff) := by
    intro z
    rw [(IsAlgClosed.splits p).eval_eq_prod_roots z, (IsAlgClosed.splits p).eval_eq_prod_roots a,
      Multiset.prod_map_div, mul_div_mul_comm, mul_comm]
  have hlead : p.leadingCoeff / p.leadingCoeff = 1 := by
    refine div_self (leadingCoeff_ne_zero.mpr fun h0 => ?_)
    have hne := (hclear a (left_mem_segment ℝ a b)).left_ne
    rw [h0, eval_zero] at hne
    exact hne rfl
  simp only [hlead, mul_one] at hfactor
  let f : unitInterval → ℝ := fun t => turn (p.eval a) (p.eval (along a b t)) -
    (p.roots.map fun r => turn (a - r) (along a b t - r)).sum
  have hzero := angle_lift (h := f) ?_ (fun t => ?_) ?_
  · simp only [f, along_one] at hzero
    linarith
  · refine Continuous.sub ?_ (continuous_multiset_sum p.roots fun r hr => ?_)
    · exact continuous_turn (p.continuous.comp (continuous_along a b)) fun t =>
        hclear _ (along_mem a b t)
    · exact continuous_turn ((continuous_along a b).sub continuous_const) fun t =>
        clear_sub (hroot r hr) (along_mem a b t)
  · have hne : ∀ r ∈ p.roots, (along a b t - r) / (a - r) ≠ 0 := fun r hr =>
      slitPlane_ne_zero (clear_sub (hroot r hr) (along_mem a b t)).slitPlane
    have hsum := arg_prod_coe p.roots hne
    rw [← hfactor] at hsum
    simp only [f, Real.Angle.coe_sub, turn]
    rw [hsum, sub_self]
  · simp only [f, along_zero]
    rw [turn_self (hclear a (left_mem_segment ℝ a b)).left_ne, zero_sub, neg_eq_zero]
    refine Multiset.sum_eq_zero fun x hx => ?_
    obtain ⟨r, hr, rfl⟩ := Multiset.mem_map.mp hx
    exact turn_self (clear_sub (hroot r hr) (left_mem_segment ℝ a b)).left_ne

/-! ## Polygons -/

/-- The total turn along the polygon from a vertex through a list of vertices. -/
noncomputable def turning : ℂ → List ℂ → ℝ
  | _, [] => 0
  | w, w' :: rest => turn w w' + turning w' rest

theorem turning_append {w m : ℂ} {l r : List ℂ} (h : (w :: l).getLastD 0 = m) :
    turning w (l ++ r) = turning w l + turning m r := by
  induction l generalizing w with
  | nil =>
    rw [List.nil_append, turning, zero_add]
    exact congrArg (turning · r) h
  | cons w' l ih =>
    rw [List.cons_append, turning, turning, ih h, add_assoc]

/-- A signed crossing of the positive real axis by a chord. -/
noncomputable def crossing (w w' : ℂ) : ℤ :=
  if w.im ≤ 0 ∧ 0 < w'.im ∧ 0 < w.re * w'.im - w'.re * w.im then 1
  else if 0 < w.im ∧ w'.im ≤ 0 ∧ w.re * w'.im - w'.re * w.im < 0 then -1
  else 0

noncomputable def crossings : ℂ → List ℂ → ℤ
  | _, [] => 0
  | w, w' :: rest => crossing w w' + crossings w' rest

theorem im_div (w w' : ℂ) : (w' / w).im = (w.re * w'.im - w'.re * w.im) / normSq w := by
  rw [div_im]
  ring

theorem turn_nonneg_iff {w : ℂ} (hw : w ≠ 0) (w' : ℂ) :
    0 ≤ turn w w' ↔ 0 ≤ w.re * w'.im - w'.re * w.im := by
  rw [turn, arg_nonneg_iff, im_div, le_div_iff₀ (normSq_pos.mpr hw), zero_mul]

theorem turn_pos_iff {w w' : ℂ} (h : Clear w w') :
    0 < turn w w' ↔ 0 < w.re * w'.im - w'.re * w.im := by
  have hnorm := normSq_pos.mpr h.left_ne
  have hzero : turn w w' = 0 ↔ w.re * w'.im - w'.re * w.im = 0 := by
    have him : (w' / w).im = 0 ↔ w.re * w'.im - w'.re * w.im = 0 := by
      rw [im_div, div_eq_zero_iff, or_iff_left hnorm.ne']
    rw [turn, arg_eq_zero_iff, him]
    refine ⟨And.right, fun h0 => ⟨?_, h0⟩⟩
    exact ((mem_slitPlane_iff.mp h.slitPlane).resolve_right fun hne => hne (him.mpr h0)).le
  rw [lt_iff_le_and_ne, lt_iff_le_and_ne, turn_nonneg_iff h.left_ne w', ne_comm,
    ne_comm (a := (0 : ℝ)), Ne, Ne, hzero]

/-- A clear chord turns by the change of a branch of the argument, corrected by its crossing. -/
theorem turn_eq_crossing {w w' : ℂ} (h : Clear w w') :
    turn w w' = arg (-w') - arg (-w) + 2 * π * crossing w w' := by
  obtain ⟨hlow, hhigh⟩ := h.turn_bounds
  have hsign := turn_nonneg_iff h.left_ne w'
  have hpos := turn_pos_iff h
  have hu := neg_pi_lt_arg (-w)
  have hu' := neg_pi_lt_arg (-w')
  have hv := arg_le_pi (-w)
  have hv' := arg_le_pi (-w')
  have hup : 0 ≤ arg (-w) ↔ w.im ≤ 0 := by rw [arg_nonneg_iff, neg_im, neg_nonneg]
  have hup' : 0 ≤ arg (-w') ↔ w'.im ≤ 0 := by rw [arg_nonneg_iff, neg_im, neg_nonneg]
  have hangle : (turn w w' : Real.Angle) =
      ((arg (-w') - arg (-w) + 2 * π * crossing w w' : ℝ) : Real.Angle) := by
    rw [turn, ← neg_div_neg_eq, arg_div_coe_angle (neg_ne_zero.mpr h.right_ne)
      (neg_ne_zero.mpr h.left_ne), Real.Angle.coe_add, Real.Angle.coe_sub]
    have hfull : ((2 * π * crossing w w' : ℝ) : Real.Angle) = 0 :=
      Real.Angle.coe_eq_zero_iff.mpr ⟨crossing w w', by rw [zsmul_eq_mul]; ring⟩
    rw [hfull, add_zero]
  -- the two sides of the axis bound the branch, the sign of the cross product the turn
  have hbound : -(2 * π) < turn w w' - (arg (-w') - arg (-w) + 2 * π * crossing w w') ∧
      turn w w' - (arg (-w') - arg (-w) + 2 * π * crossing w w') < 2 * π := by
    rcases le_or_gt w.im 0 with hi | hi
    · have hw := hup.mpr hi
      rcases le_or_gt w'.im 0 with hi' | hi'
      · have hw' := hup'.mpr hi'
        have hc : crossing w w' = 0 := by simp [crossing, hi.not_gt, hi'.not_gt]
        rw [hc, Int.cast_zero, mul_zero]
        constructor <;> linarith
      · have hw' : arg (-w') < 0 := not_le.mp fun h0 => hi'.not_ge (hup'.mp h0)
        rcases le_or_gt (w.re * w'.im - w'.re * w.im) 0 with hx | hx
        · have hc : crossing w w' = 0 := by simp [crossing, hx.not_gt, hi.not_gt]
          have hT : turn w w' ≤ 0 := not_lt.mp fun h0 => hx.not_gt (hpos.mp h0)
          rw [hc, Int.cast_zero, mul_zero]
          constructor <;> linarith
        · have hc : crossing w w' = 1 := if_pos ⟨hi, hi', hx⟩
          have hT := hpos.mpr hx
          rw [hc, Int.cast_one, mul_one]
          constructor <;> linarith
    · have hw : arg (-w) < 0 := not_le.mp fun h0 => hi.not_ge (hup.mp h0)
      rcases le_or_gt w'.im 0 with hi' | hi'
      · have hw' := hup'.mpr hi'
        rcases lt_or_ge (w.re * w'.im - w'.re * w.im) 0 with hx | hx
        · have hc : crossing w w' = -1 := by simp [crossing, hi.not_ge, hi, hi', hx]
          have hT : turn w w' < 0 := not_le.mp fun h0 => hx.not_ge (hsign.mp h0)
          rw [hc, Int.cast_neg, Int.cast_one]
          constructor <;> linarith
        · have hc : crossing w w' = 0 := by simp [crossing, hi.not_ge, hx.not_gt]
          have hT := hsign.mpr hx
          rw [hc, Int.cast_zero, mul_zero]
          constructor <;> linarith
      · have hw' : arg (-w') < 0 := not_le.mp fun h0 => hi'.not_ge (hup'.mp h0)
        have hc : crossing w w' = 0 := by simp [crossing, hi.not_ge, hi'.not_ge]
        rw [hc, Int.cast_zero, mul_zero]
        constructor <;> linarith
  exact eq_of_angle hangle hbound.2 hbound.1

/-- A closed polygon of clear chords turns once for every signed crossing. -/
theorem turning_eq_crossings {w : ℂ} {l : List ℂ} (h : (w :: l).IsChain Clear) :
    turning w l = arg (-(w :: l).getLastD 0) - arg (-w) + 2 * π * crossings w l := by
  induction l generalizing w with
  | nil => simp [turning, crossings]
  | cons w' l ih =>
    rw [List.isChain_cons_cons] at h
    have hlast : (w :: w' :: l).getLastD 0 = (w' :: l).getLastD 0 := rfl
    rw [turning, crossings, ih h.2, turn_eq_crossing h.1, hlast]
    push_cast
    ring

/-! ## Rectangles -/

/-- The turn around the corners of a rectangle, seen from a point. -/
noncomputable def rectangleTurn (xl xu yl yu : ℝ) (r : ℂ) : ℝ :=
  turn (⟨xl, yl⟩ - r) (⟨xu, yl⟩ - r) + turn (⟨xu, yl⟩ - r) (⟨xu, yu⟩ - r) +
    turn (⟨xu, yu⟩ - r) (⟨xl, yu⟩ - r) + turn (⟨xl, yu⟩ - r) (⟨xl, yl⟩ - r)

def Inside (xl xu yl yu : ℝ) (r : ℂ) : Prop := xl < r.re ∧ r.re < xu ∧ yl < r.im ∧ r.im < yu

def Outside (xl xu yl yu : ℝ) (r : ℂ) : Prop := r.re < xl ∨ xu < r.re ∨ r.im < yl ∨ yu < r.im

theorem turn_pos_of_cross (w w' : ℂ) (h : 0 < w.re * w'.im - w'.re * w.im) :
    0 < turn w w' ∧ turn w w' < π := by
  have hw : w ≠ 0 := fun h0 => by simp [h0] at h
  have him : 0 < (w' / w).im := by
    rw [im_div]
    exact div_pos h (normSq_pos.mpr hw)
  refine ⟨lt_of_le_of_ne (arg_nonneg_iff.mpr him.le) fun h0 => ?_, arg_lt_pi_iff.mpr (.inr him.ne')⟩
  exact him.ne' (arg_eq_zero_iff.mp h0.symm).2

theorem rectangleTurn_inside {xl xu yl yu : ℝ} {r : ℂ} (h : Inside xl xu yl yu r) :
    rectangleTurn xl xu yl yu r = 2 * π := by
  obtain ⟨h1, h2, h3, h4⟩ := h
  have hx : 0 < xu - xl := by linarith
  have hy : 0 < yu - yl := by linarith
  have t1 := turn_pos_of_cross (⟨xl, yl⟩ - r) (⟨xu, yl⟩ - r) (by
    simp only [sub_re, sub_im]
    nlinarith [mul_pos hx (sub_pos.mpr h3)])
  have t2 := turn_pos_of_cross (⟨xu, yl⟩ - r) (⟨xu, yu⟩ - r) (by
    simp only [sub_re, sub_im]
    nlinarith [mul_pos hy (sub_pos.mpr h2)])
  have t3 := turn_pos_of_cross (⟨xu, yu⟩ - r) (⟨xl, yu⟩ - r) (by
    simp only [sub_re, sub_im]
    nlinarith [mul_pos hx (sub_pos.mpr h4)])
  have t4 := turn_pos_of_cross (⟨xl, yu⟩ - r) (⟨xl, yl⟩ - r) (by
    simp only [sub_re, sub_im]
    nlinarith [mul_pos hy (sub_pos.mpr h1)])
  have hne : ∀ x y, x ≠ r.re → (⟨x, y⟩ : ℂ) - r ≠ 0 := fun x y hx h0 =>
    hx (by simpa [sub_eq_zero] using congrArg Complex.re h0)
  have hangle : (rectangleTurn xl xu yl yu r : Real.Angle) = ((2 * π : ℝ) : Real.Angle) := by
    unfold rectangleTurn
    rw [Real.Angle.coe_two_pi]
    simp only [Real.Angle.coe_add]
    rw [turn_coe (hne _ _ h1.ne) (hne _ _ h2.ne'), turn_coe (hne _ _ h2.ne') (hne _ _ h2.ne'),
      turn_coe (hne _ _ h2.ne') (hne _ _ h1.ne), turn_coe (hne _ _ h1.ne) (hne _ _ h1.ne)]
    abel
  refine eq_of_angle hangle ?_ ?_ <;> unfold rectangleTurn <;> linarith

/-- In a half plane the turn is the change of one branch of the argument. -/
theorem turn_of_halfPlane {u w w' : ℂ} (hw : 0 < (u * w).re) (hw' : 0 < (u * w').re) :
    turn w w' = arg (u * w') - arg (u * w) := by
  have hu : u ≠ 0 := fun h0 => by simp [h0] at hw
  have hne : u * w ≠ 0 := fun h0 => by simp [h0] at hw
  have hne' : u * w' ≠ 0 := fun h0 => by simp [h0] at hw'
  have hb := abs_lt.mp (abs_arg_lt_pi_div_two_iff.mpr (.inl hw))
  have hb' := abs_lt.mp (abs_arg_lt_pi_div_two_iff.mpr (.inl hw'))
  have hsame : turn w w' = turn (u * w) (u * w') := by
    rw [turn, turn, mul_div_mul_left _ _ hu]
  have hangle : (turn w w' : Real.Angle) = ((arg (u * w') - arg (u * w) : ℝ) : Real.Angle) := by
    rw [hsame, turn_coe hne hne', Real.Angle.coe_sub]
  have hlow := neg_pi_lt_arg (w' / w)
  have hhigh := arg_le_pi (w' / w)
  have hpi := Real.pi_pos
  refine eq_of_angle hangle ?_ ?_ <;> unfold turn <;> linarith

theorem rectangleTurn_outside {xl xu yl yu : ℝ} {r : ℂ} (hx : xl < xu) (hy : yl < yu)
    (h : Outside xl xu yl yu r) : rectangleTurn xl xu yl yu r = 0 := by
  -- the side of the rectangle the point lies beyond gives the direction
  obtain ⟨u, h1, h2, h3, h4⟩ : ∃ u : ℂ, 0 < (u * (⟨xl, yl⟩ - r)).re ∧ 0 < (u * (⟨xu, yl⟩ - r)).re ∧
      0 < (u * (⟨xu, yu⟩ - r)).re ∧ 0 < (u * (⟨xl, yu⟩ - r)).re := by
    rcases h with h | h | h | h
    · exact ⟨1, by simp; linarith, by simp; linarith, by simp; linarith, by simp; linarith⟩
    · exact ⟨-1, by simp; linarith, by simp; linarith, by simp; linarith, by simp; linarith⟩
    · exact ⟨-I, by simp; linarith, by simp; linarith, by simp; linarith, by simp; linarith⟩
    · exact ⟨I, by simp; linarith, by simp; linarith, by simp; linarith, by simp; linarith⟩
  unfold rectangleTurn
  rw [turn_of_halfPlane h1 h2, turn_of_halfPlane h2 h3, turn_of_halfPlane h3 h4,
    turn_of_halfPlane h4 h1]
  ring

end Xcelerator.Foundations.Winding
