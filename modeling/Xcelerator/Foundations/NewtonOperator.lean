import Mathlib

/-! # The Newton operator on an interval

A differentiable function whose derivative has one sign on an interval, and the values
`c - f c / f' ξ` that the interval Newton operator encloses from a point `c` of it. A root
is one of these values; where all of them are inside the interval, there is a root. -/

namespace Xcelerator.Foundations.NewtonOperator
open Set

variable {f f' : ℝ → ℝ} {a b c : ℝ}

/-- The derivative has one sign on the interval. -/
def OneSign (f' : ℝ → ℝ) (a b : ℝ) : Prop := (∀ ξ ∈ Icc a b, 0 < f' ξ) ∨ ∀ ξ ∈ Icc a b, f' ξ < 0

theorem OneSign.ne_zero (h : OneSign f' a b) {ξ : ℝ} (hξ : ξ ∈ Icc a b) : f' ξ ≠ 0 := by
  rcases h with h | h
  · exact (h ξ hξ).ne'
  · exact (h ξ hξ).ne

theorem exists_slope (hf : ∀ x ∈ Icc a b, HasDerivAt f (f' x) x) {x y : ℝ} (hx : x ∈ Icc a b)
    (hy : y ∈ Icc a b) :
    ∃ ξ ∈ Icc a b, f x - f y = f' ξ * (x - y) := by
  rcases lt_trichotomy x y with hlt | rfl | hlt
  · have hinside : ∀ z ∈ Icc x y, HasDerivAt f (f' z) z :=
      fun z hz => hf z ⟨hx.1.trans hz.1, hz.2.trans hy.2⟩
    obtain ⟨ξ, hξ, hslope⟩ := exists_hasDerivAt_eq_slope f f' hlt
      (fun z hz => (hinside z hz).continuousAt.continuousWithinAt) fun z hz =>
        hinside z (Ioo_subset_Icc_self hz)
    refine ⟨ξ, ⟨hx.1.trans hξ.1.le, hξ.2.le.trans hy.2⟩, ?_⟩
    rw [hslope]
    field_simp [sub_ne_zero.mpr hlt.ne']
    ring
  · exact ⟨x, hx, by ring⟩
  · have hinside : ∀ z ∈ Icc y x, HasDerivAt f (f' z) z :=
      fun z hz => hf z ⟨hy.1.trans hz.1, hz.2.trans hx.2⟩
    obtain ⟨ξ, hξ, hslope⟩ := exists_hasDerivAt_eq_slope f f' hlt
      (fun z hz => (hinside z hz).continuousAt.continuousWithinAt) fun z hz =>
        hinside z (Ioo_subset_Icc_self hz)
    refine ⟨ξ, ⟨hy.1.trans hξ.1.le, hξ.2.le.trans hx.2⟩, ?_⟩
    rw [hslope]
    field_simp [sub_ne_zero.mpr hlt.ne']

/-- From any point of the interval the operator reaches every root. -/
theorem root_mem_image (hf : ∀ x ∈ Icc a b, HasDerivAt f (f' x) x) (hsign : OneSign f' a b)
    (hc : c ∈ Icc a b) {x : ℝ}
    (hx : x ∈ Icc a b) (hroot : f x = 0) : ∃ ξ ∈ Icc a b, x = c - f c / f' ξ := by
  obtain ⟨ξ, hξ, hslope⟩ := exists_slope hf hc hx
  refine ⟨ξ, hξ, ?_⟩
  rw [hroot, sub_zero] at hslope
  rw [hslope, mul_div_cancel_left₀ _ (hsign.ne_zero hξ)]
  ring

theorem root_unique (hf : ∀ x ∈ Icc a b, HasDerivAt f (f' x) x) (hsign : OneSign f' a b) {x y : ℝ}
    (hx : x ∈ Icc a b) (hy : y ∈ Icc a b) (hrootx : f x = 0) (hrooty : f y = 0) : x = y := by
  obtain ⟨ξ, hξ, hslope⟩ := exists_slope hf hx hy
  rw [hrootx, hrooty, sub_zero, eq_comm, mul_eq_zero] at hslope
  exact sub_eq_zero.mp (hslope.resolve_left (hsign.ne_zero hξ))

/-- The operator at the end `x` of the interval, seen from the point `c`. -/
theorem exists_image_eq (hf : ∀ x ∈ Icc a b, HasDerivAt f (f' x) x) (hsign : OneSign f' a b)
    (hc : c ∈ Icc a b) {x : ℝ}
    (hx : x ∈ Icc a b) : ∃ ξ ∈ Icc a b, c - f c / f' ξ = x - f x / f' ξ := by
  obtain ⟨ξ, hξ, hslope⟩ := exists_slope hf hc hx
  refine ⟨ξ, hξ, ?_⟩
  have hne := hsign.ne_zero hξ
  rw [sub_eq_iff_eq_add.mp hslope]
  field_simp
  ring

theorem exists_root_of_image_subset (hf : ∀ x ∈ Icc a b, HasDerivAt f (f' x) x)
    (hsign : OneSign f' a b) (hab : a ≤ b)
    (hc : c ∈ Icc a b) (himage : ∀ ξ ∈ Icc a b, c - f c / f' ξ ∈ Ioo a b) :
    ∃ x ∈ Icc a b, f x = 0 := by
  obtain ⟨ξ, hξ, hleft⟩ := exists_image_eq hf hsign hc (left_mem_Icc.mpr hab)
  obtain ⟨ζ, hζ, hright⟩ := exists_image_eq hf hsign hc (right_mem_Icc.mpr hab)
  have hbelow : f a / f' ξ < 0 := by
    have hinside := (himage ξ hξ).1
    rw [hleft] at hinside
    linarith
  have habove : 0 < f b / f' ζ := by
    have hinside := (himage ζ hζ).2
    rw [hright] at hinside
    linarith
  have hcontinuous : ContinuousOn f (Icc a b) :=
    fun z hz => (hf z hz).continuousAt.continuousWithinAt
  rcases hsign with hpos | hneg
  · have ha : f a ≤ 0 := by
      by_contra hlt
      exact absurd (div_pos (not_le.mp hlt) (hpos ξ hξ)) (not_lt.mpr hbelow.le)
    have hb : 0 ≤ f b := by
      by_contra hlt
      exact absurd (div_neg_of_neg_of_pos (not_le.mp hlt) (hpos ζ hζ)) (not_lt.mpr habove.le)
    exact intermediate_value_Icc hab hcontinuous ⟨ha, hb⟩
  · have ha : 0 ≤ f a := by
      by_contra hlt
      exact absurd (div_pos_of_neg_of_neg (not_le.mp hlt) (hneg ξ hξ)) (not_lt.mpr hbelow.le)
    have hb : f b ≤ 0 := by
      by_contra hlt
      exact absurd (div_neg_of_pos_of_neg (not_le.mp hlt) (hneg ζ hζ)) (not_lt.mpr habove.le)
    exact intermediate_value_Icc' hab hcontinuous ⟨hb, ha⟩

end Xcelerator.Foundations.NewtonOperator
