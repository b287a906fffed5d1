import Mathlib

/-! # Directed rounding to a set of values

Correct rounding of a real number to the values of a number format: the greatest
value below or the least value above, and an infinity where the format has
none. Both exist for a finite set of values and are unique; the value after an
inexact downward rounding is the upward rounding. -/

namespace Xcelerator.Foundations.DirectedRounding

variable {F : Set ℝ} {x : ℝ}

def RoundsDown (F : Set ℝ) (x : ℝ) (r : EReal) : Prop :=
  (∃ v ∈ F, r = v ∧ v ≤ x ∧ ∀ w ∈ F, w ≤ x → w ≤ v) ∨ (r = ⊥ ∧ ∀ w ∈ F, x < w)

def RoundsUp (F : Set ℝ) (x : ℝ) (r : EReal) : Prop :=
  (∃ v ∈ F, r = v ∧ x ≤ v ∧ ∀ w ∈ F, x ≤ w → v ≤ w) ∨ (r = ⊤ ∧ ∀ w ∈ F, w < x)

/-- The value after `v`. -/
def Succeeds (F : Set ℝ) (v : ℝ) (r : EReal) : Prop :=
  (∃ w ∈ F, r = w ∧ v < w ∧ ∀ u ∈ F, v < u → w ≤ u) ∨ (r = ⊤ ∧ ∀ u ∈ F, u ≤ v)

theorem RoundsDown.le {r : EReal} (h : RoundsDown F x r) : r ≤ x := by
  rcases h with ⟨v, _, rfl, hv, _⟩ | ⟨rfl, _⟩
  · exact EReal.coe_le_coe_iff.mpr hv
  · exact bot_le

theorem RoundsUp.le {r : EReal} (h : RoundsUp F x r) : (x : EReal) ≤ r := by
  rcases h with ⟨v, _, rfl, hv, _⟩ | ⟨rfl, _⟩
  · exact EReal.coe_le_coe_iff.mpr hv
  · exact le_top

theorem RoundsDown.mem {v : ℝ} (h : RoundsDown F x v) :
    v ∈ F ∧ v ≤ x ∧ ∀ w ∈ F, w ≤ x → w ≤ v := by
  rcases h with ⟨w, hw, hvw, hle, hmax⟩ | ⟨hbot, _⟩
  · cases EReal.coe_injective hvw
    exact ⟨hw, hle, hmax⟩
  · exact absurd hbot (EReal.coe_ne_bot v)

theorem RoundsUp.mem {v : ℝ} (h : RoundsUp F x v) : v ∈ F ∧ x ≤ v ∧ ∀ w ∈ F, x ≤ w → v ≤ w := by
  rcases h with ⟨w, hw, hvw, hle, hmin⟩ | ⟨htop, _⟩
  · cases EReal.coe_injective hvw
    exact ⟨hw, hle, hmin⟩
  · exact absurd htop (EReal.coe_ne_top v)

theorem RoundsDown.unique {r r' : EReal} (h : RoundsDown F x r) (h' : RoundsDown F x r') :
    r = r' := by
  rcases h with ⟨v, hv, rfl, hvx, hmax⟩ | ⟨rfl, hnone⟩
  · rcases h' with ⟨w, hw, rfl, hwx, hmax'⟩ | ⟨rfl, hnone'⟩
    · exact congrArg _ (le_antisymm (hmax' v hv hvx) (hmax w hw hwx))
    · exact absurd hvx (not_le.mpr (hnone' v hv))
  · rcases h' with ⟨w, hw, rfl, hwx, _⟩ | ⟨rfl, _⟩
    · exact absurd hwx (not_le.mpr (hnone w hw))
    · rfl

theorem RoundsUp.unique {r r' : EReal} (h : RoundsUp F x r) (h' : RoundsUp F x r') : r = r' := by
  rcases h with ⟨v, hv, rfl, hxv, hmin⟩ | ⟨rfl, hnone⟩
  · rcases h' with ⟨w, hw, rfl, hxw, hmin'⟩ | ⟨rfl, hnone'⟩
    · exact congrArg _ (le_antisymm (hmin w hw hxw) (hmin' v hv hxv))
    · exact absurd hxv (not_le.mpr (hnone' v hv))
  · rcases h' with ⟨w, hw, rfl, hxw, _⟩ | ⟨rfl, _⟩
    · exact absurd hxw (not_le.mpr (hnone w hw))
    · rfl

/-- Directed rounding keeps the order. -/
theorem RoundsDown.mono {y : ℝ} {r s : EReal} (h : RoundsDown F x r) (h' : RoundsDown F y s)
    (hxy : x ≤ y) : r ≤ s := by
  rcases h with ⟨v, hv, rfl, hvx, _⟩ | ⟨rfl, _⟩
  · rcases h' with ⟨w, _, rfl, _, hmax⟩ | ⟨_, hnone⟩
    · exact EReal.coe_le_coe_iff.mpr (hmax v hv (hvx.trans hxy))
    · exact absurd (hvx.trans hxy) (not_le.mpr (hnone v hv))
  · exact bot_le

theorem RoundsUp.mono {y : ℝ} {r s : EReal} (h : RoundsUp F x r) (h' : RoundsUp F y s)
    (hxy : x ≤ y) : r ≤ s := by
  rcases h' with ⟨w, hw, rfl, hyw, _⟩ | ⟨rfl, _⟩
  · rcases h with ⟨v, _, rfl, _, hmin⟩ | ⟨_, hnone⟩
    · exact EReal.coe_le_coe_iff.mpr (hmin w hw (hxy.trans hyw))
    · exact absurd (hxy.trans hyw) (not_le.mpr (hnone w hw))
  · exact le_top

/-- An exact value is its own rounding, in either direction. -/
theorem roundsDown_self {v : ℝ} (hv : v ∈ F) : RoundsDown F v v :=
  .inl ⟨v, hv, rfl, le_rfl, fun _ _ h => h⟩

theorem roundsUp_self {v : ℝ} (hv : v ∈ F) : RoundsUp F v v :=
  .inl ⟨v, hv, rfl, le_rfl, fun _ _ h => h⟩

/-- After an inexact downward rounding the next value is the upward rounding. -/
theorem RoundsDown.succeeds {v : ℝ} {r : EReal} (h : RoundsDown F x v) (hlt : v < x)
    (hr : Succeeds F v r) : RoundsUp F x r := by
  obtain ⟨_, _, hmax⟩ := h.mem
  rcases hr with ⟨w, hw, rfl, hvw, hmin⟩ | ⟨rfl, hnone⟩
  · refine .inl ⟨w, hw, rfl, ?_, fun u hu hxu => hmin u hu (hlt.trans_le hxu)⟩
    by_contra hwx
    exact absurd (hmax w hw (not_le.mp hwx).le) (not_le.mpr hvw)
  · exact .inr ⟨rfl, fun u hu => (hnone u hu).trans_lt hlt⟩

/-! ## Existence -/

theorem exists_roundsDown (hF : F.Finite) (x : ℝ) : ∃ r, RoundsDown F x r := by
  by_cases hsome : ∃ w ∈ F, w ≤ x
  · obtain ⟨w, hw, hwx⟩ := hsome
    have hfinite : (F ∩ Set.Iic x).Finite := hF.inter_of_left _
    obtain ⟨v, hv, hmax⟩ := hfinite.exists_maximalFor id _ ⟨w, hw, hwx⟩
    refine ⟨v, .inl ⟨v, hv.1, rfl, hv.2, fun u hu hux => ?_⟩⟩
    rcases le_total u v with h | h
    · exact h
    · exact hmax ⟨hu, hux⟩ h
  · exact ⟨⊥, .inr ⟨rfl, fun w hw => not_le.mp fun h => hsome ⟨w, hw, h⟩⟩⟩

theorem exists_roundsUp (hF : F.Finite) (x : ℝ) : ∃ r, RoundsUp F x r := by
  by_cases hsome : ∃ w ∈ F, x ≤ w
  · obtain ⟨w, hw, hwx⟩ := hsome
    have hfinite : (F ∩ Set.Ici x).Finite := hF.inter_of_left _
    obtain ⟨v, hv, hmin⟩ := hfinite.exists_minimalFor id _ ⟨w, hw, hwx⟩
    refine ⟨v, .inl ⟨v, hv.1, rfl, hv.2, fun u hu hux => ?_⟩⟩
    rcases le_total v u with h | h
    · exact h
    · exact hmin ⟨hu, hux⟩ h
  · exact ⟨⊤, .inr ⟨rfl, fun w hw => not_le.mp fun h => hsome ⟨w, hw, h⟩⟩⟩

theorem exists_succeeds (hF : F.Finite) (v : ℝ) : ∃ r, Succeeds F v r := by
  by_cases hsome : ∃ w ∈ F, v < w
  · obtain ⟨w, hw, hvw⟩ := hsome
    have hfinite : (F ∩ Set.Ioi v).Finite := hF.inter_of_left _
    obtain ⟨u, hu, hmin⟩ := hfinite.exists_minimalFor id _ ⟨w, hw, hvw⟩
    refine ⟨u, .inl ⟨u, hu.1, rfl, hu.2, fun t ht hvt => ?_⟩⟩
    rcases le_total u t with h | h
    · exact h
    · exact hmin ⟨ht, hvt⟩ h
  · exact ⟨⊤, .inr ⟨rfl, fun w hw => not_lt.mp fun h => hsome ⟨w, hw, h⟩⟩⟩

end Xcelerator.Foundations.DirectedRounding
