import Mathlib

/-! Brackets of a sign change. Two values are opposite when zero lies between them;
splitting a bracket at a point keeps a sign change on one side, and a continuous
function has a zero inside every bracket. -/

namespace Xcelerator.Foundations.SignBracket
open Set

section
variable {β : Type*} [LinearOrder β] [Zero β]

def Opposite (a b : β) : Prop := a ≤ 0 ∧ 0 ≤ b ∨ 0 ≤ a ∧ b ≤ 0

theorem Opposite.symm {a b : β} (h : Opposite a b) : Opposite b a := by
  rcases h with ⟨ha, hb⟩ | ⟨ha, hb⟩
  · exact .inr ⟨hb, ha⟩
  · exact .inl ⟨hb, ha⟩

/-- A sign change between the ends is one on either side of any value between. -/
theorem Opposite.split {a b : β} (h : Opposite a b) (c : β) : Opposite a c ∨ Opposite c b := by
  rcases h with ⟨ha, hb⟩ | ⟨ha, hb⟩
  · rcases le_total 0 c with hc | hc
    · exact .inl (.inl ⟨ha, hc⟩)
    · exact .inr (.inl ⟨hc, hb⟩)
  · rcases le_total 0 c with hc | hc
    · exact .inr (.inr ⟨hc, hb⟩)
    · exact .inl (.inr ⟨ha, hc⟩)

/-- Where the left part has none, the right part has it. -/
theorem Opposite.right {a b c : β} (h : Opposite a b) (hc : ¬Opposite a c) : Opposite c b :=
  (h.split c).resolve_left hc

/-- Nonzero values are opposite when exactly one of them is negative. -/
theorem opposite_iff_of_ne_zero {a b : β} (ha : a ≠ 0) (hb : b ≠ 0) :
    Opposite a b ↔ ¬(a < 0 ↔ b < 0) := by
  unfold Opposite
  rcases lt_or_gt_of_ne ha with ha | ha <;> rcases lt_or_gt_of_ne hb with hb | hb
  · simp [ha, hb, ha.le, hb.le, ha.not_ge, hb.not_ge]
  · simp [ha, ha.le, hb.le, ha.not_ge, hb.not_gt]
  · simp [hb, ha.le, hb.le, ha.not_gt, hb.not_ge]
  · simp [ha.le, hb.le, ha.not_ge, hb.not_ge, ha.not_gt, hb.not_gt]

end

section
variable {α β : Type*} [ConditionallyCompleteLinearOrder α] [TopologicalSpace α] [OrderTopology α]
    [DenselyOrdered α]
  [LinearOrder β] [TopologicalSpace β] [OrderClosedTopology β] [Zero β]

theorem Opposite.root {f : α → β} {l u : α} (hlu : l ≤ u) (hf : ContinuousOn f (Icc l u))
    (h : Opposite (f l) (f u)) :
    ∃ r ∈ Icc l u, f r = 0 := by
  rcases h with ⟨hl, hu⟩ | ⟨hl, hu⟩
  · exact intermediate_value_Icc hlu hf ⟨hl, hu⟩
  · exact intermediate_value_Icc' hlu hf ⟨hu, hl⟩

end

end Xcelerator.Foundations.SignBracket
