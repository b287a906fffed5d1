import Mathlib
import Xcelerator.Numerics.MpfrIdeal

/-! # A library that computes

The four operations and the change of precision, by rational rounding where the
result is inside the exponent range. Outside it, and for the other functions,
the correctly rounded library is taken as it is. -/

namespace Xcelerator.Numerics.MpfrRounded
open Xcelerator.Foundations.BinaryRounding
open Xcelerator.Foundations.DirectedRounding
open Xcelerator.Numerics.MpfrFloat Xcelerator.Numerics.MpfrBallSoundness
open Xcelerator.Numerics.MpfrIdeal
  (ideal ideal_correct roundedFloat roundedFloat_rounds roundedFloat_nearest_finite)

variable {expMin expMax : Int} {p : Nat} {round : Round} {v w : ℚ}

/-! ## Rational rounding is directed -/

/-- Well inside the exponent range, or zero. -/
def InRange (expMin expMax : Int) (p : Nat) (v : ℚ) : Prop :=
  1 ≤ p ∧ (v = 0 ∨ expMin ≤ Int.log 2 |v| ∧ Int.log 2 |v| + 2 ≤ expMax)

instance : Decidable (InRange expMin expMax p v) := inferInstanceAs (Decidable (_ ∧ _))

theorem rounded_representable (h : InRange expMin expMax p v) :
    Representable expMin expMax p (rounded p round v) := by
  obtain ⟨hp, rfl | ⟨hmin, hmax⟩⟩ := h
  · exact .inl (rounded_zero p round)
  · by_cases hv : v = 0
    · exact .inl (by rw [hv, rounded_zero])
    · obtain ⟨hlow, hhigh⟩ := abs_rounded_bounds hp round hv
      rcases hhigh.lt_or_eq with hlt | heq
      · refine .inr ⟨Int.log 2 |v| + 1, ⟨by omega, by omega⟩, ⟨by simpa using hlow, hlt⟩, ?_⟩
        exact ⟨significand p round v, rfl⟩
      · -- the next power of two, whose significand is a power of two
        refine .inr ⟨Int.log 2 |v| + 2, ⟨by omega, hmax⟩, ⟨?_, ?_⟩, ?_⟩
        · rw [heq]
          exact zpow_le_zpow_right₀ (by norm_num) (by omega)
        · rw [heq]
          exact zpow_lt_zpow_right₀ (by norm_num) (by omega)
        · have hpower : (2 : ℚ) ^ (Int.log 2 |v| + 1) =
              ((2 ^ (p - 1) : Int) : ℚ) * 2 ^ (Int.log 2 |v| + 2 - p) := by
            push_cast
            rw [← zpow_natCast, ← zpow_add₀ (by norm_num)]
            congr 1
            omega
          rcases (abs_eq (by positivity)).mp heq with h | h
          · exact ⟨2 ^ (p - 1), h.trans hpower⟩
          · refine ⟨-2 ^ (p - 1), ?_⟩
            rw [h, hpower]
            push_cast
            ring

theorem rounded_mem (h : InRange expMin expMax p v) :
    ((rounded p round v : ℚ) : ℝ) ∈ formatValues expMin expMax p :=
  ⟨_, rounded_representable h, rfl⟩

theorem le_of_pow_le {e : Int} (hw : |w| < 2 ^ e) (he : e ≤ Int.log 2 |v|) (hv : v ≠ 0) :
    |w| < |v| := by
  have hlog : (2 : ℚ) ^ Int.log 2 |v| ≤ |v| := by
    simpa using Int.zpow_log_le_self (R := ℚ) (b := 2) (by norm_num) (abs_pos.mpr hv)
  exact hw.trans_le ((zpow_le_zpow_right₀ (by norm_num) he).trans hlog)

/-- A value of the format below `v` is below the floor of `v`, in units of the last place. -/
theorem le_rounded_down (hp : 1 ≤ p) (hw : Representable expMin expMax p w) (hle : w ≤ v) :
    w ≤ rounded p .down v := by
  by_cases hv : v = 0
  · simpa [hv] using hle
  have hunit := unit_pos p v
  rcases hw with rfl | ⟨e, -, ⟨-, hhigh⟩, k, rfl⟩
  · have hpos : 0 ≤ significand p .down v := Int.floor_nonneg.mpr (div_nonneg hle hunit.le)
    exact mul_nonneg (by exact_mod_cast hpos) hunit.le
  · by_cases he : Int.log 2 |v| + 1 ≤ e
    · -- a multiple of the unit
      have hmultiple : (k : ℚ) * 2 ^ (e - p) = ((k * 2 ^ (e - (Int.log 2 |v| + 1)).toNat : Int) :
          ℚ) * unit p v := by
        unfold unit
        push_cast
        rw [mul_assoc, ← zpow_natCast, ← zpow_add₀ (by norm_num)]
        congr 2
        omega
      rw [hmultiple] at hle ⊢
      refine mul_le_mul_of_nonneg_right ?_ hunit.le
      exact_mod_cast Int.le_floor.mpr ((le_div_iff₀ hunit).mpr hle)
    · -- smaller than the binade of `v`, which is positive then
      have hsmall := le_of_pow_le hhigh (by omega : e ≤ Int.log 2 |v|) hv
      have hbinade := (abs_rounded_bounds hp .down hv).1
      have hpow : |(k : ℚ) * 2 ^ (e - p)| < 2 ^ Int.log 2 |v| :=
        hhigh.trans_le (zpow_le_zpow_right₀ (by norm_num) (by omega))
      rcases lt_or_gt_of_ne hv with hneg | hpos
      · rw [abs_of_neg hneg] at hsmall
        exact absurd hle (not_le.mpr (by linarith [neg_abs_le ((k : ℚ) * 2 ^ (e - p))]))
      · have hnonneg : 0 ≤ significand p .down v :=
          Int.floor_nonneg.mpr (div_nonneg hpos.le hunit.le)
        have habs : |rounded p .down v| = rounded p .down v :=
          abs_of_nonneg (mul_nonneg (by exact_mod_cast hnonneg) hunit.le)
        rw [habs] at hbinade
        exact (le_abs_self _).trans (hpow.le.trans hbinade)

theorem rounded_down_le : rounded p .down v ≤ v :=
  (le_div_iff₀ (unit_pos p v)).mp (Int.floor_le _)

theorem rounded_up_eq : rounded p .up v = -rounded p .down (-v) := by
  unfold rounded significand unit toInteger
  rw [abs_neg, neg_div, Int.floor_neg]
  push_cast
  ring

theorem representable_neg (h : Representable expMin expMax p v) :
    Representable expMin expMax p (-v) := by
  rcases h with rfl | ⟨e, he, habs, k, rfl⟩
  · exact .inl neg_zero
  · refine .inr ⟨e, he, by rwa [abs_neg], -k, ?_⟩
    push_cast
    ring

theorem rounded_down_rounds (h : InRange expMin expMax p v) :
    RoundsDown (formatValues expMin expMax p) v ((rounded p .down v : ℚ) : ℝ) := by
  refine .inl ⟨_, rounded_mem h, rfl, Rat.cast_le.mpr rounded_down_le, ?_⟩
  rintro x ⟨w, hw, rfl⟩ hle
  exact Rat.cast_le.mpr (le_rounded_down h.1 hw (Rat.cast_le.mp hle))

theorem rounded_up_rounds (h : InRange expMin expMax p v) :
    RoundsUp (formatValues expMin expMax p) v ((rounded p .up v : ℚ) : ℝ) := by
  refine .inl ⟨_, rounded_mem h, rfl, ?_, ?_⟩
  · rw [Rat.cast_le, rounded_up_eq]
    linarith [rounded_down_le (p := p) (v := -v)]
  · rintro x ⟨w, hw, rfl⟩ hle
    have hbelow := le_rounded_down h.1 (representable_neg hw) (neg_le_neg (Rat.cast_le.mp hle))
    rw [Rat.cast_le, rounded_up_eq]
    linarith

/-- The nearest value is one of the two neighbours. -/
theorem rounded_nearest : rounded p .nearest v = rounded p .down v ∨ rounded p .nearest v =
    rounded p .up v := by
  have hfc := Int.floor_le_ceil (v / unit p v)
  have hlow := floor_le_toInteger .nearest (v / unit p v)
  have hhigh := toInteger_le_ceil .nearest (v / unit p v)
  have hceil := Int.ceil_le_floor_add_one (v / unit p v)
  have hcases : toInteger .nearest (v / unit p v) = ⌊v / unit p v⌋ ∨
      toInteger .nearest (v / unit p v) = ⌈v / unit p v⌉ := by
    omega
  rcases hcases with h | h
  · exact .inl (congrArg (fun z : Int => (z : ℚ) * unit p v) h)
  · exact .inr (congrArg (fun z : Int => (z : ℚ) * unit p v) h)

theorem div_unit_nonneg : 0 ≤ v / unit p v ↔ 0 ≤ v := by
  rw [le_div_iff₀ (unit_pos p v), zero_mul]

theorem rounded_zero_eq : rounded p .zero v = if 0 ≤ v then rounded p .down v else
    rounded p .up v := by
  unfold rounded significand toInteger
  dsimp only
  simp only [div_unit_nonneg]
  split_ifs <;> rfl

theorem rounded_awayZero_eq : rounded p .awayZero v = if 0 ≤ v then rounded p .up v else
    rounded p .down v := by
  unfold rounded significand toInteger
  dsimp only
  simp only [div_unit_nonneg]
  split_ifs <;> rfl

/-! ## The library -/

def placed (p : Nat) (round : Round) (v : ℚ) : MpfrFloat where
  precision := p
  datum := if h : rounded p round v = 0 then .zero false else .normal _ h

theorem finite?_placed : (placed p round v).finite? = some (rounded p round v) := by
  unfold placed MpfrFloat.finite?
  by_cases h : rounded p round v = 0
  · simp [h]
  · simp [h]

theorem placed_rounds (h : InRange expMin expMax p v) : (ideal expMin expMax).Rounds p round (v : ℝ)
    (placed p round v) := by
  refine ⟨rfl, _, denotes_of_finite finite?_placed, ?_⟩
  have hdown := rounded_down_rounds h
  have hup := rounded_up_rounds h
  cases round with
  | down => exact hdown
  | up => exact hup
  | zero =>
    simp only [rounded_zero_eq, Rat.cast_nonneg]
    split
    · exact hdown
    · exact hup
  | awayZero =>
    simp only [rounded_awayZero_eq, Rat.cast_nonneg]
    split
    · exact hup
    · exact hdown
  | nearest =>
    rcases rounded_nearest (p := p) (v := v) with hnearest | hnearest
    · exact .inl (by rw [hnearest]; exact hdown)
    · exact .inr (by rw [hnearest]; exact hup)

noncomputable def computed (expMin expMax : Int) (p : Nat) (round : Round) (v : ℚ) : MpfrFloat :=
  if InRange expMin expMax p v then placed p round v else roundedFloat expMin expMax p round v

theorem computed_rounds : (ideal expMin expMax).Rounds p round (v : ℝ)
    (computed expMin expMax p round v) := by
  unfold computed
  split
  · rename_i h
    exact placed_rounds h
  · exact roundedFloat_rounds round

theorem computed_nearest_finite : ∃ b, (computed expMin expMax p .nearest v).finite? = some b := by
  unfold computed
  split
  · exact ⟨_, finite?_placed⟩
  · exact roundedFloat_nearest_finite

noncomputable def liftBinary (expMin expMax : Int) (f : ℚ → ℚ → ℚ) (p : Nat) (round : Round)
    (x y : MpfrFloat) : MpfrFloat :=
  match x.finite?, y.finite? with
  | some a, some b => computed expMin expMax p round (f a b)
  | some _, none => y
  | none, _ => x

noncomputable def primitives (expMin expMax : Int) : Primitives :=
  { ideal expMin expMax with
    set := fun p round x => liftBinary expMin expMax (fun a _ => a) p round x x
    add := liftBinary expMin expMax (· + ·)
    sub := liftBinary expMin expMax (· - ·)
    mul := liftBinary expMin expMax (· * ·)
    div := liftBinary expMin expMax (· / ·) }

theorem liftBinary_rounds (f : ℚ → ℚ → ℚ) {x y : MpfrFloat} {a b : ℚ} (hx : x.finite? = some a)
    (hy : y.finite? = some b) :
    (primitives expMin expMax).Rounds p round ((f a b : ℚ) : ℝ)
    (liftBinary expMin expMax f p round x y) := by
  unfold liftBinary
  rw [hx, hy]
  exact computed_rounds

theorem liftBinary_special (f : ℚ → ℚ → ℚ) {x y : MpfrFloat} (h : x.finite? = none) :
    liftBinary expMin expMax f p round x y = x := by
  unfold liftBinary
  rw [h]

theorem primitives_correct (expMin expMax : Int) : (primitives expMin expMax).Correct :=
  { ideal_correct expMin expMax with
    set := fun p round {x a} h => liftBinary_rounds (fun a _ => a) h h
    add := fun p round {x y a b} hx hy => by
      have h : (primitives expMin expMax).Rounds p round ((a + b : ℚ) : ℝ)
          (liftBinary expMin expMax (· + ·) p round x y) :=
        liftBinary_rounds (· + ·) hx hy
      push_cast at h
      exact h
    add_infinity := fun p round {x y a s} hx hy => by
      have hnone := finite?_of_infinity hy
      constructor
      · show (liftBinary expMin expMax (· + ·) p round x y).datum = _
        unfold liftBinary
        rw [hx, hnone]
        exact hy
      · show (liftBinary expMin expMax (· + ·) p round y x).datum = _
        rw [liftBinary_special _ hnone]
        exact hy
    sub := fun p round {x y a b} hx hy => by
      have h : (primitives expMin expMax).Rounds p round ((a - b : ℚ) : ℝ)
          (liftBinary expMin expMax (· - ·) p round x y) :=
        liftBinary_rounds (· - ·) hx hy
      push_cast at h
      exact h
    sub_infinity := fun p round {x y b s} hx hy => by
      show (liftBinary expMin expMax (· - ·) p round x y).datum = _
      rw [liftBinary_special _ (finite?_of_infinity hx)]
      exact hx
    mul := fun p round {x y a b} hx hy => by
      have h : (primitives expMin expMax).Rounds p round ((a * b : ℚ) : ℝ)
          (liftBinary expMin expMax (· * ·) p round x y) :=
        liftBinary_rounds (· * ·) hx hy
      push_cast at h
      exact h
    mul_nan := fun p round {x y} hx => by
      show (liftBinary expMin expMax (· * ·) p round x y).datum = _
      rw [liftBinary_special _ (Numerics.MpfrIdeal.finite?_of_nan hx)]
      exact hx
    div := fun p round {x y a b} hx hy _ => by
      have h : (primitives expMin expMax).Rounds p round ((a / b : ℚ) : ℝ)
          (liftBinary expMin expMax (· / ·) p round x y) :=
        liftBinary_rounds (· / ·) hx hy
      push_cast at h
      exact h
    half := fun {x a} hx => by
      show ∃ b, (liftBinary expMin expMax (· / ·) x.precision .nearest x _).finite? = some b
      unfold liftBinary
      rw [hx, finite?_ofInt]
      exact computed_nearest_finite
    half_infinity := fun {x s} hx => by
      show (liftBinary expMin expMax (· / ·) x.precision .nearest x _).datum = _
      rw [liftBinary_special _ (finite?_of_infinity hx)]
      exact hx }

end Xcelerator.Numerics.MpfrRounded
