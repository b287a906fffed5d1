import Mathlib
import Xcelerator.Numerics.MpfrBallSoundness

/-! # A correctly rounded library

The assumptions on the library can be met: a precision has finitely many values
in an exponent range, so every rounding and every next value exists. Special
operands pass through. -/

namespace Xcelerator.Numerics.MpfrIdeal
open Xcelerator.Foundations.BinaryRounding (Round)
open Xcelerator.Foundations.DirectedRounding
open Xcelerator.Numerics.MpfrFloat Xcelerator.Numerics.MpfrBallSoundness

/-- The significands and exponents of a format are finitely many. -/
theorem finite_formatValues (expMin expMax : Int) (p : Nat) :
    (formatValues expMin expMax p).Finite := by
  have hbox : ((Set.Icc expMin expMax ×ˢ Set.Icc (-(2 ^ p) : Int) (2 ^ p)).image
      fun c : Int × Int => ((c.2 * 2 ^ (c.1 - p) : ℚ) : ℝ)).Finite :=
    ((Set.finite_Icc _ _).prod (Set.finite_Icc _ _)).image _
  refine (hbox.union (Set.finite_singleton 0)).subset ?_
  rintro x ⟨v, hv, rfl⟩
  rcases hv with rfl | ⟨e, he, ⟨_, hlt⟩, k, rfl⟩
  · exact .inr (by simp)
  · refine .inl ⟨(e, k), ⟨he, ?_⟩, rfl⟩
    have hpow : (0 : ℚ) < 2 ^ (e - p) := by positivity
    have hscale : (2 : ℚ) ^ e = 2 ^ p * 2 ^ (e - p) := by
      rw [← zpow_natCast, ← zpow_add₀ (by norm_num)]
      congr 1
      omega
    rw [abs_mul, abs_of_pos hpow, hscale] at hlt
    have hk : |(k : ℚ)| < 2 ^ p := lt_of_mul_lt_mul_right hlt hpow.le
    have hk' : |k| < 2 ^ p := by exact_mod_cast hk
    exact abs_le.mp hk'.le

theorem zero_mem_formatValues (expMin expMax : Int) (p : Nat) :
    (0 : ℝ) ∈ formatValues expMin expMax p :=
  ⟨0, .inl rfl, by simp⟩

open Classical in
/-- The float of an extended real; a zero is positive. -/
noncomputable def datumOf (t : EReal) : Datum :=
  if t = ⊥ then .infinity true
  else if t = ⊤ then .infinity false
  else if h : ∃ v : ℚ, v ≠ 0 ∧ t = ((v : ℝ) : EReal) then .normal h.choose h.choose_spec.1
  else .zero false

/-- Infinities and rational values. -/
def Extended (t : EReal) : Prop := t = ⊥ ∨ t = ⊤ ∨ ∃ v : ℚ, t = ((v : ℝ) : EReal)

theorem denotes_datumOf {t : EReal} (h : Extended t) (p : Nat) :
    MpfrFloat.Denotes ⟨p, datumOf t⟩ t := by
  unfold datumOf MpfrFloat.Denotes
  by_cases hbot : t = ⊥
  · simp [hbot]
  · by_cases htop : t = ⊤
    · simp [htop]
    · by_cases hv : ∃ v : ℚ, v ≠ 0 ∧ t = ((v : ℝ) : EReal)
      · simp only [if_neg hbot, if_neg htop, dif_pos hv]
        exact hv.choose_spec.2
      · simp only [if_neg hbot, if_neg htop, dif_neg hv]
        rcases h with h | h | ⟨v, rfl⟩
        · exact absurd h hbot
        · exact absurd h htop
        · have hzero : v = 0 := by
            by_contra hne
            exact hv ⟨v, hne, rfl⟩
          rw [hzero]
          simp

section
variable (expMin expMax : Int)

noncomputable def below (p : Nat) (r : ℝ) : EReal :=
  (exists_roundsDown (finite_formatValues expMin expMax p) r).choose

noncomputable def above (p : Nat) (r : ℝ) : EReal :=
  (exists_roundsUp (finite_formatValues expMin expMax p) r).choose

noncomputable def after (p : Nat) (v : ℝ) : EReal :=
  (exists_succeeds (finite_formatValues expMin expMax p) v).choose

/-- The rounding of a real number; `nearest` takes the neighbour toward zero. -/
noncomputable def roundedValue (p : Nat) (round : Round) (r : ℝ) : EReal :=
  match round with
  | .down => below expMin expMax p r
  | .up => above expMin expMax p r
  | .zero => if 0 ≤ r then below expMin expMax p r else above expMin expMax p r
  | .awayZero => if 0 ≤ r then above expMin expMax p r else below expMin expMax p r
  | .nearest => if 0 ≤ r then below expMin expMax p r else above expMin expMax p r

noncomputable def roundedFloat (p : Nat) (round : Round) (r : ℝ) : MpfrFloat :=
  ⟨p, datumOf (roundedValue expMin expMax p round r)⟩

noncomputable def liftUnary (f : ℝ → ℝ) (round : Round) (x : MpfrFloat) : MpfrFloat :=
  match x.finite? with
  | some a => roundedFloat expMin expMax x.precision round (f a)
  | none => x

noncomputable def liftBinary (f : ℝ → ℝ → ℝ) (p : Nat) (round : Round) (x y : MpfrFloat) :
    MpfrFloat :=
  match x.finite?, y.finite? with
  | some a, some b => roundedFloat expMin expMax p round (f a b)
  | some _, none => y
  | none, _ => x

open Classical in
noncomputable def liftTernary (f : ℝ → ℝ) (round : Round) (x : MpfrFloat) : MpfrFloat × Ordering :=
  match x.finite? with
  | some a =>
    let t := roundedValue expMin expMax x.precision round (f a)
    (⟨x.precision, datumOf t⟩, if t < f a then .lt else if t = f a then .eq else .gt)
  | none => (x, .eq)

noncomputable def ideal : Primitives where
  expMin := expMin
  expMax := expMax
  precMin := 1
  precMax := 2 ^ 31 - 1
  set p round x := liftUnary expMin expMax id round { x with precision := p }
  add := liftBinary expMin expMax (· + ·)
  sub := liftBinary expMin expMax (· - ·)
  mul := liftBinary expMin expMax (· * ·)
  div := liftBinary expMin expMax (· / ·)
  sqrt := liftUnary expMin expMax Real.sqrt
  exp := liftUnary expMin expMax Real.exp
  ln := liftUnary expMin expMax Real.log
  atan := liftUnary expMin expMax Real.arctan
  sin := liftTernary expMin expMax Real.sin
  cos := liftTernary expMin expMax Real.cos
  sinCos round x := (liftTernary expMin expMax Real.sin round x,
    liftTernary expMin expMax Real.cos round x)
  nextUp x :=
    match x.finite? with
    | some v => ⟨x.precision, datumOf (after expMin expMax x.precision v)⟩
    | none => x

end

section
variable {expMin expMax : Int} {p : Nat} {r : ℝ} {t : EReal}

theorem extended_of_mem {v : ℝ} (h : v ∈ formatValues expMin expMax p) : Extended (v : EReal) := by
  obtain ⟨q, _, rfl⟩ := h
  exact .inr (.inr ⟨q, rfl⟩)

theorem extended_of_roundsDown (h : RoundsDown (formatValues expMin expMax p) r t) :
    Extended t := by
  rcases h with ⟨v, hv, rfl, _⟩ | ⟨rfl, _⟩
  · exact extended_of_mem hv
  · exact .inl rfl

theorem extended_of_roundsUp (h : RoundsUp (formatValues expMin expMax p) r t) : Extended t := by
  rcases h with ⟨v, hv, rfl, _⟩ | ⟨rfl, _⟩
  · exact extended_of_mem hv
  · exact .inr (.inl rfl)

theorem below_rounds : RoundsDown (formatValues expMin expMax p) r (below expMin expMax p r) :=
  (exists_roundsDown (finite_formatValues expMin expMax p) r).choose_spec

theorem above_rounds : RoundsUp (formatValues expMin expMax p) r (above expMin expMax p r) :=
  (exists_roundsUp (finite_formatValues expMin expMax p) r).choose_spec

theorem extended_roundedValue (round : Round) :
    Extended (roundedValue expMin expMax p round r) := by
  have hbelow : Extended (below expMin expMax p r) := extended_of_roundsDown below_rounds
  have habove : Extended (above expMin expMax p r) := extended_of_roundsUp above_rounds
  unfold roundedValue
  cases round <;> dsimp only <;> (try split_ifs) <;> assumption

theorem roundedFloat_rounds (round : Round) :
    (ideal expMin expMax).Rounds p round r (roundedFloat expMin expMax p round r) := by
  refine ⟨rfl, _, denotes_datumOf (extended_roundedValue round) p, ?_⟩
  have hbelow : RoundsDown ((ideal expMin expMax).values p) r (below expMin expMax p r) :=
    below_rounds
  have habove : RoundsUp ((ideal expMin expMax).values p) r (above expMin expMax p r) :=
    above_rounds
  unfold roundedValue
  cases round with
  | down => exact hbelow
  | up => exact habove
  | zero =>
    dsimp only
    split
    · exact hbelow
    · exact habove
  | awayZero =>
    dsimp only
    split
    · exact habove
    · exact hbelow
  | nearest =>
    dsimp only
    split
    · exact .inl hbelow
    · exact .inr habove

theorem liftUnary_rounds (f : ℝ → ℝ) (round : Round) {x : MpfrFloat} {a : ℚ}
    (h : x.finite? = some a) :
    (ideal expMin expMax).Rounds x.precision round (f a) (liftUnary expMin expMax f round x) := by
  unfold liftUnary
  rw [h]
  exact roundedFloat_rounds round

theorem liftBinary_rounds (f : ℝ → ℝ → ℝ) (round : Round) {x y : MpfrFloat} {a b : ℚ}
    (hx : x.finite? = some a) (hy : y.finite? = some b) :
    (ideal expMin expMax).Rounds p round (f a b) (liftBinary expMin expMax f p round x y) := by
  unfold liftBinary
  rw [hx, hy]
  exact roundedFloat_rounds round

theorem liftTernary_rounds (f : ℝ → ℝ) (round : Round) {x : MpfrFloat} {a : ℚ}
    (h : x.finite? = some a) :
    (ideal expMin expMax).RoundsTernary x.precision round (f a)
    (liftTernary expMin expMax f round x) := by
  unfold liftTernary
  rw [h]
  refine ⟨roundedFloat_rounds round, fun t ht => ?_⟩
  rw [Denotes.unique ht (denotes_datumOf (extended_roundedValue round) _)]
  dsimp only
  by_cases hlt : roundedValue expMin expMax x.precision round (f a) < f a
  · rw [if_pos hlt]
    exact hlt
  · rw [if_neg hlt]
    by_cases heq : roundedValue expMin expMax x.precision round (f a) = f a
    · rw [if_pos heq]
      exact heq
    · rw [if_neg heq]
      exact lt_of_le_of_ne (not_lt.mp hlt) (Ne.symm heq)

theorem liftUnary_special (f : ℝ → ℝ) (round : Round) {x : MpfrFloat} (h : x.finite? = none) :
    liftUnary expMin expMax f round x = x := by
  unfold liftUnary
  rw [h]

theorem liftBinary_special (f : ℝ → ℝ → ℝ) (round : Round) {x y : MpfrFloat}
    (h : x.finite? = none) :
    liftBinary expMin expMax f p round x y = x := by
  unfold liftBinary
  rw [h]

theorem finite?_of_nan {x : MpfrFloat} (h : x.datum = .nan) : x.finite? = none := by
  unfold MpfrFloat.finite?
  rw [h]

/-- The neighbour toward zero is finite. -/
theorem roundedFloat_nearest_finite :
    ∃ b, (roundedFloat expMin expMax p .nearest r).finite? = some b := by
  have hdenotes : MpfrFloat.Denotes (roundedFloat expMin expMax p .nearest r)
      (roundedValue expMin expMax p .nearest r) :=
        denotes_datumOf (extended_roundedValue .nearest) p
  have hbelow : RoundsDown (formatValues expMin expMax p) r (below expMin expMax p r) :=
    below_rounds
  have habove : RoundsUp (formatValues expMin expMax p) r (above expMin expMax p r) := above_rounds
  rcases denotes_cases hdenotes with hfinite | ⟨s, hs⟩
  · exact hfinite
  · exfalso
    have hzero := zero_mem_formatValues expMin expMax p
    obtain ⟨v, hv⟩ : ∃ v : ℝ, roundedValue expMin expMax p .nearest r = v := by
      unfold roundedValue
      dsimp only
      split
      · rename_i hr
        rcases hbelow with ⟨v, _, hv, _⟩ | ⟨_, hnone⟩
        · exact ⟨v, hv⟩
        · exact absurd hr (not_le.mpr (hnone 0 hzero))
      · rename_i hr
        rcases habove with ⟨v, _, hv, _⟩ | ⟨_, hnone⟩
        · exact ⟨v, hv⟩
        · exact absurd (hnone 0 hzero).le hr
    rw [hv] at hdenotes
    unfold MpfrFloat.Denotes at hdenotes
    rw [hs] at hdenotes
    cases s with
    | true => exact EReal.coe_ne_bot v hdenotes
    | false => exact EReal.coe_ne_top v hdenotes

/-- The library meets every assumption. -/
theorem ideal_correct (expMin expMax : Int) : (ideal expMin expMax).Correct where
  set p round {x a} h := liftUnary_rounds (x := { x with precision := p }) id round h
  add p round {x y a b} hx hy := liftBinary_rounds (· + ·) round hx hy
  add_infinity p round {x y a s} hx hy := by
    have hnone := finite?_of_infinity hy
    constructor
    · show (liftBinary expMin expMax (· + ·) p round x y).datum = _
      unfold liftBinary
      rw [hx, hnone]
      exact hy
    · show (liftBinary expMin expMax (· + ·) p round y x).datum = _
      rw [liftBinary_special _ round hnone]
      exact hy
  sub p round {x y a b} hx hy := liftBinary_rounds (· - ·) round hx hy
  sub_infinity p round {x y b s} hx hy := by
    show (liftBinary expMin expMax (· - ·) p round x y).datum = _
    rw [liftBinary_special _ round (finite?_of_infinity hx)]
    exact hx
  mul p round {x y a b} hx hy := liftBinary_rounds (· * ·) round hx hy
  mul_nan p round {x y} hx := by
    show (liftBinary expMin expMax (· * ·) p round x y).datum = _
    rw [liftBinary_special _ round (finite?_of_nan hx)]
    exact hx
  div p round {x y a b} hx hy _ := liftBinary_rounds (· / ·) round hx hy
  half {x a} hx := by
    show ∃ b, (liftBinary expMin expMax (· / ·) x.precision .nearest x _).finite? = some b
    unfold liftBinary
    rw [hx, finite?_ofInt]
    exact roundedFloat_nearest_finite
  half_infinity {x s} hx := by
    show (liftBinary expMin expMax (· / ·) x.precision .nearest x _).datum = _
    rw [liftBinary_special _ _ (finite?_of_infinity hx)]
    exact hx
  sqrt round {x a} hx _ := liftUnary_rounds Real.sqrt round hx
  exp round {x a} hx := liftUnary_rounds Real.exp round hx
  exp_nan round {x} hx := by
    show (liftUnary expMin expMax Real.exp round x).datum = _
    rw [liftUnary_special _ round (finite?_of_nan hx)]
    exact hx
  ln round {x a} hx _ := liftUnary_rounds Real.log round hx
  atan round {x a} hx := liftUnary_rounds Real.arctan round hx
  atan_nan round {x} hx := by
    show (liftUnary expMin expMax Real.arctan round x).datum = _
    rw [liftUnary_special _ round (finite?_of_nan hx)]
    exact hx
  sin round {x a} hx := liftTernary_rounds Real.sin round hx
  cos round {x a} hx := liftTernary_rounds Real.cos round hx
  sinCos_sin round {x a} hx := liftTernary_rounds Real.sin round hx
  sinCos_cos round {x a} hx := liftTernary_rounds Real.cos round hx
  sinCos_zero round {x s s'} := by
    refine ⟨fun hs hs' => ?_, fun hs hs' => ?_⟩
    · exact Datum.zero.inj (hs.symm.trans hs')
    · exact Datum.zero.inj (hs.symm.trans hs')
  nextUp {x v h} hx := by
    have hfinite : x.finite? = some v := by
      unfold MpfrFloat.finite?
      rw [hx]
    have hafter : Succeeds (formatValues expMin expMax x.precision) (v : ℝ)
        (after expMin expMax x.precision v) :=
      (exists_succeeds (finite_formatValues expMin expMax x.precision) v).choose_spec
    have hvalue : (ideal expMin expMax).nextUp x =
        ⟨x.precision, datumOf (after expMin expMax x.precision v)⟩ := by
      simp only [ideal, hfinite]
    rw [hvalue]
    refine ⟨rfl, _, denotes_datumOf ?_ _, hafter⟩
    rcases hafter with ⟨w, hw, hwt, _⟩ | ⟨htop, _⟩
    · rw [hwt]
      exact extended_of_mem hw
    · exact .inr (.inl htop)

end

end Xcelerator.Numerics.MpfrIdeal
