import Mathlib
import Xcelerator.Foundations.SignBracket
import Xcelerator.Root.IntervalNewtonSoundness
import Xcelerator.Root.PointRefinement

/-! # Soundness of point refinement

Each step keeps a bracket whose ends have observed values of opposite signs. Where the
observed signs are those of a continuous function, the bracket of every record holds a
root; a record that did not observe a zero is within the position tolerance. -/

namespace Xcelerator.Root.PointRefinement
open Set
open Xcelerator.Core (DecimalLiteral)
open Xcelerator.Foundations.DirectedRounding
open Xcelerator.Foundations.Machine (bind_eq_ok ok_bind mapError_ok toOption_ok)
open Xcelerator.Foundations.SignBracket
open Xcelerator.Numerics.MpfrBall Xcelerator.Numerics.MpfrBallSoundness
open Xcelerator.Numerics.MpfrFloat
open Xcelerator.Root.IntervalNewton (Library Parsed le_finite lt_finite)

theorem refuse_ok {condition : Bool} {error : RootError} {u : Unit}
    (h : refuse condition error = .ok u) :
    condition = false := by
  unfold refuse at h
  split at h
  · cases h
  · simpa using ‹¬ condition = true›

theorem map_ok {α β : Type} {g : α → β} {x : Run α} {b : β} (h : g <$> x = .ok b) :
    ∃ a, x = .ok a ∧ g a = b := by
  cases x with
  | error e => cases h
  | ok a => exact ⟨a, rfl, Except.ok.inj h⟩

/-! ## Values and signs -/

section
variable {x y : MpfrFloat} {a b : ℚ}

theorem isZero_finite (hx : x.finite? = some a) : isZero x = decide (a = 0) := by
  obtain ⟨p, d⟩ := x
  cases d with
  | nan => cases hx
  | infinity negative => cases hx
  | zero negative =>
    cases hx
    rfl
  | normal value nonzero =>
    cases hx
    exact (decide_eq_false nonzero).symm

theorem isSignNegative_finite (hx : x.finite? = some a) (ha : a ≠ 0) :
    x.isSignNegative = decide (a < 0) := by
  obtain ⟨p, d⟩ := x
  cases d with
  | nan => cases hx
  | infinity negative => cases hx
  | zero negative =>
    cases hx
    exact absurd rfl ha
  | normal value nonzero =>
    cases hx
    rfl

theorem hpSameNonzeroSign_iff (hx : x.finite? = some a) (hy : y.finite? = some b) (ha : a ≠ 0)
    (hb : b ≠ 0) :
    hpSameNonzeroSign x y = true ↔ ¬Opposite a b := by
  unfold hpSameNonzeroSign
  rw [isZero_finite hx, isZero_finite hy, isSignNegative_finite hx ha, isSignNegative_finite hy hb,
    opposite_iff_of_ne_zero ha hb]
  simp [ha, hb]

theorem isZero_abs (hx : x.finite? = some a) : isZero x.abs = decide (a = 0) := by
  rw [isZero_finite (finite?_abs hx)]
  simp

end

/-! ## Callbacks -/

section
variable {m : Library} {function : RealFunctionHp} {p : Nat}

theorem checkedHpEvaluate_finite {x v : MpfrFloat} (h : checkedHpEvaluate m function x p = .ok v) :
    ∃ w, v.finite? = some w := by
  obtain ⟨_, -, h⟩ := bind_eq_ok h
  obtain ⟨_, -, h⟩ := bind_eq_ok h
  obtain ⟨value, -, h⟩ := bind_eq_ok h
  obtain ⟨_, hfinite, h⟩ := bind_eq_ok h
  cases h
  exact isFinite_iff.mp (by simpa using refuse_ok hfinite)

/-- The observed values have the signs of the function. -/
def SignExact (m : Library) (function : RealFunctionHp) (f : ℝ → ℝ) (p : Nat) : Prop :=
  ∀ x v (a w : ℚ), x.finite? = some a → checkedHpEvaluate m function x p = .ok v →
    v.finite? = some w →
    (w = 0 ↔ f a = 0) ∧ (w < 0 ↔ f a < 0)

theorem SignExact.opposite {f : ℝ → ℝ} (hf : SignExact m function f p) {x y v w : MpfrFloat}
    {a b c d : ℚ}
    (hx : x.finite? = some a) (hy : y.finite? = some b)
    (hv : checkedHpEvaluate m function x p = .ok v)
    (hw : checkedHpEvaluate m function y p = .ok w) (hc : v.finite? = some c)
    (hd : w.finite? = some d) (hc0 : c ≠ 0)
    (hd0 : d ≠ 0) (h : Opposite c d) : Opposite (f a) (f b) := by
  obtain ⟨hazero, haneg⟩ := hf x v a c hx hv hc
  obtain ⟨hbzero, hbneg⟩ := hf y w b d hy hw hd
  rw [opposite_iff_of_ne_zero hc0 hd0, haneg, hbneg] at h
  exact (opposite_iff_of_ne_zero (fun hz => hc0 (hazero.mpr hz)) fun hz =>
    hd0 (hbzero.mpr hz)).mpr h

end

/-! ## The bracket -/

section
variable {m : Library} {function : RealFunctionHp} {p : Nat} {l₀ u₀ : ℚ}

/-- A bracket between the first ends, with observed values of opposite signs. -/
structure Bracketed (m : Library) (function : RealFunctionHp) (p : Nat) (l₀ u₀ : ℚ)
    (bracket : Bracket) (l u a b : ℚ) :
    Prop where
  lower : bracket.lower.finite? = some l
  upper : bracket.upper.finite? = some u
  first : l₀ ≤ l
  ordered : l ≤ u
  last : u ≤ u₀
  fLower : checkedHpEvaluate m function bracket.lower p = .ok bracket.fLower
  fUpper : checkedHpEvaluate m function bracket.upper p = .ok bracket.fUpper
  lowerValue : bracket.fLower.finite? = some a
  upperValue : bracket.fUpper.finite? = some b
  lowerNonzero : a ≠ 0
  upperNonzero : b ≠ 0
  opposite : Opposite a b

/-- Moving one end to a point inside with a nonzero value keeps the sign change. -/
theorem Bracketed.narrow {bracket : Bracket} {l u a b c w : ℚ} {x fx : MpfrFloat}
    (h : Bracketed m function p l₀ u₀ bracket l u a b) (hx : x.finite? = some c) (hlc : l ≤ c)
    (hcu : c ≤ u)
    (hfx : checkedHpEvaluate m function x p = .ok fx) (hw : fx.finite? = some w) (hw0 : w ≠ 0) :
    ∃ l' u' a' b', Bracketed m function p l₀ u₀ (bracket.narrow x fx) l' u' a' b' ∧
    (u' = c ∨ l' = c) := by
  unfold Bracket.narrow
  split
  · next hsign =>
    have hopposite : Opposite a w := by
      rw [Bool.not_eq_true', Bool.eq_false_iff, ne_eq,
        hpSameNonzeroSign_iff h.lowerValue hw h.lowerNonzero hw0, not_not] at hsign
      exact hsign
    refine ⟨l, c, a, w, ?_, .inl rfl⟩
    exact { h with
      upper := hx, ordered := hlc, last := hcu.trans h.last, fUpper := hfx, upperValue := hw,
        upperNonzero := hw0
      opposite := hopposite }
  · next hsign =>
    have hsame : ¬Opposite a w := by
      rw [Bool.not_eq_true', Bool.not_eq_false,
        hpSameNonzeroSign_iff h.lowerValue hw h.lowerNonzero hw0] at hsign
      exact hsign
    refine ⟨c, u, w, b, ?_, .inr rfl⟩
    exact { h with
      lower := hx, first := h.first.trans hlc, ordered := hcu, fLower := hfx, lowerValue := hw,
        lowerNonzero := hw0
      opposite := h.opposite.right hsame }

theorem Bracketed.root {bracket : Bracket} {l u a b : ℚ}
    (h : Bracketed m function p l₀ u₀ bracket l u a b) {f : ℝ → ℝ}
    (hf : SignExact m function f p) (hcont : ContinuousOn f (Icc (l₀ : ℝ) u₀)) :
    ∃ r ∈ Icc (l : ℝ) u, f r = 0 := by
  have hopposite := hf.opposite h.lower h.upper h.fLower h.fUpper h.lowerValue h.upperValue
    h.lowerNonzero
    h.upperNonzero h.opposite
  have hsub : Icc (l : ℝ) u ⊆ Icc (l₀ : ℝ) u₀ :=
    Icc_subset_Icc (by exact_mod_cast h.first) (by exact_mod_cast h.last)
  exact hopposite.root (by exact_mod_cast h.ordered) (hcont.mono hsub)

/-- A returned midpoint lies in its interval. -/
theorem hpBracketMidpoint_ok (hm : m.mpfr.Correct) {lower upper x : MpfrFloat} {l u : ℚ}
    (hl : lower.finite? = some l)
    (hu : upper.finite? = some u) (hlu : l ≤ u) (h : hpBracketMidpoint m lower upper = .ok x) :
    ∃ c, x.finite? = some c ∧ l ≤ c ∧ c ≤ u := by
  obtain ⟨interval, hinterval, h⟩ := bind_eq_ok h
  obtain ⟨midpoint, hmidpoint, h⟩ := bind_eq_ok h
  cases h
  obtain ⟨hlower, hupper, -⟩ := new_ok (mapError_ok hinterval)
  obtain ⟨c, hc, hlc, hcu⟩ := clampedMidpoint_spec hm (hlower ▸ hl) (hupper ▸ hu) hlu
  obtain ⟨_, -, hpoint⟩ := bind_eq_ok (mapError_ok hmidpoint)
  obtain ⟨hpointLower, -, -⟩ := new_ok (toOption_ok (Numerics.Interval.expect_ok hpoint))
  exact ⟨c, by rw [hpointLower, hc], hlc, hcu⟩

end

/-! ## Tolerances -/

/-- The library rounds correctly, and reads a special value as one. -/
structure Reads (m : Library) : Prop where
  correct : m.mpfr.Correct
  number : ∀ p round (v : ℚ), m.mpfr.Rounds p round v (m.decimals.withValRound p round (.number v))
  special : ∀ p round negative nan,
    (m.decimals.withValRound p round (.special negative nan)).isFinite = false

section
variable {m : Library} {p : Nat}

theorem parseHpTolerance_ok (hm : Reads m) {value : DecimalLiteral} {t : MpfrFloat}
    (h : parseHpTolerance m value p = .ok t) :
    ∃ v : ℚ, m.decimals.parse value.text = .ok (.number v) ∧ m.mpfr.Rounds p .down v t := by
  obtain ⟨nearest, hnearest, h⟩ := bind_eq_ok h
  obtain ⟨_, -, h⟩ := bind_eq_ok h
  obtain ⟨parsed, hparsed, h⟩ := bind_eq_ok h
  obtain ⟨_, -, h⟩ := bind_eq_ok h
  cases h
  have hparse := mapError_ok hparsed
  cases parsed with
  | number v => exact ⟨v, hparse, hm.number p .down v⟩
  | special negative nan =>
    -- the rounding to nearest was finite
    obtain ⟨_, -, hnearest⟩ := bind_eq_ok hnearest
    obtain ⟨_, -, hnearest⟩ := bind_eq_ok hnearest
    obtain ⟨parsed, hparsed', hnearest⟩ := bind_eq_ok hnearest
    obtain ⟨_, -, hnearest⟩ := bind_eq_ok hnearest
    obtain ⟨_, hfinite, -⟩ := bind_eq_ok hnearest
    have hsame : parsed = .special negative nan := by
      have hparse' := mapError_ok hparsed'
      rw [hparse] at hparse'
      exact (Except.ok.inj hparse').symm
    have hrefused := refuse_ok hfinite
    rw [hsame, hm.special] at hrefused
    cases hrefused

/-- A width within the rounded tolerance is within the literal. -/
theorem width_le (hm : Reads m) {lower upper t : MpfrFloat} {l u v : ℚ}
    (hl : lower.finite? = some l)
    (hu : upper.finite? = some u) (hlu : l ≤ u) (ht : m.mpfr.Rounds p .down v t)
    (h : (hpDifferenceUp m upper lower p).le t = true) : u - l ≤ v := by
  have hdifference : hpDifferenceUp m upper lower p = m.mpfr.sub p .up upper lower :=
    if_pos ((le_finite hl hu).mpr hlu)
  rw [hdifference] at h
  obtain ⟨-, w, hw, hup⟩ := hm.correct.sub p .up hu hl
  obtain ⟨-, s, hs, hdown⟩ := ht
  have hle : (((u : ℝ) - l : ℝ) : EReal) ≤ ((v : ℝ) : EReal) :=
    (RoundsUp.le hup).trans (((le_iff hw hs).mp h).trans (RoundsDown.le hdown))
  have hreal : (u : ℝ) - l ≤ v := EReal.coe_le_coe_iff.mp hle
  exact_mod_cast hreal

end

/-! ## Records -/

section
variable {m : Library} {function : RealFunctionHp} {f : ℝ → ℝ} {p : Nat} {stopping : RootStoppingHp}
    {l₀ u₀ : ℚ}

/-- What a record says: a bracket with a root, a point of it with its observed value, and why the
run stopped. -/
structure Located (m : Library) (function : RealFunctionHp) (f : ℝ → ℝ) (p : Nat)
    (stopping : RootStoppingHp)
    (l₀ u₀ : ℚ) (record : RootApproximationHp) (lower x upper fx : MpfrFloat) (l c u w : ℚ) :
    Prop where
  values : lower.finite? = some l ∧ x.finite? = some c ∧ upper.finite? = some u
  texts : hpString m lower p = .ok record.lower ∧ hpString m x p = .ok record.midpoint ∧
    hpString m upper p = .ok record.upper
  inside : l₀ ≤ l ∧ l ≤ c ∧ c ≤ u ∧ u ≤ u₀
  observed : checkedHpEvaluate m function x p = .ok fx ∧ fx.finite? = some w
  root : ∃ r ∈ Icc (l : ℝ) u, f r = 0
  stopped : record.convergenceCriterion = .observedZero ∧ w = 0 ∧ f c = 0 ∨
    (record.convergenceCriterion = .bracketWidth ∨ record.convergenceCriterion =
      .residualAndBracketWidth) ∧ w ≠ 0 ∧
      ∃ t, m.decimals.parse stopping.xTolerance.text = .ok (.number t) ∧ u - l ≤ t

def Locates (m : Library) (function : RealFunctionHp) (f : ℝ → ℝ) (p : Nat)
    (stopping : RootStoppingHp) (l₀ u₀ : ℚ) (record : RootApproximationHp) : Prop :=
  ∃ lower x upper fx l c u w, Located m function f p stopping l₀ u₀ record lower x upper fx l c u w

/-- The counters of a record. -/
structure Counted (stopping : RootStoppingHp) (record : RootApproximationHp) : Prop where
  iterations : record.iterations ≤ stopping.maximumIterations
  functionEvaluations : record.functionEvaluations = record.iterations + 2
  newtonSteps : record.newtonSteps ≤ record.derivativeEvaluations
  derivativeEvaluations : record.derivativeEvaluations ≤ record.iterations

theorem endpointRecord_locates (hf : SignExact m function f p) {endpoint value : MpfrFloat} {c : ℚ}
    {method : String} {record : RootApproximationHp} (hc : endpoint.finite? = some c)
    (hvalue : checkedHpEvaluate m function endpoint p = .ok value) (hzero : isZero value = true)
    (hl : l₀ ≤ c) (hu : c ≤ u₀) (h : endpointRecord m endpoint p 2 method = .ok record) :
    Locates m function f p stopping l₀ u₀ record ∧ Counted stopping record := by
  obtain ⟨text, htext, h⟩ := bind_eq_ok h
  cases h
  obtain ⟨w, hw⟩ := checkedHpEvaluate_finite hvalue
  have hw0 : w = 0 := by simpa [isZero_finite hw] using hzero
  have hfc : f c = 0 := (hf _ _ _ _ hc hvalue hw).1.mp hw0
  refine ⟨⟨endpoint, endpoint, endpoint, value, c, c, c, w, ?_⟩,
    ⟨Nat.zero_le _, rfl, le_rfl, le_rfl⟩⟩
  exact ⟨⟨hc, hc, hc⟩, ⟨htext, htext, htext⟩, ⟨hl, le_rfl, le_rfl, hu⟩, ⟨hvalue, hw⟩,
    ⟨c, ⟨le_rfl, le_rfl⟩, hfc⟩, .inl ⟨rfl, hw0, hfc⟩⟩

theorem finish_ok {method : String} {bracket : Bracket} {x fx : MpfrFloat}
    {residualMet widthMet : Bool}
    {iteration : Nat} {counters : Counters} {record : RootApproximationHp}
    (h : finish m function p method bracket x fx residualMet widthMet iteration counters =
      .ok record) :
    (hpString m bracket.lower p = .ok record.lower ∧ hpString m x p = .ok record.midpoint ∧
      hpString m bracket.upper p = .ok record.upper) ∧
    record.convergenceCriterion = convergenceCriterion (isZero fx.abs) residualMet widthMet ∧
    record.iterations = iteration ∧ record.functionEvaluations = counters.functionEvaluations ∧
    record.newtonSteps = counters.newtonSteps ∧ counters.derivativeEvaluations ≤
      record.derivativeEvaluations ∧
      record.derivativeEvaluations ≤ counters.derivativeEvaluations + 1 := by
  obtain ⟨_, -, h⟩ := bind_eq_ok h
  obtain ⟨midpoint, hmidpoint, h⟩ := bind_eq_ok h
  obtain ⟨lower, hlower, h⟩ := bind_eq_ok h
  obtain ⟨upper, hupper, h⟩ := bind_eq_ok h
  obtain ⟨residual, -, h⟩ := bind_eq_ok h
  cases h
  refine ⟨⟨hlower, hmidpoint, hupper⟩, rfl, rfl, rfl, rfl, Nat.le_add_right .., ?_⟩
  dsimp only
  split <;> omega

theorem convergenceCriterion_width (residual : Bool) :
    convergenceCriterion false residual true = .bracketWidth ∨
      convergenceCriterion false residual true = .residualAndBracketWidth := by
  cases residual
  · exact .inl rfl
  · exact .inr rfl

/-- A record of one step, from the bracket that the step looks at. -/
theorem assess_record (hm : Reads m) (hf : SignExact m function f p)
    (hcont : ContinuousOn f (Icc (l₀ : ℝ) u₀))
    {bracket : Bracket} {l u a b c t : ℚ} (h : Bracketed m function p l₀ u₀ bracket l u a b)
    {x fx : MpfrFloat}
    (hx : x.finite? = some c) (hlc : l ≤ c) (hcu : c ≤ u)
    (hfx : checkedHpEvaluate m function x p = .ok fx)
    {tolerances : Tolerances} (ht : m.decimals.parse stopping.xTolerance.text = .ok (.number t))
    (htolerance : m.mpfr.Rounds p .down t tolerances.x) {method growth : String}
    {localResiduals : Residuals}
    {iteration : Nat} {counters : Counters} {record : RootApproximationHp}
    (hassess : assess m function p method tolerances growth bracket localResiduals x fx
      iteration counters =
      .ok (.inl record)) :
    Locates m function f p stopping l₀ u₀ record ∧ record.iterations = iteration ∧
      record.functionEvaluations = counters.functionEvaluations ∧ record.newtonSteps =
        counters.newtonSteps ∧
      counters.derivativeEvaluations ≤ record.derivativeEvaluations ∧
      record.derivativeEvaluations ≤ counters.derivativeEvaluations + 1 := by
  obtain ⟨_, -, hassess⟩ := bind_eq_ok hassess
  split at hassess
  · next hstop =>
    obtain ⟨finished, hfinish, hsame⟩ := map_ok hassess
    cases hsame
    obtain ⟨htexts, hcriterion, hiterations, hevaluations, hnewton, hderivative⟩ :=
      finish_ok hfinish
    obtain ⟨w, hw⟩ := checkedHpEvaluate_finite hfx
    refine ⟨⟨bracket.lower, x, bracket.upper, fx, l, c, u, w, ?_⟩, hiterations, hevaluations,
      hnewton, hderivative⟩
    refine ⟨⟨h.lower, hx, h.upper⟩, htexts, ⟨h.first, hlc, hcu, h.last⟩, ⟨hfx, hw⟩,
      h.root hf hcont, ?_⟩
    rw [hcriterion, isZero_abs hw]
    by_cases hw0 : w = 0
    · refine .inl ⟨?_, hw0, (hf _ _ _ _ hx hfx hw).1.mp hw0⟩
      rw [decide_eq_true hw0]
      rfl
    · rw [isZero_abs hw, decide_eq_false hw0, Bool.false_or] at hstop
      rw [hstop, decide_eq_false hw0]
      exact .inr ⟨convergenceCriterion_width _, hw0, t, ht,
        width_le hm h.lower h.upper h.ordered htolerance hstop⟩
  · cases hassess

theorem assess_continues {bracket : Bracket} {x fx : MpfrFloat} {w : ℚ} (hw : fx.finite? = some w)
    {tolerances : Tolerances} {method growth : String} {localResiduals residuals : Residuals}
    {iteration : Nat} {counters : Counters}
    (h : assess m function p method tolerances growth bracket localResiduals x fx
      iteration counters =
      .ok (.inr residuals)) : w ≠ 0 := by
  obtain ⟨_, -, h⟩ := bind_eq_ok h
  split at h
  · obtain ⟨_, -, hsame⟩ := map_ok h
    cases hsame
  · next hstop =>
    rw [isZero_abs hw] at hstop
    intro hw0
    exact hstop (by simp [hw0])

end

/-! ## Opening -/

section
variable {m : Library} {function : RealFunctionHp} {f : ℝ → ℝ} {p : Nat} {stopping : RootStoppingHp}

/-- What the common beginning establishes. -/
structure Opened (m : Library) (function : RealFunctionHp) (p : Nat) (stopping : RootStoppingHp)
    (lower upper : MpfrFloat)
    (tolerances : Tolerances) (bracket : Bracket) (l₀ u₀ t : ℚ) : Prop where
  rounded : bracket.lower = m.mpfr.set p .nearest lower ∧
    bracket.upper = m.mpfr.set p .nearest upper
  lower : bracket.lower.finite? = some l₀
  upper : bracket.upper.finite? = some u₀
  ordered : l₀ < u₀
  fLower : checkedHpEvaluate m function bracket.lower p = .ok bracket.fLower
  fUpper : checkedHpEvaluate m function bracket.upper p = .ok bracket.fUpper
  tolerance : m.decimals.parse stopping.xTolerance.text = .ok (.number t)
  tolerated : m.mpfr.Rounds p .down t tolerances.x

theorem openBracket_ok (hm : Reads m) {lower upper : MpfrFloat} {refusal : String} {inside : Bool}
    {cancelled : Nat → Option String} {tolerances : Tolerances} {bracket : Bracket}
    (h : openBracket m function lower upper p refusal inside stopping cancelled = .ok (tolerances,
      bracket)) :
    inside = true ∧ ∃ l₀ u₀ t, Opened m function p stopping lower upper tolerances bracket
      l₀ u₀ t := by
  obtain ⟨_, -, h⟩ := bind_eq_ok h
  obtain ⟨_, -, h⟩ := bind_eq_ok h
  obtain ⟨_, hinside, h⟩ := bind_eq_ok h
  obtain ⟨x, hx, h⟩ := bind_eq_ok h
  obtain ⟨residual, -, h⟩ := bind_eq_ok h
  obtain ⟨_, hordered, h⟩ := bind_eq_ok h
  obtain ⟨fLower, hfLower, h⟩ := bind_eq_ok h
  obtain ⟨fUpper, hfUpper, h⟩ := bind_eq_ok h
  cases h
  have hin := refuse_ok hinside
  have hbracket := refuse_ok hordered
  simp only [Bool.or_eq_false_iff, Bool.not_eq_false'] at hin hbracket
  obtain ⟨⟨hl, hu⟩, hle⟩ := hbracket
  obtain ⟨l₀, hl⟩ := isFinite_iff.mp hl
  obtain ⟨u₀, hu⟩ := isFinite_iff.mp hu
  obtain ⟨t, ht, htolerated⟩ := parseHpTolerance_ok hm hx
  refine ⟨hin.2, l₀, u₀, t, ⟨rfl, rfl⟩, hl, hu, ?_, hfLower, hfUpper, ht, htolerated⟩
  rw [Bool.eq_false_iff, ne_eq, le_finite hu hl, not_le] at hle
  exact hle

variable {lower upper : MpfrFloat} {tolerances : Tolerances} {bracket : Bracket} {l₀ u₀ t : ℚ}

/-- Nonzero ends of different signs are a bracket. -/
theorem Opened.bracketed (h : Opened m function p stopping lower upper tolerances bracket l₀ u₀ t)
    (hl : isZero bracket.fLower ≠ true) (hu : isZero bracket.fUpper ≠ true)
    (hsign : hpSameNonzeroSign bracket.fLower bracket.fUpper ≠ true) :
    ∃ a b, Bracketed m function p l₀ u₀ bracket l₀ u₀ a b := by
  obtain ⟨a, ha⟩ := checkedHpEvaluate_finite h.fLower
  obtain ⟨b, hb⟩ := checkedHpEvaluate_finite h.fUpper
  have ha0 : a ≠ 0 := by simpa [isZero_finite ha] using hl
  have hb0 : b ≠ 0 := by simpa [isZero_finite hb] using hu
  rw [ne_eq, hpSameNonzeroSign_iff ha hb ha0 hb0, not_not] at hsign
  exact ⟨a, b, h.lower, h.upper, le_rfl, h.ordered.le, le_rfl, h.fLower, h.fUpper, ha, hb, ha0,
    hb0, hsign⟩

end

/-! ## Bisection -/

section
variable {m : Library} {function : RealFunctionHp} {f : ℝ → ℝ} {p : Nat} {stopping : RootStoppingHp}
  {tolerances : Tolerances} {cancelled : Nat → Option String} {l₀ u₀ t : ℚ}

theorem bisectLoop_locates (hm : Reads m) (hf : SignExact m function f p)
    (hcont : ContinuousOn f (Icc (l₀ : ℝ) u₀))
    (ht : m.decimals.parse stopping.xTolerance.text = .ok (.number t))
    (htolerance : m.mpfr.Rounds p .down t tolerances.x) (remaining : Nat) {iteration : Nat}
    {bracket : Bracket} {localResiduals : Residuals} {record : RootApproximationHp} {l u a b : ℚ}
    (hfirst : 1 ≤ iteration) (hlast : iteration + remaining ≤ stopping.maximumIterations + 1)
    (hbracket : Bracketed m function p l₀ u₀ bracket l u a b)
    (h : bisectLoop m function p stopping tolerances cancelled remaining iteration bracket
      localResiduals = .ok record) :
    Locates m function f p stopping l₀ u₀ record ∧ Counted stopping record ∧
    record.newtonSteps = 0 := by
  induction remaining generalizing iteration bracket localResiduals l u a b with
  | zero => cases h
  | succ remaining ih =>
    obtain ⟨_, -, h⟩ := bind_eq_ok h
    obtain ⟨midpoint, hmidpoint, h⟩ := bind_eq_ok h
    obtain ⟨fMidpoint, hfMidpoint, h⟩ := bind_eq_ok h
    obtain ⟨assessed, hassess, h⟩ := bind_eq_ok h
    obtain ⟨c, hc, hlc, hcu⟩ :=
      hpBracketMidpoint_ok hm.correct hbracket.lower hbracket.upper hbracket.ordered hmidpoint
    cases assessed with
    | inl found =>
      cases h
      obtain ⟨hlocates, hiterations, hevaluations, hnewton, hlow, hhigh⟩ :=
        assess_record hm hf hcont hbracket hc hlc hcu hfMidpoint ht htolerance hassess
      dsimp only at hevaluations hnewton hlow hhigh
      exact ⟨hlocates, ⟨by omega, by omega, by omega, by omega⟩, hnewton⟩
    | inr residuals =>
      obtain ⟨w, hw⟩ := checkedHpEvaluate_finite hfMidpoint
      obtain ⟨l', u', a', b', hnext, -⟩ :=
        hbracket.narrow hc hlc hcu hfMidpoint hw (assess_continues hw hassess)
      exact ih (by omega) (by omega) hnext h

theorem bisect_locates (hm : Reads m) (hf : SignExact m function f p) {lower upper : MpfrFloat}
    (hl : (m.mpfr.set p .nearest lower).finite? = some l₀)
    (hu : (m.mpfr.set p .nearest upper).finite? = some u₀)
    (hcont : ContinuousOn f (Icc (l₀ : ℝ) u₀)) {record : RootApproximationHp}
    (h : bisectHpControlled m function lower upper p stopping cancelled = .ok record) :
    Locates m function f p stopping l₀ u₀ record ∧ Counted stopping record ∧
    record.newtonSteps = 0 := by
  obtain ⟨opened, hopen, h⟩ := bind_eq_ok h
  obtain ⟨tolerances, bracket⟩ := opened
  obtain ⟨-, l₁, u₁, t, hopened⟩ := openBracket_ok hm hopen
  have hlower := hopened.lower
  have hupper := hopened.upper
  rw [hopened.rounded.1, hl] at hlower
  rw [hopened.rounded.2, hu] at hupper
  cases hlower
  cases hupper
  dsimp only at h
  split at h
  · next hzero =>
    obtain ⟨hlocates, hcounted⟩ :=
      endpointRecord_locates hf hopened.lower hopened.fLower hzero le_rfl hopened.ordered.le h
    obtain ⟨text, -, h⟩ := bind_eq_ok h
    cases h
    exact ⟨hlocates, hcounted, rfl⟩
  · next hfLower =>
    split at h
    · next hzero =>
      obtain ⟨hlocates, hcounted⟩ :=
        endpointRecord_locates hf hopened.upper hopened.fUpper hzero hopened.ordered.le le_rfl h
      obtain ⟨text, -, h⟩ := bind_eq_ok h
      cases h
      exact ⟨hlocates, hcounted, rfl⟩
    · next hfUpper =>
      split at h
      · cases h
      · next hsign =>
        obtain ⟨a, b, hbracket⟩ := hopened.bracketed hfLower hfUpper hsign
        exact bisectLoop_locates hm hf hcont hopened.tolerance hopened.tolerated _ le_rfl
          (by omega) hbracket h

/-- A bisection that returns has located a root of every continuous function whose signs the
callback observes: the printed bracket is inside the rounded one, holds the printed midpoint and a
root, and is within the position tolerance unless the value at the midpoint is an observed zero. -/
theorem bisectHpControlled_locates (m : Library) (hm : Reads m) (function : RealFunctionHp)
    (f : ℝ → ℝ) (p : Nat) (hf : SignExact m function f p) (lower upper : MpfrFloat) (l₀ u₀ : ℚ)
    (hl : (m.mpfr.set p .nearest lower).finite? = some l₀)
    (hu : (m.mpfr.set p .nearest upper).finite? = some u₀)
    (hcont : ContinuousOn f (Icc (l₀ : ℝ) u₀)) (stopping : RootStoppingHp)
    (cancelled : Nat → Option String) (record : RootApproximationHp)
    (h : bisectHpControlled m function lower upper p stopping cancelled = .ok record) :
    Locates m function f p stopping l₀ u₀ record ∧ Counted stopping record ∧
    record.newtonSteps = 0 :=
  bisect_locates hm hf hl hu hcont h

end

/-! ## Safeguarded Newton -/

section
variable {m : Library} {function : RealFunctionHp} {f : ℝ → ℝ} {p : Nat} {stopping : RootStoppingHp}
  {tolerances : Tolerances} {cancelled : Nat → Option String} {l₀ u₀ t : ℚ}

/-- The next point is inside the bracket, Newton step or not. -/
theorem nextPoint_ok (hm : m.mpfr.Correct) {bracket : Bracket} {l u : ℚ}
    (hl : bracket.lower.finite? = some l)
    (hu : bracket.upper.finite? = some u) (hlu : l ≤ u) {x fx derivative next : MpfrFloat}
    {taken : Bool}
    (h : nextPoint m p bracket x fx derivative = .ok (next, taken)) :
    ∃ c, next.finite? = some c ∧ l ≤ c ∧ c ≤ u := by
  obtain ⟨center, hcenter, h⟩ := bind_eq_ok h
  obtain ⟨interiorLower, hinteriorLower, h⟩ := bind_eq_ok h
  obtain ⟨interiorUpper, hinteriorUpper, h⟩ := bind_eq_ok h
  obtain ⟨c, hc, hlc, hcu⟩ := hpBracketMidpoint_ok hm hl hu hlu hcenter
  obtain ⟨d, hd, hld, -⟩ := hpBracketMidpoint_ok hm hl hc hlc hinteriorLower
  obtain ⟨e, he, -, heu⟩ := hpBracketMidpoint_ok hm hc hu hcu hinteriorUpper
  split at h
  · obtain ⟨midpoint, hmidpoint, h⟩ := bind_eq_ok h
    cases h
    exact hpBracketMidpoint_ok hm hl hu hlu hmidpoint
  · next hinside =>
    cases h
    simp only [Bool.or_eq_true, not_or, Bool.not_eq_true, Bool.not_eq_false'] at hinside
    obtain ⟨⟨⟨-, hfinite⟩, hlow⟩, hhigh⟩ := hinside
    obtain ⟨v, hv⟩ := isFinite_iff.mp hfinite
    rw [Bool.eq_false_iff, ne_eq, le_finite hv hd, not_le] at hlow
    rw [Bool.eq_false_iff, ne_eq, le_finite he hv, not_le] at hhigh
    exact ⟨v, hv, hld.trans hlow.le, hhigh.le.trans heu⟩

theorem newtonLoop_locates (hm : Reads m) (hf : SignExact m function f p)
    (hcont : ContinuousOn f (Icc (l₀ : ℝ) u₀))
    (ht : m.decimals.parse stopping.xTolerance.text = .ok (.number t))
    (htolerance : m.mpfr.Rounds p .down t tolerances.x) (remaining : Nat)
    {iteration newtonSteps : Nat}
    {bracket : Bracket} {localResiduals : Residuals} {x : MpfrFloat} {record : RootApproximationHp}
    {l u a b c : ℚ}
    (hfirst : 1 ≤ iteration) (hlast : iteration + remaining ≤ stopping.maximumIterations + 1)
    (hsteps : newtonSteps + 1 ≤ iteration) (hbracket : Bracketed m function p l₀ u₀ bracket l u a b)
    (hx : x.finite? = some c) (hlc : l ≤ c) (hcu : c ≤ u)
    (h : newtonLoop m function p stopping tolerances cancelled remaining iteration bracket
      localResiduals x newtonSteps =
      .ok record) :
    Locates m function f p stopping l₀ u₀ record ∧ Counted stopping record := by
  induction remaining generalizing iteration newtonSteps bracket localResiduals x l u a b c with
  | zero => cases h
  | succ remaining ih =>
    obtain ⟨_, -, h⟩ := bind_eq_ok h
    obtain ⟨fx, hfx, h⟩ := bind_eq_ok h
    obtain ⟨assessed, hassess, h⟩ := bind_eq_ok h
    cases assessed with
    | inl found =>
      cases h
      obtain ⟨hlocates, hiterations, hevaluations, hnewton, hlow, hhigh⟩ :=
        assess_record hm hf hcont hbracket hx hlc hcu hfx ht htolerance hassess
      dsimp only at hevaluations hnewton hlow hhigh
      exact ⟨hlocates, by omega, by omega, by omega, by omega⟩
    | inr residuals =>
      obtain ⟨w, hw⟩ := checkedHpEvaluate_finite hfx
      obtain ⟨l', u', a', b', hnarrowed, -⟩ :=
        hbracket.narrow hx hlc hcu hfx hw (assess_continues hw hassess)
      obtain ⟨derivative, -, h⟩ := bind_eq_ok h
      obtain ⟨point, hnext, h⟩ := bind_eq_ok h
      obtain ⟨next, taken⟩ := point
      obtain ⟨d, hd, hld, hdu⟩ :=
        nextPoint_ok hm.correct hnarrowed.lower hnarrowed.upper hnarrowed.ordered hnext
      refine ih (by omega) (by omega) ?_ hnarrowed hd hld hdu h
      split <;> omega

theorem newton_locates (hm : Reads m) (hf : SignExact m function f p)
    {lower upper initial : MpfrFloat} {c₀ : ℚ}
    (hl : (m.mpfr.set p .nearest lower).finite? = some l₀)
    (hu : (m.mpfr.set p .nearest upper).finite? = some u₀)
    (hc : (m.mpfr.set p .nearest initial).finite? = some c₀)
    (hmono : (initial.lt lower = false → l₀ ≤ c₀) ∧ (upper.lt initial = false → c₀ ≤ u₀))
    (hcont : ContinuousOn f (Icc (l₀ : ℝ) u₀)) {record : RootApproximationHp}
    (h : safeguardedNewtonHpControlled m function lower upper initial p stopping cancelled =
      .ok record) :
    Locates m function f p stopping l₀ u₀ record ∧ Counted stopping record := by
  obtain ⟨opened, hopen, h⟩ := bind_eq_ok h
  obtain ⟨tolerances, bracket⟩ := opened
  obtain ⟨hinside, l₁, u₁, t, hopened⟩ := openBracket_ok hm hopen
  simp only [Bool.and_eq_true, Bool.not_eq_true'] at hinside
  have hlower := hopened.lower
  have hupper := hopened.upper
  rw [hopened.rounded.1, hl] at hlower
  rw [hopened.rounded.2, hu] at hupper
  cases hlower
  cases hupper
  dsimp only at h
  split at h
  · next hzero =>
    split at h
    · next hfLower =>
      exact endpointRecord_locates hf hopened.lower hopened.fLower hfLower le_rfl
        hopened.ordered.le h
    · next hfLower =>
      rw [Bool.not_eq_true] at hfLower
      rw [hfLower, Bool.false_or] at hzero
      exact endpointRecord_locates hf hopened.upper hopened.fUpper hzero hopened.ordered.le le_rfl h
  · next hnonzero =>
    rw [Bool.or_eq_true, not_or] at hnonzero
    split at h
    · cases h
    · next hsign =>
      obtain ⟨a, b, hbracket⟩ := hopened.bracketed hnonzero.1 hnonzero.2 hsign
      exact newtonLoop_locates hm hf hcont hopened.tolerance hopened.tolerated _ le_rfl
        (by omega) le_rfl hbracket hc
        (hmono.1 hinside.1.2) (hmono.2 hinside.2) h

/-- Safeguarded Newton locates a root as bisection does: whatever the derivative answers, the
iterates stay in the bracket, and a step that leaves its interior is replaced by the midpoint.
Rounding to nearest keeps the order of the initial point and the ends. -/
theorem safeguardedNewtonHpControlled_locates (m : Library) (hm : Reads m)
    (function : RealFunctionHp) (f : ℝ → ℝ)
    (p : Nat) (hf : SignExact m function f p) (lower upper initial : MpfrFloat) (l₀ u₀ c₀ : ℚ)
    (hl : (m.mpfr.set p .nearest lower).finite? = some l₀)
    (hu : (m.mpfr.set p .nearest upper).finite? = some u₀)
    (hc : (m.mpfr.set p .nearest initial).finite? = some c₀)
    (hmono : (initial.lt lower = false → l₀ ≤ c₀) ∧ (upper.lt initial = false → c₀ ≤ u₀))
    (hcont : ContinuousOn f (Icc (l₀ : ℝ) u₀)) (stopping : RootStoppingHp)
    (cancelled : Nat → Option String) (record : RootApproximationHp)
    (h : safeguardedNewtonHpControlled m function lower upper initial p stopping cancelled =
      .ok record) :
    Locates m function f p stopping l₀ u₀ record ∧ Counted stopping record :=
  newton_locates hm hf hl hu hc hmono hcont h

end

/-! ## Batches -/

section
variable {m : Library} {debug : String → String} {function : RealFunctionHp}

theorem mapM_id_ok {α : Type} {runs : List (Run α)} {results : List α}
    (h : runs.mapM id = .ok results) :
    results.length = runs.length ∧ ∀ (i : Nat) (result : α), results[i]? = some result →
    runs[i]? = some (.ok result) := by
  induction runs generalizing results with
  | nil =>
    cases h
    exact ⟨rfl, fun i result hi => by simp at hi⟩
  | cons run runs ih =>
    rw [List.mapM_cons] at h
    obtain ⟨first, hfirst, h⟩ := bind_eq_ok h
    obtain ⟨rest, hrest, h⟩ := bind_eq_ok h
    cases h
    obtain ⟨hlength, hall⟩ := ih hrest
    refine ⟨by simp [hlength], fun i result hi => ?_⟩
    cases i with
    | zero =>
      have hfirst' : run = .ok first := hfirst
      simpa [hfirst'] using hi
    | succ i => exact hall i result hi

theorem validateTasks_nodup : ∀ {tasks : List HpRootRefinementTask} {seen : List String} {u : Unit},
    validateTasks seen tasks = .ok u →
      (tasks.map (·.taskId)).Nodup ∧ ∀ task ∈ tasks, task.taskId ∉ seen := by
  intro tasks
  induction tasks with
  | nil => simp
  | cons task rest ih =>
    intro seen u h
    obtain ⟨_, hfresh, h⟩ := bind_eq_ok h
    obtain ⟨_, -, h⟩ := bind_eq_ok h
    obtain ⟨hnodup, hunseen⟩ := ih h
    have hnew := refuse_ok hfresh
    simp only [Bool.or_eq_false_iff, List.contains_eq_mem, decide_eq_false_iff_not] at hnew
    refine ⟨?_, ?_⟩
    · rw [List.map_cons, List.nodup_cons]
      refine ⟨fun hmem => ?_, hnodup⟩
      obtain ⟨other, hother, hid⟩ := List.mem_map.mp hmem
      exact hunseen other hother (hid ▸ List.mem_cons_self)
    · intro other hother
      rcases List.mem_cons.mp hother with rfl | hother
      · exact hnew.2
      · exact fun hmem => hunseen other hother (List.mem_cons_of_mem _ hmem)

/-- A parsed decimal is a value of its precision, which the change of precision keeps. -/
theorem parseHpDecimal_exact (hm : Reads m) {value : DecimalLiteral} {p : Nat} {x : MpfrFloat}
    (h : parseHpDecimal m value p = .ok x) :
    ∃ a, x.finite? = some a ∧ (m.mpfr.set p .nearest x).finite? = some a := by
  obtain ⟨_, -, h⟩ := bind_eq_ok h
  obtain ⟨_, -, h⟩ := bind_eq_ok h
  obtain ⟨parsed, -, h⟩ := bind_eq_ok h
  obtain ⟨_, -, h⟩ := bind_eq_ok h
  obtain ⟨_, hfinite, h⟩ := bind_eq_ok h
  cases h
  have hfinite := refuse_ok hfinite
  rw [Bool.or_eq_false_iff, Bool.not_eq_false'] at hfinite
  obtain ⟨a, ha⟩ := isFinite_iff.mp hfinite.1
  refine ⟨a, ha, ?_⟩
  cases parsed with
  | special negative nan =>
    exact absurd (isFinite_iff.mpr ⟨a, ha⟩) (by rw [hm.special]; exact Bool.false_ne_true)
  | number v =>
    obtain ⟨-, t, ht, hround⟩ := hm.number p .nearest v
    have hmem : (a : ℝ) ∈ m.mpfr.values p := by
      rw [Denotes.eq_coe ht ha] at hround
      exact hround.elim (fun hdown => (RoundsDown.mem hdown).1) fun hup => (RoundsUp.mem hup).1
    obtain ⟨-, u, hu, hset⟩ := hm.correct.set p .nearest ha
    have hexact : u = ((a : ℝ) : EReal) :=
      hset.elim (fun hdown => hdown.unique (roundsDown_self hmem)) fun hup =>
        hup.unique (roundsUp_self hmem)
    exact finite_of_denotes (hexact ▸ hu)

theorem refineTask_ok (hm : Reads m) {cancelled : Nat → Option String}
    {task : HpRootRefinementTask} {i : Nat}
    {outcome : HpRootRefinementOutcome}
    (h : refineTask m debug function cancelled task i = .ok outcome) :
    outcome.inputOrdinal = i ∧ outcome.taskId = task.taskId ∧ outcome.requestedPrecisionBits =
      task.precisionBits ∧
    ∃ lower upper l₀ u₀, parseHpDecimal m task.lower task.precisionBits = .ok lower ∧
      parseHpDecimal m task.upper task.precisionBits = .ok upper ∧ lower.finite? = some l₀ ∧
      upper.finite? = some u₀ ∧ ∀ f : ℝ → ℝ, SignExact m function f task.precisionBits →
        ContinuousOn f (Icc (l₀ : ℝ) u₀) →
          Locates m function f task.precisionBits task.stopping l₀ u₀ outcome.approximation := by
  obtain ⟨_, -, h⟩ := bind_eq_ok h
  obtain ⟨lower, hlower, h⟩ := bind_eq_ok h
  obtain ⟨upper, hupper, h⟩ := bind_eq_ok h
  obtain ⟨approximation, happroximation, h⟩ := bind_eq_ok h
  cases h
  obtain ⟨l₀, hl₀, hl⟩ := parseHpDecimal_exact hm hlower
  obtain ⟨u₀, hu₀, hu⟩ := parseHpDecimal_exact hm hupper
  refine ⟨rfl, rfl, rfl, lower, upper, l₀, u₀, hlower, hupper, hl₀, hu₀, fun f hf hcont => ?_⟩
  unfold approximateTask at happroximation
  cases hmethod : task.method with
  | bisection =>
    rw [hmethod] at happroximation
    exact (bisect_locates hm hf hl hu hcont happroximation).1
  | safeguardedNewton =>
    rw [hmethod] at happroximation
    cases htext : task.initial with
    | none =>
      rw [htext] at happroximation
      cases happroximation
    | some text =>
      rw [htext] at happroximation
      obtain ⟨initial, hparsed, happroximation⟩ := bind_eq_ok happroximation
      obtain ⟨c₀, hc₀, hc⟩ := parseHpDecimal_exact hm hparsed
      -- the rounded points are the parsed ones, so the bracket check orders them
      have hlow : initial.lt lower = false → l₀ ≤ c₀ := by
        rw [Bool.eq_false_iff, ne_eq, lt_finite hc₀ hl₀, not_lt]
        exact id
      have hhigh : upper.lt initial = false → c₀ ≤ u₀ := by
        rw [Bool.eq_false_iff, ne_eq, lt_finite hu₀ hc₀, not_lt]
        exact id
      exact (newton_locates hm hf hl hu hc ⟨hlow, hhigh⟩ hcont happroximation).1

/-- A batch that returns has one outcome for every task, in input order and under distinct
identifiers, and each locates a root in the bracket of its own task at its own precision and
tolerance. -/
theorem refineRootsParallelHp_locates (m : Library) (hm : Reads m) (debug : String → String)
    (function : RealFunctionHp)
    (tasks : List HpRootRefinementTask) (cancelled : Option String)
    (worker : Nat → Nat → Option String) (outcomes : List HpRootRefinementOutcome)
    (h : refineRootsParallelHp m debug function tasks cancelled worker = .ok outcomes) :
    outcomes.length = tasks.length ∧ (outcomes.map (·.taskId)).Nodup ∧
    ∀ (i : Nat) (task : HpRootRefinementTask) (outcome : HpRootRefinementOutcome), tasks[i]? =
      some task →
      outcomes[i]? = some outcome → outcome.inputOrdinal = i ∧ outcome.taskId = task.taskId ∧
      outcome.requestedPrecisionBits = task.precisionBits ∧
      ∃ lower upper l₀ u₀, parseHpDecimal m task.lower task.precisionBits = .ok lower ∧
        parseHpDecimal m task.upper task.precisionBits = .ok upper ∧ lower.finite? = some l₀ ∧
        upper.finite? = some u₀ ∧ ∀ f : ℝ → ℝ, SignExact m function f task.precisionBits →
          ContinuousOn f (Icc (l₀ : ℝ) u₀) →
            Locates m function f task.precisionBits task.stopping l₀ u₀ outcome.approximation := by
  obtain ⟨_, -, h⟩ := bind_eq_ok h
  obtain ⟨_, hvalid, h⟩ := bind_eq_ok h
  obtain ⟨_, -, h⟩ := bind_eq_ok h
  dsimp only at h
  split at h
  · cases h
  obtain ⟨hlength, hall⟩ := mapM_id_ok h
  rw [List.length_map, List.length_zipIdx] at hlength
  have heach : ∀ i task outcome, tasks[i]? = some task → outcomes[i]? = some outcome →
      refineTask m debug function (worker i) task i = .ok outcome := by
    intro i task outcome htask houtcome
    have hrun := hall i outcome houtcome
    rw [List.getElem?_map, List.getElem?_zipIdx, htask] at hrun
    simpa using hrun
  refine ⟨hlength, ?_, fun i task outcome htask houtcome =>
    refineTask_ok hm (heach i task outcome htask houtcome)⟩
  have hids : outcomes.map (·.taskId) = tasks.map (·.taskId) := by
    refine List.ext_getElem (by simp [hlength]) fun i hi hi' => ?_
    rw [List.length_map] at hi hi'
    rw [List.getElem_map, List.getElem_map]
    exact (refineTask_ok hm (heach i _ _ (List.getElem?_eq_getElem hi')
      (List.getElem?_eq_getElem hi))).2.1
  rw [hids]
  exact (validateTasks_nodup hvalid).1

end

/-! ## Runs on the identity

Between minus one and one, where the first midpoint is zero and the Newton step from one is
taken. -/

section
open Xcelerator.Foundations.BinaryRounding (Round rounded)
open Xcelerator.Numerics.DecimalPersistence (Conversions)
open Xcelerator.Numerics.MpfrRounded (computed computed_rounds primitives primitives_correct)
open Xcelerator.Root.IntervalNewton (sampleLibrary sampleConversions bytesOf)

def pointConversions (round : Round) : Conversions :=
  { sampleConversions round with
    toStringRadix := fun _ _ => bytesOf ['0']
    toSignStringExp := fun value _ =>
      if value.finite? = some 1 then (false, bytesOf ('1' :: List.replicate 31 '0'), some 1)
      else if value.finite? = some (-1) then (true, bytesOf ('1' :: List.replicate 31 '0'), some 1)
      else (false, [], none) }

noncomputable def pointLibrary : Library :=
  { sampleLibrary with decimals := { sampleLibrary.decimals with conversions := pointConversions } }

def pointFunction : RealFunctionHp where
  evaluate x _ :=
    if x.finite? ∈ [some (-1), some 0, some 1] then .ok x else
      .error (.evaluation "unexpected argument")
  derivative _ p := .ok (.ofInt p 1)

def pointStopping : RootStoppingHp := ⟨⟨"0.5".toList⟩, ⟨"0.5".toList⟩, 2⟩

def pointTasks : List HpRootRefinementTask :=
  [⟨"bisect", ⟨"-1".toList⟩, ⟨"1".toList⟩, none, 32, pointStopping, .bisection⟩,
    ⟨"newton", ⟨"-1".toList⟩, ⟨"1".toList⟩, some ⟨"1".toList⟩, 32, pointStopping,
      .safeguardedNewton⟩]

theorem pointLibrary_reads : Reads pointLibrary where
  correct := primitives_correct (-1000) 1000
  number _ _ _ := computed_rounds
  special _ _ _ _ := rfl

theorem point_runs :
    ((computed (-1000) 1000 32 .nearest (-1)).finite? = some (-1) ∧
      (computed (-1000) 1000 32 .nearest 0).finite? = some 0 ∧
      (computed (-1000) 1000 32 .nearest 1).finite? = some 1) ∧
    (bisectHpControlled pointLibrary pointFunction (.ofInt 32 (-1)) (.ofInt 32 1) 32 pointStopping
      fun _ => none).toOption.map (·.midpoint) = some ['0'] ∧
    (safeguardedNewtonHpControlled pointLibrary pointFunction (.ofInt 32 (-1)) (.ofInt 32 1)
    (.ofInt 32 1) 32
      pointStopping fun _ => none).toOption.map (·.newtonSteps) = some 1 ∧
    (refineRootsParallelHp pointLibrary String.quote pointFunction pointTasks none fun _ _ =>
      none).toOption.map
      (·.map (·.taskId)) = some ["bisect", "newton"] ∧
    (DecimalLiteral.spelled "-1".toList = -1 ∧ DecimalLiteral.spelled "1".toList = 1) := by
  decide +kernel

theorem computed_point {b : ℚ} (hb : b = -1 ∨ b = 0 ∨ b = 1) :
    (computed (-1000) 1000 32 .nearest b).finite? = some b := by
  rcases hb with rfl | rfl | rfl
  · exact point_runs.1.1
  · exact point_runs.1.2.1
  · exact point_runs.1.2.2

theorem point_rounded {x : MpfrFloat} {a : ℚ} (hx : x.finite? = some a)
    (ha : a = -1 ∨ a = 0 ∨ a = 1) :
    (pointLibrary.mpfr.set 32 .nearest x).finite? = some a := by
  have hset : pointLibrary.mpfr.set 32 .nearest x = computed (-1000) 1000 32 .nearest a := by
    change Numerics.MpfrRounded.liftBinary (-1000) 1000 (fun a _ => a) 32 .nearest x x = _
    unfold Numerics.MpfrRounded.liftBinary
    rw [hx]
  rw [hset]
  exact computed_point ha

theorem pointFunction_signExact : SignExact pointLibrary pointFunction id 32 := by
  intro x v a w hx hv hw
  obtain ⟨_, -, hv⟩ := bind_eq_ok hv
  obtain ⟨raw, hraw, hv⟩ := bind_eq_ok hv
  obtain ⟨value, hvalue, hv⟩ := bind_eq_ok hv
  obtain ⟨_, -, hv⟩ := bind_eq_ok hv
  cases hv
  obtain ⟨_, -, hvalue⟩ := bind_eq_ok hvalue
  cases hvalue
  have hcall := mapError_ok hraw
  unfold pointFunction at hcall
  dsimp only at hcall
  split at hcall
  · next hmem =>
    cases hcall
    rw [hx] at hmem
    have ha : a = -1 ∨ a = 0 ∨ a = 1 := by simpa using hmem
    rw [point_rounded hx ha] at hw
    cases hw
    simp
  · cases hcall

theorem ofInt_one : (pointLibrary.mpfr.set 32 .nearest (.ofInt 32 1)).finite? = some 1 :=
  point_rounded (by simp) (by simp)

theorem ofInt_minus_one :
    (pointLibrary.mpfr.set 32 .nearest (.ofInt 32 (-1))).finite? = some (-1) :=
  point_rounded (by simp) (by simp)

/-- A bisection that observes the root at its first midpoint. -/
theorem bisectHpControlled_locates_identity : ∃ record,
    bisectHpControlled pointLibrary pointFunction (.ofInt 32 (-1))
    (.ofInt 32 1) 32 pointStopping (fun _ => none) =
      .ok record ∧ record.midpoint = ['0'] ∧
    Locates pointLibrary pointFunction id 32 pointStopping (-1) 1 record ∧
    Counted pointStopping record ∧
      record.newtonSteps = 0 := by
  obtain ⟨record, hrecord, hmidpoint⟩ := Option.map_eq_some_iff.mp point_runs.2.1
  have hok := toOption_ok hrecord
  refine ⟨record, hok, hmidpoint, ?_⟩
  exact bisectHpControlled_locates pointLibrary pointLibrary_reads pointFunction id 32
    pointFunction_signExact _ _ (-1) 1
    ofInt_minus_one ofInt_one continuousOn_id pointStopping _ record hok

/-- A Newton run whose one step is accepted and lands on the root. -/
theorem safeguardedNewtonHpControlled_locates_identity : ∃ record,
    safeguardedNewtonHpControlled pointLibrary pointFunction (.ofInt 32 (-1)) (.ofInt 32 1)
    (.ofInt 32 1) 32
      pointStopping (fun _ => none) = .ok record ∧ record.newtonSteps = 1 ∧
    Locates pointLibrary pointFunction id 32 pointStopping (-1) 1 record ∧
    Counted pointStopping record := by
  obtain ⟨record, hrecord, hsteps⟩ := Option.map_eq_some_iff.mp point_runs.2.2.1
  have hok := toOption_ok hrecord
  refine ⟨record, hok, hsteps, ?_⟩
  exact safeguardedNewtonHpControlled_locates pointLibrary pointLibrary_reads pointFunction id 32
    pointFunction_signExact _ _ _ (-1) 1 1 ofInt_minus_one ofInt_one ofInt_one
    ⟨fun _ => by norm_num, fun _ => le_rfl⟩ continuousOn_id pointStopping _ record hok

theorem point_parsed {text : List Char} {x : MpfrFloat} {a b : ℚ}
    (h : parseHpDecimal pointLibrary ⟨text⟩ 32 = .ok x)
    (hx : x.finite? = some a) (htext : text ≠ []) (hspelled : DecimalLiteral.spelled text = b)
    (hb : b = -1 ∨ b = 0 ∨ b = 1) : a = b := by
  obtain ⟨_, -, h⟩ := bind_eq_ok h
  obtain ⟨_, -, h⟩ := bind_eq_ok h
  obtain ⟨parsed, hparsed, h⟩ := bind_eq_ok h
  obtain ⟨_, -, h⟩ := bind_eq_ok h
  obtain ⟨_, -, h⟩ := bind_eq_ok h
  cases h
  have hparse := mapError_ok hparsed
  change (if text = [] then _ else Except.ok (Parsed.number (DecimalLiteral.spelled text))) =
    _ at hparse
  rw [if_neg htext, hspelled] at hparse
  cases hparse
  change (computed (-1000) 1000 32 .nearest b).finite? = some a at hx
  exact Option.some.inj (hx.symm.trans (computed_point hb))

/-- A batch of the two, each of which locates the root. -/
theorem refineRootsParallelHp_locates_identity : ∃ bisected newton,
    refineRootsParallelHp pointLibrary String.quote pointFunction pointTasks none
      (fun _ _ => none) =
      .ok [bisected, newton] ∧
    Locates pointLibrary pointFunction id 32 pointStopping (-1) 1 bisected.approximation ∧
      Locates pointLibrary pointFunction id 32 pointStopping (-1) 1 newton.approximation := by
  obtain ⟨outcomes, houtcomes, -⟩ := Option.map_eq_some_iff.mp point_runs.2.2.2.1
  have hok := toOption_ok houtcomes
  obtain ⟨hlength, -, heach⟩ :=
    refineRootsParallelHp_locates pointLibrary pointLibrary_reads String.quote pointFunction
      pointTasks none _ outcomes hok
  obtain ⟨bisected, newton, rfl⟩ := List.length_eq_two.mp hlength
  have hlocates : ∀ (i : Nat) (task : HpRootRefinementTask) (outcome : HpRootRefinementOutcome),
      pointTasks[i]? = some task → [bisected, newton][i]? = some outcome → task.precisionBits = 32 →
      task.lower = ⟨"-1".toList⟩ → task.upper = ⟨"1".toList⟩ →
        Locates pointLibrary pointFunction id 32 task.stopping (-1) 1 outcome.approximation := by
    intro i task outcome htask houtcome hprecision hlower hupper
    obtain ⟨-, -, -, lower, upper, l₀, u₀, hl, hu, hl₀, hu₀, hlocates⟩ :=
      heach i task outcome htask houtcome
    rw [hprecision] at hl hu hlocates
    have hl₁ : l₀ = -1 := point_parsed (hlower ▸ hl) hl₀ (by decide) point_runs.2.2.2.2.1 (.inl rfl)
    have hu₁ : u₀ = 1 := point_parsed (hupper ▸ hu) hu₀ (by decide) point_runs.2.2.2.2.2
      (.inr (.inr rfl))
    rw [← hl₁, ← hu₁]
    exact hlocates id pointFunction_signExact continuousOn_id
  exact ⟨bisected, newton, hok, hlocates 0 _ _ rfl rfl rfl rfl rfl,
    hlocates 1 _ _ rfl rfl rfl rfl rfl⟩

end

end Xcelerator.Root.PointRefinement
