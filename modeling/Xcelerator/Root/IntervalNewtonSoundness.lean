import Mathlib
import Xcelerator.Foundations.NewtonOperator
import Xcelerator.Numerics.MpfrBallSoundness
import Xcelerator.Numerics.MpfrRounded
import Xcelerator.Root.IntervalNewton

/-! # Soundness of interval Newton certificates

One step keeps every root, has at most one, and has one where the image lies inside. The
replay and the iteration carry this to the printed decimals, which enclose the last
interval and are enclosed by the witness. -/

namespace Xcelerator.Root.IntervalNewton
open Set
open Xcelerator.Core (DecimalLiteral)
open Xcelerator.Foundations.BinaryRounding (Round rounded rounded_exact)
open Xcelerator.Foundations.DirectedRounding
open Xcelerator.Foundations.Machine (bind_eq_ok ok_bind mapError_ok toOption_ok)
open Xcelerator.Foundations.NewtonOperator
open Xcelerator.Numerics.DecimalPersistence (Conversions decimalStringRound)
open Xcelerator.Numerics.MpfrBall Xcelerator.Numerics.MpfrBallSoundness
open Xcelerator.Numerics.MpfrFloat

/-! ## Runs -/

theorem refuse_ok {condition : Bool} {error : RootError} {u : Unit}
    (h : refuse condition error = .ok u) :
    condition = false := by
  unfold refuse at h
  split at h
  · cases h
  · simpa using ‹¬ condition = true›

theorem checkEnclosure_ok {message : String} {p : Nat} {value : MpfrInterval} {u : Unit}
    (h : checkEnclosure message p value = .ok u) : Valid value ∧ value.precision = p := by
  obtain ⟨_, hvalid, h⟩ := bind_eq_ok h
  exact ⟨validate_valid (mapError_ok hvalid), bne_eq_false_iff_eq.mp (refuse_ok h)⟩

/-! ## Comparisons -/

section
variable {x y : MpfrFloat} {a b : ℚ}

theorem le_finite (hx : x.finite? = some a) (hy : y.finite? = some b) : x.le y = true ↔ a ≤ b := by
  rw [le_iff (denotes_of_finite hx) (denotes_of_finite hy), EReal.coe_le_coe_iff, Rat.cast_le]

theorem lt_finite (hx : x.finite? = some a) (hy : y.finite? = some b) : x.lt y = true ↔ a < b := by
  rw [lt_iff (denotes_of_finite hx) (denotes_of_finite hy), EReal.coe_lt_coe_iff, Rat.cast_lt]

theorem finite_larger (hx : x.finite? = some a) (hy : y.finite? = some b) :
    (MpfrInterval.larger x y).finite? = some (max a b) := by
  unfold MpfrInterval.larger
  split
  · rename_i hle
    rw [max_eq_left ((le_finite hy hx).mp hle), hx]
  · rename_i hle
    rw [max_eq_right (not_le.mp fun h => hle ((le_finite hy hx).mpr h)).le, hy]

theorem finite_smaller (hx : x.finite? = some a) (hy : y.finite? = some b) :
    (smaller x y).finite? = some (min a b) := by
  unfold smaller
  split
  · rename_i hle
    rw [min_eq_left ((le_finite hx hy).mp hle), hx]
  · rename_i hle
    rw [min_eq_right (not_le.mp fun h => hle ((le_finite hx hy).mpr h)).le, hy]

end

/-- The endpoints of a valid interval and what it contains. -/
theorem bounds_of_valid {a : MpfrInterval} (h : Valid a) : ∃ l u : ℚ, a.lower.finite? = some l ∧
    a.upper.finite? = some u ∧ l ≤ u ∧ ∀ x, Contains a x ↔ x ∈ Icc (l : ℝ) u := by
  obtain ⟨l, u, hl, hu, hlu⟩ := h.endpoints
  refine ⟨l, u, hl, hu, hlu, fun x => ?_⟩
  constructor
  · rintro ⟨l', u', hl', hu', hx⟩
    rw [hl] at hl'
    rw [hu] at hu'
    cases hl'
    cases hu'
    exact hx
  · intro hx
    exact ⟨l, u, hl, hu, hx⟩

theorem tryIntersection_some {a b next : MpfrInterval} (h : tryIntersection a b = .ok (some next)) :
    Valid next ∧ next.precision = a.precision ∧ ∀ x, Contains next x ↔ Contains a x ∧
    Contains b x := by
  obtain ⟨_, ha, h⟩ := bind_eq_ok h
  obtain ⟨_, hb, h⟩ := bind_eq_ok h
  obtain ⟨l, u, hl, hu, -, ha⟩ := bounds_of_valid (validate_valid ha)
  obtain ⟨l', u', hl', hu', -, hb⟩ := bounds_of_valid (validate_valid hb)
  split at h
  · rename_i hprecision
    split at h
    · rename_i hmeet
      cases h
      have hvalid : Valid ⟨MpfrInterval.larger a.lower b.lower, smaller a.upper b.upper,
        .inl hmeet⟩ := hmeet
      refine ⟨hvalid, ?_, ?_⟩
      · unfold MpfrInterval.precision at hprecision ⊢
        unfold MpfrInterval.larger
        dsimp only
        split
        · rfl
        · exact hprecision.symm
      · intro x
        rw [ha, hb]
        constructor
        · rintro ⟨l₀, u₀, hl₀, hu₀, hx⟩
          rw [finite_larger hl hl'] at hl₀
          rw [finite_smaller hu hu'] at hu₀
          cases hl₀
          cases hu₀
          push_cast at hx
          exact ⟨⟨(le_max_left _ _).trans hx.1, hx.2.trans (min_le_left _ _)⟩,
            (le_max_right _ _).trans hx.1, hx.2.trans (min_le_right _ _)⟩
        · rintro ⟨hxa, hxb⟩
          refine ⟨_, _, finite_larger hl hl', finite_smaller hu hu', ?_, ?_⟩
          · push_cast
            exact max_le hxa.1 hxb.1
          · push_cast
            exact le_min hxa.2 hxb.2
    · cases h
  · cases h

theorem isSubsetOf_contains {a b : MpfrInterval} (h : isSubsetOf a b = true) :
    Valid a ∧ Valid b ∧ ∀ x, Contains a x → Contains b x := by
  unfold isSubsetOf at h
  simp only [Bool.and_eq_true] at h
  obtain ⟨⟨⟨⟨-, ha⟩, hb⟩, hlower⟩, hupper⟩ := h
  have ha := isValid_iff.mp ha
  have hb := isValid_iff.mp hb
  obtain ⟨l, u, hl, hu, -, hina⟩ := bounds_of_valid ha
  obtain ⟨l', u', hl', hu', -, hinb⟩ := bounds_of_valid hb
  refine ⟨ha, hb, fun x hx => ?_⟩
  rw [hina] at hx
  rw [hinb]
  have hlower : (l' : ℝ) ≤ l := by exact_mod_cast (le_finite hl' hl).mp hlower
  have hupper : (u : ℝ) ≤ u' := by exact_mod_cast (le_finite hu hu').mp hupper
  exact ⟨hlower.trans hx.1, hx.2.trans hupper⟩

theorem interior_contains {a b : MpfrInterval} (h : isInteriorSubsetOf a b = true) {l u : ℚ}
    (hl : b.lower.finite? = some l) (hu : b.upper.finite? = some u) {x : ℝ} (hx : Contains a x) :
    x ∈ Ioo (l : ℝ) u := by
  unfold isInteriorSubsetOf at h
  simp only [Bool.and_eq_true] at h
  obtain ⟨⟨-, hlower⟩, hupper⟩ := h
  obtain ⟨l', u', hl', hu', hlx, hxu⟩ := hx
  have hlower : (l : ℝ) < l' := by exact_mod_cast (lt_finite hl hl').mp hlower
  have hupper : (u' : ℝ) < u := by exact_mod_cast (lt_finite hu' hu).mp hupper
  exact ⟨hlower.trans_le hlx, hxu.trans_lt hupper⟩

/-! ## One step -/

/-- The midpoint is a point of the interval. -/
theorem midpoint_spec {m : Primitives} (hm : m.Correct) {a midpoint : MpfrInterval} {l u : ℚ}
    (hl : a.lower.finite? = some l) (hu : a.upper.finite? = some u) (hlu : l ≤ u)
    (h : MpfrInterval.midpointPoint m a = .ok midpoint) : ∃ c :
    ℚ, Contains midpoint c ∧ l ≤ c ∧ c ≤ u := by
  obtain ⟨c, hc, hlc, hcu⟩ := clampedMidpoint_spec hm hl hu hlu
  obtain ⟨_, -, h⟩ := bind_eq_ok h
  have hnew := Numerics.Interval.expect_ok h
  obtain ⟨hlower, hupper, -⟩ := new_ok (toOption_ok hnew)
  exact ⟨c, ⟨c, c, by rw [hlower, hc], by rw [hupper, hc], le_rfl, le_rfl⟩, hlc, hcu⟩

/-- The callbacks enclose the values of one function, differentiable where its derivative is asked
for, and of its derivative. -/
structure Encloses (function : RealIntervalFunctionHp) (f f' : ℝ → ℝ) : Prop where
  derives : ∀ argument enclosure, function.derivativeInterval argument = .ok enclosure →
    ∀ x, Contains argument x → HasDerivAt f (f' x) x
  value : ∀ argument enclosure, function.evaluateInterval argument = .ok enclosure →
    Valid enclosure →
    ∀ x, Contains argument x → Contains enclosure (f x)
  derivative : ∀ argument enclosure, function.derivativeInterval argument = .ok enclosure →
    Valid enclosure →
    ∀ x, Contains argument x → Contains enclosure (f' x)

/-- What the image of an interval under the Newton operator says of the roots there. -/
structure Image (f f' : ℝ → ℝ) (current image : MpfrInterval) : Prop where
  simple : ∀ x, Contains current x → f' x ≠ 0
  keeps : ∀ x, Contains current x → f x = 0 → Contains image x
  unique : ∀ x y, Contains current x → Contains current y → f x = 0 → f y = 0 → x = y
  inside : isInteriorSubsetOf image current = true → ∃ x, Contains current x ∧ f x = 0

/-- One root, a simple one. -/
structure Isolates (f f' : ℝ → ℝ) (interval : MpfrInterval) : Prop where
  root : ∃ x, Contains interval x ∧ f x = 0
  unique : ∀ x y, Contains interval x → Contains interval y → f x = 0 → f y = 0 → x = y
  simple : ∀ x, Contains interval x → f' x ≠ 0

theorem Image.isolates {f f' : ℝ → ℝ} {current image : MpfrInterval} (h : Image f f' current image)
    (hinside : isInteriorSubsetOf image current = true) : Isolates f f' current :=
  ⟨h.inside hinside, h.unique, h.simple⟩

section
variable {m : Library} (hm : m.mpfr.Correct) {function : RealIntervalFunctionHp} {f f' : ℝ → ℝ}
  (hf : Encloses function f f')
include hm hf

theorem newtonImage_image {message : String} {p : Nat} {current image : MpfrInterval}
    (hvalid : Valid current)
    (h : newtonImage m message p function current = .ok (some image)) :
    Image f f' current image := by
  obtain ⟨derivative, hderivative, h⟩ := bind_eq_ok h
  obtain ⟨_, hchecked, h⟩ := bind_eq_ok h
  obtain ⟨hdvalid, -⟩ := checkEnclosure_ok hchecked
  split at h
  · cases h
  · rename_i hzero
    obtain ⟨midpoint, hmidpoint, h⟩ := bind_eq_ok h
    obtain ⟨value, hvalue, h⟩ := bind_eq_ok h
    obtain ⟨_, hvchecked, h⟩ := bind_eq_ok h
    obtain ⟨hvvalid, -⟩ := checkEnclosure_ok hvchecked
    obtain ⟨quotient, hquotient, h⟩ := bind_eq_ok h
    obtain ⟨_, hichecked, h⟩ := bind_eq_ok h
    obtain ⟨hivalid, -⟩ := checkEnclosure_ok hichecked
    cases h
    obtain ⟨l, u, hl, hu, hlu, hcurrent⟩ := bounds_of_valid hvalid
    obtain ⟨dl, du, hdl, hdu, -, hdcontains⟩ := bounds_of_valid hdvalid
    obtain ⟨c, hc, hlc, hcu⟩ := midpoint_spec hm hl hu hlu (mapError_ok hmidpoint)
    have hsign : OneSign f' l u := by
      rw [Bool.not_eq_true, ← Bool.not_eq_true, containsZero_iff hdvalid hdl hdu, not_and_or,
        not_le, not_le] at hzero
      rcases hzero with hpos | hneg
      · refine .inl fun ξ hξ => ?_
        have hin := (hdcontains _).mp
          (hf.derivative _ _ (mapError_ok hderivative) hdvalid ξ ((hcurrent ξ).mpr hξ))
        exact lt_of_lt_of_le (by exact_mod_cast hpos) hin.1
      · refine .inr fun ξ hξ => ?_
        have hin := (hdcontains _).mp
          (hf.derivative _ _ (mapError_ok hderivative) hdvalid ξ ((hcurrent ξ).mpr hξ))
        exact lt_of_le_of_lt hin.2 (by exact_mod_cast hneg)
    have hderives : ∀ x ∈ Icc (l : ℝ) u, HasDerivAt f (f' x) x := by
      intro x hx
      exact hf.derives _ _ (mapError_ok hderivative) x ((hcurrent x).mpr hx)
    have hcin : (c : ℝ) ∈ Icc (l : ℝ) u := ⟨by exact_mod_cast hlc, by exact_mod_cast hcu⟩
    have himage : ∀ ξ ∈ Icc (l : ℝ) u,
        Contains (MpfrInterval.sub m.mpfr midpoint quotient) (c - f c / f' ξ) := by
      intro ξ hξ
      have hnumerator := hf.value _ _ (mapError_ok hvalue) hvvalid c hc
      have hdenominator := hf.derivative _ _ (mapError_ok hderivative) hdvalid ξ
        ((hcurrent ξ).mpr hξ)
      exact hc.sub hm (hnumerator.div hm hdenominator (mapError_ok hquotient)) hivalid
    refine ⟨fun x hx => hsign.ne_zero ((hcurrent x).mp hx), ?_, ?_, ?_⟩
    · intro x hx hroot
      obtain ⟨ξ, hξ, heq⟩ := root_mem_image hderives hsign hcin ((hcurrent x).mp hx) hroot
      rw [heq]
      exact himage ξ hξ
    · intro x y hx hy
      exact root_unique hderives hsign ((hcurrent x).mp hx) ((hcurrent y).mp hy)
    · intro hinside
      obtain ⟨x, hx, hroot⟩ :=
        exists_root_of_image_subset hderives hsign (by exact_mod_cast hlu) hcin
        fun ξ hξ => interior_contains hinside hl hu (himage ξ hξ)
      exact ⟨x, (hcurrent x).mpr hx, hroot⟩

/-! ## Replay -/

/-- Every replayed step shrinks the interval and keeps its roots; the first one isolates. -/
theorem replay_sound {p steps : Nat} {first : Bool} {current final : MpfrInterval}
    (hvalid : Valid current) (h : replay m p function steps first current = .ok (some final)) :
    (∀ x, Contains final x → Contains current x) ∧
    (∀ x, Contains current x → f x = 0 → Contains final x) ∧
      (first = true → steps ≠ 0 → Isolates f f' current) := by
  induction steps generalizing first current with
  | zero =>
    cases h
    exact ⟨fun _ hx => hx, fun _ hx _ => hx, fun _ hne => absurd rfl hne⟩
  | succ steps ih =>
    obtain ⟨found, hfound, h⟩ := bind_eq_ok h
    cases found with
    | none => cases h
    | some image =>
      have himage := newtonImage_image hm hf hvalid hfound
      dsimp only at h
      split at h
      · cases h
      · rename_i hfirst
        obtain ⟨met, hmet, h⟩ := bind_eq_ok h
        cases met with
        | none => cases h
        | some next =>
          obtain ⟨hnext, -, hcontains⟩ := tryIntersection_some (mapError_ok hmet)
          obtain ⟨hshrinks, hkeeps, -⟩ := ih hnext h
          refine ⟨fun x hx => ((hcontains x).mp (hshrinks x hx)).1, ?_, ?_⟩
          · intro x hx hroot
            exact hkeeps x ((hcontains x).mpr ⟨hx, himage.keeps x hx hroot⟩) hroot
          · rintro rfl -
            exact himage.isolates (by simpa using hfirst)

end

/-! ## Printed decimals -/

/-- Correct rounding of what is read, and the printed digits on the side of their direction. -/
structure Library.Directed (m : Library) : Prop where
  correct : m.mpfr.Correct
  number : ∀ p round (v : ℚ), m.mpfr.Rounds p round v (m.decimals.withValRound p round (.number v))
  special : ∀ p round negative nan,
    (m.decimals.withValRound p round (.special negative nan)).isFinite = false
  down : ∀ {value : MpfrFloat} {a v : ℚ} {digits : Nat} {text : List Char}, value.finite? = some a →
    decimalText m value digits .down = .ok text → m.decimals.parse text = .ok (.number v) → v ≤ a
  up : ∀ {value : MpfrFloat} {a v : ℚ} {digits : Nat} {text : List Char}, value.finite? = some a →
    decimalText m value digits .up = .ok text → m.decimals.parse text = .ok (.number v) → a ≤ v

/-- The certificate prints an interval with exactly one root, a simple one. -/
def IsolatesPrinted (m : Library) (f f' : ℝ → ℝ) (certificate : IntervalRootCertificate) : Prop :=
  ∃ lower upper : ℚ, m.decimals.parse certificate.lower = .ok (.number lower) ∧
    m.decimals.parse certificate.upper = .ok (.number upper) ∧
    ∃ x ∈ Icc (lower : ℝ) upper, f x = 0 ∧ f' x ≠ 0 ∧ ∀ y ∈ Icc (lower : ℝ) upper, f y = 0 → y = x

section
variable {m : Library} (hm : m.Directed)
include hm

theorem parseBound_number {p : Nat} {text : List Char} {round : Round} {x : MpfrFloat}
    (h : parseBound m p text round = .ok x) (hx : x.isFinite = true) :
    ∃ v : ℚ, m.decimals.parse text = .ok (.number v) ∧ m.mpfr.Rounds p round v x := by
  unfold parseBound at h
  split at h
  · rename_i parsed hparsed
    cases h
    cases parsed with
    | number v => exact ⟨v, hparsed, hm.number p round v⟩
    | special negative nan =>
      rw [hm.special] at hx
      cases hx
  · cases h

/-- The printed interval lies between the replayed one and the witness. -/
theorem published_sound {certificate : IntervalRootCertificate} {original current : MpfrInterval}
    (h : published m certificate original current = .ok true) :
    ∃ lower upper : ℚ, m.decimals.parse certificate.lower = .ok (.number lower) ∧
      m.decimals.parse certificate.upper = .ok (.number upper) ∧
      (∀ x, Contains current x → x ∈ Icc (lower : ℝ) upper) ∧
      ∀ x ∈ Icc (lower : ℝ) upper, Contains original x := by
  obtain ⟨outerLower, houterLower, h⟩ := bind_eq_ok h
  obtain ⟨outerUpper, houterUpper, h⟩ := bind_eq_ok h
  obtain ⟨outer, houter, h⟩ := bind_eq_ok h
  obtain ⟨innerLower, hinnerLower, h⟩ := bind_eq_ok h
  obtain ⟨innerUpper, hinnerUpper, h⟩ := bind_eq_ok h
  split at h
  · cases h
  · obtain ⟨inward, hinward, h⟩ := bind_eq_ok h
    have hsubsets := Except.ok.inj h
    rw [Bool.and_eq_true] at hsubsets
    obtain ⟨hcurrent, horiginal⟩ := hsubsets
    obtain ⟨-, -, hinner⟩ := isSubsetOf_contains hcurrent
    obtain ⟨-, -, houterSub⟩ := isSubsetOf_contains horiginal
    obtain ⟨hol, hou, henclosing⟩ := new_ok (mapError_ok houter)
    obtain ⟨hil, hiu, hinwardEnclosing⟩ := new_ok (mapError_ok hinward)
    obtain ⟨lower, hlower, hdown⟩ := parseBound_number hm houterLower henclosing.1.1
    obtain ⟨upper, hupper, hup⟩ := parseBound_number hm houterUpper henclosing.1.2.1
    obtain ⟨lower', hlower', hlowerUp⟩ := parseBound_number hm hinnerLower hinwardEnclosing.1.1
    obtain ⟨upper', hupper', hupperDown⟩ := parseBound_number hm hinnerUpper hinwardEnclosing.1.2.1
    rw [hlower] at hlower'
    rw [hupper] at hupper'
    cases hlower'
    cases hupper'
    refine ⟨lower, upper, hlower, hupper, ?_, ?_⟩
    · intro x hx
      obtain ⟨l, u, hl, hu, hlx, hxu⟩ := hinner x hx
      rw [hil] at hl
      rw [hiu] at hu
      exact ⟨(le_rounds_up hlowerUp hl).trans hlx, hxu.trans (rounds_down_le hupperDown hu)⟩
    · intro x hx
      refine houterSub x (contains_of_bounds hol hou henclosing ⟨?_, ?_⟩)
      · intro a ha
        exact (rounds_down_le hdown ha).trans hx.1
      · intro b hb
        exact hx.2.trans (le_rounds_up hup hb)

theorem verify_sound {function : RealIntervalFunctionHp} {f f' : ℝ → ℝ}
    (hf : Encloses function f f')
    {certificate : IntervalRootCertificate}
    (h : verifyIntervalRootCertificateHp m function certificate = .ok true) :
    IsolatesPrinted m f f' certificate := by
  unfold verifyIntervalRootCertificateHp at h
  split at h
  · cases h
  · split at h
    · cases h
    · rename_i witness hwitness
      split at h
      · cases h
      · rename_i hreplayable
        obtain ⟨bounds, hbounds, h⟩ := bind_eq_ok h
        split at h
        · cases h
        · obtain ⟨original, horiginal, h⟩ := bind_eq_ok h
          obtain ⟨replayed, hreplayed, h⟩ := bind_eq_ok h
          cases replayed with
          | none => cases h
          | some current =>
            have hvalid := new_valid (mapError_ok horiginal)
            obtain ⟨-, hkeeps, hisolates⟩ := replay_sound hm.correct hf hvalid hreplayed
            have hsteps : witness.contractionSteps ≠ 0 := by
              simp only [replayable, Bool.not_eq_true, Bool.not_eq_false', Bool.and_eq_true,
                bne_iff_ne] at hreplayable
              exact hreplayable.1.1.1.1.2
            obtain ⟨⟨x, hx, hroot⟩, hunique, hsimple⟩ := hisolates rfl hsteps
            obtain ⟨lower, upper, hlower, hupper, hinner, houter⟩ := published_sound hm h
            refine ⟨lower, upper, hlower, hupper, x, hinner x (hkeeps x hx hroot), hroot,
              hsimple x hx, ?_⟩
            intro y hy hrooty
            exact hunique y x (houter y hy) hx hrooty hroot

end

/-! ## The iteration -/

section
variable (m : Library) (function : RealIntervalFunctionHp) (options : IntervalNewtonOptions)
    (initial : MpfrInterval)
  (bound : MpfrFloat)

/-- One contraction: the Newton image, the witness and the intersection. -/
def Turns (iteration : Nat) (state reached : NewtonState) : Prop :=
  ∃ image recorded next, newtonImage m callbackMismatch initial.precision function state.current =
    .ok (some image) ∧
    recordWitness m state iteration image = .ok recorded ∧
    tryIntersection recorded.current image = .ok (some next) ∧
      reached = recorded.contract next

/-- The state has a witness and is narrow enough for its printed width to be looked at. -/
def ready (state : NewtonState) : Bool :=
  state.uniquenessWitnessed && (width m state.current).le bound

/-- The states that the iteration starts a round from, with the rounds left. -/
inductive Loops : Nat → Nat → NewtonState → Prop where
  | start : Loops options.maximumIterations 1 ⟨initial, false, none⟩
  | next {remaining iteration : Nat} {state reached : NewtonState}
      (looped : Loops (remaining + 1) iteration state)
      (turned : Turns m function initial iteration state reached)
      (refused : ready m bound reached = true →
        certify m function options reached iteration = .ok none) :
      Loops remaining (iteration + 1) reached

/-- The state reaches the comparison of its printed width. -/
def Compared (iteration : Nat) (reached : NewtonState) : Prop :=
  ∃ remaining state, Loops m function options initial bound (remaining + 1) iteration state ∧
    Turns m function initial iteration state reached ∧ ready m bound reached = true

/-- The report of a state whose printed width the comparison admits, and which verifies. -/
structure Admitted (iteration : Nat) (reached : NewtonState) (report : IntervalRootCertificate) :
    Prop where
  printed : intervalRootCertificate m reached.current iteration .certifiedUnique true
    reached.witness certifiedReason =
    .ok report
  compared : ∃ width floor, publishedWidth m reached.current.precision report.lower report.upper =
    .ok width ∧
    parseBound m (displayPrecision reached.current.precision) options.widthTolerance.text .down =
      .ok floor ∧
    width.le floor = true
  verified : verifyIntervalRootCertificateHp m function report = .ok true

end

/-- Exactly one root in the whole initial interval, a simple one, and the certificate prints an
interval around it. -/
def CertifiedIn (m : Library) (f f' : ℝ → ℝ) (initial : MpfrInterval)
    (certificate : IntervalRootCertificate) : Prop :=
  ∃ lower upper : ℚ, m.decimals.parse certificate.lower = .ok (.number lower) ∧
    m.decimals.parse certificate.upper = .ok (.number upper) ∧
    ∃ x, Contains initial x ∧ f x = 0 ∧ f' x ≠ 0 ∧ x ∈ Icc (lower : ℝ) upper ∧
      ∀ y, Contains initial y → f y = 0 → y = x

structure Inv (m : Library) (f f' : ℝ → ℝ) (initial : MpfrInterval) (state : NewtonState) :
    Prop where
  valid : Valid state.current
  keeps : ∀ x, Contains initial x → f x = 0 → Contains state.current x
  within : ∀ x, Contains state.current x → Contains initial x
  witnessed : state.uniquenessWitnessed = true → ∃ x, Contains initial x ∧ f x = 0 ∧ f' x ≠ 0

/-- What a certificate of the iteration says. -/
structure Sound (m : Library) (function : RealIntervalFunctionHp) (f f' : ℝ → ℝ)
    (initial : MpfrInterval) (certificate : IntervalRootCertificate) : Prop where
  excluded : certificate.status = .excludedNoRoot → ∀ x, Contains initial x → f x ≠ 0
  certified : certificate.status = .certifiedUnique → CertifiedIn m f f' initial certificate
  verifies : certificate.status = .certifiedUnique →
    verifyIntervalRootCertificateHp m function certificate = .ok true

theorem certificate_status {m : Library} {interval : MpfrInterval} {iterations : Nat}
    {status : IntervalRootStatus}
    {witnessed : Bool} {witness : Option IntervalNewtonWitness} {reason : String}
    {certificate : IntervalRootCertificate}
    (h : intervalRootCertificate m interval iterations status witnessed witness reason =
      .ok certificate) :
    certificate.status = status ∧
      decimalText m interval.lower (certificateDigits interval.precision) .down =
        .ok certificate.lower ∧
      decimalText m interval.upper (certificateDigits interval.precision) .up =
        .ok certificate.upper := by
  obtain ⟨lower, hlower, h⟩ := bind_eq_ok h
  obtain ⟨upper, hupper, h⟩ := bind_eq_ok h
  cases h
  exact ⟨rfl, hlower, hupper⟩

section
variable {m : Library} {function : RealIntervalFunctionHp} {f f' : ℝ → ℝ} {initial : MpfrInterval}
  {options : IntervalNewtonOptions} {bound : MpfrFloat}

/-- A certificate that only reports an undecided interval. -/
theorem Sound.inconclusive {certificate : IntervalRootCertificate}
    (h : certificate.status = .inconclusive) :
    Sound m function f f' initial certificate := by
  refine ⟨?_, ?_, ?_⟩ <;> rw [h] <;> nofun

theorem recordWitness_ok {state state' : NewtonState} {iteration : Nat} {image : MpfrInterval}
    (h : recordWitness m state iteration image = .ok state') : state'.current = state.current ∧
      (state'.uniquenessWitnessed = true →
        state.uniquenessWitnessed = true ∨ isInteriorSubsetOf image state.current = true) := by
  unfold recordWitness at h
  split at h
  · rename_i hinside
    obtain ⟨interval, -, h⟩ := bind_eq_ok h
    cases h
    exact ⟨rfl, fun _ => .inr hinside⟩
  · cases h
    exact ⟨rfl, .inl⟩

theorem Inv.turns (hm : m.Directed) (hf : Encloses function f f') {state reached : NewtonState}
    (hinv : Inv m f f' initial state) {iteration : Nat}
    (h : Turns m function initial iteration state reached) :
    Inv m f f' initial reached := by
  obtain ⟨image, recorded, next, himage, hrecorded, hnext, rfl⟩ := h
  obtain ⟨hcurrent, hwitness⟩ := recordWitness_ok hrecorded
  rw [hcurrent] at hnext
  have hsaid := newtonImage_image hm.correct hf hinv.valid himage
  obtain ⟨hvalid, -, hcontains⟩ := tryIntersection_some hnext
  refine ⟨hvalid, ?_, ?_, ?_⟩
  · intro x hx hroot
    have hold := hinv.keeps x hx hroot
    exact (hcontains x).mpr ⟨hold, hsaid.keeps x hold hroot⟩
  · intro x hx
    exact hinv.within x ((hcontains x).mp hx).1
  · intro hwitnessed
    rcases hwitness hwitnessed with hbefore | hinside
    · exact hinv.witnessed hbefore
    · obtain ⟨x, hx, hroot⟩ := hsaid.inside hinside
      exact ⟨x, hinv.within x hx, hroot, hsaid.simple x hx⟩

/-- The printed bounds enclose the interval. -/
theorem printed_encloses (hm : m.Directed) {interval : MpfrInterval}
    {certificate : IntervalRootCertificate}
    (hlowerText : decimalText m interval.lower (certificateDigits interval.precision) .down =
      .ok certificate.lower)
    (hupperText : decimalText m interval.upper (certificateDigits interval.precision) .up =
      .ok certificate.upper)
    {lower upper : ℚ} (hlower : m.decimals.parse certificate.lower = .ok (.number lower))
    (hupper : m.decimals.parse certificate.upper = .ok (.number upper)) {x : ℝ}
    (hx : Contains interval x) :
    x ∈ Icc (lower : ℝ) upper := by
  obtain ⟨l, u, hl, hu, hlx, hxu⟩ := hx
  have hleft : (lower : ℝ) ≤ l := by exact_mod_cast hm.down hl hlowerText hlower
  have hright : (u : ℝ) ≤ upper := by exact_mod_cast hm.up hu hupperText hupper
  exact ⟨hleft.trans hlx, hxu.trans hright⟩

theorem certify_ok {state : NewtonState} {iteration : Nat} {report : IntervalRootCertificate} :
    certify m function options state iteration = .ok (some report) ↔
      Admitted m function options iteration state report := by
  constructor
  · intro h
    obtain ⟨report', hreport, h⟩ := bind_eq_ok h
    obtain ⟨width, hwidth, h⟩ := bind_eq_ok h
    obtain ⟨floor, hfloor, h⟩ := bind_eq_ok h
    split at h
    · rename_i hle
      obtain ⟨verified, hverified, h⟩ := bind_eq_ok h
      cases verified with
      | false => cases h
      | true =>
        cases h
        exact ⟨hreport, ⟨width, floor, hwidth, hfloor, hle⟩, hverified⟩
    · cases h
  · rintro ⟨hreport, ⟨width, floor, hwidth, hfloor, hle⟩, hverified⟩
    unfold certify
    rw [hreport, ok_bind, hwidth, ok_bind, hfloor, ok_bind, if_pos hle, hverified]
    rfl

theorem Admitted.sound (hm : m.Directed) (hf : Encloses function f f') {state : NewtonState}
    (hinv : Inv m f f' initial state) (hwitnessed : state.uniquenessWitnessed = true)
    {iteration : Nat}
    {report : IntervalRootCertificate} (h : Admitted m function options iteration state report) :
    Sound m function f f' initial report := by
  obtain ⟨hstatus, hlowerText, hupperText⟩ := certificate_status h.printed
  obtain ⟨lower, upper, hlower, hupper, x₀, hx₀, -, -, hunique⟩ := verify_sound hm hf h.verified
  refine ⟨fun hexcluded => ?_, fun _ => ?_, fun _ => h.verified⟩
  · rw [hstatus] at hexcluded
    cases hexcluded
  · have hprinted : ∀ y, Contains initial y → f y = 0 → y ∈ Icc (lower : ℝ) upper := by
      intro y hy hroot
      exact printed_encloses hm hlowerText hupperText hlower hupper (hinv.keeps y hy hroot)
    obtain ⟨x, hx, hroot, hsimple⟩ := hinv.witnessed hwitnessed
    refine ⟨lower, upper, hlower, hupper, x, hx, hroot, hsimple, hprinted x hx hroot, ?_⟩
    intro y hy hrooty
    rw [hunique y (hprinted y hy hrooty) hrooty, hunique x (hprinted x hx hroot) hroot]

/-- A round goes on with the contracted state, unless that is certified. -/
theorem newtonLoop_turns {remaining iteration : Nat} {state reached : NewtonState}
    (hturns : Turns m function initial iteration state reached) :
    newtonLoop m function options initial.precision bound (remaining + 1) iteration state =
      if ready m bound reached = true then (do
        match ← certify m function options reached iteration with
        | some report => return report
        | none => newtonLoop m function options initial.precision bound remaining
                    (iteration + 1) reached)
      else newtonLoop m function options initial.precision bound remaining
          (iteration + 1) reached := by
  obtain ⟨image, recorded, next, himage, hrecorded, hnext, rfl⟩ := hturns
  rw [newtonLoop, himage, ok_bind]
  dsimp only
  rw [hrecorded, ok_bind, hnext]
  rfl

/-- The run continues from every state that starts a round. -/
theorem Loops.run {remaining iteration : Nat} {state : NewtonState}
    (h : Loops m function options initial bound remaining iteration state) :
    newtonLoop m function options initial.precision bound options.maximumIterations 1
      ⟨initial, false, none⟩ =
      newtonLoop m function options initial.precision bound remaining iteration state := by
  induction h with
  | start => rfl
  | next looped turned refused ih =>
    rw [ih, newtonLoop_turns turned]
    split
    · rename_i hready
      rw [refused hready, ok_bind]
    · rfl

theorem Compared.run {iteration : Nat} {reached : NewtonState} {report : IntervalRootCertificate}
    (h : Compared m function options initial bound iteration reached)
    (hadmitted : Admitted m function options iteration reached report) :
    newtonLoop m function options initial.precision bound options.maximumIterations 1
      ⟨initial, false, none⟩ =
      .ok report := by
  obtain ⟨remaining, state, hloops, hturns, hready⟩ := h
  rw [hloops.run, newtonLoop_turns hturns, if_pos hready, certify_ok.mpr hadmitted]
  rfl

end

section
open Xcelerator.Numerics.MpfrRounded
  (placed computed computed_rounds finite?_placed primitives primitives_correct)

def offset : ℚ := 1 / 2 ^ 33

/-- The digits of the bounds that the runs print. -/
def sampleDigits (round : Round) (a : ℚ) : Option (Bool × List Char × Int) :=
  if a = -offset then some (true, "11641532182693481445312500000000".toList, -9)
  else if a = 1 / 2 - offset ∧ round = .up then
    some (false, "49999999988358467817306518554688".toList, 0)
  else if a = -1 / 4 then some (true, ['2', '5'], 0)
  else if a = 1 / 4 then some (false, ['2', '5'], 0)
  else if a = -1 then some (true, ['1'], 1)
  else if a = 1 then some (false, ['1'], 1)
  else none

def bytesOf (text : List Char) : List UInt8 := text.map fun c => c.toNat.toUInt8

def sampleConversions (round : Round) : Conversions where
  expMin := -1000
  expMax := 1000
  toStringRadix _ _ := []
  toSignStringExp value _ :=
    match value.finite?.bind (sampleDigits round) with
    | some (negative, digits, exponent) => (negative, bytesOf digits, some exponent)
    | none => (false, [], none)
  parseWithVal _ _ := none

noncomputable def sampleLibrary : Library where
  mpfr := primitives (-1000) 1000
  decimals :=
    { conversions := sampleConversions
      parse := fun text => if text = [] then .error "no digits" else
        .ok (.number (DecimalLiteral.spelled text))
      withValRound := fun p round parsed =>
        match parsed with
        | .number v => computed (-1000) 1000 p round v
        | .special _ _ => .nan p }
  zeroExponent := 0

def sampleOptions : IntervalNewtonOptions := ⟨⟨['0', '.', '5']⟩, 1⟩

/-- The number that the text of a normal value denotes. -/
noncomputable def printed (round : Round) (a : ℚ) (h : a ≠ 0) : Option ℚ :=
  (decimalText sampleLibrary ⟨32, .normal a h⟩ 0 round).toOption.map DecimalLiteral.spelled

theorem rounded_scaled {v : ℚ} (z k : Int) (hz : z.natAbs.size ≤ 32) (hv : v = z * 2 ^ k) :
    rounded 32 .nearest v = v := by
  rw [hv]
  exact rounded_exact hz .nearest k

instance : DecidableEq MpfrInterval := fun a b =>
  decidable_of_iff (a.lower = b.lower ∧ a.upper = b.upper) (by cases a; cases b; simp)

end
end Xcelerator.Root.IntervalNewton
