import Mathlib
import Xcelerator.Numerics.ExactProductSoundness
import Xcelerator.Numerics.RationalIntervalProduct

/-! # The contraction contains every product

A column lies in its stored midpoint plus or minus its radius wherever the nearest
rounding has put the midpoint, because the radius is the larger of the two distances
to the endpoints, rounded up. The midpoint product is exact and the radius product
an upper bound, so the last directed steps enclose. -/

namespace Xcelerator.Numerics.RationalIntervalProductSoundness
open Xcelerator.Foundations Machine BinaryRounding
open Xcelerator.Numerics.ModularProduct (ProductBackend ProductLimits)
open Xcelerator.Numerics.ResidueTreeSoundness (Bezout)
open Xcelerator.Numerics.ExactProduct (MpfrFloat ExponentRange Engine PreparedProduct ProductShape
  ExactProductLimits prepare withExactOutput cpuProduct modularProduct)
open Xcelerator.Numerics.ExactProductSoundness
  (Admitted Sound Returns Entry Aligns stored dyadicDot rounds_entry
  exactOutput_entry mapM_eq_ok datumOf datumOf_value reference reference_correct sampleEngine
    defaultRange double)
open Xcelerator.Numerics.RationalIntervalProduct

/-! ## Values -/

theorem admitted_ok {condition : Bool} {message : String} {u : Unit}
    (h : admitted condition message = .ok u) :
    condition = true := by
  unfold admitted at h
  split at h
  · assumption
  · cases h

theorem value_of_isFinite {x : MpfrFloat} (h : x.isFinite = true) : ∃ v, x.value = some v := by
  unfold MpfrFloat.isFinite at h
  unfold MpfrFloat.value
  split at h
  · cases h
  · cases h
  · exact ⟨_, rfl⟩
  · exact ⟨_, rfl⟩

theorem rank_of_value {x : MpfrFloat} {v : ℚ} (h : x.value = some v) :
    rank x = some (toLex (0, v)) := by
  obtain ⟨precision, datum⟩ := x
  cases datum with
  | nan => cases h
  | infinity s => cases h
  | zero s =>
    cases h
    rfl
  | normal n =>
    cases h
    rfl

theorem gt_iff {x y : MpfrFloat} {a b : ℚ} (hx : x.value = some a) (hy : y.value = some b) :
    gt x y = true ↔ b < a := by
  simp only [gt, rank_of_value hx, rank_of_value hy, decide_eq_true_eq, Prod.Lex.toLex_lt_toLex]
  simp

/-- No finite value exceeds the positive infinity. -/
theorem gt_infinity {x y : MpfrFloat} {a : ℚ} (hx : x.value = some a)
    (hy : y.datum = .infinity false) :
    gt x y = false ∧ gt y x = true := by
  have hrank : rank y = some (toLex (1, 0)) := by simp [rank, hy]
  constructor
  · simp [gt, rank_of_value hx, hrank, Prod.Lex.toLex_lt_toLex]
  · simp [gt, rank_of_value hx, hrank, Prod.Lex.toLex_lt_toLex]

theorem isFinite_infinity {x : MpfrFloat} {s : Bool} (h : x.datum = .infinity s) :
    x.isFinite = false := by
  simp [MpfrFloat.isFinite, h]

theorem roundedUp_finite {exact : ℚ} {x : MpfrFloat} (h : RoundedUp exact x)
    (hx : x.isFinite = true) :
    ∃ v, x.value = some v ∧ exact ≤ v := by
  rcases h with h | h
  · rw [isFinite_infinity h] at hx
    cases hx
  · exact h

theorem roundedDown_finite {exact : ℚ} {x : MpfrFloat} (h : RoundedDown exact x)
    (hx : x.isFinite = true) :
    ∃ v, x.value = some v ∧ v ≤ exact := by
  rcases h with h | h
  · rw [isFinite_infinity h] at hx
    cases hx
  · exact h

theorem absolute_value {x : MpfrFloat} {a : ℚ} (h : x.value = some a) :
    (absolute x).value = some |a| := by
  obtain ⟨precision, datum⟩ := x
  cases datum with
  | nan => cases h
  | infinity s => cases h
  | zero s =>
    cases h
    exact congrArg some abs_zero.symm
  | normal n =>
    cases h
    refine congrArg some ?_
    rw [ExactProductSoundness.abs_value]
    simp [ExactProduct.Normal.value, ExactProduct.Normal.sign]

/-! ## Stored matrices -/

theorem stored_forall₂ {numerators : List Int} {left : List MpfrFloat}
    (h : List.Forall₂ (fun (a : Int) (x : MpfrFloat) => x.value = some (a : ℚ)) numerators left)
    (k : Nat) :
    stored left k = numerators.getD k 0 := by
  induction h generalizing k with
  | nil => simp [stored]
  | cons hx _ ih =>
    cases k with
    | zero => simp [stored, hx]
    | succ k => simpa [stored] using ih k

theorem stored_absolute {numerators : List Int} {left : List MpfrFloat}
    (h : List.Forall₂ (fun (a : Int) (x : MpfrFloat) => x.value = some (a : ℚ)) numerators left)
    (k : Nat) :
    stored (left.map absolute) k = |(numerators.getD k 0 : ℚ)| := by
  induction h generalizing k with
  | nil => simp [stored]
  | cons hx _ ih =>
    cases k with
    | zero => simp [stored, absolute_value hx]
    | succ k => simpa [stored] using ih k

theorem stored_of_getElem? {values : List MpfrFloat} {k : Nat} {x : MpfrFloat} {v : ℚ}
    (hx : values[k]? = some x) (hv : x.value = some v) : stored values k = v := by
  simp [stored, hx, hv]

theorem forall₂_getElem? {α β : Type} {R : α → β → Prop} {xs : List α} {ys : List β}
    (h : List.Forall₂ R xs ys)
    {k : Nat} {x : α} (hx : xs[k]? = some x) : ∃ y, ys[k]? = some y ∧ R x y := by
  obtain ⟨hlt, rfl⟩ := List.getElem?_eq_some_iff.mp hx
  have hlt' : k < ys.length := h.length_eq ▸ hlt
  exact ⟨ys[k], List.getElem?_eq_getElem hlt', h.get hlt hlt'⟩

/-- What preparation keeps of its arguments. -/
theorem prepare_plan {mpfr : ExactProduct.Mpfr} {range : ExponentRange}
    {left right : List MpfrFloat}
    {shape : ProductShape} {precisionBits : Nat} {limits : ExactProductLimits} {p : PreparedProduct}
    (h : prepare mpfr range left right shape precisionBits limits = .ok p) :
    p.plan.shape = shape ∧ p.exponentRange = range := by
  unfold prepare at h
  obtain ⟨_, _, h⟩ := bind_eq_ok h
  obtain ⟨_, _, h⟩ := bind_eq_ok h
  obtain ⟨_, _, h⟩ := bind_eq_ok h
  obtain ⟨_, _, h⟩ := bind_eq_ok h
  obtain ⟨_, _, h⟩ := bind_eq_ok h
  obtain ⟨_, _, h⟩ := bind_eq_ok h
  obtain ⟨_, _, h⟩ := bind_eq_ok h
  obtain ⟨_, _, h⟩ := bind_eq_ok h
  obtain ⟨_, _, h⟩ := bind_eq_ok h
  obtain ⟨_, _, h⟩ := bind_eq_ok h
  obtain ⟨_, _, h⟩ := bind_eq_ok h
  obtain ⟨_, _, h⟩ := bind_eq_ok h
  obtain ⟨_, _, h⟩ := bind_eq_ok h
  obtain ⟨_, _, h⟩ := bind_eq_ok h
  obtain ⟨_, _, h⟩ := bind_eq_ok h
  obtain ⟨_, _, h⟩ := bind_eq_ok h
  obtain ⟨_, _, h⟩ := bind_eq_ok h
  obtain ⟨_, _, h⟩ := bind_eq_ok h
  obtain ⟨_, _, h⟩ := bind_eq_ok h
  obtain ⟨_, _, h⟩ := bind_eq_ok h
  cases h
  exact ⟨rfl, rfl⟩

/-! ## The steps -/

section
variable {arithmetic : Arithmetic} (ha : arithmetic.Directed) {engine : Engine}
    {range : ExponentRange}

include ha in
theorem fromInteger_value (hrange : range.lower ≤ 1) {a : Int} {x : MpfrFloat} {v : ℚ}
    (h : fromInteger arithmetic range a = .ok x) (hv : x.value = some v) : v = a := by
  unfold fromInteger at h
  obtain ⟨bits, hbits, h⟩ := bind_eq_ok h
  have hsize : bits = a.natAbs.size := by
    have hbits := mapError_ok hbits
    unfold unsigned at hbits
    split at hbits <;> cases hbits
    rfl
  split at h
  · rename_i hprecision
    cases h
    exact ha.integer hrange hprecision.1 hprecision.2 (hsize ▸ le_max_left bits 2) hv
  · cases h

include ha in
/-- The radius reaches both endpoints from wherever the midpoint is. -/
theorem midpointRadius_covers {precision : Nat} {interval : MpfrInterval}
    {pair : MpfrFloat × MpfrFloat} {lo hi : ℚ}
    (h : midpointRadius arithmetic range precision interval = .ok pair)
    (hlo : interval.lower.value = some lo) (hhi : interval.upper.value = some hi) :
    ∃ c r, pair.1.value = some c ∧ pair.2.value = some r ∧ c - lo ≤ r ∧ hi - c ≤ r := by
  unfold midpointRadius at h
  obtain ⟨_, hcenter, h⟩ := bind_eq_ok h
  obtain ⟨_, hradius, h⟩ := bind_eq_ok h
  cases h
  obtain ⟨c, hc⟩ := value_of_isFinite (admitted_ok hcenter)
  have hfinite := (Bool.and_eq_true_iff.mp (admitted_ok hradius)).1
  have hbelow := @Arithmetic.Directed.sub_up _ ha range precision _ _ _ _ hc hlo
  have habove := @Arithmetic.Directed.sub_up _ ha range precision _ _ _ _ hhi hc
  generalize hb : arithmetic.sub range precision _ interval.lower .up = below at hbelow hfinite ⊢
  generalize ha' : arithmetic.sub range precision interval.upper _ .up = above at habove hfinite ⊢
  refine ⟨c, ?_⟩
  dsimp only at hfinite ⊢
  split at hfinite
  · rename_i hgt
    obtain ⟨b, hb, hle⟩ := roundedUp_finite hbelow hfinite
    rcases habove with hinf | ⟨a, ha, hle'⟩
    · rw [(gt_infinity hb hinf).1] at hgt
      cases hgt
    · have hlt := (gt_iff hb ha).mp hgt
      rw [if_pos hgt]
      exact ⟨b, hc, hb, hle, hle'.trans hlt.le⟩
  · rename_i hgt
    obtain ⟨a, ha, hle⟩ := roundedUp_finite habove hfinite
    rcases hbelow with hinf | ⟨b, hb, hle'⟩
    · exact absurd (gt_infinity ha hinf).2 hgt
    · have hlt : b ≤ a := not_lt.mp fun hlt => hgt ((gt_iff hb ha).mpr hlt)
      rw [if_neg hgt]
      exact ⟨a, hc, ha, hle'.trans hlt, hle⟩

include ha in
/-- The last directed steps. -/
theorem enclose_covers {denominator : Int} (hpositive : 0 < denominator) {precision : Nat}
    {entry : MpfrFloat × MpfrFloat} {interval : MpfrInterval} {c r : ℚ}
    (h : enclose arithmetic range denominator precision entry = .ok interval)
    (hc : entry.1.value = some c) (hr : entry.2.value = some r) :
    ∃ lo hi, interval.lower.value = some lo ∧ interval.upper.value = some hi ∧
      lo ≤ (c - r) / denominator ∧ (c + r) / denominator ≤ hi := by
  have hne : denominator ≠ 0 := hpositive.ne'
  have hq : (0 : ℚ) < denominator := Int.cast_pos.mpr hpositive
  have hnew := mapError_ok h
  unfold MpfrInterval.new at hnew
  split at hnew
  · cases hnew
  · rename_i hfinite
    split at hnew
    · cases hnew
    · cases hnew
      simp only [Bool.or_eq_true, Bool.not_eq_true', not_or, Bool.not_eq_false] at hfinite
      obtain ⟨⟨hlower, hupper⟩, -⟩ := hfinite
      have hdown := @Arithmetic.Directed.sub_down _ ha range precision _ _ _ _ hc hr
      have hup := @Arithmetic.Directed.add_up _ ha range precision _ _ _ _ hc hr
      rcases hdown with hinf | ⟨l, hl, hle⟩
      · rw [ha.div_infinity hinf hne] at hlower
        cases hlower
      · rcases hup with hinf | ⟨u, hu, hle'⟩
        · rw [ha.div_infinity hinf hne] at hupper
          cases hupper
        · obtain ⟨lo, hlo, hlo'⟩ := roundedDown_finite (ha.div_down hl hne) hlower
          obtain ⟨hi, hhi, hhi'⟩ := roundedUp_finite (ha.div_up hu hne) hupper
          refine ⟨lo, hi, hlo, hhi, hlo'.trans ?_, le_trans ?_ hhi'⟩
          · exact div_le_div_of_nonneg_right hle hq.le
          · exact div_le_div_of_nonneg_right hle' hq.le

theorem product_returns {prepared : PreparedProduct} {round : Round} {options : ContractionOptions}
    {productBudget : Nat} {out : List MpfrFloat}
    (h : product arithmetic engine range prepared round options productBudget = .ok out) :
    Returns arithmetic.toMpfr engine prepared round out := by
  have h := mapError_ok h
  split at h
  · exact .cpu h
  · exact .modular h

theorem returns_length (hb : Bezout engine.extendedGcd) (hd : engine.device.Exact)
    {p : PreparedProduct} {round : Round}
    {out : List MpfrFloat} (h : Returns arithmetic.toMpfr engine p round out) :
    out.length = p.plan.shape.rows * p.plan.shape.cols := by
  obtain ⟨-, -, hall⟩ := ExactProductSoundness.roundIntegerProduct_ok (h.rounds hb hd)
  rw [← hall.length_eq, ExactProductSoundness.cpuIntegerProduct_length]

theorem checkArguments_positive {mpfr : ExactProduct.Mpfr} {numerators : List Int}
    {denominator : Int}
    {columns : List MpfrInterval} {shape : ProductShape} {precision : Nat}
    {options : ContractionOptions} {u : Unit}
    (h : checkArguments mpfr numerators denominator columns shape precision options = .ok u) :
    0 < denominator := by
  unfold checkArguments at h
  obtain ⟨_, _, h⟩ := bind_eq_ok h
  obtain ⟨_, _, h⟩ := bind_eq_ok h
  obtain ⟨_, hpositive, _⟩ := bind_eq_ok h
  unfold RationalIntervalProduct.ensure at hpositive
  split at hpositive
  · rename_i hpos
    exact of_decide_eq_true hpos
  · cases hpositive

/-- What a completed contraction has computed on the way. -/
structure Completed (arithmetic : Arithmetic) (engine : Engine) (range : ExponentRange)
    (numerators : List Int)
    (denominator : Int) (columns : List MpfrInterval) (shape : ProductShape) (precision : Nat)
    (values : List MpfrInterval) (left : List MpfrFloat) (pairs : List (MpfrFloat × MpfrFloat))
    (centerProduct radiusProduct : List MpfrFloat) : Prop where
  positive : 0 < denominator
  left_converted : List.Forall₂ (fun a x => fromInteger arithmetic range a = .ok x) numerators left
  columns_split : List.Forall₂ (fun x pair =>
    midpointRadius arithmetic range precision x = .ok pair) columns pairs
  center : ∃ limits budget p q, prepare arithmetic.toMpfr range left
    (pairs.map Prod.fst) shape precision limits = .ok p ∧
    withExactOutput arithmetic.toMpfr p budget = .ok q ∧
    Returns arithmetic.toMpfr engine q .nearest centerProduct
  radius : ∃ limits p, prepare arithmetic.toMpfr range (left.map absolute)
    (pairs.map Prod.snd) shape precision limits = .ok p ∧
    Returns arithmetic.toMpfr engine p .up radiusProduct
  enclosed : List.Forall₂ (fun entry x =>
    enclose arithmetic range denominator precision entry = .ok x)
    (centerProduct.zip radiusProduct) values

theorem contract_completed {T : Type} {workers : List ExponentRange} {run : Option (SharedRun T)}
    {numerators : List Int} {denominator : Int} {columns : List MpfrInterval} {shape : ProductShape}
    {precision : Nat} {options : ContractionOptions} {result : Contraction T}
    (h : contract arithmetic engine range workers run numerators denominator columns shape precision
      options = .ok result) :
    ∃ left pairs centerProduct radiusProduct, Completed arithmetic engine range numerators
      denominator columns shape
      precision result.values left pairs centerProduct radiusProduct := by
  unfold contract at h
  obtain ⟨_, _, h⟩ := bind_eq_ok h
  obtain ⟨_, harguments, h⟩ := bind_eq_ok h
  obtain ⟨retained, _, h⟩ := bind_eq_ok h
  obtain ⟨reservation, _, h⟩ := bind_eq_ok h
  obtain ⟨left, hleft, h⟩ := bind_eq_ok h
  obtain ⟨pairs, hpairs, h⟩ := bind_eq_ok h
  obtain ⟨q, hq, h⟩ := bind_eq_ok h
  obtain ⟨_, _, h⟩ := bind_eq_ok h
  obtain ⟨centerProduct, hcenter, h⟩ := bind_eq_ok h
  obtain ⟨p', hp', h⟩ := bind_eq_ok h
  obtain ⟨radiusProduct, hradius, h⟩ := bind_eq_ok h
  obtain ⟨values, hvalues, h⟩ := bind_eq_ok h
  cases h
  obtain ⟨p, hp, hq⟩ := bind_eq_ok (mapError_ok hq)
  exact ⟨left, pairs, centerProduct, radiusProduct,
    { positive := checkArguments_positive harguments
      left_converted := mapM_eq_ok hleft
      columns_split := mapM_eq_ok hpairs
      center := ⟨_, _, p, q, hp, hq, product_returns hcenter⟩
      radius := ⟨_, p', mapError_ok hp', product_returns hradius⟩
      enclosed := mapM_eq_ok hvalues }⟩

/-! ## Containment -/

/-- A row times values near the midpoints. -/
theorem abs_dot_sub_le {s : Finset ℕ} {a c r : ℕ → ℚ} {t : ℕ → ℝ} (h : ∀ k ∈ s, |t k - c k| ≤ r k) :
    |∑ k ∈ s, (a k : ℝ) * t k - ((∑ k ∈ s, a k * c k : ℚ) : ℝ)| ≤
      ((∑ k ∈ s, |a k| * r k : ℚ) : ℝ) := by
  push_cast
  rw [← Finset.sum_sub_distrib]
  refine (Finset.abs_sum_le_sum_abs _ _).trans (Finset.sum_le_sum fun k hk => ?_)
  rw [← mul_sub, abs_mul]
  exact mul_le_mul_of_nonneg_left (h k hk) (abs_nonneg _)

/-- A real number between the stored endpoints. -/
def Contains (interval : MpfrInterval) (t : ℝ) : Prop :=
  ∃ lo hi : ℚ, interval.lower.value = some lo ∧ interval.upper.value = some hi ∧
    (lo : ℝ) ≤ t ∧ t ≤ hi

theorem le_rounded_up (p : Nat) (x : ℚ) : x ≤ rounded p .up x := by
  rw [rounded, significand, toInteger, ← div_le_iff₀ (unit_pos p x)]
  exact Int.le_ceil _

section
variable {numerators : List Int} {denominator : Int} {columns : List MpfrInterval}
    {shape : ProductShape}
  {precision : Nat} {values : List MpfrInterval} {left : List MpfrFloat}
  {pairs : List (MpfrFloat × MpfrFloat)} {centerProduct radiusProduct : List MpfrFloat}
  (hrun : Completed arithmetic engine range numerators denominator columns shape precision
    values left pairs
    centerProduct radiusProduct)

include ha hrun in
/-- The converted matrix holds the numerators. -/
theorem Completed.left_values :
    List.Forall₂ (fun (a : Int) (x : MpfrFloat) => x.value = some (a : ℚ)) numerators left := by
  obtain ⟨limits, _, p, _, hp, _, _⟩ := hrun.center
  have hs : Sound arithmetic.toMpfr left (pairs.map Prod.fst) p :=
    ExactProductSoundness.prepare_sound hp
  have hrange : range.lower ≤ 1 := (prepare_plan hp).2 ▸ hs.range_lower
  refine List.forall₂_iff_get.mpr ⟨hrun.left_converted.length_eq, fun k hk hk' => ?_⟩
  have hconverted := hrun.left_converted.get hk hk'
  obtain ⟨v, hv⟩ : ∃ v, (left.get ⟨k, hk'⟩).value = some v :=
    ⟨_, (hs.left_aligns.get hk' (hs.left_aligns.length_eq ▸ hk')).1⟩
  rw [hv, fromInteger_value ha hrange hconverted hv]

include ha hrun in
theorem Completed.center_entry (hb : Bezout engine.extendedGcd) (hd : engine.device.Exact)
    {i j : Nat} (hi : i < shape.rows) (hj : j < shape.cols) :
    ∃ x, centerProduct[i * shape.cols + j]? = some x ∧
      x.value = some (dyadicDot left (pairs.map Prod.fst) shape i j) := by
  obtain ⟨limits, budget, p, q, hp, hq, hreturns⟩ := hrun.center
  obtain ⟨hshape, -⟩ := prepare_plan hp
  subst hshape
  obtain ⟨x, hx, -, hvalue⟩ := exactOutput_entry ha.correct hb hd (.prepared hp) hq hreturns hi hj
  obtain ⟨-, estimated, -, rfl⟩ := ExactProductSoundness.withExactOutput_ok hq
  exact ⟨x, hx, hvalue⟩

include ha hrun in
theorem Completed.radius_entry (hb : Bezout engine.extendedGcd) (hd : engine.device.Exact)
    {i j : Nat} (hi : i < shape.rows) (hj : j < shape.cols) :
    ∃ x r, radiusProduct[i * shape.cols + j]? = some x ∧ x.value = some r ∧
      dyadicDot (left.map absolute) (pairs.map Prod.snd) shape i j ≤ r := by
  obtain ⟨limits, p, hp, hreturns⟩ := hrun.radius
  obtain ⟨hshape, -⟩ := prepare_plan hp
  subst hshape
  have hs : Sound arithmetic.toMpfr (left.map absolute) (pairs.map Prod.snd) p :=
    ExactProductSoundness.prepare_sound hp
  obtain ⟨x, hx, -, hvalue⟩ := rounds_entry ha.correct hs (hreturns.rounds hb hd) hi hj
  exact ⟨x, _, hx, hvalue, le_rounded_up _ _⟩

include ha hrun in
/-- A value of a column is within the stored radius of the stored midpoint. -/
theorem Completed.column_near {k : Nat} {column : MpfrInterval} {t : ℝ}
    (hcolumn : columns[k]? = some column) (ht : Contains column t) :
    |t - stored (pairs.map Prod.fst) k| ≤ stored (pairs.map Prod.snd) k := by
  obtain ⟨pair, hpair, hsplit⟩ := forall₂_getElem? hrun.columns_split hcolumn
  obtain ⟨lo, hi, hlo, hhi, hle, hle'⟩ := ht
  obtain ⟨c, r, hc, hr, hbelow, habove⟩ := midpointRadius_covers ha hsplit hlo hhi
  have hfst : (pairs.map Prod.fst)[k]? = some pair.1 :=
    by rw [List.getElem?_map, hpair, Option.map_some]
  have hsnd : (pairs.map Prod.snd)[k]? = some pair.2 :=
    by rw [List.getElem?_map, hpair, Option.map_some]
  rw [stored_of_getElem? hfst hc, stored_of_getElem? hsnd hr, abs_le]
  have hbelow' : (c : ℝ) - lo ≤ r := by exact_mod_cast hbelow
  have habove' : (hi : ℝ) - c ≤ r := by exact_mod_cast habove
  constructor <;> linarith

include hrun in
theorem Completed.length (hb : Bezout engine.extendedGcd) (hd : engine.device.Exact) :
    values.length = shape.rows * shape.cols := by
  obtain ⟨_, _, p, q, hp, hq, hcenter⟩ := hrun.center
  obtain ⟨_, p', hp', hradius⟩ := hrun.radius
  obtain ⟨-, estimated, -, rfl⟩ := ExactProductSoundness.withExactOutput_ok hq
  have hlength := returns_length hb hd hcenter
  have hlength' := returns_length hb hd hradius
  rw [(prepare_plan hp').1] at hlength'
  simp only [(prepare_plan hp).1] at hlength
  rw [← hrun.enclosed.length_eq, List.length_zip, hlength, hlength', min_self]

include ha hrun in
theorem Completed.contains (hb : Bezout engine.extendedGcd) (hd : engine.device.Exact) {i j : Nat}
    (hi : i < shape.rows) (hj : j < shape.cols) :
    ∃ interval, values[i * shape.cols + j]? = some interval ∧
      ∀ t : ℕ → ℝ,
        (∀ k < shape.inner, ∃ column, columns[k * shape.cols + j]? = some column ∧
          Contains column (t k)) →
        Contains interval
          ((∑ k ∈ Finset.range shape.inner, ((numerators.getD (i * shape.inner + k) 0 : ℤ) :
            ℝ) * t k) / denominator) := by
  obtain ⟨x, hx, hcenter⟩ := hrun.center_entry ha hb hd hi hj
  obtain ⟨y, r, hy, hradius, hle⟩ := hrun.radius_entry ha hb hd hi hj
  have hzip : (centerProduct.zip radiusProduct)[i * shape.cols + j]? = some (x, y) :=
    List.getElem?_zip_eq_some.mpr ⟨hx, hy⟩
  obtain ⟨interval, hinterval, henclose⟩ := forall₂_getElem? hrun.enclosed hzip
  obtain ⟨lo, hi', hlo, hhi, hlower, hupper⟩ :=
    enclose_covers ha hrun.positive henclose hcenter hradius
  refine ⟨interval, hinterval, fun t ht => ⟨lo, hi', hlo, hhi, ?_⟩⟩
  have hvalues := hrun.left_values ha
  have hnear : ∀ k ∈ Finset.range shape.inner,
      |t k - stored (pairs.map Prod.fst) (k * shape.cols + j)| ≤ stored (pairs.map Prod.snd)
          (k * shape.cols + j) := by
    intro k hk
    obtain ⟨column, hcolumn, hcontains⟩ := ht k (Finset.mem_range.mp hk)
    exact hrun.column_near ha hcolumn hcontains
  have hdot := abs_dot_sub_le (a := fun k => (numerators.getD (i * shape.inner + k) 0 : ℚ)) hnear
  rw [dyadicDot] at hle hlower hupper
  simp only [stored_forall₂ hvalues] at hlower hupper
  simp only [stored_absolute hvalues] at hle
  have hpositive : (0 : ℝ) < denominator := Int.cast_pos.mpr hrun.positive
  have hle' := Rat.cast_le (K := ℝ).mpr hle
  have hlower' := Rat.cast_le (K := ℝ).mpr hlower
  have hupper' := Rat.cast_le (K := ℝ).mpr hupper
  rw [Rat.cast_div, Rat.cast_sub, Rat.cast_intCast] at hlower'
  rw [Rat.cast_div, Rat.cast_add, Rat.cast_intCast] at hupper'
  simp only [Rat.cast_intCast] at hdot
  obtain ⟨hbelow, habove⟩ := abs_le.mp (hdot.trans hle')
  constructor
  · refine hlower'.trans (div_le_div_of_nonneg_right ?_ hpositive.le)
    linarith
  · refine le_trans (div_le_div_of_nonneg_right ?_ hpositive.le) hupper'
    linarith

end

end

/-- **The contraction contains every product.** The midpoint is whatever the nearest sum and the
shift have made of it. -/
theorem contract_contains {T : Type} (arithmetic : Arithmetic) (ha : arithmetic.Directed)
    (engine : Engine)
    (hb : Bezout engine.extendedGcd) (hd : engine.device.Exact) (range : ExponentRange)
    (workers : List ExponentRange) (run : Option (SharedRun T)) (numerators : List Int)
    (denominator : Int)
    (columns : List MpfrInterval) (shape : ProductShape) (precision : Nat)
    (options : ContractionOptions) (result : Contraction T)
    (h : contract arithmetic engine range workers run numerators denominator columns shape precision
      options = .ok result) :
    result.values.length = shape.rows * shape.cols ∧
    ∀ i < shape.rows, ∀ j < shape.cols, ∃ interval, result.values[i * shape.cols + j]? =
      some interval ∧
      ∀ t : ℕ → ℝ,
        (∀ k < shape.inner, ∃ column, columns[k * shape.cols + j]? = some column ∧
          Contains column (t k)) →
        Contains interval
          ((∑ k ∈ Finset.range shape.inner, ((numerators.getD (i * shape.inner + k) 0 : ℤ) :
            ℝ) * t k) / denominator) := by
  obtain ⟨left, pairs, centerProduct, radiusProduct, hrun⟩ := contract_completed h
  exact ⟨hrun.length hb hd, fun i hi j hj => hrun.contains ha hb hd hi hj⟩

/-! ## A reference arithmetic -/

/-- The correct rounding, with an infinity past the stored widths. -/
def referenceRound (precision : Nat) (round : Round) (x : ℚ) : MpfrFloat where
  precision
  datum :=
    match datumOf (significand precision round x) (Int.log 2 |x| + 1 - precision) with
    | .infinity _ => .infinity (decide (round = .down))
    | datum => datum

def referenceBinary (f : ℚ → ℚ → ℚ) (precision : Nat) (x y : MpfrFloat) (round : Round) :
    MpfrFloat :=
  match x.value, y.value with
  | some a, some b => referenceRound precision round (f a b)
  | _, _ => ⟨precision, .nan⟩

def referenceArithmetic : Arithmetic where
  toMpfr := reference
  add _ := referenceBinary (· + ·)
  sub _ := referenceBinary (· - ·)
  divInteger _ precision x z round :=
    match x.value with
    | some a => referenceRound precision round (a / z)
    | none => ⟨precision, .nan⟩

theorem datumOf_cases (m k : Int) (precision : Nat) :
    (∃ s, datumOf m k = .infinity s) ∨
    (⟨precision, datumOf m k⟩ : MpfrFloat).value = some ((m : ℚ) * 2 ^ k) := by
  by_cases hm : m = 0
  · right
    simp [datumOf, hm, MpfrFloat.value]
  · by_cases hfits : (m ≠ 0 ∧ m.natAbs.size < 2 ^ 32) ∧ -2 ^ 31 ≤ m.natAbs.size + k ∧
      m.natAbs.size + k < 2 ^ 31
    · exact .inr (datumOf_value hm hfits.1.2 hfits.2.1 hfits.2.2 precision)
    · left
      rw [datumOf, dif_neg hfits, if_neg hm]
      exact ⟨_, rfl⟩

theorem referenceRound_cases (precision : Nat) (round : Round) (x : ℚ) :
    (referenceRound precision round x).datum = .infinity (decide (round = .down)) ∨
      (referenceRound precision round x).value = some (rounded precision round x) := by
  rcases datumOf_cases (significand precision round x) (Int.log 2 |x| + 1 - precision) precision
    with ⟨s, hs⟩ | hvalue
  · left
    simp only [referenceRound, hs]
  · right
    rw [rounded, unit, ← hvalue]
    unfold referenceRound
    split
    · rename_i s hs
      rw [hs] at hvalue
      cases hvalue
    · rfl

theorem rounded_down_le (p : Nat) (x : ℚ) : rounded p .down x ≤ x := by
  rw [rounded, significand, toInteger, ← le_div_iff₀ (unit_pos p x)]
  exact Int.floor_le _

theorem referenceRound_up (precision : Nat) (x : ℚ) :
    RoundedUp x (referenceRound precision .up x) := by
  rcases referenceRound_cases precision .up x with h | h
  · exact .inl h
  · exact .inr ⟨_, h, le_rounded_up precision x⟩

theorem referenceRound_down (precision : Nat) (x : ℚ) :
    RoundedDown x (referenceRound precision .down x) := by
  rcases referenceRound_cases precision .down x with h | h
  · exact .inl h
  · exact .inr ⟨_, h, rounded_down_le precision x⟩

theorem referenceBinary_eq {f : ℚ → ℚ → ℚ} {precision : Nat} {x y : MpfrFloat}
    {round : Round} {a b : ℚ} (hx : x.value = some a) (hy : y.value = some b) :
    referenceBinary f precision x y round = referenceRound precision round (f a b) := by
  simp only [referenceBinary, hx, hy]

theorem referenceArithmetic_div {range : ExponentRange} {precision : Nat} {x : MpfrFloat} {z : Int}
    {round : Round} {a : ℚ} (hx : x.value = some a) :
    referenceArithmetic.divInteger range precision x z round = referenceRound precision round
      (a / z) := by
  simp only [referenceArithmetic, hx]

theorem referenceArithmetic_directed : referenceArithmetic.Directed where
  correct := reference_correct
  integer {range precision z v} _ _ _ hsize hv := by
    change (⟨precision, datumOf (significand precision .nearest z)
      (Int.log 2 |(z : ℚ)| + 1 - precision)⟩ :
      MpfrFloat).value = some v at hv
    rcases datumOf_cases (significand precision .nearest z)
      (Int.log 2 |(z : ℚ)| + 1 - precision) precision with
      ⟨s, hs⟩ | hvalue
    · rw [hs] at hv
      cases hv
    · rw [hvalue] at hv
      cases hv
      simpa [rounded, unit] using rounded_exact hsize .nearest 0
  add_up hx hy := by
    change RoundedUp _ (referenceBinary (· + ·) _ _ _ _)
    rw [referenceBinary_eq hx hy]
    exact referenceRound_up _ _
  sub_up hx hy := by
    change RoundedUp _ (referenceBinary (· - ·) _ _ _ _)
    rw [referenceBinary_eq hx hy]
    exact referenceRound_up _ _
  sub_down hx hy := by
    change RoundedDown _ (referenceBinary (· - ·) _ _ _ _)
    rw [referenceBinary_eq hx hy]
    exact referenceRound_down _ _
  div_up hx _ := by
    rw [referenceArithmetic_div hx]
    exact referenceRound_up _ _
  div_down hx _ := by
    rw [referenceArithmetic_div hx]
    exact referenceRound_down _ _
  div_infinity {range precision x s z round} hx _ := by
    have hvalue : x.value = none := by simp [MpfrFloat.value, hx]
    simp only [referenceArithmetic, hvalue]
    rfl

def sampleOptions : ContractionOptions := ⟨.cpu, 2 ^ 20, 256, 64, 100, 100, 1⟩

/-- The column `[1/4, 1/2]` at a precision of 53 bits. -/
def sampleColumn : MpfrInterval := ⟨double 1 (-2), double 1 (-1)⟩

/-- The column `[-2, 3/4]`. -/
def sampleSecond : MpfrInterval := ⟨double (-1) 1, double 3 (-2)⟩

/-- The row 3, -2 over 7, on two columns of which the second changes its sign. -/
theorem contract_contains_sample :
    ∃ result : Contraction Unit, contract referenceArithmetic sampleEngine defaultRange
      [] none [3, -2] 7
        [sampleColumn, sampleSecond] ⟨1, 2, 1⟩ 53 sampleOptions = .ok result ∧
      ∃ interval, result.values[0]? = some interval ∧
      Contains interval ((3 * (1 / 3) + -2 * -1) / 7) := by
  have hexact : sampleEngine.device.Exact := by
    intro a b primes rows inner columns expected found hcpu h
    change ModularProduct.checked (ModularProduct.cpuResidues a b primes rows inner columns) =
      .ok found at h
    rw [hcpu] at h
    cases h
    rfl
  have hok : (contract (T := Unit) referenceArithmetic sampleEngine defaultRange [] none [3, -2] 7
      [sampleColumn, sampleSecond] ⟨1, 2, 1⟩ 53 sampleOptions).isOk = true := by decide +kernel
  generalize hrun : contract (T := Unit) referenceArithmetic sampleEngine defaultRange
    [] none [3, -2] 7
    [sampleColumn, sampleSecond] ⟨1, 2, 1⟩ 53 sampleOptions = r at hok
  cases r with
  | error e => cases hok
  | ok result =>
    obtain ⟨-, hcontains⟩ :=
      contract_contains referenceArithmetic referenceArithmetic_directed sampleEngine
      (fun a b => ⟨rfl, (Int.gcd_eq_gcd_ab a b).symm⟩) hexact _ _ _ _ _ _ _ _ _ result hrun
    obtain ⟨interval, hinterval, hall⟩ := hcontains 0 (by decide) 0 (by decide)
    refine ⟨result, rfl, interval, hinterval, ?_⟩
    have hfirst : Contains sampleColumn (1 / 3) := by
      refine ⟨1 / 4, 1 / 2, by decide +kernel, by decide +kernel, ?_, ?_⟩ <;> norm_num
    have hsecond : Contains sampleSecond (-1) := by
      refine ⟨-2, 3 / 4, by decide +kernel, by decide +kernel, ?_, ?_⟩ <;> norm_num
    have hsum := hall (fun k => if k = 0 then 1 / 3 else -1) fun k hk => by
      change k < 2 at hk
      obtain rfl | rfl : k = 0 ∨ k = 1 := by omega
      · exact ⟨sampleColumn, rfl, hfirst⟩
      · exact ⟨sampleSecond, rfl, hsecond⟩
    simpa [Finset.sum_range_succ] using hsum

end Xcelerator.Numerics.RationalIntervalProductSoundness
