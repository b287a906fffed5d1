import Mathlib
import Xcelerator.Foundations.Enumeration
import Xcelerator.Numerics.ExactProduct
import Xcelerator.Numerics.WideProductSoundness

/-! # Exact products round once

Alignment writes every input as an integer times the common power of two, below
the width the layout reports; the accumulator width then covers every dot
product. All three routes round the same integers, and scaling commutes with
rounding, so the entry is the correct rounding of the dyadic dot product. -/

namespace Xcelerator.Numerics.ExactProductSoundness
open Xcelerator.Foundations.Enumeration (flatMap_rows)
open Xcelerator.Foundations Machine BinaryRounding
open Xcelerator.Numerics.ModularProduct (ProductBackend ProductLimits usize?)
open Xcelerator.Numerics.ResidueTreeSoundness (Bezout)
open Xcelerator.Numerics.ModularProductSoundness
  (productEntry exactEntries productEntry_le usize_eq_some
  exactEntries_getElem?)
open Xcelerator.Numerics.WideProduct (u128? Device)
open Xcelerator.Numerics.WideProductSoundness (multiplyOn_exact multiplyWideEntries_entries)
open Xcelerator.Numerics.ExactProduct

/-! ## Checks -/

theorem ensure_ok {condition : Bool} {message : String} {u : Unit}
    (h : ensure condition message = .ok u) : condition = true := by
  unfold ensure at h
  split at h
  · assumption
  · cases h

theorem okOr_ok {α : Type} {x : Option α} {message : String} {a : α} (h : okOr x message = .ok a) :
    x = some a := by
  cases x with
  | none => cases h
  | some b => cases h; rfl

theorem u32_eq_some {x : Int} {n : Nat} (h : u32? x = some n) : (n : Int) = x ∧ n < 2 ^ 32 := by
  unfold u32? at h
  split at h
  · cases h
    omega
  · cases h

theorem u128_eq_some {x n : Nat} (h : u128? x = some n) : n = x := by
  unfold u128? at h
  split at h
  · exact (Option.some.inj h).symm
  · cases h

theorem multiply_eq {a b n : Nat} (h : multiply a b = .ok n) : n = a * b :=
  u128_eq_some (okOr_ok h)

theorem add_eq {a b n : Nat} (h : add a b = .ok n) : n = a + b := u128_eq_some (okOr_ok h)

/-! ## Alignment -/

theorem findOne_spec {n : Nat} (hn : 0 < n) :
    ∃ t, findOne n = some t ∧ 2 ^ t ∣ n ∧ t < n.size := by
  unfold findOne
  cases h : (List.range n.size).find? (n.testBit ·) with
  | none =>
    -- without a one bit below its size the number is zero
    have hzero : n = 0 := by
      refine Nat.eq_of_testBit_eq fun i => ?_
      rw [Nat.zero_testBit]
      rcases Nat.lt_or_ge i n.size with hi | hi
      · simpa using List.find?_eq_none.mp h i (List.mem_range.mpr hi)
      · exact Nat.testBit_lt_two_pow
          ((Nat.lt_size_self n).trans_le (Nat.pow_le_pow_right (by norm_num) hi))
    omega
  | some t =>
    obtain ⟨-, ht, hbelow⟩ := List.find?_range_eq_some.mp h
    refine ⟨t, rfl, Nat.dvd_of_mod_eq_zero (Nat.eq_of_testBit_eq fun i => ?_), List.mem_range.mp ht⟩
    rw [Nat.testBit_mod_two_pow, Nat.zero_testBit, Bool.and_eq_false_iff, decide_eq_false_iff_not]
    rcases Nat.lt_or_ge i t with hi | hi
    · exact .inr (by simpa using hbelow i hi)
    · exact .inl (by omega)

/-- The number of trailing zeros of the significand. -/
def trailing (x : Normal) : Nat := (findOne x.significand).getD 0

theorem shiftRight_trailing (x : Normal) :
    x.significand >>> trailing x * 2 ^ trailing x = x.significand := by
  obtain ⟨t, ht, hdvd, -⟩ := findOne_spec x.positive
  rw [trailing, ht, Option.getD_some, Nat.shiftRight_eq_div_pow, Nat.div_mul_cancel hdvd]

theorem canonicalExponent_eq (x : Normal) :
    canonicalExponent x = x.exponent - x.significand.size + trailing x := rfl

theorem canonicalExponent_lt (x : Normal) : canonicalExponent x < i64Max := by
  obtain ⟨t, ht, -, hlt⟩ := findOne_spec x.positive
  have := x.exponent_upper
  rw [canonicalExponent_eq, trailing, ht, Option.getD_some, i64Max]
  omega

theorem abs_sign (x : Normal) : |(x.sign : ℚ)| = 1 := by
  unfold Normal.sign
  split <;> norm_num

theorem abs_value (x : Normal) :
    |x.value| = x.significand * 2 ^ (x.exponent - x.significand.size) := by
  have h2 : (0 : ℚ) < 2 ^ (x.exponent - x.significand.size) := by positivity
  rw [Normal.value, abs_mul, abs_mul, abs_sign, one_mul, Nat.abs_cast, abs_of_pos h2]

/-- A normal value lies in the binade its exponent names. -/
theorem value_binade (x : Normal) :
    2 ^ (x.exponent - 1) ≤ |x.value| ∧ |x.value| < 2 ^ x.exponent := by
  have hsize : 0 < x.significand.size := Nat.size_pos.mpr x.positive
  have hlow : 2 ^ (x.significand.size - 1) ≤ x.significand := Nat.lt_size.mp (by omega)
  have hhigh := Nat.lt_size_self x.significand
  have hsplit (n : Nat) : (2 : ℚ) ^ (x.exponent - x.significand.size + n) =
      ((2 ^ n : Nat) : ℚ) * 2 ^ (x.exponent - x.significand.size) := by
    rw [zpow_add₀ (by norm_num), zpow_natCast, mul_comm]
    push_cast
    rfl
  rw [abs_value]
  constructor
  · rw [show x.exponent - 1 = x.exponent - x.significand.size + (x.significand.size - 1 : Nat) by
      omega, hsplit]
    exact mul_le_mul_of_nonneg_right (Nat.cast_le.mpr hlow) (by positivity)
  · calc (x.significand : ℚ) * 2 ^ (x.exponent - x.significand.size)
        < ((2 ^ x.significand.size : Nat) : ℚ) * 2 ^ (x.exponent - x.significand.size) :=
          mul_lt_mul_of_pos_right (Nat.cast_lt.mpr hhigh) (by positivity)
      _ = 2 ^ x.exponent := by rw [← hsplit, sub_add_cancel]

/-- The integer is the input in units of the common power of two, below the width. -/
def Aligns (exponent : Int) (bits : Nat) (value : MpfrFloat) (integer : Int) : Prop :=
  value.value = some ((integer : ℚ) * 2 ^ exponent) ∧ integer.natAbs < 2 ^ bits

/-- The layout covers a value: its lowest bit and its top. -/
def Covers (layout : OperandLayout) (value : MpfrFloat) : Prop :=
  value.isFinite = true ∧ ∀ x, value.datum = .normal x →
    layout.exponent ≤ canonicalExponent x ∧ x.exponent - layout.exponent ≤ layout.bits

theorem layoutLoop_spec {values : List MpfrFloat} {state out : Int × Int × Int}
    (h : layoutLoop values state = .ok out) :
    out.1 ≤ state.1 ∧ state.2.2 ≤ out.2.2 ∧ ∀ v ∈ values, v.isFinite = true ∧
      ∀ x, v.datum = .normal x → out.1 ≤ canonicalExponent x ∧ x.exponent ≤ out.2.2 := by
  induction values generalizing state with
  | nil => cases h; simp
  | cons value rest ih =>
    obtain ⟨minimum, maximum, largestTop⟩ := state
    rw [layoutLoop] at h
    obtain ⟨_, hfinite, h⟩ := bind_eq_ok h
    have hfinite := ensure_ok hfinite
    split at h
    · rename_i x hx
      obtain ⟨hmin, htop, hrest⟩ := ih h
      dsimp only at hmin htop ⊢
      refine ⟨by omega, by omega, fun v hv => ?_⟩
      rcases List.mem_cons.mp hv with rfl | hv
      · refine ⟨hfinite, fun y hy => ?_⟩
        rw [hx] at hy
        cases hy
        omega
      · exact hrest v hv
    · rename_i hx
      obtain ⟨hmin, htop, hrest⟩ := ih h
      refine ⟨hmin, htop, fun v hv => ?_⟩
      rcases List.mem_cons.mp hv with rfl | hv
      · exact ⟨hfinite, fun y hy => absurd hy (hx y)⟩
      · exact hrest v hv

theorem operandLayout_covers {values : List MpfrFloat} {limits : ExactProductLimits}
    {layout : OperandLayout} (h : operandLayout values limits = .ok layout) :
    ∀ v ∈ values, Covers layout v := by
  unfold operandLayout at h
  obtain ⟨⟨minimum, maximum, largestTop⟩, hloop, h⟩ := bind_eq_ok h
  obtain ⟨-, -, hspec⟩ := layoutLoop_spec hloop
  dsimp only at h hspec
  unfold layoutOf at h
  split at h
  · rename_i hmax
    -- an untouched minimum: no normal value was seen
    intro v hv
    refine ⟨(hspec v hv).1, fun x hx => ?_⟩
    have hle := ((hspec v hv).2 x hx).1
    have := canonicalExponent_lt x
    omega
  · obtain ⟨_, _, h⟩ := bind_eq_ok h
    obtain ⟨bits, hbits, h⟩ := bind_eq_ok h
    obtain ⟨_, _, h⟩ := bind_eq_ok h
    cases h
    have hbits := (u32_eq_some (okOr_ok hbits)).1
    intro v hv
    refine ⟨(hspec v hv).1, fun x hx => ⟨((hspec v hv).2 x hx).1, ?_⟩⟩
    have := ((hspec v hv).2 x hx).2
    dsimp only
    omega

theorem alignedEntry_aligns {layout : OperandLayout} {value : MpfrFloat} {integer : Int}
    (hc : Covers layout value) (h : alignedEntry layout.exponent value = .ok integer) :
    Aligns layout.exponent layout.bits value integer := by
  obtain ⟨precision, datum⟩ := value
  cases datum with
  | nan => exact absurd hc.1 Bool.false_ne_true
  | infinity negative => exact absurd hc.1 Bool.false_ne_true
  | zero negative =>
    cases h
    exact ⟨by simp [MpfrFloat.value], by simp⟩
  | normal x =>
    obtain ⟨-, htop⟩ := hc.2 x rfl
    unfold alignedEntry at h
    obtain ⟨shift, hshift, h⟩ := bind_eq_ok h
    cases h
    have hshift := (u32_eq_some (okOr_ok hshift)).1
    change Aligns _ _ _ (x.sign * ((x.significand >>> trailing x : Nat) : Int) * 2 ^ shift)
    have hvalue : x.value =
        ((x.sign * ((x.significand >>> trailing x : Nat) : Int) * 2 ^ shift : Int) : ℚ)
          * 2 ^ layout.exponent := by
      have hexp : (2 : ℚ) ^ trailing x * 2 ^ (x.exponent - x.significand.size) =
          2 ^ shift * 2 ^ layout.exponent := by
        rw [← zpow_natCast, ← zpow_natCast, ← zpow_add₀ (by norm_num), ← zpow_add₀ (by norm_num)]
        congr 1
        rw [canonicalExponent_eq] at hshift
        omega
      have hsig : (x.significand : ℚ) = ((x.significand >>> trailing x : Nat) :
          ℚ) * 2 ^ trailing x := by
        exact_mod_cast (shiftRight_trailing x).symm
      rw [Normal.value, hsig, Int.cast_mul, Int.cast_mul, Int.cast_natCast, Int.cast_pow,
        Int.cast_ofNat]
      linear_combination ((x.sign : ℚ) * ((x.significand >>> trailing x : Nat) : ℚ)) * hexp
    refine ⟨congrArg some hvalue, ?_⟩
    generalize (x.sign * ((x.significand >>> trailing x : Nat) : Int) * 2 ^ shift : Int) =
      z at hvalue
    -- compare magnitudes in units of the common power of two
    have h2 : (0 : ℚ) < 2 ^ layout.exponent := by positivity
    have habs : |x.value| = (z.natAbs : ℚ) * 2 ^ layout.exponent := by
      rw [hvalue, abs_mul, abs_of_pos h2, ← Int.cast_abs, Int.abs_eq_natAbs, Int.cast_natCast]
    have hlt : (z.natAbs : ℚ) * 2 ^ layout.exponent <
        ((2 ^ layout.bits : Nat) : ℚ) * 2 ^ layout.exponent := by
      calc (z.natAbs : ℚ) * 2 ^ layout.exponent = |x.value| := habs.symm
        _ < 2 ^ x.exponent := (value_binade x).2
        _ ≤ 2 ^ ((layout.bits : Int) + layout.exponent) :=
          zpow_le_zpow_right₀ (by norm_num) (by omega)
        _ = ((2 ^ layout.bits : Nat) : ℚ) * 2 ^ layout.exponent := by
          rw [zpow_add₀ (by norm_num), zpow_natCast]
          push_cast
          rfl
    exact Nat.cast_lt.mp (lt_of_mul_lt_mul_right hlt h2.le)

/-- A traversal that succeeded, step by step. -/
theorem mapM_eq_ok {ε α β : Type} {f : α → Except ε β} {xs : List α} {ys : List β}
    (h : xs.mapM f = .ok ys) : List.Forall₂ (fun x y => f x = .ok y) xs ys := by
  induction xs generalizing ys with
  | nil => cases h; exact .nil
  | cons x xs ih =>
    rw [List.mapM_cons] at h
    obtain ⟨y, hy, h⟩ := bind_eq_ok h
    obtain ⟨ys, hys, h⟩ := bind_eq_ok h
    cases h
    exact .cons hy (ih hys)

theorem forall₂_mem {α β : Type} {R : α → β → Prop} {xs : List α} {ys : List β}
    (h : List.Forall₂ R xs ys) {x : α} (hx : x ∈ xs) : ∃ y, R x y := by
  induction h with
  | nil => cases hx
  | cons hr _ ih =>
    rcases List.mem_cons.mp hx with rfl | hx
    · exact ⟨_, hr⟩
    · exact ih hx

theorem aligned_aligns {values : List MpfrFloat} {limits : ExactProductLimits}
    {layout : OperandLayout} {integers : List Int} (hl : operandLayout values limits = .ok layout)
    (h : aligned values layout.exponent = .ok integers) :
    List.Forall₂ (Aligns layout.exponent layout.bits) values integers := by
  have hcovers := operandLayout_covers hl
  have hsteps := mapM_eq_ok h
  refine List.forall₂_iff_get.mpr ⟨hsteps.length_eq, fun i h₁ h₂ => ?_⟩
  exact alignedEntry_aligns (hcovers _ (List.get_mem _ _)) (hsteps.get h₁ h₂)

/-! ## Integer products -/

theorem dotLoop_eq (left right : List Int) (inner cols i j : Nat) (ks : List Nat) (sum : Int) :
    dotLoop left right inner cols i j ks sum =
      sum + (ks.map fun k => left.getD (i * inner + k) 0 * right.getD (k * cols + j) 0).sum := by
  induction ks generalizing sum with
  | nil => simp [dotLoop]
  | cons k ks ih => rw [dotLoop, ih, List.map_cons, List.sum_cons, add_assoc]

theorem dot_eq (p : PreparedProduct) (i j : Nat) :
    p.dot i j = productEntry p.left p.right p.plan.shape.inner p.plan.shape.cols i j := by
  rw [PreparedProduct.dot, dotLoop_eq, zero_add]
  rfl

/-- The serial product, entry by entry. -/
theorem cpuIntegerProduct_eq (p : PreparedProduct) :
    cpuIntegerProduct p = exactEntries p.left p.right p.plan.shape.rows p.plan.shape.inner
      p.plan.shape.cols := by
  rw [cpuIntegerProduct, flatMap_rows]
  exact List.map_congr_left fun e _ => dot_eq p _ _

/-- However the range is divided, the results stand in index order. -/
theorem collect_eq {α : Type} (f : Nat → α) (split : Split) (start length : Nat) :
    split.collect f start length = (List.range' start length).map f := by
  induction split generalizing start length with
  | leaf => rfl
  | «at» middle left right ihl ihr =>
    rw [Split.collect, ihl, ihr, ← List.map_append]
    have h := @List.range'_append start (min middle length) (length - min middle length) 1
    rw [one_mul, Nat.add_sub_cancel' (min_le_right _ _)] at h
    rw [h]

/-! ## What admission establishes -/

/-- A product in preparation: prepared, then any number of times widened. -/
inductive Admitted (mpfr : Mpfr) (left right : List MpfrFloat) : PreparedProduct → Prop where
  | prepared {range shape precisionBits limits p}
    (h : prepare mpfr range left right shape precisionBits limits = .ok p) :
      Admitted mpfr left right p
  | exactOutput {p q maxWorkspaceBytes} (hp : Admitted mpfr left right p)
    (h : withExactOutput mpfr p maxWorkspaceBytes = .ok q) : Admitted mpfr left right q

/-- The facts every admitted product keeps. -/
structure Sound (mpfr : Mpfr) (left right : List MpfrFloat) (p : PreparedProduct) : Prop where
  left_length : left.length = p.plan.shape.rows * p.plan.shape.inner
  right_length : right.length = p.plan.shape.inner * p.plan.shape.cols
  left_aligns : List.Forall₂ (Aligns p.plan.leftExponent p.plan.leftIntegerBits) left p.left
  right_aligns : List.Forall₂ (Aligns p.plan.rightExponent p.plan.rightIntegerBits) right p.right
  dot_size : ∀ i j, (p.dot i j).natAbs.size ≤ p.plan.outputIntegerBits
  precision_lower : mpfr.precMin ≤ p.plan.precisionBits
  precision_upper : p.plan.precisionBits ≤ mpfr.precMax
  range_lower : p.exponentRange.lower ≤ 1
  range_upper : (p.plan.outputIntegerBits : Int) < p.exponentRange.upper
  output_lt : p.plan.shape.rows * p.plan.shape.cols < 2 ^ 64
  storage : 4 * (p.plan.shape.rows * p.plan.shape.cols) * integerBytes p.plan.precisionBits ≤
    p.plan.estimatedWorkspaceBytes

theorem aligns_le {exponent : Int} {bits : Nat} {values : List MpfrFloat} {integers : List Int}
    (h : List.Forall₂ (Aligns exponent bits) values integers) :
    ∀ v ∈ integers, v.natAbs ≤ 2 ^ bits - 1 := by
  induction h with
  | nil => simp
  | cons hv _ ih =>
    intro v hmem
    rcases List.mem_cons.mp hmem with rfl | hmem
    · exact Nat.le_sub_one_of_lt hv.2
    · exact ih v hmem

/-- `inner` terms below the product of two widths stay below the accumulator width. -/
theorem accumulated_lt {a b inner bits : Nat} (hinner : inner ≠ 0)
    (hbits : bits = a + b + (inner - 1).size) :
    (2 ^ a - 1) * (2 ^ b - 1) * inner < 2 ^ bits := by
  have hle : inner ≤ 2 ^ (inner - 1).size := by
    have := Nat.lt_size_self (inner - 1)
    omega
  have ha : 2 ^ a - 1 < 2 ^ a := Nat.sub_lt (by positivity) (by norm_num)
  have hb : 2 ^ b - 1 < 2 ^ b := Nat.sub_lt (by positivity) (by norm_num)
  calc (2 ^ a - 1) * (2 ^ b - 1) * inner < 2 ^ a * 2 ^ b * inner :=
        Nat.mul_lt_mul_of_pos_right (Nat.mul_lt_mul'' ha hb) (Nat.pos_of_ne_zero hinner)
    _ ≤ 2 ^ a * 2 ^ b * 2 ^ (inner - 1).size := Nat.mul_le_mul_left _ hle
    _ = 2 ^ bits := by rw [hbits, pow_add, pow_add]

theorem accumulatorBits_covers {a b : OperandLayout} {inner bits : Nat}
    (h : accumulatorBits a b inner = .ok bits) :
    (2 ^ a.bits - 1) * (2 ^ b.bits - 1) * inner < 2 ^ bits := by
  unfold accumulatorBits at h
  split at h
  · rename_i hzero
    cases h
    rcases hzero with hz | hz | hz <;> simp [hz]
  · rename_i hzero
    have h := okOr_ok h
    obtain ⟨partialBits, hpartial, h⟩ := Option.bind_eq_some_iff.mp h
    have hpartial := (u32_eq_some hpartial).1
    have hbits := (u32_eq_some h).1
    exact accumulated_lt (fun hi => hzero (.inr (.inr hi))) (by omega)

/-- The output part of the estimate is in it four times over. -/
theorem estimate_storage {leftLen rightLen outputLen precision aBits bBits outputBits total : Nat}
    (h : estimate leftLen rightLen outputLen precision aBits bBits outputBits = .ok total) :
    4 * outputLen * integerBytes precision ≤ total := by
  unfold estimate at h
  obtain ⟨_, _, h⟩ := bind_eq_ok h
  obtain ⟨_, _, h⟩ := bind_eq_ok h
  obtain ⟨operands, _, h⟩ := bind_eq_ok h
  obtain ⟨entry, hentry, h⟩ := bind_eq_ok h
  obtain ⟨outputs, houtputs, h⟩ := bind_eq_ok h
  obtain ⟨scratch, _, h⟩ := bind_eq_ok h
  obtain ⟨stored, hstored, h⟩ := bind_eq_ok h
  obtain ⟨sum, hsum, h⟩ := bind_eq_ok h
  have hle : outputLen * integerBytes precision ≤ outputs := by
    rw [multiply_eq houtputs, add_eq hentry]
    exact Nat.mul_le_mul_left _ (Nat.le_add_left _ _)
  have hstored := add_eq hstored
  have hsum := add_eq hsum
  rw [multiply_eq h, mul_assoc]
  omega

theorem prepare_sound {mpfr : Mpfr} {range : ExponentRange} {left right : List MpfrFloat}
    {shape : ProductShape} {precisionBits : Nat} {limits : ExactProductLimits} {p : PreparedProduct}
    (h : prepare mpfr range left right shape precisionBits limits = .ok p) :
    Sound mpfr left right p := by
  unfold prepare at h
  obtain ⟨_, hprecision, h⟩ := bind_eq_ok h
  obtain ⟨leftLen, hleftLen, h⟩ := bind_eq_ok h
  obtain ⟨rightLen, hrightLen, h⟩ := bind_eq_ok h
  obtain ⟨outputLen, houtputLen, h⟩ := bind_eq_ok h
  obtain ⟨_, hshape, h⟩ := bind_eq_ok h
  obtain ⟨_, _, h⟩ := bind_eq_ok h
  obtain ⟨_, _, h⟩ := bind_eq_ok h
  obtain ⟨_, _, h⟩ := bind_eq_ok h
  obtain ⟨_, _, h⟩ := bind_eq_ok h
  obtain ⟨_, _, h⟩ := bind_eq_ok h
  obtain ⟨_, _, h⟩ := bind_eq_ok h
  obtain ⟨a, ha, h⟩ := bind_eq_ok h
  obtain ⟨b, hb, h⟩ := bind_eq_ok h
  obtain ⟨outputBits, houtputBits, h⟩ := bind_eq_ok h
  obtain ⟨_, _, h⟩ := bind_eq_ok h
  obtain ⟨estimated, hestimated, h⟩ := bind_eq_ok h
  obtain ⟨_, _, h⟩ := bind_eq_ok h
  obtain ⟨_, hrange, h⟩ := bind_eq_ok h
  obtain ⟨alignedLeft, hleft, h⟩ := bind_eq_ok h
  obtain ⟨alignedRight, hright, h⟩ := bind_eq_ok h
  cases h
  have hprecision := ensure_ok hprecision
  have hshape := ensure_ok hshape
  have hrange := ensure_ok hrange
  simp only [Bool.and_eq_true, decide_eq_true_eq, beq_iff_eq] at hprecision hshape hrange
  obtain ⟨hleftLen, -⟩ := usize_eq_some (okOr_ok hleftLen)
  obtain ⟨hrightLen, -⟩ := usize_eq_some (okOr_ok hrightLen)
  obtain ⟨houtputLen, hlt⟩ := usize_eq_some (okOr_ok houtputLen)
  have hleft := aligned_aligns ha hleft
  have hright := aligned_aligns hb hright
  refine ⟨hshape.1.trans hleftLen, hshape.2.trans hrightLen, hleft, hright, fun i j => ?_,
    hprecision.1, hprecision.2, hrange.1, hrange.2, hlt, ?_⟩
  · rw [dot_eq]
    exact Nat.size_le.mpr ((productEntry_le _ _ i j (aligns_le hleft) (aligns_le hright)).trans_lt
      (accumulatorBits_covers houtputBits))
  · rw [← houtputLen]
    exact estimate_storage hestimated

/-- What a successful widening has computed. -/
theorem withExactOutput_ok {mpfr : Mpfr} {p q : PreparedProduct} {maxWorkspaceBytes : Nat}
    (h : withExactOutput mpfr p maxWorkspaceBytes = .ok q) :
    max p.plan.outputIntegerBits 2 ≤ mpfr.precMax ∧ ∃ estimated,
      4 * (p.plan.shape.rows * p.plan.shape.cols) * integerBytes (max p.plan.outputIntegerBits 2) ≤
        estimated ∧
      q = { p with plan := { p.plan with
        precisionBits := max p.plan.outputIntegerBits 2
        estimatedWorkspaceBytes := estimated } } := by
  unfold withExactOutput at h
  obtain ⟨_, hprecision, h⟩ := bind_eq_ok h
  obtain ⟨entries, hentries, h⟩ := bind_eq_ok h
  obtain ⟨scaled, hscaled, h⟩ := bind_eq_ok h
  obtain ⟨old, hold, h⟩ := bind_eq_ok h
  obtain ⟨new, hnew, h⟩ := bind_eq_ok h
  obtain ⟨kept, hkept, h⟩ := bind_eq_ok h
  obtain ⟨estimated, hestimated, h⟩ := bind_eq_ok h
  obtain ⟨_, _, h⟩ := bind_eq_ok h
  cases h
  refine ⟨of_decide_eq_true (ensure_ok hprecision), estimated, ?_, rfl⟩
  have hscaled : scaled = 4 * entries := by
    unfold unsigned at hscaled
    split at hscaled <;> cases hscaled
    rfl
  rw [add_eq hestimated, multiply_eq hnew, hscaled, multiply_eq hentries]
  exact Nat.le_add_left _ _

/-- The plain subtraction and multiplication of the widening stay in range. -/
theorem withExactOutput_no_fault {mpfr : Mpfr} {left right : List MpfrFloat} {p : PreparedProduct}
    (hs : Sound mpfr left right p) (maxWorkspaceBytes : Nat) (fault : Fault) :
    withExactOutput mpfr p maxWorkspaceBytes ≠ .error (.fault fault) := by
  have hrefused {α : Type} (x : Option α) (message : String) :
      Refuses (· ≠ .fault fault) (okOr x message) := by
    intro e he
    cases x <;> cases he
    exact nofun
  have hensure (condition : Bool) (message : String) :
      Refuses (· ≠ .fault fault) (ensure condition message) := by
    intro e he
    unfold ensure at he
    split at he <;> cases he
    exact nofun
  suffices Refuses (· ≠ .fault fault) (withExactOutput mpfr p maxWorkspaceBytes) from
    fun h => this _ h rfl
  unfold withExactOutput
  refine .bind (hensure _ _) fun _ _ => .bind (hrefused _ _) fun entries hentries => ?_
  have hentries := multiply_eq hentries
  have hlt := hs.output_lt
  rw [unsigned_ok (by omega), show checked (.ok (4 * entries)) = .ok (4 * entries) from rfl,
    ok_bind]
  refine .bind (hrefused _ _) fun old hold => .bind (hrefused _ _) fun new _ => ?_
  have hle : old ≤ p.plan.estimatedWorkspaceBytes := by
    rw [multiply_eq hold, hentries]
    exact hs.storage
  rw [subtract_ok hle, show checked (.ok _) = (.ok _ : Result Nat) from rfl, ok_bind]
  refine .bind (hrefused _ _) fun _ _ => .bind (fun e he => ?_) fun _ _ => .ok _
  unfold workspace at he
  split at he <;> cases he
  exact nofun

theorem Admitted.sound {mpfr : Mpfr} (hm : mpfr.Correct) {left right : List MpfrFloat}
    {p : PreparedProduct} (h : Admitted mpfr left right p) : Sound mpfr left right p := by
  induction h with
  | prepared h => exact prepare_sound h
  | exactOutput _ h ih =>
    obtain ⟨hmax, estimated, hstorage, rfl⟩ := withExactOutput_ok h
    exact { ih with
      dot_size := ih.dot_size
      precision_lower := by rw [hm.precMin_eq]; exact le_trans (by norm_num) (le_max_right _ 2)
      precision_upper := hmax
      storage := hstorage }

/-! ## Rounding once -/

/-- The scale of every output. -/
def scale (p : PreparedProduct) : Int := p.plan.leftExponent + p.plan.rightExponent

/-- A nonzero output the final conversion supports: its exponent leaves a carry
bit below the maximum, and the scale is an `i32`. -/
def InDomain (p : PreparedProduct) (z : Int) : Prop :=
  (p.exponentRange.lower ≤ scale p + z.natAbs.size ∧ scale p + z.natAbs.size <
    p.exponentRange.upper) ∧
    -2 ^ 31 ≤ scale p ∧ scale p < 2 ^ 31

theorem normal_of_value {x : MpfrFloat} {q : ℚ} (h : x.value = some q) (hq : q ≠ 0) :
    ∃ n, x.datum = .normal n ∧ n.value = q := by
  obtain ⟨precision, datum⟩ := x
  cases datum with
  | nan => cases h
  | infinity negative => cases h
  | zero negative => exact absurd (Option.some.inj h).symm hq
  | normal n => exact ⟨n, rfl, Option.some.inj h⟩

/-- The stored exponent of a rounded integer: its own bit length, or one more on a carry. -/
theorem rounded_exponent {precision : Nat} (hp : 1 ≤ precision) {round : Round} {z : Int}
    (hz : z ≠ 0) {n : Normal} (hn : n.value = rounded precision round z) :
    (z.natAbs.size : Int) ≤ n.exponent ∧ n.exponent ≤ z.natAbs.size + 1 := by
  have hq : (z : ℚ) ≠ 0 := Int.cast_ne_zero.mpr hz
  obtain ⟨hlow, hhigh⟩ := abs_rounded_bounds hp round hq
  obtain ⟨hblow, hbhigh⟩ := value_binade n
  rw [hn] at hblow hbhigh
  rw [log_intCast hz] at hlow hhigh
  have h₁ := (zpow_lt_zpow_iff_right₀ (by norm_num : (1 : ℚ) < 2)).mp (hlow.trans_lt hbhigh)
  have h₂ := (zpow_le_zpow_iff_right₀ (by norm_num : (1 : ℚ) < 2)).mp (hblow.trans hhigh)
  omega

/-- A correctly rounded nonzero value is not zero. -/
theorem rounded_ne_zero {precision : Nat} (hp : 1 ≤ precision) (round : Round) {x : ℚ}
    (hx : x ≠ 0) :
    rounded precision round x ≠ 0 := by
  have h := (abs_rounded_bounds hp round hx).1
  have hpos : (0 : ℚ) < 2 ^ Int.log 2 |x| := by positivity
  exact abs_pos.mp (hpos.trans_le h)

section
variable {mpfr : Mpfr} {left right : List MpfrFloat} {p : PreparedProduct}

theorem roundInteger_ok (hm : mpfr.Correct) (hs : Sound mpfr left right p) (round : Round) {z : Int}
    (hz : z.natAbs.size ≤ p.plan.outputIntegerBits) (hd : z ≠ 0 → InDomain p z) :
    ∃ v, roundInteger mpfr p.exponentRange p z (scale p) round = .ok v ∧
      v.precision = p.plan.precisionBits ∧
      v.value = some (rounded p.plan.precisionBits round (z * 2 ^ scale p)) := by
  unfold roundInteger
  by_cases h0 : z = 0
  · rw [if_pos h0, h0]
    exact ⟨_, rfl, rfl, by simp [MpfrFloat.value]⟩
  rw [if_neg h0]
  obtain ⟨hnormalized, hshift⟩ := hd h0
  have hq : (z : ℚ) ≠ 0 := Int.cast_ne_zero.mpr h0
  have hp1 : 1 ≤ p.plan.precisionBits := hm.precMin_eq ▸ hs.precision_lower
  have hupper := hs.range_upper
  -- the conversion cannot leave the range, so it is the correct rounding
  obtain ⟨hprec, hval⟩ := @hm.withValRound_value p.exponentRange p.plan.precisionBits z round
    hs.precision_lower hs.precision_upper h0 hs.range_lower (by omega)
  obtain ⟨n, hdatum, hn⟩ := normal_of_value hval (rounded_ne_zero hp1 round hq)
  obtain ⟨hexp₁, hexp₂⟩ := rounded_exponent hp1 h0 hn
  -- nor can the shift
  obtain ⟨hprec', hval'⟩ := @hm.shiftLeft_value p.exponentRange _ n (scale p) hdatum
    (by omega) (by omega)
  rw [hn, ← rounded_mul_zpow _ _ hq] at hval'
  have hscaled : (z : ℚ) * 2 ^ scale p ≠ 0 := mul_ne_zero hq (by positivity)
  obtain ⟨m, hm', -⟩ := normal_of_value hval' (rounded_ne_zero hp1 round hscaled)
  refine ⟨_, ?_, hprec'.trans hprec, hval'⟩
  have hfinite : (mpfr.shiftLeft p.exponentRange
      (mpfr.withValRound p.exponentRange p.plan.precisionBits z round)
      (scale p)).isFinite = true := by
    rw [MpfrFloat.isFinite, hm']
  have hnonzero : (mpfr.shiftLeft p.exponentRange
      (mpfr.withValRound p.exponentRange p.plan.precisionBits z round) (scale p)).isZero =
          false := by
    rw [MpfrFloat.isZero, hm']
  simp only [ensure, hnormalized, decide_true, Bool.and_true, if_true, ok_bind, i32?, if_pos hshift,
    okOr, hfinite, hnonzero, Bool.not_false]
  rfl

theorem roundInteger_inDomain {range : ExponentRange} {round : Round} {z : Int} {v : MpfrFloat}
    (h : roundInteger mpfr range p z (scale p) round = .ok v) (hz : z ≠ 0) : InDomain p z := by
  unfold roundInteger at h
  rw [if_neg hz] at h
  obtain ⟨_, hnormalized, h⟩ := bind_eq_ok h
  obtain ⟨shift, hshift, h⟩ := bind_eq_ok h
  have hnormalized := ensure_ok hnormalized
  rw [Bool.and_eq_true, decide_eq_true_eq, decide_eq_true_eq] at hnormalized
  refine ⟨hnormalized, ?_⟩
  have hshift := okOr_ok hshift
  unfold i32? at hshift
  split at hshift
  · assumption
  · cases hshift

/-- The rounding context, when it is accepted. -/
theorem checkRoundingContext_ok {range : ExponentRange} {round : Round} {u : Unit}
    (h : checkRoundingContext range p round = .ok u) :
    supported round = true ∧ range = p.exponentRange := by
  unfold checkRoundingContext at h
  obtain ⟨_, hround, h⟩ := bind_eq_ok h
  exact ⟨ensure_ok hround, (of_decide_eq_true (ensure_ok h)).symm⟩

theorem roundIntegerProduct_ok {range : ExponentRange} {round : Round} {integers : List Int}
    {out : List MpfrFloat} (h : roundIntegerProduct mpfr range p integers round = .ok out) :
    supported round = true ∧ range = p.exponentRange ∧
      List.Forall₂ (fun z v => roundInteger mpfr range p z (scale p) round = .ok v)
        integers out := by
  unfold roundIntegerProduct at h
  obtain ⟨_, hcontext, h⟩ := bind_eq_ok h
  obtain ⟨_, _, h⟩ := bind_eq_ok h
  obtain ⟨_, _, h⟩ := bind_eq_ok h
  obtain ⟨hround, hrange⟩ := checkRoundingContext_ok hcontext
  exact ⟨hround, hrange, mapM_eq_ok h⟩

theorem mem_cpuIntegerProduct {z : Int} :
    z ∈ cpuIntegerProduct p ↔ ∃ i < p.plan.shape.rows, ∃ j < p.plan.shape.cols, p.dot i j = z := by
  simp [cpuIntegerProduct]

theorem cpuIntegerProduct_size (hs : Sound mpfr left right p) :
    ∀ z ∈ cpuIntegerProduct p, z.natAbs.size ≤ p.plan.outputIntegerBits := by
  intro z hz
  obtain ⟨i, -, j, -, rfl⟩ := mem_cpuIntegerProduct.mp hz
  exact hs.dot_size i j

theorem cpuIntegerProduct_length (p : PreparedProduct) :
    (cpuIntegerProduct p).length = p.plan.shape.rows * p.plan.shape.cols := by
  rw [cpuIntegerProduct_eq]
  simp [exactEntries]

/-- Neither the shape nor the width check ever refuses the true product. -/
theorem roundIntegerProduct_true_eq (hs : Sound mpfr left right p) (range : ExponentRange)
    (round : Round) :
    roundIntegerProduct mpfr range p (cpuIntegerProduct p) round = (do
      checkRoundingContext range p round
      (cpuIntegerProduct p).mapM fun integer =>
      roundInteger mpfr range p integer (scale p) round) := by
  have hall : (cpuIntegerProduct p).all
      (fun integer => integer.natAbs.size ≤ p.plan.outputIntegerBits) = true := by
    simpa using cpuIntegerProduct_size hs
  simp only [roundIntegerProduct, cpuIntegerProduct_length, beq_self_eq_true, hall, ensure, if_true,
    ok_bind]
  rfl

/-- The true product is rounded exactly when the context is unchanged and every
nonzero entry is in the domain. -/
theorem roundIntegerProduct_true_ok (hm : mpfr.Correct) (hs : Sound mpfr left right p)
    (range : ExponentRange) (round : Round) :
    (∃ out, roundIntegerProduct mpfr range p (cpuIntegerProduct p) round = .ok out) ↔
      supported round = true ∧ range = p.exponentRange ∧
        ∀ z ∈ cpuIntegerProduct p, z ≠ 0 → InDomain p z := by
  constructor
  · rintro ⟨out, h⟩
    obtain ⟨hround, hrange, hall⟩ := roundIntegerProduct_ok h
    refine ⟨hround, hrange, fun z hz hne => ?_⟩
    obtain ⟨v, hv⟩ := forall₂_mem hall hz
    exact roundInteger_inDomain hv hne
  · rintro ⟨hround, rfl, hd⟩
    obtain ⟨out, hout, -⟩ := mapM_forall₂ (f := fun z =>
        roundInteger mpfr p.exponentRange p z (scale p) round) (Q := fun _ _ => True)
      fun (z : Int) (hz : z ∈ cpuIntegerProduct p) => by
        obtain ⟨v, hv, -⟩ := roundInteger_ok hm hs round (cpuIntegerProduct_size hs z hz) (hd z hz)
        exact ⟨v, hv, trivial⟩
    refine ⟨out, ?_⟩
    rw [roundIntegerProduct_true_eq hs]
    simp only [checkRoundingContext, ensure, hround, if_true, ok_bind, decide_true]
    exact hout

end

/-! ## The routes agree -/

theorem integerToBigint_eq (z : Int) : integerToBigint z = z := by
  rw [integerToBigint, Nat.ofDigits_digits]
  exact Int.sign_mul_natAbs z

theorem bigintToInteger_eq (z : Int) : bigintToInteger z = z := by
  rw [bigintToInteger, Nat.ofDigits_digits]
  split <;> omega

/-- What a route returned: the serial one, the parallel one on any division of
the work, the modular one on any backend; each under the range then in force. -/
inductive Returns (mpfr : Mpfr) (engine : Engine) (p : PreparedProduct) (round : Round) :
    List MpfrFloat → Prop where
  | cpu {range out} (h : cpuProduct mpfr range p round = .ok out) : Returns mpfr engine p round out
  | parallel {range split out} (h : cpuProductParallel mpfr range split p round = .ok out) :
    Returns mpfr engine p round out
  | modular {range backend limits out}
    (h : modularProduct mpfr range engine p round backend limits = .ok out) :
    Returns mpfr engine p round out

section
variable {mpfr : Mpfr} {engine : Engine} {p : PreparedProduct}

theorem backendEntries_ok (hb : Bezout engine.extendedGcd) (hd : engine.device.Exact)
    {backend : ProductBackend} {left right out : List Int} {rows inner cols : Nat}
    {limits : ProductLimits}
    (h : backendEntries engine backend left right rows inner cols limits = .ok out) :
    out = exactEntries left right rows inner cols := by
  unfold backendEntries at h
  split at h
  · rename_i result hresult
    obtain ⟨_, _, h⟩ := bind_eq_ok h
    cases h
    exact (multiplyOn_exact hd hb hresult).1
  · generalize hwide : WideProduct.multiplyWideEntries engine.device engine.extendedGcd
      engine.env backend
      left right rows inner cols limits = wide at h
    cases wide with
    | error e => cases h
    | ok entries =>
      cases h
      exact multiplyWideEntries_entries hd hb hwide
  · cases h

theorem modularIntegers_ok (hb : Bezout engine.extendedGcd) (hd : engine.device.Exact)
    {backend : ProductBackend} {limits remaining : ProductLimits} {out : List Int}
    (h : modularIntegers engine p backend limits remaining = .ok out) :
    out = cpuIntegerProduct p := by
  unfold modularIntegers at h
  obtain ⟨_, _, h⟩ := bind_eq_ok h
  obtain ⟨_, _, h⟩ := bind_eq_ok h
  obtain ⟨_, _, h⟩ := bind_eq_ok h
  obtain ⟨_, _, h⟩ := bind_eq_ok h
  obtain ⟨entries, hentries, h⟩ := bind_eq_ok h
  obtain ⟨_, _, h⟩ := bind_eq_ok h
  obtain ⟨_, _, h⟩ := bind_eq_ok h
  cases h
  have hbridge : integerToBigint = id := funext integerToBigint_eq
  have hback : bigintToInteger = id := funext bigintToInteger_eq
  rw [backendEntries_ok hb hd hentries, hbridge, hback, List.map_id, List.map_id, List.map_id,
    cpuIntegerProduct_eq]

theorem cpuProduct_rounds {range : ExponentRange} {round : Round} {out : List MpfrFloat}
    (h : cpuProduct mpfr range p round = .ok out) :
    roundIntegerProduct mpfr range p (cpuIntegerProduct p) round = .ok out := by
  unfold cpuProduct at h
  obtain ⟨_, _, h⟩ := bind_eq_ok h
  exact h

/-- Every route rounds the serial integer product. -/
theorem Returns.rounds (hb : Bezout engine.extendedGcd) (hd : engine.device.Exact) {round : Round}
    {out : List MpfrFloat} (h : Returns mpfr engine p round out) :
    roundIntegerProduct mpfr p.exponentRange p (cpuIntegerProduct p) round = .ok out := by
  have settle {range : ExponentRange}
      (h : roundIntegerProduct mpfr range p (cpuIntegerProduct p) round = .ok out) :
      roundIntegerProduct mpfr p.exponentRange p (cpuIntegerProduct p) round = .ok out := by
    rwa [(roundIntegerProduct_ok h).2.1] at h
  cases h with
  | cpu h => exact settle (cpuProduct_rounds h)
  | parallel h =>
    unfold cpuProductParallel at h
    obtain ⟨_, _, h⟩ := bind_eq_ok h
    dsimp only at h
    rw [collect_eq, ← List.range_eq_range', ← flatMap_rows (fun i j => p.dot i j)] at h
    exact settle h
  | modular h =>
    unfold modularProduct at h
    obtain ⟨_, _, h⟩ := bind_eq_ok h
    obtain ⟨remaining, _, h⟩ := bind_eq_ok h
    dsimp only at h
    split at h
    · exact settle (cpuProduct_rounds h)
    · obtain ⟨integers, hintegers, h⟩ := bind_eq_ok h
      rw [modularIntegers_ok hb hd hintegers] at h
      exact settle h

end

/-! ## The dyadic dot product -/

/-- The value stored at an index of a matrix. -/
def stored (values : List MpfrFloat) (k : Nat) : ℚ := (values[k]?.bind MpfrFloat.value).getD 0

/-- The exact dot product of row `i` and column `j`. -/
def dyadicDot (left right : List MpfrFloat) (shape : ProductShape) (i j : Nat) : ℚ :=
  ∑ t ∈ Finset.range shape.inner,
    stored left (i * shape.inner + t) * stored right (t * shape.cols + j)

theorem stored_aligns {exponent : Int} {bits : Nat} {values : List MpfrFloat} {integers : List Int}
    (h : List.Forall₂ (Aligns exponent bits) values integers) (k : Nat) :
    stored values k = integers.getD k 0 * 2 ^ exponent := by
  induction h generalizing k with
  | nil => simp [stored]
  | cons hv _ ih =>
    cases k with
    | zero => simp [stored, hv.1]
    | succ k => simpa [stored] using ih k

/-- The integer dot product, scaled, is the dyadic one. -/
theorem dyadicDot_eq {mpfr : Mpfr} {left right : List MpfrFloat} {p : PreparedProduct}
    (hs : Sound mpfr left right p) (i j : Nat) :
    dyadicDot left right p.plan.shape i j = p.dot i j * 2 ^ scale p := by
  rw [dot_eq, productEntry, dyadicDot, Int.cast_sum, Finset.sum_mul]
  refine Finset.sum_congr rfl fun t _ => ?_
  rw [stored_aligns hs.left_aligns, stored_aligns hs.right_aligns, scale, zpow_add₀ (by norm_num),
    Int.cast_mul]
  ring

/-- The entry `(i, j)` of a returned matrix. -/
def Entry (out : List MpfrFloat) (p : PreparedProduct) (i j : Nat) (q : ℚ) : Prop :=
  ∃ v, out[i * p.plan.shape.cols + j]? = some v ∧ v.precision = p.plan.precisionBits ∧
    v.value = some q

theorem rounds_entry {mpfr : Mpfr} (hm : mpfr.Correct) {left right : List MpfrFloat}
    {p : PreparedProduct} (hs : Sound mpfr left right p) {round : Round} {out : List MpfrFloat}
    (h : roundIntegerProduct mpfr p.exponentRange p (cpuIntegerProduct p) round = .ok out)
    {i j : Nat} (hi : i < p.plan.shape.rows) (hj : j < p.plan.shape.cols) :
    Entry out p i j (rounded p.plan.precisionBits round
      (dyadicDot left right p.plan.shape i j)) := by
  obtain ⟨-, -, hall⟩ := roundIntegerProduct_ok h
  have hget : (cpuIntegerProduct p)[i * p.plan.shape.cols + j]? = some (p.dot i j) := by
    rw [cpuIntegerProduct_eq, exactEntries_getElem? hi hj, dot_eq]
  obtain ⟨hlt, hget⟩ := List.getElem?_eq_some_iff.mp hget
  have hlt' : i * p.plan.shape.cols + j < out.length := hall.length_eq ▸ hlt
  have hv := hall.get hlt hlt'
  rw [List.get_eq_getElem, List.get_eq_getElem, hget] at hv
  obtain ⟨v, hv', hprecision, hvalue⟩ := roundInteger_ok hm hs round (hs.dot_size i j)
    (roundInteger_inDomain hv)
  rw [hv] at hv'
  cases hv'
  refine ⟨_, List.getElem?_eq_getElem hlt', hprecision, ?_⟩
  rw [hvalue, dyadicDot_eq hs]

/-- A widened product returns the dot products unrounded. -/
theorem exactOutput_entry {mpfr : Mpfr} (hm : mpfr.Correct) {engine : Engine}
    (hb : Bezout engine.extendedGcd)
    (hd : engine.device.Exact) {left right : List MpfrFloat} {p q : PreparedProduct}
    (hp : Admitted mpfr left right p) {budget : Nat} (hq : withExactOutput mpfr p budget = .ok q)
    {round : Round}
    {out : List MpfrFloat} (hout : Returns mpfr engine q round out) {i j : Nat}
    (hi : i < p.plan.shape.rows)
    (hj : j < p.plan.shape.cols) : Entry out q i j (dyadicDot left right p.plan.shape i j) := by
  have hsq := (Admitted.exactOutput hp hq).sound hm
  obtain ⟨-, estimated, -, rfl⟩ := withExactOutput_ok hq
  have hentry := rounds_entry hm hsq (hout.rounds hb hd) hi hj
  -- at the widened precision the rounding is the identity
  rw [dyadicDot_eq hsq, rounded_exact ((hsq.dot_size i j).trans (le_max_left _ 2)),
    ← dyadicDot_eq hsq] at hentry
  exact hentry

/-! ## A reference MPFR -/

/-- The float `m * 2 ^ k`, infinite past the stored widths. -/
def datumOf (m k : Int) : Datum :=
  if h : (m ≠ 0 ∧ m.natAbs.size < 2 ^ 32) ∧ -2 ^ 31 ≤ m.natAbs.size + k ∧
      m.natAbs.size + k < 2 ^ 31 then
    .normal ⟨decide (m < 0), m.natAbs, m.natAbs.size + k, Int.natAbs_pos.mpr h.1.1, h.1.2,
      h.2.1, h.2.2⟩
  else if m = 0 then .zero false else .infinity (decide (m < 0))

def reference : Mpfr where
  precMin := 1
  precMax := 2 ^ 31
  withValRound _ precision z round :=
    ⟨precision, datumOf (significand precision round z) (Int.log 2 |(z : ℚ)| + 1 - precision)⟩
  shiftLeft _ x k :=
    match x.datum with
    | .normal n => ⟨x.precision,
        datumOf (n.sign * n.significand) (n.exponent - n.significand.size + k)⟩
    | _ => x

theorem datumOf_value {m k : Int} (hm : m ≠ 0) (hsize : m.natAbs.size < 2 ^ 32)
    (hl : -2 ^ 31 ≤ m.natAbs.size + k) (hu : m.natAbs.size + k < 2 ^ 31) (precision : Nat) :
    (⟨precision, datumOf m k⟩ : MpfrFloat).value = some ((m : ℚ) * 2 ^ k) := by
  rw [datumOf, dif_pos ⟨⟨hm, hsize⟩, hl, hu⟩]
  refine congrArg some ?_
  have hsign : ((if decide (m < 0) = true then -1 else 1 : Int) : ℚ) * (m.natAbs : ℚ) = m := by
    rw [Nat.cast_natAbs]
    by_cases hneg : m < 0
    · simp [hneg, abs_of_neg hneg]
    · simp [hneg, abs_of_nonneg (not_lt.mp hneg)]
  simp only [Normal.value, Normal.sign, add_sub_cancel_left]
  rw [hsign]

theorem reference_correct : reference.Correct where
  precMin_eq := rfl
  withValRound_value {range precision z round} hlow hhigh hz _ hupper := by
    refine ⟨rfl, ?_⟩
    have hq : (z : ℚ) ≠ 0 := Int.cast_ne_zero.mpr hz
    have hunit := unit_pos precision (z : ℚ)
    have hbound := range.upper_bound
    have hp : 1 ≤ precision := hlow
    have hp' : precision ≤ 2 ^ 31 := hhigh
    -- the significand has `precision` bits, or one more on a carry
    obtain ⟨hl, hu⟩ := abs_significand_bounds hp round hq
    have hnat : ((significand precision round z).natAbs : Int) = |significand precision round z| :=
      Int.natCast_natAbs _
    have hlow' : 2 ^ (precision - 1) ≤ (significand precision round z).natAbs := by
      exact_mod_cast hnat ▸ hl
    have hhigh' : (significand precision round z).natAbs < 2 ^ (precision + 1) := by
      have : (significand precision round z).natAbs ≤ 2 ^ precision := by exact_mod_cast hnat ▸ hu
      exact this.trans_lt (Nat.pow_lt_pow_right (by norm_num) (by omega))
    have hsize₁ := Nat.lt_size.mpr hlow'
    have hsize₂ := Nat.size_le.mpr hhigh'
    have hm : significand precision round z ≠ 0 := by
      intro h0
      rw [h0] at hsize₁
      simp at hsize₁
    change MpfrFloat.value ⟨precision, datumOf _ (Int.log 2 |(z : ℚ)| + 1 - precision)⟩ = _
    rw [log_intCast hz, datumOf_value hm (by omega) (by omega) (by omega), rounded, unit,
      log_intCast hz]
  shiftLeft_value {range x n k} hx hl hu := by
    have hsize : (n.sign * n.significand).natAbs = n.significand := by
      unfold Normal.sign
      split <;> simp
    have hne : n.sign * (n.significand : Int) ≠ 0 := by
      rw [← Int.natAbs_pos, hsize]
      exact n.positive
    have := range.lower_bound
    have := range.upper_bound
    change (reference.shiftLeft range x k).precision = x.precision ∧ _
    simp only [reference, hx, true_and]
    rw [datumOf_value hne (by rw [hsize]; exact n.size_lt) (by rw [hsize]; omega)
      (by rw [hsize]; omega)]
    rw [Normal.value, zpow_add₀ (by norm_num)]
    push_cast
    ring_nf

/-! ## The results -/

/-- **One rounding.** For every admitted product: alignment is exact and below
the reported widths; the accumulator width covers every dot product, so the
conversion of the true product refuses nothing but a changed context and an
exponent outside the supported domain; whatever the three routes return is one
and the same matrix, the correct rounding of the dyadic dot products; and a
widened product returns these dot products unrounded, its workspace subtraction
never underflowing. -/
theorem preparedProduct_rounds_once (mpfr : Mpfr) (hm : mpfr.Correct) (engine : Engine)
    (hb : Bezout engine.extendedGcd) (hd : engine.device.Exact) (left right : List MpfrFloat)
    (p : PreparedProduct) (h : Admitted mpfr left right p) :
    (List.Forall₂ (Aligns p.plan.leftExponent p.plan.leftIntegerBits) left p.left ∧
      List.Forall₂ (Aligns p.plan.rightExponent p.plan.rightIntegerBits) right p.right) ∧
    (∀ i < p.plan.shape.rows, ∀ j < p.plan.shape.cols,
      dyadicDot left right p.plan.shape i j = p.dot i j * 2 ^ scale p ∧
      (p.dot i j).natAbs.size ≤ p.plan.outputIntegerBits) ∧
    (∀ range round,
      roundIntegerProduct mpfr range p (cpuIntegerProduct p) round = (do
        checkRoundingContext range p round
        (cpuIntegerProduct p).mapM fun integer =>
        roundInteger mpfr range p integer (scale p) round) ∧
      ((∃ out, roundIntegerProduct mpfr range p (cpuIntegerProduct p) round = .ok out) ↔
        supported round = true ∧ range = p.exponentRange ∧
          ∀ z ∈ cpuIntegerProduct p, z ≠ 0 → InDomain p z)) ∧
    (∀ round out, Returns mpfr engine p round out →
      (∀ out', Returns mpfr engine p round out' → out' = out) ∧
      out.length = p.plan.shape.rows * p.plan.shape.cols ∧
      ∀ i < p.plan.shape.rows, ∀ j < p.plan.shape.cols, Entry out p i j
        (rounded p.plan.precisionBits round (dyadicDot left right p.plan.shape i j))) ∧
    ∀ budget, (∀ fault, withExactOutput mpfr p budget ≠ .error (.fault fault)) ∧
      ∀ q, withExactOutput mpfr p budget = .ok q → ∀ round out, Returns mpfr engine q round out →
        ∀ i < p.plan.shape.rows, ∀ j < p.plan.shape.cols,
          Entry out q i j (dyadicDot left right p.plan.shape i j) := by
  have hs := h.sound hm
  refine ⟨⟨hs.left_aligns, hs.right_aligns⟩,
    fun i _ j _ => ⟨dyadicDot_eq hs i j, hs.dot_size i j⟩,
    fun range round => ⟨roundIntegerProduct_true_eq hs range round,
      roundIntegerProduct_true_ok hm hs range round⟩,
    fun round out hout => ?_, fun budget => ⟨withExactOutput_no_fault hs budget, ?_⟩⟩
  · have hrounds := hout.rounds hb hd
    refine ⟨fun out' hout' => ?_, ?_, fun i hi j hj => rounds_entry hm hs hrounds hi hj⟩
    · exact Except.ok.inj ((hout'.rounds hb hd).symm.trans hrounds)
    · rw [← (roundIntegerProduct_ok hrounds).2.2.length_eq, cpuIntegerProduct_length]
  · intro q hq round out hout i hi j hj
    exact exactOutput_entry hm hb hd h hq hout hi hj

/-- MPFR's default exponent range. -/
def defaultRange : ExponentRange := ⟨-(2 ^ 30 - 1), 2 ^ 30 - 1, by decide, by decide⟩

/-- The float `m * 2 ^ k` at a precision of 53 bits. -/
def double (m k : Int) : MpfrFloat := ⟨53, datumOf m k⟩

def testLimits : ExactProductLimits := ⟨2 ^ 20, 100, 64, 256⟩

def sampleLeft : List MpfrFloat := [double 3 (-1), double (-5) 0]
def sampleRight : List MpfrFloat := [double 1 (-2), double 7 0]

/-- `[1.5, -5]` times `[0.25, 7]`, to be rounded to three bits. -/
def sample : PreparedProduct where
  plan := ⟨⟨1, 2, 1⟩, 3, -1, -2, 4, 5, 10, 2, 9152⟩
  left := [3, -10]
  right := [1, 28]
  exponentRange := defaultRange

/-- An engine with no device. -/
def sampleEngine : Engine where
  device := ⟨fun _ _ _ => .ok none, fun a b primes rows inner cols =>
    ModularProduct.checked (ModularProduct.cpuResidues a b primes rows inner cols)⟩
  extendedGcd a b := ⟨Int.gcd a b, Int.gcdA a b, Int.gcdB a b⟩
  env := ⟨fun _ => .ok (), .ok 0⟩

/-- `-34.625` to three bits is `-32`. -/
theorem preparedProduct_rounds_once_sample :
    prepare reference defaultRange sampleLeft sampleRight ⟨1, 2, 1⟩ 3 testLimits = .ok sample ∧
    ∃ out, cpuProduct reference defaultRange sample .nearest = .ok out ∧
    Entry out sample 0 0 (-32) := by
  have hprepared : prepare reference defaultRange sampleLeft sampleRight ⟨1, 2, 1⟩ 3 testLimits =
      .ok sample := by decide +kernel
  have hexact : sampleEngine.device.Exact := by
    intro a b primes rows inner columns expected found hcpu h
    change ModularProduct.checked (ModularProduct.cpuResidues a b primes rows inner columns) =
      .ok found at h
    rw [hcpu] at h
    cases h
    rfl
  refine ⟨hprepared, ?_⟩
  have hok : (cpuProduct reference defaultRange sample .nearest).isOk = true := by decide +kernel
  generalize hrun : cpuProduct reference defaultRange sample .nearest = r at hok
  cases r with
  | error e => cases hok
  | ok out =>
    refine ⟨out, rfl, ?_⟩
    have hall := preparedProduct_rounds_once reference reference_correct sampleEngine
      (fun a b => ⟨rfl, (Int.gcd_eq_gcd_ab a b).symm⟩) hexact sampleLeft sampleRight sample
      (.prepared hprepared)
    have hentry := (hall.2.2.2.1 .nearest out (.cpu hrun)).2.2 0 (by decide) 0 (by decide)
    have hvalue : rounded sample.plan.precisionBits .nearest
        (dyadicDot sampleLeft sampleRight sample.plan.shape 0 0) = -32 := by decide +kernel
    rwa [hvalue] at hentry

def tiny : MpfrFloat := double 1 (-600000000)

def tinyProduct : PreparedProduct where
  plan := ⟨⟨1, 1, 1⟩, 53, -600000000, -600000000, 1, 1, 2, 1, 8320⟩
  left := [1]
  right := [1]
  exponentRange := defaultRange

/-- The square of `2 ^ -600000000` is admitted, its integer product is one, and its
conversion is refused: the exponent is below the active minimum. -/
theorem roundIntegerProduct_refuses_tiny :
    prepare reference defaultRange [tiny] [tiny] ⟨1, 1, 1⟩ 53 testLimits = .ok tinyProduct ∧
    cpuIntegerProduct tinyProduct = [1] ∧
    roundIntegerProduct reference defaultRange tinyProduct
      (cpuIntegerProduct tinyProduct) .nearest =
      .error (.refused outsideDomain) := by
  refine ⟨?_, ?_, ?_⟩ <;> decide +kernel

end Xcelerator.Numerics.ExactProductSoundness
