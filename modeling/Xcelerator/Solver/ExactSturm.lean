import Mathlib
import Xcelerator.Foundations.Machine
import Xcelerator.Foundations.Binary64
import Xcelerator.Foundations.Tridiagonal

/-! # Exact inertia counts of a stored binary64 tridiagonal matrix

Every finite value is a dyadic rational. One positive power of two makes the
shifted matrix integral, and the signs of its leading principal determinants
count the eigenvalues below the shift. A zero off-diagonal splits the matrix;
inside a block an interior zero determinant is skipped. -/

namespace Xcelerator.Solver.ExactSturm
open Foundations Foundations.Machine

/-- `dyadic_parts`: the signed significand and its power of two. -/
def dyadicParts (value : Binary64) : ℤ × ℤ :=
  let bits := value.bits
  let exponent := (bits >>> 52) &&& 0x7ff
  let fraction := bits &&& ((1 <<< 52) - 1)
  let (mantissa, power) : ℕ × ℤ :=
    if exponent = 0 then (fraction, -1074)
    else (fraction ||| (1 <<< 52), (exponent : ℤ) - 1023 - 52)
  if mantissa = 0 then (0, 0)
  else (if bits >>> 63 = 0 then (mantissa : ℤ) else -(mantissa : ℤ), power)

/-- `BigInt::sign`. -/
inductive Sign where
  | minus
  | noSign
  | plus
deriving DecidableEq, Repr

def sign (value : ℤ) : Sign := if value < 0 then .minus else if value = 0 then .noSign else .plus

/-- `mantissa << ((power - common) as usize)`: a negative shift is reported. -/
def aligned (mantissa power common : ℤ) : Checked ℤ := do
  let shift ← signed 32 (power - common)
  if 0 ≤ shift then .ok (mantissa * 2 ^ shift.toNat) else .error .overflow

/-- The end of the block that starts before `stop`: the inner `while`. -/
def blockEnd (e : List ℤ) (n stop : ℕ) : ℕ :=
  if stop < n ∧ sign (e.getD (stop - 1) 0) ≠ .noSign then blockEnd e n (stop + 1) else stop
termination_by n - stop

/-- What the loop over one block carries. -/
structure Recurrence where
  previous : ℤ
  current : ℤ
  previousNonzeroSign : Sign
  count : ℕ
deriving DecidableEq, Repr

/-- The `record` closure: a change of sign between nonzero values is counted. -/
def Recurrence.record (s : Recurrence) (value : ℤ) : Recurrence :=
  if sign value ≠ .noSign then
    { s with
      count := if sign value ≠ s.previousNonzeroSign then s.count + 1 else s.count
      previousNonzeroSign := sign value }
  else s

/-- One step of the determinant recurrence. -/
def Recurrence.advance (d e : List ℤ) (s : Recurrence) (i : ℕ) : Recurrence :=
  let next := d.getD i 0 * s.current - e.getD (i - 1) 0 * e.getD (i - 1) 0 * s.previous
  { s.record next with previous := s.current, current := next }

/-- The state after the first entry of a block is recorded. -/
def Recurrence.start (d : List ℤ) (start count : ℕ) : Recurrence :=
  Recurrence.record ⟨1, d.getD start 0, .plus, count⟩ (d.getD start 0)

theorem le_blockEnd (e : List ℤ) (n stop : ℕ) : stop ≤ blockEnd e n stop := by
  induction stop using blockEnd.induct e n with
  | case1 stop h ih =>
    rw [blockEnd, if_pos h]
    omega
  | case2 stop h => rw [blockEnd, if_neg h]

/-- The outer `while` over the blocks. The slices have `n` and `n - 1` entries, so every read is
inside. -/
def countBlocks (d e : List ℤ) (start count : ℕ) : ℕ :=
  if start < d.length then
    let stop := blockEnd e d.length (start + 1)
    let last := (List.range' (start + 1) (stop - (start + 1))).foldl (Recurrence.advance d e)
      (Recurrence.start d start count)
    countBlocks d e stop last.count
  else count
termination_by d.length - start
decreasing_by
  have := le_blockEnd e d.length (start + 1)
  omega

/-- `count_below`: the caller validates the dimensions and finiteness. -/
def countBelow (diagonal offDiagonal : List Binary64) (threshold : Binary64) : Checked ℕ := do
  let values := (diagonal ++ offDiagonal ++ [threshold]).map dyadicParts
  let commonPower := (values.map Prod.snd).min?.getD 0
  let integers ← values.mapM fun parts => aligned parts.1 parts.2 commonPower
  let n := diagonal.length
  let last ← subtract (2 * n) 1
  let shift ← read integers last
  let d := (integers.take n).map (· - shift)
  let e := (integers.take last).drop n
  .ok (countBlocks d e 0 0)

/-- `bracket_width_at_most`: the exact endpoint difference against the tolerance. -/
def bracketWidthAtMost (lower upper tolerance : Binary64) : Checked Bool := do
  let (lm, lp) := dyadicParts lower
  let (um, up) := dyadicParts upper
  let (tm, tp) := dyadicParts tolerance
  let commonPower := min (min lp up) tp
  let l ← aligned lm lp commonPower
  let u ← aligned um up commonPower
  let t ← aligned tm tp commonPower
  .ok (decide (u - l ≤ t))

/-- `difference_at_most_scaled`: `|a - b| ≤ tolerance * scale`. -/
def differenceAtMostScaled (a b tolerance scale : Binary64) : Checked Bool := do
  let (am, ap) := dyadicParts a
  let (bm, bp) := dyadicParts b
  let (tm, tp) := dyadicParts tolerance
  let (sm, sp) := dyadicParts scale
  let product ← signed 32 (tp + sp)
  let power := min (min ap bp) product
  let difference := (← aligned am ap power) - (← aligned bm bp power)
  let magnitude := if sign difference = .minus then -difference else difference
  .ok (decide (magnitude ≤ (← aligned (tm * sm) product power)))

/-- `difference_at_most_sum_scaled`: `|a - b| ≤ absolute + relative * scale`. -/
def differenceAtMostSumScaled (a b absolute relative scale : Binary64) : Checked Bool := do
  let (am, ap) := dyadicParts a
  let (bm, bp) := dyadicParts b
  let (cm, cp) := dyadicParts absolute
  let (rm, rp) := dyadicParts relative
  let (sm, sp) := dyadicParts scale
  let product ← signed 32 (rp + sp)
  let power := min (min (min ap bp) cp) product
  let difference := (← aligned am ap power) - (← aligned bm bp power)
  let magnitude := if sign difference = .minus then -difference else difference
  .ok (decide (magnitude ≤ (← aligned cm cp power) + (← aligned (rm * sm) product power)))

/-! ## Alignment -/

theorem dyadicParts_eq (x : Binary64) :
    dyadicParts x = if x.significand = 0 then (0, 0) else (x.signed, x.exponent) := by
  have hexp : (x.bits >>> 52) &&& 0x7ff = x.encoded := by
    rw [Nat.shiftRight_eq_div_pow]
    exact Nat.and_two_pow_sub_one_eq_mod _ 11
  have hfrac : x.bits &&& ((1 <<< 52) - 1) = x.fraction := Nat.and_two_pow_sub_one_eq_mod _ 52
  have hsign : x.bits >>> 63 = 0 ↔ x.negative = false := by
    rw [Nat.shiftRight_eq_div_pow]
    simp [Binary64.negative]
  have hor : x.fraction ||| (1 <<< 52) = x.fraction + 2 ^ 52 := x.fraction_or
  simp only [dyadicParts, hexp, hfrac, hsign, hor, Binary64.significand, Binary64.signed,
    Binary64.exponent]
  by_cases hzero : x.encoded = 0
  · cases x.negative <;> simp [hzero]
  · cases x.negative <;> simp [hzero]

/-- The parts stand for the value. -/
theorem dyadicParts_value (x : Binary64) :
    ((dyadicParts x).1 : ℚ) * 2 ^ (dyadicParts x).2 = x.value := by
  rw [dyadicParts_eq]
  split
  · rename_i h
    rw [Binary64.value_eq_zero.mpr h]
    simp
  · rfl

theorem dyadicParts_bounds {x : Binary64} (h : x.isFinite = true) :
    -1074 ≤ (dyadicParts x).2 ∧ (dyadicParts x).2 ≤ 971 := by
  rw [dyadicParts_eq]
  split
  · exact ⟨by norm_num, by norm_num⟩
  · exact Binary64.exponent_bounds h

/-- The integer that `aligned` returns. -/
def alignedInteger (mantissa power common : ℤ) : ℤ := mantissa * 2 ^ (power - common).toNat

/-- No shift is negative above the common power. -/
theorem aligned_ok (mantissa : ℤ) {power common : ℤ} (hle : common ≤ power)
    (hbound : power - common < 2 ^ 31) :
    aligned mantissa power common = .ok (alignedInteger mantissa power common) := by
  have hshift : signed 32 (power - common) = .ok (power - common) :=
    signed_ok (by omega) (by simpa using hbound)
  rw [aligned, hshift, ok_bind, if_pos (by omega)]
  rfl

/-- The aligned integer is the value in the common unit. -/
theorem alignedInteger_value (mantissa : ℤ) {power common : ℤ} (hle : common ≤ power) :
    (alignedInteger mantissa power common : ℚ) = mantissa * 2 ^ power * 2 ^ (-common) := by
  have hexp : ((power - common).toNat : ℤ) = power - common := Int.toNat_of_nonneg (by omega)
  have hpow : (2 : ℚ) ^ power * 2 ^ (-common) = 2 ^ (power - common).toNat := by
    rw [← zpow_add₀ (by norm_num : (2 : ℚ) ≠ 0), ← sub_eq_add_neg, ← zpow_natCast, hexp]
  rw [alignedInteger, mul_assoc, hpow]
  push_cast
  rfl

/-! ## The recurrence against elimination -/

theorem sign_ne_noSign {value : ℤ} : sign value ≠ .noSign ↔ value ≠ 0 := by
  unfold sign
  split_ifs with hneg hzero
  · simpa using hneg.ne
  · simpa using hzero
  · simpa using hzero

theorem sign_minus {value : ℤ} : sign value = .minus ↔ value < 0 := by
  unfold sign
  split_ifs with hneg hzero <;> simp [hneg]

/-- Two nonzero integers have different signs when their quotient is negative. -/
theorem sign_ne_iff {x y : ℤ} (hx : x ≠ 0) (hy : y ≠ 0) : sign x ≠ sign y ↔ (x : ℝ) / y < 0 := by
  have hxr : (x : ℝ) ≠ 0 := by exact_mod_cast hx
  have hyr : (y : ℝ) ≠ 0 := by exact_mod_cast hy
  rw [div_neg_iff]
  simp only [Int.cast_pos, Int.cast_lt_zero]
  unfold sign
  rcases lt_or_gt_of_ne hx with h1 | h1 <;> rcases lt_or_gt_of_ne hy with h2 | h2
  · simp [h1, h2, h1.not_gt, h2.not_gt]
  · simp [h1, h2, h2.not_gt, hy]
  · simp [h1, h2, h1.not_gt, hx]
  · simp [h1, h2, h1.not_gt, h2.not_gt, hx, hy]

section Elimination
open Tridiagonal

/-- An integer list as a real sequence. -/
noncomputable def entry (xs : List ℤ) (k : ℕ) : ℝ := (xs.getD k 0 : ℤ)

/-- What the state after entry `i` says about the count of the whole run: a nonzero determinant has
its pivot counted already, a zero one is the pivot of the next pair. -/
structure Counts (d e : List ℤ) (total i : ℕ) (s : Recurrence) : Prop where
  pivoted : s.current ≠ 0 → s.previousNonzeroSign = sign s.current ∧
    total = s.count + negatives (entry d) (entry e) (d.length - (i + 1)) (i + 1)
      (entry d (i + 1) - entry e i * entry e i * (s.previous / s.current))
  skipped : s.current = 0 → s.previous ≠ 0 ∧ s.previousNonzeroSign = sign s.previous ∧
    total = s.count + negatives (entry d) (entry e) (d.length - i) i 0

theorem start_counts {d e : List ℤ} {start count total : ℕ} (hstart : start < d.length)
    (h : total = count + negatives (entry d) (entry e) (d.length - start) start (entry d start)) :
    Counts d e total start (Recurrence.start d start count) := by
  have hsize : d.length - start = d.length - (start + 1) + 1 := by omega
  by_cases hzero : d.getD start 0 = 0
  · have hstate : Recurrence.start d start count = ⟨1, d.getD start 0, .plus, count⟩ :=
      if_neg (by rw [sign_ne_noSign]; exact not_not.mpr hzero)
    rw [hstate]
    refine ⟨fun hne => absurd hzero hne, fun _ => ⟨one_ne_zero, rfl, ?_⟩⟩
    have hentry : entry d start = 0 := by rw [entry, hzero, Int.cast_zero]
    rwa [hentry] at h
  · have hpivot : entry d start ≠ 0 := Int.cast_ne_zero.mpr hzero
    have hstate : Recurrence.start d start count = ⟨1, d.getD start 0, sign (d.getD start 0),
        if sign (d.getD start 0) ≠ .plus then count + 1 else count⟩ :=
          if_pos (sign_ne_noSign.mpr hzero)
    have hsign : sign (d.getD start 0) ≠ .plus ↔ entry d start < 0 := by
      have := sign_ne_iff hzero one_ne_zero
      rwa [Int.cast_one, div_one] at this
    rw [hstate]
    refine ⟨fun _ => ⟨rfl, ?_⟩, fun h0 => absurd h0 hzero⟩
    have hquotient : entry e start * entry e start * ((1 : ℤ) / (d.getD start 0 : ℤ) : ℝ) =
        entry e start * entry e start / entry d start := by
      rw [Int.cast_one, mul_one_div]
      rfl
    rw [h, hsize, negatives_pivot _ _ hpivot]
    simp only [hsign, hquotient]
    split <;> omega

/-- One step of the recurrence inside a block. -/
theorem advance_counts {d e : List ℤ} {total i : ℕ} {s : Recurrence} (hi : i + 1 < d.length)
    (hedge : e.getD i 0 ≠ 0) (h : Counts d e total i s) :
    Counts d e total (i + 1) (Recurrence.advance d e s (i + 1)) := by
  have hedge' : entry e i ≠ 0 := Int.cast_ne_zero.mpr hedge
  set next : ℤ := d.getD (i + 1) 0 * s.current - e.getD i 0 * e.getD i 0 * s.previous with hnext
  have hadvance : Recurrence.advance d e s (i + 1) =
      { s.record next with previous := s.current, current := next } := rfl
  have hcast : (next : ℝ) = entry d (i + 1) * s.current - entry e i * entry e i * s.previous := by
    rw [hnext]
    push_cast
    rfl
  have hsize : d.length - (i + 1) = d.length - (i + 1 + 1) + 1 := by omega
  by_cases hcurrent : s.current = 0
  · -- the zero determinant and its neighbour are one pair with one negative square
    obtain ⟨hprevious, hsign, htotal⟩ := h.skipped hcurrent
    have hnext0 : next ≠ 0 := by
      rw [hnext, hcurrent, mul_zero, zero_sub]
      exact neg_ne_zero.mpr (mul_ne_zero (mul_ne_zero hedge hedge) hprevious)
    have hpair : d.length - i = d.length - (i + 1 + 1) + 2 := by omega
    have hflip : sign next ≠ s.previousNonzeroSign := by
      have hp : (s.previous : ℝ) ≠ 0 := Int.cast_ne_zero.mpr hprevious
      have hsq : 0 < entry e i * entry e i := mul_self_pos.mpr hedge'
      rw [hsign, sign_ne_iff hnext0 hprevious, hcast, hcurrent, Int.cast_zero, mul_zero,
        zero_sub, neg_div, mul_div_assoc, div_self hp, mul_one]
      linarith
    have hrecord : s.record next =
        { s with count := s.count + 1, previousNonzeroSign := sign next } := by
      rw [Recurrence.record, if_pos (sign_ne_noSign.mpr hnext0), if_pos hflip]
    rw [hadvance, hrecord]
    refine ⟨fun _ => ⟨rfl, ?_⟩, fun h0 => absurd h0 hnext0⟩
    rw [htotal, hpair, negatives_pair _ hedge', hcurrent, Int.cast_zero, zero_div,
      mul_zero, sub_zero]
    exact (Nat.add_assoc _ _ _).symm
  · obtain ⟨hsign, htotal⟩ := h.pivoted hcurrent
    have hc : (s.current : ℝ) ≠ 0 := Int.cast_ne_zero.mpr hcurrent
    set pivot : ℝ := entry d (i + 1) - entry e i * entry e i * (s.previous / s.current) with hpivot
    have hproduct : (next : ℝ) = pivot * s.current := by
      rw [hcast, hpivot, sub_mul, mul_assoc (entry e i * entry e i), div_mul_cancel₀ _ hc]
    by_cases hnext0 : next = 0
    · have hzero : pivot = 0 := by
        have : pivot * s.current = 0 := by rw [← hproduct, hnext0, Int.cast_zero]
        exact (mul_eq_zero.mp this).resolve_right hc
      have hrecord : s.record next = s := by
        rw [Recurrence.record, if_neg (by rw [sign_ne_noSign]; exact not_not.mpr hnext0)]
      rw [hadvance, hrecord]
      refine ⟨fun hne => absurd hnext0 hne, fun _ => ⟨hcurrent, hsign, ?_⟩⟩
      rw [htotal, hzero]
    · have hpivot0 : pivot ≠ 0 := by
        intro h0
        rw [h0, zero_mul] at hproduct
        exact hnext0 (Int.cast_eq_zero.mp hproduct)
      have hflip : sign next ≠ s.previousNonzeroSign ↔ pivot < 0 := by
        rw [hsign, sign_ne_iff hnext0 hcurrent, hproduct, mul_div_assoc, div_self hc, mul_one]
      have hrecord : s.record next = { s with
          count := if sign next ≠ s.previousNonzeroSign then s.count + 1 else s.count
          previousNonzeroSign := sign next } := by
        rw [Recurrence.record, if_pos (sign_ne_noSign.mpr hnext0)]
      rw [hadvance, hrecord]
      refine ⟨fun _ => ⟨rfl, ?_⟩, fun h0 => absurd h0 hnext0⟩
      have hquotient : entry e (i + 1) * entry e (i + 1) * (s.current / next : ℝ) =
          entry e (i + 1) * entry e (i + 1) / pivot := by
        rw [hproduct, div_mul_cancel_right₀ hc, ← div_eq_mul_inv]
      rw [htotal, hsize, negatives_pivot _ _ hpivot0]
      simp only [hflip, hquotient]
      split <;> omega

/-- The recurrence over a block. -/
theorem block_counts {d e : List ℤ} {total start : ℕ} (s : Recurrence) (steps : ℕ)
    (hinside : start + steps < d.length)
    (hedge : ∀ i, start ≤ i → i < start + steps → e.getD i 0 ≠ 0) (h : Counts d e total start s) :
    Counts d e total (start + steps)
    ((List.range' (start + 1) steps).foldl (Recurrence.advance d e) s) := by
  induction steps with
  | zero => exact h
  | succ steps ih =>
    rw [List.range'_concat, List.foldl_append, List.foldl_cons, List.foldl_nil, one_mul,
      Nat.add_right_comm start 1 steps]
    exact advance_counts (by omega) (hedge (start + steps) (by omega) (by omega))
      (ih (by omega) fun i hl hu => hedge i hl (by omega))

/-- A block leaves off at the end of the matrix or at a zero off-diagonal. -/
theorem blockEnd_spec {e : List ℤ} {n stop : ℕ} (h : stop ≤ n) :
    blockEnd e n stop ≤ n ∧ (blockEnd e n stop < n → e.getD (blockEnd e n stop - 1) 0 = 0) ∧
      ∀ i, stop ≤ i + 1 → i + 1 < blockEnd e n stop → e.getD i 0 ≠ 0 := by
  induction stop using blockEnd.induct e n with
  | case1 stop hcontinue ih =>
    obtain ⟨hle, hzero, hinside⟩ := ih hcontinue.1
    rw [blockEnd, if_pos hcontinue]
    refine ⟨hle, hzero, fun i hl hu => ?_⟩
    by_cases hi : i + 1 = stop
    · have := sign_ne_noSign.mp hcontinue.2
      rwa [← hi] at this
    · exact hinside i (by omega) hu
  | case2 stop hstop =>
    rw [blockEnd, if_neg hstop]
    refine ⟨h, fun hlt => ?_, fun i hl hu => by omega⟩
    by_contra hne
    exact hstop ⟨hlt, sign_ne_noSign.mpr hne⟩

/-- The count that a finished block hands over. -/
theorem Counts.finished {d e : List ℤ} {total i : ℕ} {s : Recurrence} (h : Counts d e total i s)
    (hi : i < d.length) (hedge : i + 1 < d.length → e.getD i 0 = 0) :
    total = s.count + negatives (entry d) (entry e) (d.length - (i + 1)) (i + 1)
    (entry d (i + 1)) := by
  have hsize : d.length - i = d.length - (i + 1) + 1 := by omega
  by_cases hlast : i + 1 < d.length
  · have hzero : entry e i = 0 := by rw [entry, hedge hlast, Int.cast_zero]
    by_cases hcurrent : s.current = 0
    · rw [(h.skipped hcurrent).2.2, hsize, negatives_decoupled _ hzero]
    · rw [(h.pivoted hcurrent).2, hzero, zero_mul, zero_mul, sub_zero]
  · have hnone : d.length - (i + 1) = 0 := by omega
    by_cases hcurrent : s.current = 0
    · have hone : negatives (entry d) (entry e) 1 i 0 = 0 := if_neg (lt_irrefl 0)
      rw [(h.skipped hcurrent).2.2, hsize, hnone, hone, negatives]
    · rw [(h.pivoted hcurrent).2, hnone, negatives, negatives]

/-- The loop over the blocks counts what elimination from `start` counts. -/
theorem countBlocks_eq (d e : List ℤ) (start count : ℕ) :
    countBlocks d e start count =
      count + negatives (entry d) (entry e) (d.length - start) start (entry d start) := by
  induction start, count using countBlocks.induct d e with
  | case1 start count hstart stop last ih =>
    rw [countBlocks, if_pos hstart]
    obtain ⟨hle, hzero, hinside⟩ := blockEnd_spec (e := e) (show start + 1 ≤ d.length from hstart)
    have hgt := le_blockEnd e d.length (start + 1)
    have hstarted : Counts d e
      (count + negatives (entry d) (entry e) (d.length - start) start (entry d start)) start
        (Recurrence.start d start count) := start_counts hstart rfl
    have hcounts := block_counts _ (stop - (start + 1)) (by omega)
      (fun i hl hu => hinside i (by omega) (by omega)) hstarted
    have hend : start + (stop - (start + 1)) + 1 = stop := by omega
    have hfinished := hcounts.finished (by omega) fun hlt => by
      have := hzero (by omega)
      rwa [← Nat.eq_sub_of_add_eq hend] at this
    rw [hend] at hfinished
    exact ih.trans hfinished.symm
  | case2 start count hstart =>
    have hnone : d.length - start = 0 := by omega
    rw [countBlocks, if_neg hstart, hnone, negatives, Nat.add_zero]

end Elimination

/-! ## Counts and comparisons of the stored values -/

/-- A stored entry as a real number. -/
noncomputable def stored (xs : List Binary64) (k : ℕ) : ℝ :=
  ((xs[k]?.map Binary64.value).getD 0 : ℚ)

/-- The real symmetric tridiagonal matrix of the stored entries. -/
noncomputable def tridiagonal (diagonal offDiagonal : List Binary64) :
    Matrix (Fin diagonal.length) (Fin diagonal.length) ℝ :=
  Matrix.of fun i j =>
    if i = j then stored diagonal i
    else if (j : ℕ) = i + 1 then stored offDiagonal i
    else if (i : ℕ) = j + 1 then stored offDiagonal j
    else 0

theorem tridiagonal_isHermitian (diagonal offDiagonal : List Binary64) :
    (tridiagonal diagonal offDiagonal).IsHermitian := by
  ext i j
  simp only [tridiagonal, Matrix.conjTranspose_apply, Matrix.of_apply, star_trivial]
  by_cases hij : i = j
  · rw [hij]
  · rw [if_neg hij, if_neg (Ne.symm hij)]
    split_ifs <;> first | rfl | omega

section Count
open Inertia Tridiagonal

/-- A positive factor keeps the number of negative weights. -/
theorem negativeCount_scaled {n : ℕ} {A M : Matrix (Fin n) (Fin n) ℝ} {c t : ℝ} {p q : ℕ}
    (hA : A.IsHermitian) (hc : 0 < c) (hM : M = c • (A - t • 1)) (h : HasSignature M p q) :
    q = (Finset.univ.filter fun i => hA.eigenvalues i < t).card := by
  obtain ⟨w, T, hd, rfl, rfl⟩ := h
  obtain ⟨U, hU⟩ := eigenvalues_shifted hA t
  have hscaled : Diagonalizes M (fun i => c * (hA.eigenvalues i - t)) U := by
    refine ⟨hU.injective, fun x => ?_⟩
    rw [hM, Matrix.smul_mulVec, dotProduct_smul, hU.form, smul_eq_mul, Finset.mul_sum]
    exact Finset.sum_congr rfl fun i _ => by ring
  rw [negativeCount_unique hd hscaled, negativeCount]
  congr 1
  ext i
  simp only [Finset.mem_filter, Finset.mem_univ, true_and]
  rw [mul_neg_iff]
  constructor
  · rintro (⟨_, h⟩ | ⟨h, _⟩)
    · linarith
    · linarith
  · intro h
    exact .inl ⟨hc, by linarith⟩

/-- The aligned integers as multiples of the stored values. -/
theorem entry_aligned {xs : List Binary64} {g : Binary64 → ℤ} {c : ℚ}
    (hg : ∀ x ∈ xs, (g x : ℚ) = x.value * c) {k : ℕ} (hk : k < xs.length) :
    entry (xs.map g) k = c * stored xs k := by
  have hx := hg xs[k] (List.getElem_mem hk)
  rw [entry, stored, List.getD_eq_getElem _ _ (by simpa using hk), List.getElem_map,
    List.getElem?_eq_getElem hk, Option.map_some, Option.getD_some, ← Rat.cast_intCast, hx]
  push_cast
  ring

/-- The common power is below every power and no further down than a subnormal. -/
theorem commonPower_spec {inputs : List Binary64} {common : ℤ} (hne : inputs ≠ [])
    (hfinite : ∀ x ∈ inputs, x.isFinite = true)
    (hcommon : common = ((inputs.map dyadicParts).map Prod.snd).min?.getD 0) :
    ∀ x ∈ inputs, common ≤ (dyadicParts x).2 ∧ (dyadicParts x).2 - common < 2 ^ 31 := by
  obtain ⟨m, hm⟩ : ∃ m, ((inputs.map dyadicParts).map Prod.snd).min? = some m :=
    Option.isSome_iff_exists.mp (by simpa using hne)
  rw [hm, Option.getD_some] at hcommon
  obtain ⟨hmem, hleast⟩ := List.min?_eq_some_iff.mp hm
  obtain ⟨parts, hparts, rfl⟩ := List.mem_map.mp hmem
  obtain ⟨y, hy, rfl⟩ := List.mem_map.mp hparts
  have hlow := (dyadicParts_bounds (hfinite y hy)).1
  intro x hx
  have hle := hleast _ (List.mem_map_of_mem (List.mem_map_of_mem hx))
  have hhigh := (dyadicParts_bounds (hfinite x hx)).2
  rw [hcommon]
  exact ⟨hle, by omega⟩

/-- The integer matrix is the shifted real one in the common unit. -/
theorem trailing_aligned {diagonal offDiagonal : List Binary64} {threshold : Binary64}
    {g : Binary64 → ℤ} {c : ℚ} (hlength : offDiagonal.length + 1 = diagonal.length)
    (hd : ∀ x ∈ diagonal, (g x : ℚ) = x.value * c) (he : ∀ x ∈ offDiagonal, (g x : ℚ) = x.value * c)
    (ht : (g threshold : ℚ) = threshold.value * c) :
    let d := (diagonal.map g).map (· - g threshold)
    let e := offDiagonal.map g
    trailing (band (entry d) (entry e) 0 (entry d 0)) 0 diagonal.length =
      (c : ℝ) • (tridiagonal diagonal offDiagonal - (threshold.value : ℝ) • 1) := by
  intro d e
  have hdiagonal : ∀ k < diagonal.length, entry d k =
      c * (stored diagonal k - (threshold.value : ℝ)) := by
    intro k hk
    have hsub : entry d k = entry (diagonal.map g) k - (g threshold : ℝ) := by
      rw [entry, entry, List.getD_eq_getElem _ _ (by simpa [d] using hk),
        List.getD_eq_getElem _ _ (by simpa using hk)]
      simp [d]
    rw [hsub, entry_aligned hd hk, ← Rat.cast_intCast, ht]
    push_cast
    ring
  have hoff : ∀ k < offDiagonal.length, entry e k = c * stored offDiagonal k :=
    fun k hk => entry_aligned he hk
  ext i j
  have hi := i.isLt
  have hj := j.isLt
  simp only [trailing, band, tridiagonal, Matrix.of_apply, Matrix.smul_apply, Matrix.sub_apply,
    smul_eq_mul, Nat.zero_add]
  by_cases hij : i = j
  · subst hij
    have hpick : (if (i : ℕ) = 0 then entry d 0 else entry d i) = entry d i := by
      split
      · rename_i h
        rw [h]
      · rfl
    rw [if_pos rfl, hpick, if_pos rfl, Matrix.one_apply_eq, mul_one, hdiagonal i hi]
  · have hne : (i : ℕ) ≠ j := fun h => hij (Fin.ext h)
    rw [if_neg hne, if_neg hij, Matrix.one_apply_ne hij, mul_zero, sub_zero]
    split_ifs with hnext hprevious
    · exact hoff i (by omega)
    · exact hoff j (by omega)
    · rw [mul_zero]

/-- **The count is the number of eigenvalues strictly below the shift.** -/
theorem countBelow_eq {diagonal offDiagonal : List Binary64} {threshold : Binary64}
    (hlength : offDiagonal.length + 1 = diagonal.length)
    (hd : ∀ x ∈ diagonal, x.isFinite = true) (he : ∀ x ∈ offDiagonal, x.isFinite = true)
    (ht : threshold.isFinite = true) :
    countBelow diagonal offDiagonal threshold = .ok (Finset.univ.filter fun i =>
      (tridiagonal_isHermitian diagonal offDiagonal).eigenvalues i <
        (threshold.value : ℝ)).card := by
  set inputs := diagonal ++ offDiagonal ++ [threshold] with hinputs
  set common : ℤ := ((inputs.map dyadicParts).map Prod.snd).min?.getD 0 with hcommon
  have hfinite : ∀ x ∈ inputs, x.isFinite = true := by
    intro x hx
    rcases List.mem_append.mp hx with hx | hx
    · exact (List.mem_append.mp hx).elim (hd x) (he x)
    · rwa [List.mem_singleton.mp hx]
  have hpowers := commonPower_spec (by simp [hinputs]) hfinite hcommon
  let g : Binary64 → ℤ := fun x => alignedInteger (dyadicParts x).1 (dyadicParts x).2 common
  have hintegers : (inputs.map dyadicParts).mapM (fun parts => aligned parts.1 parts.2 common) =
      .ok (inputs.map g) := by
    rw [List.mapM_map]
    exact mapM_ok fun x hx => aligned_ok _ (hpowers x hx).1 (hpowers x hx).2
  have hvalue : ∀ x ∈ inputs, (g x : ℚ) = x.value * 2 ^ (-common) := by
    intro x hx
    rw [← dyadicParts_value]
    exact alignedInteger_value _ (hpowers x hx).1
  have hsplit : inputs.map g = diagonal.map g ++ (offDiagonal.map g ++ [g threshold]) := by
    simp [hinputs]
  have hlast : subtract (2 * diagonal.length) 1 = .ok (diagonal.length + offDiagonal.length) := by
    rw [subtract_ok (by omega)]
    congr 1
    omega
  have hshift : read (inputs.map g) (diagonal.length + offDiagonal.length) = .ok (g threshold) := by
    refine read_ok ?_
    rw [hsplit, List.getElem?_append_right (by simp), List.getElem?_append_right (by simp)]
    simp
  have htake : (inputs.map g).take diagonal.length = diagonal.map g := by
    rw [hsplit, List.take_left' (by simp)]
  have hdrop : ((inputs.map g).take (diagonal.length + offDiagonal.length)).drop diagonal.length =
      offDiagonal.map g := by
    rw [hsplit, List.take_append, List.length_map, Nat.add_sub_cancel_left,
      List.take_of_length_le (by simp), List.drop_left' (by simp), List.take_left' (by simp)]
  have hcode : countBelow diagonal offDiagonal threshold =
      .ok (countBlocks ((diagonal.map g).map (· - g threshold)) (offDiagonal.map g) 0 0) := by
    simp only [countBelow, ← hinputs, ← hcommon, hintegers, ok_bind, hlast, hshift, htake, hdrop]
  rw [hcode, countBlocks_eq, Nat.zero_add, Nat.sub_zero, List.length_map, List.length_map]
  obtain ⟨p, hp⟩ := hasSignature_negatives (entry ((diagonal.map g).map (· - g threshold)))
    (entry (offDiagonal.map g)) diagonal.length 0 (entry ((diagonal.map g).map (· - g threshold)) 0)
  rw [trailing_aligned hlength (fun x hx => hvalue x (by simp [hinputs, hx]))
    (fun x hx => hvalue x (by simp [hinputs, hx])) (hvalue threshold (by simp [hinputs]))] at hp
  have hunit : (0 : ℝ) < ((2 ^ (-common) : ℚ) : ℝ) := by positivity
  rw [negativeCount_scaled (tridiagonal_isHermitian diagonal offDiagonal) hunit rfl hp]

end Count

/-- `difference.sign() == Sign::Minus` selects the absolute value. -/
theorem magnitude_eq (difference : ℤ) :
    (if sign difference = .minus then -difference else difference) = |difference| := by
  simp only [sign_minus]
  split
  · rename_i h
    rw [abs_of_neg h]
  · rename_i h
    rw [abs_of_nonneg (not_lt.mp h)]

theorem bracketWidthAtMost_eq {lower upper tolerance : Binary64} (hl : lower.isFinite = true)
    (hu : upper.isFinite = true) (ht : tolerance.isFinite = true) :
    bracketWidthAtMost lower upper tolerance =
      .ok (decide (upper.value - lower.value ≤ tolerance.value)) := by
  obtain ⟨hl1, hl2⟩ := dyadicParts_bounds hl
  obtain ⟨hu1, hu2⟩ := dyadicParts_bounds hu
  obtain ⟨ht1, ht2⟩ := dyadicParts_bounds ht
  set common := min (min (dyadicParts lower).2 (dyadicParts upper).2) (dyadicParts tolerance).2 with
    hcommon
  have hunit : (0 : ℚ) < 2 ^ (-common) := by positivity
  simp only [bracketWidthAtMost, ← hcommon]
  rw [aligned_ok _ (by omega) (by omega), ok_bind, aligned_ok _ (by omega) (by omega), ok_bind,
    aligned_ok _ (by omega) (by omega), ok_bind]
  congr 1
  rw [decide_eq_decide, ← Int.cast_le (R := ℚ), Int.cast_sub, alignedInteger_value _ (by omega),
    alignedInteger_value _ (by omega), alignedInteger_value _ (by omega), dyadicParts_value,
    dyadicParts_value, dyadicParts_value, ← sub_mul]
  exact mul_le_mul_iff_left₀ hunit

theorem product_value (x y : Binary64) :
    ((dyadicParts x).1 * (dyadicParts y).1 : ℚ) * 2 ^ ((dyadicParts x).2 + (dyadicParts y).2) =
      x.value * y.value := by
  rw [zpow_add₀ (by norm_num : (2 : ℚ) ≠ 0), ← dyadicParts_value x, ← dyadicParts_value y]
  ring

theorem differenceAtMostScaled_eq {a b tolerance scale : Binary64} (ha : a.isFinite = true)
    (hb : b.isFinite = true) (ht : tolerance.isFinite = true) (hs : scale.isFinite = true) :
    differenceAtMostScaled a b tolerance scale =
      .ok (decide (|a.value - b.value| ≤ tolerance.value * scale.value)) := by
  obtain ⟨ha1, ha2⟩ := dyadicParts_bounds ha
  obtain ⟨hb1, hb2⟩ := dyadicParts_bounds hb
  obtain ⟨ht1, ht2⟩ := dyadicParts_bounds ht
  obtain ⟨hs1, hs2⟩ := dyadicParts_bounds hs
  have hproduct : signed 32 ((dyadicParts tolerance).2 + (dyadicParts scale).2) =
      .ok ((dyadicParts tolerance).2 + (dyadicParts scale).2) := signed_ok (by omega) (by omega)
  set common := min (min (dyadicParts a).2 (dyadicParts b).2)
    ((dyadicParts tolerance).2 + (dyadicParts scale).2) with hcommon
  have hunit : (0 : ℚ) < 2 ^ (-common) := by positivity
  simp only [differenceAtMostScaled, hproduct, ok_bind, ← hcommon]
  rw [aligned_ok _ (by omega) (by omega), ok_bind, aligned_ok _ (by omega) (by omega), ok_bind,
    aligned_ok _ (by omega) (by omega), ok_bind]
  congr 1
  rw [decide_eq_decide, magnitude_eq, ← Int.cast_le (R := ℚ), Int.cast_abs, Int.cast_sub,
    alignedInteger_value _ (by omega), alignedInteger_value _ (by omega),
    alignedInteger_value _ (by omega),
    dyadicParts_value, dyadicParts_value, Int.cast_mul, product_value, ← sub_mul, abs_mul,
    abs_of_pos hunit]
  exact mul_le_mul_iff_left₀ hunit

theorem differenceAtMostSumScaled_eq {a b absolute relative scale : Binary64}
    (ha : a.isFinite = true)
    (hb : b.isFinite = true) (hc : absolute.isFinite = true) (hr : relative.isFinite = true)
    (hs : scale.isFinite = true) :
    differenceAtMostSumScaled a b absolute relative scale =
      .ok (decide (|a.value - b.value| ≤ absolute.value + relative.value * scale.value)) := by
  obtain ⟨ha1, ha2⟩ := dyadicParts_bounds ha
  obtain ⟨hb1, hb2⟩ := dyadicParts_bounds hb
  obtain ⟨hc1, hc2⟩ := dyadicParts_bounds hc
  obtain ⟨hr1, hr2⟩ := dyadicParts_bounds hr
  obtain ⟨hs1, hs2⟩ := dyadicParts_bounds hs
  have hproduct : signed 32 ((dyadicParts relative).2 + (dyadicParts scale).2) =
      .ok ((dyadicParts relative).2 + (dyadicParts scale).2) := signed_ok (by omega) (by omega)
  set common := min (min (min (dyadicParts a).2 (dyadicParts b).2) (dyadicParts absolute).2)
    ((dyadicParts relative).2 + (dyadicParts scale).2) with hcommon
  have hunit : (0 : ℚ) < 2 ^ (-common) := by positivity
  simp only [differenceAtMostSumScaled, hproduct, ok_bind, ← hcommon]
  rw [aligned_ok _ (by omega) (by omega), ok_bind, aligned_ok _ (by omega) (by omega), ok_bind,
    aligned_ok _ (by omega) (by omega), ok_bind, aligned_ok _ (by omega) (by omega), ok_bind]
  congr 1
  rw [decide_eq_decide, magnitude_eq, ← Int.cast_le (R := ℚ), Int.cast_abs, Int.cast_sub,
    Int.cast_add,
    alignedInteger_value _ (by omega), alignedInteger_value _ (by omega),
    alignedInteger_value _ (by omega),
    alignedInteger_value _ (by omega), dyadicParts_value, dyadicParts_value, dyadicParts_value,
    Int.cast_mul, product_value, ← sub_mul, ← add_mul, abs_mul, abs_of_pos hunit]
  exact mul_le_mul_iff_left₀ hunit

/-- **Stored binary64 matrices are counted, and stored widths compared, exactly.** No shift is
negative and no step is rounded. -/
theorem exact_sturm_f64_exact :
    (∀ (diagonal offDiagonal : List Binary64) (threshold : Binary64),
      offDiagonal.length + 1 = diagonal.length →
      (∀ x ∈ diagonal, x.isFinite = true) → (∀ x ∈ offDiagonal, x.isFinite = true) →
      threshold.isFinite = true →
      countBelow diagonal offDiagonal threshold = .ok (Finset.univ.filter fun i =>
        (tridiagonal_isHermitian diagonal offDiagonal).eigenvalues i <
          (threshold.value : ℝ)).card) ∧
    (∀ lower upper tolerance : Binary64,
      lower.isFinite = true → upper.isFinite = true → tolerance.isFinite = true →
      bracketWidthAtMost lower upper tolerance =
        .ok (decide (upper.value - lower.value ≤ tolerance.value))) ∧
    (∀ a b tolerance scale : Binary64,
      a.isFinite = true → b.isFinite = true → tolerance.isFinite = true → scale.isFinite = true →
      differenceAtMostScaled a b tolerance scale =
        .ok (decide (|a.value - b.value| ≤ tolerance.value * scale.value))) ∧
    (∀ a b absolute relative scale : Binary64,
      a.isFinite = true → b.isFinite = true → absolute.isFinite = true → relative.isFinite = true →
      scale.isFinite = true →
      differenceAtMostSumScaled a b absolute relative scale =
        .ok (decide (|a.value - b.value| ≤ absolute.value + relative.value * scale.value))) := by
  refine ⟨?_, ?_, ?_, ?_⟩
  · intro diagonal offDiagonal threshold hlength hd he ht
    exact countBelow_eq hlength hd he ht
  · intro lower upper tolerance hl hu ht
    exact bracketWidthAtMost_eq hl hu ht
  · intro a b tolerance scale ha hb ht hs
    exact differenceAtMostScaled_eq ha hb ht hs
  · intro a b absolute relative scale ha hb hc hr hs
    exact differenceAtMostSumScaled_eq ha hb hc hr hs

def one : Binary64 := ⟨0x3ff0000000000000, by norm_num⟩

def smallestSubnormal : Binary64 := ⟨1, by norm_num⟩

/-- Two coupled ones and a subnormal entry, counted at an entry; a width that rounds to its
tolerance. -/
theorem exact_sturm_f64_exact_sample :
    countBelow [one, one, smallestSubnormal]
    [one, ⟨0, by norm_num⟩] one = .ok (Finset.univ.filter fun i =>
      (tridiagonal_isHermitian [one, one, smallestSubnormal]
      [one, ⟨0, by norm_num⟩]).eigenvalues i <
        (one.value : ℝ)).card ∧
    bracketWidthAtMost ⟨0x8000000000000001, by norm_num⟩ one one =
      .ok (decide (one.value - Binary64.value ⟨0x8000000000000001, by norm_num⟩ ≤ one.value)) ∧
    differenceAtMostScaled one smallestSubnormal one one =
      .ok (decide (|one.value - smallestSubnormal.value| ≤ one.value * one.value)) ∧
    differenceAtMostSumScaled one smallestSubnormal smallestSubnormal one one =
      .ok (decide (|one.value - smallestSubnormal.value| ≤ smallestSubnormal.value +
        one.value * one.value)) := by
  obtain ⟨hcount, hwidth, hscaled, hsum⟩ := exact_sturm_f64_exact
  refine ⟨hcount _ _ _ rfl (by decide) (by decide) (by decide),
    hwidth _ _ _ (by decide) (by decide) (by decide),
    hscaled _ _ _ _ (by decide) (by decide) (by decide) (by decide),
    hsum _ _ _ _ _ (by decide) (by decide) (by decide) (by decide) (by decide)⟩

end Xcelerator.Solver.ExactSturm
