import Mathlib

/-! Rounding to a binary precision without a bound on the exponent. A nonzero
value is measured in units of its last place, the quotient is brought to an
integer in the requested direction, and the integer is scaled back. With the
units taken from the value to be rounded, the even rule is also right at
precision one. -/

namespace Xcelerator.Foundations.BinaryRounding

inductive Round where
  | nearest
  | zero
  | up
  | down
  | awayZero
deriving DecidableEq, Repr

/-- The integer a quotient is brought to; `nearest` resolves a tie to the even one. -/
def toInteger (round : Round) (q : ℚ) : ℤ :=
  match round with
  | .down => ⌊q⌋
  | .up => ⌈q⌉
  | .zero => if 0 ≤ q then ⌊q⌋ else ⌈q⌉
  | .awayZero => if 0 ≤ q then ⌈q⌉ else ⌊q⌋
  | .nearest =>
    if q - ⌊q⌋ < 1 / 2 then ⌊q⌋
    else if 1 / 2 < q - ⌊q⌋ then ⌊q⌋ + 1
    else if ⌊q⌋ % 2 = 0 then ⌊q⌋ else ⌊q⌋ + 1

/-- The unit in the last place of `x` at precision `p`. -/
def unit (p : Nat) (x : ℚ) : ℚ := 2 ^ (Int.log 2 |x| + 1 - p)

def significand (p : Nat) (round : Round) (x : ℚ) : ℤ := toInteger round (x / unit p x)

/-- The correct rounding of `x` to `p` bits. -/
def rounded (p : Nat) (round : Round) (x : ℚ) : ℚ := significand p round x * unit p x

theorem unit_pos (p : Nat) (x : ℚ) : 0 < unit p x := by
  unfold unit
  positivity

theorem floor_le_toInteger (round : Round) (q : ℚ) : ⌊q⌋ ≤ toInteger round q := by
  have := Int.floor_le_ceil q
  unfold toInteger
  cases round <;> dsimp only <;> (try split_ifs) <;> omega

theorem toInteger_le_ceil (round : Round) (q : ℚ) : toInteger round q ≤ ⌈q⌉ := by
  have hfc := Int.floor_le_ceil q
  -- the nearest mode only steps up from the floor of a value that is no integer
  have hstep : ¬ q - ⌊q⌋ < 1 / 2 → ⌊q⌋ + 1 ≤ ⌈q⌉ := by
    intro h
    refine Int.add_one_le_iff.mpr (Int.lt_ceil.mpr ?_)
    linarith
  unfold toInteger
  cases round <;> dsimp only <;> (try split_ifs) <;> (try omega) <;> exact hstep ‹_›

theorem toInteger_intCast (round : Round) (z : ℤ) : toInteger round (z : ℚ) = z := by
  have hl := floor_le_toInteger round (z : ℚ)
  have hu := toInteger_le_ceil round (z : ℚ)
  rw [Int.floor_intCast] at hl
  rw [Int.ceil_intCast] at hu
  omega

theorem le_toInteger {round : Round} {q : ℚ} {z : ℤ} (h : (z : ℚ) ≤ q) : z ≤ toInteger round q :=
  (Int.le_floor.mpr h).trans (floor_le_toInteger round q)

theorem toInteger_le {round : Round} {q : ℚ} {z : ℤ} (h : q ≤ (z : ℚ)) : toInteger round q ≤ z :=
  (toInteger_le_ceil round q).trans (Int.ceil_le.mpr h)

theorem abs_toInteger_le {round : Round} {q : ℚ} {z : ℤ} (h : |q| ≤ (z : ℚ)) :
    |toInteger round q| ≤ z := by
  obtain ⟨hl, hu⟩ := abs_le.mp h
  exact abs_le.mpr ⟨le_toInteger (by push_cast; exact hl), toInteger_le hu⟩

theorem le_abs_toInteger {round : Round} {q : ℚ} {z : ℤ} (h : (z : ℚ) ≤ |q|) :
    z ≤ |toInteger round q| := by
  rcases le_abs.mp h with h | h
  · exact (le_toInteger h).trans (le_abs_self _)
  · have : toInteger round q ≤ -z := toInteger_le (by push_cast; linarith)
    exact (le_neg_of_le_neg this).trans (neg_le_abs _)

theorem log_mul_zpow {x : ℚ} (hx : x ≠ 0) (k : ℤ) :
    Int.log 2 |x * 2 ^ k| = Int.log 2 |x| + k := by
  have h2 : (0 : ℚ) < 2 ^ k := by positivity
  have hpos : 0 < |x| := abs_pos.mpr hx
  rw [abs_mul, abs_of_pos h2]
  have hl := Int.zpow_log_le_self (R := ℚ) (b := 2) (by norm_num) hpos
  have hu := Int.lt_zpow_succ_log_self (R := ℚ) (b := 2) (by norm_num) |x|
  push_cast at hl hu
  apply le_antisymm
  · refine Int.lt_add_one_iff.mp
      ((Int.lt_zpow_iff_log_lt (b := 2) (by norm_num) (by positivity)).mp ?_)
    push_cast
    calc |x| * 2 ^ k < 2 ^ (Int.log 2 |x| + 1) * 2 ^ k := by gcongr
      _ = 2 ^ (Int.log 2 |x| + k + 1) := by rw [← zpow_add₀ (by norm_num)]; ring_nf
  · refine (Int.zpow_le_iff_le_log (b := 2) (by norm_num) (by positivity)).mp ?_
    push_cast
    calc (2 : ℚ) ^ (Int.log 2 |x| + k) = 2 ^ Int.log 2 |x| * 2 ^ k := zpow_add₀ (by norm_num) _ _
      _ ≤ |x| * 2 ^ k := by gcongr

theorem unit_mul_zpow (p : Nat) {x : ℚ} (hx : x ≠ 0) (k : ℤ) :
    unit p (x * 2 ^ k) = unit p x * 2 ^ k := by
  unfold unit
  rw [log_mul_zpow hx, ← zpow_add₀ (by norm_num)]
  ring_nf

/-- Scaling by a power of two commutes with every rounding mode. -/
theorem rounded_mul_zpow (p : Nat) (round : Round) {x : ℚ} (hx : x ≠ 0) (k : ℤ) :
    rounded p round (x * 2 ^ k) = rounded p round x * 2 ^ k := by
  have h2 : (2 : ℚ) ^ k ≠ 0 := by positivity
  unfold rounded significand
  rw [unit_mul_zpow p hx, mul_div_mul_right _ _ h2, mul_assoc]

@[simp] theorem rounded_zero (p : Nat) (round : Round) : rounded p round 0 = 0 := by
  have : toInteger round 0 = 0 := by simpa using toInteger_intCast round 0
  simp [rounded, significand, this]

theorem abs_div_unit (p : Nat) (x : ℚ) : |x / unit p x| = |x| / unit p x := by
  rw [abs_div, abs_of_pos (unit_pos p x)]

theorem zpow_eq_mul_unit (p n : Nat) (x : ℚ) {e : ℤ} (he : e = n + (Int.log 2 |x| + 1 - p)) :
    (2 : ℚ) ^ e = ((2 ^ n : ℤ) : ℚ) * unit p x := by
  unfold unit
  push_cast
  rw [he, zpow_add₀ (by norm_num), zpow_natCast]

/-- The significand of a nonzero value has `p` bits, or is the next power of two. -/
theorem abs_significand_bounds {p : Nat} (hp : 1 ≤ p) (round : Round) {x : ℚ} (hx : x ≠ 0) :
    2 ^ (p - 1) ≤ |significand p round x| ∧ |significand p round x| ≤ 2 ^ p := by
  have hu := unit_pos p x
  have hlow := Int.zpow_log_le_self (R := ℚ) (b := 2) (by norm_num) (abs_pos.mpr hx)
  have hhigh := Int.lt_zpow_succ_log_self (R := ℚ) (b := 2) (by norm_num) |x|
  push_cast at hlow hhigh
  constructor
  · refine le_abs_toInteger ?_
    rw [abs_div_unit, le_div_iff₀ hu, ← zpow_eq_mul_unit p (p - 1) x (e := Int.log 2 |x|)
      (by omega)]
    exact hlow
  · refine abs_toInteger_le ?_
    rw [abs_div_unit, div_le_iff₀ hu, ← zpow_eq_mul_unit p p x (e := Int.log 2 |x| + 1) (by omega)]
    exact hhigh.le

/-- A rounded value stays in the closed binade of the exact one. -/
theorem abs_rounded_bounds {p : Nat} (hp : 1 ≤ p) (round : Round) {x : ℚ} (hx : x ≠ 0) :
    2 ^ Int.log 2 |x| ≤ |rounded p round x| ∧ |rounded p round x| ≤ 2 ^ (Int.log 2 |x| + 1) := by
  have hu := unit_pos p x
  have habs : |rounded p round x| = ((|significand p round x| : ℤ) : ℚ) * unit p x := by
    rw [rounded, abs_mul, abs_of_pos hu, Int.cast_abs]
  obtain ⟨hlow, hhigh⟩ := abs_significand_bounds hp round hx
  rw [habs, zpow_eq_mul_unit p (p - 1) x (e := Int.log 2 |x|) (by omega),
    zpow_eq_mul_unit p p x (e := Int.log 2 |x| + 1) (by omega)]
  exact ⟨mul_le_mul_of_nonneg_right (Int.cast_le.mpr hlow) hu.le,
    mul_le_mul_of_nonneg_right (Int.cast_le.mpr hhigh) hu.le⟩

/-- `Int.log` of an integer, from its bit length. -/
theorem log_intCast {z : ℤ} (hz : z ≠ 0) : Int.log 2 |(z : ℚ)| = (z.natAbs.size : ℤ) - 1 := by
  have hcast : |(z : ℚ)| = ((z.natAbs : ℕ) : ℚ) := by
    rw [← Int.cast_abs, Int.abs_eq_natAbs, Int.cast_natCast]
  have hsize : 0 < z.natAbs.size := Nat.size_pos.mpr (Int.natAbs_pos.mpr hz)
  have hlow : 2 ^ (z.natAbs.size - 1) ≤ z.natAbs := Nat.lt_size.mp (by omega)
  have hhigh := Nat.lt_size_self z.natAbs
  have hlog : Nat.log 2 z.natAbs = z.natAbs.size - 1 :=
    Nat.log_eq_of_pow_le_of_lt_pow hlow (by rwa [Nat.sub_add_cancel hsize])
  rw [hcast, Int.log_natCast, hlog]
  omega

/-- An integer no wider than the precision is not changed, wherever it is scaled. -/
theorem rounded_exact {p : Nat} {z : ℤ} (hz : z.natAbs.size ≤ p) (round : Round) (k : ℤ) :
    rounded p round (z * 2 ^ k) = z * 2 ^ k := by
  by_cases h0 : z = 0
  · simp [h0]
  have hq : (z : ℚ) ≠ 0 := Int.cast_ne_zero.mpr h0
  rw [rounded_mul_zpow p round hq]
  -- the unit of `z` divides one, so the quotient is already an integer
  have hunit : unit p z = (2 ^ (p - z.natAbs.size) : ℚ)⁻¹ := by
    unfold unit
    rw [log_intCast h0, ← zpow_natCast, ← zpow_neg]
    congr 1
    omega
  have hquot : (z : ℚ) / unit p z = ((z * 2 ^ (p - z.natAbs.size) : ℤ) : ℚ) := by
    rw [hunit, div_inv_eq_mul]
    push_cast
    rfl
  rw [rounded, significand, hquot, toInteger_intCast, ← hquot, div_mul_cancel₀ _ (unit_pos p z).ne']

end Xcelerator.Foundations.BinaryRounding
