import Mathlib
import Xcelerator.Foundations.Machine

/-! Exact rational interval arithmetic. The fields of a rational interval are
private in the source and every constructor orders them, so the order is a
field of the structure here. -/

namespace Xcelerator.Numerics.Interval

inductive IntervalError where
  | invalid (message : String)
  | divisionByZeroInterval
  | inconclusive (message : String)
deriving DecidableEq, Repr

/-- The `Display` text of an error. -/
def IntervalError.display : IntervalError → String
  | .invalid message => "invalid interval problem: " ++ message
  | .divisionByZeroInterval => "interval division denominator contains zero"
  | .inconclusive message => "interval proof is inconclusive: " ++ message

abbrev Result := Except IntervalError

/-- How a run can stop without a result. -/
inductive Stop where
  | error (error : IntervalError)
  | panic (message : String)
deriving DecidableEq, Repr

abbrev Run := Except Stop

def lift {α : Type} (x : Result α) : Run α := x.mapError .error

/-- `Option::expect`. -/
def expect {α : Type} (x : Option α) (message : String) : Run α :=
  match x with
  | some a => .ok a
  | none => .error (.panic message)

def check (condition : Bool) (error : IntervalError) : Result Unit :=
  if condition then .ok () else .error error

theorem lift_ok {α : Type} {x : Result α} {v : α} (h : lift x = .ok v) : x = .ok v := by
  cases x with
  | ok w =>
    cases h
    rfl
  | error e => cases h

theorem expect_ok {α : Type} {x : Option α} {message : String} {v : α}
    (h : expect x message = .ok v) : x = some v := by
  cases x with
  | some w =>
    cases h
    rfl
  | none => cases h

theorem lift_check_pos {condition : Bool} (h : condition = true) (error : IntervalError) :
    lift (check condition error) = .ok () := by
  rw [check, if_pos h]
  rfl

theorem lift_check_neg {condition : Bool} (h : condition = false) (error : IntervalError) :
    lift (check condition error) = .error (.error error) := by
  rw [check, if_neg (by simp [h])]
  rfl

theorem check_ok {condition : Bool} {error : IntervalError} {u : Unit}
    (h : check condition error = .ok u) : condition = true := by
  unfold check at h
  split at h
  · assumption
  · cases h

structure RationalInterval where
  lower : ℚ
  upper : ℚ
  ordered : lower ≤ upper
deriving DecidableEq, Repr

namespace RationalInterval

def new (lower upper : ℚ) : Result RationalInterval :=
  if h : lower ≤ upper then .ok ⟨lower, upper, h⟩
  else .error (.invalid "lower endpoint exceeds upper endpoint")

def point (value : ℚ) : RationalInterval := ⟨value, value, le_rfl⟩

def hull (left right : ℚ) : RationalInterval :=
  if h : left ≤ right then ⟨left, right, h⟩ else ⟨right, left, (not_le.mp h).le⟩

def containsZero (a : RationalInterval) : Bool := decide (a.lower ≤ 0) && decide (a.upper ≥ 0)

def add (a b : RationalInterval) : RationalInterval :=
  ⟨a.lower + b.lower, a.upper + b.upper, add_le_add a.ordered b.ordered⟩

def sub (a b : RationalInterval) : RationalInterval :=
  ⟨a.lower - b.upper, a.upper - b.lower, sub_le_sub a.ordered b.ordered⟩

/-- The least and greatest of the four endpoint products. -/
def mul (a b : RationalInterval) : RationalInterval :=
  ⟨min (min (a.lower * b.lower) (a.lower * b.upper)) (min (a.upper * b.lower) (a.upper * b.upper)),
    max (max (a.lower * b.lower) (a.lower * b.upper)) (max (a.upper * b.lower) (a.upper * b.upper)),
    (min_le_left _ _).trans ((min_le_left _ _).trans ((le_max_left _ _).trans (le_max_left _ _)))⟩

def isStrictlyPositive (a : RationalInterval) : Bool := decide (a.lower > 0)

def isStrictlyNegative (a : RationalInterval) : Bool := decide (a.upper < 0)

def neg (a : RationalInterval) : RationalInterval := ⟨-a.upper, -a.lower, neg_le_neg a.ordered⟩

/-- The larger absolute value of the endpoints. -/
def magnitude (a : RationalInterval) : ℚ := max |a.lower| |a.upper|

def square (a : RationalInterval) : RationalInterval :=
  if a.containsZero then ⟨0, a.magnitude * a.magnitude, mul_self_nonneg _⟩ else a.mul a

def reciprocal (a : RationalInterval) : Result RationalInterval :=
  if a.containsZero then .error .divisionByZeroInterval else .ok (hull (1 / a.lower) (1 / a.upper))

def div (a b : RationalInterval) : Result RationalInterval := do
  return a.mul (← b.reciprocal)

/-- The integer part of `value * 2 ^ (2 * bits)`, towards zero. -/
def scaledFloor (value : ℚ) (bits : Nat) : Int := (value.num * 2 ^ (2 * bits)).tdiv value.den

def scaledCeil (value : ℚ) (bits : Nat) : Int :=
  let quotient := scaledFloor value bits
  if quotient * value.den < value.num * 2 ^ (2 * bits) then quotient + 1 else quotient

/-- The square root on the dyadic grid of `fractionBits` bits, rounded outward. -/
def sqrtNonnegative (a : RationalInterval) (fractionBits : Nat) : Result RationalInterval :=
  if fractionBits > 1000000 then
    .error (.invalid "square-root dyadic precision must be at most 1000000 bits")
  else if a.lower < 0 then
    .error (.invalid "square-root interval has a negative lower endpoint")
  else
    let upperScaled := scaledCeil a.upper fractionBits
    let lowerRoot := Int.sqrt (scaledFloor a.lower fractionBits)
    let upperRoot := Int.sqrt upperScaled
    let upperRoot := if upperRoot * upperRoot < upperScaled then upperRoot + 1 else upperRoot
    new (lowerRoot / 2 ^ fractionBits) (upperRoot / 2 ^ fractionBits)

/-- The set of reals enclosed. -/
def Contains (a : RationalInterval) (x : ℝ) : Prop := (a.lower : ℝ) ≤ x ∧ x ≤ a.upper

end RationalInterval

/-- A bilinear form over a box attains its extremes at the corners. -/
theorem corner_bounds {al au bl bu x y : ℝ} (hx : al ≤ x ∧ x ≤ au) (hy : bl ≤ y ∧ y ≤ bu) :
    min (min (al * bl) (al * bu)) (min (au * bl) (au * bu)) ≤ x * y ∧
      x * y ≤ max (max (al * bl) (al * bu)) (max (au * bl) (au * bu)) := by
  have hline : ∀ {c l u t : ℝ}, l ≤ t ∧ t ≤ u → min (l * c) (u * c) ≤ t * c ∧
      t * c ≤ max (l * c) (u * c) := by
    intro c l u t ht
    rcases le_total 0 c with hc | hc
    · exact ⟨(min_le_left _ _).trans (mul_le_mul_of_nonneg_right ht.1 hc),
        (mul_le_mul_of_nonneg_right ht.2 hc).trans (le_max_right _ _)⟩
    · exact ⟨(min_le_right _ _).trans (mul_le_mul_of_nonpos_right ht.2 hc),
        (mul_le_mul_of_nonpos_right ht.1 hc).trans (le_max_left _ _)⟩
  have hxy := hline (c := y) hx
  have hal := hline (c := al) hy
  have hau := hline (c := au) hy
  simp only [mul_comm _ al, mul_comm _ au] at hal hau
  exact ⟨(min_le_min hal.1 hau.1).trans hxy.1, hxy.2.trans (max_le_max hal.2 hau.2)⟩

namespace RationalInterval

theorem contains_point (q : ℚ) : (point q).Contains q := ⟨le_rfl, le_rfl⟩

theorem Contains.add {a b : RationalInterval} {x y : ℝ} (hx : a.Contains x) (hy : b.Contains y) :
    (a.add b).Contains (x + y) := by
  unfold Contains RationalInterval.add
  push_cast
  exact ⟨add_le_add hx.1 hy.1, add_le_add hx.2 hy.2⟩

theorem Contains.sub {a b : RationalInterval} {x y : ℝ} (hx : a.Contains x) (hy : b.Contains y) :
    (a.sub b).Contains (x - y) := by
  unfold Contains RationalInterval.sub
  push_cast
  exact ⟨sub_le_sub hx.1 hy.2, sub_le_sub hx.2 hy.1⟩

theorem Contains.mul {a b : RationalInterval} {x y : ℝ} (hx : a.Contains x) (hy : b.Contains y) :
    (a.mul b).Contains (x * y) := by
  unfold Contains RationalInterval.mul
  push_cast
  exact corner_bounds hx hy

theorem Contains.neg {a : RationalInterval} {x : ℝ} (hx : a.Contains x) : a.neg.Contains (-x) := by
  unfold Contains RationalInterval.neg
  push_cast
  exact ⟨neg_le_neg hx.2, neg_le_neg hx.1⟩

theorem containsZero_false {a : RationalInterval} (h : a.containsZero = false) :
    0 < a.lower ∨ a.upper < 0 := by
  unfold containsZero at h
  rw [Bool.and_eq_false_iff, decide_eq_false_iff_not, decide_eq_false_iff_not] at h
  rcases h with h | h
  · exact .inl (not_le.mp h)
  · exact .inr (not_le.mp h)

theorem Contains.abs_le_magnitude {a : RationalInterval} {x : ℝ} (hx : a.Contains x) :
    |x| ≤ a.magnitude := by
  unfold magnitude
  push_cast
  exact abs_le_max_abs_abs hx.1 hx.2

theorem Contains.square {a : RationalInterval} {x : ℝ} (hx : a.Contains x) :
    a.square.Contains (x ^ 2) := by
  unfold RationalInterval.square
  split
  · refine ⟨by push_cast; positivity, ?_⟩
    have habs := hx.abs_le_magnitude
    show x ^ 2 ≤ ((a.magnitude * a.magnitude : ℚ) : ℝ)
    push_cast
    rw [← sq_abs, sq]
    exact mul_self_le_mul_self (abs_nonneg x) habs
  · rw [sq]
    exact hx.mul hx

theorem square_nonneg (a : RationalInterval) : 0 ≤ a.square.lower := by
  unfold square
  split
  · exact le_rfl
  · rename_i h
    have hsign := containsZero_false (Bool.eq_false_of_not_eq_true h)
    have hord := a.ordered
    unfold mul
    rcases hsign with hl | hu
    · have hu : 0 < a.upper := hl.trans_le hord
      exact le_min (le_min (by positivity) (by positivity)) (le_min (by positivity) (by positivity))
    · have hl : a.lower < 0 := hord.trans_lt hu
      exact le_min
        (le_min (mul_nonneg_of_nonpos_of_nonpos hl.le hl.le)
        (mul_nonneg_of_nonpos_of_nonpos hl.le hu.le))
        (le_min (mul_nonneg_of_nonpos_of_nonpos hu.le hl.le)
        (mul_nonneg_of_nonpos_of_nonpos hu.le hu.le))

theorem Contains.hull {x y : ℚ} {t : ℝ} (h : (x : ℝ) ≤ t ∧ t ≤ y ∨ (y : ℝ) ≤ t ∧ t ≤ x) :
    (hull x y).Contains t := by
  unfold RationalInterval.hull Contains
  split
  · rename_i hxy
    have hxy : (x : ℝ) ≤ y := by exact_mod_cast hxy
    rcases h with h | h
    · exact h
    · exact ⟨hxy.trans h.1, h.2.trans hxy⟩
  · rename_i hxy
    have hxy : (y : ℝ) ≤ x := by exact_mod_cast (not_le.mp hxy).le
    rcases h with h | h
    · exact ⟨hxy.trans h.1, h.2.trans hxy⟩
    · exact h

/-- An interval that excludes zero has a reciprocal. -/
theorem reciprocal_spec {a : RationalInterval} (h : a.containsZero = false) :
    ∃ r, a.reciprocal = .ok r ∧ ∀ x : ℝ, a.Contains x → x ≠ 0 ∧ r.Contains (1 / x) := by
  refine ⟨RationalInterval.hull (1 / a.lower) (1 / a.upper), by
    simp [reciprocal, h], fun x hx => ?_⟩
  rcases containsZero_false h with hl | hu
  · have hl : (0 : ℝ) < a.lower := by exact_mod_cast hl
    have hpos : 0 < x := hl.trans_le hx.1
    refine ⟨hpos.ne', Contains.hull (.inr ?_)⟩
    push_cast
    exact ⟨one_div_le_one_div_of_le hpos hx.2, one_div_le_one_div_of_le hl hx.1⟩
  · have hu : (a.upper : ℝ) < 0 := by exact_mod_cast hu
    have hneg : x < 0 := hx.2.trans_lt hu
    refine ⟨hneg.ne, Contains.hull (.inr ?_)⟩
    push_cast
    exact ⟨one_div_le_one_div_of_neg_of_le hu hx.2, one_div_le_one_div_of_neg_of_le hneg hx.1⟩

theorem div_spec {b : RationalInterval} (a : RationalInterval) (h : b.containsZero = false) :
    ∃ r, a.div b = .ok r ∧
      ∀ x y : ℝ, a.Contains x → b.Contains y → y ≠ 0 ∧ r.Contains (x / y) := by
  obtain ⟨r, hr, hspec⟩ := reciprocal_spec h
  refine ⟨a.mul r, by simp [div, hr], fun x y hx hy => ?_⟩
  obtain ⟨hne, hinv⟩ := hspec y hy
  refine ⟨hne, ?_⟩
  rw [div_eq_mul_one_div]
  exact hx.mul hinv

theorem scaledFloor_eq {value : ℚ} (h : 0 ≤ value) (bits : Nat) :
    scaledFloor value bits = ⌊value * 2 ^ (2 * bits)⌋ := by
  have hnum : 0 ≤ value.num * 2 ^ (2 * bits) := mul_nonneg (Rat.num_nonneg.mpr h) (by positivity)
  unfold scaledFloor
  rw [Int.tdiv_eq_ediv_of_nonneg hnum]
  have hcast : value * 2 ^ (2 * bits) = ((value.num * 2 ^ (2 * bits) : ℤ) :
      ℚ) / (value.den : ℕ) := by
    conv_lhs => rw [← Rat.num_div_den value]
    push_cast
    ring
  rw [hcast, Rat.floor_intCast_div_natCast]

theorem le_scaledCeil {value : ℚ} (h : 0 ≤ value) (bits : Nat) :
    value * 2 ^ (2 * bits) ≤ scaledCeil value bits := by
  have hden : (0 : ℚ) < value.den := by exact_mod_cast value.den_pos
  have hcast : value * 2 ^ (2 * bits) * value.den = ((value.num * 2 ^ (2 * bits) : ℤ) : ℚ) := by
    have hval := Rat.mul_den_eq_num value
    push_cast
    linear_combination (2 : ℚ) ^ (2 * bits) * hval
  unfold scaledCeil
  dsimp only
  split
  · rw [scaledFloor_eq h]
    push_cast
    exact (Int.lt_floor_add_one _).le
  · rename_i hlt
    refine le_of_mul_le_mul_right ?_ hden
    rw [hcast]
    exact_mod_cast not_lt.mp hlt

/-- The integer square root rounds down, and up when corrected. -/
theorem isqrt_bounds {z : Int} (hz : 0 ≤ z) :
    0 ≤ Int.sqrt z ∧ Int.sqrt z * Int.sqrt z ≤ z ∧
      z ≤ (if Int.sqrt z * Int.sqrt z < z then Int.sqrt z + 1 else Int.sqrt z) ^ 2 := by
  obtain ⟨n, rfl⟩ := Int.eq_ofNat_of_zero_le hz
  have hsqrt : Int.sqrt (n : Int) = (Nat.sqrt n : Int) := by simp [Int.sqrt]
  have hle := Nat.sqrt_le n
  have hlt := Nat.lt_succ_sqrt n
  rw [hsqrt]
  refine ⟨by positivity, by exact_mod_cast hle, ?_⟩
  split
  · rw [sq]
    exact_mod_cast hlt.le
  · rename_i h
    rw [sq]
    exact not_lt.mp h

/-- The root of a nonnegative interval always exists and encloses. -/
theorem sqrtNonnegative_spec {a : RationalInterval} {bits : Nat} (hbits : bits ≤ 1000000)
    (h : 0 ≤ a.lower) :
    ∃ r, a.sqrtNonnegative bits = .ok r ∧ ∀ x : ℝ, a.Contains x → r.Contains √x := by
  have hupper : 0 ≤ a.upper := h.trans a.ordered
  have hfloor := scaledFloor_eq h bits
  have hceil := le_scaledCeil hupper bits
  have hfloor0 : 0 ≤ scaledFloor a.lower bits := by
    rw [hfloor]
    exact Int.floor_nonneg.mpr (by positivity)
  have hceil0 : 0 ≤ scaledCeil a.upper bits := by
    have hnn : (0 : ℚ) ≤ scaledCeil a.upper bits := le_trans (by positivity) hceil
    exact_mod_cast hnn
  obtain ⟨hl0, hl, _⟩ := isqrt_bounds hfloor0
  obtain ⟨hu0, _, hu⟩ := isqrt_bounds hceil0
  set lowRoot := Int.sqrt (scaledFloor a.lower bits)
  set highRoot := if Int.sqrt (scaledCeil a.upper bits) * Int.sqrt (scaledCeil a.upper bits) <
    scaledCeil a.upper bits then Int.sqrt (scaledCeil a.upper bits) + 1 else
      Int.sqrt (scaledCeil a.upper bits)
  have hhigh0 : 0 ≤ highRoot := by
    simp only [highRoot]
    split <;> omega
  -- the roots bound every point of the interval on the scaled grid
  have hlow : ((lowRoot : ℚ) / 2 ^ bits) ^ 2 ≤ a.lower := by
    have hq : (lowRoot : ℚ) * lowRoot ≤ a.lower * 2 ^ (2 * bits) := by
      refine le_trans ?_ (Int.floor_le _)
      rw [← hfloor]
      exact_mod_cast hl
    rw [div_pow, div_le_iff₀ (by positivity), sq, ← pow_mul, mul_comm bits 2]
    exact hq
  have hhigh : a.upper ≤ ((highRoot : ℚ) / 2 ^ bits) ^ 2 := by
    have hq : a.upper * 2 ^ (2 * bits) ≤ (highRoot : ℚ) ^ 2 := hceil.trans (by exact_mod_cast hu)
    rw [div_pow, le_div_iff₀ (by positivity), ← pow_mul, mul_comm bits 2]
    exact hq
  have hlowhigh : (lowRoot : ℚ) / 2 ^ bits ≤ (highRoot : ℚ) / 2 ^ bits := by
    refine le_of_sq_le_sq ?_ (by positivity)
    exact (hlow.trans a.ordered).trans hhigh
  refine ⟨⟨_, _, hlowhigh⟩, ?_, fun x hx => ⟨?_, ?_⟩⟩
  · unfold sqrtNonnegative
    rw [if_neg (by omega), if_neg (not_lt.mpr h)]
    exact dif_pos hlowhigh
  · have hlow' : ((((lowRoot : ℚ) / 2 ^ bits : ℚ)) : ℝ) ^ 2 ≤ a.lower := by exact_mod_cast hlow
    exact Real.le_sqrt_of_sq_le (hlow'.trans hx.1)
  · have hhigh' : (a.upper : ℝ) ≤ ((((highRoot : ℚ) / 2 ^ bits : ℚ)) : ℝ) ^ 2 := by
      exact_mod_cast hhigh
    refine Real.sqrt_le_iff.mpr ⟨?_, hx.2.trans hhigh'⟩
    have h0 : (0 : ℚ) ≤ (highRoot : ℚ) / 2 ^ bits := by positivity
    exact_mod_cast h0

theorem Contains.pos {a : RationalInterval} {x : ℝ} (h : a.isStrictlyPositive = true)
    (hx : a.Contains x) : 0 < x := by
  have hl : 0 < a.lower := of_decide_eq_true h
  have hl' : (0 : ℝ) < a.lower := by exact_mod_cast hl
  exact hl'.trans_le hx.1

theorem Contains.negative {a : RationalInterval} {x : ℝ} (h : a.isStrictlyNegative = true)
    (hx : a.Contains x) : x < 0 := by
  have hu : a.upper < 0 := of_decide_eq_true h
  have hu' : (a.upper : ℝ) < 0 := by exact_mod_cast hu
  exact hx.2.trans_lt hu'

end RationalInterval

end Xcelerator.Numerics.Interval
