import Mathlib
import Xcelerator.Foundations.AsciiDecimal
import Xcelerator.Foundations.Machine
import Xcelerator.Foundations.RadixGrid
import Xcelerator.Numerics.MpfrFloat

/-! # Decimal persistence

The width at which scalars are persisted, the text they are persisted as, and
the reading of it. The conversions between floats and decimal digits are the
library's: a parameter, with correct rounding to nearest as its manual has it. -/

namespace Xcelerator.Numerics.DecimalPersistence
open Xcelerator.Foundations.AsciiDecimal Xcelerator.Foundations.RadixGrid
open Xcelerator.Numerics.MpfrFloat

/-! ## The width -/

def saturatingMul (a b : Nat) : Nat := min (a * b) (2 ^ 64 - 1)

def saturatingAdd (a b : Nat) : Nat := min (a + b) (2 ^ 64 - 1)

def divCeil (a b : Nat) : Nat := a / b + if a % b = 0 then 0 else 1

def roundtripDecimalDigits (precisionBits : Nat) : Nat :=
  saturatingAdd (divCeil (saturatingMul precisionBits 30103) 100000) 2

/-! ## Text -/

/-- The conversions that are not in the repository. -/
structure Conversions where
  expMin : Int
  expMax : Int
  /-- `to_string_radix_round` in radix ten. -/
  toStringRadix : MpfrFloat → Option Nat → Bytes
  /-- `to_sign_string_exp_round` in radix ten. -/
  toSignStringExp : MpfrFloat → Option Nat → Bool × Bytes × Option Int
  /-- `Float::parse` followed by `Float::with_val`. -/
  parseWithVal : Nat → Bytes → Option MpfrFloat

def renderInt (z : Int) : Bytes := if z < 0 then 45 :: renderNat z.natAbs else renderNat z.natAbs

section
variable (c : Conversions)

def decimalStringRound (value : MpfrFloat) (digits : Option Nat) : Option Bytes :=
  if !value.isNormal then some (c.toStringRadix value digits)
  else do
    let (negative, significand, exponent) := c.toSignStringExp value digits
    let exponent ← exponent
    let plainPosition := if 0 < exponent ∧ exponent ≤ significand.length then
      some exponent.toNat else none
    let split := plainPosition.getD 1
    return (if negative then [45] else []) ++ significand.take split ++
      (if split < significand.length then 46 :: significand.drop split else []) ++
      (if plainPosition.isNone then 101 :: renderInt (exponent - 1) else [])

def encode (value : MpfrFloat) (precisionBits : Nat) : Option Bytes :=
  decimalStringRound c value (some (roundtripDecimalDigits precisionBits))

inductive ParseError where
  | invalid
  | nonfinite
deriving DecidableEq

def parse (value : Bytes) (precisionBits : Nat) : Except ParseError MpfrFloat :=
  match c.parseWithVal precisionBits value with
  | none => .error .invalid
  | some parsed => if parsed.isFinite then .ok parsed else .error .nonfinite

end

/-! ## What the texts denote -/

def signed (negative : Bool) (x : ℚ) : ℚ := if negative then -x else x

def intValue (negative : Bool) (digits : Bytes) : Int :=
  if negative then -(decimal digits : Int) else decimal digits

/-- The decimal texts, a sign, digits, a fraction and an exponent, with their values. -/
inductive Spells : Bytes → ℚ → Prop where
  | mk (negative : Bool) (whole fraction : Bytes) (exponent : Option (Bool × Bytes))
      (hwhole : whole ≠ []) (hdigits : (whole ++ fraction).all isDigit = true)
      (hexponent : ∀ e ∈ exponent, e.2 ≠ [] ∧ e.2.all isDigit = true) :
      Spells ((if negative then [45] else []) ++ whole ++
        (if fraction = [] then [] else 46 :: fraction) ++
          exponent.elim [] fun e => 101 :: ((if e.1 then [45] else []) ++ e.2))
        (signed negative (decimal (whole ++ fraction) *
          10 ^ ((exponent.elim 0 fun e => intValue e.1 e.2) - (fraction.length : Int))))

/-- What the manual says of the conversions, of one float: its digits are rounded to nearest, and a
text is read as the float where no other is as near to what it spells. -/
structure Conversions.CorrectAt (c : Conversions) (p : Nat) (value : ℚ) (nonzero : value ≠ 0) :
    Prop where
  toSignStringExp : ∃ negative digits exponent,
    c.toSignStringExp ⟨p, .normal value nonzero⟩ (some (roundtripDecimalDigits p)) =
      (negative, digits, some exponent) ∧
    digits.length = roundtripDecimalDigits p ∧ digits.all isDigit = true ∧
    Nearest (Fits 10 (roundtripDecimalDigits p)) value
      (signed negative (decimal digits * 10 ^ (exponent - (roundtripDecimalDigits p : Int))))
  parseWithVal : ∀ text y, Spells text y → (∀ z, Fits 2 p z → z ≠ value → |value - y| < |z - y|) →
    c.parseWithVal p text = some ⟨p, .normal value nonzero⟩

/-! ## The width is enough -/

theorem divCeil_le {a b : Nat} (hb : 0 < b) : a ≤ b * divCeil a b := by
  have := Nat.div_add_mod a b
  have hlt := Nat.mod_lt a hb
  unfold divCeil
  rw [Nat.mul_add]
  split
  · omega
  · omega

theorem divCeil_bound (a b : Nat) : divCeil a b ≤ a + 1 := by
  have := Nat.div_le_self a b
  unfold divCeil
  split <;> omega

/-- On 32-bit precisions nothing saturates. -/
theorem roundtripDecimalDigits_eq {p : Nat} (hp : p < 2 ^ 32) :
    p * 30103 < 2 ^ 64 ∧ divCeil (p * 30103) 100000 + 2 < 2 ^ 64 ∧
      roundtripDecimalDigits p = divCeil (p * 30103) 100000 + 2 := by
  have hproduct : p * 30103 < 2 ^ 48 := by omega
  have hceil := divCeil_bound (p * 30103) 100000
  refine ⟨by omega, by omega, ?_⟩
  rw [roundtripDecimalDigits, saturatingMul, Nat.min_eq_left (by omega), saturatingAdd,
    Nat.min_eq_left (by omega)]

theorem ten_pow_large : 2 ^ 100000 < 10 ^ 30103 := by decide +kernel

/-- `30103 / 100000` is above the logarithm, and the guard digit does the rest. -/
theorem two_pow_lt {p : Nat} (hp : p < 2 ^ 32) : 2 ^ p < 10 ^ (roundtripDecimalDigits p - 1) := by
  obtain ⟨-, -, heq⟩ := roundtripDecimalDigits_eq hp
  have hceil := @divCeil_le (p * 30103) 100000 (by norm_num)
  have hpow : (2 ^ p) ^ 100000 ≤ (10 ^ divCeil (p * 30103) 100000) ^ 100000 := by
    calc (2 ^ p) ^ 100000 = (2 ^ 100000) ^ p := by rw [← pow_mul, ← pow_mul, mul_comm]
      _ ≤ (10 ^ 30103) ^ p := Nat.pow_le_pow_left ten_pow_large.le p
      _ = 10 ^ (p * 30103) := by rw [← pow_mul, mul_comm]
      _ ≤ 10 ^ (100000 * divCeil (p * 30103) 100000) := Nat.pow_le_pow_right (by norm_num) hceil
      _ = (10 ^ divCeil (p * 30103) 100000) ^ 100000 := by rw [← pow_mul, mul_comm]
  have hle : 2 ^ p ≤ 10 ^ divCeil (p * 30103) 100000 :=
    (Nat.pow_le_pow_iff_left (by norm_num)).mp hpow
  have hexponent : roundtripDecimalDigits p - 1 = divCeil (p * 30103) 100000 + 1 := by omega
  rw [hexponent, pow_succ]
  have : 0 < 10 ^ divCeil (p * 30103) 100000 := by positivity
  omega

/-! ## The text spells the rounded digits -/

theorem renderInt_spells (z : Int) :
    ∃ negative digits, renderInt z = (if negative then [45] else []) ++ digits ∧
    digits ≠ [] ∧ digits.all isDigit = true ∧ intValue negative digits = z := by
  obtain ⟨hnumeric, hvalue⟩ := numeric_renderNat z.natAbs
  refine ⟨decide (z < 0), renderNat z.natAbs, ?_, hnumeric.nonempty, hnumeric.digits, ?_⟩
  · by_cases h : z < 0 <;> simp [renderInt, h]
  · rw [intValue, hvalue]
    by_cases h : z < 0
    · simp only [h, decide_true, if_true]; omega
    · simp only [h, decide_false, Bool.false_eq_true, if_false]; omega

theorem encode_spells {c : Conversions} {p : Nat} {value : ℚ} {nonzero : value ≠ 0}
    (hc : c.CorrectAt p value nonzero) (hp : p < 2 ^ 32) :
    ∃ text y, encode c ⟨p, .normal value nonzero⟩ p = some text ∧ Spells text y ∧
      Nearest (Fits 10 (roundtripDecimalDigits p)) value y := by
  obtain ⟨-, -, hwidth⟩ := roundtripDecimalDigits_eq hp
  obtain ⟨negative, digits, exponent, hconvert, hlength, hdigits, hnearest⟩ := hc.toSignStringExp
  have hnormal : (⟨p, .normal value nonzero⟩ : MpfrFloat).isNormal = true := rfl
  have htake : ∀ split, 0 < split → digits.take split ≠ [] := by
    intro split hsplit hnil
    have := congrArg List.length hnil
    rw [List.length_take, List.length_nil] at this
    omega
  have hall : ∀ split, (digits.take split ++ digits.drop split).all isDigit = true := by
    intro split
    rw [List.take_append_drop, hdigits]
  have hfraction : ∀ split, (if split < digits.length then
    (46 : UInt8) :: digits.drop split else []) =
      if digits.drop split = [] then [] else 46 :: digits.drop split := by
    intro split
    by_cases h : split < digits.length
    · rw [if_pos h, if_neg (List.ne_nil_of_length_pos (by rw [List.length_drop]; omega))]
    · rw [if_neg h, if_pos (List.drop_of_length_le (by omega))]
  rw [encode, decimalStringRound, hnormal]
  simp only [hconvert, Bool.not_true, Bool.false_eq_true, if_false, Option.bind_eq_bind,
    Option.bind_some, Option.pure_def]
  by_cases hplain : 0 < exponent ∧ exponent ≤ digits.length
  · rw [if_pos hplain]
    simp only [Option.getD_some, Option.isNone_some, Bool.false_eq_true, if_false, hfraction]
    have hspells := Spells.mk negative (digits.take exponent.toNat)
      (digits.drop exponent.toNat) none
      (htake _ (by omega)) (hall _) (by simp)
    refine ⟨_, _, rfl, hspells, ?_⟩
    rw [List.take_append_drop, Option.elim_none, List.length_drop, hlength,
      show (0 : Int) - ((roundtripDecimalDigits p - exponent.toNat : Nat) : Int) =
        exponent - (roundtripDecimalDigits p : Int) by omega]
    exact hnearest
  · rw [if_neg hplain]
    simp only [Option.getD_none, Option.isNone_none, if_true, hfraction]
    obtain ⟨sign, text, hrender, hne, htext, hvalue⟩ := renderInt_spells (exponent - 1)
    have hspells := Spells.mk negative (digits.take 1) (digits.drop 1) (some (sign, text))
      (htake _ (by omega)) (hall _)
      (by rintro e ⟨⟩; exact ⟨hne, htext⟩)
    rw [hrender]
    refine ⟨_, _, rfl, hspells, ?_⟩
    rw [List.take_append_drop, Option.elim_some, List.length_drop, hlength, hvalue,
      show exponent - 1 - ((roundtripDecimalDigits p - 1 : Nat) : Int) =
        exponent - (roundtripDecimalDigits p : Int) by omega]
    exact hnearest

/-- **Persistence.** At the persisted width the nearest decimal determines the float, so reading
what was written gives it back; no step of the width saturates. -/
theorem roundtrip_identity (p : Nat) (hp : p < 2 ^ 32) :
    (p * 30103 < 2 ^ 64 ∧ divCeil (p * 30103) 100000 + 2 < 2 ^ 64 ∧
      roundtripDecimalDigits p = divCeil (p * 30103) 100000 + 2) ∧
    (∀ x y, Fits 2 p x → x ≠ 0 → Nearest (Fits 10 (roundtripDecimalDigits p)) x y →
      ∀ z, Fits 2 p z → z ≠ x → |x - y| < |z - y|) ∧
    ∀ (c : Conversions) (value : ℚ) (nonzero : value ≠ 0), Representable c.expMin c.expMax p value →
      c.CorrectAt p value nonzero →
      ∃ text, encode c ⟨p, .normal value nonzero⟩ p = some text ∧
      parse c text p = .ok ⟨p, .normal value nonzero⟩ := by
  have hunique : ∀ x y, Fits 2 p x → x ≠ 0 → Nearest (Fits 10 (roundtripDecimalDigits p)) x y →
      ∀ z, Fits 2 p z → z ≠ x → |x - y| < |z - y| := by
    intro x y hx hx0 hy z hz hne
    obtain ⟨-, -, hwidth⟩ := roundtripDecimalDigits_eq hp
    exact hy.separates (by norm_num) (by norm_num) (by omega) (two_pow_lt hp) hx hx0 hz hne
  refine ⟨roundtripDecimalDigits_eq hp, hunique, fun c value nonzero hvalue hc => ?_⟩
  obtain ⟨text, y, htext, hspells, hnearest⟩ := encode_spells hc hp
  have hfits : Fits 2 p value := by
    obtain h0 | ⟨e, -, ⟨-, hupper⟩, k, hk⟩ := hvalue
    · exact absurd h0 nonzero
    · refine ⟨k, e - p, ?_, by exact_mod_cast hk⟩
      have hunit : (0 : ℚ) < 2 ^ (e - (p : Int)) := by positivity
      have hscaled : |(k : ℚ)| * 2 ^ (e - (p : Int)) < 2 ^ p * 2 ^ (e - (p : Int)) := by
        rw [← abs_of_pos hunit, ← abs_mul, abs_of_pos hunit, ← hk, ← zpow_natCast (2 : ℚ) p,
          ← zpow_add₀ (by norm_num)]
        rwa [add_sub_cancel]
      have hlt := lt_of_mul_lt_mul_right hscaled hunit.le
      exact_mod_cast hlt
  refine ⟨text, htext, ?_⟩
  rw [parse, hc.parseWithVal text y hspells (hunique value y hfits nonzero hnearest)]
  rfl

/-! The double nearest one tenth, printed with eighteen digits. -/

def tenth : ℚ := 3602879701896397 / 2 ^ 55

theorem tenth_ne_zero : tenth ≠ 0 := by norm_num [tenth]

def tenthDigits : Bytes := 49 :: (List.replicate 16 48 ++ [54])

theorem tenth_nearest : Nearest (Fits 10 18) tenth (100000000000000006 * 10 ^ (-18 : ℤ)) := by
  refine ⟨⟨100000000000000006, -18, by norm_num, by norm_num⟩, fun z hz => ?_⟩
  obtain ⟨m, e, hm, hz⟩ := hz
  have hdistance : |tenth - 100000000000000006 * 10 ^ (-18 : ℤ)| =
      100000000000000006 * 10 ^ (-18 : ℤ) - tenth := by
    rw [abs_sub_comm, abs_of_nonneg]
    norm_num [tenth]
  rw [hdistance]
  by_cases he : -18 ≤ e
  · -- such a number is a whole multiple of the last place
    obtain ⟨k, hk⟩ := Int.le.dest he
    have hwhole : z = ((m * 10 ^ k : ℤ) : ℚ) * 10 ^ (-18 : ℤ) := by
      rw [hz, ← hk, Nat.cast_ofNat, zpow_add₀ (by norm_num), zpow_natCast]
      push_cast
      ring
    generalize m * 10 ^ k = w at hwhole
    rcases le_or_gt 100000000000000006 w with hle | hlt
    · have hw : (100000000000000006 : ℚ) ≤ w := by exact_mod_cast hle
      rw [abs_sub_comm, hwhole]
      refine le_trans ?_ (le_abs_self _)
      gcongr
    · have hw : (w : ℚ) ≤ 100000000000000005 := by exact_mod_cast Int.lt_add_one_iff.mp hlt
      have hbelow : (w : ℚ) * 10 ^ (-18 : ℤ) ≤ 100000000000000005 * 10 ^ (-18 : ℤ) := by gcongr
      have hcloser : 100000000000000006 * 10 ^ (-18 : ℤ) - tenth ≤
          tenth - 100000000000000005 * 10 ^ (-18 : ℤ) := by
        norm_num [tenth]
      rw [hwhole]
      refine le_trans ?_ (le_abs_self _)
      linarith
  · -- and any with more places stays below one tenth
    have hm' : |(m : ℚ)| ≤ 10 ^ 18 := by exact_mod_cast hm.le
    have hplaces : (10 : ℚ) ^ e ≤ 10 ^ (-19 : ℤ) := zpow_le_zpow_right₀ (by norm_num) (by omega)
    have hunit : (0 : ℚ) < 10 ^ e := zpow_pos (by norm_num) e
    have hsmall : z ≤ 1 / 10 := by
      calc z ≤ |z| := le_abs_self z
        _ = |(m : ℚ)| * 10 ^ e := by rw [hz, Nat.cast_ofNat, abs_mul, abs_of_pos hunit]
        _ ≤ 10 ^ 18 * 10 ^ (-19 : ℤ) := by gcongr
        _ = 1 / 10 := by norm_num
    have hcloser : 100000000000000006 * 10 ^ (-18 : ℤ) - tenth ≤ tenth - 1 / 10 :=
      by norm_num [tenth]
    calc 100000000000000006 * 10 ^ (-18 : ℤ) - tenth ≤ tenth - 1 / 10 := hcloser
      _ ≤ tenth - z := by gcongr
      _ ≤ |tenth - z| := le_abs_self _

def sampleConversions : Conversions where
  expMin := -1073
  expMax := 1024
  toStringRadix _ _ := []
  toSignStringExp _ _ := (false, tenthDigits, some 0)
  parseWithVal p _ := some ⟨p, .normal tenth tenth_ne_zero⟩

theorem roundtrip_identity_tenth :
    ∃ text, encode sampleConversions ⟨53, .normal tenth tenth_ne_zero⟩ 53 = some text ∧
      parse sampleConversions text 53 = .ok ⟨53, .normal tenth tenth_ne_zero⟩ := by
  refine (roundtrip_identity 53 (by norm_num)).2.2 sampleConversions tenth tenth_ne_zero ?_ ⟨?_, ?_⟩
  · refine .inr ⟨-3, by decide, ?_, 7205759403792794, ?_⟩
    · norm_num [tenth]
    · norm_num [tenth]
  · have hdigits : (decimal tenthDigits : ℚ) = 100000000000000006 := by
      rw [show decimal tenthDigits = 100000000000000006 by decide]
      norm_num
    refine ⟨false, tenthDigits, 0, rfl, by decide, by decide, ?_⟩
    rw [show roundtripDecimalDigits 53 = 18 by decide, signed, if_neg (by decide), hdigits]
    exact tenth_nearest
  · intro text y _ _
    rfl

end Xcelerator.Numerics.DecimalPersistence
