import Mathlib

/-! # Binary64 values

A value is its 64 bits. A finite one stands for the dyadic rational of its sign,
significand and exponent; a subnormal has the exponent of the smallest normal
binade and no implicit bit. -/

namespace Xcelerator.Foundations

structure Binary64 where
  bits : ℕ
  bounded : bits < 2 ^ 64
deriving DecidableEq, Repr

namespace Binary64

def negative (x : Binary64) : Bool := x.bits / 2 ^ 63 != 0

/-- The biased exponent. -/
def encoded (x : Binary64) : ℕ := x.bits / 2 ^ 52 % 2 ^ 11

def fraction (x : Binary64) : ℕ := x.bits % 2 ^ 52

def isFinite (x : Binary64) : Bool := x.encoded != 2047

def significand (x : Binary64) : ℕ := if x.encoded = 0 then x.fraction else x.fraction + 2 ^ 52

def exponent (x : Binary64) : ℤ := if x.encoded = 0 then -1074 else (x.encoded : ℤ) - 1023 - 52

/-- The significand with the sign. -/
def signed (x : Binary64) : ℤ := if x.negative then -(x.significand : ℤ) else x.significand

def value (x : Binary64) : ℚ := x.signed * 2 ^ x.exponent

theorem encoded_lt (x : Binary64) : x.encoded < 2048 := Nat.mod_lt _ (by norm_num)

theorem fraction_lt (x : Binary64) : x.fraction < 2 ^ 52 := Nat.mod_lt _ (by norm_num)

theorem significand_lt (x : Binary64) : x.significand < 2 ^ 53 := by
  have := x.fraction_lt
  unfold significand
  split <;> omega

/-- The implicit bit as the bitwise or that sets it. -/
theorem fraction_or (x : Binary64) : x.fraction ||| 2 ^ 52 = x.fraction + 2 ^ 52 := by
  have h := Nat.two_pow_add_eq_or_of_lt x.fraction_lt 1
  rw [Nat.mul_one] at h
  rw [Nat.or_comm, ← h, Nat.add_comm]

theorem exponent_bounds {x : Binary64} (h : x.isFinite = true) :
    -1074 ≤ x.exponent ∧ x.exponent ≤ 971 := by
  have hlt := x.encoded_lt
  have hne : x.encoded ≠ 2047 := by simpa [isFinite] using h
  unfold exponent
  split <;> omega

theorem value_eq_zero {x : Binary64} : x.value = 0 ↔ x.significand = 0 := by
  have hpow : (2 : ℚ) ^ x.exponent ≠ 0 := zpow_ne_zero _ (by norm_num)
  unfold value signed
  rw [mul_eq_zero, or_iff_left hpow]
  split <;> simp

end Binary64

end Xcelerator.Foundations
