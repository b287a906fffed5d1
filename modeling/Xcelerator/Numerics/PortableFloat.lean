import Mathlib
import Xcelerator.Foundations.BinaryRounding
import Xcelerator.Foundations.Machine
import Xcelerator.Numerics.MpfrFloat

/-! # Portable floats

A finite float is persisted as an integer significand in hexadecimal, a binary
exponent, a precision and the sign of a zero. Validation compares the exponent of
the value with the exponent range; reconstruction first assigns the significand
and then shifts it, and both steps round into that range. -/

namespace Xcelerator.Numerics.PortableFloat
open Xcelerator.Foundations
open BinaryRounding (rounded)
open MpfrFloat (Datum MpfrFloat)

/-- An error of the code, or a bit count beyond `u32`. -/
inductive Failure where
  | format (message : String)
  | overflow
deriving DecidableEq

abbrev Outcome := Except Failure

def refuse (condition : Prop) [Decidable condition] (message : String) : Outcome Unit :=
  if condition then .error (.format message) else .ok ()

/-! ## MPFR -/

/-- The exponent range in force, and the exponent MPFR reports for a zero. -/
structure Mpfr where
  expMin : Int
  expMax : Int
  zeroExponent : Int

/-- The exponent of a significand in `[1/2, 1)`. -/
def exponentOf (v : ℚ) : Int := Int.log 2 |v| + 1

namespace Mpfr
variable (m : Mpfr)

/-- Rounding to nearest at a precision and then into the exponent range: an
infinity above it, zero or the least magnitude below it. -/
def place (p : Nat) (v : ℚ) : Datum :=
  let r := rounded p .nearest v
  if h : r = 0 then .zero (decide (v < 0))
  else if m.expMax < exponentOf r then .infinity (decide (v < 0))
  else if exponentOf r < m.expMin then
    if |v| ≤ 2 ^ (m.expMin - 2) then .zero (decide (v < 0))
    else if v < 0 then .normal (-2 ^ (m.expMin - 1)) (neg_ne_zero.mpr (zpow_ne_zero _ two_ne_zero))
    else .normal (2 ^ (m.expMin - 1)) (zpow_ne_zero _ two_ne_zero)
  else .normal r h

/-- `Float::assign` of an integer. -/
def assign (p : Nat) (z : Int) : Datum := if z = 0 then .zero false else m.place p z

/-- `<<=`. -/
def shiftLeft (p : Nat) (x : Datum) (k : Int) : Datum :=
  match x with
  | .normal v _ => m.place p (v * 2 ^ k)
  | x => x

/-- `to_integer_exp`: a significand as wide as the precision, and its exponent. -/
def toIntegerExp (x : MpfrFloat) : Option (Int × Int) :=
  match x.datum with
  | .nan | .infinity _ => none
  | .zero _ => some (0, m.zeroExponent)
  | .normal v _ => some ((v * 2 ^ (x.precision - exponentOf v : Int)).num,
      exponentOf v - x.precision)

end Mpfr

/-! ## Base sixteen -/

structure ReadState where
  hasSign : Bool
  hasDigits : Bool
  negative : Bool
  magnitude : Nat

def hexDigit (c : Char) : Option Nat :=
  if 48 ≤ c.toNat ∧ c.toNat ≤ 57 then some (c.toNat - 48)
  else if 97 ≤ c.toNat ∧ c.toNat ≤ 102 then some (c.toNat - 87)
  else if 65 ≤ c.toNat ∧ c.toNat ≤ 70 then some (c.toNat - 55)
  else none

def isAsciiSpace (c : Char) : Bool := c = ' ' || (9 ≤ c.toNat && c.toNat ≤ 13)

def ReadState.step (s : ReadState) (c : Char) : Option ReadState :=
  if (c = '+' ∨ c = '-') ∧ !s.hasSign ∧ !s.hasDigits then
    some { s with hasSign := true, negative := c = '-' }
  else if (c = '_' ∧ s.hasDigits) ∨ isAsciiSpace c then some s
  else (hexDigit c).map fun d => { s with hasDigits := true, magnitude := s.magnitude * 16 + d }

/-- `Integer::from_str_radix(text, 16)`: a sign, then digits; spaces anywhere and underscores
after a digit are skipped. -/
def fromStrRadix16 (text : List Char) : Option Int := do
  let s ← text.foldlM ReadState.step ⟨false, false, false, 0⟩
  if s.hasDigits then some (if s.negative then -s.magnitude else s.magnitude) else none

def toStringRadix16 (z : Int) : List Char :=
  if z < 0 then '-' :: Nat.toDigits 16 z.natAbs else Nat.toDigits 16 z.natAbs

/-! ## The record -/

structure PortableHpFloat where
  precisionBits : Nat
  significandHex : List Char
  binaryExponent : Int
  negativeZero : Bool
deriving DecidableEq

/-- `significant_bits`, a `u32`. -/
def significantBits (magnitude : Nat) : Outcome Nat :=
  if magnitude.size < 2 ^ 32 then .ok magnitude.size else .error .overflow

/-- `find_one(0)`, for a nonzero integer. -/
def findOne (magnitude : Nat) : Nat := padicValNat 2 magnitude

namespace PortableHpFloat
variable (m : Mpfr) (self : PortableHpFloat)

def significand : Outcome Int :=
  match fromStrRadix16 self.significandHex with
  | some z => .ok z
  | none => .error (.format "portable HP significand is not base-16")

/-- The checks of a nonzero significand. -/
def validateNonzero (z : Int) : Outcome Unit := do
  let bits ← significantBits z.natAbs
  refuse (self.precisionBits < bits - findOne z.natAbs)
    "portable HP significand cannot be represented exactly at the declared precision"
  refuse (self.binaryExponent + bits < m.expMin ∨ m.expMax < self.binaryExponent + bits)
    "portable HP value is outside the active MPFR exponent range"

def validate : Outcome Unit := do
  refuse (¬(2 ≤ self.precisionBits ∧ self.precisionBits ≤ 1000000))
    "portable HP precision must be in 2..=1,000,000 bits"
  let z ← self.significand
  refuse (toStringRadix16 z ≠ self.significandHex)
    "portable HP significand must use canonical lowercase base-16"
  refuse (self.negativeZero ∧ z ≠ 0) "negative_zero is valid only for a zero significand"
  if z = 0 then .ok () else self.validateNonzero m z

def fromFloat (x : MpfrFloat) : Outcome PortableHpFloat :=
  match m.toIntegerExp x with
  | none => .error (.format "only finite MPFR values may be persisted")
  | some (z, k) => do
    let portable : PortableHpFloat :=
      { precisionBits := x.precision
        significandHex := toStringRadix16 z
        binaryExponent := k
        negativeZero := x.finite? = some 0 ∧ x.isSignNegative }
    portable.validate m
    return portable

def toFloat : Outcome MpfrFloat := do
  self.validate m
  let z ← self.significand
  if z = 0 then return ⟨self.precisionBits, .zero self.negativeZero⟩
  else
    let value := m.shiftLeft self.precisionBits (m.assign self.precisionBits z) self.binaryExponent
    match value with
    | .normal v h => return ⟨self.precisionBits, .normal v h⟩
    | _ => .error (.format "portable HP reconstruction overflowed or underflowed")

end PortableHpFloat

structure PortableHpInterval where
  lower : PortableHpFloat
  upper : PortableHpFloat
deriving DecidableEq

namespace PortableHpInterval
variable (m : Mpfr) (self : PortableHpInterval)

def toBoundsUnchecked : Outcome (MpfrFloat × MpfrFloat) := do
  let lower ← self.lower.toFloat m
  let upper ← self.upper.toFloat m
  return (lower, upper)

def validate : Outcome Unit := do
  let bounds ← self.toBoundsUnchecked m
  refuse (bounds.2.lt bounds.1) "portable HP interval lower endpoint exceeds upper endpoint"

def toBounds : Outcome (MpfrFloat × MpfrFloat) := do
  self.validate m
  self.toBoundsUnchecked m

def fromBounds (lower upper : MpfrFloat) : Outcome PortableHpInterval := do
  let lower ← PortableHpFloat.fromFloat m lower
  let upper ← PortableHpFloat.fromFloat m upper
  let interval : PortableHpInterval := ⟨lower, upper⟩
  interval.validate m
  return interval

end PortableHpInterval

end Xcelerator.Numerics.PortableFloat
