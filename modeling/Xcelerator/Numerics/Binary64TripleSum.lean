import Mathlib
import Xcelerator.Foundations.Binary64

/-! # Exact sums of triple products of binary64 values

Products of three significands are spread over signed base `2 ^ 32` bins from
the exponent `-3328` on. Only the final total is rounded: the bins are brought
to digits, the leading bit fixes the rounding point, and the bits below it
decide between the two neighbours. -/

namespace Xcelerator.Numerics.Binary64TripleSum
open Foundations

/-- An `anyhow` message, or a failed `expect`. -/
inductive Failure where
  | message (text : String)
  | panic (text : String)
deriving DecidableEq, Repr

abbrev Result := Except Failure

def bail {α : Type} (text : String) : Result α := .error (.message text)

/-- `BASE_EXP`. -/
def baseExp : ℤ := -3328

/-- `BINS`. -/
def binCount : ℕ := 208

/-- `RADIX`. -/
def radix : ℤ := 2 ^ 32

/-- The bins of a sum, the lowest first. -/
structure TripleSum where
  bins : List ℤ
deriving DecidableEq, Repr

def TripleSum.new : TripleSum := ⟨List.replicate binCount 0⟩

structure Triple where
  first : Binary64
  second : Binary64
  third : Binary64
deriving DecidableEq, Repr

def Triple.values (t : Triple) : List Binary64 := [t.first, t.second, t.third]

def checkedI128 (text : String) (x : ℤ) : Result ℤ :=
  if -2 ^ 127 ≤ x ∧ x < 2 ^ 127 then .ok x else bail text

/-! ## Products -/

/-- One limb of the product against both limbs of a significand. -/
def accumulate (low high : ℕ) (convolution : List ℕ) (entry : ℕ × ℕ) : List ℕ :=
  (convolution.modify entry.2 (· + entry.1 * low)).modify (entry.2 + 1) (· + entry.1 * high)

def convolve (product : List ℕ) (low high : ℕ) : List ℕ :=
  product.zipIdx.foldl (accumulate low high) (List.replicate (product.length + 2) 0)

/-- The carry loop from a cell that has received its carry on. -/
def carryFrom : ℕ → List ℕ → List ℕ
  | current, [] => [current]
  | current, next :: rest => (current &&& 0xffffffff) :: carryFrom (next + (current >>> 32)) rest

def carried : List ℕ → List ℕ
  | [] => []
  | first :: rest => carryFrom first rest

def limb (x : ℕ) : Result ℕ :=
  if x < 2 ^ 32 then .ok x else .error (.panic "normalized short product limb")

/-- The product limbs times one significand, without leading zero limbs. -/
def multiply (product : List ℕ) (significand : ℕ) : Result (List ℕ) := do
  let limbs ← (carried (convolve product (significand % 2 ^ 32)
    ((significand >>> 32) % 2 ^ 32))).mapM limb
  .ok (limbs.rdropWhile (· == 0))

/-- Sign, exponent and limbs of the factors so far. -/
structure Factors where
  sign : ℤ
  exponent : ℤ
  product : List ℕ
deriving DecidableEq, Repr

/-- `value == 0.0`. -/
def isZero (value : Binary64) : Bool := value.bits % 2 ^ 63 == 0

/-- The loop over the three values; a zero one returns early. -/
def multiplyAll : List Binary64 → Factors → Result (Option Factors)
  | [], factors => .ok (some factors)
  | value :: rest, factors =>
    if !value.isFinite then bail "nonfinite product input"
    else if isZero value then .ok none
    else do
      let bits := value.bits
      let encoded := (bits >>> 52) &&& 0x7ff
      let significand := (bits &&& ((1 <<< 52) - 1)) ||| (if encoded = 0 then 0 else 1 <<< 52)
      let product ← multiply factors.product significand
      multiplyAll rest
        { sign := if bits >>> 63 ≠ 0 then -factors.sign else factors.sign
          exponent := factors.exponent + if encoded = 0 then -1074 else (encoded : ℤ) - 1023 - 52
          product }

/-- The loop that adds the shifted limbs to the bins. -/
def addLimbs (sign : ℤ) (bits : ℕ) : List ℕ → ℕ → List ℤ → Result (List ℤ)
  | [], _, bins => .ok bins
  | limb :: rest, index, bins =>
    match bins[index]? with
    | none => bail "binary64 product exponent above accumulator"
    | some cell => do
      let cell ← checkedI128 "exact binary64 sum count overflow"
        (cell + sign * ((limb <<< bits : ℕ) : ℤ))
      addLimbs sign bits rest (index + 1) (bins.set index cell)

/-- `TripleSum::add`. -/
def TripleSum.add (self : TripleSum) (t : Triple) : Result TripleSum :=
  if t.values.any (!·.isFinite) then bail "nonfinite product input"
  else do
    match ← multiplyAll t.values ⟨1, 0, [1]⟩ with
    | none => .ok self
    | some factors =>
      if factors.exponent - baseExp < 0 then bail "binary64 product exponent below accumulator"
      else do
        let shift := (factors.exponent - baseExp).toNat
        let bins ← addLimbs factors.sign (shift % 32) factors.product (shift / 32) self.bins
        .ok ⟨bins⟩

/-! ## The final rounding -/

/-- The carry loop of `normalize` from a bin that has received its carry on. The last bin keeps what
it gets. -/
def normalizeFrom : ℤ → List ℤ → Result (List ℤ)
  | current, [] => .ok [current]
  | current, next :: rest => do
    let next ← checkedI128 "binary64 accumulator carry overflow" (next + current / radix)
    let digits ← normalizeFrom next rest
    .ok (current % radix :: digits)

def normalize : List ℤ → Result (List ℤ)
  | [] => .ok []
  | first :: rest => normalizeFrom first rest

/-- `rposition`: the last nonzero digit. -/
def rposition (digits : List ℤ) : Option ℕ :=
  (List.range digits.length).reverse.find? fun i => digits.getD i 0 != 0

/-- `i128::leading_zeros` of a nonnegative value. -/
def leadingZeros (x : ℤ) : ℕ := 128 - x.toNat.size

/-- The `bit` closure, on nonnegative words. -/
def bit (normalized : List ℤ) (index : ℕ) : Bool :=
  match normalized[index / 32]? with
  | some word => (word.toNat &&& (1 <<< (index % 32))) != 0
  | none => false

/-- The bits from `high` down to `shift`, in a `u64`. -/
def gather (normalized : List ℤ) (shift high : ℕ) : ℕ :=
  (List.range' shift (high + 1 - shift)).reverse.foldl
    (fun significand index => ((significand <<< 1) % 2 ^ 64) ||| (bit normalized index).toNat) 0

/-- The kept bits, brought to the nearest integer, a tie to the even one. -/
def roundedSignificand (normalized : List ℤ) (shift high : ℕ) : ℕ :=
  let significand := if shift ≤ high then gather normalized shift high else 0
  if 0 < shift ∧ bit normalized (shift - 1) = true then
    let sticky := (List.range (shift - 1)).any (bit normalized)
    if sticky || significand &&& 1 != 0 then significand + 1 else significand
  else significand

/-- `f64::from_bits`. -/
def fromBits (bits : ℕ) : Binary64 := ⟨bits % 2 ^ 64, Nat.mod_lt _ (by norm_num)⟩

/-- The rounding of nonnegative digits. -/
def encode (negative : Bool) (normalized : List ℤ) : Result Binary64 :=
  match rposition normalized with
  | none => .ok (fromBits 0)
  | some top =>
    let high := top * 32 + (127 - leadingZeros (normalized.getD top 0))
    let exponent := baseExp + high
    if exponent > 1023 then bail "quadrature result overflows binary64"
    else
      let subnormal := decide (exponent < -1022)
      let shift := if subnormal then (-1074 - baseExp).toNat else high - 52
      let significand := roundedSignificand normalized shift high
      if significand = 0 then bail "nonzero quadrature result underflows binary64"
      else
        let carries := !subnormal && significand == 1 <<< 53
        let significand := if carries then significand >>> 1 else significand
        let exponent := if carries then baseExp + (high + 1 : ℕ) else exponent
        if exponent > 1023 then bail "quadrature result overflows binary64"
        else
          let magnitude :=
            if subnormal then significand
            else ((exponent + 1023).toNat <<< 52) ||| (significand &&& ((1 <<< 52) - 1))
          .ok (fromBits ((negative.toNat <<< 63) ||| magnitude))

/-- The digits of the magnitude: a negative total is negated bin by bin and carried again. -/
def oriented (bins normalized : List ℤ) (negative : Bool) : Result (List ℤ) :=
  if negative then do
    let negated ← bins.mapM fun x => checkedI128 "binary64 accumulator sign overflow" (-x)
    normalize negated
  else .ok normalized

/-- `TripleSum::finish`. -/
def TripleSum.finish (self : TripleSum) : Result Binary64 := do
  let normalized ← normalize self.bins
  let negative := decide (normalized.getD (binCount - 1) 0 < 0)
  let normalized ← oriented self.bins normalized negative
  if radix ≤ normalized.getD (binCount - 1) 0 then bail "binary64 accumulator range exceeded"
  else encode negative normalized

end Xcelerator.Numerics.Binary64TripleSum
