import Mathlib
import Xcelerator.Foundations.BinaryRounding
import Xcelerator.Numerics.WideProduct

/-! # Exact products of the binary values stored in MPFR matrices

Each operand becomes an integer matrix times one power of two; only the final
conversion rounds. A float is its sign, the padded significand Rug lends and the
exponent, so a normal value is `significand * 2 ^ (exponent - size significand)`.
MPFR itself is the parameter `Mpfr`, and the exponent range in force is an
argument of every function that reads it: it can change between calls.
`Integer` and `BigInt` are `Int`. -/

namespace Xcelerator.Numerics.ExactProduct
open Xcelerator.Foundations Machine BinaryRounding
open Xcelerator.Numerics.ModularProduct
  (ProductBackend ProductLimits ProductError ExtendedGcd Environment usize?)
open Xcelerator.Numerics.WideProduct (Device u128? multiplyOn multiplyWideEntries)

/-! ## Floats -/

/-- What a finite nonzero float stores, in the widths Rug reports it in. -/
structure Normal where
  negative : Bool
  significand : Nat
  exponent : Int
  positive : 0 < significand
  size_lt : significand.size < 2 ^ 32
  exponent_lower : -2 ^ 31 ≤ exponent
  exponent_upper : exponent < 2 ^ 31
deriving DecidableEq

inductive Datum where
  | nan
  | infinity (negative : Bool)
  | zero (negative : Bool)
  | normal (value : Normal)
deriving DecidableEq

structure MpfrFloat where
  precision : Nat
  datum : Datum
deriving DecidableEq

def Normal.sign (x : Normal) : Int := if x.negative then -1 else 1

def Normal.value (x : Normal) : ℚ :=
  x.sign * x.significand * 2 ^ (x.exponent - x.significand.size)

namespace MpfrFloat

def value (x : MpfrFloat) : Option ℚ :=
  match x.datum with
  | .nan | .infinity _ => none
  | .zero _ => some 0
  | .normal x => some x.value

def isFinite (x : MpfrFloat) : Bool :=
  match x.datum with
  | .nan | .infinity _ => false
  | .zero _ | .normal _ => true

def isZero (x : MpfrFloat) : Bool :=
  match x.datum with
  | .zero _ => true
  | _ => false

end MpfrFloat

/-- The process-wide exponent range, a pair of `i32`. -/
structure ExponentRange where
  lower : Int
  upper : Int
  lower_bound : -2 ^ 31 ≤ lower
  upper_bound : upper < 2 ^ 31
deriving DecidableEq, Repr

/-- MPFR as linked: its precisions, the conversion of an integer and the binary
shift, both under an exponent range. -/
structure Mpfr where
  precMin : Nat
  precMax : Nat
  withValRound : ExponentRange → Nat → Int → Round → MpfrFloat
  shiftLeft : ExponentRange → MpfrFloat → Int → MpfrFloat

/-- Documented behaviour. A conversion whose result cannot leave the exponent
range is the correct rounding; a shift that stays in it is exact. -/
structure Mpfr.Correct (mpfr : Mpfr) : Prop where
  precMin_eq : mpfr.precMin = 1
  withValRound_value : ∀ {range precision z round}, mpfr.precMin ≤ precision →
    precision ≤ mpfr.precMax → z ≠ 0 → range.lower ≤ 1 → (z.natAbs.size : Int) < range.upper →
    (mpfr.withValRound range precision z round).precision = precision ∧
    (mpfr.withValRound range precision z round).value = some (rounded precision round z)
  shiftLeft_value : ∀ {range x n k}, x.datum = .normal n →
    range.lower ≤ n.exponent + k → n.exponent + k ≤ range.upper →
    (mpfr.shiftLeft range x k).precision = x.precision ∧
    (mpfr.shiftLeft range x k).value = some (n.value * 2 ^ k)

/-! ## Admission -/

structure ProductShape where
  rows : Nat
  inner : Nat
  cols : Nat
deriving DecidableEq, Repr

structure ExactProductLimits where
  maxWorkspaceBytes : Nat
  maxScalarProducts : Nat
  maxExponentSpan : Nat
  maxIntegerBits : Nat
deriving DecidableEq, Repr

structure ExactProductPlan where
  shape : ProductShape
  precisionBits : Nat
  leftExponent : Int
  rightExponent : Int
  leftIntegerBits : Nat
  rightIntegerBits : Nat
  outputIntegerBits : Nat
  scalarProducts : Nat
  estimatedWorkspaceBytes : Nat
deriving DecidableEq, Repr

structure PreparedProduct where
  plan : ExactProductPlan
  left : List Int
  right : List Int
  exponentRange : ExponentRange
deriving DecidableEq, Repr

structure OperandLayout where
  exponent : Int
  bits : Nat
deriving DecidableEq, Repr

inductive ExactError where
  | refused (message : String)
  | workspaceLimit (stage : String) (required available : Nat)
  | modular (error : ProductError)
  | fault (fault : Fault)
deriving DecidableEq, Repr

abbrev Result := Except ExactError

def ensure (condition : Bool) (message : String) : Result Unit :=
  if condition then .ok () else .error (.refused message)

/-- `Option::ok_or_else` and `Result::map_err` with a text of their own. -/
def okOr {α : Type} (x : Option α) (message : String) : Result α :=
  match x with
  | some a => .ok a
  | none => .error (.refused message)

def checked {α : Type} (x : Checked α) : Result α := x.mapError .fault

def workspace (required available : Nat) (stage : String) : Result Unit :=
  if required > available then .error (.workspaceLimit stage required available) else .ok ()

/-- The index of the least significant one bit. -/
def findOne (n : Nat) : Option Nat := (List.range n.size).find? (n.testBit ·)

/-- The exponent of the odd part of the significand. -/
def canonicalExponent (x : Normal) : Int :=
  x.exponent - x.significand.size + (findOne x.significand).getD 0

/-- `u32::try_from` of an `i64`. -/
def u32? (x : Int) : Option Nat := if 0 ≤ x ∧ x < 2 ^ 32 then some x.toNat else none

def i64Max : Int := 2 ^ 63 - 1
def i64Min : Int := -2 ^ 63

/-- The scan of `operand_layout`: minimum, maximum, largest top. -/
def layoutLoop : List MpfrFloat → Int × Int × Int → Result (Int × Int × Int)
  | [], state => .ok state
  | value :: rest, (minimum, maximum, largestTop) => do
    ensure value.isFinite "exact product inputs must be finite"
    match value.datum with
    | .normal x =>
      layoutLoop rest (min minimum (canonicalExponent x), max maximum (canonicalExponent x),
        max largestTop x.exponent)
    | _ => layoutLoop rest (minimum, maximum, largestTop)

/-- What `operand_layout` makes of the scan. -/
def layoutOf (limits : ExactProductLimits) (minimum maximum largestTop : Int) :
    Result OperandLayout :=
  if minimum = i64Max then .ok { exponent := 0, bits := 0 }
  else do
    ensure (maximum - minimum ≤ limits.maxExponentSpan)
      "exact product input exponent span exceeds budget"
    let bits ← okOr (u32? (largestTop - minimum))
      "exact product aligned integer width is unsupported"
    ensure (bits ≤ limits.maxIntegerBits) "exact product integer width exceeds budget"
    return { exponent := minimum, bits }

def operandLayout (values : List MpfrFloat) (limits : ExactProductLimits) :
    Result OperandLayout := do
  let (minimum, maximum, largestTop) ← layoutLoop values (i64Max, i64Min, i64Min)
  layoutOf limits minimum maximum largestTop

def resourceOverflow : String := "exact product resource calculation overflow"

def multiply (a b : Nat) : Result Nat := okOr (u128? (a * b)) resourceOverflow

def add (a b : Nat) : Result Nat := okOr (u128? (a + b)) resourceOverflow

def integerBytes (bits : Nat) : Nat := (bits + 63) / 64 * 8 + 96

/-- `check_vector_capacity` for elements of a size. -/
def checkVectorCapacity (size length : Nat) : Result Unit :=
  ensure ((usize? (length * size)).any (· ≤ 2 ^ 63 - 1))
    "exact product vector capacity is unsupported"

/-- `size_of` of Rug's `Integer` and `Float` and of `BigInt`. -/
def integerSize : Nat := 16
def floatSize : Nat := 32
def bigIntSize : Nat := 32

/-- One entry of `aligned`. -/
def alignedEntry (exponent : Int) (value : MpfrFloat) : Result Int :=
  match value.datum with
  | .normal x => do
    let trailing := (findOne x.significand).getD 0
    let integer := x.sign * ((x.significand >>> trailing : Nat) : Int)
    let shift ← okOr (u32? (canonicalExponent x - exponent))
      "exact product alignment shift is unsupported"
    return integer * 2 ^ shift
  | _ => .ok 0

def aligned (values : List MpfrFloat) (exponent : Int) : Result (List Int) :=
  values.mapM (alignedEntry exponent)

/-- The accumulator width: both operand widths and the carries of `inner` terms. -/
def accumulatorBits (a b : OperandLayout) (inner : Nat) : Result Nat :=
  if a.bits = 0 ∨ b.bits = 0 ∨ inner = 0 then .ok 0
  else
    okOr (do
      let bits ← u32? (a.bits + b.bits : Nat)
      u32? (bits + (inner - 1).size : Nat)) "exact product accumulator width overflows"

/-- The conservative allocation estimate. -/
def estimate (leftLen rightLen outputLen precision aBits bBits outputBits : Nat) : Result Nat := do
  let leftBytes ← multiply leftLen (integerBytes aBits)
  let rightBytes ← multiply rightLen (integerBytes bBits)
  let operands ← add leftBytes rightBytes
  let entry ← add (integerBytes outputBits) (integerBytes precision)
  let outputs ← multiply outputLen entry
  let scratch ← multiply 16 (integerBytes (max (max outputBits aBits) bBits))
  let stored ← add operands outputs
  let total ← add stored scratch
  multiply 4 total

/-- `prepare_borrowed`. `usize::BITS - (inner - 1).leading_zeros()` is the size of
`inner - 1`. -/
def prepare (mpfr : Mpfr) (range : ExponentRange) (left right : List MpfrFloat)
    (shape : ProductShape)
    (precisionBits : Nat) (limits : ExactProductLimits) : Result PreparedProduct := do
  ensure (mpfr.precMin ≤ precisionBits && precisionBits ≤ mpfr.precMax)
    "exact product target precision is unsupported"
  let leftLen ← okOr (usize? (shape.rows * shape.inner)) "exact product left shape overflows"
  let rightLen ← okOr (usize? (shape.inner * shape.cols)) "exact product right shape overflows"
  let outputLen ← okOr (usize? (shape.rows * shape.cols)) "exact product output shape overflows"
  ensure (left.length == leftLen && right.length == rightLen) "exact product shape mismatch"
  checkVectorCapacity integerSize leftLen
  checkVectorCapacity integerSize rightLen
  checkVectorCapacity integerSize outputLen
  checkVectorCapacity floatSize outputLen
  let scalarProducts ← multiply outputLen shape.inner
  ensure (scalarProducts ≤ limits.maxScalarProducts) "exact product operation budget exceeded"
  let a ← operandLayout left limits
  let b ← operandLayout right limits
  let outputBits ← accumulatorBits a b shape.inner
  ensure (outputBits ≤ limits.maxIntegerBits) "exact product accumulator width exceeds budget"
  let estimated ← estimate leftLen rightLen outputLen precisionBits a.bits b.bits outputBits
  workspace estimated limits.maxWorkspaceBytes "exact product"
  ensure (range.lower ≤ 1 && (outputBits : Int) < range.upper)
    "exact product intermediate MPFR exponent domain is unsupported"
  let alignedLeft ← aligned left a.exponent
  let alignedRight ← aligned right b.exponent
  return {
    plan := {
      shape, precisionBits, scalarProducts
      leftExponent := a.exponent
      rightExponent := b.exponent
      leftIntegerBits := a.bits
      rightIntegerBits := b.bits
      outputIntegerBits := outputBits
      estimatedWorkspaceBytes := estimated }
    left := alignedLeft
    right := alignedRight
    exponentRange := range }

/-- `with_exact_output`. The subtraction from the estimate is a plain `u128` one. -/
def withExactOutput (mpfr : Mpfr) (self : PreparedProduct) (maxWorkspaceBytes : Nat) :
    Result PreparedProduct := do
  let precision := max self.plan.outputIntegerBits 2
  ensure (precision ≤ mpfr.precMax) "exact output precision unsupported"
  let entries ← multiply self.plan.shape.rows self.plan.shape.cols
  let scaled ← checked (unsigned 128 (4 * entries))
  let old ← multiply scaled (integerBytes self.plan.precisionBits)
  let new ← multiply scaled (integerBytes precision)
  let kept ← checked (subtract self.plan.estimatedWorkspaceBytes old)
  let estimated ← add kept new
  workspace estimated maxWorkspaceBytes "exact output"
  return { self with plan := { self.plan with
    precisionBits := precision
    estimatedWorkspaceBytes := estimated } }

/-! ## Integer products -/

/-- The accumulator loop of one output over the remaining indices. Operand reads
are in range for every prepared product. -/
def dotLoop (left right : List Int) (inner cols i j : Nat) : List Nat → Int → Int
  | [], sum => sum
  | k :: rest, sum =>
    dotLoop left right inner cols i j rest
      (sum + left.getD (i * inner + k) 0 * right.getD (k * cols + j) 0)

/-- One output of a prepared product. -/
def PreparedProduct.dot (self : PreparedProduct) (i j : Nat) : Int :=
  dotLoop self.left self.right self.plan.shape.inner self.plan.shape.cols i j
    (List.range self.plan.shape.inner) 0

def cpuIntegerProduct (self : PreparedProduct) : List Int :=
  (List.range self.plan.shape.rows).flatMap fun i =>
    (List.range self.plan.shape.cols).map fun j => self.dot i j

/-- How a work-stealing pool divides an index range: a leaf runs in order, a
split hands its two parts to any two workers. -/
inductive Split where
  | leaf
  | at (middle : Nat) (left right : Split)
deriving DecidableEq, Repr

/-- Indexed collection: every part's results stand at the part's indices. -/
def Split.collect {α : Type} (f : Nat → α) : Split → Nat → Nat → List α
  | .leaf, start, length => (List.range' start length).map f
  | .at middle left right, start, length =>
    left.collect f start (min middle length) ++
      right.collect f (start + min middle length) (length - min middle length)

/-! ## Rounding -/

def supported : Round → Bool
  | .nearest | .down | .up => true
  | .zero | .awayZero => false

def unsupportedRound : String := "exact product supports only nearest, down, and up rounding"
def rangeChanged : String := "exact product MPFR exponent range changed after preparation"
def shapeMismatch : String := "exact product backend output shape mismatch"
def widthExceeded : String := "exact product backend output width exceeds admitted bound"
def outsideDomain : String := "exact product output exponent is outside the supported finite domain"
def unsupportedShift : String := "exact product output binary shift is unsupported"
def rangeFailure : String := "exact product output range failure"

def checkRoundingContext (range : ExponentRange) (self : PreparedProduct) (round : Round) :
    Result Unit := do
  ensure (supported round) unsupportedRound
  ensure (decide (self.exponentRange = range)) rangeChanged

/-- `i32::try_from` of an `i64`. -/
def i32? (x : Int) : Option Int := if -2 ^ 31 ≤ x ∧ x < 2 ^ 31 then some x else none

def roundInteger (mpfr : Mpfr) (range : ExponentRange) (self : PreparedProduct)
    (integer exponent : Int) (round : Round) : Result MpfrFloat :=
  if integer = 0 then .ok { precision := self.plan.precisionBits, datum := .zero false }
  else do
    let normalized := exponent + integer.natAbs.size
    ensure (self.exponentRange.lower ≤ normalized && normalized < self.exponentRange.upper)
      outsideDomain
    let shift ← okOr (i32? exponent) unsupportedShift
    let value := mpfr.shiftLeft range
      (mpfr.withValRound range self.plan.precisionBits integer round) shift
    ensure (value.isFinite && !value.isZero) rangeFailure
    return value

def roundIntegerProduct (mpfr : Mpfr) (range : ExponentRange) (self : PreparedProduct)
    (integers : List Int) (round : Round) : Result (List MpfrFloat) := do
  checkRoundingContext range self round
  ensure (integers.length == self.plan.shape.rows * self.plan.shape.cols) shapeMismatch
  ensure (integers.all fun integer => integer.natAbs.size ≤ self.plan.outputIntegerBits)
    widthExceeded
  let exponent := self.plan.leftExponent + self.plan.rightExponent
  integers.mapM fun integer => roundInteger mpfr range self integer exponent round

/-! ## The three routes -/

def cpuProduct (mpfr : Mpfr) (range : ExponentRange) (self : PreparedProduct) (round : Round) :
    Result (List MpfrFloat) := do
  checkRoundingContext range self round
  roundIntegerProduct mpfr range self (cpuIntegerProduct self) round

def cpuProductParallel (mpfr : Mpfr) (range : ExponentRange) (split : Split)
    (self : PreparedProduct) (round : Round) : Result (List MpfrFloat) := do
  checkRoundingContext range self round
  let cols := self.plan.shape.cols
  let integers := split.collect (fun index => self.dot (index / cols) (index % cols)) 0
    (self.plan.shape.rows * cols)
  roundIntegerProduct mpfr range self integers round

/-- Unsigned digits base `2 ^ 32`, least significant first, with the sign apart. -/
def integerToBigint (integer : Int) : Int :=
  integer.sign * (Nat.ofDigits (2 ^ 32) (Nat.digits (2 ^ 32) integer.natAbs) : Nat)

def bigintToInteger (value : Int) : Int :=
  let integer : Int := (Nat.ofDigits (2 ^ 32) (Nat.digits (2 ^ 32) value.natAbs) : Nat)
  if value < 0 then -integer else integer

def modularBridgeBytes (self : PreparedProduct) : Result Nat :=
  let shape := self.plan.shape
  if shape.rows = 0 ∨ shape.inner = 0 ∨ shape.cols = 0 then .ok 0
  else do
    let leftBytes ← multiply self.left.length (integerBytes self.plan.leftIntegerBits)
    let rightBytes ← multiply self.right.length (integerBytes self.plan.rightIntegerBits)
    let inputs ← add leftBytes rightBytes
    let widest := max (max self.plan.leftIntegerBits self.plan.rightIntegerBits)
      self.plan.outputIntegerBits
    let digitScratch ← multiply 2 (integerBytes widest)
    let total ← add inputs digitScratch
    multiply 4 total

/-- `modular_remaining_limits`: the comparison makes the cast and the subtraction safe. -/
def modularRemainingLimits (self : PreparedProduct) (limits : ProductLimits) :
    Result ProductLimits := do
  let bridge ← modularBridgeBytes self
  let retained ← add self.plan.estimatedWorkspaceBytes bridge
  workspace retained limits.maxWorkspaceBytes.toNat "exact product combined modular"
  let remaining ← checked (subtract limits.maxWorkspaceBytes.toNat (retained % 2 ^ 64))
  return { limits with maxWorkspaceBytes := .ofNat remaining }

/-- The modular engine: what `multiply` and `multiply_wide_entries` run on. -/
structure Engine where
  device : Device
  extendedGcd : Int → Int → ExtendedGcd
  env : Environment

def backendShapeMismatch : String := "exact product modular backend output shape mismatch"

/-- The entries: one reconstruction, or the limb route when only the capacity is missed. -/
def backendEntries (engine : Engine) (backend : ProductBackend) (left right : List Int)
    (rows inner cols : Nat) (limits : ProductLimits) : Result (List Int) :=
  match multiplyOn engine.device engine.extendedGcd engine.env backend left right rows inner cols
    limits with
  | .ok result => do
    ensure (result.rows == rows && result.columns == cols) backendShapeMismatch
    return result.entries
  | .error (.reconstructionCapacity _) =>
    (multiplyWideEntries engine.device engine.extendedGcd engine.env backend left right
      rows inner cols
      limits).mapError .modular
  | .error error => .error (.modular error)

/-- The part of `modular_product` for a product with no empty axis. -/
def modularIntegers (engine : Engine) (self : PreparedProduct) (backend : ProductBackend)
    (limits remaining : ProductLimits) : Result (List Int) := do
  let shape := self.plan.shape
  ensure (self.plan.scalarProducts ≤ limits.maxModularScalarProducts.toNat)
    "exact product minimum modular operation budget exceeded"
  ensure (self.plan.leftIntegerBits ≤ limits.maxInputBits.toNat &&
      self.plan.rightIntegerBits ≤ limits.maxInputBits.toNat)
    "exact product modular bridge input width exceeds budget"
  checkVectorCapacity bigIntSize self.left.length
  checkVectorCapacity bigIntSize self.right.length
  let entries ← backendEntries engine backend (self.left.map integerToBigint)
    (self.right.map integerToBigint) shape.rows shape.inner shape.cols remaining
  ensure (entries.length == shape.rows * shape.cols) backendShapeMismatch
  ensure (entries.all fun entry => entry.natAbs.size ≤ self.plan.outputIntegerBits)
    "exact product modular backend output width exceeds admitted bound"
  return entries.map bigintToInteger

def modularProduct (mpfr : Mpfr) (range : ExponentRange) (engine : Engine) (self : PreparedProduct)
    (round : Round) (backend : ProductBackend) (limits : ProductLimits) :
    Result (List MpfrFloat) := do
  checkRoundingContext range self round
  let remaining ← modularRemainingLimits self limits
  let shape := self.plan.shape
  if shape.rows = 0 ∨ shape.inner = 0 ∨ shape.cols = 0 then cpuProduct mpfr range self round
  else do
    let integers ← modularIntegers engine self backend limits remaining
    roundIntegerProduct mpfr range self integers round

end Xcelerator.Numerics.ExactProduct
