import Mathlib
import Xcelerator.Core.RunResources
import Xcelerator.Numerics.ExactProduct

/-! # Rational matrices times interval columns

The contraction of an integer matrix over a denominator with interval columns.
Every column is split into a stored midpoint and an outward radius; the midpoint
product is exact, the radius product is rounded up, and the last subtraction,
addition and division are directed. The float operations that the exact product
does not have are the parameter `Arithmetic`. -/

namespace Xcelerator.Numerics.RationalIntervalProduct
open Xcelerator.Foundations Machine BinaryRounding
open Xcelerator.Numerics.ModularProduct (ProductBackend ProductLimits usize?)
open Xcelerator.Numerics.WideProduct (u128?)
open Xcelerator.Numerics.ExactProduct

/-! ## Floats -/

/-- The position in the order of the extended reals; NaN has none. -/
def rank (x : MpfrFloat) : Option (ℤ ×ₗ ℚ) :=
  match x.datum with
  | .nan => none
  | .infinity negative => some (toLex (if negative then -1 else 1, 0))
  | .zero _ => some (toLex (0, 0))
  | .normal x => some (toLex (0, x.value))

/-- `>`, false on NaN. -/
def gt (x y : MpfrFloat) : Bool :=
  match rank x, rank y with
  | some a, some b => decide (b < a)
  | _, _ => false

/-- `>= 0`, false on NaN. -/
def nonnegative (x : MpfrFloat) : Bool := (rank x).any fun a => decide (toLex (0, 0) ≤ a)

/-- `abs_mut`. -/
def absolute (x : MpfrFloat) : MpfrFloat where
  precision := x.precision
  datum :=
    match x.datum with
    | .nan => .nan
    | .infinity _ => .infinity false
    | .zero _ => .zero false
    | .normal x => .normal { x with negative := false }

/-- The sum, the difference and the quotient by an integer, rounded to a precision. -/
structure Arithmetic extends Mpfr where
  add : ExponentRange → Nat → MpfrFloat → MpfrFloat → Round → MpfrFloat
  sub : ExponentRange → Nat → MpfrFloat → MpfrFloat → Round → MpfrFloat
  divInteger : ExponentRange → Nat → MpfrFloat → Int → Round → MpfrFloat

/-- A result rounded up: no smaller than the exact one, or the positive infinity. -/
def RoundedUp (exact : ℚ) (x : MpfrFloat) : Prop :=
  x.datum = .infinity false ∨ ∃ v, x.value = some v ∧ exact ≤ v

/-- A result rounded down: no larger than the exact one, or the negative infinity. -/
def RoundedDown (exact : ℚ) (x : MpfrFloat) : Prop :=
  x.datum = .infinity true ∨ ∃ v, x.value = some v ∧ v ≤ exact

/-- Documented behaviour: directed results on finite operands, and an integer that fits the
precision is stored as it is unless it overflows. Nothing is said of a nearest sum. -/
structure Arithmetic.Directed (arithmetic : Arithmetic) : Prop where
  correct : arithmetic.toMpfr.Correct
  integer : ∀ {range precision} {z : Int} {v}, range.lower ≤ 1 → arithmetic.precMin ≤ precision →
    precision ≤ arithmetic.precMax → z.natAbs.size ≤ precision →
    (arithmetic.withValRound range precision z .nearest).value = some v → v = z
  add_up : ∀ {range precision x y a b}, x.value = some a → y.value = some b →
    RoundedUp (a + b) (arithmetic.add range precision x y .up)
  sub_up : ∀ {range precision x y a b}, x.value = some a → y.value = some b →
    RoundedUp (a - b) (arithmetic.sub range precision x y .up)
  sub_down : ∀ {range precision x y a b}, x.value = some a → y.value = some b →
    RoundedDown (a - b) (arithmetic.sub range precision x y .down)
  div_up : ∀ {range precision x a} {z : Int}, x.value = some a → z ≠ 0 →
    RoundedUp (a / z) (arithmetic.divInteger range precision x z .up)
  div_down : ∀ {range precision x a} {z : Int}, x.value = some a → z ≠ 0 →
    RoundedDown (a / z) (arithmetic.divInteger range precision x z .down)
  div_infinity : ∀ {range precision x s} {z : Int} {round}, x.datum = .infinity s → z ≠ 0 →
    (arithmetic.divInteger range precision x z round).isFinite = false

/-! ## Results and intervals -/

/-- An error and the markers put around it. -/
inductive Failure where
  | refused (message : String)
  | invalid (message : String)
  | inconclusive (message : String)
  | exact (error : ExactError)
  | run (message : String)
  | fault (fault : Fault)
  | admission (cause : Failure)
  | execution (cause : Failure)
deriving DecidableEq, Repr

abbrev Result := Except Failure

def ensure (condition : Bool) (message : String) : Result Unit :=
  if condition then .ok () else .error (.refused message)

def okOr {α : Type} (x : Option α) (message : String) : Result α :=
  match x with
  | some a => .ok a
  | none => .error (.refused message)

def admitted (condition : Bool) (message : String) : Result Unit :=
  if condition then .ok () else .error (.admission (.refused message))

/-- The endpoints as stored. -/
structure MpfrInterval where
  lower : MpfrFloat
  upper : MpfrFloat
deriving DecidableEq

namespace MpfrInterval

def new (lower upper : MpfrFloat) : Result MpfrInterval :=
  if !lower.isFinite || !upper.isFinite || gt lower upper then
    .error (.invalid "MPFR interval endpoints must be finite and ordered")
  else if lower.precision ≠ upper.precision then
    .error (.invalid "MPFR interval endpoints must have equal precision")
  else .ok ⟨lower, upper⟩

def validate (self : MpfrInterval) : Result Unit :=
  if !self.lower.isFinite || !self.upper.isFinite || gt self.lower self.upper ||
      self.lower.precision != self.upper.precision then
    .error (.invalid "invalid or unrepresentable MPFR interval")
  else .ok ()

def precision (self : MpfrInterval) : Nat := self.lower.precision

end MpfrInterval

/-! ## Admission -/

structure ContractionOptions where
  backend : ProductBackend
  maxWorkspaceBytes : UInt64
  maxIntegerBits : UInt32
  maxExponentSpan : UInt32
  maxScalarProducts : Nat
  maxModularScalarProducts : UInt64
  workers : UInt64
deriving DecidableEq, Repr

/-- The shared run a thread sees: its worker limit and the ledger's answer to a request. -/
structure SharedRun (T : Type) where
  workerLimit : Nat
  tryReserveWorking : UInt64 → Except String (Core.RunResources.Reservation T)

def SharedRun.checkWorkers {T : Type} (self : SharedRun T) (actual : UInt64) : Result Unit :=
  if actual.toNat > self.workerLimit then
    .error (.admission (.run
      s!"run worker budget exceeded: actual={actual.toNat}, maximum={self.workerLimit}"))
  else .ok ()

structure Contraction (T : Type) where
  values : List MpfrInterval
  reservation : Option (Core.RunResources.Reservation T)

def ensureUniformExponentRange (range : ExponentRange) (workers : List ExponentRange) :
    Result Unit :=
  if workers.any fun worker => decide (worker ≠ range) then
    .error (.admission (.inconclusive
      "parallel MPFR workers do not share the caller's exponent range"))
  else .ok ()

/-- `significant_bits`, a `u32`. -/
def significantBits (z : Int) : Result Nat := (unsigned 32 z.natAbs.size).mapError .fault

def widthStep (state : Int × Int) (endpoint : MpfrFloat) : Int × Int :=
  match endpoint.datum with
  | .normal x => (min state.1 (canonicalExponent x), max state.2 x.exponent)
  | _ => state

/-- `right_width`. -/
def rightWidth (columns : List MpfrInterval) : Result Nat :=
  let state := (columns.flatMap fun x => [x.lower, x.upper]).foldl widthStep (i64Max, i64Min)
  if state.1 = i64Max then .ok 0
  else
    match u32? (state.2 - state.1 + 2) with
    | some width => .ok width
    | none => .error (.admission (.refused "interval dyadic alignment exceeds supported width"))

def intervalSize : Nat := 64

/-- One entry of the capacity table. -/
def admitCapacity (length width : Nat) : Result Unit :=
  admitted ((usize? (length * width)).any (· ≤ 2 ^ 63 - 1)) "contraction vector capacity exceeded"

def checkColumn (precision : Nat) (column : MpfrInterval) : Result Unit := do
  column.validate
  ensure (column.precision == precision) "uniform contraction precision required"

/-- The arguments. -/
def checkArguments (mpfr : Mpfr) (numerators : List Int) (denominator : Int)
    (columns : List MpfrInterval)
    (shape : ProductShape) (precision : Nat) (options : ContractionOptions) : Result Unit := do
  ensure (0 < shape.rows && 0 < shape.inner && 0 < shape.cols) "positive contraction shape required"
  ensure (usize? (shape.rows * shape.inner) == some numerators.length &&
    usize? (shape.inner * shape.cols) == some columns.length) "contraction shape mismatch"
  ensure (0 < denominator) "positive contraction denominator required"
  ensure (mpfr.precMin ≤ precision && precision ≤ mpfr.precMax) "unsupported contraction precision"
  ensure (0 < options.workers && 0 < options.maxWorkspaceBytes)
    "positive contraction resource limits required"
  columns.forM (checkColumn precision)

def outputBitsOf (leftBits rightBits sumBits : Nat) : Result Nat :=
  if leftBits = 0 ∨ rightBits = 0 then .ok 0
  else
    okOr (do
      let bits ← u32? (leftBits + rightBits : Nat)
      u32? (bits + sumBits : Nat)) "contraction output width overflow"

/-- The size and budget checks: the bytes held outside the products. The terms of the sum are
unsigned, so an intermediate that leaves `u128` makes the total leave it. -/
def admitSizes (numerators : List Int) (denominator : Int) (columns : List MpfrInterval)
    (shape : ProductShape) (precision : Nat) (options : ContractionOptions) : Result Nat := do
  let count ← okOr (usize? (shape.rows * shape.cols)) "contraction output shape overflow"
  admitCapacity numerators.length floatSize
  admitCapacity columns.length floatSize
  admitCapacity count intervalSize
  let operations ← okOr (do
    let n ← u128? (count * shape.inner)
    u128? (n * 2)) "contraction operation count overflow"
  admitted (operations ≤ options.maxScalarProducts) "contraction scalar operation budget exceeded"
  let sizes ← numerators.mapM significantBits
  let leftBits := sizes.foldl max 0
  let rightBits ← rightWidth columns
  let outputBits ← outputBitsOf leftBits rightBits (shape.inner - 1).size
  admitted (leftBits ≤ options.maxIntegerBits.toNat && rightBits ≤ options.maxIntegerBits.toNat &&
    outputBits ≤ options.maxIntegerBits.toNat) "contraction integer width budget exceeded"
  let denominatorBits ← significantBits denominator
  let widest := max (max outputBits precision) denominatorBits
  let retained ← (unsigned 128 (4 * (numerators.length * integerBytes leftBits +
    2 * columns.length * integerBytes precision +
    count * (2 * integerBytes outputBits + 4 * integerBytes precision) +
    16 * integerBytes widest))).mapError .fault
  admitted (retained < options.maxWorkspaceBytes.toNat)
    "contraction retained workspace budget exceeded"
  return retained

/-- The workers and the reservation in a shared run. -/
def reserve {T : Type} (run : Option (SharedRun T)) (options : ContractionOptions) :
    Result (Option (Core.RunResources.Reservation T)) :=
  match run with
  | none => .ok none
  | some run => do
    run.checkWorkers options.workers
    let reservation ← (run.tryReserveWorking options.maxWorkspaceBytes).mapError fun e =>
      .admission (.run e)
    return some reservation

/-! ## The contraction -/

section
variable (arithmetic : Arithmetic) (engine : Engine) (range : ExponentRange)

/-- One entry of `left`. An unsupported precision panics. -/
def fromInteger (a : Int) : Result MpfrFloat := do
  let bits ← significantBits a
  if arithmetic.precMin ≤ max bits 2 ∧ max bits 2 ≤ arithmetic.precMax then
    return arithmetic.withValRound range (max bits 2) a .nearest
  else .error (.fault .failedAssertion)

/-- The stored midpoint and the outward radius of a column. -/
def midpointRadius (precision : Nat) (interval : MpfrInterval) :
    Result (MpfrFloat × MpfrFloat) := do
  let center := arithmetic.shiftLeft range
    (arithmetic.add range precision interval.lower interval.upper .nearest) (-1)
  admitted center.isFinite "contraction midpoint outside supported finite range"
  let below := arithmetic.sub range precision center interval.lower .up
  let above := arithmetic.sub range precision interval.upper center .up
  let radius := if gt below above then below else above
  admitted (radius.isFinite && nonnegative radius)
    "contraction radius outside supported finite range"
  return (center, radius)

def productLimits (options : ContractionOptions) (productBudget : Nat) : ProductLimits where
  maxWorkspaceBytes := .ofNat productBudget
  maxInputBits := options.maxIntegerBits.toUInt64
  maxModularScalarProducts := options.maxModularScalarProducts / 2
  workers := options.workers

def product (prepared : PreparedProduct) (round : Round) (options : ContractionOptions)
    (productBudget : Nat) :
    Result (List MpfrFloat) :=
  (match options.backend with
  | .cpu => cpuProduct arithmetic.toMpfr range prepared round
  | backend => modularProduct arithmetic.toMpfr range engine prepared round backend
      (productLimits options productBudget)).mapError fun e => .execution (.exact e)

/-- `admit_modular_workspace`. -/
def admitModularWorkspace (prepared : PreparedProduct) (limits : ProductLimits) :
    ExactProduct.Result Unit := do
  let remaining ← modularRemainingLimits prepared limits
  workspace ((remaining.maxInputBits.toNat + 7) / 8) remaining.maxWorkspaceBytes.toNat
    "exact product modular input width"

/-- The check that only the modular routes make. -/
def admitBackend (prepared : PreparedProduct) (options : ContractionOptions) (productBudget : Nat) :
    Result Unit :=
  if options.backend = .cpu then .ok ()
  else (admitModularWorkspace prepared (productLimits options productBudget)).mapError fun e =>
    .admission (.exact e)

/-- The prepared midpoint product, widened to its exact output. -/
def prepareExact (left centers : List MpfrFloat) (shape : ProductShape) (precision : Nat)
    (limits : ExactProductLimits) (productBudget : Nat) : ExactProduct.Result PreparedProduct := do
  let prepared ← prepare arithmetic.toMpfr range left centers shape precision limits
  withExactOutput arithmetic.toMpfr prepared productBudget

/-- One output from its midpoint and radius. -/
def enclose (denominator : Int) (precision : Nat) (entry : MpfrFloat × MpfrFloat) :
    Result MpfrInterval :=
  let lo := arithmetic.sub range precision entry.1 entry.2 .down
  let hi := arithmetic.add range precision entry.1 entry.2 .up
  let lower := arithmetic.divInteger range precision lo denominator .down
  let upper := arithmetic.divInteger range precision hi denominator .up
  (MpfrInterval.new lower upper).mapError .execution

/-- `contract`. -/
def contract {T : Type} (workers : List ExponentRange) (run : Option (SharedRun T))
    (numerators : List Int)
    (denominator : Int) (columns : List MpfrInterval) (shape : ProductShape) (precision : Nat)
    (options : ContractionOptions) : Result (Contraction T) := do
  ensureUniformExponentRange range workers
  checkArguments arithmetic.toMpfr numerators denominator columns shape precision options
  let retained ← admitSizes numerators denominator columns shape precision options
  let reservation ← reserve run options
  let productBudget := options.maxWorkspaceBytes.toNat - retained
  let limits : ExactProductLimits :=
    { maxWorkspaceBytes := productBudget
      maxScalarProducts := options.maxScalarProducts / 2
      maxExponentSpan := options.maxExponentSpan.toNat
      maxIntegerBits := options.maxIntegerBits.toNat }
  let left ← numerators.mapM (fromInteger arithmetic range)
  let pairs ← columns.mapM (midpointRadius arithmetic range precision)
  let prepared ← (prepareExact arithmetic range left (pairs.map Prod.fst) shape precision limits
    productBudget).mapError fun e => .admission (.exact e)
  admitBackend prepared options productBudget
  let centerProduct ← product arithmetic engine range prepared .nearest options productBudget
  let prepared ← (prepare arithmetic.toMpfr range (left.map absolute)
    (pairs.map Prod.snd) shape precision
    limits).mapError fun e => .execution (.exact e)
  let radiusProduct ← product arithmetic engine range prepared .up options productBudget
  let values ← (centerProduct.zip radiusProduct).mapM
    (enclose arithmetic range denominator precision)
  return { values, reservation }

end

end Xcelerator.Numerics.RationalIntervalProduct
