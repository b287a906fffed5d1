import Mathlib
import Xcelerator.Numerics.ModularProduct

/-! # Modular products on any backend, and limb products past the CRT capacity

A CUDA device is the parameter `Device`: what planning admits, and the residue
matrices an admitted device returns. Reconstruction stays on the host. Products
wider than one reconstruction are sums of limb products; each operand is split
into signed-magnitude digits of `width` bits and every pair of digit matrices is
one child product, shifted and added without rounding. -/

namespace Xcelerator.Numerics.WideProduct
open Xcelerator.Foundations Machine ModularProduct

/-! ## The backends of `multiply` -/

/-- The accelerator. `cudaPlan` is the CUDA planning block: `none` when no device
is admitted, else the extra workspace. Either function may fail. -/
structure Device where
  cudaPlan : ProductBackend → Plan → ProductLimits → Result (Option Nat)
  residues : List (List Nat) → List (List Nat) → List Nat → Nat → Nat → Nat →
    Result (List (List Nat))

/-- The INT8 kernel computes the residue products: where the host kernel has
an answer, a successful device run returns the same one. -/
def Device.Exact (device : Device) : Prop :=
  ∀ {a b primes rows inner columns expected found},
    cpuResidues a b primes rows inner columns = .ok expected →
    device.residues a b primes rows inner columns = .ok found → found = expected

section
variable (device : Device) (extendedGcd : Int → Int → ExtendedGcd) (env : Environment)

/-- The devices the planning block selects. -/
def selected (backend : ProductBackend) (plan : Plan) (operations threshold : Nat)
    (limits : ProductLimits) : Result (Option Nat) :=
  if backend == .cuda || (backend == .auto && decide (threshold ≤ operations)) then
    device.cudaPlan backend plan limits
  else .ok none

/-- The residue products, from the device when one is selected. -/
def residuesOn (selected : Option Nat) (a b : List (List Nat)) (primes : List Nat)
    (rows inner columns : Nat) : Result (List (List Nat)) :=
  match selected with
  | some _ => device.residues a b primes rows inner columns
  | none => checked (cpuResidues a b primes rows inner columns)

/-- `multiply` with its backend argument. -/
def multiplyOn (backend : ProductBackend) (left right : List Int) (rows inner columns : Nat)
    (limits : ProductLimits) : Result ExactModularProduct := do
  let plan ← plan left right rows inner columns limits
  let threshold ← supplied env.threshold
  let selected ← selected device backend plan (rows * inner * columns * plan.primes.length)
    threshold limits
  let tree ← checked (Tree.build extendedGcd plan.primes 0)
  supplied (env.pool limits.workers)
  let a ← checked (converted left tree plan.primes.length)
  let b ← checked (converted right tree plan.primes.length)
  let residues ← residuesOn device selected a b plan.primes rows inner columns
  let entries ← checked ((List.range plan.count).mapM (reconstructed tree residues plan.modulus))
  ensure (!entries.any fun v => v.natAbs > plan.bound / 2) violatesBound
  return {
    entries, rows, columns
    moduli := plan.primes.length
    reconstructionBits := plan.modulus.size
    requiredBoundBits := plan.bound.size
    estimatedWorkspaceBytes := plan.workspace + selected.getD 0
    backendUsed := if selected.isSome then .cuda else .cpu }

end

/-! ## Limb products -/

/-- The capacity in bits of a family's primes, and their number. -/
def capacityOf (family : List Nat) : Nat × Nat :=
  let primes := family.reverse.filter (prime ·)
  let (product, count) := primes.foldl (fun (product, count) p => (product * p, count + 1)) (1, 0)
  (product.size - 1, count)

/-- The capacity of the whole residue family, and its number of moduli. -/
def reconstructionCapacity : Nat × Nat := capacityOf (descending 16191)

/-- The result of a checked `u128` operation. -/
def u128? (x : Nat) : Option Nat := if x < 2 ^ 128 then some x else none

def u64? (x : Nat) : Option Nat := if x < 2 ^ 64 then some x else none

/-- `checked_sub`. -/
def subtract? (a b : Nat) : Option Nat := if b ≤ a then some (a - b) else none

/-- The widest magnitude, in bits. -/
def maxBits (values : List Int) : Nat := (values.map fun v => v.natAbs.size).max?.getD 0

/-- One signed-magnitude digit: the magnitude is shifted and masked, the sign kept. -/
def digit (width shift : Nat) (value : Int) : Int :=
  value.sign * (((value.natAbs >>> shift) &&& (2 ^ width - 1) : Nat) : Int)

def limb (width : Nat) (values : List Int) (index : Nat) : Result (List Int) := do
  let shift ← context (usize? (index * width)) "limb shift overflow"
  return values.map (digit width shift)

/-- `*sum += entry << shift` over the output. -/
def accumulate (shift : Nat) (output entries : List Int) : List Int :=
  List.zipWith (fun sum entry => sum + entry * 2 ^ shift) output entries

/-- What is settled before the first child product. -/
structure LimbPlan where
  count : Nat
  width : Nat
  aLimbs : Nat
  bLimbs : Nat
  childLimits : ProductLimits
deriving DecidableEq, Repr

/-- The checks of `multiply_wide_entries_with`. The retained workspace is a sum of
`u128` products of a `usize` count and a byte length below `2^62`, plain naturals
here. -/
def limbPlan (left right : List Int) (rows inner columns : Nat) (limits : ProductLimits) :
    Result LimbPlan := do
  ensure (0 < rows && 0 < inner && 0 < columns) "matrix dimensions must be positive"
  ensure (0 < limits.workers.toNat) "workers must be positive"
  ensure (usize? (rows * inner) == some left.length &&
    usize? (inner * columns) == some right.length)
    "matrix storage does not match shape"
  let count ← context (usize? (rows * columns)) "product shape overflow"
  ensure (rows ≤ 2 ^ 31 - 1 && columns ≤ 2 ^ 31 - 1) "matrix exceeds kernel index domain"
  let padded ← context (usize? (inner + 3)) "inner dimension overflow"
  let paddedK := padded / 4 * 4
  ensure (paddedK * 127 * 127 ≤ 2 ^ 31 - 1) "integer accumulation domain exceeded"
  ensure (paddedK * (4096 + 128 * (16129 + 4096 + 3969) + 16384 * 3969) ≤ 2 ^ 63 - 1)
    "integer recombination domain exceeded"
  let aBits := maxBits left
  let bBits := maxBits right
  ensure (aBits ≤ limits.maxInputBits.toNat && bBits ≤ limits.maxInputBits.toNat)
    "input precision budget exceeded"
  let innerBits := inner.size
  let capacity := reconstructionCapacity.1
  let maximumModuli := reconstructionCapacity.2
  let digits ← context (subtract? capacity (innerBits + 2)) "inner dimension exceeds limb domain"
  let width := digits / 2
  ensure (0 < width) "empty reconstruction limb domain"
  let aLimbs := (max aBits 1 + width - 1) / width
  let bLimbs := (max bBits 1 + width - 1) / width
  let operations ← context (do
    let v ← u128? (rows * inner)
    let v ← u128? (v * columns)
    let v ← u128? (v * aLimbs)
    let v ← u128? (v * bLimbs)
    u128? (v * maximumModuli)) "limb operation count overflow"
  ensure (operations ≤ limits.maxModularScalarProducts.toNat)
    "modular limb operation budget exceeded"
  let outputBits ← context (do
    let v ← u64? (aBits + bBits)
    u64? (v + innerBits)) "limb output width overflow"
  let outputBytes := (outputBits + 7) / 8 + 64
  let limbBytes := (width + 7) / 8 + 64
  let inputBytes := (max aBits bBits + 7) / 8 + 64
  let retained := count * outputBytes * 4 + (left.length + right.length) * limbBytes * 4
    + 8 * (inputBytes + outputBytes + limbBytes)
  admitWorkspace retained limits.maxWorkspaceBytes.toNat "wide product retained"
  return {
    count, width, aLimbs, bLimbs
    childLimits := { limits with
      maxWorkspaceBytes := limits.maxWorkspaceBytes - .ofNat retained
      maxInputBits := .ofNat width } }

section
variable (product : List Int → List Int → ProductLimits → Result (List Int))

/-- The inner loop body: one child product, added at its place. -/
def limbStep (plan : LimbPlan) (right a : List Int) (aIndex : Nat) (output : List Int)
    (bIndex : Nat) : Result (List Int) := do
  let b ← limb plan.width right bIndex
  let entries ← product a b plan.childLimits
  ensure (entries.length == plan.count) "limb backend output shape mismatch"
  let index ← context (u64? (aIndex + bIndex)) "product limb shift overflow"
  let shift ← context (usize? (index * plan.width)) "product limb shift overflow"
  return accumulate shift output entries

def limbRow (plan : LimbPlan) (left right : List Int) (output : List Int) (aIndex : Nat) :
    Result (List Int) := do
  let a ← limb plan.width left aIndex
  (List.range plan.bLimbs).foldlM (limbStep product plan right a aIndex) output

def multiplyWideEntriesWith (left right : List Int) (rows inner columns : Nat)
    (limits : ProductLimits) : Result (List Int) := do
  let plan ← limbPlan left right rows inner columns limits
  (List.range plan.aLimbs).foldlM (limbRow product plan left right) (List.replicate plan.count 0)

end

def multiplyWideEntries (device : Device) (extendedGcd : Int → Int → ExtendedGcd)
    (env : Environment)
    (backend : ProductBackend) (left right : List Int) (rows inner columns : Nat)
    (limits : ProductLimits) : Result (List Int) :=
  multiplyWideEntriesWith (fun a b limits => do
    let result ← multiplyOn device extendedGcd env backend a b rows inner columns limits
    return result.entries) left right rows inner columns limits

end Xcelerator.Numerics.WideProduct
