import Mathlib.Data.Nat.Size
import Xcelerator.Foundations.Machine

/-! Exact signed integer matrix products from small prime residues. `BigInt`
and `BigUint` are `Int` and `Nat`; every fixed-width operation of the product
tree and of the residue kernel goes through `Machine`, so a wrapped value is a
`Fault` and never a wrong number. Parallel maps collect in index order and are
list maps. `multiply` is the call with the CPU backend: of the CUDA planning
block only the threshold lookup runs there (`Environment.threshold`). -/

namespace Xcelerator.Numerics.ModularProduct
open Xcelerator.Foundations Machine

inductive ProductBackend where
  | cpu
  | auto
  | cuda
deriving DecidableEq, Repr

structure ProductLimits where
  maxWorkspaceBytes : UInt64
  maxInputBits : UInt64
  maxModularScalarProducts : UInt64
  workers : UInt64
deriving DecidableEq, Repr

inductive ProductError where
  | refused (message : String)
  | modularWorkspaceLimit (stage : String) (required available : Nat)
  | reconstructionCapacity (message : String)
  | environment (message : String)
  | fault (fault : Fault)
deriving DecidableEq, Repr

abbrev Result := Except ProductError

/-- What the process supplies: the thread pool for a worker count, and the
parsed `XC_CUDA_MIN_SCALAR_PRODUCTS`. Either may fail. -/
structure Environment where
  pool : UInt64 → Except String Unit
  threshold : Except String Nat

structure ExactModularProduct where
  entries : List Int
  rows : Nat
  columns : Nat
  moduli : Nat
  reconstructionBits : Nat
  requiredBoundBits : Nat
  estimatedWorkspaceBytes : Nat
  backendUsed : ProductBackend
deriving DecidableEq, Repr

/-- `num_integer::ExtendedGcd`: `gcd = a * x + b * y`. -/
structure ExtendedGcd where
  gcd : Int
  x : Int
  y : Int

def ensure (condition : Bool) (message : String) : Result Unit :=
  if condition then .ok () else .error (.refused message)

/-- `Option::context`. -/
def context {α : Type} (x : Option α) (message : String) : Result α :=
  match x with
  | some a => .ok a
  | none => .error (.refused message)

/-- `Option::expect`. -/
def expect {α : Type} (x : Option α) : Result α :=
  match x with
  | some a => .ok a
  | none => .error (.fault .failedAssertion)

def checked {α : Type} (x : Checked α) : Result α := x.mapError .fault

def supplied {α : Type} (x : Except String α) : Result α := x.mapError .environment

def admitWorkspace (required available : Nat) (stage : String) : Result Unit :=
  if required > available then .error (.modularWorkspaceLimit stage required available) else .ok ()

/-- The width preflight, before the bound itself is formed. -/
def admitPlanning (boundBits : Nat) : Result Unit :=
  if boundBits > 32768 then
    .error (.reconstructionCapacity "input exceeds the small-prime planning domain")
  else .ok ()

/-- The result of `checked_mul` and `checked_add` on `usize`. -/
def usize? (x : Nat) : Option Nat := if x < 2 ^ 64 then some x else none

/-! ## The product tree -/

inductive Tree where
  | small (index len : Nat) (primes coefficients : List Nat) (smallProduct product : Nat)
  | branch (left right : Tree) (product inverse : Nat)
deriving DecidableEq, Repr

def Tree.product : Tree → Nat
  | .small _ _ _ _ _ product => product
  | .branch _ _ product _ => product

/-- A `[_; 4]` array filled from the front. -/
def fill4 (xs : List Nat) : List Nat := xs ++ List.replicate (4 - xs.length) 0

section
variable (extendedGcd : Int → Int → ExtendedGcd)

/-- One CRT coefficient of a native leaf. -/
def coefficient (smallProduct p : Nat) : Checked Nat := do
  assert (p ≤ 16191)
  let quotient ← divide smallProduct p
  let r ← remainder quotient p
  let egcd := extendedGcd (← signed 64 r) p
  assert (egcd.gcd = 1)
  let inverse := (egcd.x % (p : Int)).toNat
  unsigned 64 (quotient * inverse)

def Tree.build (primes : List Nat) (offset : Nat) : Checked Tree := do
  assert (!primes.isEmpty)
  if _h : primes.length ≤ 4 then
    let smallProduct ← Machine.product 64 primes
    let coefficients ← primes.mapM (coefficient extendedGcd smallProduct)
    return .small offset primes.length (fill4 primes) (fill4 coefficients) smallProduct smallProduct
  else
    -- complete four-prime groups stay together
    let middle := (primes.length + 3) / 4 / 2 * 4
    let left ← Tree.build (primes.take middle) offset
    let right ← Tree.build (primes.drop middle) (offset + middle)
    let egcd := extendedGcd left.product right.product
    assert (egcd.gcd = 1)
    let inverse := (egcd.x % (right.product : Int)).toNat
    return .branch left right (left.product * right.product) inverse
termination_by primes.length
decreasing_by
  · simp only [List.length_take]; omega
  · simp only [List.length_drop]; omega

end

/-- The residue a negative value has instead of its magnitude's. -/
def canonicalResidue (negative : Bool) (prime r : Nat) : Checked Nat :=
  if negative && r != 0 then subtract prime r else .ok r

/-- The leaf loop of `Tree::residues` over the primes that remain, writing from `i`. -/
def writeResidues (value : Nat) (negative : Bool) : List Nat → Nat → List Nat → Checked (List Nat)
  | [], _, output => .ok output
  | prime :: rest, i, output => do
    let r ← remainder value prime
    let canonical ← canonicalResidue negative prime r
    let output ← write output i (canonical % 2 ^ 16)
    writeResidues value negative rest (i + 1) output

/-- A leaf's native value. `to_u64` fails from `2^64` on, where only the big
remainder is taken. -/
def leafValue (value smallProduct : Nat) : Checked Nat :=
  if value < 2 ^ 64 then
    if value < smallProduct then .ok value else remainder value smallProduct
  else do unsigned 64 (← remainder value smallProduct)

def Tree.residues (value : Nat) (negative : Bool) : Tree → List Nat → Checked (List Nat)
  | .small index len primes _ smallProduct _, output => do
    let value ← leafValue value smallProduct
    writeResidues value negative (primes.take len) index output
  | .branch left right _ _, output => do
    let a ← remainder value left.product
    let b ← remainder value right.product
    let output ← left.residues a negative output
    right.residues b negative output

/-- `residues[i][entry]`. -/
def residueAt (residues : List (List Nat)) (entry i : Nat) : Checked Nat := do
  read (← read residues i) entry

/-- `b - a` modulo `modulus`, without a negative intermediate. -/
def modularDifference (b a modulus : Nat) : Checked Nat :=
  if a ≤ b then subtract b a else do subtract modulus (← subtract a b)

def Tree.reconstruct (residues : List (List Nat)) (entry : Nat) : Tree → Checked Nat
  | .small index len _ coefficients smallProduct _ => do
    let terms ← (coefficients.take len).zipIdx.mapM fun (coefficient, i) => do
      unsigned 128 ((← residueAt residues entry (index + i)) * coefficient)
    let sum ← Machine.sum 128 terms
    let r ← remainder sum smallProduct
    return r % 2 ^ 64
  | .branch left right _ inverse => do
    let a ← left.reconstruct residues entry
    let b ← right.reconstruct residues entry
    let aMod ← remainder a right.product
    let difference ← modularDifference b aMod right.product
    let correction ← remainder (difference * inverse) right.product
    return a + left.product * correction

/-! ## Prime selection -/

/-- The trial-division loop of `prime`, from `d` on. -/
def primeLoop (p d : Nat) : Bool :=
  if h : 0 < d ∧ d * d ≤ p then
    if p % d = 0 then false else primeLoop p (d + 2)
  else decide (p ≥ 3) && decide (p % 2 = 1)
termination_by p + 1 - d
decreasing_by
  have := Nat.le_mul_self d
  omega

def prime (p : Nat) : Bool := primeLoop p 3

/-- `(3..=n).rev()`. -/
def descending : Nat → List Nat
  | 0 => []
  | n + 1 => if 3 ≤ n + 1 then (n + 1) :: descending n else []

def choosePrimesLoop (bound : Nat) : List Nat → List Nat → Nat → List Nat × Nat
  | [], primes, product => (primes, product)
  | p :: rest, primes, product =>
    if !primes.isEmpty && decide (product > bound) then (primes, product)
    else choosePrimesLoop bound rest (primes ++ [p]) (product * p)

def choosePrimes (bound : Nat) : Result (List Nat × Nat) :=
  let (primes, product) := choosePrimesLoop bound ((descending 16191).filter (prime ·)) [] 1
  if product ≤ bound then
    .error (.reconstructionCapacity "input exceeds the exact small-prime reconstruction capacity")
  else .ok (primes, product)

/-! ## Residue kernel -/

/-- The `i64` balanced representative of a canonical residue. -/
def centered (value prime : Nat) : Checked Int :=
  if value > prime / 2 then signed 64 ((value : Int) - prime) else pure value

/-- The accumulator loop of one dot product, for the remaining indices. -/
def dotLoop (aa bb : List Int) (i k n j : Nat) : List Nat → Int → Checked Int
  | [], dot => .ok dot
  | t :: rest, dot => do
    let term ← signed 64 ((← read aa (i * k + t)) * (← read bb (t * n + j)))
    dotLoop aa bb i k n j rest (← signed 64 (dot + term))

def cpuResidueProduct (a b : List Nat) (m k n p : Nat) : Checked (List Nat) := do
  let aa ← a.mapM (centered · p)
  let bb ← b.mapM (centered · p)
  let count ← unsigned 64 (m * n)
  (List.range count).mapM fun entry => do
    let dot ← dotLoop aa bb (entry / n) k n (entry % n) (List.range k) 0
    return (dot % (p : Int)).toNat % 2 ^ 16

def converted (values : List Int) (tree : Tree) (primes : Nat) : Checked (List (List Nat)) :=
  values.mapM fun value =>
    tree.residues value.natAbs (decide (value < 0)) (List.replicate primes 0)

/-- The CPU branch: one residue product per prime, in prime order. -/
def cpuResidues (a b : List (List Nat)) (primes : List Nat) (rows inner columns : Nat) :
    Checked (List (List Nat)) :=
  primes.zipIdx.mapM fun (p, index) => do
    let aa ← a.mapM (read · index)
    let bb ← b.mapM (read · index)
    cpuResidueProduct aa bb rows inner columns p

/-- One signed output entry. -/
def reconstructed (tree : Tree) (residues : List (List Nat)) (modulus entry : Nat) :
    Checked Int := do
  let value ← tree.reconstruct residues entry
  return if value > modulus / 2 then (value : Int) - modulus else value

/-! ## The product -/

/-- Everything `multiply` settles before the tree is built. -/
structure Plan where
  count : Nat
  bound : Nat
  primes : List Nat
  modulus : Nat
  workspace : Nat
deriving DecidableEq, Repr

/-- The checks and the modulus choice of `multiply`, up to the last admission.
All quantities compared here are `u128` sums of products of two or three `usize`
and prime-count factors below `2^120`, so they are plain naturals. -/
def plan (left right : List Int) (rows inner columns : Nat) (limits : ProductLimits) :
    Result Plan := do
  ensure (0 < rows && 0 < inner && 0 < columns) "matrix dimensions must be positive"
  ensure (0 < limits.workers.toNat) "workers must be positive"
  ensure (usize? (rows * inner) == some left.length &&
    usize? (inner * columns) == some right.length)
    "matrix storage does not match shape"
  let count ← context (usize? (rows * columns)) "product shape overflow"
  ensure (rows ≤ 2 ^ 31 - 1 && columns ≤ 2 ^ 31 - 1) "matrix exceeds kernel index domain"
  let padded ← context (usize? (inner + 3)) "inner dimension overflow"
  let paddedK := padded / 4 * 4
  ensure (paddedK * 127 * 127 ≤ 2 ^ 31 - 1) "integer accumulation domain exceeded"
  ensure (paddedK * (4096 + 128 * (16129 + 4096 + 3969) + 16384 * 3969) ≤ 2 ^ 63 - 1)
    "integer recombination domain exceeded"
  let maxA ← expect (left.map Int.natAbs).max?
  let maxB ← expect (right.map Int.natAbs).max?
  ensure (maxA.size ≤ limits.maxInputBits.toNat && maxB.size ≤ limits.maxInputBits.toNat)
    "input precision budget exceeded"
  let available := limits.maxWorkspaceBytes.toNat
  let totalEntries := left.length + right.length + count
  admitWorkspace (totalEntries * 32) available "product"
  admitWorkspace ((limits.maxInputBits.toNat + 7) / 8) available "product input width"
  let boundBits := maxA.size + maxB.size + inner.size + 1
  admitPlanning boundBits
  admitWorkspace ((boundBits + 7) / 8 * 64 + totalEntries * 64) available "product planning"
  let bound := maxA * maxB * inner * 2
  let (primes, modulus) ← choosePrimes bound
  let operations := rows * inner * columns * primes.length
  ensure (operations ≤ limits.maxModularScalarProducts.toNat) "modular operation budget exceeded"
  let bitStorage := (modulus.size + 7) / 8
  let workspace := totalEntries * (4 * primes.length + 64) + count * (bitStorage + 64) * 2
    + limits.workers.toNat * (bitStorage * 128 + primes.length * 128)
    + bitStorage * primes.length * 32 + limits.workers.toNat * (2 * 2 ^ 20)
  admitWorkspace workspace available "product"
  return { count, bound, primes, modulus, workspace }

/-- The modular computation itself: conversion, residue products, reconstruction. -/
def modularEntries (left right : List Int) (rows inner columns : Nat) (plan : Plan) (tree : Tree) :
    Checked (List Int) := do
  let a ← converted left tree plan.primes.length
  let b ← converted right tree plan.primes.length
  let residues ← cpuResidues a b plan.primes rows inner columns
  (List.range plan.count).mapM (reconstructed tree residues plan.modulus)

def violatesBound : String := "reconstructed product violates its proved magnitude bound"

def multiply (extendedGcd : Int → Int → ExtendedGcd) (env : Environment) (left right : List Int)
    (rows inner columns : Nat) (limits : ProductLimits) : Result ExactModularProduct := do
  let plan ← plan left right rows inner columns limits
  let _threshold ← supplied env.threshold
  let tree ← checked (Tree.build extendedGcd plan.primes 0)
  supplied (env.pool limits.workers)
  let entries ← checked (modularEntries left right rows inner columns plan tree)
  ensure (!entries.any fun v => v.natAbs > plan.bound / 2) violatesBound
  return {
    entries, rows, columns
    moduli := plan.primes.length
    reconstructionBits := plan.modulus.size
    requiredBoundBits := plan.bound.size
    estimatedWorkspaceBytes := plan.workspace
    backendUsed := .cpu }

end Xcelerator.Numerics.ModularProduct
