import Mathlib
import Xcelerator.Foundations.Binary64
import Xcelerator.Variational.MaynardSymmetric

/-! # Adaptive symmetric spaces

A policy grows the space of symmetric polynomials one complete degree at a time.
A vector on one generation is prolonged to a later one by the identity of its
partitions; coordinates that are new are zero. -/

namespace Xcelerator.Variational.Maynard
open Xcelerator.Foundations (Binary64)
open Xcelerator.Foundations.Machine

/-! ## Generations -/

structure AdaptiveSpacePolicy where
  k : Nat
  initialDegree : Nat
  maximumDegree : Nat
  maximumGenerations : Nat
deriving DecidableEq, Repr

structure AdaptiveSpaceGeneration where
  generation : Nat
  parentGeneration : Option Nat
  degree : Nat
  candidatesConsidered : List IntegerPartition
  acceptedBlock : List IntegerPartition
  realizedBasis : List IntegerPartition
  stoppingReason : Option String
deriving DecidableEq, Repr

/-- `usize::saturating_add`. -/
def saturatingAdd (a b : Nat) : Nat := min (a + b) (2 ^ 64 - 1)

/-- `counts[first..=last]`. -/
def sliceInclusive (counts : List Nat) (first last : Nat) : Mk (List Nat) :=
  if first ≤ last + 1 ∧ last < counts.length then .ok ((counts.drop first).take (last + 1 - first))
  else .error (.panic .outOfBounds)

/-- The partitions of all generations, three copies each. -/
def totalEntries (counts : List Nat) : Mk Nat :=
  counts.foldlM (fun sum count => do
    let copies ← panicking (unsigned 128 (3 * count))
    okOr (checked 128 (sum + copies)) "adaptive partition history size overflow") 0

def setLastReason (reason : String) (history : List AdaptiveSpaceGeneration) :
    List AdaptiveSpaceGeneration :=
  match history.getLast? with
  | some last => history.dropLast ++ [{ last with stoppingReason := some reason }]
  | none => history

/-- The partitions of a degree above the initial one; `generation` counts the ones before. -/
def shell (k degree generation : Nat) : Mk AdaptiveSpaceGeneration := do
  let complete ← enumerateIntegerPartitions k degree
  let acceptedBlock := complete.filter fun partition => partition.sum = degree
  return { generation
           parentGeneration := some (generation - 1)
           degree
           candidatesConsidered := acceptedBlock
           acceptedBlock
           realizedBasis := complete
           stoppingReason := none }

/-- One generation for every degree, until the budget of generations is spent. -/
def grow (k maximumGenerations : Nat) : List Nat → List AdaptiveSpaceGeneration →
    Mk (List AdaptiveSpaceGeneration)
  | [], history => .ok history
  | degree :: rest, history =>
    if maximumGenerations ≤ history.length then .ok (setLastReason "maximum_generations" history)
    else do
      let child ← shell k degree history.length
      grow k maximumGenerations rest (history ++ [child])

/-- The reason of the last generation, where the loop gave none. -/
def close (maximumDegree : Nat) (history : List AdaptiveSpaceGeneration) :
    List AdaptiveSpaceGeneration :=
  match history.getLast? with
  | some last =>
    if last.stoppingReason = none then
      setLastReason (if last.degree = maximumDegree then "maximum_degree" else
        "generation_budget") history
    else history
  | none => history

def buildAdaptiveSymmetricSpaces (policy : AdaptiveSpacePolicy) :
    Mk (List AdaptiveSpaceGeneration) := do
  check (policy.k != 0) "k must be positive"
  check (!(policy.maximumDegree < policy.initialDegree || policy.maximumGenerations == 0))
    "adaptive-space degree range or generation budget is invalid"
  let finalDegree := min policy.maximumDegree
    (saturatingAdd policy.initialDegree (policy.maximumGenerations - 1))
  let counts ← partitionCountsWithBudget policy.k finalDegree
  let slice ← sliceInclusive counts policy.initialDegree finalDegree
  let total ← totalEntries slice
  let bytes ← panicking (unsigned 128 (total * (96 + 4 * min policy.k finalDegree)))
  check (bytes ≤ 256 * 2 ^ 20) "adaptive partition history exceeds 256 MiB"
  let initialBasis ← enumerateIntegerPartitions policy.k policy.initialDegree
  let first := saturatingAdd policy.initialDegree 1
  let history ← grow policy.k policy.maximumGenerations
    (List.range' first (policy.maximumDegree + 1 - first))
    [{ generation := 0
       parentGeneration := none
       degree := policy.initialDegree
       candidatesConsidered := initialBasis
       acceptedBlock := initialBasis
       realizedBasis := initialBasis
       stoppingReason := none }]
  return close policy.maximumDegree history

/-! ## Prolongation -/

inductive SeedGeneratorKind where
  | deterministic
  | cachedHp
  | lowerPrecision
  | randomized
deriving DecidableEq, Repr

structure MkWarmStart where
  coefficients : List Binary64
  sourceGeneration : Option Nat
  targetGeneration : Nat
  exploratorySeed : Option Nat
  seedGenerator : SeedGeneratorKind
  certificationDependency : Bool
deriving DecidableEq, Repr

def zero64 : Binary64 := ⟨0, by norm_num⟩

/-- The partitions are canonical and none repeats one seen before. -/
def checkBasis : List IntegerPartition → List IntegerPartition → Mk Unit
  | [], _ => .ok ()
  | partition :: rest, seen => do
    validatePartition partition (2 ^ 64 - 1)
    check (!seen.contains partition) "warm-start bases must contain distinct canonical partitions"
    checkBasis rest (partition :: seen)

/-- The position a map built from the basis holds: the last one for its key. -/
def childPosition (childBasis : List IntegerPartition) (partition : IntegerPartition) :
    Option Nat :=
  (childBasis.zipIdx.reverse.find? fun entry => entry.1 = partition).map Prod.snd

def placeCoefficient (childBasis : List IntegerPartition) (coefficients : List Binary64)
    (entry : IntegerPartition × Binary64) : Mk (List Binary64) := do
  let position ← okOr (childPosition childBasis entry.1) "warm-start target is not a nested basis"
  panicking (write coefficients position entry.2)

def prolongSymmetricWarmStart (parentBasis : List IntegerPartition)
    (parentCoefficients : List Binary64)
    (childBasis : List IntegerPartition) (sourceGeneration targetGeneration : Nat) :
    Mk MkWarmStart := do
  if parentBasis.length ≠ parentCoefficients.length then
    .error (.refused (.dimensionMismatch parentBasis.length parentCoefficients.length))
  else
    check (!parentCoefficients.any fun value =>
      !value.isFinite) "warm-start coefficients must be finite"
    checkBasis parentBasis []
    checkBasis childBasis []
    let coefficients ← (parentBasis.zip parentCoefficients).foldlM (placeCoefficient childBasis)
      (List.replicate childBasis.length zero64)
    return { coefficients
             sourceGeneration := some sourceGeneration
             targetGeneration
             exploratorySeed := none
             seedGenerator := .cachedHp
             certificationDependency := false }

/-! ## Forms -/

namespace MkSymmetricReference
variable (s : MkSymmetricReference)

def quadraticI (coefficients : List ℚ) : Mk ℚ := do
  let expanded ← s.expandCoefficientsExact coefficients
  s.monomial.quadraticI expanded

def quadraticJTotal (coefficients : List ℚ) : Mk ℚ := do
  let expanded ← s.expandCoefficientsExact coefficients
  s.monomial.quadraticJTotal expanded

def rayleighQuotient (coefficients : List ℚ) : Mk ℚ := do
  let denominator ← s.quadraticI coefficients
  if denominator ≤ 0 then .error (.refused .nonPositiveDenominator)
  else do
    let numerator ← s.quadraticJTotal coefficients
    return numerator / denominator

end MkSymmetricReference

end Xcelerator.Variational.Maynard
