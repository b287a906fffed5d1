import Mathlib
import Xcelerator.Variational.Maynard

/-! # Orbit sums of monomials

The fully symmetric subspace: integer partitions index the orbits, an in-place
next permutation lists the members of each, and the symmetric entries sum the
monomial ones. -/

namespace Xcelerator.Variational.Maynard
open Xcelerator.Foundations.Machine

/-! ## Partitions -/

abbrev IntegerPartition := List Nat

def partitionBudgetMessage : String :=
  "partition reference storage/work exceeds its 256 MiB or 16 million-step admission budget"

/-- One part added to the counts, saturating above the limit. -/
def addPart (degree limit : Nat) (counts : List Nat) (part : Nat) : List Nat :=
  (List.range' part (degree + 1 - part)).foldl (fun counts total =>
    counts.set total (min (counts.getD total 0 + counts.getD (total - part) 0) (limit + 1))) counts

/-- Replace every count by the running total. -/
def cumulate (counts : List Nat) : List Nat × Nat :=
  counts.foldl (fun (done, cumulative) count => (done ++ [cumulative + count], cumulative + count))
    ([], 0)

def partitionCountsWithBudget (k degree : Nat) : Mk (List Nat) := do
  let width ← okOr (checked 64 (degree + 1)) partitionBudgetMessage
  check (k != 0 && decide (width * 16 ≤ 256 * 2 ^ 20) && decide (degree * min k degree ≤ 16000000))
    partitionBudgetMessage
  let limit := 256 * 2 ^ 20 / (96 + 4 * min k degree)
  let counts := (List.range' 1 (min k degree)).foldl (addPart degree limit)
    ((List.replicate width 0).set 0 1)
  let cumulated := cumulate counts
  check (decide (cumulated.2 ≤ limit)) partitionBudgetMessage
  return cumulated.1

/-- The recursion of `enumerate_integer_partitions`; `slots` is what the maximum
length leaves behind `current`. -/
def recurse : Nat → Nat → Nat → List Nat → List IntegerPartition
  | _, 0, _, current => [current]
  | 0, _ + 1, _, _ => []
  | slots + 1, remaining + 1, maximumPart, current =>
    let minimumPart := (remaining + 1 + slots) / (slots + 1)
    (List.range' minimumPart (min (remaining + 1) maximumPart + 1 - minimumPart)).reverse.flatMap
        fun part =>
      recurse slots (remaining + 1 - part) part (current ++ [part])

def enumerateIntegerPartitions (k degree : Nat) : Mk (List IntegerPartition) := do
  check (decide (degree < 2 ^ 32)) "degree exceeds the u32 exponent schema"
  check (k != 0) "k must be positive"
  let counts ← partitionCountsWithBudget k degree
  let count ← panicking (read counts degree)
  let _ ← okOr (checked 64 count) "partition count exceeds platform size"
  return sortDedup ([] :: (List.range' 1 degree).flatMap fun total => recurse k total total [])

/-- The parts are positive and nonincreasing, and there are not too many. -/
def validatePartition (partition : IntegerPartition) (maximumLength : Nat) : Mk Unit := do
  check (decide (partition.length ≤ maximumLength))
    ("partition length " ++ toString partition.length ++ " exceeds k=" ++ toString maximumLength)
  check (!(partition.contains 0 ||
      (List.range (partition.length - 1)).any fun i =>
        partition.getD i 0 < partition.getD (i + 1) 0))
    "partition parts must be positive and nonincreasing"

/-! ## Orbits -/

def pivotOf (values : List Nat) : Option Nat :=
  (List.range (values.length - 1)).reverse.find? fun i => values.getD i 0 < values.getD (i + 1) 0

def successorOf (values : List Nat) (pivot : Nat) : Option Nat :=
  (List.range' (pivot + 1) (values.length - (pivot + 1))).reverse.find? fun j =>
    values.getD pivot 0 < values.getD j 0

/-- Exchange the pivot with its successor and reverse what follows it. -/
def exchangeReverse (values : List Nat) (pivot successor : Nat) : List Nat :=
  let swapped := (values.set pivot (values.getD successor 0)).set successor (values.getD pivot 0)
  swapped.take (pivot + 1) ++ (swapped.drop (pivot + 1)).reverse

def nextPermutation (values : List Nat) : Mk (Option (List Nat)) :=
  match pivotOf values with
  | none => .ok none
  | some pivot =>
    match successorOf values pivot with
    | none => .error (.panic .failedAssertion)
    | some successor => .ok (some (exchangeReverse values pivot successor))

/-- `while next_permutation(..)`; there are at most `k!` arrangements. -/
def orbitLoop : Nat → List Nat → Mk (List MultiIndex)
  | 0, current => .ok [current]
  | fuel + 1, current => do
    match ← nextPermutation current with
    | none => return [current]
    | some next => return current :: (← orbitLoop fuel next)

def partitionOrbit (partition : IntegerPartition) (k : Nat) : Mk (List MultiIndex) := do
  validatePartition partition k
  let padded := (partition ++ List.replicate (k - partition.length) 0).insertionSort (· ≤ ·)
  orbitLoop k.factorial padded

structure SymmetricMonomialOrbit where
  partition : IntegerPartition
  members : List MultiIndex
deriving DecidableEq, Repr

/-! ## The symmetric engine -/

structure MkSymmetricReference where
  monomial : MkMonomialReference
  orbits : List SymmetricMonomialOrbit
  monomialPositions : List (MultiIndex × Nat)
deriving DecidableEq, Repr

namespace MkMonomialReference
variable (r : MkMonomialReference)

/-- Row by row, column by column. -/
def denseOf (dimension : Nat) (entry : Nat → Nat → Mk ℚ) : Mk (List ℚ) :=
  ((List.range dimension).flatMap fun row => (List.range dimension).map fun column =>
    (row, column)).mapM
    fun cell => entry cell.1 cell.2

def denseIExact : Mk (List ℚ) :=
  denseOf r.dimension fun row column => r.iEntry (r.indices.getD row []) (r.indices.getD column [])

def denseJTotalExact : Mk (List ℚ) :=
  denseOf r.dimension fun row column =>
    r.jTotalEntry (r.indices.getD row []) (r.indices.getD column [])

def checkCoefficients (coefficients : List ℚ) : Mk Unit :=
  if coefficients.length = r.dimension then .ok ()
  else .error (.refused (.dimensionMismatch r.dimension coefficients.length))

/-- One term of a quadratic form; entries with a zero factor are not computed. -/
def addTerm (coefficients : List ℚ) (entry : MultiIndex → MultiIndex → Mk ℚ) (total : ℚ)
    (cell : Nat × Nat) : Mk ℚ :=
  if coefficients.getD cell.1 0 = 0 ∨ coefficients.getD cell.2 0 = 0 then .ok total
  else do
    let value ← entry (r.indices.getD cell.1 []) (r.indices.getD cell.2 [])
    return total + coefficients.getD cell.1 0 * coefficients.getD cell.2 0 * value

def quadraticForm (coefficients : List ℚ) (entry : MultiIndex → MultiIndex → Mk ℚ) : Mk ℚ :=
  ((List.range r.dimension).flatMap fun row => (List.range r.dimension).map fun column =>
    (row, column)).foldlM
    (r.addTerm coefficients entry) 0

def quadraticI (coefficients : List ℚ) : Mk ℚ := do
  r.checkCoefficients coefficients
  r.quadraticForm coefficients r.iEntry

def quadraticJTotal (coefficients : List ℚ) : Mk ℚ := do
  r.checkCoefficients coefficients
  r.quadraticForm coefficients r.jTotalEntry

end MkMonomialReference

def orbitOf (k : Nat) (partition : IntegerPartition) : Mk SymmetricMonomialOrbit := do
  let members ← partitionOrbit partition k
  return { partition, members }

def MkSymmetricReference.new (k degree : Nat) : Mk MkSymmetricReference := do
  let monomial ← MkMonomialReference.new k degree
  let partitions ← enumerateIntegerPartitions k degree
  let orbits ← partitions.mapM (orbitOf k)
  return { monomial, orbits, monomialPositions := monomial.indices.zipIdx }

namespace MkSymmetricReference
variable (s : MkSymmetricReference)

def dimension : Nat := s.orbits.length

def members (row : Nat) : List MultiIndex :=
  ((s.orbits[row]?).map SymmetricMonomialOrbit.members).getD []

def checkEntryIndices (row column : Nat) : Mk Unit :=
  check (decide (row < s.dimension) && decide (column < s.dimension))
    ("symmetric basis entry (" ++ toString row ++ ", " ++ toString column ++
      ") is outside dimension " ++ toString s.dimension)

/-- The sum of an entry over two orbits. -/
def orbitSum (entry : MultiIndex → MultiIndex → Mk ℚ) (left right : List MultiIndex) : Mk ℚ :=
  (left.flatMap fun a => right.map fun b => (a, b)).foldlM
    (fun total cell => do return total + (← entry cell.1 cell.2)) 0

def iEntry (row column : Nat) : Mk ℚ := do
  s.checkEntryIndices row column
  orbitSum s.monomial.iEntry (s.members row) (s.members column)

def jTotalEntry (row column : Nat) : Mk ℚ := do
  s.checkEntryIndices row column
  orbitSum s.monomial.jTotalEntry (s.members row) (s.members column)

def denseIExact : Mk (List ℚ) := MkMonomialReference.denseOf s.dimension s.iEntry

def denseJTotalExact : Mk (List ℚ) := MkMonomialReference.denseOf s.dimension s.jTotalEntry

/-- The position a map built from the pairs holds: the last one for its key. -/
def positionOf (member : MultiIndex) : Option Nat :=
  (s.monomialPositions.reverse.find? fun entry => entry.1 = member).map Prod.snd

def addMember (expanded : List ℚ) (cell : ℚ × MultiIndex) : Mk (List ℚ) := do
  let position ← okOr (s.positionOf cell.2)
    ("orbit member " ++ toString cell.2 ++ " is absent from the monomial embedding")
  return expanded.set position (expanded.getD position 0 + cell.1)

def checkCoefficients (coefficients : List ℚ) : Mk Unit :=
  if coefficients.length = s.dimension then .ok ()
  else .error (.refused (.dimensionMismatch s.dimension coefficients.length))

def expandCoefficientsExact (coefficients : List ℚ) : Mk (List ℚ) := do
  s.checkCoefficients coefficients
  ((coefficients.zip s.orbits).flatMap fun pair => pair.2.members.map fun member =>
    (pair.1, member)).foldlM
    s.addMember (List.replicate s.monomial.dimension 0)

end MkSymmetricReference

end Xcelerator.Variational.Maynard
