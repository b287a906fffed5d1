import Mathlib
import Xcelerator.Foundations.Machine

/-! # Exact monomial forms on the simplex

The reference engine for the finite Maynard-Tao forms: multi-indices of bounded
total degree, a factorial table, and the entries of the forms `I` and `J` in
exact rationals. Exponents are `u32` and bounded by the degree; indices and sums
are `usize`. A panic of the source is a failure of its own, and allocations
succeed. -/

namespace Xcelerator.Variational.Maynard
open Xcelerator.Foundations.Machine

inductive MkError where
  | invalidProblem (message : String)
  | dimensionMismatch (expected actual : Nat)
  | nonPositiveDenominator
deriving DecidableEq, Repr

inductive Failure where
  | refused (error : MkError)
  | panic (fault : Fault)
deriving DecidableEq, Repr

abbrev Mk := Except Failure

def invalid {α : Type} (message : String) : Mk α := .error (.refused (.invalidProblem message))

def check (condition : Bool) (message : String) : Mk Unit :=
  if condition then .ok () else invalid message

def panicking {α : Type} (x : Checked α) : Mk α := x.mapError .panic

/-- The outcome of a `checked_*` operation of width `w`. -/
def checked (w n : Nat) : Option Nat := if n < 2 ^ w then some n else none

def okOr {α : Type} (x : Option α) (message : String) : Mk α :=
  match x with
  | some a => .ok a
  | none => invalid message

abbrev MultiIndex := List Nat

def totalDegree (index : MultiIndex) : Mk Nat := panicking (sum 64 index)

/-! ## Enumeration -/

/-- The admission loop over the binomial coefficient. -/
def budgetLoop (total order limit : Nat) : List Nat → Nat → Mk Nat
  | [], count => .ok count
  | j :: rest, count => do
    let scaled ← okOr (checked 128 (count * (total - order + j)))
      "multi-index cardinality exceeds reference budget"
    let count := scaled / j
    check (decide (count ≤ limit))
      "multi-index/orbit reference storage exceeds 256 MiB; use a compact large-k basis"
    budgetLoop total order limit rest count

def referenceIndexBudget (k degree : Nat) : Mk Nat := do
  let total ← okOr (checked 64 (k + degree)) "multi-index cardinality overflow"
  let order := min k degree
  let limit := 256 * 2 ^ 20 / (8 * k + 192)
  let count ← budgetLoop total order limit (List.range' 1 order) 1
  check (decide (count ≤ limit)) "reference index storage exceeds 256 MiB"
  okOr (checked 64 count) "index count exceeds platform size"

/-- The positions below the given one, last first: raise the first that may be
raised, clearing those behind it. -/
def advance (degree : Nat) : Nat → MultiIndex → Nat → Option (MultiIndex × Nat)
  | 0, _, _ => none
  | position + 1, current, total =>
    if total < degree then some (current.set position (current.getD position 0 + 1), total + 1)
    else advance degree position (current.set position 0) (total - current.getD position 0)

def enumerateLoop (degree k : Nat) : Nat → MultiIndex → Nat → List MultiIndex
  | 0, _, _ => []
  | fuel + 1, current, total =>
    current ::
      match advance degree k current total with
      | some (next, total) => enumerateLoop degree k fuel next total
      | none => []

/-- By total degree, then lexicographically. -/
def gradedLe (a b : List Nat) : Prop := a.sum < b.sum ∨ a.sum = b.sum ∧ a ≤ b

instance (a b : List Nat) : Decidable (gradedLe a b) := by unfold gradedLe; infer_instance

/-- `sort_by` and `dedup`. -/
def sortDedup (lists : List (List Nat)) : List (List Nat) :=
  (lists.insertionSort gradedLe).destutter (· ≠ ·)

def enumerateMultiIndices (k degree : Nat) : Mk (List MultiIndex) := do
  check (decide (degree < 2 ^ 32)) "degree exceeds the u32 exponent schema"
  check (k != 0) "k must be positive"
  let _ ← referenceIndexBudget k degree
  -- The loop visits every index once, and there are fewer than this.
  return sortDedup (enumerateLoop degree k ((degree + 1) ^ k) (List.replicate k 0) 0)

/-! ## The reference engine -/

structure MkMonomialReference where
  k : Nat
  degree : Nat
  indices : List MultiIndex
  factorials : List Nat
deriving DecidableEq, Repr

/-- `current *= n` and push, for `n` in `1..=maximum`. -/
def factorialTable (maximum : Nat) : List Nat :=
  ((List.range' 1 maximum).foldl (fun (current, table) n => (current * n, table ++ [current * n]))
  (1, [1])).2

/-- The largest factorial index the entries use. -/
def factorialMaximum (k degree : Nat) : Mk Nat := do
  let twiceDegree ← okOr (checked 64 (degree * 2)) "degree arithmetic overflow"
  let denominatorMaximum := (checked 64 (k + 1)).bind fun v => checked 64 (v + twiceDegree)
  let numeratorMaximum := checked 64 (twiceDegree + 2)
  okOr ((Option.map₂ max denominatorMaximum numeratorMaximum).filter fun v =>
    (checked 64 (v + 1)).isSome)
    "factorial index overflow"

def MkMonomialReference.new (k degree : Nat) : Mk MkMonomialReference := do
  let maximum ← factorialMaximum k degree
  let logarithm := (max maximum 1).size
  let factorialBytes ← panicking (unsigned 128 ((maximum + 1) * (maximum * logarithm / 8 + 64)))
  check (decide (factorialBytes ≤ 256 * 2 ^ 20)) "factorial reference table exceeds 256 MiB"
  let indices ← enumerateMultiIndices k degree
  return { k, degree, indices, factorials := factorialTable maximum }

namespace MkMonomialReference
variable (r : MkMonomialReference)

def dimension : Nat := r.indices.length

def factorial (n : Nat) : Mk Nat := panicking (read r.factorials n)

/-- `try_fold` of `checked_sub` from the degree. -/
def withinDegree (index : MultiIndex) : Bool :=
  (index.foldlM (fun remaining power => if power ≤ remaining then
    some (remaining - power) else none)
    r.degree).isSome

def checkIndices (a b : MultiIndex) : Mk Unit := do
  check (a.length == r.k && b.length == r.k) "multi-index dimension does not match k"
  check (r.withinDegree a) "multi-index exceeds the declared finite degree"
  check (r.withinDegree b) "multi-index exceeds the declared finite degree"

/-- The factorial of the joint exponent of one variable. -/
def exponentFactorial (a b : MultiIndex) (i : Nat) : Mk Nat := do
  let power ← panicking (read a i)
  let other ← panicking (read b i)
  r.factorial (← panicking (unsigned 64 (power + other)))

/-- Multiply the factorials of some variables into a numerator. -/
def multiplyFactorials (a b : MultiIndex) (axes : List Nat) (numerator : Nat) : Mk Nat :=
  axes.foldlM (fun acc i => do return acc * (← r.exponentFactorial a b i)) numerator

/-- The factorial of `base` plus both total degrees. -/
def totalFactorial (base : Nat) (a b : MultiIndex) : Mk Nat := do
  let first ← panicking (unsigned 64 (base + (← totalDegree a)))
  r.factorial (← panicking (unsigned 64 (first + (← totalDegree b))))

def iEntry (a b : MultiIndex) : Mk ℚ := do
  r.checkIndices a b
  let numerator ← r.multiplyFactorials a b (List.range r.k) 1
  let denominator ← r.totalFactorial r.k a b
  return numerator / denominator

def jEntry (distinguishedAxis : Nat) (a b : MultiIndex) : Mk ℚ := do
  r.checkIndices a b
  check (decide (distinguishedAxis < r.k))
    ("distinguished axis " ++ toString distinguishedAxis ++ " is outside 0.." ++ toString r.k)
  let am ← panicking (read a distinguishedAxis)
  let bm ← panicking (read b distinguishedAxis)
  let numerator ← r.factorial (← panicking (unsigned 64 (am + bm + 2)))
  let numerator ← r.multiplyFactorials a b
    ((List.range r.k).filter (· != distinguishedAxis)) numerator
  let first ← panicking (unsigned 64 (am + 1))
  let second ← panicking (unsigned 64 (bm + 1))
  let last ← r.totalFactorial (r.k + 1) a b
  return numerator / (first * second * last)

def jTotalEntry (a b : MultiIndex) : Mk ℚ :=
  (List.range r.k).foldlM (fun total m => do return total + (← r.jEntry m a b)) 0

end MkMonomialReference

end Xcelerator.Variational.Maynard
