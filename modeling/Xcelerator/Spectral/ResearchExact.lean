import Mathlib
import Xcelerator.Foundations.Workspace
import Xcelerator.Spectral.ExactCutoff

/-! # The exact Schur diagnostic

The bounded rational algebra of the research diagnostics: a bordered block less a shift
is eliminated with row pivoting, solved backwards, and checked by substitution into the
original system. A slice of a square is addressed by row and column. -/

namespace Xcelerator.Spectral.ResearchExact
open Xcelerator.Foundations.Workspace
open Xcelerator.Spectral.ExactCutoff (significantBits)

abbrev Result := Except String

def refuse (condition : Prop) [Decidable condition] (message : String) : Result Unit :=
  if condition then .error message else .ok ()

/-! ## The budget -/

def rationalBits (values : List ℚ) : Nat :=
  (values.map fun x => significantBits x.num.natAbs + significantBits x.den).sum

def budgetMessage : String := "exact research algebra exceeds its 64 Mbit rational budget"

def budget (values : List ℚ) : Result Unit := refuse (rationalBits values > 67108864) budgetMessage

/-- A row-major square, row by row. -/
def cellValues (n : Nat) (a : Cells ℚ) : List ℚ :=
  (List.range n).flatMap fun i => (List.range n).map (a i)

def values (n : Nat) (v : Nat → ℚ) : List ℚ := (List.range n).map v

/-! ## Elimination -/

structure Elimination where
  a : Cells ℚ
  rhs : Nat → ℚ

def singularMessage : String := "singular exact Schur prefix"

/-- `rhs.swap(first, second)`. -/
def exchange (rhs : Nat → ℚ) (first second : Nat) : Nat → ℚ :=
  fun i => if i = first then rhs second else if i = second then rhs first else rhs i

def exchangeRows (n k row : Nat) (s : Elimination) : Elimination :=
  if row = k then s else ⟨swapRows n k row s.a, exchange s.rhs k row⟩

/-- The inner loop over the columns behind the pivot's. -/
def subtractRow (n k i : Nat) (factor : ℚ) (a : Cells ℚ) : Cells ℚ :=
  (List.range' (k + 1) (n - (k + 1))).foldl (fun a j => a.set i j (a i j - factor * a k j)) a

def eliminateRow (n k : Nat) (s : Elimination) (i : Nat) : Result Elimination := do
  let factor := s.a i k / s.a k k
  let a := (subtractRow n k i factor s.a).set i k 0
  let rhs := Function.update s.rhs i (s.rhs i - factor * s.rhs k)
  budget ((List.range n).map (a i) ++ [rhs i])
  return ⟨a, rhs⟩

/-- The first row from `k` on with an entry in column `k`. -/
def pivotRow (n k : Nat) (a : Cells ℚ) : Result Nat :=
  match (List.range' k (n - k)).find? fun i => a i k ≠ 0 with
  | some row => .ok row
  | none => .error singularMessage

def pivot (n : Nat) (s : Elimination) (k : Nat) : Result Elimination := do
  let row ← pivotRow n k s.a
  let s ← (List.range' (k + 1) (n - (k + 1))).foldlM (eliminateRow n k) (exchangeRows n k row s)
  budget (cellValues n s.a ++ values n s.rhs)
  return s

/-! ## Back substitution and the check -/

def subtractTerm (a : Cells ℚ) (solution : Nat → ℚ) (i : Nat) (value : ℚ) (j : Nat) : Result ℚ := do
  let value := value - a i j * solution j
  budget [value]
  return value

def solveRow (n : Nat) (s : Elimination) (solution : Nat → ℚ) (i : Nat) : Result (Nat → ℚ) := do
  let value ← (List.range' (i + 1) (n - (i + 1))).foldlM (subtractTerm s.a solution i) (s.rhs i)
  let solution := Function.update solution i (value / s.a i i)
  budget (values n solution)
  return solution

def addTerm (block : Cells ℚ) (solution : Nat → ℚ) (i : Nat) (value : ℚ) (j : Nat) : Result ℚ := do
  let value := value + block i j * solution j
  budget [value]
  return value

def substitutionMessage : String := "exact Schur solution failed original-system substitution"

def checkRow (n : Nat) (block : Cells ℚ) (border solution : Nat → ℚ) (i : Nat) : Result Unit := do
  let value ← (List.range n).foldlM (addTerm block solution i) 0
  refuse (value ≠ border i) substitutionMessage

/-! ## The diagnostic -/

structure Schur where
  defect : ℚ
  borderSquared : ℚ
  value : ℚ
deriving DecidableEq

def entry (matrix : List ℚ) (dimension i j : Nat) : ℚ := matrix.getD (i * dimension + j) 0

/-- The largest entrywise difference of the prefixes. -/
def defectOf (small large : List ℚ) (n : Nat) : ℚ :=
  (List.range n).foldl (fun defect i => (List.range n).foldl
    (fun defect j => max defect |entry large (n + 1) i j - entry small n i j|) defect) 0

def blockOf (large : List ℚ) (n : Nat) (shift : ℚ) : Cells ℚ :=
  fun i j => entry large (n + 1) i j - if i = j then shift else 0

def borderOf (large : List ℚ) (n : Nat) : Nat → ℚ := fun i => entry large (n + 1) i n

/-- The value less one term, and the squared border with one more. -/
def closeTerm (border solution : Nat → ℚ) (total : ℚ × ℚ) (i : Nat) : Result (ℚ × ℚ) := do
  let value := total.1 - border i * solution i
  let borderSquared := total.2 + border i * border i
  budget [value, borderSquared]
  return (value, borderSquared)

def shapeMessage : String :=
  "exact Schur diagnostics require square inputs and 1..256 prefix dimension"

def schur (small large : List ℚ) (n : Nat) (shift : ℚ) : Result Schur := do
  refuse (n = 0 ∨ n > 256 ∨ n * n ≠ small.length ∨ (n + 1) * (n + 1) ≠ large.length) shapeMessage
  budget (small ++ large ++ [shift])
  let defect := defectOf small large n
  let block := blockOf large n shift
  let border := borderOf large n
  budget (cellValues n block ++ values n border)
  let s ← (List.range n).foldlM (pivot n) ⟨block, border⟩
  let solution ← (List.range n).reverse.foldlM (solveRow n s) fun _ => 0
  (List.range n).forM (checkRow n block border solution)
  let total ← (List.range n).foldlM (closeTerm border solution) (entry large (n + 1) n n - shift, 0)
  return { defect, borderSquared := total.2, value := total.1 }

end Xcelerator.Spectral.ResearchExact
