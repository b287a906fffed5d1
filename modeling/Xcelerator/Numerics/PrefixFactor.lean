import Mathlib
import Xcelerator.Numerics.PairwiseReductionSoundness

/-! # Prefix factorization

Two schedules of one unpivoted factorization: row by row, and column by column
with the entries of later rows formed before their pivots are tested. The scalar
operations are arbitrary functions with a test for nonfinite values. -/

namespace Xcelerator.Numerics.PrefixFactor
open Xcelerator.Foundations.Machine Xcelerator.Foundations.PairwiseTree
  Xcelerator.Numerics.PairwiseReduction

/-! ## Scalars -/

structure Scalars (F : Nat → Type) extends Arithmetic F where
  one : (p : Nat) → F p
  sub : {p : Nat} → F p → F p → F p
  mul : {p : Nat} → F p → F p → F p
  div : {p : Nat} → F p → F p → F p
  square : {p : Nat} → F p → F p
  /-- `2` to the negated exponent. -/
  inversePower : (p : Nat) → Nat → F p
  isFinite : {p : Nat} → F p → Bool
  atMostZero : {p : Nat} → F p → Bool
  atMost : {p : Nat} → F p → F p → Bool
  losslessDecimal : {p : Nat} → F p → String

inductive Failure where
  | nonfinite (row column : Nat)
  | fault (fault : Fault)
deriving DecidableEq

def lift {α : Type} : Checked α → Except Failure α
  | .ok x => .ok x
  | .error fault => .error (.fault fault)

structure PrefixStop where
  attemptedDimension : Nat
  reason : String
  pivot : String
  scale : String
deriving DecidableEq

structure Factorization (F : Nat → Type) (p : Nat) where
  lower : List (List (F p))
  diagonal : List (F p)
  scales : List (F p)
  stopped : Option PrefixStop

/-- Row-major entries of a square matrix, of any precisions. -/
structure Matrix (F : Nat → Type) (d : Nat) where
  entries : List (Float F)
  size : entries.length = d * d

section
variable {F : Nat → Type} (S : Scalars F) {d p : Nat}

/-- The entry at the working precision. Every index a schedule forms is in range. -/
def Matrix.cell (matrix : Matrix F d) (p row column : Nat) : F p :=
  match matrix.entries[row * d + column]? with
  | some entry => S.withVal p entry.value
  | none => S.zero p

def slot (values : List (F p)) (i : Nat) : F p := values.getD i (S.zero p)

def sum (values : List (F p)) : Except Failure (F p) :=
  lift (deterministicPairwiseSumHpOwned S.toArithmetic (values.map fun value => ⟨p, value⟩) p)

/-! ## Pivots -/

inductive Pivot (F : Nat → Type) (p : Nat) where
  | stop (stop : PrefixStop)
  | accept (pivot scale : F p)

/-- Both schedules test the pivot of a finished row in these steps. -/
def inspectPivot (matrix : Matrix F d) (margin : Nat) (row diagonal : List (F p)) (j : Nat) :
    Except Failure (Pivot F p) := do
  let corrections := (List.range j).map fun i => S.mul (S.square (slot S row i)) (slot S diagonal i)
  let magnitudes ← sum S (corrections.map S.abs)
  let scale := S.add (S.abs (matrix.cell S p j j)) magnitudes
  let correction ← sum S corrections
  let pivot := S.sub (matrix.cell S p j j) correction
  let exponent ← lift (subtract p margin)
  let floor := S.mul scale (S.inversePower p exponent)
  let reason :=
    if !S.isFinite pivot || !S.isFinite scale then some "nonfinite_computed_pivot"
    else if S.atMostZero pivot then some "nonpositive_computed_pivot_not_a_definiteness_proof"
    else if S.atMost pivot floor then some "insufficient_computed_pivot_margin"
    else none
  match reason with
  | some reason => return .stop ⟨j + 1, reason, S.losslessDecimal pivot, S.losslessDecimal scale⟩
  | none => return .accept pivot scale

/-- One term of an inner sum. -/
def leaf (row diagonal pivotRow : List (F p)) (i : Nat) (_ : F p) : F p :=
  S.mul (S.mul (S.withVal p (slot S row i)) (slot S diagonal i)) (slot S pivotRow i)

/-! ## By rows -/

def rowEntry (matrix : Matrix F d) (threads j : Nat) (lower : List (List (F p)))
    (diagonal : List (F p))
    (state : List (F p) × PairwiseScratch F p) (k : Nat) :
    Except Failure (List (F p) × PairwiseScratch F p) := do
  let (correction, scratch) ← lift
    (state.2.sumByIndexed S.toArithmetic threads k (leaf S state.1 diagonal (lower.getD k [])))
  let value := S.div (S.sub (matrix.cell S p j k) correction) (slot S diagonal k)
  if S.isFinite value then return (state.1.set k value, scratch) else .error (.nonfinite j k)

def rowLoop (matrix : Matrix F d) (threads margin : Nat) :
    Nat → Nat → List (List (F p)) → List (F p) → List (F p) → PairwiseScratch F p →
    Except Failure (Factorization F p)
  | 0, _, lower, diagonal, scales, _ => .ok ⟨lower, diagonal, scales, none⟩
  | remaining + 1, j, lower, diagonal, scales, scratch => do
    let (row, scratch) ← (List.range j).foldlM (rowEntry S matrix threads j lower diagonal)
      (List.replicate (j + 1) (S.zero p), scratch)
    match ← inspectPivot S matrix margin row diagonal j with
    | .stop stop => return ⟨lower ++ [row], diagonal, scales, some stop⟩
    | .accept pivot scale =>
      rowLoop matrix threads margin remaining (j + 1) (lower ++ [row.set j (S.one p)])
        (diagonal ++ [pivot])
        (scales ++ [scale]) scratch

def rowMajor (matrix : Matrix F d) (p threads margin : Nat) : Except Failure (Factorization F p) :=
  rowLoop S matrix threads margin d 0 [] [] [] (.new F p)

/-! ## By columns -/

def rowBlock : Nat := 16

def columnEntry (matrix : Matrix F d) (threads k : Nat) (diagonal pivotRow : List (F p))
    (parallelInner : Bool) (j : Nat) (row : List (F p)) (scratch : PairwiseScratch F p) :
    Except Failure (List (F p) × PairwiseScratch F p) := do
  let (correction, scratch) ← lift <|
    if parallelInner then scratch.sumByIndexed S.toArithmetic threads k
      (leaf S row diagonal pivotRow)
    else scratch.sumBy S.toArithmetic k (leaf S row diagonal pivotRow)
  return (row ++ [S.div (S.sub (matrix.cell S p j k) correction) (slot S diagonal k)], scratch)

/-- The entries of one column in consecutive rows, through one scratch. -/
def columnRows (matrix : Matrix F d) (threads k : Nat) (diagonal pivotRow : List (F p))
    (parallelInner : Bool) :
    Nat → List (List (F p)) → PairwiseScratch F p →
    Except Failure (List (List (F p)) × PairwiseScratch F p)
  | _, [], scratch => .ok ([], scratch)
  | j, row :: rows, scratch => do
    let (row, scratch) ← columnEntry S matrix threads k diagonal pivotRow parallelInner j
      row scratch
    let (rows, scratch) ← columnRows matrix threads k diagonal pivotRow parallelInner
      (j + 1) rows scratch
    return (row :: rows, scratch)

structure ColumnState (F : Nat → Type) (p : Nat) where
  lower : List (List (F p))
  diagonal : List (F p)
  scales : List (F p)
  workers : List (PairwiseScratch F p)
  scratch : PairwiseScratch F p

/-- The column of the pending rows, in blocks where there are workers and rows enough. -/
def columnPending (matrix : Matrix F d) (threads k : Nat) (diagonal pivotRow : List (F p))
    (pending : List (List (F p))) (workers : List (PairwiseScratch F p))
    (scratch : PairwiseScratch F p) :
    Except Failure (List (List (F p)) × List (PairwiseScratch F p) × PairwiseScratch F p) :=
  if threads > 1 ∧ k ≥ 16 ∧ pending.length ≥ 2 * rowBlock then do
    let blocks := chunks rowBlock pending
    let results ← ((blocks.zip workers).zipIdx).mapM fun block =>
      columnRows S matrix threads k diagonal pivotRow false
        (k + 1 + block.2 * rowBlock) block.1.1 block.1.2
    return ((results.map Prod.fst).flatten ++ (blocks.drop workers.length).flatten,
      results.map Prod.snd ++ workers.drop blocks.length, scratch)
  else do
    let (rows, scratch) ← columnRows S matrix threads k diagonal pivotRow true
      (k + 1) pending scratch
    return (rows, workers, scratch)

def columnLoop (matrix : Matrix F d) (threads margin : Nat) :
    Nat → Nat → ColumnState F p → Except Failure (Factorization F p)
  | 0, _, state => .ok ⟨state.lower.take state.diagonal.length, state.diagonal, state.scales, none⟩
  | remaining + 1, k, state => do
    let row := state.lower.getD k []
    match row.findIdx? fun value => !S.isFinite value with
    | some i => .error (.nonfinite k i)
    | none =>
      match ← inspectPivot S matrix margin row state.diagonal k with
      | .stop stop =>
        return ⟨state.lower.take state.diagonal.length, state.diagonal, state.scales, some stop⟩
      | .accept pivot scale =>
        let diagonal := state.diagonal ++ [pivot]
        let pivotRow := row ++ [S.one p]
        let (pending, workers, scratch) ← columnPending S matrix threads k diagonal pivotRow
          (state.lower.drop (k + 1)) state.workers state.scratch
        columnLoop matrix threads margin remaining (k + 1)
          ⟨state.lower.take k ++ pivotRow :: pending, diagonal, state.scales ++ [scale],
            workers, scratch⟩

def columnMajor (matrix : Matrix F d) (p threads margin : Nat) :
    Except Failure (Factorization F p) :=
  columnLoop S matrix threads margin d 0
    ⟨List.replicate d [], [], [], List.replicate ((d + rowBlock - 1) / rowBlock) (.new F p),
      .new F p⟩

end

end Xcelerator.Numerics.PrefixFactor
