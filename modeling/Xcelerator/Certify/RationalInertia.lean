import Mathlib
import Xcelerator.Foundations.Workspace
import Xcelerator.Certify.Records

/-! # Exact-rational interval inertia

The interval `LDL^T` elimination of `xc-certify` over exact rational endpoints.
The flat row-major workspace is addressed by row and column; both triangles are
written. The caller's slice has a length that fits a `usize`. -/

namespace Xcelerator.Certify.RationalInertia
open Xcelerator.Foundations.Machine (bind_eq_ok)
open Xcelerator.Foundations.Workspace
open Xcelerator.Numerics.Interval (RationalInterval)
open Xcelerator.Certify.Records

inductive IntervalInertiaResult where
  | conclusive (positive negative : Nat) (pivotEnclosures : List RationalInterval)
  | inconclusive (pivotIndex positive negative zeroOrUnresolved : Nat)
      (pivotEnclosures : List RationalInterval) (reason : String)
deriving DecidableEq, Repr

/-- How a run can stop without a result. -/
inductive Stop where
  | error (error : CertificateError)
  | panic (message : String)
deriving DecidableEq, Repr

abbrev Run := Except Stop

def lift {α : Type} (x : Result α) : Run α := x.mapError .error

/-- An interval operation whose failure is reported as a failed verification. -/
def verified {α : Type} (context : String) (x : Xcelerator.Numerics.Interval.Result α) : Result α :=
  x.mapError fun error => .verificationFailed (context ++ error.display)

/-! ## Pivot blocks -/

structure CertifiedTwoByTwoPivot where
  lowerEigenvalue : RationalInterval
  upperEigenvalue : RationalInterval
  inverse11 : RationalInterval
  inverse12 : RationalInterval
  inverse22 : RationalInterval
deriving DecidableEq, Repr

def hasStrictSign (v : RationalInterval) : Bool := v.isStrictlyPositive || v.isStrictlyNegative

/-- The eigenvalue enclosures from the square root of the discriminant. -/
def rootEnclosures (a b c : RationalInterval) : Result (RationalInterval × RationalInterval) := do
  let two := RationalInterval.point 2
  let discriminant := (a.sub c).square.add (b.square.mul (RationalInterval.point 4))
  let root ← verified "interval 2x2 pivot square-root enclosure failed: "
    (discriminant.sqrtNonnegative 256)
  let trace := a.add c
  let lower ← verified "interval 2x2 lower eigenvalue enclosure failed: " ((trace.sub root).div two)
  let upper ← verified "interval 2x2 upper eigenvalue enclosure failed: " ((trace.add root).div two)
  return (lower, upper)

/-- The scale-independent enclosures: every eigenvalue is bounded by the row-sum
norm, and the determinant then keeps the other one away from zero. -/
def normEnclosures (a b c determinant : RationalInterval) :
    Result (Option (RationalInterval × RationalInterval)) :=
  let trace := a.add c
  let bound := max (a.magnitude + b.magnitude) (c.magnitude + b.magnitude)
  if bound = 0 then .ok none
  else do
    let separation := if determinant.isStrictlyNegative then -determinant.upper / bound
      else determinant.lower / bound
    let positive ← verified "" (RationalInterval.new separation bound)
    let negative ← verified "" (RationalInterval.new (-bound) (-separation))
    if determinant.isStrictlyNegative then return some (negative, positive)
    else if trace.isStrictlyPositive then return some (positive, positive)
    else if trace.isStrictlyNegative then return some (negative, negative)
    else return none

/-- Signed enclosures of the two eigenvalues, if any are certified. -/
def signedEnclosures (a b c determinant : RationalInterval) (scaleInvariant : Bool) :
    Result (Option (RationalInterval × RationalInterval)) := do
  let (lower, upper) ← rootEnclosures a b c
  if !hasStrictSign lower || !hasStrictSign upper then
    if !scaleInvariant then return none
    else normEnclosures a b c determinant
  else return some (lower, upper)

def certifyTwoByTwoPivot (matrix : Cells RationalInterval) (first second : Nat)
    (scaleInvariant : Bool) : Result (Option CertifiedTwoByTwoPivot) :=
  let a := matrix first first
  let b := matrix first second
  let c := matrix second second
  let determinant := (a.mul c).sub b.square
  if determinant.containsZero then .ok none
  else do
    match ← signedEnclosures a b c determinant scaleInvariant with
    | none => return none
    | some (lowerEigenvalue, upperEigenvalue) =>
      let inverse11 ← verified "interval 2x2 inverse (1,1) failed: " (c.div determinant)
      let inverse12 ← verified "interval 2x2 inverse (1,2) failed: " (b.neg.div determinant)
      let inverse22 ← verified "interval 2x2 inverse (2,2) failed: " (a.div determinant)
      return some { lowerEigenvalue, upperEigenvalue, inverse11, inverse12, inverse22 }

def symmetricSwap (matrix : Cells RationalInterval) (dimension left right : Nat) :
    Cells RationalInterval :=
  if left = right then matrix
  else swapColumns dimension left right (swapRows dimension left right matrix)

/-! ## Admission -/

def significantBits (n : Nat) : Nat := if n = 0 then 0 else n.log2 + 1

/-- The endpoints are admitted one by one and in total. -/
def admitted (total : Nat) : List ℚ → Bool
  | [] => true
  | x :: rest =>
    let bits := significantBits x.num.natAbs + significantBits x.den
    if bits > 262144 then false
    else if total + bits > 67108864 then false
    else admitted (total + bits) rest

def exactIntervalWorkspaceAdmitted (matrix : List RationalInterval) : Bool :=
  admitted 0 (matrix.flatMap fun entry => [entry.lower, entry.upper])

/-- The workspace as its flat slice. -/
def flat (a : Cells RationalInterval) (dimension : Nat) : List RationalInterval :=
  (List.range dimension).flatMap fun row => (List.range dimension).map fun column => a row column

/-! ## Elimination -/

structure State where
  schur : Cells RationalInterval
  pivots : List RationalInterval
  positive : Nat
  negative : Nat
  pivotIndex : Nat

/-- Record a pivot enclosure with its sign. -/
def State.count (s : State) (pivot : RationalInterval) (message : String) : Run State :=
  let pivots := s.pivots ++ [pivot]
  if pivot.isStrictlyPositive then .ok { s with pivots, positive := s.positive + 1 }
  else if pivot.isStrictlyNegative then .ok { s with pivots, negative := s.negative + 1 }
  else .error (.panic message)

def updateOne (pivotIndex : Nat) (pivot : RationalInterval) (schur : Cells RationalInterval)
    (row column : Nat) : Result RationalInterval := do
  let numerator := (schur row pivotIndex).mul (schur column pivotIndex)
  let correction ← verified "interval pivoted LDLT division failed: " (numerator.div pivot)
  return (schur row column).sub correction

def updateTwo (pivotIndex : Nat) (block : CertifiedTwoByTwoPivot) (schur : Cells RationalInterval)
    (row column : Nat) : Result RationalInterval :=
  let rowFirst := schur row pivotIndex
  let rowSecond := schur row (pivotIndex + 1)
  let columnFirst := schur column pivotIndex
  let columnSecond := schur column (pivotIndex + 1)
  let correction := (rowFirst.mul block.inverse11).mul columnFirst
    |>.add ((rowFirst.mul block.inverse12).mul columnSecond)
    |>.add ((rowSecond.mul block.inverse12).mul columnFirst)
    |>.add ((rowSecond.mul block.inverse22).mul columnSecond)
  .ok ((schur row column).sub correction)

def selectDiagonal (s : State) (dimension : Nat) : Option Nat :=
  (List.range' s.pivotIndex (dimension - s.pivotIndex)).find? fun j => hasStrictSign (s.schur j j)

def pairs (pivotIndex dimension : Nat) : List (Nat × Nat) :=
  (List.range' pivotIndex (dimension - pivotIndex)).flatMap fun first =>
    (List.range' (first + 1) (dimension - (first + 1))).map fun second => (first, second)

/-- The first pair, in search order, with a certified block. -/
def searchBlock (schur : Cells RationalInterval) (scaleInvariant : Bool) :
    List (Nat × Nat) → Result (Option (Nat × Nat))
  | [] => .ok none
  | (first, second) :: rest => do
    match ← certifyTwoByTwoPivot schur first second scaleInvariant with
    | some _ => return some (first, second)
    | none => searchBlock schur scaleInvariant rest

/-- One turn of the loop with a diagonal pivot. -/
def pivotOne (dimension : Nat) (s : State) (selected : Nat) : Run State := do
  let schur := symmetricSwap s.schur dimension s.pivotIndex selected
  let pivot := schur s.pivotIndex s.pivotIndex
  let counted ← { s with schur }.count pivot "the selected interval pivot has a strict sign"
  let schur ← lift ((upperCells (s.pivotIndex + 1) dimension).foldlM
    (mirrored (updateOne s.pivotIndex pivot)) schur)
  return { counted with schur, pivotIndex := s.pivotIndex + 1 }

/-- One turn of the loop with a two by two block. -/
def pivotTwo (dimension : Nat) (scaleInvariant : Bool) (s : State) (first second : Nat) :
    Run State := do
  let schur := symmetricSwap s.schur dimension s.pivotIndex first
  let adjustedSecond := if second = s.pivotIndex then first else second
  let schur := symmetricSwap schur dimension (s.pivotIndex + 1) adjustedSecond
  match ← lift (certifyTwoByTwoPivot schur s.pivotIndex (s.pivotIndex + 1) scaleInvariant) with
  | none => .error (.panic "selected 2x2 interval pivot remains valid after symmetric permutation")
  | some block =>
    let counted ← { s with schur }.count block.lowerEigenvalue
      "certified block eigenvalue has a strict sign"
    let counted ← counted.count block.upperEigenvalue "certified block eigenvalue has a strict sign"
    let schur ← lift ((upperCells (s.pivotIndex + 2) dimension).foldlM
      (mirrored (updateTwo s.pivotIndex block)) schur)
    return { counted with schur, pivotIndex := s.pivotIndex + 2 }

/-- Stop with what has been counted. -/
def State.stop (s : State) (dimension : Nat) (reason : String) : IntervalInertiaResult :=
  .inconclusive s.pivotIndex s.positive s.negative (dimension - s.pivotIndex)
    (s.pivots ++ [s.schur s.pivotIndex s.pivotIndex]) reason

/-- One turn of the loop: another state, or the final result. -/
def step (dimension : Nat) (scaleInvariant enforceBudget : Bool) (s : State) :
    Run (State ⊕ IntervalInertiaResult) :=
  if enforceBudget && !exactIntervalWorkspaceAdmitted (flat s.schur dimension) then
    .ok (.inr (s.stop dimension
      "exact interval Schur growth exceeds endpoint/aggregate budget; use MPFR interval inertia"))
  else
    match selectDiagonal s dimension with
    | some selected => do return .inl (← pivotOne dimension s selected)
    | none => do
      match ← lift (searchBlock s.schur scaleInvariant (pairs s.pivotIndex dimension)) with
      | some (first, second) => return .inl (← pivotTwo dimension scaleInvariant s first second)
      | none => return .inr (s.stop dimension
          "no remaining certified 1x1 or 2x2 interval pivot; higher precision or another certified strategy is required")

/-- Every continuing turn moves the pivot index on, so the loop ends. -/
theorem step_advances {dimension : Nat} {scaleInvariant enforceBudget : Bool} {s s' : State}
    (h : step dimension scaleInvariant enforceBudget s = .ok (.inl s')) :
    s.pivotIndex < s'.pivotIndex := by
  unfold step at h
  split at h
  · cases h
  split at h
  · obtain ⟨t, ht, h⟩ := bind_eq_ok h
    cases h
    unfold pivotOne at ht
    obtain ⟨_, _, ht⟩ := bind_eq_ok ht
    obtain ⟨_, _, ht⟩ := bind_eq_ok ht
    cases ht
    exact Nat.lt_succ_self _
  · obtain ⟨found, _, h⟩ := bind_eq_ok h
    cases found with
    | none => cases h
    | some pair =>
      obtain ⟨t, ht, h⟩ := bind_eq_ok h
      cases h
      unfold pivotTwo at ht
      obtain ⟨block, _, ht⟩ := bind_eq_ok ht
      cases block with
      | none => cases ht
      | some block =>
        obtain ⟨_, _, ht⟩ := bind_eq_ok ht
        obtain ⟨_, _, ht⟩ := bind_eq_ok ht
        obtain ⟨_, _, ht⟩ := bind_eq_ok ht
        cases ht
        exact Nat.lt_add_of_pos_right (by decide)

def inertiaLoop (dimension : Nat) (scaleInvariant enforceBudget : Bool) (s : State) :
    Run IntervalInertiaResult :=
  if _hk : s.pivotIndex < dimension then
    match _hstep : step dimension scaleInvariant enforceBudget s with
    | .error e => .error e
    | .ok (.inr result) => .ok result
    | .ok (.inl s') => inertiaLoop dimension scaleInvariant enforceBudget s'
  else .ok (.conclusive s.positive s.negative s.pivots)
termination_by dimension - s.pivotIndex
decreasing_by
  have := step_advances _hstep
  omega

/-! ## Entry points -/

/-- The row-major input as cells. -/
def cells (matrix : List RationalInterval) (dimension : Nat) : Cells RationalInterval :=
  fun row column => matrix.getD (row * dimension + column) (RationalInterval.point 0)

/-- `usize::saturating_mul`. -/
def saturatingMul (a b : Nat) : Nat := min (a * b) (2 ^ 64 - 1)

/-- The first entry, in loop order, that differs from its mirror image. -/
def asymmetry (a : Cells RationalInterval) (dimension : Nat) : Option (Nat × Nat) :=
  ((List.range dimension).flatMap fun row => (List.range row).map fun column => (row, column)).find?
    fun cell => a cell.1 cell.2 != a cell.2 cell.1

def validateInput (matrix : List RationalInterval) (dimension : Nat) : Result Unit :=
  if dimension = 0 ∨ matrix.length ≠ saturatingMul dimension dimension then
    .error (.invalid ("interval matrix length " ++ toString matrix.length ++
      " does not match dimension " ++ toString dimension))
  else
    match asymmetry (cells matrix dimension) dimension with
    | some (row, column) => .error (.invalid ("interval matrix is not symmetric at (" ++
        toString row ++ ", " ++ toString column ++ ")"))
    | none => .ok ()

def intervalSymmetricLdltInertiaWithBudget (matrix : List RationalInterval) (dimension : Nat)
    (scaleInvariant enforceBudget : Bool) : Run IntervalInertiaResult := do
  lift (validateInput matrix dimension)
  if enforceBudget && !exactIntervalWorkspaceAdmitted matrix then
    return .inconclusive 0 0 0 dimension [cells matrix dimension 0 0]
      "exact interval workspace exceeds endpoint/aggregate budget; use MPFR interval inertia"
  else
    inertiaLoop dimension scaleInvariant enforceBudget
      { schur := cells matrix dimension, pivots := [], positive := 0, negative := 0,
        pivotIndex := 0 }

def intervalSymmetricLdltInertiaImpl (matrix : List RationalInterval) (dimension : Nat)
    (scaleInvariant : Bool) : Run IntervalInertiaResult :=
  intervalSymmetricLdltInertiaWithBudget matrix dimension scaleInvariant true

def intervalSymmetricLdltInertia (matrix : List RationalInterval) (dimension : Nat) :
    Run IntervalInertiaResult := intervalSymmetricLdltInertiaImpl matrix dimension true

end Xcelerator.Certify.RationalInertia
