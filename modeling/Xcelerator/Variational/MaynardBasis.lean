import Mathlib
import Xcelerator.Certify.Records
import Xcelerator.Variational.MaynardSymmetric

/-! # Rayleigh certificates and the exact orthonormal basis

The exact quotient of the two forms with the record it is certified by, and the
Gram-Schmidt basis of the polynomial space. A basis vector is kept with its
squared norm; the square root stays symbolic. -/

namespace Xcelerator.Variational.Maynard
open Xcelerator.Foundations.Machine
open Xcelerator.Certify.Records (ExactRationalRecord rationalRecord)

/-! ## Rayleigh quotients -/

structure MkRayleighCertificate where
  k : Nat
  degree : Nat
  dimension : Nat
  searchSpace : String
  numerator : ExactRationalRecord
  denominator : ExactRationalRecord
  quotient : ExactRationalRecord
deriving DecidableEq, Repr

/-- Numerator and denominator in decimal. -/
def exactRecord (value : ℚ) : ExactRationalRecord := rationalRecord value

def nonPositiveDenominator {α : Type} : Mk α := .error (.refused .nonPositiveDenominator)

namespace MkMonomialReference
variable (r : MkMonomialReference)

def rayleighQuotient (coefficients : List ℚ) : Mk ℚ := do
  let denominator ← r.quadraticI coefficients
  if denominator ≤ 0 then nonPositiveDenominator
  else do
    let numerator ← r.quadraticJTotal coefficients
    return numerator / denominator

def certificate (coefficients : List ℚ) : Mk MkRayleighCertificate := do
  let numerator ← r.quadraticJTotal coefficients
  let denominator ← r.quadraticI coefficients
  if denominator ≤ 0 then nonPositiveDenominator
  else return {
    k := r.k
    degree := r.degree
    dimension := r.dimension
    searchSpace := "full monomial polynomial space"
    numerator := exactRecord numerator
    denominator := exactRecord denominator
    quotient := exactRecord (numerator / denominator) }

end MkMonomialReference

/-! ## Inner products -/

def cells (rows columns : Nat) : List (Nat × Nat) :=
  (List.range rows).flatMap fun row => (List.range columns).map fun column => (row, column)

/-- `saturating_mul` of two sizes. -/
def saturatingMul (a b : Nat) : Nat := min (a * b) (2 ^ 64 - 1)

/-- One summand; the lengths are checked before. -/
def addProduct (left right matrix : List ℚ) (total : ℚ) (cell : Nat × Nat) : ℚ :=
  total + left.getD cell.1 0 * matrix.getD (cell.1 * left.length + cell.2) 0 * right.getD cell.2 0

def exactDenseInnerProduct (left right matrix : List ℚ) : Mk ℚ := do
  check (left.length == right.length && matrix.length == saturatingMul left.length left.length)
    "exact inner-product dimensions are inconsistent"
  return (cells left.length left.length).foldl (addProduct left right matrix) 0

/-! ## The basis -/

structure ExactOrthonormalVector where
  coefficients : List ℚ
  squaredNorm : ℚ
deriving DecidableEq, Repr

structure ExactSimplexOrthonormalBasis where
  k : Nat
  degree : Nat
  vectors : List ExactOrthonormalVector
deriving DecidableEq, Repr

/-- Subtract the projection on an earlier vector; its squared norm is positive,
so the division does not panic, and the inner product has compared the lengths. -/
def project (gram coefficients : List ℚ) (previous : ExactOrthonormalVector) : Mk (List ℚ) := do
  let projectionNumerator ← exactDenseInnerProduct coefficients previous.coefficients gram
  return List.zipWith
    (fun coefficient previousCoefficient =>
      coefficient - projectionNumerator / previous.squaredNorm * previousCoefficient)
    coefficients previous.coefficients

def unitVector (dimension column : Nat) : List ℚ := (List.replicate dimension 0).set column 1

/-- The step of the construction for one column. -/
def orthogonalize (dimension : Nat) (gram : List ℚ) (vectors : List ExactOrthonormalVector)
    (column : Nat) :
    Mk (List ExactOrthonormalVector) := do
  let coefficients ← vectors.foldlM (project gram) (unitVector dimension column)
  let squaredNorm ← exactDenseInnerProduct coefficients coefficients gram
  check (decide (0 < squaredNorm))
    ("simplex Gram-Schmidt produced a nonpositive norm at column " ++ toString column)
  return vectors ++ [⟨coefficients, squaredNorm⟩]

/-- The product of two stored vectors against the stored norm, or zero. -/
def verifyCell (diagonal : Nat → String) (cross : Nat → Nat → String)
    (vectors : List ExactOrthonormalVector) (gram : List ℚ) (cell : Nat × Nat) : Mk Unit := do
  let left ← panicking (read vectors cell.1)
  let right ← panicking (read vectors cell.2)
  let inner ← exactDenseInnerProduct left.coefficients right.coefficients gram
  if cell.1 = cell.2 then check (inner == left.squaredNorm) (diagonal cell.1)
  else check (inner == 0) (cross cell.1 cell.2)

def verifyCells (diagonal : Nat → String) (cross : Nat → Nat → String)
    (vectors : List ExactOrthonormalVector) (gram : List ℚ) : Mk Unit :=
  (cells vectors.length vectors.length).forM (verifyCell diagonal cross vectors gram)

namespace ExactSimplexOrthonormalBasis

def dimension (basis : ExactSimplexOrthonormalBasis) : Nat := basis.vectors.length

def verifyExact (basis : ExactSimplexOrthonormalBasis) (reference : MkMonomialReference) :
    Mk Unit := do
  check (basis.k == reference.k && basis.degree == reference.degree &&
    basis.dimension == reference.dimension)
    "orthonormal basis and monomial reference semantics differ"
  let gram ← reference.denseIExact
  verifyCells (fun row => "orthonormal diagonal identity failed at " ++ toString row)
    (fun row column => "orthonormal cross-moment (" ++ toString row ++ ", " ++ toString column ++
      ") is nonzero")
    basis.vectors gram

def new (reference : MkMonomialReference) : Mk ExactSimplexOrthonormalBasis := do
  let gram ← reference.denseIExact
  let vectors ← (List.range reference.dimension).foldlM (orthogonalize reference.dimension gram) []
  let basis : ExactSimplexOrthonormalBasis :=
    { k := reference.k, degree := reference.degree, vectors }
  basis.verifyExact reference
  return basis

end ExactSimplexOrthonormalBasis

end Xcelerator.Variational.Maynard
