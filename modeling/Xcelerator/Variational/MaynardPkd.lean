import Mathlib
import Xcelerator.Variational.MaynardBasis

/-! # The exact Proriol-Koornwinder-Dubiner basis

Exact polynomials as maps from multi-indices to rationals, the shifted Jacobi
recurrence in rationals, and the basis they build. A map is kept as its list of
entries in the order of the keys. -/

namespace Xcelerator.Variational.Maynard
open Xcelerator.Foundations.Machine

/-! ## Exact polynomials -/

abbrev ExactPolynomial := List (MultiIndex × ℚ)

/-- `*entry(key).or_insert(0) += term`. -/
def addAt : ExactPolynomial → MultiIndex → ℚ → ExactPolynomial
  | [], key, term => [(key, 0 + term)]
  | (other, value) :: rest, key, term =>
    if key = other then (other, value + term) :: rest
    else if key < other then (key, 0 + term) :: (other, value) :: rest
    else (other, value) :: addAt rest key term

/-- `insert(key, value)`. -/
def insertAt : ExactPolynomial → MultiIndex → ℚ → ExactPolynomial
  | [], key, value => [(key, value)]
  | (other, old) :: rest, key, value =>
    if key = other then (other, value) :: rest
    else if key < other then (key, value) :: (other, old) :: rest
    else (other, old) :: insertAt rest key value

/-- `retain` of the entries other than zero. -/
def retainNonzero (polynomial : ExactPolynomial) : ExactPolynomial :=
  polynomial.filter fun entry => entry.2 != 0

def constantOne (k : Nat) : ExactPolynomial := [(List.replicate k 0, 1)]

/-- The sums of the exponents, checked as `u32`. -/
def addExponents (k : Nat) (left right : MultiIndex) : Mk MultiIndex := do
  check (left.length == k && right.length == k)
    "PKD polynomial factor has the wrong variable dimension"
  (List.range k).mapM fun coordinate =>
    okOr (checked 32 (left.getD coordinate 0 + right.getD coordinate 0))
      "PKD monomial exponent overflowed u32"

def multiplyEntry (k : Nat) (product : ExactPolynomial)
    (pair : (MultiIndex × ℚ) × (MultiIndex × ℚ)) :
    Mk ExactPolynomial := do
  let exponent ← addExponents k pair.1.1 pair.2.1
  return addAt product exponent (pair.1.2 * pair.2.2)

def exactPolynomialProduct (left right : ExactPolynomial) (k : Nat) : Mk ExactPolynomial := do
  let product ← (left.flatMap fun l => right.map fun r => (l, r)).foldlM (multiplyEntry k) []
  return retainNonzero product

/-- One minus the first variables. -/
def affineRemainder (k preceding : Nat) : ExactPolynomial :=
  (List.range preceding).foldl
    (fun remainder variableIndex => insertAt remainder ((List.replicate k 0).set variableIndex 1)
    (-1)) (constantOne k)

def affineRemainderPower (k preceding power : Nat) : Mk ExactPolynomial :=
  if power = 0 then .ok (constantOne k)
  else (List.range power).foldlM (fun result _ =>
    exactPolynomialProduct result (affineRemainder k preceding) k)
    (constantOne k)

/-! ## The Jacobi recurrence -/

/-- `coefficients[power] += term`; the vectors are long enough for every power. -/
def addCoefficient (coefficients : List ℚ) (power : Nat) (term : ℚ) : List ℚ :=
  coefficients.set power (coefficients.getD power 0 + term)

/-- `try_from` of a size and an arithmetic result, both in `i128`. -/
def toI128 (n : Nat) (message : String) : Mk Int := (okOr (checked 127 n) message).map Int.ofNat

/-- The factors of a product other than zero are at least one in size, so no
partial product overflows when the whole one does not. -/
def i128 (x : Int) : Mk Int := panicking (signed 128 x)

def jacobiStep (alpha n : Nat) (previousPrevious previous : List ℚ) : Mk (List ℚ) := do
  let nI ← toI128 n "Jacobi degree does not fit i128"
  let alphaI ← toI128 alpha "Jacobi alpha does not fit i128"
  let twiceNAlpha ← i128 (2 * nI + alphaI)
  let denominator ← i128 (2 * nI * (nI + alphaI) * (twiceNAlpha - 2))
  let outer ← i128 (twiceNAlpha - 1)
  let zFactor ← i128 (twiceNAlpha * (twiceNAlpha - 2))
  let constantFactor ← i128 (alphaI * alphaI)
  let priorFactor ← i128 (2 * (nI + alphaI - 1) * (nI - 1) * twiceNAlpha)
  check (denominator != 0) "Jacobi recurrence denominator vanished"
  let constant ← i128 (outer * constantFactor)
  let shift ← i128 (outer * zFactor)
  let raised := previous.zipIdx.foldl (fun current entry =>
    addCoefficient (addCoefficient current entry.2 (entry.1 * constant)) (entry.2 + 1)
      (entry.1 * shift))
    (List.replicate (n + 1) 0)
  let current := previousPrevious.zipIdx.foldl (fun current entry =>
    addCoefficient current entry.2 (-(entry.1 * priorFactor))) raised
  return current.map (· / denominator)

/-- The binomial coefficients, each from the one before. -/
def integerBinomialRow (n : Nat) : List Nat :=
  ((List.range (n + 1)).foldl (fun (state : Nat × List Nat) k =>
    let coefficient := if 0 < k then state.1 * (n + 1 - k) / k else state.1
    (coefficient, state.2 ++ [coefficient])) (1, [])).2

/-- One power of `2 * t - 1`, added to the coefficients in `t`. -/
def addPower (shifted : List ℚ) (entry : ℚ × Nat) : List ℚ :=
  (integerBinomialRow entry.2).zipIdx.foldl (fun shifted binomial =>
    let term := entry.1 * binomial.1 * 2 ^ binomial.2
    addCoefficient shifted binomial.2 (if (entry.2 - binomial.2) % 2 = 1 then -term else
      term)) shifted

def shiftedJacobiAlphaZeroCoefficients (degree alpha : Nat) : Mk (List ℚ) :=
  if degree = 0 then .ok [1]
  else do
    let alphaPlusTwo ← panicking (unsigned 64 (alpha + 2))
    let last ← (List.range' 2 (degree - 1)).foldlM (fun pair n => do
      let current ← jacobiStep alpha n pair.1 pair.2
      return (pair.2, current)) (([1], [(alpha / 2 : ℚ), (alphaPlusTwo / 2 : ℚ)]) : List ℚ × List ℚ)
    return last.2.zipIdx.foldl addPower (List.replicate (degree + 1) 0)

/-! ## The basis -/

/-- The Jacobi parameter of one variable; `variableIndex` is below `k`. -/
def pkdAlpha (k : Nat) (index : MultiIndex) (variableIndex : Nat) : Mk Nat := do
  let laterDegree ← panicking (sum 64 (index.drop (variableIndex + 1)))
  let total ← panicking (unsigned 64 (2 * laterDegree + k))
  return total - variableIndex - 1

/-- The entries of a term, scaled and added to the factor. -/
def addScaled (scale : ℚ) (factor term : ExactPolynomial) : ExactPolynomial :=
  term.foldl (fun factor entry => addAt factor entry.1 (entry.2 * scale)) factor

/-- The power of the remainder, multiplied with one of the variable. -/
def jacobiTerm (k variableIndex monomialDegree : Nat) (remainder : ExactPolynomial) :
    Mk ExactPolynomial :=
  if 0 < monomialDegree then do
    let power ← okOr (checked 32 monomialDegree) "PKD monomial degree does not fit u32"
    exactPolynomialProduct remainder [((List.replicate k 0).set variableIndex power, 1)] k
  else .ok remainder

def addJacobiTerm (k variableIndex degree : Nat) (factor : ExactPolynomial) (entry : ℚ × Nat) :
    Mk ExactPolynomial := do
  let remainder ← affineRemainderPower k variableIndex (degree - entry.2)
  let term ← jacobiTerm k variableIndex entry.2 remainder
  return addScaled entry.1 factor term

def pkdFactor (k : Nat) (index : MultiIndex) (variableIndex : Nat) : Mk ExactPolynomial := do
  let degree := index.getD variableIndex 0
  let alpha ← pkdAlpha k index variableIndex
  let jacobi ← shiftedJacobiAlphaZeroCoefficients degree alpha
  let factor ← jacobi.zipIdx.foldlM (addJacobiTerm k variableIndex degree) []
  return retainNonzero factor

def pkdPolynomial (k : Nat) (index : MultiIndex) : Mk ExactPolynomial := do
  check (index.length == k) "PKD index has the wrong variable dimension"
  (List.range k).foldlM (fun polynomial variableIndex => do
    let factor ← pkdFactor k index variableIndex
    exactPolynomialProduct polynomial factor k) (constantOne k)

def pkdSquaredNorm (k : Nat) (index : MultiIndex) : Mk ℚ := do
  check (index.length == k) "PKD norm index has the wrong variable dimension"
  (List.range k).foldlM (fun norm variableIndex => do
    let alpha ← pkdAlpha k index variableIndex
    let divisor ← panicking (unsigned 64 (2 * index.getD variableIndex 0 + alpha + 1))
    return norm / divisor) 1

structure ExactPkdSimplexOrthonormalBasis where
  k : Nat
  degree : Nat
  indices : List MultiIndex
  vectors : List ExactOrthonormalVector
deriving DecidableEq, Repr

/-- What the map of positions holds: the last one for its key. -/
def positionOf (indices : List MultiIndex) (key : MultiIndex) : Option Nat :=
  (indices.zipIdx.reverse.find? fun entry => entry.1 = key).map Prod.snd

def placeEntry (indices : List MultiIndex) (coefficients : List ℚ) (entry : MultiIndex × ℚ) :
    Mk (List ℚ) := do
  let position ← okOr (positionOf indices entry.1)
    "PKD recurrence produced a monomial outside the finite space"
  return coefficients.set position entry.2

def pkdVector (reference : MkMonomialReference) (index : MultiIndex) :
    Mk ExactOrthonormalVector := do
  let polynomial ← pkdPolynomial reference.k index
  let coefficients ← polynomial.foldlM (placeEntry reference.indices)
    (List.replicate reference.dimension 0)
  let squaredNorm ← pkdSquaredNorm reference.k index
  return ⟨coefficients, squaredNorm⟩

namespace ExactPkdSimplexOrthonormalBasis

def dimension (basis : ExactPkdSimplexOrthonormalBasis) : Nat := basis.vectors.length

def verifyExact (basis : ExactPkdSimplexOrthonormalBasis) (reference : MkMonomialReference) :
    Mk Unit := do
  check (basis.k == reference.k && basis.degree == reference.degree &&
    basis.indices == reference.indices &&
      basis.dimension == reference.dimension)
    "PKD basis and monomial reference semantics differ"
  let gram ← reference.denseIExact
  verifyCells (fun row => "PKD recurrence norm disagrees with exact simplex moments at " ++
    toString row)
    (fun row column => "PKD cross-moment (" ++ toString row ++ ", " ++ toString column ++
      ") is nonzero")
    basis.vectors gram

def new (reference : MkMonomialReference) : Mk ExactPkdSimplexOrthonormalBasis := do
  let vectors ← reference.indices.mapM (pkdVector reference)
  let basis : ExactPkdSimplexOrthonormalBasis :=
    { k := reference.k, degree := reference.degree, indices := reference.indices, vectors }
  basis.verifyExact reference
  return basis

end ExactPkdSimplexOrthonormalBasis

end Xcelerator.Variational.Maynard
