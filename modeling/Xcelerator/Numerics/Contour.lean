import Mathlib
import Xcelerator.Foundations.Machine
import Xcelerator.Numerics.Interval

/-! # Exact contour counting

The argument principle of `interval.rs`: the edges of a rational rectangle are
bisected until a rectangular enclosure of the image excludes zero, and the
winding of the polygon of exact endpoint images is counted by ray crossings.
The explicit stack is a list with its top first. -/

namespace Xcelerator.Numerics.Contour
open Xcelerator.Numerics.Interval

/-! ## Complex rationals -/

structure ComplexRational where
  real : ℚ
  imaginary : ℚ
deriving DecidableEq, Repr

namespace ComplexRational

def add (a b : ComplexRational) : ComplexRational := ⟨a.real + b.real, a.imaginary + b.imaginary⟩

def mul (a b : ComplexRational) : ComplexRational :=
  ⟨a.real * b.real - a.imaginary * b.imaginary, a.real * b.imaginary + a.imaginary * b.real⟩

def isZero (a : ComplexRational) : Bool := a.real == 0 && a.imaginary == 0

end ComplexRational

structure ComplexRationalBall where
  real : RationalInterval
  imaginary : RationalInterval
deriving DecidableEq, Repr

namespace ComplexRationalBall

def point (value : ComplexRational) : ComplexRationalBall :=
  ⟨RationalInterval.point value.real, RationalInterval.point value.imaginary⟩

def add (a b : ComplexRationalBall) : ComplexRationalBall :=
  ⟨a.real.add b.real, a.imaginary.add b.imaginary⟩

def mul (a b : ComplexRationalBall) : ComplexRationalBall :=
  let ac := a.real.mul b.real
  let bd := a.imaginary.mul b.imaginary
  let ad := a.real.mul b.imaginary
  let bc := a.imaginary.mul b.real
  ⟨ac.sub bd, ad.add bc⟩

def excludesZero (a : ComplexRationalBall) : Bool :=
  !a.real.containsZero || !a.imaginary.containsZero

end ComplexRationalBall

def noCoefficient : IntervalError :=
  .invalid "complex polynomial must contain at least one coefficient"

def evaluateComplexPolynomialBall (coefficientsAscending : List ComplexRational)
    (argument : ComplexRationalBall) : Result ComplexRationalBall :=
  match coefficientsAscending.reverse with
  | [] => .error noCoefficient
  | highest :: rest => .ok (rest.foldl (fun value coefficient =>
      (value.mul argument).add (.point coefficient)) (.point highest))

def evaluateComplexPolynomialExact (coefficientsAscending : List ComplexRational)
    (argument : ComplexRational) : Result ComplexRational :=
  match coefficientsAscending.reverse with
  | [] => .error noCoefficient
  | highest :: rest => .ok (rest.foldl (fun value coefficient =>
      (value.mul argument).add coefficient) highest)

/-! ## The contour -/

/-- The fields are public, so their order is checked at certification. -/
structure RationalContourRectangle where
  realLower : ℚ
  realUpper : ℚ
  imaginaryLower : ℚ
  imaginaryUpper : ℚ
deriving DecidableEq, Repr

namespace RationalContourRectangle

def new (realLower realUpper imaginaryLower imaginaryUpper : ℚ) : Result RationalContourRectangle :=
  if realLower ≥ realUpper ∨ imaginaryLower ≥ imaginaryUpper then
    .error (.invalid "contour rectangle must have strictly ordered real and imaginary bounds")
  else .ok { realLower, realUpper, imaginaryLower, imaginaryUpper }

def counterclockwiseVertices (r : RationalContourRectangle) : List ComplexRational :=
  [⟨r.realLower, r.imaginaryLower⟩, ⟨r.realUpper, r.imaginaryLower⟩,
    ⟨r.realUpper, r.imaginaryUpper⟩, ⟨r.realLower, r.imaginaryUpper⟩,
    ⟨r.realLower, r.imaginaryLower⟩]

end RationalContourRectangle

structure PolynomialContourCell where
  domainStart : ComplexRational
  domainEnd : ComplexRational
  imageStart : ComplexRational
  imageEnd : ComplexRational
  imageEnclosure : ComplexRationalBall
deriving DecidableEq, Repr

structure PolynomialContourCount where
  rectangle : RationalContourRectangle
  zeroCount : ℕ
  windingNumber : ℤ
  acceptedContourCells : ℕ
  maximumSubdivisionDepth : ℕ
  boundaryExcludesZero : Bool
  rigorous : Bool
  cells : List PolynomialContourCell
deriving DecidableEq, Repr

def complexSegmentBall (start stop : ComplexRational) : ComplexRationalBall :=
  ⟨RationalInterval.hull start.real stop.real, RationalInterval.hull start.imaginary stop.imaginary⟩

def complexMidpoint (start stop : ComplexRational) : ComplexRational :=
  ⟨(start.real + stop.real) / 2, (start.imaginary + stop.imaginary) / 2⟩

structure ContourWorkBudget where
  maximumAcceptedCells : ℕ
  maximumSegmentEvaluations : ℕ
  maximumDepth : ℕ
deriving DecidableEq, Repr

/-- A stretch of the contour that is still to be enclosed. -/
structure Stretch where
  start : ComplexRational
  stop : ComplexRational
  depth : ℕ
deriving DecidableEq, Repr

/-- What the traversal of one edge updates. -/
structure Traversal where
  cells : List PolynomialContourCell
  vertices : List ComplexRational
  evaluations : ℕ
deriving DecidableEq, Repr

def vertexZero : IntervalError :=
  .inconclusive "polynomial has a zero on a contour subdivision vertex"

/-- The enclosure and the exact endpoint images of a stretch. -/
def evaluateCell (coefficientsAscending : List ComplexRational) (start stop : ComplexRational) :
    Result PolynomialContourCell := do
  let imageEnclosure ← evaluateComplexPolynomialBall coefficientsAscending
    (complexSegmentBall start stop)
  let imageStart ← evaluateComplexPolynomialExact coefficientsAscending start
  let imageEnd ← evaluateComplexPolynomialExact coefficientsAscending stop
  check (!(imageStart.isZero || imageEnd.isZero)) vertexZero
  return { domainStart := start, domainEnd := stop, imageStart, imageEnd, imageEnclosure }

def enclosePolynomialContourSegment (coefficientsAscending : List ComplexRational)
    (maximumDepth : ℕ) (budget : ContourWorkBudget) (pending : List Stretch) (state : Traversal) :
    Result Traversal :=
  match pending with
  | [] => .ok state
  | stretch :: rest =>
    if _h : state.evaluations ≥ budget.maximumSegmentEvaluations ∨
        state.cells.length ≥ budget.maximumAcceptedCells ∨ stretch.depth > budget.maximumDepth then
      .error (.inconclusive "exact contour work budget exhausted")
    else
      match evaluateCell coefficientsAscending stretch.start stretch.stop with
      | .error e => .error e
      | .ok cell =>
        if cell.imageEnclosure.excludesZero then
          enclosePolynomialContourSegment coefficientsAscending maximumDepth budget rest
            { cells := state.cells ++ [cell], vertices := state.vertices ++ [stretch.stop],
              evaluations := state.evaluations + 1 }
        else if stretch.depth ≥ maximumDepth then
          .error (.inconclusive "contour image could not exclude zero within subdivision budget")
        else
          let midpoint := complexMidpoint stretch.start stretch.stop
          enclosePolynomialContourSegment coefficientsAscending maximumDepth budget
            (⟨stretch.start, midpoint, stretch.depth + 1⟩ ::
              ⟨midpoint, stretch.stop, stretch.depth + 1⟩ :: rest)
            { state with evaluations := state.evaluations + 1 }
termination_by budget.maximumSegmentEvaluations - state.evaluations

/-! ## Winding -/

/-- The signed crossing of the positive real axis by one edge of the polygon. -/
def windingStep (start stop : ComplexRational) : Result ℤ :=
  if start.isZero || stop.isZero then
    .error (.inconclusive "polynomial has a zero at a contour subdivision vertex")
  else
    let cross := start.real * stop.imaginary - stop.real * start.imaginary
    if start.imaginary ≤ 0 ∧ stop.imaginary > 0 ∧ cross > 0 then .ok 1
    else if start.imaginary > 0 ∧ stop.imaginary ≤ 0 ∧ cross < 0 then .ok (-1)
    else .ok 0

/-- The sum over `windows(2)`. -/
def windingFrom (winding : ℤ) (start : ComplexRational) : List ComplexRational → Result ℤ
  | [] => .ok winding
  | stop :: rest => do windingFrom (winding + (← windingStep start stop)) stop rest

def exactPolygonWindingAboutZero (vertices : List ComplexRational) : Result ℤ :=
  match vertices with
  | first :: second :: rest =>
    if (first :: second :: rest).getLast? = some first then windingFrom 0 first (second :: rest)
    else .error (.invalid "winding polygon must be nonempty and closed")
  | _ => .error (.invalid "winding polygon must be nonempty and closed")

/-! ## Certification -/

/-- One edge of the rectangle: the cells and evaluations accumulate over all
edges, the polygon gains the images of the new vertices. -/
def certifyEdge (coefficientsAscending : List ComplexRational) (maximumSubdivisionDepth : ℕ)
    (budget : ContourWorkBudget) (state : Traversal) (edge : ComplexRational × ComplexRational) :
    Result Traversal := do
  let result ← enclosePolynomialContourSegment coefficientsAscending maximumSubdivisionDepth budget
    [⟨edge.1, edge.2, 0⟩] { state with vertices := [] }
  let images ← result.vertices.mapM fun vertex =>
    evaluateComplexPolynomialExact coefficientsAscending vertex
  return { result with vertices := state.vertices ++ images }

/-- `usize::try_from` of the winding number. -/
def zeroCountOf (winding : ℤ) : Result ℕ :=
  if 0 ≤ winding then .ok winding.toNat
  else .error (.invalid "counterclockwise polynomial contour produced a negative winding")

def certifyPolynomialZeroCountOnRectangleWithBudget (coefficientsAscending : List ComplexRational)
    (rectangle : RationalContourRectangle) (maximumSubdivisionDepth : ℕ)
    (budget : ContourWorkBudget) : Result PolynomialContourCount := do
  check (!(decide (maximumSubdivisionDepth > budget.maximumDepth) ||
      decide (budget.maximumDepth > 1000000) || decide (budget.maximumAcceptedCells = 0) ||
      decide (budget.maximumSegmentEvaluations = 0)))
    (.inconclusive "contour request exceeds explicit resource limits")
  check (!(coefficientsAscending.isEmpty || coefficientsAscending.all ComplexRational.isZero ||
      decide (maximumSubdivisionDepth = 0)))
    (.invalid "contour count requires a nonzero polynomial and positive subdivision depth")
  let rectangle ← RationalContourRectangle.new rectangle.realLower rectangle.realUpper
    rectangle.imaginaryLower rectangle.imaginaryUpper
  let contour := rectangle.counterclockwiseVertices
  let first ← evaluateComplexPolynomialExact coefficientsAscending
    ⟨rectangle.realLower, rectangle.imaginaryLower⟩
  let state ← (contour.zip contour.tail).foldlM
    (certifyEdge coefficientsAscending maximumSubdivisionDepth budget)
    { cells := [], vertices := [first], evaluations := 0 }
  let windingNumber ← exactPolygonWindingAboutZero state.vertices
  let zeroCount ← zeroCountOf windingNumber
  return {
    rectangle, zeroCount, windingNumber
    acceptedContourCells := state.cells.length
    maximumSubdivisionDepth
    boundaryExcludesZero := true
    rigorous := true
    cells := state.cells }

end Xcelerator.Numerics.Contour
