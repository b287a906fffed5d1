import Mathlib
import Xcelerator.Numerics.Interval
import Xcelerator.Numerics.MpfrFloat

/-! # MPFR intervals and complex balls

The operations of `mpfr_interval.rs` on floats as MPFR stores them. The endpoints
of an interval are private, and every way to make one either validates them or
stores a pair of NaNs of one precision; the field `admissible` says so. Error
texts and the order of the checks are those of the source. -/

namespace Xcelerator.Numerics.MpfrBall
open Xcelerator.Foundations.BinaryRounding (Round)
open Xcelerator.Numerics.Interval (IntervalError Result Run lift expect)
open Xcelerator.Numerics.MpfrFloat

def unordered : IntervalError := .invalid "MPFR interval endpoints must be finite and ordered"
def unequal : IntervalError := .invalid "MPFR interval endpoints must have equal precision"
def unrepresentable : IntervalError := .invalid "invalid or unrepresentable MPFR interval"

/-- The enclosure contract: finite, ordered endpoints of equal precision. -/
def Enclosing (lower upper : MpfrFloat) : Prop :=
  (lower.isFinite = true ∧ upper.isFinite = true ∧ upper.lt lower = false) ∧
    lower.precision = upper.precision

instance (lower upper : MpfrFloat) : Decidable (Enclosing lower upper) :=
  inferInstanceAs (Decidable (_ ∧ _))

/-- What the constructors store. -/
def Admissible (lower upper : MpfrFloat) : Prop :=
  Enclosing lower upper ∨ (lower.datum = .nan ∧ upper.datum = .nan) ∧
    lower.precision = upper.precision

structure MpfrInterval where
  lower : MpfrFloat
  upper : MpfrFloat
  admissible : Admissible lower upper

namespace MpfrInterval

def new (lower upper : MpfrFloat) : Result MpfrInterval :=
  if lower.isFinite = true ∧ upper.isFinite = true ∧ upper.lt lower = false then
    if h : Enclosing lower upper then .ok { lower, upper, admissible := .inl h } else .error unequal
  else .error unordered

def validate (a : MpfrInterval) : Result Unit :=
  if Enclosing a.lower a.upper then .ok () else .error unrepresentable

def isValid (a : MpfrInterval) : Bool := decide (Enclosing a.lower a.upper)

def invalid (p : Nat) : MpfrInterval where
  lower := .nan p
  upper := .nan p
  admissible := .inr ⟨⟨rfl, rfl⟩, rfl⟩

def arithmeticResult (lower upper : MpfrFloat) : MpfrInterval :=
  match new lower upper with
  | .ok value => value
  | .error _ => invalid lower.precision

def precision (a : MpfrInterval) : Nat := a.lower.precision

def containsZero (a : MpfrInterval) : Bool :=
  !a.isValid || (a.lower.le (.ofInt a.precision 0) && MpfrFloat.le (.ofInt a.precision 0) a.upper)

/-- `Self::point`, whose expectation is a finite value. -/
def point (value : MpfrFloat) : Run MpfrInterval :=
  expect (new value value).toOption "finite MPFR point required"

/-- Negation exchanges the endpoints of either kind of pair. -/
theorem admissible_neg {lower upper : MpfrFloat} (h : Admissible lower upper) :
    Admissible upper.neg lower.neg := by
  obtain ⟨p, l⟩ := lower
  obtain ⟨q, u⟩ := upper
  rcases h with ⟨⟨hl, hu, hlt⟩, hp⟩ | ⟨⟨hl, hu⟩, hp⟩
  · refine .inl ⟨?_, hp.symm⟩
    cases l <;> cases u <;>
      simp_all [MpfrFloat.isFinite, MpfrFloat.finite?, MpfrFloat.neg, Datum.neg, MpfrFloat.lt,
        Datum.rank, Prod.Lex.toLex_lt_toLex]
  · refine .inr ⟨⟨?_, ?_⟩, hp.symm⟩
    · show u.neg = .nan
      rw [show u = .nan from hu]
      rfl
    · show l.neg = .nan
      rw [show l = .nan from hl]
      rfl

def neg (a : MpfrInterval) : MpfrInterval where
  lower := a.upper.neg
  upper := a.lower.neg
  admissible := admissible_neg a.admissible

/-- The distinct endpoints: one for a bitwise point, including zero sign. -/
def corners (a : MpfrInterval) : List MpfrFloat :=
  if a.lower.eq a.upper && a.lower.isSignNegative == a.upper.isSignNegative then [a.lower]
  else [a.lower, a.upper]

/-- The least and the greatest of two candidates under `total_cmp`; an earlier one stays. -/
def keepLess (kept : Option MpfrFloat) (candidate : MpfrFloat) : Option MpfrFloat :=
  match kept with
  | none => some candidate
  | some v => if candidate.totalLt v then some candidate else some v

def keepGreater (kept : Option MpfrFloat) (candidate : MpfrFloat) : Option MpfrFloat :=
  match kept with
  | none => some candidate
  | some v => if v.totalLt candidate then some candidate else some v

/-- `if x >= y { x } else { y }`. -/
def larger (x y : MpfrFloat) : MpfrFloat := if y.le x then x else y

/-- The pairs of corners, in loop order. -/
def cornerPairs (left right : List MpfrFloat) : List (MpfrFloat × MpfrFloat) :=
  left.flatMap fun x => right.map fun y => (x, y)

section
variable (m : Primitives)

/-- The guard of the infallible binary operations. -/
def guarded (a b : MpfrInterval) (result : MpfrInterval) : MpfrInterval :=
  if a.precision = b.precision ∧ a.isValid ∧ b.isValid then result else invalid a.precision

def add (a b : MpfrInterval) : MpfrInterval :=
  guarded a b (arithmeticResult (m.add a.precision .down a.lower b.lower)
    (m.add a.precision .up a.upper b.upper))

def sub (a b : MpfrInterval) : MpfrInterval :=
  guarded a b (arithmeticResult (m.sub a.precision .down a.lower b.upper)
    (m.sub a.precision .up a.upper b.lower))

/-- The rounded extrema of the products; the list is never empty. -/
def productHull (p : Nat) (pairs : List (MpfrFloat × MpfrFloat)) : MpfrInterval :=
  match (pairs.map fun c => m.mul p .down c.1 c.2).foldl keepLess none,
    (pairs.map fun c => m.mul p .up c.1 c.2).foldl keepGreater none with
  | some lower, some upper => arithmeticResult lower upper
  | _, _ => invalid p

def mul (a b : MpfrInterval) : MpfrInterval :=
  guarded a b (productHull m a.precision (cornerPairs a.corners b.corners))

/-- `min_by`: the first of the least elements. -/
def minBy : List MpfrFloat → Option MpfrFloat
  | [] => none
  | x :: xs => some (xs.foldl (fun best y => if y.totalLt best then y else best) x)

/-- `max_by`: the last of the greatest elements. -/
def maxBy : List MpfrFloat → Option MpfrFloat
  | [] => none
  | x :: xs => some (xs.foldl (fun best y => if y.totalLt best then best else y) x)

/-- The eight-product multiplication that the tests keep as a reference. -/
def referenceMul (a b : MpfrInterval) : MpfrInterval :=
  let pairs := [(a.lower, b.lower), (a.lower, b.upper), (a.upper, b.lower), (a.upper, b.upper)]
  guarded a b (match minBy (pairs.map fun c => m.mul a.precision .down c.1 c.2),
      maxBy (pairs.map fun c => m.mul a.precision .up c.1 c.2) with
    | some lower, some upper => arithmeticResult lower upper
    | _, _ => invalid a.precision)

def square (a : MpfrInterval) : MpfrInterval :=
  if a.containsZero then
    let p := a.precision
    let maximum := larger a.lower.abs a.upper.abs
    arithmeticResult (.ofInt p 0) (m.mul p .up maximum maximum)
  else mul m a a

def reciprocal (a : MpfrInterval) : Result MpfrInterval := do
  a.validate
  if a.containsZero then .error .divisionByZeroInterval
  else
    let p := a.precision
    let one := MpfrFloat.ofInt p 1
    new (m.div p .down one a.upper) (m.div p .up one a.lower)

def div (a b : MpfrInterval) : Result MpfrInterval := do
  a.validate
  b.validate
  if a.precision = b.precision then
    let result := mul m a (← reciprocal m b)
    result.validate
    return result
  else .error (.invalid "MPFR interval precision mismatch")

def exp (a : MpfrInterval) : MpfrInterval :=
  arithmeticResult (m.exp .down a.lower) (m.exp .up a.upper)

def ln (a : MpfrInterval) : Result MpfrInterval := do
  a.validate
  if a.lower.le (.ofInt a.precision 0) then
    .error (.invalid "logarithm interval is not strictly positive")
  else new (m.ln .down a.lower) (m.ln .up a.upper)

def sqrt (a : MpfrInterval) : Result MpfrInterval := do
  a.validate
  if a.lower.lt (.ofInt a.precision 0) then
    .error (.invalid "square-root interval has a negative lower endpoint")
  else new (m.sqrt .down a.lower) (m.sqrt .up a.upper)

def atan (a : MpfrInterval) : MpfrInterval :=
  arithmeticResult (m.atan .down a.lower) (m.atan .up a.upper)

/-! ## Sine and cosine -/

/-- `/ 2` at the float's own precision. -/
def half (x : MpfrFloat) : MpfrFloat := m.div x.precision .nearest x (.ofInt x.precision 2)

/-- The rounded midpoint before it is clamped. -/
def rawMidpoint (a : MpfrInterval) : MpfrFloat :=
  let p := a.precision
  if a.lower.isSignNegative == a.upper.isSignNegative then
    m.add p .nearest a.lower (half m (m.sub p .nearest a.upper a.lower))
  else m.add p .nearest (half m a.lower) (half m a.upper)

def clampedMidpoint (a : MpfrInterval) : MpfrFloat :=
  let midpoint := rawMidpoint m a
  if midpoint.lt a.lower then a.lower
  else if a.upper.lt midpoint then a.upper
  else midpoint

def midpointPoint (a : MpfrInterval) : Run MpfrInterval := do
  expect a.validate.toOption "finite interval midpoint required"
  point (clampedMidpoint m a)

/-- Midpoint and radius of the Lipschitz enclosure; `none` when the radius covers
the range of sine and cosine. -/
def trigCenter (a : MpfrInterval) : Run (Option (MpfrFloat × MpfrFloat)) := do
  let p := a.precision
  let midpoint := (← midpointPoint m a).lower
  let leftRadius := m.sub p .up midpoint a.lower
  let rightRadius := m.sub p .up a.upper midpoint
  let radius := larger leftRadius rightRadius
  return if radius.lt (.ofInt p 2) then some (midpoint, radius) else none

def trigWidened (lower upper radius : MpfrFloat) : MpfrInterval :=
  let p := lower.precision
  let lower := m.sub p .down lower radius
  let upper := m.add p .up upper radius
  let minusOne := MpfrFloat.ofInt p (-1)
  let one := MpfrFloat.ofInt p 1
  arithmeticResult (if lower.lt minusOne then minusOne else lower)
    (if one.lt upper then one else upper)

/-- The upward rounding from the downward one and its ternary value. -/
def upwardFromDownward (x lower : MpfrFloat) (ternary : Ordering)
    (f : Round → MpfrFloat → MpfrFloat × Ordering) : MpfrFloat :=
  let direct := (f .up x).1
  if lower.isNormal then
    match ternary with
    | .eq => lower
    | .lt =>
      if (lower.getExp.any fun exponent => m.expMin < exponent) && (m.nextUp lower).isFinite then
        m.nextUp lower
      else direct
    | .gt => direct
  else direct

def directedPointPair (x : MpfrFloat) (f : Round → MpfrFloat → MpfrFloat × Ordering) :
    MpfrFloat × MpfrFloat :=
  let lower := f .down x
  (lower.1, upwardFromDownward m x lower.1 lower.2 f)

/-- `[-1, 1]`. -/
def fullRange (p : Nat) : MpfrInterval := arithmeticResult (.ofInt p (-1)) (.ofInt p 1)

def lipschitzTrig (a : MpfrInterval) (sine : Bool) : Run MpfrInterval := do
  let p := a.precision
  if !a.isValid then return invalid p
  match ← trigCenter m a with
  | none => return fullRange p
  | some (midpoint, radius) =>
    let pair := directedPointPair m midpoint (if sine then m.sin else m.cos)
    return trigWidened m pair.1 pair.2 radius

def sin (a : MpfrInterval) : Run MpfrInterval := lipschitzTrig m a true

def cos (a : MpfrInterval) : Run MpfrInterval := lipschitzTrig m a false

/-- Sine and cosine from one shared downward evaluation. -/
def sinCos (a : MpfrInterval) : Run (MpfrInterval × MpfrInterval) := do
  let p := a.precision
  if !a.isValid then return (invalid p, invalid p)
  match ← trigCenter m a with
  | none => return (fullRange p, fullRange p)
  | some (midpoint, radius) =>
    let lower := m.sinCos .down midpoint
    let sinUpper := upwardFromDownward m midpoint lower.1.1 lower.1.2 m.sin
    let cosUpper := upwardFromDownward m midpoint lower.2.1 lower.2.2 m.cos
    return (trigWidened m lower.1.1 sinUpper radius, trigWidened m lower.2.1 cosUpper radius)

/-- `from_float`: the stored value at another precision, enclosed. -/
def fromFloat (value : MpfrFloat) (p : Nat) : Result MpfrInterval :=
  if value.isFinite = true ∧ m.precMin ≤ p ∧ p ≤ m.precMax then
    new (m.set p .down value) (m.set p .up value)
  else .error (.invalid "finite Float and supported precision required")

end

end MpfrInterval

/-! ## Complex balls -/

/-- The components are private too, and every constructor gives them one precision. -/
structure MpfrComplexBall where
  real : MpfrInterval
  imaginary : MpfrInterval
  equalPrecision : real.precision = imaginary.precision

namespace MpfrComplexBall

def validate (a : MpfrComplexBall) : Result Unit := do
  a.real.validate
  a.imaginary.validate
  if a.real.precision = a.imaginary.precision then .ok ()
  else .error (.invalid "complex ball component precision mismatch")

def new (real imaginary : MpfrInterval) : Result MpfrComplexBall := do
  real.validate
  imaginary.validate
  if h : real.precision = imaginary.precision then .ok { real, imaginary, equalPrecision := h }
  else .error (.invalid "complex ball components must have equal precision")

def precision (a : MpfrComplexBall) : Nat := a.real.precision

def requireCompatible (a b : MpfrComplexBall) : Result Unit := do
  a.validate
  b.validate
  if a.precision = b.precision then .ok ()
  else .error (.invalid ("complex ball precision mismatch: " ++ toString a.precision ++ " != " ++
    toString b.precision))

section
variable (m : Primitives)

def point (real imaginary : MpfrFloat) : Result MpfrComplexBall := do
  let real ← MpfrInterval.fromFloat m real real.precision
  let imaginary ← MpfrInterval.fromFloat m imaginary imaginary.precision
  new real imaginary

def add (a b : MpfrComplexBall) : Result MpfrComplexBall := do
  requireCompatible a b
  new (.add m a.real b.real) (.add m a.imaginary b.imaginary)

def sub (a b : MpfrComplexBall) : Result MpfrComplexBall := do
  requireCompatible a b
  new (.sub m a.real b.real) (.sub m a.imaginary b.imaginary)

def mul (a b : MpfrComplexBall) : Result MpfrComplexBall := do
  requireCompatible a b
  let ac := MpfrInterval.mul m a.real b.real
  let bd := MpfrInterval.mul m a.imaginary b.imaginary
  let ad := MpfrInterval.mul m a.real b.imaginary
  let bc := MpfrInterval.mul m a.imaginary b.real
  new (.sub m ac bd) (.add m ad bc)

def modulusSquared (a : MpfrComplexBall) : MpfrInterval :=
  .add m (.square m a.real) (.square m a.imaginary)

def reciprocal (a : MpfrComplexBall) : Result MpfrComplexBall := do
  a.validate
  let denominator := modulusSquared m a
  denominator.validate
  if denominator.containsZero then .error .divisionByZeroInterval
  else
    let real ← MpfrInterval.div m a.real denominator
    let imaginary ← MpfrInterval.div m a.imaginary.neg denominator
    new real imaginary

def div (a b : MpfrComplexBall) : Result MpfrComplexBall := do
  requireCompatible a b
  mul m a (← reciprocal m b)

def exp (a : MpfrComplexBall) : Run MpfrComplexBall := do
  let magnitude := MpfrInterval.exp m a.real
  let cos ← MpfrInterval.cos m a.imaginary
  let sin ← MpfrInterval.sin m a.imaginary
  lift (new (.mul m magnitude cos) (.mul m magnitude sin))

/-- The squaring loop: the product so far, the current factor and what remains. -/
def powuLoop (result factor : MpfrComplexBall) (remaining : Nat) : Result MpfrComplexBall :=
  if hremaining : 0 < remaining then
    let multiplied := if remaining % 2 = 1 then mul m result factor else .ok result
    let squared := if 0 < remaining / 2 then mul m factor factor else .ok factor
    multiplied >>= fun result => squared >>= fun factor => powuLoop result factor (remaining / 2)
  else .ok result
termination_by remaining
decreasing_by omega

def powu (a : MpfrComplexBall) (exponent : Nat) : Result MpfrComplexBall := do
  a.validate
  let p := a.precision
  let result ← point m (.ofInt p 1) (.ofInt p 0)
  powuLoop m result a exponent

end

end MpfrComplexBall

def evaluateComplexPolynomialMpfr (m : Primitives) (coefficientsAscending : List MpfrComplexBall)
    (argument : MpfrComplexBall) : Result MpfrComplexBall := do
  argument.validate
  coefficientsAscending.forM fun coefficient => coefficient.validate
  match coefficientsAscending.reverse with
  | [] => .error (.invalid "complex polynomial must contain at least one coefficient")
  | highest :: rest =>
    if coefficientsAscending.any fun coefficient => coefficient.precision != argument.precision then
      .error (.invalid "complex polynomial coefficient precision mismatch")
    else
      rest.foldlM (fun value coefficient => do
        MpfrComplexBall.add m (← MpfrComplexBall.mul m value argument) coefficient) highest

end Xcelerator.Numerics.MpfrBall
