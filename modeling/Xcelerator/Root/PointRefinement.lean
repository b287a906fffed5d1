import Mathlib
import Xcelerator.Cache.Basic
import Xcelerator.Root.IntervalNewton

/-! # Point refinement of bracketed roots

Bisection and safeguarded Newton at a working precision, and the batch of refinements
in input order. MPFR is the parameter `Library`; `cancelled` answers the checks of the
token in the order they are made. -/

namespace Xcelerator.Root.PointRefinement
open Xcelerator.Core (DecimalLiteral)
open Xcelerator.Foundations.BinaryRounding (Round)
open Xcelerator.Numerics.DecimalPersistence (decimalStringRound roundtripDecimalDigits)
open Xcelerator.Numerics.MpfrBall (MpfrInterval)
open Xcelerator.Numerics.MpfrFloat
open Xcelerator.Root.IntervalNewton (Library)

inductive RootError where
  | invalidConfiguration (message : String)
  | evaluation (message : String)
  | noBracket (message : String)
  | nonConvergence (message : String)
  | poleCollision (message : String)
  | cancelled (message : String)
deriving DecidableEq, Repr

/-- How a run can stop without a result. -/
inductive Stop where
  | error (error : RootError)
  | panic (message : String)
deriving DecidableEq, Repr

abbrev Run := Except Stop

/-- A callback answers an argument and a requested precision. -/
structure RealFunctionHp where
  evaluate : MpfrFloat → Nat → Except RootError MpfrFloat
  derivative : MpfrFloat → Nat → Except RootError MpfrFloat

structure RootStoppingHp where
  xTolerance : DecimalLiteral
  residualTolerance : DecimalLiteral
  maximumIterations : Nat

inductive RootConvergenceCriterion where
  | unspecified
  | observedZero
  | residual
  | bracketWidth
  | residualAndBracketWidth
deriving DecidableEq, Repr

inductive RootApproximationStatus where
  | discovered
  | refined
  | approximate
  | crossChecked
  | certified
  | duplicate
  | unresolved
  | inconclusive
  | tooCloseToPole
  | failed
deriving DecidableEq, Repr

structure RootApproximationHp where
  midpoint : List Char
  lower : List Char
  upper : List Char
  residual : List Char
  derivativeMagnitude : Option (List Char)
  precisionBits : Nat
  iterations : Nat
  functionEvaluations : Nat
  derivativeEvaluations : Nat
  newtonSteps : Nat
  status : RootApproximationStatus
  convergenceCriterion : RootConvergenceCriterion
  method : String
deriving DecidableEq

def convergenceCriterion (zero residual width : Bool) : RootConvergenceCriterion :=
  match zero, residual, width with
  | true, _, _ => .observedZero
  | false, true, true => .residualAndBracketWidth
  | false, true, false => .residual
  | false, false, true => .bracketWidth
  | false, false, false => .unspecified

/-! ## Errors -/

def fail {α : Type} (error : RootError) : Run α := .error (.error error)

def refuse (condition : Bool) (error : RootError) : Run Unit :=
  if condition then fail error else .ok ()

def called {α : Type} (x : Except RootError α) : Run α := x.mapError .error

def configured {α : Type} (x : Except String α) : Run α :=
  x.mapError fun message => .error (.invalidConfiguration message)

/-- A comparison of literals, whose arithmetic panics where it overflows. -/
def compared {α : Type} (x : DecimalLiteral.Outcome α) : Run α :=
  x.mapError fun failure => match failure with
    | .config message => .error (.invalidConfiguration message)
    | .fault _ => .panic "decimal comparison"

def evaluated {α : Type} (x : Numerics.Interval.Result α) : Run α :=
  x.mapError fun error => .error (.evaluation error.display)

def expected {α : Type} (x : Numerics.Interval.Run α) : Run α :=
  x.mapError fun stop => match stop with
    | .error error => .error (.evaluation error.display)
    | .panic message => .panic message

/-- The text of the token, where it is cancelled. -/
def checkCancellation (cancelled : Option String) : Run Unit :=
  match cancelled with
  | some message => fail (.cancelled message)
  | none => .ok ()

/-! ## Configuration -/

def zeroLiteral : DecimalLiteral := ⟨['0']⟩

def validateTolerance (name : String) (value : DecimalLiteral) : Run Unit := do
  configured (DecimalLiteral.validateStr value.text)
  let ordering ← compared (value.cmpNumeric zeroLiteral)
  refuse (ordering != .gt) (.invalidConfiguration (name ++ " must be strictly positive"))

def RootStoppingHp.validate (stopping : RootStoppingHp) : Run Unit := do
  validateTolerance "x_tolerance" stopping.xTolerance
  validateTolerance "residual_tolerance" stopping.residualTolerance
  refuse (stopping.maximumIterations == 0)
    (.invalidConfiguration "maximum_iterations must be positive")

def isZero (x : MpfrFloat) : Bool :=
  match x.datum with
  | .zero _ => true
  | _ => false

section
variable (m : Library)

def parseHpDecimal (value : DecimalLiteral) (p : Nat) : Run MpfrFloat := do
  refuse (!decide (32 ≤ p ∧ p ≤ 1000000))
    (.invalidConfiguration "HP decimal precision is outside 32..=1000000")
  configured (DecimalLiteral.validateStr value.text)
  let parsed ← configured (m.decimals.parse value.text)
  let result := m.decimals.withValRound p .nearest parsed
  let ordering ← compared (value.cmpNumeric zeroLiteral)
  refuse (!result.isFinite || (isZero result && ordering != .eq))
    (.invalidConfiguration "HP decimal is outside the representable exponent range")
  return result

def parseHpTolerance (value : DecimalLiteral) (p : Nat) : Run MpfrFloat := do
  let nearest ← parseHpDecimal m value p
  refuse (nearest.le (.ofInt p 0)) (.invalidConfiguration "HP tolerance must be strictly positive")
  let parsed ← configured (m.decimals.parse value.text)
  let lower := m.decimals.withValRound p .down parsed
  refuse (lower.le (.ofInt p 0)) (.invalidConfiguration "HP tolerance underflowed")
  return lower

/-! ## Pieces of a step -/

def hpBracketMidpoint (lower upper : MpfrFloat) : Run MpfrFloat := do
  let interval ← evaluated (MpfrInterval.new lower upper)
  let midpoint ← expected (MpfrInterval.midpointPoint m.mpfr interval)
  return midpoint.lower

/-- The difference of two floats, rounded upward once. -/
def hpDifferenceUp (left right : MpfrFloat) (p : Nat) : MpfrFloat :=
  if right.le left then m.mpfr.sub p .up left right else m.mpfr.sub p .up right left

def hpString (value : MpfrFloat) (p : Nat) : Run (List Char) :=
  match decimalStringRound (m.decimals.conversions .nearest) value
    (some (max (roundtripDecimalDigits p) 32)) with
  | some bytes => .ok (bytes.map fun byte => Char.ofNat byte.toNat)
  | none => .error (.panic "normal MPFR value has a decimal exponent")

def hpSameNonzeroSign (left right : MpfrFloat) : Bool :=
  !isZero left && !isZero right && left.isSignNegative == right.isSignNegative

def checkedHpCallbackPrecision (value : MpfrFloat) (p : Nat) : Run MpfrFloat := do
  refuse (decide (value.precision < p))
    (.evaluation ("HP callback returned " ++ toString value.precision ++ "-bit arithmetic for a " ++
      toString p ++ "-bit request"))
  return m.mpfr.set p .nearest value

def checkedHpEvaluate (function : RealFunctionHp) (x : MpfrFloat) (p : Nat) : Run MpfrFloat := do
  refuse (!x.isFinite) (.evaluation "nonfinite HP root argument")
  let raw ← called (function.evaluate x p)
  let value ← checkedHpCallbackPrecision m raw p
  refuse (!value.isFinite) (.evaluation "nonfinite HP root function value")
  return value

def checkedHpDerivative (function : RealFunctionHp) (x : MpfrFloat) (p : Nat) : Run MpfrFloat := do
  let raw ← called (function.derivative x p)
  checkedHpCallbackPrecision m raw p

/-- A bracket and the observed values at its ends. -/
structure Bracket where
  lower : MpfrFloat
  upper : MpfrFloat
  fLower : MpfrFloat
  fUpper : MpfrFloat

/-- `upper = x` where the left part keeps a sign change, else `lower = x`. -/
def Bracket.narrow (bracket : Bracket) (x fx : MpfrFloat) : Bracket :=
  if !hpSameNonzeroSign bracket.fLower fx then { bracket with upper := x, fUpper := fx }
  else { bracket with lower := x, fLower := fx }

abbrev Residuals := List (MpfrFloat × MpfrFloat)

def Bracket.residuals (bracket : Bracket) : MpfrFloat × MpfrFloat :=
  (bracket.fLower.abs, bracket.fUpper.abs)

/-- The residuals grew over the last eight brackets. -/
def localGrowth (bracket : Bracket) (localResiduals : Residuals) : Bool :=
  match localResiduals with
  | [] => false
  | (a, b) :: _ =>
    localResiduals.length == 8 && a.le bracket.residuals.1 && b.le bracket.residuals.2 &&
      (a.lt bracket.residuals.1 || b.lt bracket.residuals.2)

def pushResiduals (bracket : Bracket) (localResiduals : Residuals) : Residuals :=
  let pushed := localResiduals ++ [bracket.residuals]
  if 8 < pushed.length then pushed.tail else pushed

/-- The counters of a run. -/
structure Counters where
  functionEvaluations : Nat
  derivativeEvaluations : Nat
  newtonSteps : Nat

structure Tolerances where
  x : MpfrFloat
  residual : MpfrFloat

/-- The record of an observed zero at an end of the bracket. -/
def endpointRecord (endpoint : MpfrFloat) (p functionEvaluations : Nat) (method : String) :
    Run RootApproximationHp := do
  let text ← hpString m endpoint p
  return { midpoint := text, lower := text, upper := text, residual :=
    ['0'], derivativeMagnitude := none
           precisionBits := p, iterations := 0, functionEvaluations, derivativeEvaluations := 0,
             newtonSteps := 0
           status := .refined, convergenceCriterion := .observedZero, method }

/-- The finite derivative at the last point, a diagnostic only. -/
def finalDerivative (function : RealFunctionHp) (x : MpfrFloat) (p : Nat) : Option MpfrFloat :=
  (checkedHpDerivative m function x p).toOption.filter (·.isFinite)

def finish (function : RealFunctionHp) (p : Nat) (method : String) (bracket : Bracket)
    (x fx : MpfrFloat)
    (residualMet widthMet : Bool) (iteration : Nat) (counters : Counters) :
    Run RootApproximationHp := do
  let derivative := finalDerivative m function x p
  let derivativeMagnitude ← derivative.mapM fun value => hpString m value.abs p
  let midpoint ← hpString m x p
  let lower ← hpString m bracket.lower p
  let upper ← hpString m bracket.upper p
  let residual ← hpString m fx.abs p
  return { midpoint, lower, upper, residual, derivativeMagnitude, precisionBits :=
          p, iterations := iteration
           functionEvaluations := counters.functionEvaluations
           derivativeEvaluations :=
             counters.derivativeEvaluations + (if derivative.isSome then 1 else 0)
           newtonSteps := counters.newtonSteps, status := .refined
           convergenceCriterion := convergenceCriterion (isZero fx.abs) residualMet widthMet,
             method }

/-- The stopping tests at one point: the record, or the residuals to go on with. -/
def assess (function : RealFunctionHp) (p : Nat) (method : String) (tolerances : Tolerances)
    (growth : String)
    (bracket : Bracket) (localResiduals : Residuals) (x fx : MpfrFloat) (iteration : Nat)
    (counters : Counters) :
    Run (RootApproximationHp ⊕ Residuals) := do
  let residualMet := fx.abs.le tolerances.residual
  let widthMet := (hpDifferenceUp m bracket.upper bracket.lower p).le tolerances.x
  refuse (widthMet && !isZero fx.abs && localGrowth bracket localResiduals) (.nonConvergence growth)
  if isZero fx.abs || widthMet then
    .inl <$> finish m function p method bracket x fx residualMet widthMet iteration counters
  else return .inr (pushResiduals bracket localResiduals)

def growthMessage : String :=
  "narrow HP bracket has a growing residual; continuity or pole exclusion is unresolved"

/-- The common beginning: the checks, the tolerances, the rounded bracket and its values. -/
def openBracket (function : RealFunctionHp) (lower upper : MpfrFloat) (p : Nat) (refusal : String)
    (inside : Bool)
    (stopping : RootStoppingHp) (cancelled : Nat → Option String) : Run (Tolerances × Bracket) := do
  checkCancellation (cancelled 0)
  stopping.validate
  refuse (!decide (32 ≤ p ∧ p ≤ 1000000) || !lower.isFinite || !upper.isFinite ||
    upper.le lower || !inside)
    (.invalidConfiguration refusal)
  let x ← parseHpTolerance m stopping.xTolerance p
  let residual ← parseHpTolerance m stopping.residualTolerance p
  let lower := m.mpfr.set p .nearest lower
  let upper := m.mpfr.set p .nearest upper
  refuse (!lower.isFinite || !upper.isFinite || upper.le lower)
    (.invalidConfiguration "HP bracket collapsed at working precision")
  let fLower ← checkedHpEvaluate m function lower p
  let fUpper ← checkedHpEvaluate m function upper p
  return (⟨x, residual⟩, ⟨lower, upper, fLower, fUpper⟩)

/-! ## Bisection -/

def bisectionMethod : String := "bisection_hp_position_local_guard_v3"

def bisectLoop (function : RealFunctionHp) (p : Nat) (stopping : RootStoppingHp)
    (tolerances : Tolerances)
    (cancelled : Nat → Option String) : Nat → Nat → Bracket → Residuals → Run RootApproximationHp
  | 0, _, _, _ =>
    fail (.nonConvergence ("HP bisection exceeded " ++ toString stopping.maximumIterations ++
      " iterations"))
  | remaining + 1, iteration, bracket, localResiduals => do
    checkCancellation (cancelled iteration)
    let midpoint ← hpBracketMidpoint m bracket.lower bracket.upper
    let fMidpoint ← checkedHpEvaluate m function midpoint p
    match ← assess m function p bisectionMethod tolerances growthMessage bracket localResiduals
      midpoint fMidpoint
        iteration ⟨iteration + 2, 0, 0⟩ with
    | .inl record => return record
    | .inr residuals =>
      bisectLoop function p stopping tolerances cancelled remaining (iteration + 1)
        (bracket.narrow midpoint fMidpoint)
        residuals

def bisectHpControlled (function : RealFunctionHp) (lower upper : MpfrFloat) (p : Nat)
    (stopping : RootStoppingHp) (cancelled : Nat → Option String) : Run RootApproximationHp := do
  let (tolerances, bracket) ← openBracket m function lower upper p
    "HP bisection requires precision >= 32 and lower < upper" true stopping cancelled
  if isZero bracket.fLower then endpointRecord m bracket.lower p 2 bisectionMethod
  else if isZero bracket.fUpper then endpointRecord m bracket.upper p 2 bisectionMethod
  else if hpSameNonzeroSign bracket.fLower bracket.fUpper then
    fail (.noBracket "HP bisection endpoint signs agree")
  else bisectLoop m function p stopping tolerances cancelled stopping.maximumIterations 1 bracket []

/-! ## Safeguarded Newton -/

def newtonMethod : String := "safeguarded_newton_hp_position_local_guard_v3"

def validDerivative (p : Nat) (derivative : MpfrFloat) : Bool :=
  derivative.isFinite && !derivative.eq (.ofInt p 0)

def candidate (p : Nat) (x fx derivative : MpfrFloat) : MpfrFloat :=
  if validDerivative p derivative then m.mpfr.sub p .nearest x (m.mpfr.div p .nearest fx derivative)
    else x

/-- The Newton candidate where it is well inside the bracket, else the midpoint, and whether it was
taken. -/
def nextPoint (p : Nat) (bracket : Bracket) (x fx derivative : MpfrFloat) :
    Run (MpfrFloat × Bool) := do
  let candidate := candidate m p x fx derivative
  let center ← hpBracketMidpoint m bracket.lower bracket.upper
  let interiorLower ← hpBracketMidpoint m bracket.lower center
  let interiorUpper ← hpBracketMidpoint m center bracket.upper
  if !validDerivative p derivative || !candidate.isFinite || candidate.le interiorLower ||
      interiorUpper.le candidate then do
    let midpoint ← hpBracketMidpoint m bracket.lower bracket.upper
    return (midpoint, false)
  else return (candidate, true)

def newtonLoop (function : RealFunctionHp) (p : Nat) (stopping : RootStoppingHp)
    (tolerances : Tolerances)
    (cancelled : Nat → Option String) : Nat → Nat → Bracket → Residuals → MpfrFloat → Nat →
    Run RootApproximationHp
  | 0, _, _, _, _, _ =>
    fail (.nonConvergence ("HP safeguarded Newton exceeded " ++
      toString stopping.maximumIterations ++ " iterations"))
  | remaining + 1, iteration, bracket, localResiduals, x, newtonSteps => do
    checkCancellation (cancelled iteration)
    let fx ← checkedHpEvaluate m function x p
    match ← assess m function p newtonMethod tolerances growthMessage bracket localResiduals x
      fx iteration
        ⟨iteration + 2, iteration - 1, newtonSteps⟩ with
    | .inl record => return record
    | .inr residuals => do
      let bracket := bracket.narrow x fx
      let derivative ← checkedHpDerivative m function x p
      let (next, taken) ← nextPoint m p bracket x fx derivative
      newtonLoop function p stopping tolerances cancelled remaining
        (iteration + 1) bracket residuals next
        (newtonSteps + (if taken then 1 else 0))

def safeguardedNewtonHpControlled (function : RealFunctionHp)
    (lower upper initial : MpfrFloat) (p : Nat)
    (stopping : RootStoppingHp) (cancelled : Nat → Option String) : Run RootApproximationHp := do
  let (tolerances, bracket) ← openBracket m function lower upper p
    "HP safeguarded Newton requires precision >= 32 and an initial point inside lower < upper"
    (initial.isFinite && !initial.lt lower && !upper.lt initial) stopping cancelled
  if isZero bracket.fLower || isZero bracket.fUpper then
    endpointRecord m (if isZero bracket.fLower then bracket.lower else
      bracket.upper) p 2 newtonMethod
  else if hpSameNonzeroSign bracket.fLower bracket.fUpper then
    fail (.noBracket "HP safeguarded Newton endpoint signs agree")
  else
    newtonLoop m function p stopping tolerances cancelled stopping.maximumIterations 1 bracket []
      (m.mpfr.set p .nearest initial) 0

/-! ## Batches -/

inductive HpRefinementMethod where
  | bisection
  | safeguardedNewton
deriving DecidableEq, Repr

structure HpRootRefinementTask where
  taskId : String
  lower : DecimalLiteral
  upper : DecimalLiteral
  initial : Option DecimalLiteral
  precisionBits : Nat
  stopping : RootStoppingHp
  method : HpRefinementMethod

structure HpRootRefinementOutcome where
  inputOrdinal : Nat
  taskId : String
  requestedPrecisionBits : Nat
  approximation : RootApproximationHp

variable (debug : String → String)

/-- The refinement that a task asks for, between parsed ends; `debug` is `{:?}` of a text. -/
def approximateTask (function : RealFunctionHp) (cancelled : Nat → Option String)
    (task : HpRootRefinementTask) (lower upper : MpfrFloat) : Run RootApproximationHp :=
  match task.method with
  | .bisection => bisectHpControlled m function lower upper task.precisionBits
      task.stopping cancelled
  | .safeguardedNewton =>
    match task.initial with
    | none => fail (.invalidConfiguration ("parallel HP Newton task " ++ debug task.taskId ++
        " lacks an initial point"))
    | some initial => do
      let initial ← parseHpDecimal m initial task.precisionBits
      safeguardedNewtonHpControlled m function lower upper initial task.precisionBits
        task.stopping cancelled

def refineTask (function : RealFunctionHp) (cancelled : Nat → Option String)
    (task : HpRootRefinementTask) (inputOrdinal : Nat) : Run HpRootRefinementOutcome := do
  checkCancellation (cancelled 0)
  let lower ← parseHpDecimal m task.lower task.precisionBits
  let upper ← parseHpDecimal m task.upper task.precisionBits
  let approximation ← approximateTask m debug function (fun check =>
    cancelled (check + 1)) task lower upper
  return ⟨inputOrdinal, task.taskId, task.precisionBits, approximation⟩

def validateTasks (seen : List String) : List HpRootRefinementTask → Run Unit
  | [] => .ok ()
  | task :: rest => do
    refuse (Cache.blank task.taskId || seen.contains task.taskId)
      (.invalidConfiguration "parallel HP root task identifiers must be nonempty and unique")
    task.stopping.validate
    validateTasks (task.taskId :: seen) rest

def panicOf {α : Type} : Run α → Option String
  | .error (.panic message) => some message
  | _ => none

/-- Every task runs with its own view of the token. All attempts are gathered before the first error
in input order is returned, whichever worker failed first; a panic of any worker is passed on. -/
def refineRootsParallelHp (function : RealFunctionHp) (tasks : List HpRootRefinementTask)
    (cancelled : Option String)
    (worker : Nat → Nat → Option String) : Run (List HpRootRefinementOutcome) := do
  refuse tasks.isEmpty (.invalidConfiguration
    "parallel HP root refinement requires at least one task")
  validateTasks [] tasks
  checkCancellation cancelled
  let attempts := tasks.zipIdx.map fun entry =>
    refineTask m debug function (worker entry.2) entry.1 entry.2
  match attempts.findSome? panicOf with
  | some message => .error (.panic message)
  | none => attempts.mapM id

end

end Xcelerator.Root.PointRefinement
