import Mathlib
import Xcelerator.Core.DecimalLiteral
import Xcelerator.Numerics.DecimalPersistence
import Xcelerator.Numerics.MpfrBall
import Xcelerator.Numerics.PortableFloat

/-! # Interval Newton isolation

The interval Newton iteration over inclusion callbacks, the certificate it publishes and
the replay that verifies one. MPFR is the parameter `Primitives`; `Decimals` has the
library's conversions between floats and decimal text. -/

namespace Xcelerator.Root.IntervalNewton
open Xcelerator.Core (DecimalLiteral)
open Xcelerator.Foundations.BinaryRounding (Round)
open Xcelerator.Numerics.DecimalPersistence (Conversions decimalStringRound roundtripDecimalDigits)
open Xcelerator.Numerics.Interval (IntervalError)
open Xcelerator.Numerics.MpfrBall (Enclosing MpfrInterval)
open Xcelerator.Numerics.MpfrFloat
open Xcelerator.Numerics.PortableFloat (PortableHpInterval)

inductive RootError where
  | invalidConfiguration (message : String)
  | evaluation (message : String)
deriving DecidableEq, Repr

/-- How a run can stop without a result. -/
inductive Stop where
  | error (error : RootError)
  | panic (message : String)
deriving DecidableEq, Repr

abbrev Run := Except Stop

/-- What `Float::parse` reads: an exact number, or a special value. -/
inductive Parsed where
  | number (value : ℚ)
  | special (negative nan : Bool)

structure Decimals where
  /-- The conversions to decimal digits, in each direction. -/
  conversions : Round → Conversions
  /-- `Float::parse`. -/
  parse : List Char → Except String Parsed
  /-- `Float::with_val_round` of what was read. -/
  withValRound : Nat → Round → Parsed → MpfrFloat

/-- The library in force. -/
structure Library where
  mpfr : Primitives
  decimals : Decimals
  /-- The exponent that MPFR reports for a zero. -/
  zeroExponent : Int

def Library.portable (m : Library) : Numerics.PortableFloat.Mpfr :=
  ⟨m.mpfr.expMin, m.mpfr.expMax, m.zeroExponent⟩

structure RealIntervalFunctionHp where
  evaluateInterval : MpfrInterval → Except RootError MpfrInterval
  derivativeInterval : MpfrInterval → Except RootError MpfrInterval

inductive IntervalRootStatus where
  | certifiedUnique
  | excludedNoRoot
  | inconclusive
deriving DecidableEq, Repr

inductive IntervalRootEndpointEncoding where
  | storedBinaryNearestV1
  | outwardDecimalV2
deriving DecidableEq, Repr

structure IntervalNewtonWitness where
  interval : PortableHpInterval
  iteration : Nat
  contractionSteps : Nat
deriving DecidableEq

structure IntervalRootCertificate where
  schemaVersion : Nat
  endpointEncoding : IntervalRootEndpointEncoding
  uniquenessWitness : Option IntervalNewtonWitness
  lower : List Char
  upper : List Char
  precisionBits : Nat
  iterations : Nat
  status : IntervalRootStatus
  uniquenessWitnessed : Bool
  reason : String
deriving DecidableEq

structure IntervalNewtonOptions where
  widthTolerance : DecimalLiteral
  maximumIterations : Nat

/-! ## Errors -/

def invalidConfiguration {α : Type} (message : String) : Run α :=
  .error (.error (.invalidConfiguration message))

def evaluation {α : Type} (message : String) : Run α := .error (.error (.evaluation message))

def configured {α : Type} (x : Except String α) : Run α :=
  x.mapError fun message => .error (.invalidConfiguration message)

def evaluated {α : Type} (x : Numerics.Interval.Result α) : Run α :=
  x.mapError fun error => .error (.evaluation error.display)

def called {α : Type} (x : Except RootError α) : Run α := x.mapError .error

/-- A portable conversion; a bit count beyond `u32` is a panic. -/
def stored {α : Type} (x : Numerics.PortableFloat.Outcome α) : Run α :=
  x.mapError fun failure => match failure with
    | .format message => .error (.evaluation message)
    | .overflow => .panic "bit count exceeds u32"

/-- `midpoint_point` and its expectations. -/
def expected {α : Type} (x : Numerics.Interval.Run α) : Run α :=
  x.mapError fun stop => match stop with
    | .error error => .error (.evaluation error.display)
    | .panic message => .panic message

def refuse (condition : Bool) (error : RootError) : Run Unit :=
  if condition then .error (.error error) else .ok ()

/-! ## Intervals -/

def smaller (x y : MpfrFloat) : MpfrFloat := if x.le y then x else y

/-- For valid operands of one precision `lower <= upper` is the whole contract. -/
def tryIntersection (a b : MpfrInterval) : Numerics.Interval.Result (Option MpfrInterval) := do
  a.validate
  b.validate
  if a.precision = b.precision then
    if h : Enclosing (MpfrInterval.larger a.lower b.lower) (smaller a.upper b.upper) then
      return some ⟨_, _, .inl h⟩
    else return none
  else .error (.invalid "MPFR interval precision mismatch")

def isSubsetOf (a b : MpfrInterval) : Bool :=
  a.precision == b.precision && a.isValid && b.isValid && b.lower.le a.lower && a.upper.le b.upper

def isInteriorSubsetOf (a b : MpfrInterval) : Bool :=
  a.precision == b.precision && a.isValid && b.isValid && b.lower.lt a.lower && a.upper.lt b.upper

section
variable (m : Library)

def width (a : MpfrInterval) : MpfrFloat := m.mpfr.sub a.precision .up a.upper a.lower

/-! ## The Newton step -/

/-- `check_enclosure`, `check`: a valid interval of the run's precision. -/
def checkEnclosure (message : String) (p : Nat) (value : MpfrInterval) : Run Unit := do
  evaluated value.validate
  refuse (value.precision != p) (.evaluation message)

/-- The Newton image of an interval; none where the derivative enclosure contains zero. -/
def newtonImage (message : String) (p : Nat) (function : RealIntervalFunctionHp)
    (current : MpfrInterval) :
    Run (Option MpfrInterval) := do
  let derivative ← called (function.derivativeInterval current)
  checkEnclosure message p derivative
  if derivative.containsZero then return none
  else do
    let midpoint ← expected (MpfrInterval.midpointPoint m.mpfr current)
    let value ← called (function.evaluateInterval midpoint)
    checkEnclosure message p value
    let quotient ← evaluated (MpfrInterval.div m.mpfr value derivative)
    let image := MpfrInterval.sub m.mpfr midpoint quotient
    checkEnclosure message p image
    return some image

def IntervalNewtonOptions.validate (options : IntervalNewtonOptions) (p : Nat) : Run MpfrFloat := do
  refuse (options.maximumIterations == 0)
    (.invalidConfiguration "interval Newton maximum_iterations must be positive")
  configured (DecimalLiteral.validateStr options.widthTolerance.text)
  refuse (!decide (32 ≤ p ∧ p ≤ 1000000))
    (.invalidConfiguration "interval Newton precision must be in 32..=1000000")
  let parsed ← configured (m.decimals.parse options.widthTolerance.text)
  refuse (!(m.decimals.withValRound p .up parsed).isFinite)
    (.invalidConfiguration "interval Newton tolerance exceeds the finite exponent range")
  let tolerance := m.decimals.withValRound p .down parsed
  refuse (!tolerance.isFinite || tolerance.le (.ofInt p 0))
    (.invalidConfiguration "interval Newton width tolerance must be positive")
  return tolerance

/-! ## Certificates -/

/-- `decimal_string_round`, whose expectation is a decimal exponent. -/
def decimalText (value : MpfrFloat) (digits : Nat) (round : Round) : Run (List Char) :=
  match decimalStringRound (m.decimals.conversions round) value (some digits) with
  | some bytes => .ok (bytes.map fun byte => Char.ofNat byte.toNat)
  | none => .error (.panic "normal MPFR value has a decimal exponent")

def certificateDigits (p : Nat) : Nat := max (roundtripDecimalDigits p) 32

def intervalRootCertificate (interval : MpfrInterval) (iterations : Nat)
    (status : IntervalRootStatus)
    (uniquenessWitnessed : Bool) (witness : Option IntervalNewtonWitness) (reason : String) :
    Run IntervalRootCertificate := do
  let digits := certificateDigits interval.precision
  let lower ← decimalText m interval.lower digits .down
  let upper ← decimalText m interval.upper digits .up
  return { schemaVersion := 2, endpointEncoding := .outwardDecimalV2, uniquenessWitness :=
    witness, lower, upper
           precisionBits := interval.precision, iterations, status, uniquenessWitnessed, reason }

def parseBound (p : Nat) (text : List Char) (round : Round) : Run MpfrFloat :=
  match m.decimals.parse text with
  | .ok parsed => .ok (m.decimals.withValRound p round parsed)
  | .error message => evaluation message

/-! ## Replay -/

def replayMismatch : String := "interval replay callback precision mismatch"

/-- The steps of the replay; none when one of them proves nothing. -/
def replay (p : Nat) (function : RealIntervalFunctionHp) :
    Nat → Bool → MpfrInterval → Run (Option MpfrInterval)
  | 0, _, current => return some current
  | steps + 1, first, current => do
    match ← newtonImage m replayMismatch p function current with
    | none => return none
    | some image =>
      if first && !isInteriorSubsetOf image current then return none
      else
        match ← evaluated (tryIntersection current image) with
        | none => return none
        | some next => replay p function steps false next

/-- The checks of a certificate that need no callback. -/
def replayable (certificate : IntervalRootCertificate) (witness : IntervalNewtonWitness) : Bool :=
  witness.iteration != 0 && witness.contractionSteps != 0 &&
    decide (witness.iteration + (witness.contractionSteps - 1) < 2 ^ 64) &&
    witness.iteration + (witness.contractionSteps - 1) == certificate.iterations &&
    decide (witness.contractionSteps ≤ 1000000) &&
    decide (32 ≤ certificate.precisionBits ∧ certificate.precisionBits ≤ 1000000)

/-- The comparison of the replayed interval with the printed decimals. -/
def published (certificate : IntervalRootCertificate) (original current : MpfrInterval) :
    Run Bool := do
  let p := certificate.precisionBits
  let outerLower ← parseBound m p certificate.lower .down
  let outerUpper ← parseBound m p certificate.upper .up
  let outer ← evaluated (MpfrInterval.new outerLower outerUpper)
  let innerLower ← parseBound m p certificate.lower .up
  let innerUpper ← parseBound m p certificate.upper .down
  if innerUpper.lt innerLower then return false
  else do
    let inward ← evaluated (MpfrInterval.new innerLower innerUpper)
    return isSubsetOf current inward && isSubsetOf outer original

def verifyIntervalRootCertificateHp (function : RealIntervalFunctionHp)
    (certificate : IntervalRootCertificate) :
    Run Bool :=
  if certificate.schemaVersion != 2 || certificate.endpointEncoding != .outwardDecimalV2 ||
      certificate.status != .certifiedUnique || !certificate.uniquenessWitnessed then return false
  else
    match certificate.uniquenessWitness with
    | none => return false
    | some witness =>
      if !replayable certificate witness then return false
      else do
        let bounds ← stored (witness.interval.toBounds m.portable)
        if bounds.1.precision != certificate.precisionBits ||
            bounds.2.precision != certificate.precisionBits then
          return false
        else do
          let original ← evaluated (MpfrInterval.new bounds.1 bounds.2)
          match ← replay m certificate.precisionBits function witness.contractionSteps true original
            with
          | none => return false
          | some current => published m certificate original current

/-! ## The iteration -/

structure NewtonState where
  current : MpfrInterval
  uniquenessWitnessed : Bool
  witness : Option IntervalNewtonWitness

def callbackMismatch : String := "interval callback precision mismatch"

/-- A new witness where the image is inside the interval. -/
def recordWitness (state : NewtonState) (iteration : Nat) (image : MpfrInterval) :
    Run NewtonState :=
  if isInteriorSubsetOf image state.current then do
    let interval ← stored (PortableHpInterval.fromBounds m.portable state.current.lower
      state.current.upper)
    return { state with uniquenessWitnessed := true, witness := some ⟨interval, iteration, 0⟩ }
  else return state

def NewtonState.contract (state : NewtonState) (next : MpfrInterval) : NewtonState :=
  { state with
    current := next
    witness := state.witness.map fun witness =>
      { witness with contractionSteps := witness.contractionSteps + 1 } }

def displayPrecision (p : Nat) : Nat := min (p + 64) 1000000

/-- The difference of the printed bounds, read outward: the subtraction of two floats is to
nearest. -/
def publishedWidth (p : Nat) (lower upper : List Char) : Run MpfrFloat := do
  let upper ← parseBound m (displayPrecision p) upper .up
  let lower ← parseBound m (displayPrecision p) lower .down
  return m.mpfr.set (displayPrecision p) .up (m.mpfr.sub (displayPrecision p) .nearest upper lower)

def certifiedReason : String :=
  "recorded strict interval Newton witness and subsequent contractions establish the published root enclosure"

/-- The certificate of a witnessed interval within the tolerance, where it verifies. -/
def certify (function : RealIntervalFunctionHp) (options : IntervalNewtonOptions)
    (state : NewtonState) (iteration : Nat) : Run (Option IntervalRootCertificate) := do
  let report ← intervalRootCertificate m state.current iteration .certifiedUnique true state.witness
    certifiedReason
  let width ← publishedWidth m state.current.precision report.lower report.upper
  let exactToleranceFloor ← parseBound m (displayPrecision state.current.precision)
    options.widthTolerance.text .down
  if width.le exactToleranceFloor then do
    let verified ← verifyIntervalRootCertificateHp m function report
    return if verified then some report else none
  else return none

def newtonLoop (function : RealIntervalFunctionHp) (options : IntervalNewtonOptions) (p : Nat)
    (tolerance : MpfrFloat) :
    Nat → Nat → NewtonState → Run IntervalRootCertificate
  | 0, _, state =>
    intervalRootCertificate m state.current options.maximumIterations .inconclusive
      state.uniquenessWitnessed
      state.witness (if state.uniquenessWitnessed then
        "interval Newton iteration limit reached before the width target"
      else "interval Newton did not establish strict self-inclusion; uniqueness remains unresolved even if the width target was met")
  | remaining + 1, iteration, state => do
    match ← newtonImage m callbackMismatch p function state.current with
    | none =>
      intervalRootCertificate m state.current iteration .inconclusive state.uniquenessWitnessed
        state.witness
        "derivative enclosure contains zero"
    | some image =>
      let state ← recordWitness m state iteration image
      match ← evaluated (tryIntersection state.current image) with
      | none =>
        intervalRootCertificate m state.current iteration .excludedNoRoot false none
          "interval Newton image is disjoint from the candidate interval"
      | some next =>
        let state := state.contract next
        if state.uniquenessWitnessed && (width m state.current).le tolerance then do
          match ← certify m function options state iteration with
          | some report => return report
          | none => newtonLoop function options p tolerance remaining (iteration + 1) state
        else newtonLoop function options p tolerance remaining (iteration + 1) state

end

end Xcelerator.Root.IntervalNewton
