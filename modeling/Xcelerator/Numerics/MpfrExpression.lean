import Mathlib
import Xcelerator.Numerics.MpfrComplexSoundness
import Xcelerator.Numerics.MpfrIdeal

/-! # Expressions over MPFR intervals and complex balls

Expressions built from the operations of the two types, what the code computes
for them and what they stand for. One induction carries the enclosure of every
operation to whole expressions. -/

namespace Xcelerator.Numerics.MpfrExpression
open Xcelerator.Foundations.BinaryRounding (Round)
open Xcelerator.Foundations.DirectedRounding
open Xcelerator.Foundations.Machine (bind_eq_ok ok_bind)
open Xcelerator.Numerics.Interval (Result Run Stop lift lift_ok)
open Xcelerator.Numerics.MpfrFloat Xcelerator.Numerics.MpfrBall
  Xcelerator.Numerics.MpfrBallSoundness
open Xcelerator.Numerics.MpfrComplexSoundness Xcelerator.Numerics.MpfrIdeal

/-! ## Operations -/

inductive Unary where
  | neg
  | square
  | reciprocal
  | sqrt
  | exp
  | ln
  | atan
  | sin
  | cos
  | sinOfPair
  | cosOfPair
deriving DecidableEq, Repr

inductive Binary where
  | add
  | sub
  | mul
  | div
deriving DecidableEq, Repr

inductive BallUnary where
  | reciprocal
  | exp
  | powu (exponent : Nat)
deriving DecidableEq, Repr

section
variable (m : Primitives)

def applyUnary (op : Unary) (a : MpfrInterval) : Run MpfrInterval :=
  match op with
  | .neg => .ok a.neg
  | .square => .ok (.square m a)
  | .reciprocal => lift (MpfrInterval.reciprocal m a)
  | .sqrt => lift (MpfrInterval.sqrt m a)
  | .exp => .ok (.exp m a)
  | .ln => lift (MpfrInterval.ln m a)
  | .atan => .ok (.atan m a)
  | .sin => MpfrInterval.sin m a
  | .cos => MpfrInterval.cos m a
  | .sinOfPair => do return (← MpfrInterval.sinCos m a).1
  | .cosOfPair => do return (← MpfrInterval.sinCos m a).2

def applyBinary (op : Binary) (a b : MpfrInterval) : Run MpfrInterval :=
  match op with
  | .add => .ok (.add m a b)
  | .sub => .ok (.sub m a b)
  | .mul => .ok (.mul m a b)
  | .div => lift (MpfrInterval.div m a b)

def applyBallUnary (op : BallUnary) (a : MpfrComplexBall) : Run MpfrComplexBall :=
  match op with
  | .reciprocal => lift (MpfrComplexBall.reciprocal m a)
  | .exp => MpfrComplexBall.exp m a
  | .powu exponent => lift (MpfrComplexBall.powu m a exponent)

def applyBallBinary (op : Binary) (a b : MpfrComplexBall) : Run MpfrComplexBall :=
  match op with
  | .add => lift (MpfrComplexBall.add m a b)
  | .sub => lift (MpfrComplexBall.sub m a b)
  | .mul => lift (MpfrComplexBall.mul m a b)
  | .div => lift (MpfrComplexBall.div m a b)

end

noncomputable def Unary.value : Unary → ℝ → ℝ
  | .neg, x => -x
  | .square, x => x ^ 2
  | .reciprocal, x => 1 / x
  | .sqrt, x => √x
  | .exp, x => Real.exp x
  | .ln, x => Real.log x
  | .atan, x => Real.arctan x
  | .sin, x => Real.sin x
  | .cos, x => Real.cos x
  | .sinOfPair, x => Real.sin x
  | .cosOfPair, x => Real.cos x

noncomputable def Binary.value {K : Type} [Field K] : Binary → K → K → K
  | .add, x, y => x + y
  | .sub, x, y => x - y
  | .mul, x, y => x * y
  | .div, x, y => x / y

noncomputable def BallUnary.value : BallUnary → ℂ → ℂ
  | .reciprocal, z => 1 / z
  | .exp, z => Complex.exp z
  | .powu exponent, z => z ^ exponent

section
variable {m : Primitives} (hm : m.Correct)
include hm

/-- A valid result has a valid operand and encloses the value of the operation. -/
theorem applyUnary_sound {op : Unary} {a v : MpfrInterval} (h : applyUnary m op a = .ok v)
    (hv : Valid v) : Valid a ∧ ∀ x, Contains a x → Contains v (op.value x) := by
  have hpair : ∀ sine, MpfrInterval.lipschitzTrig m a sine = .ok v →
      Valid a ∧ ∀ x, Contains a x → Contains v (if sine then Real.sin x else Real.cos x) :=
    fun sine h => lipschitzTrig_spec hm sine h hv
  cases op with
  | neg =>
    cases h
    exact ⟨neg_valid hv, fun x hx => hx.neg⟩
  | square =>
    cases h
    exact ⟨square_valid hm hv, fun x hx => hx.square hm hv⟩
  | reciprocal =>
    replace h := lift_ok h
    obtain ⟨_, ha, _⟩ := bind_eq_ok h
    exact ⟨validate_valid ha, fun x hx => hx.reciprocal hm h⟩
  | sqrt =>
    replace h := lift_ok h
    obtain ⟨_, ha, _⟩ := bind_eq_ok h
    exact ⟨validate_valid ha, fun x hx => hx.sqrt hm h⟩
  | exp =>
    cases h
    exact ⟨exp_valid hm hv, fun x hx => hx.exp hm hv⟩
  | ln =>
    replace h := lift_ok h
    obtain ⟨_, ha, _⟩ := bind_eq_ok h
    exact ⟨validate_valid ha, fun x hx => hx.ln hm h⟩
  | atan =>
    cases h
    exact ⟨atan_valid hm hv, fun x hx => hx.atan hm hv⟩
  | sin => exact hpair true h
  | cos => exact hpair false h
  | sinOfPair =>
    obtain ⟨pair, hsinCos, h⟩ := bind_eq_ok h
    rw [sinCos_eq hm] at hsinCos
    obtain ⟨sin, hsin, hsinCos⟩ := bind_eq_ok hsinCos
    obtain ⟨cos, _, hsinCos⟩ := bind_eq_ok hsinCos
    cases hsinCos
    cases h
    exact hpair true hsin
  | cosOfPair =>
    obtain ⟨pair, hsinCos, h⟩ := bind_eq_ok h
    rw [sinCos_eq hm] at hsinCos
    obtain ⟨sin, _, hsinCos⟩ := bind_eq_ok hsinCos
    obtain ⟨cos, hcos, hsinCos⟩ := bind_eq_ok hsinCos
    cases hsinCos
    cases h
    exact hpair false hcos

theorem applyBinary_sound {op : Binary} {a b v : MpfrInterval} (h : applyBinary m op a b = .ok v)
    (hv : Valid v) :
    (Valid a ∧ Valid b) ∧ ∀ x y, Contains a x → Contains b y → Contains v (op.value x y) := by
  cases op with
  | add =>
    cases h
    exact ⟨(guarded_valid hv).1, fun x y hx hy => hx.add hm hy hv⟩
  | sub =>
    cases h
    exact ⟨(guarded_valid hv).1, fun x y hx hy => hx.sub hm hy hv⟩
  | mul =>
    cases h
    exact ⟨(guarded_valid hv).1, fun x y hx hy => hx.mul hm hy hv⟩
  | div =>
    replace h := lift_ok h
    obtain ⟨_, ha, hrest⟩ := bind_eq_ok h
    obtain ⟨_, hb, _⟩ := bind_eq_ok hrest
    exact ⟨⟨validate_valid ha, validate_valid hb⟩, fun x y hx hy => hx.div hm hy h⟩

theorem applyBallUnary_sound {op : BallUnary} {a v : MpfrComplexBall}
    (h : applyBallUnary m op a = .ok v) :
    BallValid a ∧ ∀ z, BallContains a z → BallContains v (op.value z) := by
  cases op with
  | reciprocal =>
    replace h := lift_ok h
    obtain ⟨_, ha, _⟩ := bind_eq_ok h
    exact ⟨ball_validate_iff.mp ha, fun z hz => hz.reciprocal hm h⟩
  | exp => exact exp_ok hm h
  | powu exponent =>
    replace h := lift_ok h
    obtain ⟨_, ha, _⟩ := bind_eq_ok h
    exact ⟨ball_validate_iff.mp ha, fun z hz => hz.powu hm h⟩

theorem applyBallBinary_sound {op : Binary} {a b v : MpfrComplexBall}
    (h : applyBallBinary m op a b = .ok v) :
    (BallValid a ∧ BallValid b) ∧
      ∀ z w, BallContains a z → BallContains b w → BallContains v (op.value z w) := by
  cases op with
  | add =>
    replace h := lift_ok h
    obtain ⟨_, hcompatible, _⟩ := bind_eq_ok h
    exact ⟨requireCompatible_ok hcompatible, fun z w hz hw => hz.add hm hw h⟩
  | sub =>
    replace h := lift_ok h
    obtain ⟨_, hcompatible, _⟩ := bind_eq_ok h
    exact ⟨requireCompatible_ok hcompatible, fun z w hz hw => hz.sub hm hw h⟩
  | mul =>
    replace h := lift_ok h
    obtain ⟨_, hcompatible, _⟩ := bind_eq_ok h
    exact ⟨requireCompatible_ok hcompatible, fun z w hz hw => hz.mul hm hw h⟩
  | div =>
    replace h := lift_ok h
    obtain ⟨_, hcompatible, _⟩ := bind_eq_ok h
    exact ⟨requireCompatible_ok hcompatible, fun z w hz hw => hz.div hm hw h⟩

end

/-! ## Expressions -/

inductive RealExpr where
  | input (index : Nat)
  | unary (op : Unary) (operand : RealExpr)
  | binary (op : Binary) (left right : RealExpr)

mutual
inductive BallExpr where
  | input (index : Nat)
  | components (real imaginary : RealExpr)
  | unary (op : BallUnary) (operand : BallExpr)
  | binary (op : Binary) (left right : BallExpr)
  | polynomial (coefficients : BallExprs) (argument : BallExpr)

inductive BallExprs where
  | nil
  | cons (head : BallExpr) (tail : BallExprs)
end

section
variable (m : Primitives) (intervals : Nat → MpfrInterval) (balls : Nat → MpfrComplexBall)

def RealExpr.eval : RealExpr → Run MpfrInterval
  | .input index => .ok (intervals index)
  | .unary op operand => do applyUnary m op (← operand.eval)
  | .binary op left right => do applyBinary m op (← left.eval) (← right.eval)

mutual
def BallExpr.eval : BallExpr → Run MpfrComplexBall
  | .input index => .ok (balls index)
  | .components real imaginary => do
    lift (MpfrComplexBall.new (← real.eval m intervals) (← imaginary.eval m intervals))
  | .unary op operand => do applyBallUnary m op (← operand.eval)
  | .binary op left right => do applyBallBinary m op (← left.eval) (← right.eval)
  | .polynomial coefficients argument => do
    lift (evaluateComplexPolynomialMpfr m (← coefficients.eval) (← argument.eval))

def BallExprs.eval : BallExprs → Run (List MpfrComplexBall)
  | .nil => .ok []
  | .cons head tail => do return (← head.eval) :: (← tail.eval)
end

end

section
variable (reals : Nat → ℝ) (complexes : Nat → ℂ)

noncomputable def RealExpr.value : RealExpr → ℝ
  | .input index => reals index
  | .unary op operand => op.value operand.value
  | .binary op left right => op.value left.value right.value

mutual
noncomputable def BallExpr.value : BallExpr → ℂ
  | .input index => complexes index
  | .components real imaginary => ⟨real.value reals, imaginary.value reals⟩
  | .unary op operand => op.value operand.value
  | .binary op left right => op.value left.value right.value
  | .polynomial coefficients argument => polynomialValue coefficients.value argument.value

noncomputable def BallExprs.value : BallExprs → List ℂ
  | .nil => []
  | .cons head tail => head.value :: tail.value
end

end

section
variable {m : Primitives} (hm : m.Correct) {intervals : Nat → MpfrInterval} {reals : Nat → ℝ}
  (hreals : ∀ i, Valid (intervals i) → Contains (intervals i) (reals i))
include hm hreals

theorem RealExpr.sound (e : RealExpr) {v : MpfrInterval} (h : e.eval m intervals = .ok v)
    (hv : Valid v) : Contains v (e.value reals) := by
  induction e generalizing v with
  | input index =>
    cases h
    exact hreals index hv
  | unary op operand ih =>
    obtain ⟨a, ha, h⟩ := bind_eq_ok h
    obtain ⟨hva, hcontains⟩ := applyUnary_sound hm h hv
    exact hcontains _ (ih ha hva)
  | binary op left right ihl ihr =>
    obtain ⟨a, ha, h⟩ := bind_eq_ok h
    obtain ⟨b, hb, h⟩ := bind_eq_ok h
    obtain ⟨⟨hva, hvb⟩, hcontains⟩ := applyBinary_sound hm h hv
    exact hcontains _ _ (ihl ha hva) (ihr hb hvb)

end

section
variable {m : Primitives} {intervals : Nat → MpfrInterval} {balls : Nat → MpfrComplexBall}
    {reals : Nat → ℝ}
  {complexes : Nat → ℂ}

mutual
theorem BallExpr.sound (hm : m.Correct)
    (hreals : ∀ i, Valid (intervals i) → Contains (intervals i) (reals i))
    (hcomplexes : ∀ i, BallValid (balls i) → BallContains (balls i) (complexes i)) (e : BallExpr)
    {v : MpfrComplexBall} (h : e.eval m intervals balls = .ok v) (hv : BallValid v) :
    BallContains v (e.value reals complexes) := by
  cases e with
  | input index =>
    cases h
    exact hcomplexes index hv
  | components real imaginary =>
    obtain ⟨re, hre, h⟩ := bind_eq_ok h
    obtain ⟨im, him, h⟩ := bind_eq_ok h
    replace h := lift_ok h
    obtain ⟨_, hvre, hvim⟩ := ball_new_ok h
    exact ball_new_contains h (RealExpr.sound hm hreals real hre hvre)
      (RealExpr.sound hm hreals imaginary him hvim)
  | unary op operand =>
    obtain ⟨a, ha, h⟩ := bind_eq_ok h
    obtain ⟨hva, hcontains⟩ := applyBallUnary_sound hm h
    exact hcontains _ (BallExpr.sound hm hreals hcomplexes operand ha hva)
  | binary op left right =>
    obtain ⟨a, ha, h⟩ := bind_eq_ok h
    obtain ⟨b, hb, h⟩ := bind_eq_ok h
    obtain ⟨⟨hva, hvb⟩, hcontains⟩ := applyBallBinary_sound hm h
    exact hcontains _ _ (BallExpr.sound hm hreals hcomplexes left ha hva)
      (BallExpr.sound hm hreals hcomplexes right hb hvb)
  | polynomial coefficients argument =>
    obtain ⟨cs, hcs, h⟩ := bind_eq_ok h
    obtain ⟨a, ha, h⟩ := bind_eq_ok h
    obtain ⟨⟨hva, hvcs⟩, hcontains⟩ := evaluateComplexPolynomialMpfr_ok hm (lift_ok h)
    exact hcontains _ _ (BallExprs.sound hm hreals hcomplexes coefficients hcs hvcs)
      (BallExpr.sound hm hreals hcomplexes argument ha hva)

theorem BallExprs.sound (hm : m.Correct)
    (hreals : ∀ i, Valid (intervals i) → Contains (intervals i) (reals i))
    (hcomplexes : ∀ i, BallValid (balls i) → BallContains (balls i) (complexes i)) (es : BallExprs)
    {vs : List MpfrComplexBall}
    (h : es.eval m intervals balls = .ok vs) (hv : ∀ v ∈ vs, BallValid v) :
    List.Forall₂ BallContains vs (es.value reals complexes) := by
  cases es with
  | nil =>
    cases h
    exact .nil
  | cons head tail =>
    obtain ⟨a, ha, h⟩ := bind_eq_ok h
    obtain ⟨rest, hrest, h⟩ := bind_eq_ok h
    cases h
    exact .cons (BallExpr.sound hm hreals hcomplexes head ha (hv a (by simp)))
      (BallExprs.sound hm hreals hcomplexes tail hrest fun v hmem => hv v (by simp [hmem]))
end

end

/-! ## Runs without a failed expectation -/

/-- A computation that ends in no failed expectation. -/
def Returns {α : Type} (x : Run α) : Prop := ∀ message, x ≠ .error (.panic message)

theorem returns_ok {α : Type} (v : α) : Returns (.ok v : Run α) := nofun

theorem returns_lift {α : Type} (x : Result α) : Returns (lift x) := by
  cases x <;> exact nofun

theorem Returns.bind {α β : Type} {x : Run α} {f : α → Run β} (hx : Returns x)
    (hf : ∀ a, x = .ok a → Returns (f a)) : Returns (x >>= f) := by
  cases x with
  | ok a => exact hf a rfl
  | error e =>
    intro message h
    cases h
    exact hx message rfl

section
variable {m : Primitives} (hm : m.Correct)
include hm

theorem lipschitzTrig_noPanic (a : MpfrInterval) (sine : Bool) :
    Returns (MpfrInterval.lipschitzTrig m a sine) := by
  obtain ⟨v, hv⟩ := lipschitzTrig_returns hm a sine
  rw [hv]
  exact returns_ok v

theorem sinCos_noPanic (a : MpfrInterval) : Returns (MpfrInterval.sinCos m a) := by
  rw [sinCos_eq hm]
  refine (lipschitzTrig_noPanic hm a true).bind fun sin _ => ?_
  exact (lipschitzTrig_noPanic hm a false).bind fun cos _ => returns_ok _

theorem applyUnary_noPanic (op : Unary) (a : MpfrInterval) : Returns (applyUnary m op a) := by
  cases op with
  | neg | square | exp | atan => exact returns_ok _
  | reciprocal | sqrt | ln => exact returns_lift _
  | sin => exact lipschitzTrig_noPanic hm a true
  | cos => exact lipschitzTrig_noPanic hm a false
  | sinOfPair | cosOfPair => exact (sinCos_noPanic hm a).bind fun _ _ => returns_ok _

omit hm in
theorem applyBinary_noPanic (op : Binary) (a b : MpfrInterval) :
    Returns (applyBinary m op a b) := by
  cases op with
  | add | sub | mul => exact returns_ok _
  | div => exact returns_lift _

theorem applyBallUnary_noPanic (op : BallUnary) (a : MpfrComplexBall) :
    Returns (applyBallUnary m op a) := by
  cases op with
  | reciprocal | powu => exact returns_lift _
  | exp =>
    refine (lipschitzTrig_noPanic hm a.imaginary false).bind fun cos _ => ?_
    exact (lipschitzTrig_noPanic hm a.imaginary true).bind fun sin _ => returns_lift _

omit hm in
theorem applyBallBinary_noPanic (op : Binary) (a b : MpfrComplexBall) :
    Returns (applyBallBinary m op a b) := by
  cases op <;> exact returns_lift _

theorem RealExpr.noPanic (intervals : Nat → MpfrInterval) (e : RealExpr) :
    Returns (e.eval m intervals) := by
  induction e with
  | input index => exact returns_ok _
  | unary op operand ih => exact ih.bind fun a _ => applyUnary_noPanic hm op a
  | binary op left right ihl ihr =>
    exact ihl.bind fun a _ => ihr.bind fun b _ => applyBinary_noPanic op a b

end

mutual
theorem BallExpr.noPanic {m : Primitives} (hm : m.Correct) (intervals : Nat → MpfrInterval)
    (balls : Nat → MpfrComplexBall) (e : BallExpr) : Returns (e.eval m intervals balls) := by
  cases e with
  | input index => exact returns_ok _
  | components real imaginary =>
    refine (RealExpr.noPanic hm intervals real).bind fun re _ => ?_
    exact (RealExpr.noPanic hm intervals imaginary).bind fun im _ => returns_lift _
  | unary op operand =>
    exact (BallExpr.noPanic hm intervals balls operand).bind fun a _ =>
      applyBallUnary_noPanic hm op a
  | binary op left right =>
    refine (BallExpr.noPanic hm intervals balls left).bind fun a _ => ?_
    exact (BallExpr.noPanic hm intervals balls right).bind fun b _ => applyBallBinary_noPanic op a b
  | polynomial coefficients argument =>
    refine (BallExprs.noPanic hm intervals balls coefficients).bind fun cs _ => ?_
    exact (BallExpr.noPanic hm intervals balls argument).bind fun a _ => returns_lift _

theorem BallExprs.noPanic {m : Primitives} (hm : m.Correct) (intervals : Nat → MpfrInterval)
    (balls : Nat → MpfrComplexBall) (es : BallExprs) : Returns (es.eval m intervals balls) := by
  cases es with
  | nil => exact returns_ok _
  | cons head tail =>
    refine (BallExpr.noPanic hm intervals balls head).bind fun a _ => ?_
    exact (BallExprs.noPanic hm intervals balls tail).bind fun rest _ => returns_ok _
end

/-! ## The interval layer -/

/-- What the interval layer promises over a library `m`. -/
structure LayerSound (m : Primitives) : Prop where
  /-- A validated real expression encloses its value at all points of the inputs. -/
  real : ∀ {intervals : Nat → MpfrInterval} {reals : Nat → ℝ},
    (∀ i, (intervals i).validate = .ok () → Contains (intervals i) (reals i)) →
    ∀ (e : RealExpr) {v : MpfrInterval}, e.eval m intervals = .ok v → v.validate = .ok () →
      Contains v (e.value reals)
  ball : ∀ {intervals : Nat → MpfrInterval} {balls : Nat → MpfrComplexBall} {reals : Nat → ℝ}
    {complexes : Nat → ℂ},
    (∀ i, (intervals i).validate = .ok () → Contains (intervals i) (reals i)) →
    (∀ i, (balls i).validate = .ok () → BallContains (balls i) (complexes i)) →
    ∀ (e : BallExpr) {v : MpfrComplexBall}, e.eval m intervals balls = .ok v → v.validate = .ok () →
      BallContains v (e.value reals complexes)
  /-- No expectation of the evaluation fails. -/
  realReturns : ∀ (intervals : Nat → MpfrInterval) (e : RealExpr), Returns (e.eval m intervals)
  ballReturns : ∀ (intervals : Nat → MpfrInterval) (balls : Nat → MpfrComplexBall) (e : BallExpr),
    Returns (e.eval m intervals balls)
  /-- An operand that fails its validation never gives a result that passes it. -/
  unary : ∀ {op : Unary} {a v : MpfrInterval}, a.validate ≠ .ok () → applyUnary m op a = .ok v →
    v.validate ≠ .ok ()
  binary : ∀ {op : Binary} {a b v : MpfrInterval}, a.validate ≠ .ok () ∨ b.validate ≠ .ok () →
    applyBinary m op a b = .ok v → v.validate ≠ .ok ()
  ballUnary : ∀ {op : BallUnary} {a v : MpfrComplexBall}, a.validate ≠ .ok () →
    applyBallUnary m op a ≠ .ok v
  ballBinary : ∀ {op : Binary} {a b v : MpfrComplexBall}, a.validate ≠ .ok () ∨
    b.validate ≠ .ok () →
    applyBallBinary m op a b ≠ .ok v
  polynomial : ∀ {coefficients : List MpfrComplexBall} {argument v : MpfrComplexBall},
    (argument.validate ≠ .ok () ∨ ∃ c ∈ coefficients, c.validate ≠ .ok ()) →
    evaluateComplexPolynomialMpfr m coefficients argument ≠ .ok v
  /-- Bitwise facts. -/
  mul : ∀ a b, MpfrInterval.mul m a b = MpfrInterval.referenceMul m a b
  directedPair : ∀ {x : MpfrFloat} {f : Round → MpfrFloat → MpfrFloat × Ordering},
    ((f .down x).1.isNormal = true → ∃ r, m.RoundsTernary x.precision .down r (f .down x) ∧
      m.Rounds x.precision .up r (f .up x).1) →
    MpfrInterval.directedPointPair m x f = ((f .down x).1, (f .up x).1)
  sinCos : ∀ a, MpfrInterval.sinCos m a = (do
    let sin ← MpfrInterval.sin m a
    let cos ← MpfrInterval.cos m a
    return (sin, cos))

theorem intervalLayer_sound {m : Primitives} (hm : m.Correct) : LayerSound m where
  real := by
    intro intervals reals hreals e v h hv
    exact RealExpr.sound hm (fun i hi => hreals i (validate_iff.mpr hi)) e h (validate_iff.mp hv)
  ball := by
    intro intervals balls reals complexes hreals hcomplexes e v h hv
    exact BallExpr.sound hm (fun i hi => hreals i (validate_iff.mpr hi))
      (fun i hi => hcomplexes i (ball_validate_iff.mpr hi)) e h (ball_validate_iff.mp hv)
  realReturns := RealExpr.noPanic hm
  ballReturns := BallExpr.noPanic hm
  unary := by
    intro op a v ha h hv
    exact ha (validate_iff.mpr (applyUnary_sound hm h (validate_iff.mp hv)).1)
  binary := by
    intro op a b v hab h hv
    obtain ⟨⟨ha, hb⟩, _⟩ := applyBinary_sound hm h (validate_iff.mp hv)
    rcases hab with hne | hne
    · exact hne (validate_iff.mpr ha)
    · exact hne (validate_iff.mpr hb)
  ballUnary := by
    intro op a v ha h
    exact ha (ball_validate_iff.mpr (applyBallUnary_sound hm h).1)
  ballBinary := by
    intro op a b v hab h
    obtain ⟨⟨ha, hb⟩, _⟩ := applyBallBinary_sound hm h
    rcases hab with hne | hne
    · exact hne (ball_validate_iff.mpr ha)
    · exact hne (ball_validate_iff.mpr hb)
  polynomial := by
    intro coefficients argument v hinvalid h
    obtain ⟨⟨ha, hcs⟩, _⟩ := evaluateComplexPolynomialMpfr_ok hm h
    rcases hinvalid with hne | ⟨c, hc, hne⟩
    · exact hne (ball_validate_iff.mpr ha)
    · exact hne (ball_validate_iff.mpr (hcs c hc))
  mul := mul_eq_referenceMul hm
  directedPair := by
    intro x f hf
    show ((f .down x).1, MpfrInterval.upwardFromDownward m x (f .down x).1 (f .down x).2 f) = _
    rw [upwardFromDownward_eq hm hf]
  sinCos := sinCos_eq hm

/-- The interval from one to two at 64 bits. -/
def oneTwo : MpfrInterval where
  lower := .ofInt 64 1
  upper := .ofInt 64 2
  admissible := .inl (by decide)

theorem intervalLayer_sound_sine : ∃ v,
    (RealExpr.unary .sin (.input 0)).eval (ideal (-1000) 1000) (fun _ => oneTwo) = .ok v ∧
      (v.validate = .ok () → Contains v (Real.sin (3 / 2))) := by
  have hcorrect := ideal_correct (-1000) 1000
  obtain ⟨v, hv⟩ := lipschitzTrig_returns hcorrect oneTwo true
  refine ⟨v, hv, fun hvalid => ?_⟩
  have hinside : Contains oneTwo (3 / 2) := by
    refine ⟨1, 2, by decide, by decide, ?_, ?_⟩
    · norm_num
    · norm_num
  show Contains v ((RealExpr.unary .sin (.input 0)).value fun _ => 3 / 2)
  exact (intervalLayer_sound hcorrect).real (fun _ _ => hinside) (.unary .sin (.input 0)) hv hvalid

end Xcelerator.Numerics.MpfrExpression
