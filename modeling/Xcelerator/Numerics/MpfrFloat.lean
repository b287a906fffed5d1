import Mathlib
import Xcelerator.Foundations.BinaryRounding
import Xcelerator.Foundations.DirectedRounding

/-! # MPFR floats

A float as MPFR stores it: a precision with NaN, a signed infinity, a signed zero
or an exact nonzero value. The library's operations are the parameter
`Primitives`; `Correct` is what its manual says of them, correct rounding in the
requested direction to the values of the exponent range, with infinities beyond
it. The sign of a rounded zero is left to the library, up to the agreement of
the joint sine and cosine with the separate ones. -/

namespace Xcelerator.Numerics.MpfrFloat
open Xcelerator.Foundations.BinaryRounding (Round)
open Xcelerator.Foundations.DirectedRounding

inductive Datum where
  | nan
  | infinity (negative : Bool)
  | zero (negative : Bool)
  | normal (value : ℚ) (nonzero : value ≠ 0)
deriving DecidableEq, Repr

namespace Datum

def neg : Datum → Datum
  | .nan => .nan
  | .infinity negative => .infinity !negative
  | .zero negative => .zero !negative
  | .normal value nonzero => .normal (-value) (neg_ne_zero.mpr nonzero)

def abs : Datum → Datum
  | .nan => .nan
  | .infinity _ => .infinity false
  | .zero _ => .zero false
  | .normal value nonzero => .normal |value| (abs_ne_zero.mpr nonzero)

/-- The position in the order of the extended reals; NaN has none. -/
def rank : Datum → Option (ℤ ×ₗ ℚ)
  | .nan => none
  | .infinity negative => some (toLex (if negative then -1 else 1, 0))
  | .zero _ => some (toLex (0, 0))
  | .normal value _ => some (toLex (0, value))

/-- The position in `total_cmp`, where the zeros differ and NaN comes last. -/
def totalRank : Datum → ℤ ×ₗ ℚ ×ₗ ℤ
  | .nan => toLex (2, toLex (0, 0))
  | .infinity negative => toLex (if negative then -1 else 1, toLex (0, 0))
  | .zero negative => toLex (0, toLex (0, if negative then -1 else 0))
  | .normal value _ => toLex (0, toLex (value, 0))

end Datum

structure MpfrFloat where
  precision : Nat
  datum : Datum
deriving DecidableEq, Repr

namespace MpfrFloat

/-- `Float::with_val` at an integer that the precision holds. -/
def ofInt (p : Nat) (z : Int) : MpfrFloat where
  precision := p
  datum := if h : z = 0 then .zero false else .normal z (Int.cast_ne_zero.mpr h)

def nan (p : Nat) : MpfrFloat := { precision := p, datum := .nan }

def neg (x : MpfrFloat) : MpfrFloat := { x with datum := x.datum.neg }

def abs (x : MpfrFloat) : MpfrFloat := { x with datum := x.datum.abs }

/-- The exact value of a finite float. -/
def finite? (x : MpfrFloat) : Option ℚ :=
  match x.datum with
  | .zero _ => some 0
  | .normal value _ => some value
  | _ => none

def isFinite (x : MpfrFloat) : Bool := x.finite?.isSome

def isNormal (x : MpfrFloat) : Bool :=
  match x.datum with
  | .normal _ _ => true
  | _ => false

def isSignNegative (x : MpfrFloat) : Bool :=
  match x.datum with
  | .nan => false
  | .infinity negative => negative
  | .zero negative => negative
  | .normal value _ => decide (value < 0)

/-- `get_exp`: the exponent of a significand in `[1/2, 1)`. -/
def getExp (x : MpfrFloat) : Option Int :=
  match x.datum with
  | .normal value _ => some (Int.log 2 |value| + 1)
  | _ => none

/-- `<`, false on NaN. -/
def lt (x y : MpfrFloat) : Bool :=
  match x.datum.rank, y.datum.rank with
  | some a, some b => decide (a < b)
  | _, _ => false

/-- `<=`, false on NaN. -/
def le (x y : MpfrFloat) : Bool :=
  match x.datum.rank, y.datum.rank with
  | some a, some b => decide (a ≤ b)
  | _, _ => false

/-- `==`, false on NaN. -/
def eq (x y : MpfrFloat) : Bool :=
  match x.datum.rank, y.datum.rank with
  | some a, some b => decide (a = b)
  | _, _ => false

/-- `total_cmp(..).is_lt()`. -/
def totalLt (x y : MpfrFloat) : Bool := decide (x.datum.totalRank < y.datum.totalRank)

/-- The extended real a float stands for; NaN stands for none. -/
def Denotes (x : MpfrFloat) (r : EReal) : Prop :=
  match x.datum with
  | .nan => False
  | .infinity negative => r = if negative then ⊥ else ⊤
  | .zero _ => r = 0
  | .normal value _ => r = ((value : ℝ) : EReal)

end MpfrFloat

/-! ## The library -/

/-- A significand of `p` bits and an exponent in the range. -/
def Representable (expMin expMax : Int) (p : Nat) (v : ℚ) : Prop :=
  v = 0 ∨ ∃ e : Int, (expMin ≤ e ∧ e ≤ expMax) ∧ (2 ^ (e - 1) ≤ |v| ∧ |v| < 2 ^ e) ∧
    ∃ k : Int, v = k * 2 ^ (e - p)

def formatValues (expMin expMax : Int) (p : Nat) : Set ℝ :=
  { x | ∃ v : ℚ, Representable expMin expMax p v ∧ (v : ℝ) = x }

structure Primitives where
  expMin : Int
  expMax : Int
  precMin : Nat
  precMax : Nat
  /-- A float rounded to another precision. -/
  set : Nat → Round → MpfrFloat → MpfrFloat
  add : Nat → Round → MpfrFloat → MpfrFloat → MpfrFloat
  sub : Nat → Round → MpfrFloat → MpfrFloat → MpfrFloat
  mul : Nat → Round → MpfrFloat → MpfrFloat → MpfrFloat
  div : Nat → Round → MpfrFloat → MpfrFloat → MpfrFloat
  sqrt : Round → MpfrFloat → MpfrFloat
  exp : Round → MpfrFloat → MpfrFloat
  ln : Round → MpfrFloat → MpfrFloat
  atan : Round → MpfrFloat → MpfrFloat
  /-- A result with its ternary value, the comparison of the result with the exact one. -/
  sin : Round → MpfrFloat → MpfrFloat × Ordering
  cos : Round → MpfrFloat → MpfrFloat × Ordering
  sinCos : Round → MpfrFloat → (MpfrFloat × Ordering) × (MpfrFloat × Ordering)
  nextUp : MpfrFloat → MpfrFloat

namespace Primitives
variable (m : Primitives)

/-- The values of a precision in the exponent range of the library. -/
def values (p : Nat) : Set ℝ := formatValues m.expMin m.expMax p

/-- A result is the correct rounding of a real number. -/
def Rounds (p : Nat) (round : Round) (r : ℝ) (x : MpfrFloat) : Prop :=
  x.precision = p ∧ ∃ t, x.Denotes t ∧
    match round with
    | .down => RoundsDown (m.values p) r t
    | .up => RoundsUp (m.values p) r t
    | .zero => if 0 ≤ r then RoundsDown (m.values p) r t else RoundsUp (m.values p) r t
    | .awayZero => if 0 ≤ r then RoundsUp (m.values p) r t else RoundsDown (m.values p) r t
    | .nearest => RoundsDown (m.values p) r t ∨ RoundsUp (m.values p) r t

/-- The ternary value of a result. -/
def IsTernary (r : ℝ) (result : MpfrFloat × Ordering) : Prop :=
  ∀ t, result.1.Denotes t →
    match result.2 with
    | .lt => t < r
    | .eq => t = r
    | .gt => r < t

/-- A rounded result with its ternary value. -/
def RoundsTernary (p : Nat) (round : Round) (r : ℝ) (result : MpfrFloat × Ordering) : Prop :=
  m.Rounds p round r result.1 ∧ IsTernary r result

/-- Correct rounding on finite operands, and the rules for the special operands that
the intervals can meet. -/
structure Correct : Prop where
  set : ∀ p round {x : MpfrFloat} {a : ℚ}, x.finite? = some a →
    m.Rounds p round (a : ℝ) (m.set p round x)
  add : ∀ p round {x y : MpfrFloat} {a b : ℚ}, x.finite? = some a → y.finite? = some b →
    m.Rounds p round ((a : ℝ) + b) (m.add p round x y)
  add_infinity : ∀ p round {x y : MpfrFloat} {a : ℚ} {s : Bool}, x.finite? = some a →
    y.datum = .infinity s →
    (m.add p round x y).datum = .infinity s ∧ (m.add p round y x).datum = .infinity s
  sub : ∀ p round {x y : MpfrFloat} {a b : ℚ}, x.finite? = some a → y.finite? = some b →
    m.Rounds p round ((a : ℝ) - b) (m.sub p round x y)
  sub_infinity : ∀ p round {x y : MpfrFloat} {b : ℚ} {s : Bool}, x.datum = .infinity s →
    y.finite? = some b →
    (m.sub p round x y).datum = .infinity s
  mul : ∀ p round {x y : MpfrFloat} {a b : ℚ}, x.finite? = some a → y.finite? = some b →
    m.Rounds p round ((a : ℝ) * b) (m.mul p round x y)
  mul_nan : ∀ p round {x y : MpfrFloat}, x.datum = .nan → (m.mul p round x y).datum = .nan
  div : ∀ p round {x y : MpfrFloat} {a b : ℚ}, x.finite? = some a → y.finite? = some b → b ≠ 0 →
    m.Rounds p round ((a : ℝ) / b) (m.div p round x y)
  /-- Halving neither overflows nor changes an infinity. -/
  half : ∀ {x : MpfrFloat} {a : ℚ}, x.finite? = some a →
    ∃ b, (m.div x.precision .nearest x (.ofInt x.precision 2)).finite? = some b
  half_infinity : ∀ {x : MpfrFloat} {s : Bool}, x.datum = .infinity s →
    (m.div x.precision .nearest x (.ofInt x.precision 2)).datum = .infinity s
  sqrt : ∀ round {x : MpfrFloat} {a : ℚ}, x.finite? = some a → 0 ≤ a →
    m.Rounds x.precision round √(a : ℝ) (m.sqrt round x)
  exp : ∀ round {x : MpfrFloat} {a : ℚ}, x.finite? = some a →
    m.Rounds x.precision round (Real.exp a) (m.exp round x)
  exp_nan : ∀ round {x : MpfrFloat}, x.datum = .nan → (m.exp round x).datum = .nan
  ln : ∀ round {x : MpfrFloat} {a : ℚ}, x.finite? = some a → 0 < a →
    m.Rounds x.precision round (Real.log a) (m.ln round x)
  atan : ∀ round {x : MpfrFloat} {a : ℚ}, x.finite? = some a →
    m.Rounds x.precision round (Real.arctan a) (m.atan round x)
  atan_nan : ∀ round {x : MpfrFloat}, x.datum = .nan → (m.atan round x).datum = .nan
  sin : ∀ round {x : MpfrFloat} {a : ℚ}, x.finite? = some a →
    m.RoundsTernary x.precision round (Real.sin a) (m.sin round x)
  cos : ∀ round {x : MpfrFloat} {a : ℚ}, x.finite? = some a →
    m.RoundsTernary x.precision round (Real.cos a) (m.cos round x)
  sinCos_sin : ∀ round {x : MpfrFloat} {a : ℚ}, x.finite? = some a →
    m.RoundsTernary x.precision round (Real.sin a) (m.sinCos round x).1
  sinCos_cos : ∀ round {x : MpfrFloat} {a : ℚ}, x.finite? = some a →
    m.RoundsTernary x.precision round (Real.cos a) (m.sinCos round x).2
  sinCos_zero : ∀ round {x : MpfrFloat} {s s' : Bool},
    ((m.sinCos round x).1.1.datum = .zero s → (m.sin round x).1.datum = .zero s' → s = s') ∧
      ((m.sinCos round x).2.1.datum = .zero s → (m.cos round x).1.datum = .zero s' → s = s')
  nextUp : ∀ {x : MpfrFloat} {v : ℚ} {h : v ≠ 0}, x.datum = .normal v h →
    (m.nextUp x).precision = x.precision ∧
      ∃ t, (m.nextUp x).Denotes t ∧ Succeeds (m.values x.precision) (v : ℝ) t

end Primitives

end Xcelerator.Numerics.MpfrFloat
