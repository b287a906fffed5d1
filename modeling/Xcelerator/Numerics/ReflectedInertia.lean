import Mathlib
import Xcelerator.Numerics.SymmetricInertia

/-! # Symmetric inertia with reflected storage

The elimination that `symmetric_inertia.rs` keeps as its reference: the whole
matrix is stored, every symmetric exchange moves both triangles, and every
Schur update is reflected below the diagonal. Products come from the allocating
interval operations. The loop keeps no record of whether an update has run, so
the flag of its state stays unset. -/

namespace Xcelerator.Numerics.ReflectedInertia
open Xcelerator.Foundations.Machine (bind_eq_ok)
open Xcelerator.Numerics.Interval Xcelerator.Numerics.Mpfr
open Xcelerator.Numerics.SymmetricInertia
open MpfrInterval (unrepresentable)

/-! ## Storage -/

def referenceSwap (a : Cells) (n first second : Nat) : Cells :=
  if first = second then a else swapColumns n first second (swapRows n first second a)

/-- The serial copy of the upper triangle from `start` on to the lower one. -/
def reflect (a : Cells) (start n : Nat) : Cells :=
  (pairs start n).foldl (fun a cell => a.set cell.2 cell.1 (a cell.1 cell.2)) a

def referenceUpdateSchurRows (pool : Pool) (a : Cells) (n start p : Nat)
    (update : Nat → Nat → MpfrInterval → Result MpfrInterval) : Result Cells := do
  let a ← updateSchurRows pool a n start p update
  return reflect a start n

section
variable (m : Rounding)

/-! ## Schur updates -/

/-- The product of the selected corners, with validated operands. -/
def product (a b : MpfrInterval) : Result MpfrInterval :=
  match a, b with
  | .enclosure p al au _, .enclosure p' bl bu _ =>
    if p = p' then
      match selectedCorners al au bl bu with
      | some (ll, lr, ul, ur) =>
        MpfrInterval.new p (m.round p .down (ll * lr)) (m.round p .up (ul * ur))
      | none =>
        MpfrInterval.new p
          (Option.map₂ min (m.round p .down (al * bu)) (m.round p .down (au * bl)))
          (Option.map₂ max (m.round p .up (al * bl)) (m.round p .up (au * bu)))
    else .error (.invalid "mixed interval precision")
  | _, _ => .error unrepresentable

def referenceOne (previous left right inverse : MpfrInterval) : Result MpfrInterval := do
  let numerator ← product m left right
  let correction ← product m numerator inverse
  return MpfrInterval.sub m previous correction

def referenceTwo (previous ri si rj sj : MpfrInterval) (block : Block) : Result MpfrInterval :=
  let correction := MpfrInterval.add m (.add m (.add m (.mul m (.mul m ri block.inverse11) rj)
    (.mul m (.mul m ri block.inverse12) sj)) (.mul m (.mul m si block.inverse12) rj))
    (.mul m (.mul m si block.inverse22) sj)
  .ok (MpfrInterval.sub m previous correction)

/-! ## Elimination -/

variable (pool : Pool)

def referenceEliminateOne (a : Cells) (n p k : Nat) : Result Cells := do
  let inverse ← MpfrInterval.reciprocal m (a k k)
  let column := fun i => a i k
  referenceUpdateSchurRows pool a n (k + 1) p fun i j previous =>
    referenceOne m previous (column i) (column j) inverse

def referenceEliminateTwo (a : Cells) (n p k : Nat) (b : Block) : Result Cells :=
  let first := fun i => a i k
  let second := fun i => a i (k + 1)
  referenceUpdateSchurRows pool a n (k + 2) p fun i j previous =>
    referenceTwo m previous (first i) (second i) (first j) (second j) b

def referencePivotOne (n p : Nat) (s : State) (selected : Nat) : Run State := do
  let a := referenceSwap s.a n s.k selected
  let s := { s with a }.count (a s.k s.k)
  if s.k + 1 = n then return { s with k := s.k + 1 }
  else
    let a ← lift (referenceEliminateOne m pool a n p s.k)
    return { s with a, k := s.k + 1 }

def referencePivotTwo (n p : Nat) (s : State) (i j : Nat) : Run State := do
  let a := referenceSwap s.a n s.k i
  let adjusted := if j = s.k then i else j
  let a := referenceSwap a n (s.k + 1) adjusted
  let b ← expect (← lift (block m a s.k (s.k + 1) p))
    "same certified block after symmetric permutation"
  let s := ({ s with a }.count b.low).count b.high
  let a ← lift (referenceEliminateTwo m pool a n p s.k b)
  return { s with a, k := s.k + 2 }

def referenceStep (n p : Nat) (stablePivots : Bool) (s : State) : Run (State ⊕ MpfrInertiaResult) :=
  match diagonalPivot stablePivots s.a s.k n with
  | some selected => do return .inl (← referencePivotOne m pool n p s selected)
  | none => do
    match ← lift (searchBlock m s.a p (pairs s.k n)) with
    | some (i, j) => return .inl (← referencePivotTwo m pool n p s i j)
    | none => return .inr (.inconclusive s.k s.positive s.negative (n - s.k)
        (s.pivots ++ [s.a s.k s.k]) "no remaining signed MPFR interval 1x1 or 2x2 pivot")

theorem referenceStep_advances {n p : Nat} {stablePivots : Bool} {s s' : State}
    (h : referenceStep m pool n p stablePivots s = .ok (.inl s')) : s.k < s'.k := by
  unfold referenceStep at h
  split at h
  · obtain ⟨t, ht, h⟩ := bind_eq_ok h
    cases h
    unfold referencePivotOne at ht
    dsimp only at ht
    split at ht
    · cases ht
      exact Nat.lt_succ_self _
    · obtain ⟨a, _, ht⟩ := bind_eq_ok ht
      cases ht
      exact Nat.lt_succ_self _
  · obtain ⟨found, _, h⟩ := bind_eq_ok h
    cases found with
    | none => cases h
    | some pair =>
      obtain ⟨t, ht, h⟩ := bind_eq_ok h
      cases h
      unfold referencePivotTwo at ht
      obtain ⟨_, _, ht⟩ := bind_eq_ok ht
      obtain ⟨_, _, ht⟩ := bind_eq_ok ht
      obtain ⟨_, _, ht⟩ := bind_eq_ok ht
      cases ht
      exact Nat.lt_add_of_pos_right (by decide)

def referenceLoop (n p : Nat) (stablePivots : Bool) (s : State) : Run MpfrInertiaResult :=
  if _hk : s.k < n then
    match _hstep : referenceStep m pool n p stablePivots s with
    | .error e => .error e
    | .ok (.inr result) => .ok result
    | .ok (.inl s') => referenceLoop n p stablePivots s'
  else .ok (.conclusive s.positive s.negative s.pivots)
termination_by n - s.k
decreasing_by
  have := referenceStep_advances m pool _hstep
  omega

def referenceInertiaImpl (matrix : List MpfrInterval) (n p : Nat)
    (stablePivots : Bool) : Run MpfrInertiaResult := do
  lift (validateInertiaInput pool matrix n p)
  referenceLoop m pool n p stablePivots
    { a := cells matrix n, pivots := [], positive := 0, negative := 0, k := 0, updated := false }

end

end Xcelerator.Numerics.ReflectedInertia
