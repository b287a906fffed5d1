import Mathlib
import Xcelerator.Numerics.SymmetricInertiaSoundness
import Xcelerator.Certify.RationalInertiaSoundness

/-! # Inertia of rational intervals through the directed MPFR kernel

The certificate adapter `interval_inertia.rs`: outward conversion, the shared
kernel, and exact conversion of the recorded pivots back. -/

namespace Xcelerator.Certify.MpfrInertia
open Xcelerator.Foundations.Machine (bind_eq_ok)
open Xcelerator.Foundations.Inertia
open Xcelerator.Numerics.Interval Xcelerator.Numerics.Mpfr
open Xcelerator.Numerics.SymmetricInertia (MpfrInertiaResult Pool inertiaImpl)
open Xcelerator.Certify.RationalInertia (IntervalInertiaResult cells)

def toRationalInterval : MpfrInterval → Run RationalInterval
  | .enclosure _ l u h => .ok ⟨l, u, h⟩
  | .invalid _ => .error (.panic "valid finite MPFR endpoints required")

/-- The outward conversion of an exact interval. -/
def outward (m : Rounding) (p : Nat) (v : RationalInterval) : Result MpfrInterval :=
  MpfrInterval.new p (m.round p .down v.lower) (m.round p .up v.upper)

def symmetric (matrix : List RationalInterval) (n : Nat) : Bool :=
  (List.range n).all fun row => (List.range row).all fun column =>
    cells matrix n row column == cells matrix n column row

def inertiaRoute (m : Rounding) (pool : Pool) (matrix : List RationalInterval)
    (n p : Nat) (stable : Bool) : Run IntervalInertiaResult := do
  lift (check (32 ≤ p && p ≤ 1000000 && n != 0 && n * n < 2 ^ 64 && n * n == matrix.length)
    (.invalid "invalid interval inertia shape or precision"))
  lift (check (symmetric matrix n) (.invalid "asymmetric rational inertia matrix"))
  let matrix ← lift (matrix.mapM (outward m p))
  match ← inertiaImpl m pool matrix n p stable with
  | .conclusive positive negative pivots =>
    return .conclusive positive negative (← pivots.mapM toRationalInterval)
  | .inconclusive pivotIndex positive negative zeroOrUnresolved pivots reason =>
    return .inconclusive pivotIndex positive negative zeroOrUnresolved
      (← pivots.mapM toRationalInterval) reason

/-! ## Soundness -/

theorem outward_contains {m : Rounding} (hm : m.Directed) {p : Nat} {v : RationalInterval}
    {w : MpfrInterval} {x : ℝ} (h : outward m p v = .ok w) (hx : v.Contains x) : w.Contains x := by
  unfold outward MpfrInterval.new at h
  split at h
  · rename_i l u hl hu
    split at h
    · cases h
      have hl' : (l : ℝ) ≤ v.lower := by exact_mod_cast hm.round_down hl
      have hu' : (v.upper : ℝ) ≤ u := by exact_mod_cast hm.round_up hu
      exact ⟨hl'.trans hx.1, hx.2.trans hu'⟩
    · cases h
  · cases h

theorem mapM_length {ε α β : Type} {f : α → Except ε β} {xs : List α} {ys : List β}
    (h : xs.mapM f = .ok ys) : ys.length = xs.length := by
  induction xs generalizing ys with
  | nil =>
    cases h
    rfl
  | cons x xs ih =>
    rw [List.mapM_cons] at h
    obtain ⟨y, _, h⟩ := bind_eq_ok h
    obtain ⟨zs, hzs, h⟩ := bind_eq_ok h
    cases h
    simp [ih hzs]

theorem mapM_getD {ε α β : Type} {f : α → Except ε β} {xs : List α} {ys : List β}
    (h : xs.mapM f = .ok ys) {i : Nat} (hi : i < xs.length) (a : α) (b : β) :
    f (xs.getD i a) = .ok (ys.getD i b) := by
  induction xs generalizing ys i with
  | nil => simp at hi
  | cons x xs ih =>
    rw [List.mapM_cons] at h
    obtain ⟨y, hy, h⟩ := bind_eq_ok h
    obtain ⟨zs, hzs, h⟩ := bind_eq_ok h
    cases h
    cases i with
    | zero => simpa using hy
    | succ i => simpa using ih hzs (by simpa using hi)

theorem index_lt {n i j : Nat} (hi : i < n) (hj : j < n) : i * n + j < n * n :=
  calc i * n + j < (i + 1) * n := by rw [Nat.add_mul]; omega
    _ ≤ n * n := Nat.mul_le_mul_right n hi

/-- **A conclusive directed run counts the eigenvalues of every enclosed matrix.** -/
theorem inertiaRoute_conclusive {m : Rounding} (hm : m.Directed) {pool : Pool} {stable : Bool}
    {matrix : List RationalInterval} {n p positive negative : Nat} {pivots : List RationalInterval}
    (h : inertiaRoute m pool matrix n p stable = .ok (.conclusive positive negative pivots)) :
    positive + negative = n ∧ pivots.length = n ∧ ∀ (A : Matrix (Fin n) (Fin n) ℝ), A.IsHermitian →
      RationalInertiaSoundness.Encloses matrix A → HasInertia A positive negative := by
  unfold inertiaRoute at h
  obtain ⟨_, hshape, h⟩ := bind_eq_ok h
  obtain ⟨_, _, h⟩ := bind_eq_ok h
  obtain ⟨converted, hconverted, h⟩ := bind_eq_ok h
  obtain ⟨result, hresult, h⟩ := bind_eq_ok h
  have hlength : n * n = matrix.length := by
    have hconditions := check_ok (lift_ok hshape)
    simp only [Bool.and_eq_true, beq_iff_eq] at hconditions
    exact hconditions.2
  cases result with
  | inconclusive =>
    obtain ⟨_, _, h⟩ := bind_eq_ok h
    cases h
  | conclusive positive' negative' pivots' =>
    obtain ⟨converted', hconverted', h⟩ := bind_eq_ok h
    cases h
    obtain ⟨hsum, hpivots⟩ :=
      Xcelerator.Numerics.SymmetricInertiaSoundness.inertiaImpl_counted hresult
    refine ⟨hsum, (mapM_length hconverted').trans hpivots, fun A hA hin => ?_⟩
    · refine Xcelerator.Numerics.SymmetricInertiaSoundness.inertiaImpl_hasInertia hm hresult hA
        fun i j => ?_
      have hcell := mapM_getD (lift_ok hconverted) (i := i * n + j)
        (by rw [← hlength]; exact index_lt i.isLt j.isLt) (RationalInterval.point 0) (.invalid 0)
      exact outward_contains hm hcell (hin i j)

end Xcelerator.Certify.MpfrInertia
