import Mathlib
import Xcelerator.Numerics.MpfrInterval

/-! # Directed symmetric inertia

The elimination of `symmetric_inertia.rs`. The flat row-major workspace is
addressed by row and column. After the first Schur update only the upper
triangle of the trailing block is current. Rows may be updated in parallel;
every entry reads the retained pivot columns and its own previous value only,
so the workers decide nothing but which failing row is reported. That choice and
the thread-local exponent ranges are the parameter `Pool`. -/

namespace Xcelerator.Numerics.SymmetricInertia
open Xcelerator.Foundations.Machine (bind_eq_ok)
open Xcelerator.Numerics.Interval Xcelerator.Numerics.Mpfr
open MpfrInterval (unordered unrepresentable)

inductive MpfrInertiaResult where
  | conclusive (positive negative : Nat) (pivotEnclosures : List MpfrInterval)
  | inconclusive (pivotIndex positive negative zeroOrUnresolved : Nat)
      (pivotEnclosures : List MpfrInterval) (reason : String)
deriving DecidableEq, Repr

abbrev Cells := Nat → Nat → MpfrInterval

def signed (v : MpfrInterval) : Bool := v.isStrictlyPositive || v.upperNegative

/-! ## Storage -/

def Cells.set (a : Cells) (i j : Nat) (v : MpfrInterval) : Cells :=
  fun r c => if r = i ∧ c = j then v else a r c

/-- `a.swap` of the cells `(i, j)` and `(i', j')`. -/
def Cells.exchange (a : Cells) (i j i' j' : Nat) : Cells :=
  fun r c => if r = i ∧ c = j then a i' j' else if r = i' ∧ c = j' then a i j else a r c

def swapRows (n first second : Nat) (a : Cells) : Cells :=
  (List.range n).foldl (fun a j => a.exchange first j second j) a

def swapColumns (n first second : Nat) (a : Cells) : Cells :=
  (List.range n).foldl (fun a i => a.exchange i first i second) a

/-- The exchange inside the upper triangle of the block from `start` on. -/
def swapUpper (n start first second : Nat) (a : Cells) : Cells :=
  ((List.range' start (n - start)).filter fun j => j != first && j != second).foldl
    (fun a j => a.exchange (min first j) (max first j) (min second j) (max second j))
    (a.exchange first first second second)

def swap (a : Cells) (n first second : Nat) (upperFrom : Option Nat) : Cells :=
  if first = second then a
  else
    match upperFrom with
    | none => swapColumns n first second (swapRows n first second a)
    | some start => swapUpper n start (min first second) (max first second) a

def below (a : Cells) (updated : Bool) (row column : Nat) : MpfrInterval :=
  if updated then a column row else a row column

/-! ## Pivot blocks -/

structure Block where
  low : MpfrInterval
  high : MpfrInterval
  inverse11 : MpfrInterval
  inverse12 : MpfrInterval
  inverse22 : MpfrInterval
deriving DecidableEq, Repr

section
variable (m : Rounding)

/-- The roots and the inverse of a block with a signed determinant. -/
def certifiedBlock (x y z det : MpfrInterval) (p : Nat) : Result (Option Block) := do
  let root ← MpfrInterval.sqrt m (.add m (.square m (.sub m x z))
    (.mul m (.square m y) (.fromI64 m 4 p)))
  let trace := MpfrInterval.add m x z
  let two := MpfrInterval.fromI64 m 2 p
  let low ← MpfrInterval.div m (.sub m trace root) two
  let high ← MpfrInterval.div m (.add m trace root) two
  if signed low && signed high then
    return some {
      low, high
      inverse11 := ← MpfrInterval.div m z det
      inverse12 := ← MpfrInterval.div m (.neg y) det
      inverse22 := ← MpfrInterval.div m x det }
  else return none

def block (a : Cells) (first second p : Nat) : Result (Option Block) := do
  let x := a first first
  let y := a first second
  let z := a second second
  let det := MpfrInterval.sub m (.mul m x z) (.square m y)
  det.validate
  if det.containsZero then return none else certifiedBlock m x y z det p

/-! ## Schur updates -/

/-- `finite_ordered` on freshly rounded endpoints. -/
def finiteOrdered (error : IntervalError) (lower upper : Option ℚ) : Result (ℚ × ℚ) :=
  match lower, upper with
  | some l, some u => if l ≤ u then .ok (l, u) else .error error
  | _, _ => .error error

/-- The endpoints of an operand; a NaN pair makes every product NaN. -/
def operand (error : IntervalError) : MpfrInterval → Result (ℚ × ℚ)
  | .enclosure _ l u _ => .ok (l, u)
  | .invalid _ => .error error

/-- The corners that attain the extrema, unless both operands straddle zero. -/
def selectedCorners (al au bl bu : ℚ) : Option (ℚ × ℚ × ℚ × ℚ) :=
  if al ≥ 0 then
    if bl ≥ 0 then some (al, bl, au, bu)
    else if bu ≤ 0 then some (au, bl, al, bu)
    else some (au, bl, au, bu)
  else if au ≤ 0 then
    if bl ≥ 0 then some (al, bu, au, bl)
    else if bu ≤ 0 then some (au, bu, al, bl)
    else some (al, bu, al, bl)
  else if bl ≥ 0 then some (al, bu, au, bu)
  else if bu ≤ 0 then some (au, bl, al, bl)
  else none

def selectedProduct (p : Nat) (a b : ℚ × ℚ) : Result (ℚ × ℚ) :=
  match selectedCorners a.1 a.2 b.1 b.2 with
  | some (ll, lr, ul, ur) =>
    finiteOrdered unordered (m.round p .down (ll * lr)) (m.round p .up (ul * ur))
  | none =>
    finiteOrdered unordered
      (Option.map₂ min (m.round p .down (a.1 * b.2)) (m.round p .down (a.2 * b.1)))
      (Option.map₂ max (m.round p .up (a.1 * b.1)) (m.round p .up (a.2 * b.2)))

def fullProduct (p : Nat) (a b : ℚ × ℚ) : Result (ℚ × ℚ) :=
  let products := MpfrInterval.cornerProducts a.1 a.2 b.1 b.2
  finiteOrdered unrepresentable (MpfrInterval.roundedLower m p products)
    (MpfrInterval.roundedUpper m p products)

def scratchAdd (p : Nat) (a b : ℚ × ℚ) : Result (ℚ × ℚ) :=
  finiteOrdered unrepresentable (m.round p .down (a.1 + b.1)) (m.round p .up (a.2 + b.2))

def subtractFrom (s : ℚ × ℚ) : MpfrInterval → Result MpfrInterval
  | .enclosure p l u _ =>
    (MpfrInterval.new p (m.round p .down (l - s.2)) (m.round p .up (u - s.1))).mapError
      fun _ => unrepresentable
  | .invalid _ => .error unrepresentable

def one (p : Nat) (previous left right inverse : MpfrInterval) : Result MpfrInterval := do
  let first ← selectedProduct m p (← operand unordered left) (← operand unordered right)
  let second ← selectedProduct m p first (← operand unordered inverse)
  subtractFrom m second previous

/-- One of the four terms of a two by two update. -/
def twoTerm (p : Nat) (left inverse right : MpfrInterval) : Result (ℚ × ℚ) := do
  let first ← fullProduct m p (← operand unrepresentable left) (← operand unrepresentable inverse)
  fullProduct m p first (← operand unrepresentable right)

def two (p : Nat) (previous ri si rj sj : MpfrInterval) (block : Block) : Result MpfrInterval := do
  let sum ← twoTerm m p ri block.inverse11 rj
  let sum ← scratchAdd m p sum (← twoTerm m p ri block.inverse12 sj)
  let sum ← scratchAdd m p sum (← twoTerm m p si block.inverse12 rj)
  let sum ← scratchAdd m p sum (← twoTerm m p si block.inverse22 sj)
  subtractFrom m sum previous

end

/-- The upper-triangle cells of the block from `start` on, row by row. -/
def upperCells (start n : Nat) : List (Nat × Nat) :=
  (List.range' start (n - start)).flatMap fun i => (List.range' i (n - i)).map fun j => (i, j)

def updateCell (update : Nat → Nat → MpfrInterval → Result MpfrInterval) (a : Cells)
    (cell : Nat × Nat) : Result Cells := do
  let value ← update cell.1 cell.2 (a cell.1 cell.2)
  value.validate
  return a.set cell.1 cell.2 value

def updateRows (a : Cells) (n start : Nat)
    (update : Nat → Nat → MpfrInterval → Result MpfrInterval) : Result Cells :=
  (upperCells start n).foldlM (updateCell update) a

/-- The threads that may share an update. -/
structure Pool where
  workers : Nat
  /-- What `ensure_uniform_exponent_range` finds. -/
  uniformExponentRange : Bool
  /-- The worker of a row, in the update from a start, has the exponent bounds of the caller. -/
  sharesBounds : Nat → Nat → Bool
  /-- The place, among the failing rows of the update from a start, of the one that is reported. -/
  reported : Nat → Nat

def Pool.serial : Pool := ⟨1, true, fun _ _ => true, fun _ => 0⟩

def saturated (n : Nat) : Nat := min n (2 ^ 64 - 1)

def Pool.parallel (pool : Pool) (rows p : Nat) : Bool :=
  let cells := saturated (rows * saturated (rows + 1)) / 2
  decide (1 < pool.workers) && decide (saturated (pool.workers * 32768) ≤ saturated (cells * p))

/-- One row of a parallel update, on the cells before the update. -/
def rowUpdate (pool : Pool) (a : Cells) (n start : Nat)
    (update : Nat → Nat → MpfrInterval → Result MpfrInterval) (i : Nat) : Result Cells := do
  check (pool.sharesBounds start i)
    (.inconclusive "parallel inertia requires matching MPFR exponent bounds")
  ((List.range' i (n - i)).map fun j => (i, j)).foldlM (updateCell update) a

def errorOf {ε α : Type} : Except ε α → Option ε
  | .error e => some e
  | .ok _ => none

/-- The errors of the failing rows. -/
def failures (pool : Pool) (a : Cells) (n start : Nat)
    (update : Nat → Nat → MpfrInterval → Result MpfrInterval) : List IntervalError :=
  (List.range' start (n - start)).filterMap fun i => errorOf (rowUpdate pool a n start update i)

/-- `try_for_each_init` returns the error of any failing row; without one, every row has been
written, in any order. -/
def updateSchurRows (pool : Pool) (a : Cells) (n start p : Nat)
    (update : Nat → Nat → MpfrInterval → Result MpfrInterval) : Result Cells :=
  if pool.parallel (n - start) p then
    match failures pool a n start update with
    | [] => updateRows a n start update
    | first :: rest => .error ((first :: rest).getD (pool.reported start) first)
  else updateRows a n start update

/-! ## Pivot selection -/

/-- The distance of a signed diagonal entry from zero. -/
def separation : MpfrInterval → ℚ
  | .enclosure _ l u _ => if l > 0 then l else -u
  | .invalid _ => 0

/-- `max_by` keeps the later of two equal elements. -/
def laterMaximum (a : Cells) (best : Option Nat) (j : Nat) : Option Nat :=
  match best with
  | none => some j
  | some i => if separation (a i i) > separation (a j j) then some i else some j

def diagonalPivot (stablePivots : Bool) (a : Cells) (k n : Nat) : Option Nat :=
  let candidates := (List.range' k (n - k)).filter fun j => signed (a j j)
  if stablePivots then candidates.foldl (laterMaximum a) none else candidates.head?

def pairs (k n : Nat) : List (Nat × Nat) :=
  (List.range' k (n - k)).flatMap fun i => (List.range' (i + 1) (n - (i + 1))).map fun j => (i, j)

/-- The first pair, in search order, with a certified block. -/
def searchBlock (m : Rounding) (a : Cells) (p : Nat) :
    List (Nat × Nat) → Result (Option (Nat × Nat))
  | [] => .ok none
  | (i, j) :: rest => do
    match ← block m a i j p with
    | some _ => return some (i, j)
    | none => searchBlock m a p rest

/-! ## Elimination -/

section
variable (m : Rounding) (pool : Pool)

/-- The Schur update after a signed diagonal pivot at `k`. -/
def eliminateOne (a : Cells) (n p k : Nat) (updated : Bool) : Result Cells := do
  let inverse ← MpfrInterval.reciprocal m (a k k)
  let column := fun i => below a updated i k
  updateSchurRows pool a n (k + 1) p fun i j previous =>
    one m p previous (column i) (column j) inverse

/-- The Schur update after a certified block at `k`, `k + 1`. -/
def eliminateTwo (a : Cells) (n p k : Nat) (updated : Bool) (b : Block) : Result Cells :=
  let first := fun i => below a updated i k
  let second := fun i => below a updated i (k + 1)
  updateSchurRows pool a n (k + 2) p fun i j previous =>
    two m p previous (first i) (second i) (first j) (second j) b

structure State where
  a : Cells
  pivots : List MpfrInterval
  positive : Nat
  negative : Nat
  k : Nat
  updated : Bool

/-- Record a signed pivot. -/
def State.count (s : State) (pivot : MpfrInterval) : State :=
  { s with
    pivots := s.pivots ++ [pivot]
    positive := if pivot.isStrictlyPositive then s.positive + 1 else s.positive
    negative := if pivot.isStrictlyPositive then s.negative else s.negative + 1 }

def upperFrom (s : State) : Option Nat := if s.updated then some s.k else none

/-- One turn of the loop with a diagonal pivot. -/
def pivotOne (n p : Nat) (s : State) (selected : Nat) : Run State := do
  let a := swap s.a n s.k selected (upperFrom s)
  let s := { s with a }.count (a s.k s.k)
  if s.k + 1 = n then return { s with k := s.k + 1 }
  else
    let a ← lift (eliminateOne m pool a n p s.k s.updated)
    return { s with a, updated := true, k := s.k + 1 }

/-- One turn of the loop with a two by two block. -/
def pivotTwo (n p : Nat) (s : State) (i j : Nat) : Run State := do
  let a := swap s.a n s.k i (upperFrom s)
  let adjusted := if j = s.k then i else j
  let a := swap a n (s.k + 1) adjusted (upperFrom s)
  let b ← expect (← lift (block m a s.k (s.k + 1) p))
    "same certified block after symmetric permutation"
  let s := ({ s with a }.count b.low).count b.high
  let a ← lift (eliminateTwo m pool a n p s.k s.updated b)
  return { s with a, updated := true, k := s.k + 2 }

/-- One turn of the loop: another state, or the final result. -/
def step (n p : Nat) (stablePivots : Bool) (s : State) : Run (State ⊕ MpfrInertiaResult) :=
  match diagonalPivot stablePivots s.a s.k n with
  | some selected => do return .inl (← pivotOne m pool n p s selected)
  | none => do
    match ← lift (searchBlock m s.a p (pairs s.k n)) with
    | some (i, j) => return .inl (← pivotTwo m pool n p s i j)
    | none => return .inr (.inconclusive s.k s.positive s.negative (n - s.k)
        (s.pivots ++ [s.a s.k s.k]) "no remaining signed MPFR interval 1x1 or 2x2 pivot")

/-- Every continuing turn moves the pivot index on, so the loop ends. -/
theorem step_advances {n p : Nat} {stablePivots : Bool} {s s' : State}
    (h : step m pool n p stablePivots s = .ok (.inl s')) : s.k < s'.k := by
  unfold step at h
  split at h
  · obtain ⟨t, ht, h⟩ := bind_eq_ok h
    cases h
    unfold pivotOne at ht
    dsimp only at ht
    split at ht
    · cases ht
      exact Nat.lt_succ_self _
    · obtain ⟨a, _, ht⟩ := bind_eq_ok ht
      cases ht
      exact Nat.lt_succ_self _
  · obtain ⟨found, _, h⟩ := bind_eq_ok h
    cases found with
    | none => cases h
    | some pair =>
      obtain ⟨t, ht, h⟩ := bind_eq_ok h
      cases h
      unfold pivotTwo at ht
      obtain ⟨_, _, ht⟩ := bind_eq_ok ht
      obtain ⟨_, _, ht⟩ := bind_eq_ok ht
      obtain ⟨_, _, ht⟩ := bind_eq_ok ht
      cases ht
      exact Nat.lt_add_of_pos_right (by decide)

def inertiaLoop (n p : Nat) (stablePivots : Bool) (s : State) : Run MpfrInertiaResult :=
  if _hk : s.k < n then
    match _hstep : step m pool n p stablePivots s with
    | .error e => .error e
    | .ok (.inr result) => .ok result
    | .ok (.inl s') => inertiaLoop n p stablePivots s'
  else .ok (.conclusive s.positive s.negative s.pivots)
termination_by n - s.k
decreasing_by
  have := step_advances m pool _hstep
  omega

/-- The row-major input as cells. -/
def cells (matrix : List MpfrInterval) (n : Nat) : Cells :=
  fun i j => matrix.getD (i * n + j) (.invalid 0)

/-- Equality of both endpoints; false on NaN. -/
def sameEndpoints : MpfrInterval → MpfrInterval → Bool
  | .enclosure _ l u _, .enclosure _ l' u' _ => decide (l = l') && decide (u = u')
  | _, _ => false

def validateInertiaInput (matrix : List MpfrInterval) (n p : Nat) :
    Result Unit := do
  check (32 ≤ p && p ≤ 1000000) (.invalid "unsupported interval inertia precision")
  check (n != 0 && n * n < 2 ^ 64 && n * n == matrix.length)
    (.invalid "invalid inertia matrix shape")
  check ((List.range n).all fun i => (List.range i).all fun j =>
    sameEndpoints (cells matrix n i j) (cells matrix n j i)) (.invalid "asymmetric interval matrix")
  check (pool.workers ≤ 1 || pool.uniformExponentRange)
    (.inconclusive "parallel MPFR workers do not share the caller's exponent range")
  matrix.forM fun value => do
    value.validate
    check (value.precision == p) (.invalid "inertia input precision mismatch")

def inertiaImpl (matrix : List MpfrInterval) (n p : Nat)
    (stablePivots : Bool) : Run MpfrInertiaResult := do
  lift (validateInertiaInput pool matrix n p)
  inertiaLoop m pool n p stablePivots
    { a := cells matrix n, pivots := [], positive := 0, negative := 0, k := 0, updated := false }

def inertia (matrix : List MpfrInterval) (n p : Nat) :
    Run MpfrInertiaResult := inertiaImpl m pool matrix n p false

def inertiaStable (matrix : List MpfrInterval) (n p : Nat) :
    Run MpfrInertiaResult := inertiaImpl m pool matrix n p true

end

end Xcelerator.Numerics.SymmetricInertia
