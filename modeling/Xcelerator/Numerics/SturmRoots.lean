import Mathlib
import Xcelerator.Foundations.Machine
import Xcelerator.Numerics.Interval

/-! # Exact Sturm counting and isolation

The rational polynomials of `interval.rs` are vectors of coefficients in
ascending order. The counting entry refuses fewer than two coefficients and no
operation empties a vector, so the `expect`s on an empty one are not reached;
a division by a zero leading coefficient is a panic here. -/

namespace Xcelerator.Numerics.SturmRoots
open Xcelerator.Foundations.Machine (bind_eq_ok)
open Xcelerator.Numerics.Interval

/-! ## Polynomials -/

def evaluateRealPolynomialExact (coefficientsAscending : List ℚ) (argument : ℚ) : Result ℚ :=
  match coefficientsAscending.reverse with
  | [] => .error (.invalid "polynomial must contain at least one coefficient")
  | highest :: rest => .ok (rest.foldl (fun value coefficient =>
    value * argument + coefficient) highest)

def trimPolynomial (polynomial : List ℚ) : List ℚ :=
  if polynomial.length > 1 ∧ polynomial.getLast? = some 0 then trimPolynomial polynomial.dropLast
  else polynomial
termination_by polynomial.length
decreasing_by
  rw [List.length_dropLast]
  omega

/-- The vector `[0]`. -/
def isZeroPolynomial (polynomial : List ℚ) : Bool :=
  polynomial.length == 1 && polynomial.head? == some 0

/-- Divide a polynomial by the absolute value of its leading coefficient. -/
def normalizePolynomialPositive (polynomial : List ℚ) : List ℚ :=
  let polynomial := trimPolynomial polynomial
  let leading := polynomial.getLastD 0
  if leading = 0 then polynomial
  else
    let scale := if leading < 0 then -leading else leading
    polynomial.map (· / scale)

def polynomialDerivative (polynomial : List ℚ) : List ℚ :=
  if polynomial.length ≤ 1 then [0]
  else (polynomial.zipIdx.drop 1).map fun (coefficient, power) => coefficient * power

/-- Subtract the multiple of the divisor that cancels the leading coefficient. -/
def cancelLeading (remainder divisor : List ℚ) : List ℚ :=
  let shift := remainder.length - divisor.length
  let factor := remainder.getLastD 0 / divisor.getLastD 0
  remainder.take shift ++
    List.zipWith (fun r coefficient => r - coefficient * factor) (remainder.drop shift) divisor

/-! ## Termination of the division loops -/

/-- The length of a vector, zero for the zero polynomial. -/
def size (polynomial : List ℚ) : ℕ := if isZeroPolynomial polynomial then 0 else polynomial.length

theorem size_le (p : List ℚ) : size p ≤ p.length := by
  unfold size
  split <;> omega

theorem size_of_not_zero {p : List ℚ} (h : isZeroPolynomial p = false) : size p = p.length := by
  rw [size, if_neg (by simp [h])]

theorem trimPolynomial_length_le (p : List ℚ) : (trimPolynomial p).length ≤ p.length := by
  induction p using trimPolynomial.induct with
  | case1 p h ih =>
    rw [trimPolynomial, if_pos h]
    rw [List.length_dropLast] at ih
    omega
  | case2 p h => rw [trimPolynomial, if_neg h]

theorem trimPolynomial_ne_nil {p : List ℚ} (h : p ≠ []) : trimPolynomial p ≠ [] := by
  induction p using trimPolynomial.induct with
  | case1 p hp ih =>
    rw [trimPolynomial, if_pos hp]
    refine ih fun hnil => ?_
    have := congrArg List.length hnil
    rw [List.length_dropLast, List.length_nil] at this
    omega
  | case2 p hp => rwa [trimPolynomial, if_neg hp]

/-- A trimmed vector ends in a nonzero coefficient or is the zero polynomial. -/
theorem trimPolynomial_last {p : List ℚ} (h : p ≠ []) :
    isZeroPolynomial (trimPolynomial p) = true ∨ (trimPolynomial p).getLastD 0 ≠ 0 := by
  induction p using trimPolynomial.induct with
  | case1 p hp ih =>
    rw [trimPolynomial, if_pos hp]
    refine ih fun hnil => ?_
    have := congrArg List.length hnil
    rw [List.length_dropLast, List.length_nil] at this
    omega
  | case2 p hp =>
    rw [trimPolynomial, if_neg hp]
    obtain ⟨q, c, rfl⟩ : ∃ q c, p = q ++ [c] := ⟨_, _, (List.dropLast_append_getLast h).symm⟩
    simp only [List.length_append, List.length_singleton, List.getLast?_concat, Option.some.injEq,
      List.getLastD_concat, not_and] at hp ⊢
    by_cases hc : c = 0
    · left
      have hq : q = [] := List.eq_nil_of_length_eq_zero (by
        by_contra hne
        exact hp (by omega) hc)
      simp [hq, hc, isZeroPolynomial]
    · exact .inr hc

theorem trimPolynomial_size_lt {p : List ℚ} (h : p.getLast? = some 0) :
    size (trimPolynomial p) < p.length := by
  by_cases hlen : p.length > 1
  · rw [trimPolynomial, if_pos ⟨hlen, h⟩]
    have hle := (size_le _).trans (trimPolynomial_length_le p.dropLast)
    rw [List.length_dropLast] at hle
    omega
  · rw [trimPolynomial, if_neg fun hp => hlen hp.1]
    cases p with
    | nil => cases h
    | cons c p =>
      have hp : p = [] := List.eq_nil_of_length_eq_zero (by simpa using hlen)
      subst hp
      cases h
      simp [size, isZeroPolynomial]

theorem normalizePolynomialPositive_size (p : List ℚ) :
    size (normalizePolynomialPositive p) = size (trimPolynomial p) := by
  unfold normalizePolynomialPositive
  dsimp only
  split
  · rfl
  · rename_i hlead
    cases htrim : trimPolynomial p with
    | nil => rfl
    | cons c q =>
      rw [htrim] at hlead
      unfold size isZeroPolynomial
      cases q with
      | nil =>
        have hc : c ≠ 0 := by simpa using hlead
        have hscale : (if c < 0 then -c else c) ≠ 0 := by split <;> simpa using hc
        simp [hc, hscale]
      | cons d q => simp

theorem cancelLeading_last {remainder divisor : List ℚ} (hd : divisor.getLastD 0 ≠ 0)
    (hlen : divisor.length ≤ remainder.length) :
    (cancelLeading remainder divisor).getLast? = some 0 := by
  have hdne : divisor ≠ [] := fun h => hd (by rw [h]; rfl)
  have hrne : remainder ≠ [] :=
    fun h => hdne (List.eq_nil_of_length_eq_zero (by simpa [h] using hlen))
  obtain ⟨d, c, rfl⟩ : ∃ d c, divisor = d ++ [c] := ⟨_, _, (List.dropLast_append_getLast hdne).symm⟩
  obtain ⟨r, b, rfl⟩ : ∃ r b, remainder = r ++ [b] :=
    ⟨_, _, (List.dropLast_append_getLast hrne).symm⟩
  simp only [List.length_append, List.length_singleton, List.getLastD_concat] at hd hlen
  unfold cancelLeading
  simp only [List.length_append, List.length_singleton, List.getLastD_concat]
  have hshift : r.length + 1 - (d.length + 1) = r.length - d.length := by omega
  rw [hshift, List.drop_append_of_le_length (by omega), List.zipWith_append (by simp; omega)]
  simp [mul_div_cancel₀ b hd]

theorem cancelLeading_length {remainder divisor : List ℚ}
    (hlen : divisor.length ≤ remainder.length) :
    (cancelLeading remainder divisor).length = remainder.length := by
  unfold cancelLeading
  simp
  omega

theorem remainderStep_size {remainder divisor : List ℚ} (hd : divisor.getLastD 0 ≠ 0)
    (hzero : isZeroPolynomial remainder = false) (hlen : divisor.length ≤ remainder.length) :
    size (trimPolynomial (cancelLeading remainder divisor)) < size remainder := by
  rw [size_of_not_zero hzero, ← cancelLeading_length hlen]
  exact trimPolynomial_size_lt (cancelLeading_last hd hlen)

def divisionByZero : Stop := .panic "division by zero"

/-- The loop of the remainder: one leading coefficient a turn, rescaled after each. -/
def remainderLoop (divisor remainder : List ℚ) : Run (List ℚ) :=
  if _hdone : isZeroPolynomial remainder = true ∨ remainder.length < divisor.length then
    .ok remainder
  else if _hlead : divisor.getLastD 0 = 0 then .error divisionByZero
  else remainderLoop divisor (normalizePolynomialPositive (cancelLeading remainder divisor))
termination_by size remainder
decreasing_by
  rw [normalizePolynomialPositive_size]
  rw [not_or, Bool.not_eq_true, not_lt] at _hdone
  exact remainderStep_size _hlead _hdone.1 _hdone.2

def polynomialRemainder (dividend divisor : List ℚ) : Run (List ℚ) :=
  let divisor := trimPolynomial divisor
  if isZeroPolynomial divisor then
    .error (.error (.invalid "polynomial division by zero polynomial"))
  else remainderLoop divisor (trimPolynomial dividend)

theorem remainderLoop_done {divisor remainder r : List ℚ}
    (h : remainderLoop divisor remainder = .ok r) :
    isZeroPolynomial r = true ∨ r.length < divisor.length := by
  induction remainder using remainderLoop.induct divisor with
  | case1 remainder hdone =>
    rw [remainderLoop, dif_pos hdone] at h
    cases h
    exact hdone
  | case2 remainder hdone hlead =>
    rw [remainderLoop, dif_neg hdone, dif_pos hlead] at h
    cases h
  | case3 remainder hdone hlead ih =>
    rw [remainderLoop, dif_neg hdone, dif_neg hlead] at h
    exact ih h

/-- A remainder is zero or shorter than the divisor. -/
theorem polynomialRemainder_size {dividend divisor r : List ℚ}
    (h : polynomialRemainder dividend divisor = .ok r) :
    isZeroPolynomial r = true ∨ r.length < size divisor := by
  unfold polynomialRemainder at h
  dsimp only at h
  split at h
  · cases h
  · rename_i hz
    refine (remainderLoop_done h).imp_right fun hlt => hlt.trans_le ?_
    unfold size
    split
    · rename_i hzero
      -- a zero divisor is refused
      refine absurd ?_ hz
      rw [trimPolynomial, if_neg]
      · exact hzero
      · unfold isZeroPolynomial at hzero
        simp only [Bool.and_eq_true, beq_iff_eq] at hzero
        omega
    · exact trimPolynomial_length_le divisor

/-! ## Root counting -/

structure ExactSturmCount where
  lower : ℚ
  upper : ℚ
  distinctRealRoots : ℕ
  variationsAtLower : ℕ
  variationsAtUpper : ℕ
  squareFree : Bool
  sequenceLength : ℕ
deriving DecidableEq, Repr

/-- One polynomial value in the fold over the sequence. -/
def signStep (state : Option Bool × ℕ) (value : ℚ) : Option Bool × ℕ :=
  if value = 0 then state
  else
    let sign := decide (value > 0)
    (some sign, if state.1 = some (!sign) then state.2 + 1 else state.2)

def sturmVariations (sequence : List (List ℚ)) (point : ℚ) : Result ℕ := do
  let values ← sequence.mapM fun polynomial => evaluateRealPolynomialExact polynomial point
  return (values.foldl signStep (none, 0)).2

/-- The members pushed after the last two of the sequence. -/
def sturmTail (previous current : List ℚ) : Run (List (List ℚ)) :=
  match _h : polynomialRemainder previous current with
  | .error e => .error e
  | .ok remainder =>
    if _hz : isZeroPolynomial remainder = true then .ok []
    else
      let next := normalizePolynomialPositive (remainder.map (-·))
      (sturmTail current next).map (next :: ·)
termination_by size current
decreasing_by
  rw [normalizePolynomialPositive_size]
  have hlt := (polynomialRemainder_size _h).resolve_left _hz
  have hle := (size_le _).trans (trimPolynomial_length_le (remainder.map (-·)))
  rw [List.length_map] at hle
  omega

def sturmSequence (polynomial : List ℚ) : Run (List (List ℚ)) := do
  let second := normalizePolynomialPositive (polynomialDerivative polynomial)
  return polynomial :: second :: (← sturmTail polynomial second)

/-- The count from the sequence of a polynomial without a root at the endpoints. -/
def countVariations (sequence : List (List ℚ)) (lower upper : ℚ) : Result ExactSturmCount := do
  let variationsAtLower ← sturmVariations sequence lower
  let variationsAtUpper ← sturmVariations sequence upper
  check (!decide (variationsAtLower < variationsAtUpper))
    (.invalid "Sturm variation count increased across an ordered interval")
  return {
    lower, upper
    distinctRealRoots := variationsAtLower - variationsAtUpper
    variationsAtLower, variationsAtUpper
    squareFree := (sequence.getLastD []).length == 1
    sequenceLength := sequence.length }

def exactSturmRootCount (coefficientsAscending : List ℚ) (lower upper : ℚ) :
    Run ExactSturmCount := do
  lift (check (!(decide (coefficientsAscending.length < 2) || decide (lower ≥ upper)))
    (.invalid "Sturm counting requires a nonconstant polynomial and lower < upper"))
  let polynomial := normalizePolynomialPositive coefficientsAscending
  lift (check (!decide (polynomial.length < 2))
    (.invalid "Sturm counting polynomial becomes constant after trimming"))
  let atLower ← lift (evaluateRealPolynomialExact polynomial lower)
  let atUpper ← lift (evaluateRealPolynomialExact polynomial upper)
  lift (check (!(decide (atLower = 0) || decide (atUpper = 0)))
    (.inconclusive "Sturm counting interval has a root on its boundary"))
  let sequence ← sturmSequence polynomial
  lift (countVariations sequence lower upper)

/-! ## Square-free part -/

/-- The measure of the Euclidean loop, also for an empty vector. -/
def gcdSize (polynomial : List ℚ) : ℕ :=
  if isZeroPolynomial polynomial then 0 else polynomial.length + 1

/-- The Euclidean loop of a polynomial and its derivative. -/
def gcdLoop (first second : List ℚ) : Run (List ℚ) :=
  if isZeroPolynomial second = true then .ok first
  else
    match _h : polynomialRemainder first second with
    | .error e => .error e
    | .ok remainder => gcdLoop second remainder
termination_by gcdSize second
decreasing_by
  have hle := size_le second
  unfold gcdSize
  rcases polynomialRemainder_size _h with hz | hlt
  · simp_all
  · split <;> simp_all
    omega

/-- Exact division; the quotient vector has room for every shift. -/
def quotientLoop (divisor quotient remainder : List ℚ) : Run (List ℚ × List ℚ) :=
  if _hdone : isZeroPolynomial remainder = true ∨ remainder.length < divisor.length then
    .ok (quotient, remainder)
  else if _hlead : divisor.getLastD 0 = 0 then .error divisionByZero
  else
    let shift := remainder.length - divisor.length
    let factor := remainder.getLastD 0 / divisor.getLastD 0
    quotientLoop divisor (quotient.modify shift (· + factor))
      (trimPolynomial (cancelLeading remainder divisor))
termination_by size remainder
decreasing_by
  rw [not_or, Bool.not_eq_true, not_lt] at _hdone
  exact remainderStep_size _hlead _hdone.1 _hdone.2

def polynomialSquareFreePart (coefficients : List ℚ) : Run (List ℚ) := do
  let original := trimPolynomial coefficients
  let first ← gcdLoop original (polynomialDerivative original)
  let divisor := normalizePolynomialPositive first
  let result ← quotientLoop divisor
    (List.replicate (original.length - divisor.length + 1) 0) original
  lift (check (!result.2.any fun x => decide (x ≠ 0))
    (.invalid "polynomial gcd division was not exact"))
  return normalizePolynomialPositive result.1

/-! ## Isolation -/

/-- A subinterval with a known root count. -/
structure Pending where
  left : ℚ
  right : ℚ
  count : ℕ
  depth : ℕ
deriving DecidableEq, Repr

/-- The first of the candidate points that is not a root. -/
def chooseSplit (coefficientsAscending : List ℚ) (left width : ℚ) : List ℕ → Result ℚ
  | [] => .error (.inconclusive "could not choose a non-root rational Sturm subdivision point")
  | denominator :: rest => do
    let candidate := left + width / denominator
    if (← evaluateRealPolynomialExact coefficientsAscending candidate) ≠ 0 then return candidate
    else chooseSplit coefficientsAscending left width rest

def splitItem (coefficientsAscending : List ℚ) (maximumDepth : ℕ) (item : Pending) :
    Run (Pending × Pending) := do
  let count := item.count
  lift (check (!decide (item.depth ≥ maximumDepth)) (.inconclusive
    s!"Sturm isolation reached depth {maximumDepth} with {count} unresolved roots"))
  let split ← lift (chooseSplit coefficientsAscending item.left (item.right - item.left)
    (List.range' 2 18))
  let leftCount ← exactSturmRootCount coefficientsAscending item.left split
  let rightCount ← exactSturmRootCount coefficientsAscending split item.right
  lift (check (decide (leftCount.distinctRealRoots + rightCount.distinctRealRoots = count))
    (.invalid "Sturm subdivision count did not conserve the parent count"))
  return (⟨item.left, split, leftCount.distinctRealRoots, item.depth + 1⟩,
    ⟨split, item.right, rightCount.distinctRealRoots, item.depth + 1⟩)

theorem splitItem_depth {coefficients : List ℚ} {maximumDepth : ℕ} {item l r : Pending}
    (h : splitItem coefficients maximumDepth item = .ok (l, r)) :
    item.depth < maximumDepth ∧ l.depth = item.depth + 1 ∧ r.depth = item.depth + 1 := by
  unfold splitItem at h
  obtain ⟨_, hdepth, h⟩ := bind_eq_ok h
  obtain ⟨_, _, h⟩ := bind_eq_ok h
  obtain ⟨_, _, h⟩ := bind_eq_ok h
  obtain ⟨_, _, h⟩ := bind_eq_ok h
  obtain ⟨_, _, h⟩ := bind_eq_ok h
  cases h
  exact ⟨by simpa using check_ok (lift_ok hdepth), rfl, rfl⟩

/-- The remaining work of a subinterval: a split replaces it by two of less than half. -/
def work (maximumDepth : ℕ) (item : Pending) : ℕ := 3 ^ (maximumDepth + 1 - item.depth)

/-- The loop over the stack; the top of the stack is the head of the list. -/
def isolateLoop (coefficientsAscending : List ℚ) (targetWidth : ℚ) (maximumDepth : ℕ)
    (pending : List Pending) (isolated : List RationalInterval) : Run (List RationalInterval) :=
  match pending with
  | [] => .ok isolated
  | item :: rest =>
    if item.count = 0 then
      isolateLoop coefficientsAscending targetWidth maximumDepth rest isolated
    else if item.count = 1 ∧ item.right - item.left ≤ targetWidth then
      match RationalInterval.new item.left item.right with
      | .error e => .error (.error e)
      | .ok interval =>
        isolateLoop coefficientsAscending targetWidth maximumDepth rest (isolated ++ [interval])
    else
      match _h : splitItem coefficientsAscending maximumDepth item with
      | .error e => .error e
      | .ok (l, r) =>
        isolateLoop coefficientsAscending targetWidth maximumDepth (l :: r :: rest) isolated
termination_by (pending.map (work maximumDepth)).sum
decreasing_by
  · simp [work]
  · simp [work]
  · obtain ⟨hdepth, hl, hr⟩ := splitItem_depth _h
    obtain ⟨d, hd⟩ : ∃ d, maximumDepth - item.depth = d := ⟨_, rfl⟩
    have h1 : maximumDepth + 1 - (item.depth + 1) = d := by omega
    have h2 : maximumDepth + 1 - item.depth = d + 1 := by omega
    have hpos : 0 < 3 ^ d := by positivity
    simp only [List.map_cons, List.sum_cons, work, hl, hr, h1, h2, pow_succ]
    omega

/-- The polynomial that is subdivided: repeated factors are removed when there are any. -/
def isolationCoefficients (coefficientsAscending : List ℚ) (squareFree : Bool) : Run (List ℚ) :=
  if squareFree then .ok coefficientsAscending else polynomialSquareFreePart coefficientsAscending

def exactSturmIsolateRoots (coefficientsAscending : List ℚ) (lower upper targetWidth : ℚ)
    (maximumDepth : ℕ) : Run (List RationalInterval) := do
  lift (check (!(decide (targetWidth ≤ 0) || decide (maximumDepth = 0)))
    (.invalid "Sturm isolation requires positive target width and subdivision depth"))
  let initial ← exactSturmRootCount coefficientsAscending lower upper
  let coefficientsAscending ← isolationCoefficients coefficientsAscending initial.squareFree
  let isolated ← isolateLoop coefficientsAscending targetWidth maximumDepth
    [⟨lower, upper, initial.distinctRealRoots, 0⟩] []
  return isolated.insertionSort fun left right => left.lower ≤ right.lower

end Xcelerator.Numerics.SturmRoots
