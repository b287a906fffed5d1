import Mathlib
import Xcelerator.Foundations.TriangularFactors
import Xcelerator.Foundations.Machine
import Xcelerator.Foundations.Workspace
import Xcelerator.Certify.Records

/-! # Exact unpivoted inertia

The exact `LDL^T` routine of `xc-certify` on a flat row-major matrix of
rationals. After any number of pivots the arrays satisfy the column recurrence
of the factorization, so the next pivot vanishes exactly when the next leading
minor does, and a finished run counts the signs of the eigenvalues. -/

namespace Xcelerator.Certify.ExactLdlt
open Matrix
open Xcelerator.Foundations.Inertia Xcelerator.Foundations.TriangularFactors
open Xcelerator.Foundations.Workspace
open Xcelerator.Certify.Records

structure ExactInertia where
  positive : Nat
  negative : Nat
  zeroOrUnresolved : Nat
deriving DecidableEq, Repr

/-- The arrays and counters of a run. -/
structure Elimination where
  lower : Cells ℚ
  diagonal : Nat → ℚ
  positive : Nat
  negative : Nat

def entry (matrix : List ℚ) (dimension row column : Nat) : ℚ :=
  matrix.getD (row * dimension + column) 0

/-- An entry less the terms of the prior columns. -/
def residual (M : Cells ℚ) (s : Elimination) (row column : Nat) : ℚ :=
  (List.range column).foldl
    (fun value prior => value - s.lower row prior * s.lower column prior * s.diagonal prior)
    (M row column)

def zeroPivotMessage (pivotIndex : Nat) : String :=
  "exact LDL^T encountered a zero pivot at index " ++ toString pivotIndex ++
    "; use a pivoted certified backend"

/-- One row below the pivot. -/
def fillRow (M : Cells ℚ) (column : Nat) (s : Elimination) (row : Nat) : Elimination :=
  { s with lower := s.lower.set row column (residual M s row column / s.diagonal column) }

def pivotStep (M : Cells ℚ) (dimension : Nat) (s : Elimination) (pivotIndex : Nat) :
    Result Elimination :=
  let s := { s with lower := s.lower.set pivotIndex pivotIndex 1 }
  let pivot := residual M s pivotIndex pivotIndex
  if pivot = 0 then .error (.unsupported (zeroPivotMessage pivotIndex))
  else
    let s := { s with
      positive := if 0 < pivot then s.positive + 1 else s.positive
      negative := if 0 < pivot then s.negative else s.negative + 1
      diagonal := Function.update s.diagonal pivotIndex pivot }
    .ok ((List.range' (pivotIndex + 1) (dimension - (pivotIndex + 1))).foldl
      (fillRow M pivotIndex) s)

def asymmetry (M : Cells ℚ) (dimension : Nat) : Option (Nat × Nat) :=
  ((List.range dimension).flatMap fun row => (List.range row).map fun column => (row, column)).find?
    fun cell => M cell.1 cell.2 ≠ M cell.2 cell.1

def exactSymmetricLdltInertia (matrix : List ℚ) (dimension : Nat) : Result ExactInertia := do
  check (dimension != 0 && matrix.length == min (dimension * dimension) (2 ^ 64 - 1))
    (.invalid ("exact matrix length " ++ toString matrix.length ++ " does not match dimension " ++
      toString dimension))
  match asymmetry (entry matrix dimension) dimension with
  | some (row, column) =>
    .error (.invalid ("exact matrix is not symmetric at (" ++ toString row ++ ", " ++
      toString column ++ ")"))
  | none => do
    let s ← (List.range dimension).foldlM (pivotStep (entry matrix dimension) dimension)
      { lower := fun _ _ => 0, diagonal := fun _ => 0, positive := 0, negative := 0 }
    return { positive := s.positive, negative := s.negative, zeroOrUnresolved := 0 }

/-! ## One pivot -/

theorem foldl_sub (f : Nat → ℚ) (a : ℚ) (n : Nat) :
    (List.range n).foldl (fun value j => value - f j) a = a - ∑ j ∈ Finset.range n, f j := by
  induction n with
  | zero => simp
  | succ n ih =>
    rw [List.range_succ, List.foldl_append, ih, Finset.sum_range_succ]
    simp only [List.foldl_cons, List.foldl_nil]
    ring

theorem residual_eq (M : Cells ℚ) (s : Elimination) (row column : Nat) :
    residual M s row column =
      M row column - ∑ j ∈ Finset.range column, s.lower row j * s.lower column j * s.diagonal j :=
  foldl_sub _ _ _

/-- A residual reads the columns before its own. -/
theorem residual_congr {M : Cells ℚ} {s t : Elimination} {row column : Nat}
    (hlower : ∀ i, ∀ j < column, s.lower i j = t.lower i j)
    (hdiagonal : ∀ j < column, s.diagonal j = t.diagonal j) :
    residual M s row column = residual M t row column := by
  rw [residual_eq, residual_eq]
  congr 1
  refine Finset.sum_congr rfl fun j hj => ?_
  have hj := Finset.mem_range.mp hj
  rw [hlower row j hj, hlower column j hj, hdiagonal j hj]

/-- What filling a column leaves. -/
structure Filled (M : Cells ℚ) (column : Nat) (rows : List Nat) (s t : Elimination) : Prop where
  counters : t.diagonal = s.diagonal ∧ t.positive = s.positive ∧ t.negative = s.negative
  written : ∀ row ∈ rows, t.lower row column = residual M s row column / s.diagonal column
  kept : ∀ i j, j ≠ column ∨ i ∉ rows → t.lower i j = s.lower i j

theorem foldl_fillRow (M : Cells ℚ) (column : Nat) {rows : List Nat} (hnodup : rows.Nodup)
    (s : Elimination) :
    Filled M column rows s (rows.foldl (fillRow M column) s) := by
  induction rows generalizing s with
  | nil => exact ⟨⟨rfl, rfl, rfl⟩, by simp, fun _ _ _ => rfl⟩
  | cons row rows ih =>
    obtain ⟨hrow, hrows⟩ := List.nodup_cons.mp hnodup
    obtain ⟨hcounters, hwritten, hkept⟩ := ih hrows (fillRow M column s row)
    have hset : ∀ i j, j ≠ column ∨ i ≠ row → (fillRow M column s row).lower i j = s.lower i j := by
      intro i j h
      simp only [fillRow, Cells.set]
      rw [if_neg]
      rintro ⟨rfl, rfl⟩
      simp at h
    refine ⟨hcounters, ?_, ?_⟩
    · intro r hr
      rw [List.foldl_cons]
      rcases List.mem_cons.mp hr with rfl | hr
      · rw [hkept r column (.inr hrow)]
        simp [fillRow, Cells.set]
      · rw [hwritten r hr]
        congr 1
        exact residual_congr (fun i j hj => hset i j (.inl hj.ne)) fun j _ => rfl
    · intro i j h
      rw [List.foldl_cons, hkept i j (h.imp_right fun h hi => h (List.mem_cons_of_mem _ hi)),
        hset i j]
      exact h.imp_right fun h hi => h (hi ▸ List.mem_cons_self)

/-- The state after the first `done` pivots. -/
structure Progress (M : Cells ℚ) (dimension done : Nat) (s : Elimination) : Prop where
  factors : Factors M s.lower s.diagonal done dimension
  pivots : ∀ q < done, s.diagonal q ≠ 0
  positive : s.positive = ((Finset.range done).filter fun j => 0 < s.diagonal j).card
  negative : s.negative = ((Finset.range done).filter fun j => s.diagonal j < 0).card

/-- A column that holds a unit and the residuals over the pivot extends the factors. -/
theorem Factors.extend {M L L' : Cells ℚ} {D D' : Nat → ℚ} {p rows : Nat} (h : Factors M L D p rows)
    (hlower : ∀ i, ∀ j < p, L' i j = L i j) (hdiagonal : ∀ j < p, D' j = D j) (hunit : L' p p = 1)
    (hcolumn : ∀ r, p ≤ r → r < rows →
      L' r p * D' p = M r p - ∑ j ∈ Finset.range p, L r j * L p j * D j) :
    Factors M L' D' (p + 1) rows := by
  refine ⟨fun q hq => ?_, fun q hq r hqr hr => ?_⟩
  · rcases Nat.lt_succ_iff_lt_or_eq.mp hq with hlt | rfl
    · rw [hlower q q hlt, h.unit q hlt]
    · exact hunit
  · rcases Nat.lt_succ_iff_lt_or_eq.mp hq with hlt | rfl
    · rw [h.column q hlt r hqr hr]
      refine Finset.sum_congr rfl fun j hj => ?_
      have hj := Nat.lt_of_lt_of_le (Finset.mem_range.mp hj) (Nat.succ_le_of_lt hlt)
      rw [hlower r j hj, hlower q j hj, hdiagonal j hj]
    · rw [Finset.sum_range_succ, hunit, mul_one, hcolumn r hqr hr]
      have hsum : ∑ j ∈ Finset.range q, L' r j * L' q j * D' j = ∑ j ∈ Finset.range q,
          L r j * L q j * D j := by
        refine Finset.sum_congr rfl fun j hj => ?_
        have hj := Finset.mem_range.mp hj
        rw [hlower r j hj, hlower q j hj, hdiagonal j hj]
      rw [hsum]
      ring

theorem card_filter_succ (p : Nat) (P : Nat → Prop) [DecidablePred P] :
    ((Finset.range (p + 1)).filter P).card =
      ((Finset.range p).filter P).card + if P p then 1 else 0 := by
  rw [Finset.card_filter, Finset.card_filter, Finset.sum_range_succ]

theorem card_filter_update {p : Nat} {D : Nat → ℚ} {v : ℚ} (P : ℚ → Prop) [DecidablePred P] :
    ((Finset.range p).filter fun j => P (Function.update D p v j)).card =
      ((Finset.range p).filter fun j => P (D j)).card := by
  congr 1
  refine Finset.filter_congr fun j hj => ?_
  rw [Function.update_of_ne (Finset.mem_range.mp hj).ne]

section
variable {M : Cells ℚ} {n p : Nat} {s : Elimination}

/-- One pivot: a vanishing leading minor stops the run, any other carries it on. -/
theorem pivotStep_spec (hM : ∀ i < n, ∀ j < n, M i j = M j i) (h : Progress M n p s) (hp : p < n) :
    (pivotStep M n s p = .error (.unsupported (zeroPivotMessage p)) ∧ (leading M (p + 1)).det = 0) ∨
      ∃ t, pivotStep M n s p = .ok t ∧ Progress M n (p + 1) t := by
  unfold pivotStep
  have hset : ∀ i j, ¬(i = p ∧ j = p) → s.lower.set p p 1 i j = s.lower i j := fun i j h => if_neg h
  have hunit : s.lower.set p p 1 p p = 1 := if_pos ⟨rfl, rfl⟩
  have hprior : ∀ i, ∀ j < p, s.lower.set p p 1 i j = s.lower i j :=
    fun i j hj => hset i j fun h => hj.ne h.2
  have hresidual : residual M { s with lower := s.lower.set p p 1 } p p =
      M p p - ∑ j ∈ Finset.range p, s.lower p j * s.lower p j * s.diagonal j := by
    rw [← residual_eq]
    exact residual_congr hprior fun j _ => rfl
  dsimp only
  generalize hpivot : residual M { s with lower := s.lower.set p p 1 } p p = pivot at hresidual ⊢
  have hupdated : ∀ j < p, Function.update s.diagonal p pivot j = s.diagonal j :=
    fun j hj => Function.update_of_ne hj.ne _ _
  split
  · rename_i hzero
    left
    refine ⟨rfl, ?_⟩
    -- the factorization reaches the block with a zero last pivot
    have hfactors : Factors M (s.lower.set p p 1) (Function.update s.diagonal p 0) (p + 1)
        (p + 1) := by
      refine Factors.extend (L := s.lower) (D := s.diagonal) ⟨h.factors.unit, fun q hq r hqr hr =>
        h.factors.column q hq r hqr (hr.trans_le hp)⟩ hprior
        (fun j hj => Function.update_of_ne hj.ne _ _) hunit fun r hpr hr => ?_
      have hrp : r = p := by omega
      subst hrp
      rw [Function.update_self, mul_zero, ← hresidual, hzero]
    rw [hfactors.det_leading le_rfl fun i hi j hj => hM i (by omega) j (by omega),
      Finset.prod_range_succ, Function.update_self, mul_zero]
  · rename_i hne
    right
    refine ⟨_, rfl, ?_⟩
    have hfilled := foldl_fillRow M p
      (List.nodup_range' (s := p + 1) (n := n - (p + 1))) { s with
        lower := s.lower.set p p 1
        positive := if 0 < pivot then s.positive + 1 else s.positive
        negative := if 0 < pivot then s.negative else s.negative + 1
        diagonal := Function.update s.diagonal p pivot }
    generalize (List.range' (p + 1) (n - (p + 1))).foldl (fillRow M p) _ = t at hfilled ⊢
    obtain ⟨⟨hdiagonal, hpositive, hnegative⟩, hwritten, hkept⟩ := hfilled
    dsimp only at hdiagonal hpositive hnegative hwritten hkept
    have hkeptp : ∀ i, ∀ j < p, t.lower i j = s.lower i j := fun i j hj =>
      (hkept i j (.inl hj.ne)).trans (hprior i j hj)
    have hown : t.lower p p = 1 := by
      rw [hkept p p (.inr (by simp [List.mem_range'_1]))]
      exact hunit
    refine ⟨?_, fun q hq => ?_, ?_, ?_⟩
    · rw [hdiagonal]
      refine Factors.extend h.factors hkeptp hupdated hown fun r hpr hr => ?_
      rw [Function.update_self]
      rcases hpr.eq_or_lt with rfl | hlt
      · rw [hown, one_mul, hresidual]
      · rw [hwritten r (List.mem_range'_1.mpr ⟨hlt, by omega⟩), ← residual_eq]
        rw [Function.update_self, div_mul_cancel₀ _ hne]
        exact residual_congr hprior hupdated
    · rw [hdiagonal]
      rcases Nat.lt_succ_iff_lt_or_eq.mp hq with hlt | rfl
      · rw [hupdated q hlt]
        exact h.pivots q hlt
      · rwa [Function.update_self]
    · rw [hpositive, hdiagonal, card_filter_succ, card_filter_update (0 < ·), ← h.positive,
        Function.update_self]
      split <;> rfl
    · rw [hnegative, hdiagonal, card_filter_succ, card_filter_update (· < 0), ← h.negative,
        Function.update_self]
      by_cases hpos : 0 < pivot
      · rw [if_pos hpos, if_neg (not_lt.mpr hpos.le)]
        rfl
      · rw [if_neg hpos, if_pos (lt_of_le_of_ne (not_lt.mp hpos) hne)]

/-! ## A run -/

/-- The first vanishing leading minor. -/
structure FirstSingular (M : Cells ℚ) (i : Nat) : Prop where
  singular : (leading M (i + 1)).det = 0
  before : ∀ k, 1 ≤ k → k ≤ i → (leading M k).det ≠ 0

theorem Progress.minors (hM : ∀ i < n, ∀ j < n, M i j = M j i) (h : Progress M n p s)
    (hp : p ≤ n) {k : Nat} (hk : k ≤ p) : (leading M k).det ≠ 0 := by
  rw [(h.factors.restrict hk).det_leading (hk.trans hp) fun i hi j hj =>
    hM i (by omega) j (by omega)]
  exact Finset.prod_ne_zero_iff.mpr fun j hj => h.pivots j ((Finset.mem_range.mp hj).trans_le hk)

/-- The run stops at the first vanishing minor or carries the invariant to the end. -/
theorem run_spec (hM : ∀ i < n, ∀ j < n, M i j = M j i) (hs : Progress M n 0 s) {k : Nat}
    (hk : k ≤ n) :
    (∃ i < k, (List.range k).foldlM (pivotStep M n) s = .error (.unsupported (zeroPivotMessage i)) ∧
        FirstSingular M i) ∨
      ∃ t, (List.range k).foldlM (pivotStep M n) s = .ok t ∧ Progress M n k t := by
  induction k with
  | zero => exact .inr ⟨s, rfl, hs⟩
  | succ k ih =>
    rw [List.range_succ, List.foldlM_append]
    rcases ih (by omega) with ⟨i, hi, hrun, hsingular⟩ | ⟨t, hrun, ht⟩
    · left
      rw [hrun]
      exact ⟨i, by omega, rfl, hsingular⟩
    · rw [hrun]
      rcases pivotStep_spec hM ht (by omega) with ⟨hstep, hdet⟩ | ⟨u, hstep, hu⟩
      · left
        refine ⟨k, by omega, ?_, hdet, fun j _ hj => ht.minors hM (by omega) hj⟩
        show pivotStep M n t k >>= pure = _
        rw [hstep]
        rfl
      · right
        refine ⟨u, ?_, hu⟩
        show pivotStep M n t k >>= pure = _
        rw [hstep]
        rfl

end

theorem progress_initial (M : Cells ℚ) (n : Nat) :
    Progress M n 0 { lower := fun _ _ => 0, diagonal := fun _ => 0, positive := 0, negative := 0
      } :=
  ⟨⟨by simp, by simp⟩, by simp, by simp, by simp⟩

theorem asymmetry_none {M : Cells ℚ} {n : Nat} (h : ∀ i < n, ∀ j < n, M i j = M j i) :
    asymmetry M n = none := by
  unfold asymmetry
  rw [List.find?_eq_none]
  intro cell hcell
  obtain ⟨row, hrow, hcell⟩ := List.mem_flatMap.mp hcell
  obtain ⟨column, hcolumn, rfl⟩ := List.mem_map.mp hcell
  have hrow := List.mem_range.mp hrow
  have hcolumn := List.mem_range.mp hcolumn
  simpa using h row hrow column (by omega)

/-! ## Eigenvalues -/

/-- The matrix over the reals. -/
def realMatrix (matrix : List ℚ) (n : Nat) : Matrix (Fin n) (Fin n) ℝ :=
  leading (fun i j => (entry matrix n i j : ℝ)) n

/-- A symmetric matrix whose slice fits a `usize`. -/
structure SymmetricMatrix (matrix : List ℚ) (n : Nat) : Prop where
  positive : 1 ≤ n
  length : matrix.length = n * n
  fits : n * n < 2 ^ 64
  symmetric : ∀ i < n, ∀ j < n, entry matrix n i j = entry matrix n j i

theorem SymmetricMatrix.hermitian {matrix : List ℚ} {n : Nat} (h : SymmetricMatrix matrix n) :
    (realMatrix matrix n).IsHermitian := by
  ext i j
  show ((entry matrix n j i : ℚ) : ℝ) = entry matrix n i j
  rw [h.symmetric j j.isLt i i.isLt]

/-- The signs of the pivots are the signs of the eigenvalues. -/
theorem Progress.eigenvalues {matrix : List ℚ} {n : Nat} (h : SymmetricMatrix matrix n)
    {s : Elimination} (hs : Progress (entry matrix n) n n s) :
    positiveCount h.hermitian.eigenvalues = s.positive ∧ negativeCount h.hermitian.eigenvalues =
      s.negative := by
  have hfactors : Factors (fun i j => (entry matrix n i j : ℝ)) (fun i j => (s.lower i j : ℝ))
      (fun j => (s.diagonal j : ℝ)) n n := by
    refine ⟨fun q hq => ?_, fun q hq r hqr hr => ?_⟩
    · rw [hs.factors.unit q hq, Rat.cast_one]
    · rw [hs.factors.column q hq r hqr hr]
      push_cast
      rfl
  have hsignature : HasSignature (realMatrix matrix n) _ _ :=
    hfactors.hasSignature le_rfl fun i hi j hj => congrArg _ (h.symmetric i hi j hj)
  obtain ⟨hpositive, hnegative⟩ := hsignature.eigenvalues h.hermitian
  rw [hpositive, hnegative, hs.positive, hs.negative]
  refine ⟨congrArg _ (Finset.filter_congr fun j _ => ?_),
    congrArg _ (Finset.filter_congr fun j _ => ?_)⟩
  · exact Rat.cast_pos
  · exact Rat.cast_lt_zero

/-- Exact inertia succeeds exactly on nonzero leading minors, with the eigenvalue
counts, and otherwise names the first vanishing minor. -/
theorem exactSymmetricLdltInertia_spec {matrix : List ℚ} {n : Nat} (h : SymmetricMatrix matrix n) :
    ((∃ inertia, exactSymmetricLdltInertia matrix n = .ok inertia) ↔
        ∀ k, 1 ≤ k → k ≤ n → (leading (entry matrix n) k).det ≠ 0) ∧
      (∀ inertia, exactSymmetricLdltInertia matrix n = .ok inertia →
        (inertia.positive = positiveCount h.hermitian.eigenvalues ∧
          inertia.negative = negativeCount h.hermitian.eigenvalues) ∧
          inertia.zeroOrUnresolved = 0) ∧
      ((∃ k, 1 ≤ k ∧ k ≤ n ∧ (leading (entry matrix n) k).det = 0) →
        ∃ i < n, FirstSingular (entry matrix n) i ∧
          exactSymmetricLdltInertia matrix n = .error (.unsupported (zeroPivotMessage i))) := by
  have hcheck : (n != 0 && matrix.length == min (n * n) (2 ^ 64 - 1)) = true := by
    have hn := h.positive
    have hfits := h.fits
    rw [h.length, min_eq_left (by omega)]
    simp
    omega
  have hrun : exactSymmetricLdltInertia matrix n =
      ((List.range n).foldlM (pivotStep (entry matrix n) n)
        { lower := fun _ _ => 0, diagonal := fun _ => 0, positive := 0, negative := 0 } >>= fun s =>
          .ok { positive := s.positive, negative := s.negative, zeroOrUnresolved := 0 }) := by
    unfold exactSymmetricLdltInertia check
    rw [hcheck, asymmetry_none h.symmetric]
    rfl
  rcases run_spec h.symmetric (progress_initial (entry matrix n) n) le_rfl with
    ⟨i, hi, herror, hsingular⟩ | ⟨s, hok, hs⟩
  · have hresult : exactSymmetricLdltInertia matrix n =
        .error (.unsupported (zeroPivotMessage i)) := by
      rw [hrun, herror]
      rfl
    refine ⟨⟨fun ⟨inertia, hinertia⟩ => ?_, fun hall => ?_⟩, fun inertia hinertia =>
      ?_, fun _ => ?_⟩
    · rw [hresult] at hinertia
      cases hinertia
    · exact absurd hsingular.singular (hall (i + 1) (by omega) (by omega))
    · rw [hresult] at hinertia
      cases hinertia
    · exact ⟨i, hi, hsingular, hresult⟩
  · have hresult : exactSymmetricLdltInertia matrix n =
        .ok { positive := s.positive, negative := s.negative, zeroOrUnresolved := 0 } := by
      rw [hrun, hok]
      rfl
    have hminors : ∀ k, 1 ≤ k → k ≤ n → (leading (entry matrix n) k).det ≠ 0 :=
      fun k _ hk => hs.minors h.symmetric le_rfl hk
    refine ⟨⟨fun _ => hminors, fun _ => ⟨_, hresult⟩⟩, fun inertia hinertia => ?_, ?_⟩
    · rw [hresult] at hinertia
      cases hinertia
      obtain ⟨hpositive, hnegative⟩ := hs.eigenvalues h
      exact ⟨⟨hpositive.symm, hnegative.symm⟩, rfl⟩
    · rintro ⟨k, hk, hkn, hdet⟩
      exact absurd hdet (hminors k hk hkn)

/-- An indefinite matrix with one eigenvalue of each sign. -/
theorem exactSymmetricLdltInertia_spec_indefinite :
    ∃ h : SymmetricMatrix [1, 2, 2, 1] 2,
      positiveCount h.hermitian.eigenvalues = 1 ∧ negativeCount h.hermitian.eigenvalues = 1 := by
  have h : SymmetricMatrix [1, 2, 2, 1] 2 := by
    refine ⟨by decide, rfl, by decide, ?_⟩
    decide +kernel
  have hrun : exactSymmetricLdltInertia [1, 2, 2, 1] 2 = .ok ⟨1, 1, 0⟩ := by decide +kernel
  obtain ⟨hpositive, hnegative⟩ := ((exactSymmetricLdltInertia_spec h).2.1 _ hrun).1
  exact ⟨h, hpositive.symm, hnegative.symm⟩

end Xcelerator.Certify.ExactLdlt
