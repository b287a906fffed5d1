import Mathlib
import Xcelerator.Foundations.Machine
import Xcelerator.Foundations.RowReduction
import Xcelerator.Spectral.ResearchExact

/-! # The Schur diagnostic is exact

Every turn of the elimination keeps the solutions of the bordered system and whether its
block is singular; a column without a pivot is found exactly when it is. What is solved
backwards solves the original system, so the check never refuses it. -/

namespace Xcelerator.Spectral.ResearchExact
open Matrix
open Xcelerator.Foundations.RowReduction Xcelerator.Foundations.Workspace
open Xcelerator.Foundations.Machine (ok_bind)

/-! ## Outcomes -/

/-- The budget refuses, the prefix is reported singular and is, or a result has the property. -/
def Within {α : Type} (singular : Prop) (Q : α → Prop) (x : Result α) : Prop :=
  x = .error budgetMessage ∨ (x = .error singularMessage ∧ singular) ∨ ∃ a, x = .ok a ∧ Q a

section
variable {α β : Type} {singular : Prop} {Q : α → Prop}

theorem Within.ok {a : α} (h : Q a) : Within singular Q (.ok a) := .inr (.inr ⟨a, rfl, h⟩)

theorem Within.bind {R : β → Prop} {x : Result α} {f : α → Result β} (hx : Within singular Q x)
    (hf : ∀ a, Q a → Within singular R (f a)) : Within singular R (x >>= f) := by
  rcases hx with rfl | ⟨rfl, hsingular⟩ | ⟨a, rfl, ha⟩
  · exact .inl rfl
  · exact .inr (.inl ⟨rfl, hsingular⟩)
  · exact hf a ha

theorem within_budget (xs : List ℚ) : Within singular (fun _ => True) (budget xs) := by
  rw [budget, refuse]
  split
  · exact .inl rfl
  · exact .ok trivial

/-- A loop upwards, by an invariant of its counter. -/
theorem Within.upwards {P : Nat → α → Prop} {f : α → Nat → Result α} {start : Nat} (count : Nat)
    {a : α} (ha : P start a)
    (hstep : ∀ i, start ≤ i → i < start + count → ∀ a, P i a →
      Within singular (P (i + 1)) (f a i)) :
    Within singular (P (start + count)) ((List.range' start count).foldlM f a) := by
  induction count generalizing start a with
  | zero => exact .ok ha
  | succ count ih =>
    rw [List.range'_succ, List.foldlM_cons]
    refine (hstep start le_rfl (by omega) a ha).bind fun next hnext => ?_
    have hrest := ih hnext fun i hi hlt => hstep i (by omega) (by omega)
    rwa [Nat.add_right_comm] at hrest

theorem Within.range {P : Nat → α → Prop} {f : α → Nat → Result α} (n : Nat) {a : α} (ha : P 0 a)
    (hstep : ∀ i < n, ∀ a, P i a → Within singular (P (i + 1)) (f a i)) :
    Within singular (P n) ((List.range n).foldlM f a) := by
  rw [List.range_eq_range']
  have h := Within.upwards n ha fun i _ hi => hstep i (by omega)
  rwa [Nat.zero_add] at h

/-- A loop downwards. -/
theorem Within.downwards {P : Nat → α → Prop} {f : α → Nat → Result α} (n : Nat) {a : α}
    (ha : P n a) (hstep : ∀ i < n, ∀ a, P (i + 1) a → Within singular (P i) (f a i)) :
    Within singular (P 0) ((List.range n).reverse.foldlM f a) := by
  induction n generalizing a with
  | zero => exact .ok ha
  | succ n ih =>
    rw [List.range_succ, List.reverse_append, List.reverse_singleton, List.singleton_append,
      List.foldlM_cons]
    exact (hstep n (by omega) a ha).bind fun next hnext => ih hnext fun i hi => hstep i (by omega)

theorem Within.forM {xs : List α} {f : α → Result Unit}
    (h : ∀ x ∈ xs, Within singular (fun _ => True) (f x)) :
    Within singular (fun _ => True) (xs.forM f) := by
  induction xs with
  | nil => exact .ok trivial
  | cons x xs ih =>
    rw [List.forall_mem_cons] at h
    exact h.1.bind fun _ _ => ih h.2

end

/-! ## Arrays as a system -/

def matrixOf (n : Nat) (a : Cells ℚ) : Matrix (Fin n) (Fin n) ℚ := Matrix.of fun i j => a i j

def vectorOf (n : Nat) (v : Nat → ℚ) : Fin n → ℚ := fun i => v i

@[simp] theorem matrixOf_apply (n : Nat) (a : Cells ℚ) (i j : Fin n) : matrixOf n a i j = a i j :=
  rfl

@[simp] theorem vectorOf_apply (n : Nat) (v : Nat → ℚ) (i : Fin n) : vectorOf n v i = v i := rfl

theorem mulVec_matrixOf (n : Nat) (a : Cells ℚ) (x : Nat → ℚ) (i : Fin n) :
    (matrixOf n a *ᵥ vectorOf n x) i = ∑ j ∈ Finset.range n, a i j * x j :=
  Fin.sum_univ_eq_sum_range (fun j => a i j * x j) n

theorem swap_fin {n first second : Nat} (hf : first < n) (hs : second < n) (i : Fin n) :
    (Equiv.swap (⟨first, hf⟩ : Fin n) ⟨second, hs⟩ i : Nat) = Equiv.swap first second i := by
  simp only [Equiv.swap_apply_def, Fin.ext_iff]
  split_ifs <;> rfl

theorem vectorOf_update {n i : Nat} (hi : i < n) (v : Nat → ℚ) (x : ℚ) :
    vectorOf n (Function.update v i x) = Function.update (vectorOf n v) ⟨i, hi⟩ x := by
  funext j
  by_cases hj : j = ⟨i, hi⟩
  · subst hj
    simp
  · have hne : (j : Nat) ≠ i := fun h => hj (Fin.ext h)
    simp [hj, hne]

/-! ## Elimination -/

/-- The system after the first `k` pivots. -/
structure Reduced (n k : Nat) (block : Cells ℚ) (border : Nat → ℚ) (s : Elimination) : Prop where
  same : Same (matrixOf n s.a) (vectorOf n s.rhs) (matrixOf n block) (vectorOf n border)
  lower : ∀ i < n, ∀ j < k, j < i → s.a i j = 0
  pivots : ∀ i < k, s.a i i ≠ 0

section
variable {n k : Nat} {block : Cells ℚ} {border : Nat → ℚ} {s : Elimination}

theorem Reduced.start : Reduced n 0 block border ⟨block, border⟩ :=
  ⟨.refl _ _, fun _ _ _ h => absurd h (Nat.not_lt_zero _), fun _ h => absurd h (Nat.not_lt_zero _)⟩

theorem Reduced.singular (h : Reduced n k block border s) (hk : k < n)
    (hcolumn : ∀ i, k ≤ i → i < n → s.a i k = 0) : (matrixOf n block).det = 0 := by
  refine h.same.singular.mp (det_eq_zero_of_column ⟨k, hk⟩ (fun i j hj hji => ?_) fun i hi => ?_)
  · exact h.lower i i.isLt j hj hji
  · exact hcolumn i hi i.isLt

/-- A search of the column that fails finds it singular. -/
theorem Reduced.pivotRow (h : Reduced n k block border s) (hk : k < n) :
    Within ((matrixOf n block).det = 0) (fun row => k ≤ row ∧ row < n ∧ s.a row k ≠ 0)
    (pivotRow n k s.a) := by
  unfold ResearchExact.pivotRow
  cases hfind : (List.range' k (n - k)).find? fun i => s.a i k ≠ 0 with
  | some row =>
    have hmem := List.mem_of_find?_eq_some hfind
    have hpivot := List.find?_some hfind
    rw [List.mem_range'_1] at hmem
    exact .ok ⟨hmem.1, by omega, by simpa using hpivot⟩
  | none =>
    rw [List.find?_eq_none] at hfind
    refine .inr (.inl ⟨rfl, h.singular hk fun i hi hin => ?_⟩)
    have hzero := hfind i (List.mem_range'_1.mpr ⟨hi, by omega⟩)
    simpa using hzero

theorem exchange_eq (rhs : Nat → ℚ) (first second : Nat) :
    exchange rhs first second = rhs ∘ Equiv.swap first second := by
  funext i
  rw [Function.comp_apply, Equiv.swap_apply_def, exchange]
  split_ifs <;> rfl

theorem swapRows_apply (n first second : Nat) (a : Cells ℚ) (r c : Nat) (hc : c < n) :
    swapRows n first second a r c = a (Equiv.swap first second r) c := by
  rw [swapRows, foldl_rows _ _ List.nodup_range, if_pos (List.mem_range.mpr hc)]

theorem Reduced.exchangeRows (h : Reduced n k block border s) {row : Nat} (hk : k ≤ row)
    (hrow : row < n) (hpivot : s.a row k ≠ 0) :
    Reduced n k block border (exchangeRows n k row s) ∧
    (ResearchExact.exchangeRows n k row s).a k k ≠ 0 := by
  unfold ResearchExact.exchangeRows
  split
  · rename_i heq
    subst heq
    exact ⟨h, hpivot⟩
  · have hkn : k < n := by omega
    have hentry := swapRows_apply n k row s.a
    refine ⟨⟨?_, fun i hi j hj hji => ?_, fun i hi => ?_⟩, ?_⟩
    · have hmatrix : matrixOf n (swapRows n k row s.a) =
          (matrixOf n s.a).submatrix (Equiv.swap ⟨k, hkn⟩ ⟨row, hrow⟩) id := by
        ext i j
        rw [matrixOf_apply, hentry i j j.isLt, submatrix_apply, matrixOf_apply, swap_fin, id_eq]
      have hvector : vectorOf n (exchange s.rhs k row) =
          vectorOf n s.rhs ∘ Equiv.swap ⟨k, hkn⟩ ⟨row, hrow⟩ := by
        funext i
        rw [vectorOf_apply, exchange_eq, Function.comp_apply, Function.comp_apply,
          vectorOf_apply, swap_fin]
      simp only
      rw [hmatrix, hvector]
      exact (Same.permute _ _ _).trans h.same
    · simp only
      rw [hentry i j (by omega), Equiv.swap_apply_def]
      split_ifs
      · exact h.lower row hrow j hj (by omega)
      · exact h.lower k hkn j hj hj
      · exact h.lower i hi j hj hji
    · simp only
      rw [hentry i i (by omega), Equiv.swap_apply_of_ne_of_ne (by omega) (by omega)]
      exact h.pivots i hi
    · simp only
      rw [hentry k k hkn, Equiv.swap_apply_left]
      exact hpivot

/-- One row less a multiple of the pivot row, behind the pivot. -/
theorem subtractRow_apply {i : Nat} (hik : k < i) (factor : ℚ) (a : Cells ℚ) (r c : Nat) :
    subtractRow n k i factor a r c = if r = i ∧ k < c ∧ c < n then a i c - factor * a k c else
      a r c := by
  have hloop : ∀ (js : List Nat) (a : Cells ℚ), js.Nodup →
      js.foldl (fun a j => a.set i j (a i j - factor * a k j)) a r c =
        if r = i ∧ c ∈ js then a i c - factor * a k c else a r c := by
    intro js
    induction js with
    | nil => simp
    | cons j js ih =>
      intro a hnodup
      obtain ⟨hj, hnodup⟩ := List.nodup_cons.mp hnodup
      have hki : k ≠ i := by omega
      rw [List.foldl_cons, ih _ hnodup]
      by_cases hr : r = i
      · by_cases hc : c = j
        · subst hc
          simp [hr, hj, Cells.set]
        · simp [hr, hc, hki, Cells.set]
      · simp [hr, Cells.set]
  rw [subtractRow, hloop _ _ (List.nodup_range' ..)]
  refine if_congr ?_ rfl rfl
  rw [List.mem_range'_1]
  omega

/-- During the turn of pivot `k`, with the rows up to `i` cleared. -/
structure Clearing (n k : Nat) (block : Cells ℚ) (border : Nat → ℚ) (i : Nat) (s : Elimination) :
    Prop where
  reduced : Reduced n k block border s
  pivot : s.a k k ≠ 0
  cleared : ∀ r, k < r → r < i → s.a r k = 0

theorem Clearing.eliminateRow {i : Nat} (h : Clearing n k block border i s) (hk : k < i)
    (hi : i < n) {singular : Prop} :
    Within singular (Clearing n k block border (i + 1)) (eliminateRow n k s i) := by
  refine (within_budget _).bind fun _ _ => .ok ?_
  set factor := s.a i k / s.a k k with hfactor
  set a := (subtractRow n k i factor s.a).set i k 0 with ha
  have hentry : ∀ r c, a r c = if r = i then if c = k then 0 else
      if k < c ∧ c < n then s.a i c - factor * s.a k c else s.a i c else s.a r c := by
    intro r c
    rw [ha, Cells.set, subtractRow_apply hk]
    by_cases hr : r = i
    · subst hr
      simp
    · simp [hr]
  have hother : ∀ r c, r ≠ i → a r c = s.a r c := fun r c hr => by rw [hentry, if_neg hr]
  have hmatrix : matrixOf n a = (matrixOf n s.a).updateRow ⟨i, hi⟩
      (matrixOf n s.a ⟨i, hi⟩ + (-factor) • matrixOf n s.a ⟨k, hk.trans hi⟩) := by
    ext r c
    by_cases hr : r = ⟨i, hi⟩
    · subst hr
      rw [updateRow_self, matrixOf_apply, hentry, if_pos rfl, Pi.add_apply, Pi.smul_apply,
        smul_eq_mul, matrixOf_apply, matrixOf_apply]
      simp only
      rcases lt_trichotomy (c : Nat) k with hck | hck | hck
      · -- the pivot row is empty before the pivot
        rw [if_neg (by omega), if_neg (by omega), h.reduced.lower k (hk.trans hi) c hck hck,
          mul_zero, add_zero]
      · rw [if_pos hck, hck, hfactor, neg_mul, div_mul_cancel₀ _ h.pivot, add_neg_cancel]
      · rw [if_neg (by omega), if_pos ⟨hck, c.isLt⟩]
        ring
    · rw [updateRow_ne hr, matrixOf_apply, matrixOf_apply]
      exact hother r c fun heq => hr (Fin.ext heq)
  have hvector : vectorOf n (Function.update s.rhs i (s.rhs i - factor * s.rhs k)) =
      Function.update (vectorOf n s.rhs) ⟨i, hi⟩
        (vectorOf n s.rhs ⟨i, hi⟩ + -factor * vectorOf n s.rhs ⟨k, hk.trans hi⟩) := by
    rw [vectorOf_update hi]
    congr 1
    simp only [vectorOf_apply]
    ring
  have hne : (⟨i, hi⟩ : Fin n) ≠ ⟨k, hk.trans hi⟩ := fun heq => by
    have := Fin.mk.inj heq
    omega
  refine ⟨⟨?_, fun r hr c hc hcr => ?_, fun r hr => ?_⟩, ?_, fun r hkr hri => ?_⟩
  · simp only
    rw [hmatrix, hvector]
    exact (Same.addRow hne _ _ _).trans h.reduced.same
  · simp only
    rw [hentry]
    split_ifs with hri hck
    · rfl
    · exact absurd ‹_› (by omega)
    · exact h.reduced.lower i hi c hc (by omega)
    · exact h.reduced.lower r hr c hc hcr
  · simp only
    rw [hother r r (by omega)]
    exact h.reduced.pivots r hr
  · simp only
    rw [hother k k (by omega)]
    exact h.pivot
  · simp only
    by_cases heq : r = i
    · rw [hentry, if_pos heq, if_pos rfl]
    · rw [hother r k heq]
      exact h.cleared r hkr (by omega)

/-- One turn: singular where no pivot is found, else one more column is reduced. -/
theorem Reduced.pivot (h : Reduced n k block border s) (hk : k < n) :
    Within ((matrixOf n block).det = 0) (Reduced n (k + 1) block border) (pivot n s k) := by
  refine (h.pivotRow hk).bind fun row hrow => ?_
  obtain ⟨hkrow, hrow, hpivot⟩ := hrow
  obtain ⟨hreduced, hpivot⟩ := h.exchangeRows hkrow hrow hpivot
  have hstart : Clearing n k block border (k + 1) (ResearchExact.exchangeRows n k row s) :=
    ⟨hreduced, hpivot, fun r hkr hri => absurd hri (by omega)⟩
  refine (Within.upwards (n - (k + 1)) hstart fun i hki hin s hs =>
    hs.eliminateRow (by omega) (by omega)).bind fun s hs => ?_
  refine (within_budget _).bind fun _ _ =>
    .ok ⟨hs.reduced.same, fun i hi j hj hji => ?_, fun i hi => ?_⟩
  · rcases Nat.lt_succ_iff_lt_or_eq.mp hj with hj | rfl
    · exact hs.reduced.lower i hi j hj hji
    · exact hs.cleared i hji (by omega)
  · rcases Nat.lt_succ_iff_lt_or_eq.mp hi with hi | rfl
    · exact hs.reduced.pivots i hi
    · exact hs.pivot

theorem eliminated (n : Nat) (block : Cells ℚ) (border : Nat → ℚ) :
    Within ((matrixOf n block).det = 0) (Reduced n n block border)
    ((List.range n).foldlM (pivot n) ⟨block, border⟩) :=
  @Within.range _ _ (fun k => Reduced n k block border) _ n _ .start fun _ hk _ h => h.pivot hk

theorem Reduced.det_ne_zero (h : Reduced n n block border s) : (matrixOf n block).det ≠ 0 := by
  intro hzero
  refine det_ne_zero_of_triangle (fun i j hji => ?_) (fun i => ?_) (h.same.singular.mpr hzero)
  · exact h.lower i i.isLt j j.isLt hji
  · exact h.pivots i i.isLt

end

/-! ## Back substitution -/

section
variable {n : Nat} {block : Cells ℚ} {border : Nat → ℚ} {s : Elimination} {singular : Prop}

/-- The rows from `i` on hold of the solution. -/
def Solved (n : Nat) (s : Elimination) (i : Nat) (solution : Nat → ℚ) : Prop :=
  ∀ r, i ≤ r → r < n → ∑ c ∈ Finset.Ico r n, s.a r c * solution c = s.rhs r

theorem Solved.solveRow {i : Nat} {solution : Nat → ℚ} (h : Solved n s (i + 1) solution)
    (hi : i < n)
    (hpivot : s.a i i ≠ 0) : Within singular (Solved n s i) (solveRow n s solution i) := by
  have hvalue : Within singular (fun value =>
    value = s.rhs i - ∑ c ∈ Finset.Ico (i + 1) n, s.a i c * solution c)
      ((List.range' (i + 1) (n - (i + 1))).foldlM (subtractTerm s.a solution i) (s.rhs i)) := by
    have hloop := @Within.upwards _ singular
      (fun j value => value = s.rhs i - ∑ c ∈ Finset.Ico (i + 1) j, s.a i c * solution c)
      (subtractTerm s.a solution i) (i + 1) (n - (i + 1)) (s.rhs i) (by simp) ?_
    · rwa [Nat.add_sub_cancel' hi] at hloop
    · rintro j hj - value rfl
      refine (within_budget _).bind fun _ _ => .ok ?_
      rw [Finset.sum_Ico_succ_top hj, sub_sub]
  refine hvalue.bind fun value hvalue => (within_budget _).bind fun _ _ => .ok fun r hr hrn => ?_
  have hbehind : ∀ c ∈ Finset.Ico (i + 1) n,
      s.a r c * Function.update solution i (value / s.a i i) c = s.a r c * solution c := by
    intro c hc
    rw [Function.update_of_ne (by have := (Finset.mem_Ico.mp hc).1; omega)]
  rcases Nat.eq_or_lt_of_le hr with rfl | hlt
  · rw [Finset.sum_eq_sum_Ico_succ_bot hi, Finset.sum_congr rfl hbehind, Function.update_self,
      mul_div_cancel₀ _ hpivot, hvalue, sub_add_cancel]
  · rw [← h r hlt hrn]
    refine Finset.sum_congr rfl fun c hc => hbehind c ?_
    rw [Finset.mem_Ico] at hc ⊢
    omega

/-- What is solved backwards solves the system from which the elimination started. -/
theorem Reduced.solution (h : Reduced n n block border s) :
    Within singular (fun solution => matrixOf n block *ᵥ vectorOf n solution = vectorOf n border)
      ((List.range n).reverse.foldlM (solveRow n s) fun _ => 0) := by
  have hnone : Solved n s n fun _ => 0 := fun r hr hrn => absurd hrn (by omega)
  have hloop : Within singular (Solved n s 0) ((List.range n).reverse.foldlM (solveRow n s) fun _ =>
    0) :=
    Within.downwards n hnone fun i hi _ hsolved => hsolved.solveRow hi (h.pivots i hi)
  rcases hloop with hbudget | hsingular | ⟨solution, hok, hsolved⟩
  · exact .inl hbudget
  · exact .inr (.inl hsingular)
  · refine .inr (.inr ⟨solution, hok, (h.same.solutions _).mp ?_⟩)
    funext r
    rw [mulVec_matrixOf, vectorOf_apply, ← hsolved r (Nat.zero_le _) r.isLt, Finset.range_eq_Ico,
      ← Finset.sum_Ico_consecutive _ (Nat.zero_le r) r.isLt.le]
    have hlower : ∑ c ∈ Finset.Ico 0 (r : Nat), s.a r c * solution c = 0 := by
      refine Finset.sum_eq_zero fun c hc => ?_
      have hcr := (Finset.mem_Ico.mp hc).2
      rw [h.lower r r.isLt c (hcr.trans r.isLt) hcr, zero_mul]
    rw [hlower, zero_add]

/-- The check of a solution of the original system passes. -/
theorem within_checkRow {solution : Nat → ℚ}
    (h : matrixOf n block *ᵥ vectorOf n solution = vectorOf n border) {i : Nat}
    (hi : i < n) : Within singular (fun _ => True) (checkRow n block border solution i) := by
  have hsum : ∑ c ∈ Finset.range n, block i c * solution c = border i := by
    have hrow := congrFun h ⟨i, hi⟩
    rwa [mulVec_matrixOf] at hrow
  have hvalue : Within singular (fun value => value = border i)
      ((List.range n).foldlM (addTerm block solution i) 0) := by
    have hloop := @Within.range _ singular (fun j value =>
      value = ∑ c ∈ Finset.range j, block i c * solution c)
      (addTerm block solution i) n 0 (by simp) ?_
    · rwa [hsum] at hloop
    · rintro j - value rfl
      refine (within_budget _).bind fun _ _ => .ok ?_
      rw [Finset.sum_range_succ]
  refine hvalue.bind fun value hvalue => ?_
  rw [refuse, if_neg (not_not.mpr hvalue)]
  exact .ok trivial

theorem within_total (border solution : Nat → ℚ) (corner : ℚ) :
    Within singular (fun total => total = (corner - vectorOf n border ⬝ᵥ vectorOf n solution,
      vectorOf n border ⬝ᵥ vectorOf n border))
      ((List.range n).foldlM (closeTerm border solution) (corner, 0)) := by
  have hdot : ∀ v w : Nat → ℚ, vectorOf n v ⬝ᵥ vectorOf n w = ∑ i ∈ Finset.range n, v i * w i :=
    fun v w => Fin.sum_univ_eq_sum_range (fun i => v i * w i) n
  rw [hdot, hdot]
  refine @Within.range _ singular (fun j total =>
    total = (corner - ∑ i ∈ Finset.range j, border i * solution i,
    ∑ i ∈ Finset.range j, border i * border i)) _ n _ (by simp) ?_
  rintro j - total rfl
  refine (within_budget _).bind fun _ _ => .ok ?_
  rw [Finset.sum_range_succ, Finset.sum_range_succ, sub_sub]

end

/-! ## The defect -/

theorem foldl_max (xs : List ℚ) (start : ℚ) :
    start ≤ xs.foldl max start ∧ (∀ x ∈ xs, x ≤ xs.foldl max start) ∧
      (xs.foldl max start = start ∨ xs.foldl max start ∈ xs) := by
  induction xs generalizing start with
  | nil => exact ⟨le_rfl, by simp, .inl rfl⟩
  | cons x xs ih =>
    obtain ⟨hstart, hall, hattained⟩ := ih (max start x)
    rw [List.foldl_cons]
    refine ⟨(le_max_left _ _).trans hstart, ?_, ?_⟩
    · rw [List.forall_mem_cons]
      exact ⟨(le_max_right _ _).trans hstart, hall⟩
    · rcases hattained with heq | hmem
      · rcases max_choice start x with hmax | hmax
        · exact .inl (heq.trans hmax)
        · exact .inr (List.mem_cons.mpr (.inl (heq.trans hmax)))
      · exact .inr (List.mem_cons_of_mem _ hmem)

/-- The entrywise differences of the prefixes. -/
def differences (small large : List ℚ) (n : Nat) : Set ℚ :=
  { d | ∃ i < n, ∃ j < n, d = |entry large (n + 1) i j - entry small n i j| }

theorem defectOf_isGreatest (small large : List ℚ) {n : Nat} (hn : 0 < n) :
    IsGreatest (differences small large n) (defectOf small large n) := by
  set xs := (List.range n).flatMap fun i => (List.range n).map fun j =>
    |entry large (n + 1) i j - entry small n i j| with hxs
  have hmem : ∀ d, d ∈ xs ↔ d ∈ differences small large n := by
    intro d
    simp only [hxs, List.mem_flatMap, List.mem_map, List.mem_range, differences,
      Set.mem_ofPred_eq, eq_comm]
  have hdefect : defectOf small large n = xs.foldl max 0 := by
    rw [hxs, List.foldl_flatMap]
    simp only [List.foldl_map]
    rfl
  obtain ⟨-, hall, hattained⟩ := foldl_max xs 0
  rw [hdefect]
  refine ⟨?_, fun d hd => hall d ((hmem d).mpr hd)⟩
  rcases hattained with hzero | hattained
  · -- the first difference is at least zero, and at most the defect
    have hfirst := (hmem _).mpr ⟨0, hn, 0, hn, rfl⟩
    have hle := hall _ hfirst
    rw [hzero] at hle ⊢
    exact (hmem 0).mp (le_antisymm hle (abs_nonneg _) ▸ hfirst)
  · exact (hmem _).mp hattained

/-! ## The diagnostic -/

/-- The leading block of the bordered matrix, less the shift. -/
def shiftedPrefix (large : List ℚ) (n : Nat) (shift : ℚ) : Matrix (Fin n) (Fin n) ℚ :=
  Matrix.of (fun i j : Fin n => entry large (n + 1) i j) - shift • (1 : Matrix (Fin n) (Fin n) ℚ)

/-- The last column above the corner. -/
def lastColumn (large : List ℚ) (n : Nat) : Fin n → ℚ := fun i => entry large (n + 1) i n

theorem matrixOf_blockOf (large : List ℚ) (n : Nat) (shift : ℚ) :
    matrixOf n (blockOf large n shift) = shiftedPrefix large n shift := by
  ext i j
  by_cases hij : i = j
  · subst hij
    simp [shiftedPrefix, blockOf]
  · have hne : (i : Nat) ≠ j := fun h => hij (Fin.ext h)
    simp [shiftedPrefix, blockOf, hij, hne]

/-- What a diagnostic states of its inputs. -/
structure States (small large : List ℚ) (n : Nat) (shift : ℚ) (result : Schur) : Prop where
  regular : (shiftedPrefix large n shift).det ≠ 0
  value : result.value = entry large (n + 1) n n - shift -
    lastColumn large n ⬝ᵥ ((shiftedPrefix large n shift)⁻¹ *ᵥ lastColumn large n)
  borderSquared : result.borderSquared = lastColumn large n ⬝ᵥ lastColumn large n
  defect : IsGreatest (differences small large n) result.defect

/-- Square inputs of the admitted dimensions. -/
def Shaped (small large : List ℚ) (n : Nat) : Prop :=
  1 ≤ n ∧ n ≤ 256 ∧ small.length = n * n ∧ large.length = (n + 1) * (n + 1)

theorem refused_shape {small large : List ℚ} {n : Nat} :
    (n = 0 ∨ n > 256 ∨ n * n ≠ small.length ∨ (n + 1) * (n + 1) ≠ large.length) ↔
    ¬Shaped small large n := by
  simp only [Shaped, eq_comm (a := small.length), eq_comm (a := large.length)]
  omega

theorem schur_unshaped {small large : List ℚ} {n : Nat} (h : ¬Shaped small large n) (shift : ℚ) :
    schur small large n shift = .error shapeMessage := by
  rw [schur, refuse, if_pos (refused_shape.mpr h)]
  rfl

theorem schur_within {small large : List ℚ} {n : Nat} (h : Shaped small large n) (shift : ℚ) :
    Within ((shiftedPrefix large n shift).det = 0) (States small large n shift)
    (schur small large n shift) := by
  have hn : 0 < n := h.1
  rw [schur, refuse, if_neg (fun hrefused => refused_shape.mp hrefused h), ok_bind]
  have helimination := eliminated n (blockOf large n shift) (borderOf large n)
  rw [matrixOf_blockOf] at helimination
  refine (within_budget _).bind fun _ _ => (within_budget _).bind fun _ _ =>
    helimination.bind fun s hs => ?_
  have hregular := hs.det_ne_zero
  refine hs.solution.bind fun solution hsolution => ?_
  refine (Within.forM fun i hi => within_checkRow hsolution (List.mem_range.mp hi)).bind fun _ _ =>
    ?_
  refine (within_total _ _ _).bind fun total htotal => .ok ?_
  have hinverse := solution_unique hregular hsolution
  rw [matrixOf_blockOf] at hregular hinverse
  have hborder : vectorOf n (borderOf large n) = lastColumn large n := rfl
  rw [hborder] at hinverse htotal
  exact
    { regular := hregular
      value := by rw [htotal, hinverse]
      borderSquared := by rw [htotal]
      defect := defectOf_isGreatest small large hn }

/-- **The diagnostic.** The substitution check never refuses; and where the shape is right and the
budget does not refuse, the prefix is reported singular exactly when it is, and else the value is
the Schur complement of the shifted prefix, next to the squared border and the largest
difference. -/
theorem schur_exact (small large : List ℚ) (n : Nat) (shift : ℚ) :
    schur small large n shift ≠ .error substitutionMessage ∧
      (1 ≤ n → n ≤ 256 → small.length = n * n → large.length = (n + 1) * (n + 1) →
        schur small large n shift ≠ .error budgetMessage →
        (schur small large n shift = .error singularMessage ↔
          (shiftedPrefix large n shift).det = 0) ∧
          ((shiftedPrefix large n shift).det ≠ 0 →
            ∃ result, schur small large n shift = .ok result ∧
            result.value = entry large (n + 1) n n - shift -
              lastColumn large n ⬝ᵥ ((shiftedPrefix large n shift)⁻¹ *ᵥ lastColumn large n) ∧
            result.borderSquared = lastColumn large n ⬝ᵥ lastColumn large n ∧
            IsGreatest { d | ∃ i < n, ∃ j < n, d = |entry large (n + 1) i j - entry small n i j| }
              result.defect)) := by
  constructor
  · intro h
    by_cases hshape : Shaped small large n
    · have houtcome := schur_within hshape shift
      rw [h] at houtcome
      rcases houtcome with hbudget | ⟨hsingular, -⟩ | ⟨result, hok, -⟩
      · exact absurd (Except.error.inj hbudget) (by decide)
      · exact absurd (Except.error.inj hsingular) (by decide)
      · cases hok
    · rw [schur_unshaped hshape] at h
      exact absurd (Except.error.inj h) (by decide)
  · intro hlow hhigh hsmall hlarge hbudget
    rcases schur_within ⟨hlow, hhigh, hsmall, hlarge⟩ shift with hrefused | ⟨hsingular, hdet⟩
      | ⟨result, hok, hstates⟩
    · exact absurd hrefused hbudget
    · exact ⟨⟨fun _ => hdet, fun _ => hsingular⟩, fun hregular => absurd hdet hregular⟩
    · refine ⟨⟨fun hsingular => ?_, fun hdet => absurd hdet hstates.regular⟩, fun _ => ?_⟩
      · rw [hok] at hsingular
        cases hsingular
      · exact ⟨result, hok, hstates.value, hstates.borderSquared, hstates.defect⟩

/-- A prefix whose first column needs an exchange. -/
theorem schur_exact_exchanged :
    ∃ result, schur [0, 1, 1, 0] [0, 1, 2, 1, 0, 3, 2, 3, 5] 2 0 = .ok result ∧
      result.borderSquared = lastColumn [0, 1, 2, 1, 0, 3, 2, 3, 5] 2 ⬝ᵥ lastColumn
        [0, 1, 2, 1, 0, 3, 2, 3, 5] 2 := by
  have hok : (schur [0, 1, 1, 0] [0, 1, 2, 1, 0, 3, 2, 3, 5] 2 0).toOption = some ⟨0, 13, -7⟩ :=
    by decide +kernel
  have hbudget : schur [0, 1, 1, 0] [0, 1, 2, 1, 0, 3, 2, 3, 5] 2 0 ≠ .error budgetMessage := by
    intro h
    rw [h] at hok
    cases hok
  have hregular : (shiftedPrefix [0, 1, 2, 1, 0, 3, 2, 3, 5] 2 0).det ≠ 0 := by
    rw [det_fin_two]
    simp [shiftedPrefix, entry]
  obtain ⟨result, hresult, -, hborder, -⟩ :=
    ((schur_exact [0, 1, 1, 0] [0, 1, 2, 1, 0, 3, 2, 3, 5] 2 0).2 (by decide)
    (by decide) rfl rfl hbudget).2 hregular
  exact ⟨result, hresult, hborder⟩

end Xcelerator.Spectral.ResearchExact
