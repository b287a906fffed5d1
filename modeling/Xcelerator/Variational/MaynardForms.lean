import Mathlib
import Xcelerator.Foundations.SimplexIntegral
import Xcelerator.Variational.Maynard

/-! # The entries are simplex integrals -/

namespace Xcelerator.Variational.Maynard
open Xcelerator.Foundations Machine SimplexIntegral MeasureTheory

/-! ## What the constructor guarantees -/

theorem check_ok {condition : Bool} {message : String} {u : Unit}
    (h : check condition message = .ok u) :
    condition = true := by
  cases condition
  · cases h
  · rfl

theorem okOr_ok {α : Type} {x : Option α} {message : String} {a : α} (h : okOr x message = .ok a) :
    x = some a := by
  cases x with
  | none => cases h
  | some b =>
    cases h
    rfl

theorem checked_eq_some {w n v : Nat} (h : checked w n = some v) : n < 2 ^ w ∧ v = n := by
  unfold checked at h
  split at h
  · rename_i hlt
    exact ⟨hlt, (Option.some.inj h).symm⟩
  · cases h

theorem factorialTable_eq (maximum : Nat) :
    factorialTable maximum = (List.range (maximum + 1)).map Nat.factorial := by
  have hfold : (List.range' 1 maximum).foldl
      (fun (state : Nat × List Nat) n => (state.1 * n, state.2 ++ [state.1 * n])) (1, [1]) =
        (maximum.factorial, (List.range (maximum + 1)).map Nat.factorial) := by
    induction maximum with
    | zero => rfl
    | succ m ih =>
      have hrange : List.range (m + 1 + 1) = List.range (m + 1) ++ [m + 1] := List.range_succ
      rw [List.range'_concat, List.foldl_append, ih, hrange, List.map_append]
      have hnext : m.factorial * (1 + 1 * m) = (m + 1).factorial := by
        rw [Nat.factorial_succ]
        ring
      simp only [List.foldl_cons, List.foldl_nil, List.map_cons, List.map_nil, hnext]
  exact congrArg Prod.snd hfold

/-- The factorials of the indices the entries use are in the table. -/
structure Admitted (r : MkMonomialReference) : Prop where
  positive : r.k ≠ 0
  table : ∃ maximum, r.factorials = factorialTable maximum ∧ r.k + 1 + r.degree * 2 ≤ maximum ∧
    r.degree * 2 + 2 ≤ maximum ∧ maximum + 1 < 2 ^ 64

theorem factorialMaximum_ok {k degree maximum : Nat} (h : factorialMaximum k degree = .ok maximum) :
    k + 1 + degree * 2 ≤ maximum ∧ degree * 2 + 2 ≤ maximum ∧ maximum + 1 < 2 ^ 64 := by
  unfold factorialMaximum at h
  obtain ⟨twice, htwice, h⟩ := bind_eq_ok h
  obtain ⟨-, rfl⟩ := checked_eq_some (okOr_ok htwice)
  obtain ⟨hmax, hfit⟩ := Option.filter_eq_some_iff.mp (okOr_ok h)
  obtain ⟨d, n, hd, hn, rfl⟩ := Option.map₂_eq_some_iff.mp hmax
  obtain ⟨v, hv, hd⟩ := Option.bind_eq_some_iff.mp hd
  obtain ⟨-, rfl⟩ := checked_eq_some hv
  obtain ⟨-, rfl⟩ := checked_eq_some hd
  obtain ⟨-, rfl⟩ := checked_eq_some hn
  obtain ⟨w, hw⟩ := Option.isSome_iff_exists.mp hfit
  exact ⟨le_max_left _ _, le_max_right _ _, (checked_eq_some hw).1⟩

theorem new_ok {k degree : Nat} {r : MkMonomialReference}
    (h : MkMonomialReference.new k degree = .ok r) :
    r.k = k ∧ r.degree = degree ∧ enumerateMultiIndices k degree = .ok r.indices ∧ Admitted r := by
  unfold MkMonomialReference.new at h
  obtain ⟨maximum, hmaximum, h⟩ := bind_eq_ok h
  obtain ⟨_, -, h⟩ := bind_eq_ok h
  obtain ⟨_, -, h⟩ := bind_eq_ok h
  obtain ⟨indices, hindices, h⟩ := bind_eq_ok h
  cases h
  refine ⟨rfl, rfl, hindices, ?_, maximum, rfl, factorialMaximum_ok hmaximum⟩
  unfold enumerateMultiIndices at hindices
  obtain ⟨_, -, hindices⟩ := bind_eq_ok hindices
  obtain ⟨_, hk, -⟩ := bind_eq_ok hindices
  simpa using check_ok hk

/-! ## Entries -/

section
variable {r : MkMonomialReference}

theorem withinDegree_iff {index : MultiIndex} : r.withinDegree index = true ↔
    index.sum ≤ r.degree := by
  have hfold : ∀ (index : List Nat) (n : Nat), (index.foldlM (fun remaining power =>
      if power ≤ remaining then some (remaining - power) else none) n).isSome = true ↔
          index.sum ≤ n := by
    intro index
    induction index with
    | nil => intro n; simp
    | cons power rest ih =>
      intro n
      rw [List.foldlM_cons, List.sum_cons]
      by_cases hle : power ≤ n
      · rw [if_pos hle, Option.bind_eq_bind, Option.bind_some, ih]
        omega
      · rw [if_neg hle]
        simp only [Option.bind_eq_bind, Option.bind_none, Option.isSome_none,
          Bool.false_eq_true, false_iff]
        omega
  exact hfold index r.degree

/-- The pairs of indices the entries are defined for. -/
structure Accepted (r : MkMonomialReference) (a b : MultiIndex) : Prop where
  left : a.length = r.k
  right : b.length = r.k
  left_le : a.sum ≤ r.degree
  right_le : b.sum ≤ r.degree

theorem checkIndices_iff {a b : MultiIndex} : r.checkIndices a b = .ok () ↔ Accepted r a b := by
  constructor
  · intro h
    unfold MkMonomialReference.checkIndices at h
    obtain ⟨_, hlength, h⟩ := bind_eq_ok h
    obtain ⟨_, ha, h⟩ := bind_eq_ok h
    have hlength := check_ok hlength
    simp only [Bool.and_eq_true, beq_iff_eq] at hlength
    exact ⟨hlength.1, hlength.2, withinDegree_iff.mp (check_ok ha),
      withinDegree_iff.mp (check_ok h)⟩
  · intro h
    have ha := withinDegree_iff.mpr h.left_le
    have hb := withinDegree_iff.mpr h.right_le
    simp [MkMonomialReference.checkIndices, check, h.left, h.right, ha, hb]

theorem factorial_ok (hr : Admitted r) {n : Nat}
    (hn : n ≤ r.k + 1 + r.degree * 2 ∨ n ≤ r.degree * 2 + 2) :
    r.factorial n = .ok n.factorial := by
  obtain ⟨maximum, htable, hk, hd, -⟩ := hr.table
  have hlt : n < maximum + 1 := by omega
  unfold MkMonomialReference.factorial
  rw [htable, factorialTable_eq, read_ok (x := n.factorial)]
  · rfl
  · rw [List.getElem?_map, List.getElem?_range hlt]
    rfl

theorem unsigned_index (hr : Admitted r) {n : Nat}
    (hn : n ≤ r.k + 1 + r.degree * 2 ∨ n ≤ r.degree * 2 + 2) :
    panicking (unsigned 64 n) = .ok n := by
  obtain ⟨maximum, -, hk, hd, hmax⟩ := hr.table
  rw [unsigned_ok (by omega)]
  rfl

theorem read_index {a : MultiIndex} {i : Nat} (hi : i < a.length) :
    panicking (read a i) = .ok (a.getD i 0) := by
  rw [read_getD 0 hi]
  rfl

theorem getD_le_sum (a : List Nat) (i : Nat) : a.getD i 0 ≤ a.sum := by
  by_cases hi : i < a.length
  · rw [List.getD_eq_getElem a 0 hi]
    exact List.le_sum_of_mem (List.getElem_mem hi)
  · rw [List.getD_eq_default a 0 (by omega)]
    exact Nat.zero_le _

theorem totalDegree_ok (hr : Admitted r) {a : MultiIndex} (ha : a.sum ≤ r.degree) :
    totalDegree a = .ok a.sum := by
  obtain ⟨maximum, -, hk, hd, hmax⟩ := hr.table
  unfold totalDegree
  rw [sum_ok (by omega)]
  rfl

/-- The joint exponents. -/
def exponent (a b : MultiIndex) (i : Nat) : Nat := a.getD i 0 + b.getD i 0

theorem multiplyFactorials_ok (hr : Admitted r) {a b : MultiIndex} (hab : Accepted r a b)
    {axes : List Nat} (haxes : ∀ i ∈ axes, i < r.k) (numerator : Nat) :
    r.multiplyFactorials a b axes numerator =
      .ok (numerator * (axes.map fun i => (exponent a b i).factorial).prod) := by
  induction axes generalizing numerator with
  | nil => simp [MkMonomialReference.multiplyFactorials, pure, Except.pure]
  | cons i rest ih =>
    have hi : i < r.k := haxes i List.mem_cons_self
    have hexponent : exponent a b i ≤ r.k + 1 + r.degree * 2 := by
      have ha := getD_le_sum a i
      have hb := getD_le_sum b i
      have := hab.left_le
      have := hab.right_le
      unfold exponent
      omega
    have hstep : r.exponentFactorial a b i = .ok (exponent a b i).factorial := by
      unfold MkMonomialReference.exponentFactorial
      rw [read_index (hab.left ▸ hi), ok_bind, read_index (hab.right ▸ hi), ok_bind]
      show (panicking (unsigned 64 (exponent a b i)) >>= _) = _
      rw [unsigned_index hr (.inl hexponent), ok_bind]
      exact factorial_ok hr (.inl hexponent)
    have hrest := ih (fun j hj => haxes j (List.mem_cons_of_mem _ hj))
      (numerator * (exponent a b i).factorial)
    unfold MkMonomialReference.multiplyFactorials at hrest ⊢
    rw [List.foldlM_cons, hstep, ok_bind, pure_bind, hrest, List.map_cons, List.prod_cons,
      Nat.mul_assoc]

theorem totalFactorial_ok (hr : Admitted r) {a b : MultiIndex} (hab : Accepted r a b) {base : Nat}
    (hbase : base ≤ r.k + 1) :
    r.totalFactorial base a b = .ok (base + a.sum + b.sum).factorial := by
  have ha := hab.left_le
  have hb := hab.right_le
  unfold MkMonomialReference.totalFactorial
  rw [totalDegree_ok hr ha, ok_bind, unsigned_index hr (.inl (by omega)), ok_bind,
    totalDegree_ok hr hb, ok_bind, unsigned_index hr (.inl (by omega)), ok_bind]
  exact factorial_ok hr (.inl (by omega))

theorem iEntry_ok (hr : Admitted r) {a b : MultiIndex} (hab : Accepted r a b) :
    r.iEntry a b = .ok ((∏ i ∈ Finset.range r.k, ((exponent a b i).factorial : ℚ)) /
      (r.k + a.sum + b.sum).factorial) := by
  unfold MkMonomialReference.iEntry
  rw [checkIndices_iff.mpr hab, ok_bind, multiplyFactorials_ok hr hab (by simp), ok_bind,
    totalFactorial_ok hr hab (by omega), ok_bind, Nat.one_mul]
  have hprod : ((List.range r.k).map fun i => (exponent a b i).factorial).prod =
      ∏ i ∈ Finset.range r.k, (exponent a b i).factorial := rfl
  rw [hprod, Nat.cast_prod]
  rfl

theorem jEntry_ok (hr : Admitted r) {a b : MultiIndex} (hab : Accepted r a b) {m : Nat}
    (hm : m < r.k) :
    r.jEntry m a b = .ok ((exponent a b m + 2).factorial *
      (∏ i ∈ (Finset.range r.k).erase m, ((exponent a b i).factorial : ℚ)) /
        ((a.getD m 0 + 1) * (b.getD m 0 + 1) * (r.k + 1 + a.sum + b.sum).factorial)) := by
  have ha := (getD_le_sum a m).trans hab.left_le
  have hb := (getD_le_sum b m).trans hab.right_le
  have hexponent : exponent a b m + 2 ≤ r.degree * 2 + 2 := by
    unfold exponent
    omega
  have hfactorial : r.factorial (exponent a b m + 2) = .ok (exponent a b m + 2).factorial :=
    factorial_ok hr (.inr hexponent)
  have hprod : (((List.range r.k).filter (· != m)).map fun i => (exponent a b i).factorial).prod =
      ∏ i ∈ (Finset.range r.k).erase m, (exponent a b i).factorial := by
    rw [← List.prod_toFinset _ (List.nodup_range.filter _)]
    refine Finset.prod_congr ?_ fun _ _ => rfl
    ext i
    simp [and_comm]
  unfold MkMonomialReference.jEntry
  rw [checkIndices_iff.mpr hab, ok_bind, check, if_pos (by simpa using hm), ok_bind,
    read_index (hab.left ▸ hm), ok_bind, read_index (hab.right ▸ hm), ok_bind]
  rw [show a.getD m 0 + b.getD m 0 + 2 = exponent a b m + 2 from rfl,
    unsigned_index hr (.inr hexponent),
    ok_bind, hfactorial, ok_bind, multiplyFactorials_ok hr hab (by simp +contextual), ok_bind,
    unsigned_index hr (.inr (by omega)), ok_bind, unsigned_index hr (.inr (by omega)), ok_bind,
    totalFactorial_ok hr hab le_rfl, ok_bind, hprod]
  push_cast
  rfl

end

/-! ## Integrals -/

/-- The monomial `x ^ a`. -/
noncomputable def monomial {n : ℕ} (a : MultiIndex) (x : Fin n → ℝ) : ℝ := ∏ i, x i ^ a.getD i 0

/-- The integral of `x ^ a` along the axis `m`, the other coordinates being `y`. -/
noncomputable def marginal {n : ℕ} (m : Fin (n + 1)) (a : MultiIndex) (y : Fin n → ℝ) : ℝ :=
  ∫ t in (0)..(1 - ∑ i, y i), monomial a (m.insertNth t y : Fin (n + 1) → ℝ)

theorem sum_getD {a : MultiIndex} {n : ℕ} (ha : a.length = n) : ∑ i :
    Fin n, a.getD i 0 = a.sum := by
  subst ha
  rw [← List.sum_ofFn]
  congr 1
  refine List.ext_getElem (by simp) fun i hi hi' => ?_
  simp

theorem integral_monomial {n : ℕ} {a b : MultiIndex} (ha : a.length = n) (hb : b.length = n) :
    ∫ x in simplex n 1, monomial a x * monomial b x =
      (∏ i ∈ Finset.range n, ((exponent a b i).factorial : ℝ)) / (n + a.sum + b.sum).factorial := by
  have hslack : ∀ x : Fin n → ℝ, monomial a x * monomial b x =
      (∏ i, x i ^ exponent a b i) * (1 - ∑ i, x i) ^ 0 := by
    intro x
    simp only [monomial, exponent, pow_add, Finset.prod_mul_distrib, pow_zero, mul_one]
  have hsum : n + ∑ i : Fin n, exponent a b i + 0 = n + a.sum + b.sum := by
    simp only [exponent, Finset.sum_add_distrib, sum_getD ha, sum_getD hb]
    ring
  simp only [hslack]
  rw [integral_simplex_monomial _ 0 zero_le_one, hsum, Finset.prod_range]
  simp

theorem marginal_eq {n : ℕ} (m : Fin (n + 1)) (a : MultiIndex) (y : Fin n → ℝ) :
    marginal m a y =
      (1 - ∑ i, y i) ^ (a.getD m 0 + 1) / (a.getD m 0 + 1) * ∏ i,
      y i ^ a.getD (m.succAbove i) 0 := by
  have hinner : ∀ t, monomial a (m.insertNth t y : Fin (n + 1) → ℝ) =
      t ^ a.getD m 0 * ∏ i, y i ^ a.getD (m.succAbove i) 0 := by
    intro t
    rw [monomial, Fin.prod_univ_succAbove _ m]
    simp only [Fin.insertNth_apply_same, Fin.insertNth_apply_succAbove]
  simp only [marginal, hinner]
  rw [intervalIntegral.integral_mul_const, integral_pow]
  simp

theorem integral_marginal {n : ℕ} (m : Fin (n + 1)) {a b : MultiIndex} (ha : a.length = n + 1)
    (hb : b.length = n + 1) :
    ∫ y in simplex n 1, marginal m a y * marginal m b y =
      (exponent a b m + 2).factorial * (∏ i ∈ (Finset.range (n + 1)).erase m,
        ((exponent a b i).factorial : ℝ)) /
        ((a.getD m 0 + 1) * (b.getD m 0 + 1) * (n + 1 + 1 + a.sum + b.sum).factorial) := by
  have hslack : ∀ y : Fin n → ℝ, marginal m a y * marginal m b y =
      1 / ((a.getD m 0 + 1) * (b.getD m 0 + 1)) *
        ((∏ i, y i ^ exponent a b (m.succAbove i)) * (1 - ∑ i, y i) ^ (exponent a b m + 2)) := by
    intro y
    have hpow : exponent a b m + 2 = (a.getD m 0 + 1) + (b.getD m 0 + 1) := by
      unfold exponent
      ring
    rw [marginal_eq, marginal_eq, hpow, pow_add (1 - ∑ i, y i)]
    simp only [exponent, pow_add (y _), Finset.prod_mul_distrib]
    field_simp
    ring
  have hsum : n + ∑ i : Fin n, exponent a b (m.succAbove i) + (exponent a b m + 2) =
      n + 1 + 1 + a.sum + b.sum := by
    have hall : ∑ i : Fin (n + 1), exponent a b i = a.sum + b.sum := by
      simp only [exponent, Finset.sum_add_distrib, sum_getD ha, sum_getD hb]
    rw [Fin.sum_univ_succAbove _ m] at hall
    omega
  have hprod : ∏ i ∈ (Finset.range (n + 1)).erase m, ((exponent a b i).factorial : ℝ) =
      ∏ i : Fin n, ((exponent a b (m.succAbove i)).factorial : ℝ) := by
    have hne : ((exponent a b m).factorial : ℝ) ≠ 0 := by positivity
    apply mul_left_cancel₀ hne
    rw [Finset.mul_prod_erase _ (fun i => ((exponent a b i).factorial : ℝ))
      (by simpa using Nat.lt_succ_iff.mp m.isLt), Finset.prod_range,
      Fin.prod_univ_succAbove _ m]
  simp only [hslack]
  rw [integral_const_mul, integral_simplex_monomial _ _ zero_le_one, hsum, hprod]
  field_simp
  simp

/-- **Exact forms.** Every entry the engine accepts is computed, and is the
integral it stands for. -/
theorem entries_eq_integrals {k degree : Nat} {r : MkMonomialReference}
    (h : MkMonomialReference.new k degree = .ok r) {a b : MultiIndex}
    (hab : r.checkIndices a b = .ok ()) :
    ∃ n, k = n + 1 ∧
      (∃ v, r.iEntry a b = .ok v ∧ (v : ℝ) = ∫ x in simplex (n + 1) 1, monomial a x * monomial b x)
        ∧
      ∀ m : Fin (n + 1), ∃ v, r.jEntry m a b = .ok v ∧
        (v : ℝ) = ∫ y in simplex n 1, marginal m a y * marginal m b y := by
  obtain ⟨hk, -, -, hr⟩ := new_ok h
  obtain ⟨n, hn⟩ := Nat.exists_eq_succ_of_ne_zero hr.positive
  have haccepted := checkIndices_iff.mp hab
  have ha : a.length = n + 1 := haccepted.left.trans hn
  have hb : b.length = n + 1 := haccepted.right.trans hn
  refine ⟨n, hk.symm.trans hn, ?_, ?_⟩
  · refine ⟨_, iEntry_ok hr haccepted, ?_⟩
    rw [integral_monomial ha hb, hn]
    push_cast
    rfl
  · intro m
    have hm : (m : ℕ) < r.k := by
      rw [hn]
      exact m.isLt
    refine ⟨_, jEntry_ok hr haccepted hm, ?_⟩
    rw [integral_marginal m ha hb, hn]
    push_cast
    rfl

theorem entries_eq_integrals_plane :
    ∃ r, MkMonomialReference.new 2 1 = .ok r ∧ r.checkIndices [1, 0] [0, 1] = .ok () ∧
      ∃ n, 2 = n + 1 ∧
      (∃ v, r.iEntry [1, 0] [0, 1] = .ok v ∧
        (v : ℝ) = ∫ x in simplex (n + 1) 1, monomial [1, 0] x * monomial [0, 1] x) ∧
      ∀ m : Fin (n + 1), ∃ v, r.jEntry m [1, 0] [0, 1] = .ok v ∧
        (v : ℝ) = ∫ y in simplex n 1, marginal m [1, 0] y * marginal m [0, 1] y := by
  have hnew : MkMonomialReference.new 2 1 =
      .ok ⟨2, 1, [[0, 0], [0, 1], [1, 0]], [1, 1, 2, 6, 24, 120]⟩ := by
    decide +kernel
  exact ⟨_, hnew, by decide, entries_eq_integrals hnew (by decide)⟩

end Xcelerator.Variational.Maynard
