import Mathlib
import Xcelerator.Foundations.SimplexJacobi
import Xcelerator.Variational.MaynardBasisSoundness
import Xcelerator.Variational.MaynardPolynomials

/-! # The recurrence basis is orthonormal on the simplex

The loops of the recurrence compute the shifted Jacobi polynomials, the products
over the variables are the orthogonal polynomials of the simplex, and every
index of a reference gets its vector. -/

namespace Xcelerator.Variational.Maynard
open Xcelerator.Foundations Machine SimplexIntegral SimplexJacobi ShiftedJacobi MeasureTheory

/-! ## Coefficient lists -/

section
open Polynomial

noncomputable def toPolynomial (coefficients : List ℚ) : ℚ[X] :=
  ∑ i ∈ Finset.range coefficients.length, C (coefficients.getD i 0) * X ^ i

theorem coeff_toPolynomial (coefficients : List ℚ) (i : ℕ) :
    (toPolynomial coefficients).coeff i = coefficients.getD i 0 := by
  rw [toPolynomial, finsetSum_coeff]
  simp only [coeff_C_mul_X_pow]
  by_cases hi : i < coefficients.length
  · rw [Finset.sum_eq_single i (fun j _ hne => if_neg (Ne.symm hne)) fun hnot =>
      absurd (Finset.mem_range.mpr hi) hnot, if_pos rfl]
  · rw [List.getD_eq_default _ _ (not_lt.mp hi)]
    refine Finset.sum_eq_zero fun j hj => if_neg ?_
    have := Finset.mem_range.mp hj
    omega

theorem sum_zipIdx {α M : Type} [AddCommMonoid M] (d : α) (xs : List α) (g : α → ℕ → M) :
    (xs.zipIdx.map fun entry => g entry.1 entry.2).sum = ∑ i ∈ Finset.range xs.length, g
      (xs.getD i d) i := by
  have hzip : xs.zipIdx = (List.range xs.length).map fun i => (xs.getD i d, i) := by
    refine List.ext_getElem (by simp) fun i hi hi' => ?_
    have hlt : i < xs.length := by simpa using hi
    simp [hlt]
  rw [hzip, List.map_map]
  rfl

theorem length_addCoefficient (coefficients : List ℚ) (power : ℕ) (term : ℚ) :
    (addCoefficient coefficients power term).length = coefficients.length := List.length_set

theorem toPolynomial_addCoefficient {coefficients : List ℚ} {power : ℕ}
    (h : power < coefficients.length) (term : ℚ) :
    toPolynomial (addCoefficient coefficients power term) = toPolynomial coefficients +
      C term * X ^ power := by
  ext i
  rw [coeff_add, coeff_toPolynomial, coeff_toPolynomial, coeff_C_mul_X_pow, addCoefficient,
    List.getD_eq_getElem?_getD, List.getElem?_set, List.getD_eq_getElem?_getD]
  by_cases hi : power = i
  · subst hi
    rw [if_pos rfl, if_pos h, if_pos rfl, List.getD_eq_getElem?_getD]
    rfl
  · rw [if_neg hi, if_neg (Ne.symm hi), add_zero, List.getD_eq_getElem?_getD]

/-- A loop that adds a polynomial in every step. -/
theorem foldl_toPolynomial {α : Type} {length : ℕ} {step : List ℚ → α → List ℚ} {g : α → ℚ[X]}
    {xs : List α} (h : ∀ coefficients, coefficients.length = length → ∀ x ∈ xs,
      (step coefficients x).length = length ∧ toPolynomial (step coefficients x) =
        toPolynomial coefficients + g x)
    {start : List ℚ} (hstart : start.length = length) :
    (xs.foldl step start).length = length ∧
      toPolynomial (xs.foldl step start) = toPolynomial start + (xs.map g).sum := by
  induction xs generalizing start with
  | nil => exact ⟨hstart, by simp⟩
  | cons x xs ih =>
    obtain ⟨hlength, hvalue⟩ := h start hstart x List.mem_cons_self
    obtain ⟨hrest, hsum⟩ := ih (fun c hc y hy => h c hc y (List.mem_cons_of_mem _ hy)) hlength
    exact ⟨hrest, by rw [List.foldl_cons, hsum, hvalue, List.map_cons, List.sum_cons, add_assoc]⟩

theorem toPolynomial_zeros (n : ℕ) : toPolynomial (List.replicate n 0) = 0 := by
  ext i
  rw [coeff_toPolynomial, coeff_zero, List.getD_eq_getElem?_getD, List.getElem?_replicate]
  split <;> rfl

theorem toPolynomial_divide (coefficients : List ℚ) (d : ℚ) :
    toPolynomial (coefficients.map (· / d)) = C (1 / d) * toPolynomial coefficients := by
  ext i
  rw [coeff_C_mul, coeff_toPolynomial, coeff_toPolynomial, List.getD_eq_getElem?_getD,
    List.getElem?_map, List.getD_eq_getElem?_getD]
  cases coefficients[i]? with
  | none => simp
  | some c => simp [div_eq_inv_mul]

/-! ## The recurrence -/

theorem mem_zipIdx_lt {α : Type} {xs : List α} {entry : α × ℕ} (h : entry ∈ xs.zipIdx) :
    entry.2 < xs.length := by
  have hlt := List.snd_lt_of_mem_zipIdx h
  omega

/-- The two loops of one step, before the division. -/
theorem raised_ok {n : ℕ} {previousPrevious previous : List ℚ} (hprevious : previous.length = n + 2)
    (hbefore : previousPrevious.length ≤ n + 3) (constant shift prior : ℚ) :
    (previousPrevious.zipIdx.foldl (fun current entry =>
      addCoefficient current entry.2 (-(entry.1 * prior)))
      (previous.zipIdx.foldl (fun current entry =>
        addCoefficient (addCoefficient current entry.2 (entry.1 * constant)) (entry.2 + 1)
        (entry.1 * shift)) (List.replicate (n + 3) 0))).length = n + 3 ∧
    toPolynomial (previousPrevious.zipIdx.foldl (fun current entry =>
        addCoefficient current entry.2 (-(entry.1 * prior)))
      (previous.zipIdx.foldl (fun current entry =>
        addCoefficient (addCoefficient current entry.2 (entry.1 * constant)) (entry.2 + 1)
        (entry.1 * shift)) (List.replicate (n + 3) 0))) =
      C shift * (X * toPolynomial previous) + C constant * toPolynomial previous -
        C prior * toPolynomial previousPrevious := by
  have hfirst : ∀ current : List ℚ, current.length = n + 3 → ∀ entry ∈ previous.zipIdx,
      (addCoefficient (addCoefficient current entry.2 (entry.1 * constant)) (entry.2 + 1)
      (entry.1 * shift)).length =
        n + 3 ∧
      toPolynomial (addCoefficient (addCoefficient current entry.2 (entry.1 * constant))
        (entry.2 + 1)
          (entry.1 * shift)) =
        toPolynomial current + (C (entry.1 * constant) * X ^ entry.2 + C
            (entry.1 * shift) * X ^ (entry.2 + 1)) := by
    intro current hcurrent entry hentry
    have hlt := mem_zipIdx_lt hentry
    refine ⟨by rw [length_addCoefficient, length_addCoefficient, hcurrent], ?_⟩
    rw [toPolynomial_addCoefficient (by rw [length_addCoefficient]; omega),
      toPolynomial_addCoefficient (by omega), add_assoc]
  have hsecond : ∀ current : List ℚ, current.length = n + 3 → ∀ entry ∈ previousPrevious.zipIdx,
      (addCoefficient current entry.2 (-(entry.1 * prior))).length = n + 3 ∧
      toPolynomial (addCoefficient current entry.2 (-(entry.1 * prior))) =
        toPolynomial current + C (-(entry.1 * prior)) * X ^ entry.2 := by
    intro current hcurrent entry hentry
    have hlt := mem_zipIdx_lt hentry
    exact ⟨by rw [length_addCoefficient, hcurrent], toPolynomial_addCoefficient (by omega) _⟩
  obtain ⟨hlength, hvalue⟩ :=
    @foldl_toPolynomial _ (n + 3) _ _ _ hfirst (List.replicate (n + 3) 0) (by simp)
  obtain ⟨hlengthLast, hvalueLast⟩ := foldl_toPolynomial hsecond hlength
  refine ⟨hlengthLast, ?_⟩
  rw [hvalueLast, hvalue, toPolynomial_zeros, zero_add,
    sum_zipIdx 0 previous fun c i => C (c * constant) * X ^ i + C (c * shift) * X ^ (i + 1),
    sum_zipIdx 0 previousPrevious fun c i => C (-(c * prior)) * X ^ i, toPolynomial, toPolynomial,
    Finset.sum_add_distrib, Finset.mul_sum, Finset.mul_sum, Finset.mul_sum, Finset.mul_sum,
    add_comm, sub_eq_add_neg, ← Finset.sum_neg_distrib]
  have hshift : ∀ i, C (previous.getD i 0 * shift) * X ^ (i + 1) =
      C shift * (X * (C (previous.getD i 0) * X ^ i)) := by
    intro i
    rw [C_mul, pow_succ]
    ring
  have hconstant : ∀ i, C (previous.getD i 0 * constant) * X ^ i =
      C constant * (C (previous.getD i 0) * X ^ i) := by
    intro i
    rw [C_mul]
    ring
  have hprior : ∀ i, C (-(previousPrevious.getD i 0 * prior)) * X ^ i =
      -(C prior * (C (previousPrevious.getD i 0) * X ^ i)) := by
    intro i
    rw [C_neg, C_mul]
    ring
  simp only [hshift, hconstant, hprior]
  ring

/-- Integers far from the bounds of `i128`. -/
def Small (e : ℕ) (x : ℤ) : Prop := 0 ≤ x ∧ x ≤ 2 ^ e

theorem Small.mul {d e : ℕ} {x y : ℤ} (hx : Small d x) (hy : Small e y) : Small (d + e) (x * y) :=
  ⟨mul_nonneg hx.1 hy.1, by
    rw [pow_add]
    exact mul_le_mul hx.2 hy.2 hy.1 (by positivity)⟩

theorem Small.i128 {e : ℕ} {x : ℤ} (hx : Small e x) (he : e < 127) : i128 x = .ok x := by
  have hpower : (2 : ℤ) ^ e < 2 ^ 127 := pow_lt_pow_right₀ (by norm_num) he
  have hlow := hx.1
  have hhigh := hx.2
  unfold Maynard.i128
  rw [signed_ok (by norm_num; omega) (by norm_num at hpower ⊢; omega)]
  rfl

theorem toI128_ok {n : ℕ} (hn : n < 2 ^ 64) (message : String) :
    toI128 n message = .ok (n : ℤ) := by
  unfold toI128
  rw [checked_some (by norm_num at hn ⊢; omega)]
  rfl

theorem jacobiStep_ok {alpha n : ℕ} (halpha : alpha < 2 ^ 34) (hn : n + 2 < 2 ^ 32)
    {previousPrevious previous : List ℚ}
    (hprevious : previous.length = n + 2) (hbefore : previousPrevious.length ≤ n + 3) :
    ∃ current, jacobiStep alpha (n + 2) previousPrevious previous = .ok current ∧
    current.length = n + 3 ∧
      toPolynomial current = C (1 / scale alpha (n + 2)) *
        (C (outer alpha (n + 2) * zFactor alpha (n + 2)) * (X * toPolynomial previous) +
          C (outer alpha (n + 2) * alpha ^ 2) * toPolynomial previous -
            C (prior alpha (n + 2)) * toPolynomial previousPrevious) := by
  norm_num at halpha hn
  have hindex : Small 32 ((n + 2 : ℕ) : ℤ) := ⟨by positivity, by norm_num; omega⟩
  have hlower : Small 32 (((n + 2 : ℕ) : ℤ) - 1) := ⟨by omega, by norm_num; omega⟩
  have hdouble : Small 33 (2 * ((n + 2 : ℕ) : ℤ)) := ⟨by positivity, by norm_num; omega⟩
  have halphaSmall : Small 34 (alpha : ℤ) := ⟨by positivity, by norm_num; omega⟩
  have hsum : Small 36 (((n + 2 : ℕ) : ℤ) + alpha) := ⟨by positivity, by norm_num; omega⟩
  have hsumLower : Small 36 (2 * (((n + 2 : ℕ) : ℤ) + alpha - 1)) := ⟨by omega, by norm_num; omega⟩
  have htwice : Small 36 (2 * ((n + 2 : ℕ) : ℤ) + alpha) := ⟨by positivity, by norm_num; omega⟩
  have htwiceOne : Small 36 (2 * ((n + 2 : ℕ) : ℤ) + alpha - 1) := ⟨by omega, by norm_num; omega⟩
  have htwiceTwo : Small 36 (2 * ((n + 2 : ℕ) : ℤ) + alpha - 2) := ⟨by omega, by norm_num; omega⟩
  have hdenominator := (hdouble.mul hsum).mul htwiceTwo
  have hpositive : 0 < 2 * ((n + 2 : ℕ) : ℤ) * (((n + 2 : ℕ) : ℤ) + alpha) *
      (2 * ((n + 2 : ℕ) : ℤ) + alpha - 2) := by
    have : (0 : ℤ) < 2 * ((n + 2 : ℕ) : ℤ) + alpha - 2 := by omega
    positivity
  obtain ⟨hlength, hvalue⟩ := @raised_ok n previousPrevious previous hprevious hbefore
    ((((2 * ((n + 2 : ℕ) : ℤ) + alpha - 1) * ((alpha : ℤ) * alpha) : ℤ)) : ℚ)
    ((((2 * ((n + 2 : ℕ) : ℤ) + alpha - 1) *
      ((2 * ((n + 2 : ℕ) : ℤ) + alpha) * (2 * ((n + 2 : ℕ) : ℤ) + alpha - 2)) : ℤ)) : ℚ)
    (((2 * (((n + 2 : ℕ) : ℤ) + alpha - 1) * (((n + 2 : ℕ) : ℤ) - 1) *
      (2 * ((n + 2 : ℕ) : ℤ) + alpha) : ℤ)) : ℚ)
  unfold jacobiStep
  rw [toI128_ok (by norm_num; omega), ok_bind, toI128_ok (by norm_num; omega), ok_bind,
    htwice.i128 (by omega), ok_bind,
    hdenominator.i128 (by omega), ok_bind, htwiceOne.i128 (by omega), ok_bind,
    (htwice.mul htwiceTwo).i128 (by omega), ok_bind, (halphaSmall.mul halphaSmall).i128 (by omega),
    ok_bind,
    ((hsumLower.mul hlower).mul htwice).i128 (by omega), ok_bind, check,
    if_pos (by simpa using hpositive.ne'), ok_bind,
    (htwiceOne.mul (halphaSmall.mul halphaSmall)).i128 (by omega), ok_bind,
    (htwiceOne.mul (htwice.mul htwiceTwo)).i128 (by omega), ok_bind]
  refine ⟨_, rfl, by rw [List.length_map, hlength], ?_⟩
  rw [toPolynomial_divide, hvalue]
  unfold scale outer zFactor prior
  push_cast
  rw [sq]

/-! ## Powers of `2 * t - 1` -/

theorem integerBinomialRow_eq (n : ℕ) :
    integerBinomialRow n = (List.range (n + 1)).map n.choose := by
  have hfold : ∀ m ≤ n, (List.range (m + 1)).foldl (fun (state : ℕ × List ℕ) k =>
      let coefficient := if 0 < k then state.1 * (n + 1 - k) / k else state.1
      (coefficient, state.2 ++ [coefficient])) (1, []) =
          (n.choose m, (List.range (m + 1)).map n.choose) := by
    intro m
    induction m with
    | zero => intro _; simp
    | succ m ih =>
      intro hm
      have hnext : n.choose m * (n + 1 - (m + 1)) / (m + 1) = n.choose (m + 1) := by
        have hchoose := Nat.choose_succ_right_eq n m
        rw [show n + 1 - (m + 1) = n - m by omega, ← hchoose, Nat.mul_div_cancel _ (Nat.succ_pos m)]
      rw [List.range_succ, List.foldl_append, ih (by omega), List.map_append]
      simp only [List.foldl_cons, List.foldl_nil, if_pos (Nat.succ_pos m), hnext, List.map_cons,
        List.map_nil]
  rw [integerBinomialRow, hfold n le_rfl]

theorem sign_power (m : ℕ) (a : ℚ) : (if m % 2 = 1 then -a else a) = (-1) ^ m * a := by
  split
  · next h => rw [(Nat.odd_iff.mpr h).neg_one_pow, neg_one_mul]
  · next h => rw [(Nat.not_odd_iff_even.mp fun hodd => h (Nat.odd_iff.mp hodd)).neg_one_pow,
      one_mul]

theorem addPower_ok {length : ℕ} {shifted : List ℚ} (hlength : shifted.length = length)
    {entry : ℚ × ℕ} (hentry : entry.2 < length) :
    (addPower shifted entry).length = length ∧
      toPolynomial (addPower shifted entry) = toPolynomial shifted +
        C entry.1 * (C 2 * X - 1) ^ entry.2 := by
  have hstep : ∀ current : List ℚ, current.length = length →
    ∀ binomial ∈ (integerBinomialRow entry.2).zipIdx,
      (addCoefficient current binomial.2 (if (entry.2 - binomial.2) % 2 = 1 then
        -(entry.1 * binomial.1 * 2 ^ binomial.2)
        else entry.1 * binomial.1 * 2 ^ binomial.2)).length = length ∧
      toPolynomial (addCoefficient current binomial.2 (if (entry.2 - binomial.2) % 2 = 1 then
        -(entry.1 * binomial.1 * 2 ^ binomial.2) else entry.1 * binomial.1 * 2 ^ binomial.2)) =
          toPolynomial current +
          C ((-1) ^ (entry.2 - binomial.2) * (entry.1 * binomial.1 * 2 ^ binomial.2)) *
          X ^ binomial.2 := by
    intro current hcurrent binomial hbinomial
    have hlt := mem_zipIdx_lt hbinomial
    rw [integerBinomialRow_eq, List.length_map, List.length_range] at hlt
    refine ⟨by rw [length_addCoefficient, hcurrent], ?_⟩
    rw [toPolynomial_addCoefficient (by omega), sign_power]
  obtain ⟨hresult, hvalue⟩ := foldl_toPolynomial hstep hlength
  refine ⟨hresult, hvalue.trans (congrArg (_ + ·) ?_)⟩
  rw [sum_zipIdx 0 (integerBinomialRow entry.2) fun (b : ℕ) t =>
    C ((-1) ^ (entry.2 - t) * (entry.1 * (b : ℚ) * 2 ^ t)) * X ^ t, integerBinomialRow_eq,
      List.length_map,
    List.length_range, sub_eq_add_neg, add_pow, Finset.mul_sum]
  refine Finset.sum_congr rfl fun t ht => ?_
  have hlt := Finset.mem_range.mp ht
  rw [List.getD_eq_getElem _ _ (by simpa using hlt), List.getElem_map, List.getElem_range]
  simp only [C_mul, C_pow, C_neg, C_1, mul_pow, map_natCast]
  ring

theorem jacobi_comp {coefficients : List ℚ} {length : ℕ} (h : coefficients.length = length) :
    (coefficients.zipIdx.foldl addPower (List.replicate length 0)).length = length ∧
      toPolynomial (coefficients.zipIdx.foldl addPower (List.replicate length 0)) =
        (toPolynomial coefficients).comp (C 2 * X - 1) := by
  have hstep : ∀ current : List ℚ, current.length = length → ∀ entry ∈ coefficients.zipIdx,
      (addPower current entry).length = length ∧
        toPolynomial (addPower current entry) = toPolynomial current +
            C entry.1 * (C 2 * X - 1) ^ entry.2 :=
    fun current hcurrent entry hentry => addPower_ok hcurrent (h ▸ mem_zipIdx_lt hentry)
  obtain ⟨hresult, hvalue⟩ :=
    @foldl_toPolynomial _ length _ _ _ hstep (List.replicate length 0) (by simp)
  refine ⟨hresult, hvalue.trans ?_⟩
  rw [toPolynomial_zeros, zero_add, sum_zipIdx 0 coefficients fun c i => C c * (C 2 * X - 1) ^ i,
    toPolynomial, ← coe_compRingHom_apply, map_sum]
  refine Finset.sum_congr rfl fun i _ => ?_
  rw [coe_compRingHom_apply, mul_comp, C_comp, X_pow_comp]

/-- The recurrence computes the shifted Jacobi polynomial. -/
theorem shiftedJacobi_ok {degree alpha : ℕ} (hdegree : degree < 2 ^ 32) (halpha : alpha < 2 ^ 34) :
    ∃ coefficients, shiftedJacobiAlphaZeroCoefficients degree alpha = .ok coefficients ∧
      coefficients.length = degree + 1 ∧ toPolynomial coefficients = shifted alpha degree := by
  cases degree with
  | zero =>
    refine ⟨[1], rfl, rfl, ?_⟩
    rw [shifted_zero, toPolynomial]
    simp
  | succ last =>
    have hloop : ∀ m, m + 1 < 2 ^ 32 → ∃ pair :
        List ℚ × List ℚ, (List.range' 2 m).foldlM (fun pair n => do
        let current ← jacobiStep alpha n pair.1 pair.2
        return (pair.2, current)) (([1], [(alpha / 2 : ℚ), ((alpha + 2 : ℕ) / 2 : ℚ)]) :
          List ℚ × List ℚ) = .ok pair ∧
          (pair.1.length = m + 1 ∧ toPolynomial pair.1 = jacobi alpha m) ∧
            pair.2.length = m + 2 ∧ toPolynomial pair.2 = jacobi alpha (m + 1) := by
      intro m
      induction m with
      | zero =>
        refine fun _ => ⟨_, rfl, ⟨rfl, ?_⟩, rfl, ?_⟩
        · rw [jacobi, toPolynomial]
          simp
        · rw [jacobi, toPolynomial]
          simp [Finset.sum_range_succ]
          ring
      | succ m ih =>
        intro hm
        obtain ⟨pair, hpair, ⟨hfirst, hfirstValue⟩, hsecond, hsecondValue⟩ := ih (by omega)
        obtain ⟨current, hcurrent, hlength, hvalue⟩ :=
          jacobiStep_ok halpha (by omega) hsecond (by omega : pair.1.length ≤ m + 3)
        refine ⟨(pair.2, current), ?_, ⟨hsecond, hsecondValue⟩, hlength, ?_⟩
        · rw [List.range'_1_concat, List.foldlM_append, hpair, ok_bind, List.foldlM_cons,
            Nat.add_comm 2 m, hcurrent, ok_bind]
          rfl
        · rw [hvalue, hfirstValue, hsecondValue]
          rfl
    obtain ⟨pair, hpair, -, hlength, hvalue⟩ := hloop last hdegree
    obtain ⟨hresult, hcomp⟩ := jacobi_comp hlength
    refine ⟨_, ?_, hresult, hcomp.trans (by rw [hvalue]; rfl)⟩
    have hunsigned : panicking (unsigned 64 (alpha + 2)) = .ok (alpha + 2) := by
      rw [unsigned_ok (by norm_num at halpha ⊢; omega)]
      rfl
    rw [shiftedJacobiAlphaZeroCoefficients, if_neg (Nat.succ_ne_zero last), hunsigned, ok_bind,
      Nat.add_sub_cancel, hpair, ok_bind]
    rfl

end

/-! ## The factors -/

section
variable {k : Nat}

theorem pkdAlpha_ok {index : MultiIndex} {v : Nat} (hsum : index.sum < 2 ^ 32) (hk : k < 2 ^ 32) :
    pkdAlpha k index v = .ok (parameter k index v) ∧ parameter k index v < 2 ^ 34 := by
  have hle : (index.drop (v + 1)).sum ≤ index.sum := by
    conv_rhs => rw [← List.take_append_drop (v + 1) index, List.sum_append]
    exact Nat.le_add_left _ _
  have hsumOk : panicking (sum 64 (index.drop (v + 1))) = .ok (index.drop (v + 1)).sum := by
    rw [sum_ok (by norm_num at hsum ⊢; omega)]
    rfl
  have htotal : panicking (unsigned 64 (2 * (index.drop (v + 1)).sum + k)) =
      .ok (2 * (index.drop (v + 1)).sum + k) := by
    rw [unsigned_ok (by norm_num at hsum hk ⊢; omega)]
    rfl
  refine ⟨?_, ?_⟩
  · rw [pkdAlpha, hsumOk, ok_bind, htotal, ok_bind]
    rfl
  · norm_num at hsum hk ⊢
    unfold parameter
    omega

theorem addScaled_ok {bound : Nat} {factor term : ExactPolynomial} (hfactor : Formed k bound factor)
    (hterm : Formed k bound term) (scale : ℚ) :
    Formed k bound (addScaled scale factor term) ∧ ∀ x : Fin k → ℝ,
      evaluateEntries (addScaled scale factor term) x = evaluateEntries factor x +
        scale * evaluateEntries term x := by
  have hfold : ∀ (entries : ExactPolynomial) (start : ExactPolynomial), Formed k bound start →
      (∀ entry ∈ entries, entry.1.length = k ∧ entry.1.sum ≤ bound) →
        Formed k bound (addScaled scale start entries) ∧ ∀ x : Fin k → ℝ,
          evaluateEntries (addScaled scale start entries) x =
            evaluateEntries start x + scale * evaluateEntries entries x := by
    intro entries
    induction entries with
    | nil => exact fun start hstart _ => ⟨hstart, fun x => by simp [addScaled, evaluateEntries]⟩
    | cons entry rest ih =>
      intro start hstart hentries
      obtain ⟨hformed, hvalue⟩ :=
        ih _ (hstart.addAt (entry.2 * scale) (hentries entry List.mem_cons_self))
        fun other hother => hentries other (List.mem_cons_of_mem _ hother)
      refine ⟨hformed, fun x => (hvalue x).trans ?_⟩
      rw [evaluate_addAt, evaluateEntries_cons]
      push_cast
      ring
  exact hfold term factor hfactor fun entry hentry =>
    hterm.members entry.1 (List.mem_map_of_mem hentry)

theorem formed_unit {v m : Nat} (hv : v < k) : Formed k m [((List.replicate k 0).set v m, 1)] :=
  ⟨by simp [keys], by simpa [keys] using (sum_unit ⟨v, hv⟩ m).le⟩

theorem addJacobiTerm_ok {v degree : Nat} (hv : v < k) (hdegree : degree < 2 ^ 32)
    {factor : ExactPolynomial}
    (hfactor : Formed k degree factor) {entry : ℚ × Nat} (hentry : entry.2 ≤ degree) :
    ∃ next, addJacobiTerm k v degree factor entry = .ok next ∧ Formed k degree next ∧ ∀ x :
    Fin k → ℝ,
      evaluateEntries next x = evaluateEntries factor x +
        entry.1 * (x ⟨v, hv⟩ ^ entry.2 * (1 - leading x v) ^ (degree - entry.2)) := by
  obtain ⟨remainder, hremainder, hremainderFormed, hremainderValue⟩ :=
    @affineRemainderPower_ok k v (degree - entry.2) hv.le (by omega)
  have hterm : ∃ term, jacobiTerm k v entry.2 remainder = .ok term ∧ Formed k degree term ∧
    ∀ x : Fin k → ℝ,
      evaluateEntries term x = x ⟨v, hv⟩ ^ entry.2 * (1 - leading x v) ^ (degree - entry.2) := by
    unfold jacobiTerm
    by_cases hzero : entry.2 = 0
    · rw [if_neg (by omega)]
      refine ⟨remainder, rfl, hremainderFormed.mono (Nat.sub_le _ _), fun x => ?_⟩
      rw [hremainderValue x, hzero, pow_zero, one_mul]
    · obtain ⟨term, hproduct, hformed, hvalue⟩ :=
        product_ok hremainderFormed (formed_unit (m := entry.2) hv) (by omega)
      rw [if_pos (by omega), checked_some (by omega)]
      refine ⟨term, hproduct, hformed.mono (by omega), fun x => ?_⟩
      rw [hvalue x, hremainderValue x, evaluateEntries_cons, monomial_unit ⟨v, hv⟩]
      simp [evaluateEntries]
      ring
  obtain ⟨term, htermOk, htermFormed, htermValue⟩ := hterm
  obtain ⟨hformed, hvalue⟩ := addScaled_ok hfactor htermFormed entry.1
  refine ⟨_, ?_, hformed, fun x => by rw [hvalue x, htermValue x]⟩
  rw [addJacobiTerm, hremainder, ok_bind, htermOk, ok_bind]
  rfl

theorem addJacobiTerms_ok {v degree : Nat} (hv : v < k) (hdegree : degree < 2 ^ 32)
    {entries : List (ℚ × Nat)}
    (hentries : ∀ entry ∈ entries, entry.2 ≤ degree) {factor : ExactPolynomial}
    (hfactor : Formed k degree factor) :
    ∃ next, entries.foldlM (addJacobiTerm k v degree) factor = .ok next ∧ Formed k degree next ∧
    ∀ x : Fin k → ℝ,
      evaluateEntries next x = evaluateEntries factor x + (entries.map fun entry =>
        (entry.1 : ℝ) * (x ⟨v, hv⟩ ^ entry.2 * (1 - leading x v) ^ (degree - entry.2))).sum := by
  induction entries generalizing factor with
  | nil => exact ⟨factor, rfl, hfactor, fun x => by simp⟩
  | cons entry rest ih =>
    obtain ⟨first, hfirst, hfirstFormed, hfirstValue⟩ :=
      addJacobiTerm_ok hv hdegree hfactor (hentries entry List.mem_cons_self)
    obtain ⟨next, hnext, hformed, hvalue⟩ :=
      ih (fun other hother => hentries other (List.mem_cons_of_mem _ hother)) hfirstFormed
    refine ⟨next, by rw [List.foldlM_cons, hfirst, ok_bind, hnext], hformed, fun x => ?_⟩
    rw [hvalue x, hfirstValue x, List.map_cons, List.sum_cons, add_assoc]

theorem pkdFactor_ok {index : MultiIndex} (hsum : index.sum < 2 ^ 32) (hk : k < 2 ^ 32) {v : Nat}
    (hv : v < k) :
    ∃ polynomial, pkdFactor k index v = .ok polynomial ∧ Formed k (index.getD v 0) polynomial ∧
    ∀ x : Fin k → ℝ,
      evaluateEntries polynomial x = factor k index v (x ⟨v, hv⟩) (1 - leading x v) := by
  obtain ⟨halpha, hsmall⟩ := pkdAlpha_ok (v := v) hsum hk
  have hdegree : index.getD v 0 < 2 ^ 32 := (getD_le_sum index v).trans_lt hsum
  obtain ⟨jacobi, hjacobi, hlength, hpolynomial⟩ := shiftedJacobi_ok hdegree hsmall
  have hentries : ∀ entry ∈ jacobi.zipIdx, entry.2 ≤ index.getD v 0 := by
    intro entry hentry
    have hlt := mem_zipIdx_lt hentry
    omega
  obtain ⟨factor, hfactor, hformed, hvalue⟩ := addJacobiTerms_ok hv hdegree hentries formed_nil
  refine ⟨retainNonzero factor, ?_, hformed.retain, fun x => ?_⟩
  · rw [pkdFactor, halpha, ok_bind, hjacobi, ok_bind, hfactor, ok_bind]
    rfl
  · rw [evaluate_retain, hvalue x, sum_zipIdx 0 jacobi fun c i =>
      (c : ℝ) * (x ⟨v, hv⟩ ^ i * (1 - leading x v) ^ (index.getD v 0 - i)), hlength,
        SimplexJacobi.factor, homogeneous]
    simp only [← hpolynomial, coeff_toPolynomial]
    simp [evaluateEntries]

theorem sum_range_getD (index : MultiIndex) (j : Nat) :
    ∑ v ∈ Finset.range j, index.getD v 0 = (index.take j).sum := by
  induction j with
  | zero => simp
  | succ j ih =>
    rw [Finset.sum_range_succ, ih, List.take_add_one, List.sum_append, List.getD_eq_getElem?_getD]
    cases index[j]? <;> simp

/-- The polynomial of an index is the product over the simplex. -/
theorem pkdPolynomial_ok {index : MultiIndex} (hlength : index.length = k)
    (hsum : index.sum < 2 ^ 32) (hk : k < 2 ^ 32) :
    ∃ polynomial, pkdPolynomial k index = .ok polynomial ∧ Formed k index.sum polynomial ∧ ∀ x :
    Fin k → ℝ,
      evaluateEntries polynomial x = kernel k index 1 x := by
  have htake : ∀ j, (index.take j).sum ≤ index.sum := by
    intro j
    conv_rhs => rw [← List.take_append_drop j index, List.sum_append]
    exact Nat.le_add_right _ _
  have hloop : ∀ j, j ≤ k → ∃ polynomial, (List.range j).foldlM (fun polynomial v => do
      let factor ← pkdFactor k index v
      exactPolynomialProduct polynomial factor k) (constantOne k) = .ok polynomial ∧
        Formed k (index.take j).sum polynomial ∧ ∀ x : Fin k → ℝ, evaluateEntries polynomial x =
          ∏ v : Fin k, if (v : Nat) < j then factor k index v (x v) (1 - leading x v) else 1 := by
    intro j
    induction j with
    | zero =>
      refine fun _ => ⟨constantOne k, rfl, formed_one, fun x => ?_⟩
      rw [evaluate_one]
      exact (Finset.prod_eq_one fun v _ => if_neg (Nat.not_lt_zero _)).symm
    | succ j ih =>
      intro hj
      obtain ⟨polynomial, hpolynomial, hformed, hvalue⟩ := ih (by omega)
      obtain ⟨next, hnext, hnextFormed, hnextValue⟩ := pkdFactor_ok hsum hk (show j < k from hj)
      have hsucc : (index.take j).sum + index.getD j 0 = (index.take (j + 1)).sum := by
        rw [← sum_range_getD, ← sum_range_getD, Finset.sum_range_succ]
      obtain ⟨product, hproduct, hproductFormed, hproductValue⟩ :=
        product_ok hformed hnextFormed (by rw [hsucc]; exact (htake _).trans_lt hsum)
      refine ⟨product, ?_, hsucc ▸ hproductFormed, fun x => ?_⟩
      · rw [List.range_succ, List.foldlM_append, hpolynomial, ok_bind, List.foldlM_cons, hnext,
          ok_bind, hproduct, ok_bind]
        rfl
      · have hsplit : ∀ v : Fin k, (if (v : Nat) < j + 1 then
          factor k index v (x v) (1 - leading x v) else 1) =
            (if (v : Nat) < j then factor k index v (x v) (1 - leading x v) else 1) *
              if v = ⟨j, hj⟩ then factor k index j (x ⟨j, hj⟩) (1 - leading x j) else 1 := by
          intro v
          rcases Nat.lt_trichotomy v j with hlt | heq | hgt
          · rw [if_pos (by omega), if_pos hlt,
              if_neg (fun h => Nat.ne_of_lt hlt (congrArg Fin.val h)), mul_one]
          · have hv : v = ⟨j, hj⟩ := Fin.ext heq
            rw [if_pos (by omega), if_neg (by omega), if_pos hv, one_mul, hv]
          · rw [if_neg (by omega), if_neg (by omega),
              if_neg (fun h => Nat.ne_of_gt hgt (congrArg Fin.val h)), mul_one]
        rw [hproductValue x, hvalue x, hnextValue x, Finset.prod_congr rfl fun v _ =>
          hsplit v, Finset.prod_mul_distrib]
        simp
  obtain ⟨polynomial, hpolynomial, hformed, hvalue⟩ := hloop k le_rfl
  have hcheck : (index.length == k) = true := by simp [hlength]
  refine ⟨polynomial, by rw [pkdPolynomial, check, if_pos hcheck, ok_bind, hpolynomial],
    ?_, fun x => ?_⟩
  · rwa [List.take_of_length_le hlength.le] at hformed
  · rw [hvalue x, kernel]
    exact Finset.prod_congr rfl fun v _ => if_pos v.isLt

theorem pkdSquaredNorm_ok {index : MultiIndex} (hlength : index.length = k)
    (hsum : index.sum < 2 ^ 32) (hk : k < 2 ^ 32) :
    pkdSquaredNorm k index = .ok (norm k index) := by
  have hloop : ∀ j, (List.range j).foldlM (fun norm v => do
      let alpha ← pkdAlpha k index v
      let divisor ← panicking (unsigned 64 (2 * index.getD v 0 + alpha + 1))
      return norm / divisor) (1 : ℚ) =
        (.ok (∏ v ∈ Finset.range j, 1 / (2 * index.getD v 0 + parameter k index v + 1 : ℚ)) :
            Mk ℚ) := by
    intro j
    induction j with
    | zero => rfl
    | succ j ih =>
      obtain ⟨halpha, hsmall⟩ := pkdAlpha_ok (v := j) hsum hk
      have hdegree := (getD_le_sum index j).trans_lt hsum
      have hdivisor : panicking (unsigned 64 (2 * index.getD j 0 + parameter k index j + 1)) =
          .ok (2 * index.getD j 0 + parameter k index j + 1) := by
        rw [unsigned_ok (by norm_num at hdegree hsmall ⊢; omega)]
        rfl
      rw [List.range_succ, List.foldlM_append, ih, ok_bind, List.foldlM_cons, halpha, ok_bind,
        hdivisor, ok_bind, Finset.prod_range_succ]
      push_cast
      rw [mul_one_div]
      rfl
  have hcheck : (index.length == k) = true := by simp [hlength]
  rw [pkdSquaredNorm, check, if_pos hcheck, ok_bind, hloop, SimplexJacobi.norm]

end

/-! ## The basis -/

section
variable {k degree : Nat} {r : MkMonomialReference}

theorem positionOf_ok {indices : List MultiIndex} {key : MultiIndex} (h : key ∈ indices) :
    ∃ position, positionOf indices key = some position ∧ indices[position]? = some key := by
  obtain ⟨i, hi, hget⟩ := List.getElem_of_mem h
  have hsome : ((indices.zipIdx).reverse.find? fun entry => entry.1 = key).isSome := by
    rw [List.find?_isSome]
    refine ⟨(key, i), ?_, by simp⟩
    rw [List.mem_reverse, List.mem_zipIdx_iff_getElem?]
    simp [← hget, List.getElem?_eq_getElem hi]
  obtain ⟨entry, hentry⟩ := Option.isSome_iff_exists.mp hsome
  have hmem := List.mem_reverse.mp (List.mem_of_find?_eq_some hentry)
  have heq := List.find?_some hentry
  rw [List.mem_zipIdx_iff_getElem?] at hmem
  refine ⟨entry.2, by rw [positionOf, hentry]; rfl, ?_⟩
  rw [hmem]
  simpa using heq

/-- The coefficients of the entries placed so far. -/
structure Placed (r : MkMonomialReference) (seen : ExactPolynomial) (coefficients : List ℚ) :
    Prop where
  length : coefficients.length = r.dimension
  value : ∀ x : Fin r.k → ℝ, r.polynomialValue (coordinates r coefficients) x =
    evaluateEntries seen x
  fresh : ∀ i < r.dimension, r.index i ∉ keys seen → coefficients.getD i 0 = 0

theorem Placed.entry {seen : ExactPolynomial} {coefficients : List ℚ}
    (hplaced : Placed r seen coefficients)
    {entry : MultiIndex × ℚ} (hmem : entry.1 ∈ r.indices) (hfresh : entry.1 ∉ keys seen) :
    ∃ next, placeEntry r.indices coefficients entry = .ok next ∧
    Placed r (seen ++ [entry]) next := by
  obtain ⟨position, hposition, hget⟩ := positionOf_ok hmem
  obtain ⟨hlt, hkey⟩ := List.getElem?_eq_some_iff.mp hget
  have hlt' : position < r.dimension := hlt
  have hindex : r.index position = entry.1 := by
    rw [MkMonomialReference.index, List.getD_eq_getElem _ _ hlt, hkey]
  have hzero := hplaced.fresh position hlt' (by rw [hindex]; exact hfresh)
  have hset : ∀ i : Fin r.dimension, coordinates r (coefficients.set position entry.2) i =
      coordinates r coefficients i + if i = ⟨position, hlt'⟩ then entry.2 else 0 := by
    intro i
    have hi : (i : Nat) < coefficients.length := hplaced.length.symm ▸ i.isLt
    rw [coordinates, coordinates, List.getD_eq_getElem _ _ (by simpa using hi), List.getElem_set]
    by_cases hsame : i = ⟨position, hlt'⟩
    · subst hsame
      rw [if_pos rfl, if_pos rfl, hzero, zero_add]
    · rw [if_neg (fun heq => hsame (Fin.ext heq.symm)), if_neg hsame, add_zero,
        List.getD_eq_getElem _ _ hi]
  refine ⟨coefficients.set position entry.2, by rw [placeEntry, hposition]; rfl, by
    simp [hplaced.length], fun x => ?_, fun i hi hnot => ?_⟩
  · have happend : evaluateEntries (seen ++ [entry]) x = evaluateEntries seen x +
        entry.2 * monomial entry.1 x := by
      simp [evaluateEntries]
    rw [happend, ← hplaced.value x, MkMonomialReference.polynomialValue,
      MkMonomialReference.polynomialValue]
    simp only [hset, Rat.cast_add, add_mul, Finset.sum_add_distrib]
    refine congrArg (_ + ·) ?_
    rw [Finset.sum_eq_single ⟨position, hlt'⟩ (fun j _ hne => by
      rw [if_neg hne, Rat.cast_zero, zero_mul]) (by simp), if_pos rfl, hindex]
  · have hold : r.index i ∉ keys seen :=
      fun hmem => hnot (by simp [keys] at hmem ⊢; exact .inl hmem)
    have hne : position ≠ i := fun heq => hnot (by rw [← heq, hindex]; simp [keys])
    rw [List.getD_eq_getElem?_getD, List.getElem?_set_ne hne, ← List.getD_eq_getElem?_getD]
    exact hplaced.fresh i hi hold

theorem placeEntries_ok {entries seen : ExactPolynomial} (hnodup : (keys (seen ++ entries)).Nodup)
    (hmem : ∀ key ∈ keys entries, key ∈ r.indices) {coefficients : List ℚ}
    (hplaced : Placed r seen coefficients) :
    ∃ next, entries.foldlM (placeEntry r.indices) coefficients = .ok next ∧
    Placed r (seen ++ entries) next := by
  induction entries generalizing seen coefficients with
  | nil => exact ⟨coefficients, rfl, by rwa [List.append_nil]⟩
  | cons entry rest ih =>
    have hfresh : entry.1 ∉ keys seen := by
      rw [keys, List.map_append, List.nodup_append] at hnodup
      exact fun hseen => hnodup.2.2 _ hseen entry.1 (by simp) rfl
    obtain ⟨first, hfirst, hfirstPlaced⟩ := hplaced.entry (hmem entry.1 (by simp [keys])) hfresh
    obtain ⟨next, hnext, hnextPlaced⟩ :=
      ih (by rwa [List.append_assoc]) (fun key hkey => hmem key (by
      simp only [keys, List.map_cons, List.mem_cons]
      exact .inr hkey)) hfirstPlaced
    refine ⟨next, by rw [List.foldlM_cons, hfirst, ok_bind, hnext], ?_⟩
    rwa [List.append_assoc] at hnextPlaced

/-- The stored vector of an index. -/
structure PkdOf (r : MkMonomialReference) (index : MultiIndex) (vector : ExactOrthonormalVector) :
    Prop where
  length : vector.coefficients.length = r.dimension
  norm : vector.squaredNorm = norm r.k index
  value : ∀ x : Fin r.k → ℝ, r.polynomialValue (coordinates r vector.coefficients) x =
    kernel r.k index 1 x

/-- The bounds the constructor has checked. -/
structure Bounds (r : MkMonomialReference) : Prop where
  k : r.k < 2 ^ 32
  degree : r.degree < 2 ^ 32
  complete : ∀ index : MultiIndex, index.length = r.k → index.sum ≤ r.degree → index ∈ r.indices

theorem new_bounds (h : MkMonomialReference.new k degree = .ok r) : Bounds r := by
  obtain ⟨hk, hdegree, hindices, -⟩ := new_ok h
  obtain ⟨-, hmem⟩ := enumerateMultiIndices_ok hindices
  unfold enumerateMultiIndices at hindices
  obtain ⟨_, hbounded, hindices⟩ := bind_eq_ok hindices
  obtain ⟨_, -, hindices⟩ := bind_eq_ok hindices
  obtain ⟨count, hbudget, -⟩ := bind_eq_ok hindices
  obtain ⟨hchoose, -⟩ := referenceIndexBudget_ok hbudget
  have hpositive : 0 < (k + degree).choose k := Nat.choose_pos (Nat.le_add_right k degree)
  unfold referenceIndexBudget at hbudget
  obtain ⟨_, -, hbudget⟩ := bind_eq_ok hbudget
  obtain ⟨_, -, hbudget⟩ := bind_eq_ok hbudget
  obtain ⟨_, hle, hbudget⟩ := bind_eq_ok hbudget
  obtain ⟨-, hsame⟩ := checked_eq_some (okOr_ok hbudget)
  have hle := of_decide_eq_true (check_ok hle)
  have hlimit : 0 < 256 * 2 ^ 20 / (8 * k + 192) := by omega
  have hsmall := (Nat.div_pos_iff.mp hlimit).2
  refine ⟨by rw [hk]; omega, by rw [hdegree]; exact of_decide_eq_true (check_ok hbounded),
    fun index hlength hsum => ?_⟩
  exact (hmem index).mpr ⟨hlength.trans hk, hsum.trans_eq hdegree⟩

theorem pkdVector_ok (h : Space r) (hbounds : Bounds r) {index : MultiIndex}
    (hindex : index ∈ r.indices) :
    ∃ vector, pkdVector r index = .ok vector ∧ PkdOf r index vector := by
  obtain ⟨hlength, hsum⟩ := h.members index hindex
  have hsmall : index.sum < 2 ^ 32 := hsum.trans_lt hbounds.degree
  obtain ⟨polynomial, hpolynomial, hformed, hvalue⟩ := pkdPolynomial_ok hlength hsmall hbounds.k
  have hstart : Placed r [] (List.replicate r.dimension 0) := by
    refine ⟨List.length_replicate, fun x => ?_, fun i hi _ => ?_⟩
    · have hzero : ∀ i : Fin r.dimension, coordinates r (List.replicate r.dimension 0) i = 0 := by
        intro i
        rw [coordinates, List.getD_eq_getElem _ _ (by simp), List.getElem_replicate]
      simp [MkMonomialReference.polynomialValue, hzero, evaluateEntries]
    · rw [List.getD_eq_getElem _ _ (by simpa using hi), List.getElem_replicate]
  have hmem : ∀ key ∈ keys polynomial, key ∈ r.indices := fun key hkey =>
    hbounds.complete key (hformed.members key hkey).1 ((hformed.members key hkey).2.trans hsum)
  obtain ⟨coefficients, hcoefficients, hplaced⟩ :=
    placeEntries_ok (show (keys ([] ++ polynomial)).Nodup from hformed.sorted.imp fun hlt =>
      ne_of_lt hlt) hmem hstart
  refine ⟨⟨coefficients, norm r.k index⟩, ?_, hplaced.length, rfl, fun x =>
    (hplaced.value x).trans (hvalue x)⟩
  rw [pkdVector, hpolynomial, ok_bind, hcoefficients, ok_bind,
    pkdSquaredNorm_ok hlength hsmall hbounds.k]
  rfl

theorem PkdOf.product (h : Space r) {a b : MultiIndex} {left right : ExactOrthonormalVector}
    (hleft : PkdOf r a left)
    (hright : PkdOf r b right) (ha : a.length = r.k) (hb : b.length = r.k) :
    r.form (coordinates r left.coefficients) (coordinates r right.coefficients) =
      if a = b then left.squaredNorm else 0 := by
  have hintegral := form_integral h (coordinates r left.coefficients)
    (coordinates r right.coefficients)
  simp only [hleft.value, hright.value] at hintegral
  rw [integral_kernel ha hb zero_le_one, one_pow, mul_one, ← hleft.norm] at hintegral
  split at hintegral
  · next hsame => rw [if_pos hsame]; exact_mod_cast hintegral
  · next hne => rw [if_neg hne]; exact_mod_cast hintegral

theorem pkd_new (h : Space r) (hbounds : Bounds r) (hsize : r.dimension < 2 ^ 21) :
    ∃ vectors, ExactPkdSimplexOrthonormalBasis.new r = .ok ⟨r.k, r.degree, r.indices, vectors⟩ ∧
      List.Forall₂ (PkdOf r) r.indices vectors ∧ OrthonormalBasis r vectors := by
  obtain ⟨vectors, hvectors, hall⟩ := mapM_forall₂ fun index hindex => pkdVector_ok h hbounds hindex
  have hlength : vectors.length = r.dimension := hall.length_eq.symm
  have hget : ∀ (i : Nat) (hi : i < vectors.length), PkdOf r (r.index i) vectors[i] := by
    intro i hi
    have hi' : i < r.dimension := hlength ▸ hi
    rw [MkMonomialReference.index, List.getD_eq_getElem _ _ hi']
    exact hall.get hi' hi
  have hproducts : ∀ (i j : Nat) (hi : i < vectors.length) (hj : j < vectors.length),
      r.form (coordinates r vectors[i].coefficients) (coordinates r vectors[j].coefficients) =
        if i = j then vectors[i].squaredNorm else 0 := by
    intro i j hi hj
    have hi' : i < r.dimension := hlength ▸ hi
    have hj' : j < r.dimension := hlength ▸ hj
    rw [(hget i hi).product h (hget j hj) (h.index hi').1 (h.index hj').1]
    refine if_congr ?_ rfl rfl
    rw [MkMonomialReference.index, MkMonomialReference.index, List.getD_eq_getElem _ _ hi',
      List.getD_eq_getElem _ _ hj']
    exact h.nodup.getElem_inj_iff
  have hbasis : OrthonormalBasis r vectors := by
    refine ⟨hlength, fun vector hvector => ?_, hproducts⟩
    obtain ⟨i, hi, rfl⟩ := List.getElem_of_mem hvector
    have hself := hproducts i i hi hi
    rw [if_pos rfl] at hself
    exact ⟨(hget i hi).length, hself.symm, by rw [(hget i hi).norm]; exact norm_pos _ _⟩
  obtain ⟨gram, hgram, hentries⟩ := denseIExact_ok h hsize
  have hsemantics : (r.k == r.k && r.degree == r.degree && r.indices == r.indices &&
    vectors.length == r.dimension) =
      true := by
    simp [hlength]
  have hverify : (ExactPkdSimplexOrthonormalBasis.mk r.k r.degree r.indices vectors).verifyExact r =
      .ok () := by
    rw [ExactPkdSimplexOrthonormalBasis.verifyExact, ExactPkdSimplexOrthonormalBasis.dimension,
      check, if_pos hsemantics, ok_bind, hgram, ok_bind]
    exact hbasis.verifyCells hentries _ _
  refine ⟨vectors, ?_, hall, hbasis⟩
  rw [ExactPkdSimplexOrthonormalBasis.new, hvectors, ok_bind]
  show ((ExactPkdSimplexOrthonormalBasis.mk r.k r.degree r.indices vectors).verifyExact r >>=
    fun _ => pure _) = _
  rw [hverify]
  rfl

/-- **The recurrence gives the simplex basis.** For every reference the
construction succeeds: the vector of an index is the product of shifted Jacobi
polynomials with the closed squared norm, different vectors are orthogonal over
the simplex, and they carry the whole form. -/
theorem pkd_basis_orthonormal (h : MkMonomialReference.new k degree = .ok r) :
    ∃ basis, ExactPkdSimplexOrthonormalBasis.new r = .ok basis ∧
      (basis.k = k ∧ basis.degree = degree ∧ basis.indices = r.indices) ∧ basis.vectors.length =
        r.dimension ∧
      (∀ (i : Nat) (index : MultiIndex) (vector : ExactOrthonormalVector), r.indices[i]? =
        some index →
        basis.vectors[i]? = some vector → vector.coefficients.length = r.dimension ∧
          vector.squaredNorm = SimplexJacobi.norm k index ∧
            ∀ x : Fin k → ℝ, r.evaluateAt vector.coefficients x = kernel k index 1 x) ∧
      (∀ (i j : Nat) (left right : ExactOrthonormalVector), basis.vectors[i]? = some left →
        basis.vectors[j]? = some right →
          ∫ x in simplex k 1, r.evaluateAt left.coefficients x * r.evaluateAt right.coefficients x =
            if i = j then (left.squaredNorm : ℝ) else 0) ∧
      ∀ coefficients, coefficients.length = r.dimension →
      ∃ value, r.quadraticI coefficients = .ok value ∧
        (value : ℝ) = (basis.vectors.map fun vector =>
          (∫ x in simplex k 1, r.evaluateAt coefficients x *
            r.evaluateAt vector.coefficients x) ^ 2 /
            (vector.squaredNorm : ℝ)).sum := by
  have hbounds := new_bounds h
  have hsize := new_dimension h
  obtain ⟨rfl, rfl, hspace⟩ := new_space h
  obtain ⟨vectors, hnew, hall, hbasis⟩ := pkd_new hspace hbounds hsize
  refine ⟨_, hnew, ⟨rfl, rfl, rfl⟩, hbasis.length, fun i index vector hindex hvector => ?_,
    fun i j left right hleft hright => hbasis.integral hspace hleft hright,
    fun coefficients hlength => hbasis.quadraticI hspace hlength⟩
  obtain ⟨hi, rfl⟩ := List.getElem?_eq_some_iff.mp hindex
  obtain ⟨hi', rfl⟩ := List.getElem?_eq_some_iff.mp hvector
  have hof := hall.get hi hi'
  exact ⟨hof.length, hof.norm, hof.value⟩

theorem pkd_basis_orthonormal_plane :
    ∃ basis, ExactPkdSimplexOrthonormalBasis.new planeReference = .ok basis ∧
    basis.vectors.length = 3 ∧
      ∀ (i j : Nat) (left right : ExactOrthonormalVector), basis.vectors[i]? = some left →
        basis.vectors[j]? = some right →
          ∫ x in simplex 2 1, planeReference.evaluateAt left.coefficients x *
            planeReference.evaluateAt right.coefficients x = if i = j then (left.squaredNorm : ℝ)
              else 0 := by
  obtain ⟨basis, hnew, -, hlength, -, hproducts, -⟩ := pkd_basis_orthonormal planeReference_new
  exact ⟨basis, hnew, hlength, hproducts⟩

end

end Xcelerator.Variational.Maynard
