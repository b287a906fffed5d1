import Mathlib
import Xcelerator.Foundations.GramSchmidt
import Xcelerator.Variational.MaynardAdaptiveSoundness
import Xcelerator.Variational.MaynardBasis
import Xcelerator.Variational.MaynardBudget

/-! # The exact basis is orthonormal on the simplex

The form `I` of a reference is a definite bilinear form, the integral of the
product of two polynomials; Gram-Schmidt over it therefore never meets a
vanishing norm, and the quotient exists for every polynomial but zero. -/

namespace Xcelerator.Variational.Maynard
open Xcelerator.Foundations Machine Enumeration SimplexIntegral GramSchmidt MeasureTheory

/-! ## The space of a reference -/

section
variable {k degree : Nat} {r : MkMonomialReference}

namespace MkMonomialReference
variable (r)

def index (i : Nat) : MultiIndex := r.indices.getD i []

/-- The polynomial with given coefficients, as a function. -/
noncomputable def polynomialValue {n : ℕ} (coefficients : Fin r.dimension → ℚ) (x : Fin n → ℝ) :
    ℝ :=
  ∑ i : Fin r.dimension, (coefficients i : ℝ) * monomial (r.index i) x

/-- The form `I` on coefficient vectors. -/
def form : LinearMap.BilinForm ℚ (Fin r.dimension → ℚ) :=
  Matrix.toBilin' (Matrix.of fun i j : Fin r.dimension => iValue r.k (r.index i) (r.index j))

end MkMonomialReference

theorem iValue_comm (k : Nat) (a b : MultiIndex) : iValue k a b = iValue k b a := by
  have hexponent : exponent a b = exponent b a := funext fun i => Nat.add_comm _ _
  rw [iValue, iValue, hexponent, Nat.add_right_comm]

theorem form_apply (u w : Fin r.dimension → ℚ) :
    r.form u w = ∑ i : Fin r.dimension, ∑ j : Fin r.dimension, u i * iValue r.k (r.index i)
    (r.index j) * w j := by
  rw [MkMonomialReference.form, Matrix.toBilin'_apply]
  rfl

theorem form_isSymm : r.form.IsSymm where
  eq u w := by
    rw [form_apply, form_apply, Finset.sum_comm]
    refine Finset.sum_congr rfl fun i _ => Finset.sum_congr rfl fun j _ => ?_
    rw [iValue_comm]
    ring

theorem continuous_monomial {n : ℕ} (a : MultiIndex) : Continuous (monomial a : (Fin n → ℝ) → ℝ) :=
  continuous_finsetProd _ fun i _ => (continuous_apply i).pow _

theorem integrable_simplex {n : ℕ} {f : (Fin n → ℝ) → ℝ} (hf : Continuous f) :
    IntegrableOn f (simplex n 1) :=
  hf.continuousOn.integrableOn_compact (isCompact_simplex n 1)

/-- What the constructor leaves in a reference. -/
structure Space (r : MkMonomialReference) : Prop where
  admitted : Admitted r
  nodup : r.indices.Nodup
  members : ∀ a ∈ r.indices, a.length = r.k ∧ a.sum ≤ r.degree

theorem new_space (h : MkMonomialReference.new k degree = .ok r) :
    r.k = k ∧ r.degree = degree ∧ Space r := by
  obtain ⟨hk, hdegree, hindices, hadmitted⟩ := new_ok h
  obtain ⟨hnodup, hmem⟩ := enumerateMultiIndices_ok hindices
  refine ⟨hk, hdegree, hadmitted, hnodup, fun a ha => ?_⟩
  rw [hk, hdegree]
  exact (hmem a).mp ha

theorem Space.index (h : Space r) {i : Nat} (hi : i < r.dimension) :
    (r.index i).length = r.k ∧ (r.index i).sum ≤ r.degree :=
  h.members _ (getD_mem [] hi)

theorem Space.accepted (h : Space r) {i j : Nat} (hi : i < r.dimension) (hj : j < r.dimension) :
    Accepted r (r.index i) (r.index j) :=
  ⟨(h.index hi).1, (h.index hj).1, (h.index hi).2, (h.index hj).2⟩

/-- The form is the integral of the product. -/
theorem form_integral (h : Space r) (u w : Fin r.dimension → ℚ) :
    ((r.form u w : ℚ) : ℝ) = ∫ x in simplex r.k 1,
    r.polynomialValue u x * r.polynomialValue w x := by
  have hproduct : ∀ x : Fin r.k → ℝ, r.polynomialValue u x * r.polynomialValue w x =
      ∑ i : Fin r.dimension, ∑ j : Fin r.dimension,
        (u i * w j : ℝ) * (monomial (r.index i) x * monomial (r.index j) x) := by
    intro x
    rw [MkMonomialReference.polynomialValue, MkMonomialReference.polynomialValue,
      Finset.sum_mul_sum]
    refine Finset.sum_congr rfl fun i _ => Finset.sum_congr rfl fun j _ => ?_
    ring
  have hintegrable : ∀ i j : Fin r.dimension, IntegrableOn
      (fun x : Fin r.k → ℝ => (u i * w j : ℝ) * (monomial (r.index i) x * monomial (r.index j) x))
      (simplex r.k 1) :=
    fun i j => integrable_simplex
      (continuous_const.mul ((continuous_monomial _).mul (continuous_monomial _)))
  simp only [hproduct]
  rw [integral_finsetSum _ fun i _ => integrable_finsetSum _ fun j _ => hintegrable i j, form_apply]
  push_cast
  refine Finset.sum_congr rfl fun i _ => ?_
  rw [integral_finsetSum _ fun j _ => hintegrable i j]
  refine Finset.sum_congr rfl fun j _ => ?_
  rw [integral_const_mul, integral_monomial (h.index i.isLt).1 (h.index j.isLt).1, iValue]
  push_cast
  ring

/-! ## Definiteness -/

/-- The exponents of an index. -/
noncomputable def exponents (n : ℕ) (a : MultiIndex) : Fin n →₀ ℕ :=
  Finsupp.equivFunOnFinite.symm fun i => a.getD i 0

theorem exponents_injective {n : ℕ} {a b : MultiIndex} (ha : a.length = n) (hb : b.length = n)
    (h : exponents n a = exponents n b) : a = b := by
  refine List.ext_getElem (ha.trans hb.symm) fun i hi hi' => ?_
  have hget := DFunLike.congr_fun h ⟨i, ha ▸ hi⟩
  simpa [exponents, hi, hi'] using hget

/-- The polynomial with given coefficients. -/
noncomputable def polynomial (r : MkMonomialReference) (u : Fin r.dimension → ℚ) :
    MvPolynomial (Fin r.k) ℝ :=
  ∑ i : Fin r.dimension, MvPolynomial.monomial (exponents r.k (r.index i)) (u i : ℝ)

theorem eval_polynomial (u : Fin r.dimension → ℚ) (x : Fin r.k → ℝ) :
    MvPolynomial.eval x (polynomial r u) = r.polynomialValue u x := by
  rw [polynomial, map_sum, MkMonomialReference.polynomialValue]
  refine Finset.sum_congr rfl fun i _ => ?_
  rw [MvPolynomial.eval_monomial, Finsupp.prod_fintype _ _ fun _ => pow_zero _]
  rfl

theorem coeff_polynomial (h : Space r) (u : Fin r.dimension → ℚ) (i : Fin r.dimension) :
    (polynomial r u).coeff (exponents r.k (r.index i)) = u i := by
  rw [polynomial, MvPolynomial.coeff_sum, Finset.sum_eq_single i]
  · rw [MvPolynomial.coeff_monomial, if_pos rfl]
  · intro j _ hne
    rw [MvPolynomial.coeff_monomial, if_neg]
    intro hsame
    have heq := exponents_injective (h.index j.isLt).1 (h.index i.isLt).1 hsame
    rw [MkMonomialReference.index, MkMonomialReference.index, List.getD_eq_getElem _ _ j.isLt,
      List.getD_eq_getElem _ _ i.isLt] at heq
    exact hne (Fin.ext ((h.nodup.getElem_inj_iff).mp heq))
  · simp

theorem form_pos (h : Space r) {u : Fin r.dimension → ℚ} (hu : u ≠ 0) : 0 < r.form u u := by
  have hne : polynomial r u ≠ 0 := by
    obtain ⟨i, hi⟩ := Function.ne_iff.mp hu
    intro hzero
    have hcoeff := coeff_polynomial h u i
    rw [hzero, MvPolynomial.coeff_zero] at hcoeff
    exact hi (by exact_mod_cast hcoeff.symm)
  have hpos := integral_sq_pos hne
  simp only [eval_polynomial, sq] at hpos
  rw [← form_integral h u u] at hpos
  exact_mod_cast hpos

theorem form_definite (h : Space r) (u : Fin r.dimension → ℚ) (hu : r.form u u = 0) : u = 0 := by
  by_contra hne
  exact (form_pos h hne).ne' hu

theorem new_dimension (h : MkMonomialReference.new k degree = .ok r) : r.dimension < 2 ^ 21 := by
  obtain ⟨-, -, hindices, -⟩ := new_ok h
  obtain ⟨hnodup, hmem⟩ := enumerateMultiIndices_ok hindices
  have hlength : r.indices.length = (k + degree).choose k := by
    rw [length_of_same_members hnodup (nodup_lexIndices k degree) fun index =>
      (hmem index).trans mem_lexIndices.symm, card_lexIndices]
  unfold enumerateMultiIndices at hindices
  obtain ⟨_, -, hindices⟩ := bind_eq_ok hindices
  obtain ⟨_, -, hindices⟩ := bind_eq_ok hindices
  obtain ⟨count, hbudget, -⟩ := bind_eq_ok hindices
  obtain ⟨hcount, -⟩ := referenceIndexBudget_ok hbudget
  unfold referenceIndexBudget at hbudget
  obtain ⟨_, -, hbudget⟩ := bind_eq_ok hbudget
  obtain ⟨_, -, hbudget⟩ := bind_eq_ok hbudget
  obtain ⟨_, hle, hbudget⟩ := bind_eq_ok hbudget
  obtain ⟨-, hsame⟩ := checked_eq_some (okOr_ok hbudget)
  have hlimit : 256 * 2 ^ 20 / (8 * k + 192) ≤ 256 * 2 ^ 20 / 192 :=
    Nat.div_le_div_left (by omega) (by norm_num)
  have hle := of_decide_eq_true (check_ok hle)
  unfold MkMonomialReference.dimension
  omega

/-! ## Inner products -/

theorem iEntry_index (h : Space r) {i j : Nat} (hi : i < r.dimension) (hj : j < r.dimension) :
    r.iEntry (r.index i) (r.index j) = .ok (iValue r.k (r.index i) (r.index j)) := by
  rw [iEntry_ok h.admitted (h.accepted hi hj)]
  rfl

/-- The Gram matrix, row by row. -/
structure GramOf (r : MkMonomialReference) (gram : List ℚ) : Prop where
  length : gram.length = r.dimension * r.dimension
  small : r.dimension * r.dimension < 2 ^ 64
  entry : ∀ row < r.dimension, ∀ column < r.dimension,
    gram.getD (row * r.dimension + column) 0 = iValue r.k (r.index row) (r.index column)

theorem denseIExact_ok (h : Space r) (hsize : r.dimension < 2 ^ 21) :
    ∃ gram, r.denseIExact = .ok gram ∧ GramOf r gram := by
  have hentry : ∀ row < r.dimension, ∀ column < r.dimension,
      r.iEntry (r.indices.getD row []) (r.indices.getD column []) =
          .ok (iValue r.k (r.index row) (r.index column)) :=
    fun row hrow column hcolumn => iEntry_index h hrow hcolumn
  obtain ⟨gram, hgram, hget⟩ := denseOf_ok hentry
  refine ⟨gram, hgram, ?_, by nlinarith, hget⟩
  have hcells : ∀ cell ∈ cells r.dimension r.dimension, ∃ value,
      r.iEntry (r.indices.getD cell.1 []) (r.indices.getD cell.2 []) = .ok value ∧ True := by
    intro cell hcell
    simp only [cells, List.mem_flatMap, List.mem_map, List.mem_range] at hcell
    obtain ⟨row, hrow, column, hcolumn, rfl⟩ := hcell
    exact ⟨_, hentry row hrow column hcolumn, trivial⟩
  obtain ⟨values, hvalues, hall⟩ := mapM_forall₂ hcells
  cases hvalues.symm.trans hgram
  rw [← hall.length_eq, cells, flatMap_rows (fun i j => (i, j))]
  simp

/-- The coefficients as a vector of the space. -/
def coordinates (r : MkMonomialReference) (coefficients : List ℚ) : Fin r.dimension → ℚ :=
  fun i => coefficients.getD i 0

theorem foldl_cells (rows columns : Nat) (g : Nat → Nat → ℚ) :
    (cells rows columns).foldl (fun total cell => total + g cell.1 cell.2) 0 =
      ∑ i : Fin rows, ∑ j : Fin columns, g i j := by
  have hfold : ∀ (list : List (Nat × Nat)) (start : ℚ), list.foldl (fun total cell =>
    total + g cell.1 cell.2) start =
      start + (list.map fun cell => g cell.1 cell.2).sum := by
    intro list
    induction list with
    | nil => simp
    | cons cell list ih =>
      intro start
      rw [List.foldl_cons, ih, List.map_cons, List.sum_cons, add_assoc]
  rw [hfold, zero_add, cells, sum_cells, sum_range, Finset.sum_range]
  refine Finset.sum_congr rfl fun i _ => ?_
  rw [sum_range, Finset.sum_range]

theorem exactDenseInnerProduct_ok {gram left right : List ℚ} (hgram : GramOf r gram)
    (hleft : left.length = r.dimension) (hright : right.length = r.dimension) :
    exactDenseInnerProduct left right gram = .ok (r.form (coordinates r left)
      (coordinates r right)) := by
  have hcheck : (left.length == right.length &&
      gram.length == saturatingMul left.length left.length) = true := by
    have hsmall := hgram.small
    rw [hleft, hright, hgram.length, saturatingMul, min_eq_left (by omega)]
    simp
  rw [exactDenseInnerProduct, check, if_pos hcheck, ok_bind, hleft, form_apply]
  refine congrArg Except.ok ((foldl_cells r.dimension r.dimension fun i j =>
    left.getD i 0 * gram.getD (i * left.length + j) 0 * right.getD j 0).trans ?_)
  refine Finset.sum_congr rfl fun i _ => Finset.sum_congr rfl fun j _ => ?_
  rw [hleft, hgram.entry i i.isLt j j.isLt]
  rfl

/-! ## The construction -/

/-- A stored vector with its norm. -/
structure Sound (r : MkMonomialReference) (vector : ExactOrthonormalVector) : Prop where
  length : vector.coefficients.length = r.dimension
  norm : vector.squaredNorm = r.form (coordinates r vector.coefficients)
    (coordinates r vector.coefficients)
  positive : 0 < vector.squaredNorm

def directions (r : MkMonomialReference) (vectors : List ExactOrthonormalVector) :
    List (Fin r.dimension → ℚ) :=
  vectors.map fun vector => coordinates r vector.coefficients

theorem project_ok {gram coefficients : List ℚ} (hgram : GramOf r gram)
    (hlength : coefficients.length = r.dimension)
    {previous : ExactOrthonormalVector} (hprevious : Sound r previous) :
    ∃ next, project gram coefficients previous = .ok next ∧ next.length = r.dimension ∧
      coordinates r next = coordinates r coefficients -
        (r.form (coordinates r coefficients) (coordinates r previous.coefficients) /
          r.form (coordinates r previous.coefficients) (coordinates r previous.coefficients)) •
            coordinates r previous.coefficients := by
  have hinner := exactDenseInnerProduct_ok hgram hlength hprevious.length
  refine ⟨_, by rw [project, hinner, ok_bind]; rfl, by simp [hlength, hprevious.length],
    funext fun i => ?_⟩
  have hi : (i : Nat) < coefficients.length := hlength.symm ▸ i.isLt
  have hi' : (i : Nat) < previous.coefficients.length := hprevious.length.symm ▸ i.isLt
  simp [coordinates, hi, hi', ← hprevious.norm]

theorem projects_ok {gram : List ℚ} (hgram : GramOf r gram) {vectors : List ExactOrthonormalVector}
    (hsound : ∀ vector ∈ vectors, Sound r vector) {coefficients : List ℚ}
    (hlength : coefficients.length = r.dimension) :
    ∃ next, vectors.foldlM (project gram) coefficients = .ok next ∧ next.length = r.dimension ∧
      coordinates r next = reduce r.form (directions r vectors) (coordinates r coefficients) := by
  induction vectors generalizing coefficients with
  | nil => exact ⟨coefficients, rfl, hlength, rfl⟩
  | cons vector rest ih =>
    obtain ⟨first, hfirst, hfirstLength, hcoordinates⟩ :=
      project_ok hgram hlength (hsound vector List.mem_cons_self)
    obtain ⟨next, hnext, hnextLength, hreduce⟩ :=
      ih (fun v hv => hsound v (List.mem_cons_of_mem _ hv)) hfirstLength
    refine ⟨next, by rw [List.foldlM_cons, hfirst, ok_bind, hnext], hnextLength, ?_⟩
    rw [hreduce, hcoordinates]
    rfl

def units (r : MkMonomialReference) (columns : Nat) : List (Fin r.dimension → ℚ) :=
  (List.range columns).map fun column => coordinates r (unitVector r.dimension column)

theorem coordinates_unit (column : Nat) (i : Fin r.dimension) :
    coordinates r (unitVector r.dimension column) i = if i = column then 1 else 0 := by
  rw [coordinates, unitVector, List.getD_eq_getElem?_getD, List.getElem?_set]
  by_cases h : column = i
  · simp [h]
  · simp [h, Ne.symm h]

/-- Only the first coordinates occur in the span of the first units. -/
theorem span_units {columns : Nat} {v : Fin r.dimension → ℚ}
    (hv : v ∈ Submodule.span ℚ {w | w ∈ units r columns})
    {i : Fin r.dimension} (hi : columns ≤ i) : v i = 0 := by
  induction hv using Submodule.span_induction with
  | mem w hw =>
    obtain ⟨column, hcolumn, rfl⟩ := List.mem_map.mp hw
    rw [coordinates_unit, if_neg]
    have := List.mem_range.mp hcolumn
    omega
  | zero => rfl
  | add x y _ _ hx hy => rw [Pi.add_apply, hx, hy, add_zero]
  | smul c x _ hx => rw [Pi.smul_apply, hx, smul_zero]

/-- What the first columns have given. -/
structure Built (r : MkMonomialReference) (columns : Nat) (vectors : List ExactOrthonormalVector) :
    Prop where
  sound : ∀ vector ∈ vectors, Sound r vector
  orthogonalized : Orthogonalized r.form (units r columns) (directions r vectors)
  leading : ∀ (i : Fin r.dimension) (vector : ExactOrthonormalVector), vectors[(i : Nat)]? =
    some vector →
    coordinates r vector.coefficients i = 1 ∧ ∀ j, i < j → coordinates r vector.coefficients j = 0

theorem Built.length {columns : Nat} {vectors : List ExactOrthonormalVector}
    (h : Built r columns vectors) :
    vectors.length = columns := by
  simpa [directions, units] using h.orthogonalized.length

theorem built_nil : Built r 0 [] :=
  ⟨by simp, Orthogonalized.nil, by simp⟩

theorem Built.step (h : Space r) {gram : List ℚ} (hgram : GramOf r gram) {column : Nat}
    (hcolumn : column < r.dimension)
    {vectors : List ExactOrthonormalVector} (hbuilt : Built r column vectors) :
    ∃ next, orthogonalize r.dimension gram vectors column = .ok next ∧
    Built r (column + 1) next := by
  obtain ⟨coefficients, hcoefficients, hlength, hreduce⟩ :=
    @projects_ok r gram hgram vectors hbuilt.sound (unitVector r.dimension column)
      (by simp [unitVector])
  have hinner := exactDenseInnerProduct_ok hgram hlength hlength
  have hlast : ∀ i : Fin r.dimension, column ≤ i →
      coordinates r coefficients i = if (i : Nat) = column then 1 else 0 := by
    intro i hi
    have hspan := span_units
      (hbuilt.orthogonalized.sub_mem (coordinates r (unitVector r.dimension column))) hi
    rw [Pi.sub_apply, ← hreduce, sub_eq_zero] at hspan
    rw [← hspan, coordinates_unit]
  have hne : coordinates r coefficients ≠ 0 := by
    intro hzero
    have hone := hlast ⟨column, hcolumn⟩ le_rfl
    rw [hzero, if_pos rfl] at hone
    exact zero_ne_one hone
  have hpos := form_pos h hne
  refine ⟨vectors ++ [⟨coefficients,
    r.form (coordinates r coefficients) (coordinates r coefficients)⟩], ?_, ?_, ?_, ?_⟩
  · rw [orthogonalize, hcoefficients, ok_bind, hinner, ok_bind, check,
      if_pos (by simpa using hpos), ok_bind]
    rfl
  · intro vector hvector
    rcases List.mem_append.mp hvector with hvector | hvector
    · exact hbuilt.sound vector hvector
    · rw [List.mem_singleton.mp hvector]
      exact ⟨hlength, rfl, hpos⟩
  · have hconcat := hbuilt.orthogonalized.concat form_isSymm
      (v := coordinates r (unitVector r.dimension column))
      (by rw [← hreduce]; exact hpos.ne')
    rw [← hreduce] at hconcat
    rw [units, List.range_succ, List.map_append, directions, List.map_append]
    exact hconcat
  · intro i vector hvector
    rcases Nat.lt_trichotomy i column with hlt | heq | hgt
    · rw [List.getElem?_append_left (by rw [hbuilt.length]; exact hlt)] at hvector
      exact hbuilt.leading i vector hvector
    · rw [heq, List.getElem?_append_right (by rw [hbuilt.length]), hbuilt.length] at hvector
      simp only [Nat.sub_self, List.getElem?_cons_zero, Option.some.injEq] at hvector
      subst hvector
      refine ⟨by rw [hlast i heq.ge, if_pos heq], fun j hj => ?_⟩
      have hj' : (i : Nat) < j := hj
      rw [hlast j (by omega), if_neg (by omega)]
    · rw [List.getElem?_eq_none (by simp [hbuilt.length]; omega)] at hvector
      cases hvector

theorem built_range (h : Space r) {gram : List ℚ} (hgram : GramOf r gram) {columns : Nat}
    (hcolumns : columns ≤ r.dimension) :
    ∃ vectors, (List.range columns).foldlM (orthogonalize r.dimension gram) [] = .ok vectors ∧
      Built r columns vectors := by
  induction columns with
  | zero => exact ⟨[], rfl, built_nil⟩
  | succ columns ih =>
    obtain ⟨vectors, hvectors, hbuilt⟩ := ih (by omega)
    obtain ⟨next, hnext, hbuiltNext⟩ := hbuilt.step h hgram (by omega)
    refine ⟨next, ?_, hbuiltNext⟩
    rw [List.range_succ, List.foldlM_append, hvectors, ok_bind, List.foldlM_cons, hnext, ok_bind]
    rfl

/-! ## Verification -/

theorem forM_all_ok {α : Type} {f : α → Mk Unit} {xs : List α} (h : ∀ x ∈ xs, f x = .ok ()) :
    xs.forM f = .ok () := by
  induction xs with
  | nil => rfl
  | cons x xs ih =>
    show (f x >>= fun _ => xs.forM f) = _
    rw [h x List.mem_cons_self, ok_bind, ih fun y hy => h y (List.mem_cons_of_mem _ hy)]

/-- The stored vectors are orthogonal with the stored norms, and as many as the
space has dimensions. -/
structure OrthonormalBasis (r : MkMonomialReference) (vectors : List ExactOrthonormalVector) :
    Prop where
  length : vectors.length = r.dimension
  sound : ∀ vector ∈ vectors, Sound r vector
  products : ∀ (i j : Nat) (hi : i < vectors.length) (hj : j < vectors.length),
    r.form (coordinates r vectors[i].coefficients) (coordinates r vectors[j].coefficients) =
      if i = j then vectors[i].squaredNorm else 0

theorem OrthonormalBasis.verifyCells {gram : List ℚ} (hgram : GramOf r gram)
    {vectors : List ExactOrthonormalVector}
    (h : OrthonormalBasis r vectors) (diagonal : Nat → String) (cross : Nat → Nat → String) :
    verifyCells diagonal cross vectors gram = .ok () := by
  refine forM_all_ok fun cell hcell => ?_
  simp only [cells, List.mem_flatMap, List.mem_map, List.mem_range] at hcell
  obtain ⟨row, hrow, column, hcolumn, rfl⟩ := hcell
  have hinner := exactDenseInnerProduct_ok hgram (h.sound _ (List.getElem_mem hrow)).length
    (h.sound _ (List.getElem_mem hcolumn)).length
  rw [verifyCell, read_ok (List.getElem?_eq_getElem hrow),
    read_ok (List.getElem?_eq_getElem hcolumn)]
  show (exactDenseInnerProduct vectors[row].coefficients vectors[column].coefficients gram >>= _) =
    _
  rw [hinner, ok_bind, h.products row column hrow hcolumn]
  split <;> simp [check]

theorem Built.basis {vectors : List ExactOrthonormalVector} (h : Built r r.dimension vectors) :
    OrthonormalBasis r vectors where
  length := h.length
  sound := h.sound
  products i j hi hj := by
    have hpairs := List.pairwise_iff_getElem.mp (List.pairwise_map.mp h.orthogonalized.orthogonal)
    rcases Nat.lt_trichotomy i j with hlt | heq | hgt
    · rw [if_neg (Nat.ne_of_lt hlt)]
      exact hpairs i j hi hj hlt
    · subst heq
      rw [if_pos rfl, (h.sound _ (List.getElem_mem hi)).norm]
    · rw [if_neg (Nat.ne_of_gt hgt), form_isSymm.eq]
      exact hpairs j i hj hi hgt

theorem built_new (h : Space r) (hsize : r.dimension < 2 ^ 21) :
    ∃ vectors, ExactSimplexOrthonormalBasis.new r = .ok ⟨r.k, r.degree, vectors⟩ ∧
    Built r r.dimension vectors := by
  obtain ⟨gram, hgram, hentries⟩ := denseIExact_ok h hsize
  obtain ⟨vectors, hvectors, hbuilt⟩ := built_range h hentries le_rfl
  have hsemantics : (r.k == r.k && r.degree == r.degree && vectors.length == r.dimension) =
      true := by
    simp [hbuilt.length]
  have hverify : (ExactSimplexOrthonormalBasis.mk r.k r.degree vectors).verifyExact r = .ok () := by
    rw [ExactSimplexOrthonormalBasis.verifyExact, ExactSimplexOrthonormalBasis.dimension, check,
      if_pos hsemantics, ok_bind, hgram, ok_bind]
    exact hbuilt.basis.verifyCells hentries _ _
  refine ⟨vectors, ?_, hbuilt⟩
  rw [ExactSimplexOrthonormalBasis.new, hgram, ok_bind, hvectors, ok_bind]
  show ((ExactSimplexOrthonormalBasis.mk r.k r.degree vectors).verifyExact r >>= fun _ =>
    pure _) = _
  rw [hverify]
  rfl

/-! ## Quadratic forms -/

theorem quadraticForm_ok {coefficients : List ℚ} {entry : MultiIndex → MultiIndex → Mk ℚ}
    {f : MultiIndex → MultiIndex → ℚ}
    (hentry : ∀ a ∈ r.indices, ∀ b ∈ r.indices, entry a b = .ok (f a b)) :
    r.quadraticForm coefficients entry = .ok (∑ i : Fin r.dimension, ∑ j : Fin r.dimension,
      coordinates r coefficients i * f (r.index i) (r.index j) * coordinates r coefficients j) := by
  -- A monomial reference is a symmetric one without orbits.
  have hform := quadraticForm_functional (s := ⟨r, [], []⟩) hentry coefficients
  refine hform.trans (congrArg Except.ok ?_)
  rw [functional, Finset.sum_range]
  refine Finset.sum_congr rfl fun i _ => ?_
  rw [functional, Finset.sum_range, Finset.mul_sum]
  refine Finset.sum_congr rfl fun j _ => ?_
  simp only [coordinates, MkMonomialReference.index]
  ring

theorem checkCoefficients_ok {coefficients : List ℚ} (hlength : coefficients.length = r.dimension) :
    r.checkCoefficients coefficients = .ok () := if_pos hlength

theorem quadraticI_form (h : Space r) {coefficients : List ℚ}
    (hlength : coefficients.length = r.dimension) :
    r.quadraticI coefficients = .ok (r.form (coordinates r coefficients)
      (coordinates r coefficients)) := by
  rw [MkMonomialReference.quadraticI, checkCoefficients_ok hlength, ok_bind, form_apply]
  refine quadraticForm_ok fun a ha b hb => ?_
  obtain ⟨i, hi, rfl⟩ := List.getElem_of_mem ha
  obtain ⟨j, hj, rfl⟩ := List.getElem_of_mem hb
  have hentry := iEntry_index h hi hj
  rwa [MkMonomialReference.index, MkMonomialReference.index, List.getD_eq_getElem _ _ hi,
    List.getD_eq_getElem _ _ hj] at hentry

theorem coordinates_eq_zero {coefficients : List ℚ} (hlength : coefficients.length = r.dimension) :
    coordinates r coefficients = 0 ↔ ∀ c ∈ coefficients, c = 0 := by
  constructor
  · intro hzero c hc
    obtain ⟨i, hi, rfl⟩ := List.getElem_of_mem hc
    have hat := congrFun hzero ⟨i, hlength ▸ hi⟩
    rwa [coordinates, List.getD_eq_getElem _ _ hi] at hat
  · intro hall
    funext i
    have hi : (i : Nat) < coefficients.length := hlength.symm ▸ i.isLt
    rw [coordinates, List.getD_eq_getElem _ _ hi]
    exact hall _ (List.getElem_mem hi)

/-- A square is the sum of the squares along the basis. -/
theorem OrthonormalBasis.square (h : Space r) {vectors : List ExactOrthonormalVector}
    (hbasis : OrthonormalBasis r vectors) (u : Fin r.dimension → ℚ) :
    r.form u u = (vectors.map fun vector =>
      r.form u (coordinates r vector.coefficients) ^ 2 / vector.squaredNorm).sum := by
  have horthogonal : Orthogonal r.form (directions r vectors) := by
    refine List.pairwise_map.mpr (List.pairwise_iff_getElem.mpr fun i j hi hj hlt => ?_)
    rw [hbasis.products i j hi hj, if_neg (Nat.ne_of_lt hlt)]
  have hnonzero : ∀ w ∈ directions r vectors, r.form w w ≠ 0 := by
    intro w hw
    obtain ⟨vector, hvector, rfl⟩ := List.mem_map.mp hw
    rw [← (hbasis.sound vector hvector).norm]
    exact (hbasis.sound vector hvector).positive.ne'
  have hspan := GramSchmidt.span_eq_top form_isSymm horthogonal hnonzero
    (by simp [directions, hbasis.length])
  have hmem : u ∈ Submodule.span ℚ {w | w ∈ directions r vectors} := by
    rw [hspan]
    exact Submodule.mem_top
  rw [square_eq form_isSymm (form_definite h) horthogonal hnonzero hmem, directions, List.map_map]
  refine congrArg List.sum (List.map_congr_left fun vector hvector => ?_)
  rw [Function.comp_apply, (hbasis.sound vector hvector).norm]

/-- The polynomial of a coefficient list. -/
noncomputable def MkMonomialReference.evaluateAt (r : MkMonomialReference) {n : ℕ}
    (coefficients : List ℚ) (x : Fin n → ℝ) : ℝ :=
  r.polynomialValue (coordinates r coefficients) x

theorem OrthonormalBasis.integral (h : Space r) {vectors : List ExactOrthonormalVector}
    (hbasis : OrthonormalBasis r vectors) {i j : Nat} {left right : ExactOrthonormalVector}
    (hleft : vectors[i]? = some left) (hright : vectors[j]? = some right) :
    ∫ x in simplex r.k 1, r.evaluateAt left.coefficients x * r.evaluateAt right.coefficients x =
      if i = j then (left.squaredNorm : ℝ) else 0 := by
  obtain ⟨hi, rfl⟩ := List.getElem?_eq_some_iff.mp hleft
  obtain ⟨hj, rfl⟩ := List.getElem?_eq_some_iff.mp hright
  have hintegral := form_integral h (coordinates r vectors[i].coefficients)
    (coordinates r vectors[j].coefficients)
  rw [hbasis.products i j hi hj] at hintegral
  refine hintegral.symm.trans ?_
  split <;> simp

/-- The form is the sum of the squared projections. -/
theorem OrthonormalBasis.quadraticI (h : Space r) {vectors : List ExactOrthonormalVector}
    (hbasis : OrthonormalBasis r vectors) {coefficients : List ℚ}
    (hlength : coefficients.length = r.dimension) :
    ∃ value, r.quadraticI coefficients = .ok value ∧ (value : ℝ) = (vectors.map fun vector =>
      (∫ x in simplex r.k 1, r.evaluateAt coefficients x * r.evaluateAt vector.coefficients x) ^ 2 /
        (vector.squaredNorm : ℝ)).sum := by
  refine ⟨_, quadraticI_form h hlength, ?_⟩
  rw [hbasis.square h, Rat.cast_list_sum, List.map_map]
  refine congrArg List.sum (List.map_congr_left fun vector _ => ?_)
  rw [Function.comp_apply, Rat.cast_div, Rat.cast_pow, form_integral h]
  rfl

/-- **The basis exists and is orthonormal.** For every reference the construction
succeeds; the vectors are the monomials up to earlier ones, orthogonal over the
simplex with the stored squared norms, and they carry the whole form. -/
theorem simplex_basis_orthonormal (h : MkMonomialReference.new k degree = .ok r) :
    ∃ basis, ExactSimplexOrthonormalBasis.new r = .ok basis ∧ basis.k = k ∧ basis.degree = degree ∧
      basis.vectors.length = r.dimension ∧
      (∀ (i : Nat) (vector : ExactOrthonormalVector), basis.vectors[i]? = some vector →
        vector.coefficients.length = r.dimension ∧ 0 < vector.squaredNorm ∧
        vector.coefficients[i]? = some 1 ∧
          ∀ j c, i < j → vector.coefficients[j]? = some c → c = 0) ∧
      (∀ (i j : Nat) (left right : ExactOrthonormalVector), basis.vectors[i]? = some left →
        basis.vectors[j]? = some right →
          ∫ x in simplex k 1, r.evaluateAt left.coefficients x * r.evaluateAt right.coefficients x =
            if i = j then (left.squaredNorm : ℝ) else 0) ∧
      ∀ coefficients, coefficients.length = r.dimension →
      ∃ value, r.quadraticI coefficients = .ok value ∧
        (value : ℝ) = (basis.vectors.map fun vector =>
          (∫ x in simplex k 1, r.evaluateAt coefficients x *
            r.evaluateAt vector.coefficients x) ^ 2 /
            (vector.squaredNorm : ℝ)).sum := by
  obtain ⟨rfl, rfl, hspace⟩ := new_space h
  obtain ⟨vectors, hnew, hbuilt⟩ := built_new hspace (new_dimension h)
  refine ⟨_, hnew, rfl, rfl, hbuilt.length, fun i vector hvector => ?_,
    fun i j left right hleft hright => hbuilt.basis.integral hspace hleft hright,
    fun coefficients hlength => hbuilt.basis.quadraticI hspace hlength⟩
  obtain ⟨hi, hget⟩ := List.getElem?_eq_some_iff.mp hvector
  have hi' : i < r.dimension := hbuilt.length ▸ hi
  have hsound := hbuilt.sound vector (hget ▸ List.getElem_mem hi)
  obtain ⟨hone, hzero⟩ := hbuilt.leading ⟨i, hi'⟩ vector hvector
  have hlt : i < vector.coefficients.length := hsound.length.symm ▸ hi'
  refine ⟨hsound.length, hsound.positive, ?_, fun j c hj hc => ?_⟩
  · rw [List.getElem?_eq_getElem hlt, ← hone, coordinates, List.getD_eq_getElem _ _ hlt]
  · obtain ⟨hjlt, rfl⟩ := List.getElem?_eq_some_iff.mp hc
    have hj' := hzero ⟨j, hsound.length ▸ hjlt⟩ hj
    rwa [coordinates, List.getD_eq_getElem _ _ hjlt] at hj'

/-! ## The quotient -/

theorem jTotalEntry_index (h : Space r) {i j : Nat} (hi : i < r.dimension) (hj : j < r.dimension) :
    r.jTotalEntry (r.index i) (r.index j) = .ok (jTotalValue r.k (r.index i) (r.index j)) := by
  have hsum := @foldlM_add _ (fun total m =>
    do return total + (← r.jEntry m (r.index i) (r.index j))) _
    (List.range r.k) (fun m hm total => by
      rw [jEntry_ok h.admitted (h.accepted hi hj) (List.mem_range.mp hm), ok_bind]
      rfl) 0
  rw [MkMonomialReference.jTotalEntry, hsum, zero_add]
  rfl

theorem quadraticJTotal_form (h : Space r) {coefficients : List ℚ}
    (hlength : coefficients.length = r.dimension) :
    r.quadraticJTotal coefficients = .ok (∑ i : Fin r.dimension, ∑ j : Fin r.dimension,
      coordinates r coefficients i * jTotalValue r.k (r.index i)
      (r.index j) * coordinates r coefficients j) := by
  rw [MkMonomialReference.quadraticJTotal, checkCoefficients_ok hlength, ok_bind]
  refine quadraticForm_ok fun a ha b hb => ?_
  obtain ⟨i, hi, rfl⟩ := List.getElem_of_mem ha
  obtain ⟨j, hj, rfl⟩ := List.getElem_of_mem hb
  have hentry := jTotalEntry_index h hi hj
  rwa [MkMonomialReference.index, MkMonomialReference.index, List.getD_eq_getElem _ _ hi,
    List.getD_eq_getElem _ _ hj] at hentry

theorem continuous_marginal {n : ℕ} (m : Fin (n + 1)) (a : MultiIndex) :
    Continuous (marginal m a) := by
  have heq : marginal m a = fun y : Fin n → ℝ =>
    (1 - ∑ i, y i) ^ (a.getD m 0 + 1) / (a.getD m 0 + 1) *
      ∏ i, y i ^ a.getD (m.succAbove i) 0 := funext fun y => marginal_eq m a y
  rw [heq]
  fun_prop

/-- The integral of a polynomial along an axis. -/
theorem marginal_polynomial {n : ℕ} (m : Fin (n + 1)) (u : Fin r.dimension → ℚ) (y : Fin n → ℝ) :
    (∫ t in (0)..(1 - ∑ l, y l), r.polynomialValue u (m.insertNth t y : Fin (n + 1) → ℝ)) =
      ∑ i : Fin r.dimension, (u i : ℝ) * marginal m (r.index i) y := by
  have hinsert : Continuous fun t : ℝ => (m.insertNth t y : Fin (n + 1) → ℝ) :=
    @Continuous.finInsertNth _ _ _ (fun _ => ℝ) _ m _ _ continuous_id continuous_const
  have hcontinuous : ∀ i : Fin r.dimension, Continuous fun t : ℝ =>
      (u i : ℝ) * monomial (r.index i) (m.insertNth t y : Fin (n + 1) → ℝ) := fun i =>
    continuous_const.mul ((continuous_monomial _).comp hinsert)
  simp only [MkMonomialReference.polynomialValue]
  rw [intervalIntegral.integral_finsetSum fun i _ => (hcontinuous i).intervalIntegrable _ _]
  refine Finset.sum_congr rfl fun i _ => ?_
  rw [intervalIntegral.integral_const_mul]
  rfl

theorem jTotalValue_integral {n : ℕ} {a b : MultiIndex} (ha : a.length = n + 1)
    (hb : b.length = n + 1) :
    ((jTotalValue (n + 1) a b : ℚ) : ℝ) =
      ∑ m : Fin (n + 1), ∫ y in simplex n 1, marginal m a y * marginal m b y := by
  rw [jTotalValue, sum_range, Finset.sum_range, Rat.cast_sum]
  refine Finset.sum_congr rfl fun m _ => ?_
  rw [integral_marginal m ha hb]
  push_cast
  rfl

/-- The form `J` is the sum of the squared marginals. -/
theorem jTotal_integral {n : ℕ} (hk : r.k = n + 1) (h : Space r) (u : Fin r.dimension → ℚ) :
    ((∑ i : Fin r.dimension, ∑ j : Fin r.dimension, u i * jTotalValue r.k (r.index i)
    (r.index j) * u j : ℚ) : ℝ) =
      ∑ m : Fin (n + 1), ∫ y in simplex n 1,
        (∫ t in (0)..(1 - ∑ l, y l),
          r.polynomialValue u (m.insertNth t y : Fin (n + 1) → ℝ)) ^ 2 := by
  have hsquare : ∀ (m : Fin (n + 1)) (y : Fin n → ℝ),
      (∑ i : Fin r.dimension, (u i : ℝ) * marginal m (r.index i) y) ^ 2 =
        ∑ i : Fin r.dimension, ∑ j : Fin r.dimension,
          (u i * u j : ℝ) * (marginal m (r.index i) y * marginal m (r.index j) y) := by
    intro m y
    rw [sq, Finset.sum_mul_sum]
    refine Finset.sum_congr rfl fun i _ => Finset.sum_congr rfl fun j _ => ?_
    ring
  have hintegrable : ∀ (m : Fin (n + 1)) (i j : Fin r.dimension), IntegrableOn (fun y : Fin n → ℝ =>
      (u i * u j : ℝ) * (marginal m (r.index i) y * marginal m (r.index j) y)) (simplex n 1) :=
        fun m i j =>
    integrable_simplex (continuous_const.mul
      ((continuous_marginal m _).mul (continuous_marginal m _)))
  have haxis : ∀ m : Fin (n + 1), (∫ y in simplex n 1,
      (∫ t in (0)..(1 - ∑ l, y l), r.polynomialValue u (m.insertNth t y : Fin (n + 1) → ℝ)) ^ 2) =
        ∑ i : Fin r.dimension, ∑ j : Fin r.dimension,
          (u i * u j : ℝ) * ∫ y in simplex n 1,
          marginal m (r.index i) y * marginal m (r.index j) y := by
    intro m
    simp only [marginal_polynomial, hsquare]
    rw [integral_finsetSum _ fun i _ => integrable_finsetSum _ fun j _ => hintegrable m i j]
    refine Finset.sum_congr rfl fun i _ => ?_
    rw [integral_finsetSum _ fun j _ => hintegrable m i j]
    exact Finset.sum_congr rfl fun j _ => integral_const_mul _ _
  have hcomm : (∑ m : Fin (n + 1), ∑ i : Fin r.dimension, ∑ j : Fin r.dimension,
      (u i * u j : ℝ) * ∫ y in simplex n 1, marginal m (r.index i) y * marginal m (r.index j) y) =
        ∑ i : Fin r.dimension, ∑ j : Fin r.dimension, (u i * u j : ℝ) *
          ∑ m : Fin (n + 1), ∫ y in simplex n 1,
              marginal m (r.index i) y * marginal m (r.index j) y := by
    rw [Finset.sum_comm]
    refine Finset.sum_congr rfl fun i _ => ?_
    rw [Finset.sum_comm]
    exact Finset.sum_congr rfl fun j _ => (Finset.mul_sum _ _ _).symm
  rw [Finset.sum_congr rfl fun m _ => haxis m, hcomm]
  push_cast
  refine Finset.sum_congr rfl fun i _ => Finset.sum_congr rfl fun j _ => ?_
  rw [hk, jTotalValue_integral ((h.index i.isLt).1.trans hk) ((h.index j.isLt).1.trans hk)]
  ring

/-- **The certified quotient.** The certificate and the quotient exist exactly for
the coefficients that are not all zero, and hold the two integrals of their
polynomial. -/
theorem certificate_is_rayleigh (h : MkMonomialReference.new k degree = .ok r)
    (coefficients : List ℚ) (hlength : coefficients.length = r.dimension) :
    ∃ (n : ℕ) (numerator denominator : ℚ), k = n + 1 ∧
      (denominator : ℝ) = ∫ x in simplex k 1, r.evaluateAt coefficients x ^ 2 ∧
      (numerator : ℝ) = ∑ m : Fin (n + 1), ∫ y in simplex n 1,
        (∫ t in (0)..(1 - ∑ l, y l),
          r.evaluateAt coefficients (m.insertNth t y : Fin (n + 1) → ℝ)) ^ 2 ∧
      ((∀ c ∈ coefficients, c = 0) ∧ r.certificate coefficients = nonPositiveDenominator ∧
          r.rayleighQuotient coefficients = nonPositiveDenominator ∨
        (∃ c ∈ coefficients, c ≠ 0) ∧ 0 < denominator ∧ 0 ≤ numerator ∧
          r.rayleighQuotient coefficients = .ok (numerator / denominator) ∧
          r.certificate coefficients = .ok
            { k, degree, dimension := r.dimension, searchSpace := "full monomial polynomial space",
              numerator := exactRecord numerator, denominator := exactRecord denominator,
              quotient := exactRecord (numerator / denominator) }) := by
  obtain ⟨rfl, rfl, hspace⟩ := new_space h
  obtain ⟨n, hn⟩ := Nat.exists_eq_succ_of_ne_zero hspace.admitted.positive
  have hi := quadraticI_form hspace hlength
  have hj := quadraticJTotal_form hspace hlength
  have hjIntegral := jTotal_integral hn hspace (coordinates r coefficients)
  refine ⟨n, _, r.form (coordinates r coefficients) (coordinates r coefficients), hn, ?_,
    hjIntegral, ?_⟩
  · rw [form_integral hspace]
    simp only [sq]
    rfl
  by_cases hzero : coordinates r coefficients = 0
  · refine .inl ⟨(coordinates_eq_zero hlength).mp hzero, ?_, ?_⟩
    · rw [MkMonomialReference.certificate, hj, ok_bind, hi, ok_bind, if_pos]
      rw [hzero, map_zero]
    · rw [MkMonomialReference.rayleighQuotient, hi, ok_bind, if_pos]
      rw [hzero, map_zero]
  · have hpos := form_pos hspace hzero
    have hnonzero : ∃ c ∈ coefficients, c ≠ 0 := by
      by_contra hall
      push Not at hall
      exact hzero ((coordinates_eq_zero hlength).mpr hall)
    refine .inr ⟨hnonzero, hpos, ?_, ?_, ?_⟩
    · have hnonneg : (0 : ℝ) ≤
        ((∑ i : Fin r.dimension, ∑ j : Fin r.dimension, coordinates r coefficients i *
          jTotalValue r.k (r.index i) (r.index j) * coordinates r coefficients j : ℚ) : ℝ) := by
        rw [hjIntegral]
        exact Finset.sum_nonneg fun m _ => integral_nonneg fun y => sq_nonneg _
      exact_mod_cast hnonneg
    · rw [MkMonomialReference.rayleighQuotient, hi, ok_bind, if_neg hpos.not_ge, hj]
      rfl
    · rw [MkMonomialReference.certificate, hj, ok_bind, hi, ok_bind, if_neg hpos.not_ge]
      rfl

end

/-! The plane in degree one. -/

def planeReference : MkMonomialReference := ⟨2, 1, [[0, 0], [0, 1], [1, 0]], [1, 1, 2, 6, 24, 120]⟩

theorem planeReference_new : MkMonomialReference.new 2 1 = .ok planeReference := by
  decide +kernel

theorem simplex_basis_orthonormal_plane :
    ∃ basis, ExactSimplexOrthonormalBasis.new planeReference = .ok basis ∧
    basis.vectors.length = 3 ∧
      ∀ (i j : Nat) (left right : ExactOrthonormalVector), basis.vectors[i]? = some left →
        basis.vectors[j]? = some right →
          ∫ x in simplex 2 1, planeReference.evaluateAt left.coefficients x *
            planeReference.evaluateAt right.coefficients x = if i = j then (left.squaredNorm : ℝ)
              else 0 := by
  obtain ⟨basis, hnew, -, -, hlength, -, hproducts, -⟩ :=
    simplex_basis_orthonormal planeReference_new
  exact ⟨basis, hnew, hlength, hproducts⟩

theorem certificate_is_rayleigh_plane :
    ∃ numerator denominator : ℚ, (denominator : ℝ) = ∫ x in simplex 2 1,
    planeReference.evaluateAt [1, 2, 3] x ^ 2 ∧
      0 < denominator ∧ planeReference.rayleighQuotient [1, 2, 3] =
        .ok (numerator / denominator) := by
  obtain ⟨n, numerator, denominator, -, hdenominator, -, hquotient⟩ :=
    certificate_is_rayleigh planeReference_new [1, 2, 3] rfl
  rcases hquotient with hzero | hquotient
  · exact absurd (hzero.1 1 (by simp)) one_ne_zero
  · exact ⟨numerator, denominator, hdenominator, hquotient.2.1, hquotient.2.2.2.1⟩

end Xcelerator.Variational.Maynard
