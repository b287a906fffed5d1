import Mathlib

/-! # Inertia of real symmetric matrices

A matrix has inertia `(p, q)` when its quadratic form is a sum of squares of
independent linear functionals with `p` positive and `q` negative weights and
no zero weight. The relation is invariant under reindexing and additive over a
Schur complement, which is what symmetric elimination with pivot blocks needs;
uniqueness is Sylvester's law, and gives the eigenvalue counts. -/

namespace Xcelerator.Foundations.Inertia
open Matrix

variable {ι κ : Type} [Fintype ι] [Fintype κ]

/-- The number of indices with a positive weight. -/
noncomputable def positiveCount (w : ι → ℝ) : ℕ := (Finset.univ.filter fun i => 0 < w i).card

/-- The number of indices with a negative weight. -/
noncomputable def negativeCount (w : ι → ℝ) : ℕ := (Finset.univ.filter fun i => w i < 0).card

/-- The form is the weighted sum of the squares of independent functionals. -/
structure Diagonalizes (A : Matrix ι ι ℝ) (w : ι → ℝ) (T : (ι → ℝ) →ₗ[ℝ] ι → ℝ) : Prop where
  injective : Function.Injective T
  form : ∀ x, x ⬝ᵥ A *ᵥ x = ∑ i, w i * (T x i * T x i)

/-- Nonsingular inertia: `p` positive and `q` negative squares, none missing. -/
def HasInertia (A : Matrix ι ι ℝ) (p q : ℕ) : Prop :=
  ∃ (w : ι → ℝ) (T : (ι → ℝ) →ₗ[ℝ] ι → ℝ), Diagonalizes A w T ∧ (∀ i, w i ≠ 0) ∧
    positiveCount w = p ∧ negativeCount w = q

/-- The same counts when the form may be degenerate: some weights may be zero. -/
def HasSignature (A : Matrix ι ι ℝ) (p q : ℕ) : Prop :=
  ∃ (w : ι → ℝ) (T : (ι → ℝ) →ₗ[ℝ] ι → ℝ), Diagonalizes A w T ∧
    positiveCount w = p ∧ negativeCount w = q

theorem positiveCount_equiv (e : κ ≃ ι) (w : ι → ℝ) : positiveCount (w ∘ e) = positiveCount w := by
  unfold positiveCount
  exact Finset.card_bij (fun k _ => e k) (by simp) (fun a _ b _ h => e.injective h)
    (fun i hi => ⟨e.symm i, by simpa using hi, by simp⟩)

theorem positiveCount_sum (w : ι → ℝ) (v : κ → ℝ) :
    positiveCount (Sum.elim w v) = positiveCount w + positiveCount v := by
  unfold positiveCount
  simp only [Finset.card_filter, Fintype.sum_sum_type, Sum.elim_inl, Sum.elim_inr]
  rfl

theorem negativeCount_eq (w : ι → ℝ) : negativeCount w = positiveCount (-w) := by
  unfold negativeCount positiveCount
  simp

theorem negativeCount_equiv (e : κ ≃ ι) (w : ι → ℝ) : negativeCount (w ∘ e) = negativeCount w := by
  rw [negativeCount_eq, negativeCount_eq, ← positiveCount_equiv e]
  rfl

theorem negativeCount_sum (w : ι → ℝ) (v : κ → ℝ) :
    negativeCount (Sum.elim w v) = negativeCount w + negativeCount v := by
  rw [negativeCount_eq, negativeCount_eq, negativeCount_eq, ← positiveCount_sum]
  congr 1
  funext i
  cases i <;> rfl

theorem count_add {w : ι → ℝ} (h : ∀ i, w i ≠ 0) :
    positiveCount w + negativeCount w = Fintype.card ι := by
  classical
  unfold positiveCount negativeCount
  rw [← Finset.card_union_of_disjoint, ← Finset.card_univ]
  · congr 1
    ext i
    simpa using (h i).lt_or_gt.symm
  · refine Finset.disjoint_filter.mpr fun i _ h1 h2 => ?_
    exact absurd h1 (not_lt.mpr h2.le)

theorem HasInertia.card {A : Matrix ι ι ℝ} {p q : ℕ} (h : HasInertia A p q) :
    p + q = Fintype.card ι := by
  obtain ⟨w, _, _, hw, rfl, rfl⟩ := h
  exact count_add hw

/-- A zero weight is missing from both counts. -/
theorem count_lt {w : ι → ℝ} {i : ι} (h : w i = 0) :
    positiveCount w + negativeCount w < Fintype.card ι := by
  classical
  unfold positiveCount negativeCount
  rw [← Finset.card_union_of_disjoint, ← Finset.card_univ]
  · refine Finset.card_lt_card (Finset.ssubset_univ_iff.mpr fun hall => ?_)
    have hmem := hall ▸ Finset.mem_univ i
    simp [h] at hmem
  · exact Finset.disjoint_filter.mpr fun i _ h1 h2 => absurd h1 (not_lt.mpr h2.le)

/-- Inertia is a signature that accounts for every dimension. -/
theorem hasInertia_iff {A : Matrix ι ι ℝ} {p q : ℕ} :
    HasInertia A p q ↔ HasSignature A p q ∧ p + q = Fintype.card ι := by
  constructor
  · intro h
    have hcard := h.card
    obtain ⟨w, T, hd, _, hp, hq⟩ := h
    exact ⟨⟨w, T, hd, hp, hq⟩, hcard⟩
  · rintro ⟨⟨w, T, hd, rfl, rfl⟩, hcard⟩
    exact ⟨w, T, hd, fun i hi => (count_lt hi).ne hcard, rfl, rfl⟩

theorem HasInertia.hasSignature {A : Matrix ι ι ℝ} {p q : ℕ} (h : HasInertia A p q) :
    HasSignature A p q := (hasInertia_iff.mp h).1

/-- Renaming the variables does not change the signature. -/
theorem HasSignature.submatrix {A : Matrix ι ι ℝ} {p q : ℕ} (h : HasSignature A p q) (e : κ ≃ ι) :
    HasSignature (A.submatrix e e) p q := by
  obtain ⟨w, T, hd, rfl, rfl⟩ := h
  let E : (ι → ℝ) ≃ₗ[ℝ] κ → ℝ := LinearEquiv.funCongrLeft ℝ ℝ e
  refine ⟨w ∘ e, E.toLinearMap ∘ₗ T ∘ₗ E.symm.toLinearMap, ⟨?_, fun x => ?_⟩,
    positiveCount_equiv e w, negativeCount_equiv e w⟩
  · exact E.injective.comp (hd.injective.comp E.symm.injective)
  · have hform := hd.form (E.symm x)
    have hleft : x ⬝ᵥ A.submatrix e e *ᵥ x = E.symm x ⬝ᵥ A *ᵥ E.symm x := by
      rw [Matrix.submatrix_mulVec_equiv]
      simp only [dotProduct, Function.comp_apply]
      exact Fintype.sum_equiv e _ _ fun k =>
        by simp [E, LinearEquiv.funCongrLeft, LinearMap.funLeft, Function.comp_def]
    rw [hleft, hform]
    exact (Fintype.sum_equiv e _ _ fun k =>
      by simp [E, LinearEquiv.funCongrLeft, LinearMap.funLeft]).symm

/-- **Additivity over a Schur complement.** A nonsingular leading block and its
complement carry the whole signature. -/
theorem HasSignature.schur [DecidableEq ι] {P Q : Matrix ι ι ℝ} {B : Matrix ι κ ℝ}
    {D : Matrix κ κ ℝ}
    {p q p' q' : ℕ} (hsymm : P.IsHermitian) (hinv : P * Q = 1) (hP : HasSignature P p q)
    (hS : HasSignature (D - Bᴴ * Q * B) p' q') :
    HasSignature (fromBlocks P B Bᴴ D) (p + p') (q + q') := by
  have hdet : IsUnit P.det := Matrix.isUnit_det_of_right_inverse hinv
  rw [← Matrix.inv_eq_right_inv hinv] at hS
  obtain ⟨w, T, hd, rfl, rfl⟩ := hP
  obtain ⟨w', T', hd', rfl, rfl⟩ := hS
  -- the change of variables moves the coupling into the leading block
  let first : (ι ⊕ κ → ℝ) →ₗ[ℝ] ι → ℝ :=
    LinearMap.funLeft ℝ ℝ Sum.inl + (P⁻¹ * B).mulVecLin ∘ₗ LinearMap.funLeft ℝ ℝ Sum.inr
  let second : (ι ⊕ κ → ℝ) →ₗ[ℝ] κ → ℝ := LinearMap.funLeft ℝ ℝ Sum.inr
  let U : (ι ⊕ κ → ℝ) →ₗ[ℝ] ι ⊕ κ → ℝ :=
    (LinearEquiv.sumArrowLequivProdArrow ι κ ℝ ℝ).symm.toLinearMap ∘ₗ
      (T ∘ₗ first).prod (T' ∘ₗ second)
  have hinl : ∀ z i, U z (Sum.inl i) = T (first z) i := fun _ _ => rfl
  have hinr : ∀ z k, U z (Sum.inr k) = T' (second z) k := fun _ _ => rfl
  refine ⟨Sum.elim w w', U, ⟨?_, fun z => ?_⟩, positiveCount_sum w w', negativeCount_sum w w'⟩
  · rw [injective_iff_map_eq_zero]
    intro z hz
    have hz2 : second z = 0 := by
      refine (injective_iff_map_eq_zero T').mp hd'.injective _ (funext fun k => ?_)
      rw [← hinr, hz]
      rfl
    have hz1 : first z = 0 := by
      refine (injective_iff_map_eq_zero T).mp hd.injective _ (funext fun i => ?_)
      rw [← hinl, hz]
      rfl
    have hright : ∀ k, z (Sum.inr k) = 0 := fun k => congrFun hz2 k
    have hcouple : first z = LinearMap.funLeft ℝ ℝ Sum.inl z + (P⁻¹ * B) *ᵥ second z := rfl
    rw [hz2, Matrix.mulVec_zero, add_zero] at hcouple
    funext i
    cases i with
    | inl i => exact congrFun (hcouple.symm.trans hz1) i
    | inr k => exact hright k
  · let _ := P.invertibleOfIsUnitDet hdet
    have hz : z = Sum.elim (fun i => z (Sum.inl i)) (fun k => z (Sum.inr k)) := by
      funext i; cases i <;> rfl
    have hfirst : first z = (fun i => z (Sum.inl i)) + (P⁻¹ * B) *ᵥ fun k => z (Sum.inr k) := rfl
    have hsecond : second z = fun k => z (Sum.inr k) := rfl
    have hschur := schur_complement_eq₁₁ B D (fun i => z (Sum.inl i)) (fun k => z (Sum.inr k)) hsymm
    simp only [star_trivial, ← Matrix.dotProduct_mulVec] at hschur
    rw [← hz, ← hfirst, ← hsecond, hd.form, hd'.form] at hschur
    rw [hschur, Fintype.sum_sum_type]
    simp only [Sum.elim_inl, Sum.elim_inr, hinl, hinr]

/-- A nonzero number is a one by one block of its own sign. -/
theorem hasInertia_one {d : ℝ} (hd : d ≠ 0) :
    HasInertia (Matrix.of fun _ _ : Fin 1 => d) (if 0 < d then 1 else 0)
    (if 0 < d then 0 else 1) := by
  refine ⟨fun _ => d, LinearMap.id, ⟨fun _ _ h => h, fun x => ?_⟩, fun _ => hd, ?_, ?_⟩
  · simp only [dotProduct, mulVec, Fin.sum_univ_one, of_apply, LinearMap.id_coe, id_eq]
    ring
  · unfold positiveCount
    split <;> simp_all
  · unfold negativeCount
    split
    · rename_i h
      simp [h.le]
    · rename_i h
      have : d < 0 := lt_of_le_of_ne (not_lt.mp h) hd
      simp [this]

/-- **Sylvester's law.** The counts do not depend on the diagonalization. -/
theorem positiveCount_unique {A : Matrix ι ι ℝ} {w v : ι → ℝ} {T U : (ι → ℝ) →ₗ[ℝ] ι → ℝ}
    (hw : Diagonalizes A w T) (hv : Diagonalizes A v U) : positiveCount w = positiveCount v := by
  let E : (ι → ℝ) ≃ₗ[ℝ] ι → ℝ := LinearEquiv.ofInjectiveEndo T hw.injective
  let F : (ι → ℝ) ≃ₗ[ℝ] ι → ℝ := LinearEquiv.ofInjectiveEndo U hv.injective
  have heq : QuadraticMap.Equivalent (QuadraticMap.weightedSumSquares ℝ w)
      (QuadraticMap.weightedSumSquares ℝ v) := by
    refine ⟨⟨E.symm.trans F, fun x => ?_⟩⟩
    have hx : T (E.symm x) = x := E.apply_symm_apply x
    have h := (hv.form (E.symm x)).symm.trans (hw.form (E.symm x))
    have hF : ∀ y, F y = U y := fun _ => rfl
    rw [hx] at h
    simpa [hF] using h
  have hncard : ∀ u : ι → ℝ, positiveCount u = {i | 0 < u i}.ncard := fun u => by
    unfold positiveCount
    rw [Set.ncard_eq_toFinset_card']
    simp
  rw [hncard, hncard, ← QuadraticForm.sigPos_weightedSumSquares,
    ← QuadraticForm.sigPos_weightedSumSquares, heq.sigPos_eq]

theorem Diagonalizes.neg {A : Matrix ι ι ℝ} {w : ι → ℝ} {T : (ι → ℝ) →ₗ[ℝ] ι → ℝ}
    (h : Diagonalizes A w T) : Diagonalizes (-A) (-w) T := by
  refine ⟨h.injective, fun x => ?_⟩
  rw [Matrix.neg_mulVec, dotProduct_neg, h.form, ← Finset.sum_neg_distrib]
  exact Finset.sum_congr rfl fun i _ => by simp

theorem negativeCount_unique {A : Matrix ι ι ℝ} {w v : ι → ℝ} {T U : (ι → ℝ) →ₗ[ℝ] ι → ℝ}
    (hw : Diagonalizes A w T) (hv : Diagonalizes A v U) : negativeCount w = negativeCount v := by
  rw [negativeCount_eq, negativeCount_eq]
  exact positiveCount_unique hw.neg hv.neg

/-- The eigenvalues diagonalize the form in coordinates that keep lengths. -/
theorem eigenvalues_isometry [DecidableEq ι] {A : Matrix ι ι ℝ} (hA : A.IsHermitian) :
    ∃ T, Diagonalizes A hA.eigenvalues T ∧ ∀ x, x ⬝ᵥ x = ∑ i, T x i * T x i := by
  let V : Matrix ι ι ℝ := hA.eigenvectorUnitary
  have hV' : V * Vᴴ = 1 := Unitary.coe_mul_star_self hA.eigenvectorUnitary
  have hmove : ∀ x y, x ⬝ᵥ V *ᵥ y = Vᴴ *ᵥ x ⬝ᵥ y := by
    intro x y
    rw [Matrix.dotProduct_mulVec, ← Matrix.mulVec_transpose]
    rfl
  refine ⟨Vᴴ.mulVecLin, ⟨fun x y hxy => ?_, fun x => ?_⟩, fun x => ?_⟩
  · have hback : V *ᵥ (Vᴴ *ᵥ x) = V *ᵥ (Vᴴ *ᵥ y) := congrArg (V *ᵥ ·) hxy
    rwa [Matrix.mulVec_mulVec, Matrix.mulVec_mulVec, hV', Matrix.one_mulVec,
      Matrix.one_mulVec] at hback
  · have hspec : A = V * diagonal hA.eigenvalues * Vᴴ := by
      have := hA.spectral_theorem
      simpa [Unitary.conjStarAlgAut_apply, V, Matrix.star_eq_conjTranspose] using this
    have hform : x ⬝ᵥ A *ᵥ x = (Vᴴ *ᵥ x) ⬝ᵥ diagonal hA.eigenvalues *ᵥ (Vᴴ *ᵥ x) := by
      conv_lhs => rw [hspec]
      rw [← Matrix.mulVec_mulVec, ← Matrix.mulVec_mulVec, hmove]
    rw [hform]
    simp only [dotProduct, Matrix.mulVec_diagonal, Matrix.mulVecLin_apply]
    exact Finset.sum_congr rfl fun i _ => by ring
  · have hlength : x ⬝ᵥ x = Vᴴ *ᵥ x ⬝ᵥ Vᴴ *ᵥ x := by
      rw [← hmove, Matrix.mulVec_mulVec, hV', Matrix.one_mulVec]
    rw [hlength]
    rfl

/-- The eigenvalues diagonalize the form. -/
theorem eigenvalues_diagonalize [DecidableEq ι] {A : Matrix ι ι ℝ} (hA : A.IsHermitian) :
    ∃ T, Diagonalizes A hA.eigenvalues T := by
  obtain ⟨T, hT, _⟩ := eigenvalues_isometry hA
  exact ⟨T, hT⟩

/-- A shift of the matrix shifts its eigenvalues. -/
theorem eigenvalues_shifted [DecidableEq ι] {A : Matrix ι ι ℝ} (hA : A.IsHermitian) (t : ℝ) :
    ∃ T, Diagonalizes (A - t • 1) (fun i => hA.eigenvalues i - t) T := by
  obtain ⟨T, hT, hlength⟩ := eigenvalues_isometry hA
  refine ⟨T, hT.injective, fun x => ?_⟩
  rw [Matrix.sub_mulVec, dotProduct_sub, hT.form, Matrix.smul_mulVec, Matrix.one_mulVec,
    dotProduct_smul, hlength, smul_eq_mul, Finset.mul_sum, ← Finset.sum_sub_distrib]
  exact Finset.sum_congr rfl fun i _ => by ring

theorem HasSignature.eigenvalues [DecidableEq ι] {A : Matrix ι ι ℝ} {p q : ℕ}
    (h : HasSignature A p q) (hA : A.IsHermitian) :
    positiveCount hA.eigenvalues = p ∧ negativeCount hA.eigenvalues = q := by
  obtain ⟨w, T, hd, rfl, rfl⟩ := h
  obtain ⟨U, hU⟩ := eigenvalues_diagonalize hA
  exact ⟨positiveCount_unique hU hd, negativeCount_unique hU hd⟩

/-- Every symmetric matrix has some signature. -/
theorem exists_hasSignature [DecidableEq ι] {A : Matrix ι ι ℝ} (hA : A.IsHermitian) :
    ∃ p q, HasSignature A p q := by
  obtain ⟨T, hT⟩ := eigenvalues_diagonalize hA
  exact ⟨_, _, hA.eigenvalues, T, hT, rfl, rfl⟩

/-- **Eigenvalue counts of a certified inertia.** -/
theorem HasInertia.eigenvalues [DecidableEq ι] {A : Matrix ι ι ℝ} {p q : ℕ} (h : HasInertia A p q)
    (hA : A.IsHermitian) :
    A.det ≠ 0 ∧ positiveCount hA.eigenvalues = p ∧ negativeCount hA.eigenvalues = q := by
  obtain ⟨hpos, hneg⟩ := h.hasSignature.eigenvalues hA
  refine ⟨?_, hpos, hneg⟩
  rw [hA.det_eq_prod_eigenvalues]
  refine Finset.prod_ne_zero_iff.mpr fun i _ hzero => ?_
  have hmiss := count_lt (i := i) (show hA.eigenvalues i = 0 by simpa using hzero)
  have hcard := h.card
  omega

theorem hasInertia_eigenvalues [DecidableEq ι] {A : Matrix ι ι ℝ} (hA : A.IsHermitian)
    (hdet : A.det ≠ 0) :
    HasInertia A (positiveCount hA.eigenvalues) (negativeCount hA.eigenvalues) := by
  obtain ⟨T, hT⟩ := eigenvalues_diagonalize hA
  refine ⟨hA.eigenvalues, T, hT, fun i hi => hdet ?_, rfl, rfl⟩
  rw [hA.det_eq_prod_eigenvalues]
  exact Finset.prod_eq_zero (Finset.mem_univ i) (by simpa using hi)

/-- The two eigenvalues of a symmetric two by two block. -/
noncomputable def lowRoot (x y z : ℝ) : ℝ := (x + z - √((x - z) ^ 2 + y ^ 2 * 4)) / 2
noncomputable def highRoot (x y z : ℝ) : ℝ := (x + z + √((x - z) ^ 2 + y ^ 2 * 4)) / 2

/-- Two numbers with the sum and the product of the block's roots are its roots. -/
theorem roots_unique {x y z a b : ℝ} (hsum : a + b = x + z) (hprod : a * b = x * z - y ^ 2) :
    (a = lowRoot x y z ∧ b = highRoot x y z) ∨ (a = highRoot x y z ∧ b = lowRoot x y z) := by
  have hroot : √((x - z) ^ 2 + y ^ 2 * 4) ^ 2 = (x - z) ^ 2 + y ^ 2 * 4 :=
    Real.sq_sqrt (by positivity)
  unfold lowRoot highRoot
  generalize √((x - z) ^ 2 + y ^ 2 * 4) = r at hroot
  have hfactor : (a - (x + z - r) / 2) * (a - (x + z + r) / 2) = 0 := by
    have hb : b = x + z - a := by linarith
    rw [hb] at hprod
    linear_combination (1 / 4) * (-hroot) - hprod
  rcases mul_eq_zero.mp hfactor with h | h
  · exact .inl ⟨by linarith, by linarith⟩
  · exact .inr ⟨by linarith, by linarith⟩

/-- The signs of the roots of a nonsingular two by two block are its inertia. -/
theorem hasInertia_two {x y z : ℝ} (hdet : x * z - y ^ 2 ≠ 0) :
    HasInertia !![x, y; y, z]
      ((if 0 < lowRoot x y z then 1 else 0) + if 0 < highRoot x y z then 1 else 0)
      ((if 0 < lowRoot x y z then 0 else 1) + if 0 < highRoot x y z then 0 else 1) := by
  have hA : (!![x, y; y, z] : Matrix (Fin 2) (Fin 2) ℝ).IsHermitian := by
    ext i j
    fin_cases i <;> fin_cases j <;> rfl
  have hdet' : (!![x, y; y, z] : Matrix (Fin 2) (Fin 2) ℝ).det = x * z - y ^ 2 := by
    rw [Matrix.det_fin_two_of]; ring
  have hinertia := hasInertia_eigenvalues hA (by rw [hdet']; exact hdet)
  have hprod := hA.det_eq_prod_eigenvalues
  rw [hdet', Fin.prod_univ_two] at hprod
  have htrace := hA.trace_eq_sum_eigenvalues
  rw [Matrix.trace_fin_two_of, Fin.sum_univ_two] at htrace
  simp only [RCLike.ofReal_real_eq_id, id_eq] at hprod htrace
  have h0 : hA.eigenvalues 0 ≠ 0 := fun h => hdet (by rw [hprod, h, zero_mul])
  have h1 : hA.eigenvalues 1 ≠ 0 := fun h => hdet (by rw [hprod, h, mul_zero])
  have hpos : positiveCount hA.eigenvalues =
      (if 0 < hA.eigenvalues 0 then 1 else 0) + if 0 < hA.eigenvalues 1 then 1 else 0 := by
    unfold positiveCount
    rw [Finset.card_filter, Fin.sum_univ_two]
  have hneg : negativeCount hA.eigenvalues =
      (if 0 < hA.eigenvalues 0 then 0 else 1) + if 0 < hA.eigenvalues 1 then 0 else 1 := by
    unfold negativeCount
    rw [Finset.card_filter, Fin.sum_univ_two]
    congr 1 <;> split <;> split <;> first | rfl | (exfalso; grind)
  rw [hpos, hneg] at hinertia
  rcases roots_unique htrace.symm hprod.symm with ⟨ha, hb⟩ | ⟨ha, hb⟩
  · rwa [ha, hb] at hinertia
  · rw [ha, hb] at hinertia
    rwa [add_comm (if 0 < lowRoot x y z then 1 else 0),
      add_comm (if 0 < lowRoot x y z then 0 else 1)]

/-! ## Eigenvalues in ascending order -/

noncomputable def ascending {n : ℕ} {A : Matrix (Fin n) (Fin n) ℝ} (hA : A.IsHermitian)
    (i : Fin n) : ℝ :=
  hA.eigenvalues₀ (Fin.cast (Fintype.card_fin n).symm i.rev)

theorem ascending_monotone {n : ℕ} {A : Matrix (Fin n) (Fin n) ℝ} (hA : A.IsHermitian) :
    Monotone (ascending hA) := by
  intro i j hij
  refine hA.eigenvalues₀_antitone ?_
  rw [Fin.le_def, Fin.val_cast, Fin.val_cast]
  exact Fin.rev_le_rev.mpr hij

theorem card_ascending {n : ℕ} {A : Matrix (Fin n) (Fin n) ℝ} (hA : A.IsHermitian) (t : ℝ) :
    (Finset.univ.filter fun i => ascending hA i < t).card =
      (Finset.univ.filter fun i => hA.eigenvalues i < t).card := by
  let e : Fin n ≃ Fin n := (Fin.revPerm.trans (finCongr (Fintype.card_fin n).symm)).trans
    (Fintype.equivOfCardEq (Fintype.card_fin _))
  have he : ∀ i, hA.eigenvalues (e i) = ascending hA i := by
    intro i
    simp only [IsHermitian.eigenvalues, e, Equiv.trans_apply, Equiv.symm_apply_apply]
    rfl
  refine Finset.card_bij (fun i _ => e i) ?_ (fun a _ b _ h => e.injective h) fun i hi => ?_
  · intro i hi
    simpa [he] using hi
  · refine ⟨e.symm i, ?_, by simp⟩
    simpa [← he] using hi

/-- A monotone sequence falls below a threshold exactly on an initial part. -/
theorem lt_threshold_iff {n : ℕ} {f : Fin n → ℝ} (hf : Monotone f) (t : ℝ) (i : Fin n) :
    f i < t ↔ (i : ℕ) < (Finset.univ.filter fun j => f j < t).card := by
  constructor
  · intro hi
    have hsub : Finset.Iic i ⊆ Finset.univ.filter fun j => f j < t := by
      intro j hj
      simpa using (hf (Finset.mem_Iic.mp hj)).trans_lt hi
    have hcard := Finset.card_le_card hsub
    rw [Fin.card_Iic] at hcard
    omega
  · intro hi
    by_contra hge
    have hsub : (Finset.univ.filter fun j => f j < t) ⊆ Finset.Iio i := by
      intro j hj
      have hj : f j < t := by simpa using hj
      rw [Finset.mem_Iio]
      by_contra hji
      exact hge ((hf (not_lt.mp hji)).trans_lt hj)
    have hcard := Finset.card_le_card hsub
    rw [Fin.card_Iio] at hcard
    omega

/-- The inertia of the shifted matrix locates the threshold among the eigenvalues. -/
theorem HasInertia.threshold {n : ℕ} {A : Matrix (Fin n) (Fin n) ℝ} {t : ℝ} {p q : ℕ}
    (h : HasInertia (A - t • 1) p q) (hA : A.IsHermitian) (i : Fin n) :
    (ascending hA i < t ↔ (i : ℕ) < q) ∧ ascending hA i ≠ t := by
  have hcard := h.card
  obtain ⟨w, T, hd, _, rfl, rfl⟩ := h
  obtain ⟨U, hU⟩ := eigenvalues_shifted hA t
  have hpos := positiveCount_unique hU hd
  have hneg := negativeCount_unique hU hd
  have hbelow : negativeCount (fun i => hA.eigenvalues i - t) =
      (Finset.univ.filter fun i => ascending hA i < t).card := by
    rw [card_ascending]
    unfold negativeCount
    simp only [sub_neg]
  refine ⟨?_, fun heq => ?_⟩
  · rw [← hneg, hbelow]
    exact lt_threshold_iff (ascending_monotone hA) t i
  · have hmiss := count_lt (w := fun j => hA.eigenvalues j - t)
      (i := (Fintype.equivOfCardEq (Fintype.card_fin _)) (Fin.cast (Fintype.card_fin n).symm i.rev))
      (by
        simp only [IsHermitian.eigenvalues, Equiv.symm_apply_apply]
        exact sub_eq_zero.mpr heq)
    omega

/-! ## Elimination on a symmetric array -/

/-- The block of size `d` of an array, from index `k` on. -/
def trailing (S : ℕ → ℕ → ℝ) (k d : ℕ) : Matrix (Fin d) (Fin d) ℝ :=
  Matrix.of fun i j => S (k + i) (k + j)

/-- The array with two indices exchanged. -/
def exchanged (S : ℕ → ℕ → ℝ) (first second : ℕ) : ℕ → ℕ → ℝ :=
  fun i j => S (Equiv.swap first second i) (Equiv.swap first second j)

/-- The array less the contribution of the pivot at `k`. -/
noncomputable def schurOne (S : ℕ → ℕ → ℝ) (k : ℕ) : ℕ → ℕ → ℝ :=
  fun i j => S i j - S i k * S j k * (1 / S k k)

noncomputable def pivotDet (S : ℕ → ℕ → ℝ) (k : ℕ) : ℝ :=
  S k k * S (k + 1) (k + 1) - S k (k + 1) ^ 2

/-- The array less the contribution of the pivot block at `k`, `k + 1`. -/
noncomputable def schurTwo (S : ℕ → ℕ → ℝ) (k : ℕ) : ℕ → ℕ → ℝ :=
  fun i j => S i j -
    (S i k * (S (k + 1) (k + 1) / pivotDet S k) * S j k +
      S i k * (-S k (k + 1) / pivotDet S k) * S j (k + 1) +
      S i (k + 1) * (-S k (k + 1) / pivotDet S k) * S j k +
      S i (k + 1) * (S k k / pivotDet S k) * S j (k + 1))

theorem hasSignature_exchanged {S : ℕ → ℕ → ℝ} {k d first second p q : ℕ}
    (hf : k ≤ first ∧ first < k + d) (hs : k ≤ second ∧ second < k + d)
    (h : HasSignature (trailing (exchanged S first second) k d) p q) :
    HasSignature (trailing S k d) p q := by
  let e : Equiv.Perm (Fin d) :=
    Equiv.swap ⟨first - k, by omega⟩ ⟨second - k, by omega⟩
  have hval : ∀ i : Fin d, k + (e i : ℕ) = Equiv.swap first second (k + i) := by
    intro i
    simp only [e, Equiv.swap_apply_def, Fin.ext_iff, apply_ite Fin.val]
    split_ifs <;> omega
  have heq : trailing S k d = (trailing (exchanged S first second) k d).submatrix e e := by
    ext i j
    simp only [trailing, exchanged, submatrix_apply, of_apply, hval, Equiv.swap_apply_self]
  rw [heq]
  exact h.submatrix e

theorem hasInertia_exchanged {S : ℕ → ℕ → ℝ} {k d first second p q : ℕ}
    (hf : k ≤ first ∧ first < k + d) (hs : k ≤ second ∧ second < k + d)
    (h : HasInertia (trailing (exchanged S first second) k d) p q) :
    HasInertia (trailing S k d) p q := by
  obtain ⟨hsig, hcard⟩ := hasInertia_iff.mp h
  exact hasInertia_iff.mpr ⟨hasSignature_exchanged hf hs hsig, hcard⟩

theorem hasSignature_schurOne {S : ℕ → ℕ → ℝ} (hS : ∀ i j, S i j = S j i) {k d p q : ℕ}
    (hpivot : S k k ≠ 0) (h : HasSignature (trailing (schurOne S k) (k + 1) d) p q) :
    HasSignature (trailing S k (1 + d)) ((if 0 < S k k then 1 else 0) + p)
      ((if 0 < S k k then 0 else 1) + q) := by
  let P : Matrix (Fin 1) (Fin 1) ℝ := Matrix.of fun _ _ => S k k
  let Q : Matrix (Fin 1) (Fin 1) ℝ := Matrix.of fun _ _ => 1 / S k k
  let B : Matrix (Fin 1) (Fin d) ℝ := Matrix.of fun _ j => S k (k + 1 + j)
  have hinv : P * Q = 1 := by
    ext i j
    fin_cases i; fin_cases j
    simp [P, Q, Matrix.mul_apply, hpivot]
  have hschur : trailing (schurOne S k) (k + 1) d = trailing S (k + 1) d - Bᴴ * Q * B := by
    ext i j
    simp only [trailing, schurOne, of_apply, Matrix.sub_apply, Matrix.mul_apply,
      conjTranspose_apply, B, Q, Fin.sum_univ_one, star_trivial, hS (k + 1 + i) k, hS (k + 1 + j) k]
    ring
  have hblocks : (trailing S k (1 + d)).submatrix finSumFinEquiv finSumFinEquiv =
      fromBlocks P B Bᴴ (trailing S (k + 1) d) := by
    ext i j
    rcases i with i | i <;> rcases j with j | j <;>
      simp [trailing, P, B, fromBlocks, hS _ k, ← add_assoc]
  rw [hschur] at h
  have hwhole := HasSignature.schur (by ext i j; rfl) hinv (hasInertia_one hpivot).hasSignature h
  rw [← hblocks] at hwhole
  simpa using hwhole.submatrix finSumFinEquiv.symm

theorem hasInertia_schurOne {S : ℕ → ℕ → ℝ} (hS : ∀ i j, S i j = S j i) {k d p q : ℕ}
    (hpivot : S k k ≠ 0) (h : HasInertia (trailing (schurOne S k) (k + 1) d) p q) :
    HasInertia (trailing S k (1 + d)) ((if 0 < S k k then 1 else 0) + p)
      ((if 0 < S k k then 0 else 1) + q) := by
  obtain ⟨hsig, hcard⟩ := hasInertia_iff.mp h
  refine hasInertia_iff.mpr ⟨hasSignature_schurOne hS hpivot hsig, ?_⟩
  simp only [Fintype.card_fin] at hcard ⊢
  split <;> omega

theorem hasSignature_schurTwo {S : ℕ → ℕ → ℝ} (hS : ∀ i j, S i j = S j i) {k d p q : ℕ}
    (hdet : pivotDet S k ≠ 0) (h : HasSignature (trailing (schurTwo S k) (k + 2) d) p q) :
    HasSignature (trailing S k (2 + d))
      (((if 0 < lowRoot (S k k) (S k (k + 1)) (S (k + 1) (k + 1)) then 1 else 0) +
        if 0 < highRoot (S k k) (S k (k + 1)) (S (k + 1) (k + 1)) then 1 else 0) + p)
      (((if 0 < lowRoot (S k k) (S k (k + 1)) (S (k + 1) (k + 1)) then 0 else 1) +
        if 0 < highRoot (S k k) (S k (k + 1)) (S (k + 1) (k + 1)) then 0 else 1) + q) := by
  let P : Matrix (Fin 2) (Fin 2) ℝ := !![S k k, S k (k + 1); S k (k + 1), S (k + 1) (k + 1)]
  let Q : Matrix (Fin 2) (Fin 2) ℝ :=
    !![S (k + 1) (k + 1) / pivotDet S k, -S k (k + 1) / pivotDet S k;
      -S k (k + 1) / pivotDet S k, S k k / pivotDet S k]
  let B : Matrix (Fin 2) (Fin d) ℝ := Matrix.of fun i j => S (k + i) (k + 2 + j)
  have hinv : P * Q = 1 := by
    ext i j
    fin_cases i <;> fin_cases j <;>
      simp [P, Q, Matrix.mul_apply, Fin.sum_univ_two] <;> field_simp <;> unfold pivotDet <;> ring
  have hschur : trailing (schurTwo S k) (k + 2) d = trailing S (k + 2) d - Bᴴ * Q * B := by
    ext i j
    simp only [trailing, schurTwo, of_apply, Matrix.sub_apply, Matrix.mul_apply,
      conjTranspose_apply, B, Q,
      Fin.sum_univ_two, star_trivial, hS (k + 2 + i) k, hS (k + 2 + j) k, hS (k + 2 + i) (k + 1),
      hS (k + 2 + j) (k + 1)]
    simp
    ring
  have hblocks : (trailing S k (2 + d)).submatrix finSumFinEquiv finSumFinEquiv =
      fromBlocks P B Bᴴ (trailing S (k + 2) d) := by
    ext i j
    rcases i with i | i <;> rcases j with j | j
    · fin_cases i <;> fin_cases j <;> simp [trailing, P, hS (k + 1) k]
    · simp [trailing, B, add_assoc]
    · simp [trailing, B, add_assoc, hS (k + (2 + i)) _]
    · simp [trailing, add_assoc]
  rw [hschur] at h
  have hP : P.IsHermitian := by
    ext i j
    fin_cases i <;> fin_cases j <;> rfl
  have hwhole := HasSignature.schur hP hinv (hasInertia_two hdet).hasSignature h
  rw [← hblocks] at hwhole
  simpa using hwhole.submatrix finSumFinEquiv.symm

theorem hasInertia_schurTwo {S : ℕ → ℕ → ℝ} (hS : ∀ i j, S i j = S j i) {k d p q : ℕ}
    (hdet : pivotDet S k ≠ 0) (h : HasInertia (trailing (schurTwo S k) (k + 2) d) p q) :
    HasInertia (trailing S k (2 + d))
      (((if 0 < lowRoot (S k k) (S k (k + 1)) (S (k + 1) (k + 1)) then 1 else 0) +
        if 0 < highRoot (S k k) (S k (k + 1)) (S (k + 1) (k + 1)) then 1 else 0) + p)
      (((if 0 < lowRoot (S k k) (S k (k + 1)) (S (k + 1) (k + 1)) then 0 else 1) +
        if 0 < highRoot (S k k) (S k (k + 1)) (S (k + 1) (k + 1)) then 0 else 1) + q) := by
  obtain ⟨hsig, hcard⟩ := hasInertia_iff.mp h
  refine hasInertia_iff.mpr ⟨hasSignature_schurTwo hS hdet hsig, ?_⟩
  simp only [Fintype.card_fin] at hcard ⊢
  split <;> split <;> omega

end Xcelerator.Foundations.Inertia
