import Mathlib

/-! # Gram-Schmidt over a field

Orthogonalisation for a symmetric bilinear form, one vector after the other: a
vector loses its projection on every earlier one in turn. No square root is
taken, so the field need not have any. -/

namespace Xcelerator.Foundations.GramSchmidt
open Submodule

section
variable {K V : Type*} [Field K] [AddCommGroup V] [Module K V] (B : LinearMap.BilinForm K V)

def Orthogonal (vectors : List V) : Prop := vectors.Pairwise fun u w => B u w = 0

/-- Subtract the projections on the earlier vectors, one after the other. -/
def reduce (previous : List V) (v : V) : V := previous.foldl (fun w u => w - (B w u / B u u) • u) v

/-- The part of a vector along an orthogonal list. -/
def expansion (vectors : List V) (v : V) : V := (vectors.map fun u => (B v u / B u u) • u).sum

variable {B}

@[simp] theorem reduce_cons (u : V) (rest : List V) (v : V) :
    reduce B (u :: rest) v = reduce B rest (v - (B v u / B u u) • u) := rfl

@[simp] theorem expansion_cons (u : V) (rest : List V) (v : V) :
    expansion B (u :: rest) v = (B v u / B u u) • u + expansion B rest v := by
  simp [expansion]

theorem expansion_mem (vectors : List V) (v : V) :
    expansion B vectors v ∈ span K {u | u ∈ vectors} := by
  refine list_sum_mem fun w hw => ?_
  obtain ⟨u, hu, rfl⟩ := List.mem_map.mp hw
  exact smul_mem _ _ (subset_span hu)

theorem expansion_apply (vectors : List V) (v w : V) :
    B (expansion B vectors v) w = (vectors.map fun u => B v u / B u u * B u w).sum := by
  induction vectors with
  | nil => simp [expansion]
  | cons u rest ih =>
    rw [expansion_cons, map_add, LinearMap.add_apply, ih, map_smul, LinearMap.smul_apply,
      smul_eq_mul, List.map_cons, List.sum_cons]

/-- A vector orthogonal to all of a list has no part along it. -/
theorem expansion_sub {rest : List V} {u : V} (hu : ∀ w ∈ rest, B u w = 0) (c : K) (v : V) :
    expansion B rest (v - c • u) = expansion B rest v := by
  refine congrArg List.sum (List.map_congr_left fun w hw => ?_)
  rw [map_sub, map_smul, LinearMap.sub_apply, LinearMap.smul_apply, hu w hw, smul_zero, sub_zero]

/-- The projections subtracted in turn are those of the vector itself. -/
theorem reduce_eq {previous : List V} (h : Orthogonal B previous) (v : V) :
    reduce B previous v = v - expansion B previous v := by
  induction previous generalizing v with
  | nil => simp [reduce, expansion]
  | cons u rest ih =>
    obtain ⟨hu, hrest⟩ := List.pairwise_cons.mp h
    rw [reduce_cons, ih hrest, expansion_sub hu, expansion_cons, sub_sub]

variable (hB : B.IsSymm)
include hB

/-- The part along an orthogonal list has the products of the vector itself. -/
theorem expansion_orthogonal {vectors : List V} (h : Orthogonal B vectors)
    (hne : ∀ u ∈ vectors, B u u ≠ 0) (v : V) :
    ∀ w ∈ vectors, B (expansion B vectors v) w = B v w := by
  induction vectors with
  | nil => simp
  | cons u rest ih =>
    obtain ⟨hu, hrest⟩ := List.pairwise_cons.mp h
    have hzero : B (expansion B rest v) u = 0 := by
      rw [expansion_apply]
      refine List.sum_eq_zero fun x hx => ?_
      obtain ⟨w, hw, rfl⟩ := List.mem_map.mp hx
      rw [hB.eq w u, hu w hw, mul_zero]
    intro w hw
    rw [expansion_cons, map_add, LinearMap.add_apply, map_smul, LinearMap.smul_apply, smul_eq_mul]
    rcases List.mem_cons.mp hw with rfl | hw
    · rw [hzero, add_zero, div_mul_cancel₀ _ (hne w List.mem_cons_self)]
    · rw [hu w hw, mul_zero, zero_add,
        ih hrest (fun u hu => hne u (List.mem_cons_of_mem _ hu)) w hw]

theorem reduce_orthogonal {previous : List V} (h : Orthogonal B previous)
    (hne : ∀ u ∈ previous, B u u ≠ 0) (v : V) :
    ∀ u ∈ previous, B (reduce B previous v) u = 0 := by
  intro u hu
  rw [reduce_eq h, map_sub, LinearMap.sub_apply, expansion_orthogonal hB h hne v u hu, sub_self]

end

/-! ## What one vector after the other builds -/

section
variable {K V : Type*} [Field K] [AddCommGroup V] [Module K V] {B : LinearMap.BilinForm K V}

/-- The outputs are orthogonal, and each is its input up to the span of the earlier ones. -/
structure Orthogonalized (B : LinearMap.BilinForm K V) (inputs outputs : List V) : Prop where
  length : outputs.length = inputs.length
  orthogonal : Orthogonal B outputs
  nonzero : ∀ u ∈ outputs, B u u ≠ 0
  spans : span K {u | u ∈ outputs} = span K {v | v ∈ inputs}

theorem Orthogonalized.nil : Orthogonalized B [] [] :=
  ⟨rfl, List.Pairwise.nil, by simp, rfl⟩

theorem Orthogonalized.sub_mem {inputs outputs : List V}
    (h : Orthogonalized B inputs outputs) (v : V) :
    v - reduce B outputs v ∈ span K {w | w ∈ inputs} := by
  rw [reduce_eq h.orthogonal, sub_sub_cancel, ← h.spans]
  exact expansion_mem outputs v

theorem span_concat (vectors : List V) (v : V) :
    span K {w | w ∈ vectors ++ [v]} = span K {w | w ∈ vectors} ⊔ span K {v} := by
  rw [← span_union]
  congr 1
  ext w
  simp [or_comm]

theorem Orthogonalized.concat (hB : B.IsSymm) {inputs outputs : List V}
    (h : Orthogonalized B inputs outputs) {v : V}
    (hv : B (reduce B outputs v) (reduce B outputs v) ≠ 0) :
    Orthogonalized B (inputs ++ [v]) (outputs ++ [reduce B outputs v]) where
  length := by simp [h.length]
  orthogonal := by
    refine List.pairwise_append.mpr ⟨h.orthogonal, List.pairwise_singleton _ _, fun u hu w hw => ?_⟩
    rw [List.mem_singleton.mp hw, hB.eq u, reduce_orthogonal hB h.orthogonal h.nonzero v u hu]
  nonzero := by
    intro u hu
    rcases List.mem_append.mp hu with hu | hu
    · exact h.nonzero u hu
    · rw [List.mem_singleton.mp hu]
      exact hv
  spans := by
    rw [span_concat, span_concat, h.spans]
    have hsub := h.sub_mem v
    refine le_antisymm (sup_le le_sup_left ?_) (sup_le le_sup_left ?_)
    · have hout := Submodule.sub_mem _ (mem_sup_right (mem_span_singleton_self v))
        (mem_sup_left hsub)
      rwa [sub_sub_cancel, ← span_singleton_le_iff_mem] at hout
    · have hin := Submodule.add_mem _ (mem_sup_left hsub)
        (mem_sup_right (mem_span_singleton_self (reduce B outputs v)))
      rwa [sub_add_cancel, ← span_singleton_le_iff_mem] at hin

end

/-! ## Definite forms -/

section
variable {K V : Type*} [Field K] [AddCommGroup V] [Module K V] {B : LinearMap.BilinForm K V}

/-- Over a definite form a vector of the span is the sum of its projections. -/
theorem expansion_eq_self (hB : B.IsSymm) (hdefinite : ∀ v, B v v = 0 → v = 0) {vectors : List V}
    (h : Orthogonal B vectors) (hne : ∀ u ∈ vectors, B u u ≠ 0) {v : V}
    (hv : v ∈ span K {u | u ∈ vectors}) :
    expansion B vectors v = v := by
  have hmem : v - expansion B vectors v ∈ span K {u | u ∈ vectors} :=
    sub_mem hv (expansion_mem vectors v)
  have horthogonal : ∀ w ∈ span K {u | u ∈ vectors}, B (v - expansion B vectors v) w = 0 := by
    intro w hw
    induction hw using span_induction with
    | mem w hw => rw [map_sub, LinearMap.sub_apply, expansion_orthogonal hB h hne v w hw, sub_self]
    | zero => rw [map_zero]
    | add x y _ _ hx hy => rw [map_add, hx, hy, add_zero]
    | smul c x _ hx => rw [map_smul, hx, smul_zero]
  exact (sub_eq_zero.mp (hdefinite _ (horthogonal _ hmem))).symm

/-- As many orthogonal vectors as the dimension span the space. -/
theorem span_eq_top [Module.Finite K V] (hB : B.IsSymm) {vectors : List V}
    (h : Orthogonal B vectors)
    (hne : ∀ u ∈ vectors, B u u ≠ 0) (hlength : vectors.length = Module.finrank K V) :
    span K {u | u ∈ vectors} = ⊤ := by
  have hproduct : ∀ i j : Fin vectors.length, i ≠ j → B (vectors.get i) (vectors.get j) = 0 := by
    intro i j hij
    rcases lt_or_gt_of_ne hij with hlt | hgt
    · exact List.pairwise_iff_get.mp h i j hlt
    · rw [hB.eq]
      exact List.pairwise_iff_get.mp h j i hgt
  have hindependent : LinearIndependent K vectors.get := by
    refine Fintype.linearIndependent_iff.mpr fun g hzero j => ?_
    have happly : B (∑ i, g i • vectors.get i) (vectors.get j) = 0 :=
      by rw [hzero, map_zero, LinearMap.zero_apply]
    rw [map_sum, LinearMap.sum_apply, Finset.sum_eq_single j] at happly
    · rw [map_smul, LinearMap.smul_apply, smul_eq_mul] at happly
      exact (mul_eq_zero.mp happly).resolve_right (hne _ (List.get_mem vectors j))
    · intro i _ hij
      rw [map_smul, LinearMap.smul_apply, hproduct i j hij, smul_zero]
    · simp
  have hspan := hindependent.span_eq_top_of_card_eq_finrank' (by rw [Fintype.card_fin, hlength])
  rwa [Set.range_list_get] at hspan

/-- The square of a vector of the span, from its products with an orthogonal list. -/
theorem square_eq (hB : B.IsSymm) (hdefinite : ∀ v, B v v = 0 → v = 0) {vectors : List V}
    (h : Orthogonal B vectors)
    (hne : ∀ u ∈ vectors, B u u ≠ 0) {v : V} (hv : v ∈ span K {u | u ∈ vectors}) :
    B v v = (vectors.map fun u => B v u ^ 2 / B u u).sum := by
  have hsum := expansion_apply (B := B) vectors v v
  rw [expansion_eq_self hB hdefinite h hne hv] at hsum
  rw [hsum]
  refine congrArg List.sum (List.map_congr_left fun u _ => ?_)
  rw [hB.eq u v, div_mul_eq_mul_div, sq]

end

end Xcelerator.Foundations.GramSchmidt
