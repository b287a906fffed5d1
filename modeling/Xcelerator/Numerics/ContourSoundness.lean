import Mathlib
import Xcelerator.Foundations.Winding
import Xcelerator.Numerics.Contour

/-! # Correctness of contour counting

Every accepted cell has an image box without zero that encloses the image of
the whole stretch, so the polynomial has no zero there and its value turns by
the turns of its linear factors. The bisection tree of an edge adds these up to
the turn between the corners, and around the rectangle each root counts once
when it is inside. -/

namespace Xcelerator.Numerics.ContourSoundness
open Polynomial
open Xcelerator.Foundations Machine Winding Xcelerator.Numerics.Interval Xcelerator.Numerics.Contour

/-! ## Exact values -/

def toComplex (a : ComplexRational) : ℂ := ⟨a.real, a.imaginary⟩

noncomputable def toPoly (p : List ComplexRational) : ℂ[X] :=
  p.foldr (fun c q => C (toComplex c) + X * q) 0

@[simp] theorem toPoly_cons (c : ComplexRational) (p : List ComplexRational) :
    toPoly (c :: p) = C (toComplex c) + X * toPoly p := rfl

theorem toComplex_add (a b : ComplexRational) :
    toComplex (a.add b) = toComplex a + toComplex b := by
  apply Complex.ext <;> simp [toComplex, ComplexRational.add]

theorem toComplex_mul (a b : ComplexRational) :
    toComplex (a.mul b) = toComplex a * toComplex b := by
  apply Complex.ext <;> simp [toComplex, ComplexRational.mul]

theorem toComplex_eq_zero {a : ComplexRational} : toComplex a = 0 ↔ a.isZero = true := by
  simp [Complex.ext_iff, toComplex, ComplexRational.isZero]

theorem toPoly_eq_zero {p : List ComplexRational} (h : toPoly p = 0) :
    p.all ComplexRational.isZero = true := by
  induction p with
  | nil => rfl
  | cons c p ih =>
    have h0 := congrArg (fun q => q.coeff 0) h
    simp only [toPoly_cons, coeff_add, coeff_C_zero, mul_coeff_zero, coeff_X_zero,
      zero_mul, add_zero, coeff_zero] at h0
    have hrest : toPoly p = 0 := by
      rw [toPoly_cons, h0, C_0, zero_add, mul_eq_zero] at h
      exact h.resolve_left X_ne_zero
    rw [List.all_cons, toComplex_eq_zero.mp h0, ih hrest]
    rfl

/-- The Horner loop evaluates the polynomial. -/
theorem evaluateComplexPolynomialExact_eq {p : List ComplexRational} {x v : ComplexRational}
    (h : evaluateComplexPolynomialExact p x = .ok v) :
    toComplex v = (toPoly p).eval (toComplex x) := by
  unfold evaluateComplexPolynomialExact at h
  split at h
  · cases h
  · rename_i highest rest hrev
    have hp : p = rest.reverse ++ [highest] := by
      rw [← List.reverse_cons, ← hrev, List.reverse_reverse]
    cases h
    subst hp
    rw [← List.foldr_reverse]
    generalize rest.reverse = q
    induction q with
    | nil => simp [toPoly]
    | cons d q ih =>
      rw [List.foldr_cons, toComplex_add, toComplex_mul, ih, List.cons_append, toPoly_cons]
      simp only [eval_add, eval_mul, eval_C, eval_X]
      ring

/-! ## Enclosures -/

/-- The complex numbers in the box. -/
def Contains (a : ComplexRationalBall) (z : ℂ) : Prop :=
  a.real.Contains z.re ∧ a.imaginary.Contains z.im

theorem contains_point (a : ComplexRational) : Contains (.point a) (toComplex a) :=
  ⟨RationalInterval.contains_point _, RationalInterval.contains_point _⟩

theorem Contains.add {a b : ComplexRationalBall} {z w : ℂ} (hz : Contains a z) (hw : Contains b w) :
    Contains (a.add b) (z + w) :=
  ⟨by rw [Complex.add_re]; exact hz.1.add hw.1, by rw [Complex.add_im]; exact hz.2.add hw.2⟩

theorem Contains.mul {a b : ComplexRationalBall} {z w : ℂ} (hz : Contains a z) (hw : Contains b w) :
    Contains (a.mul b) (z * w) := by
  constructor
  · rw [Complex.mul_re]
    exact (hz.1.mul hw.1).sub (hz.2.mul hw.2)
  · rw [Complex.mul_im]
    exact (hz.1.mul hw.2).add (hz.2.mul hw.1)

theorem evaluateComplexPolynomialBall_contains {p : List ComplexRational}
    {x v : ComplexRationalBall} {z : ℂ} (h : evaluateComplexPolynomialBall p x = .ok v)
    (hz : Contains x z) : Contains v ((toPoly p).eval z) := by
  unfold evaluateComplexPolynomialBall at h
  split at h
  · cases h
  · rename_i highest rest hrev
    have hp : p = rest.reverse ++ [highest] := by
      rw [← List.reverse_cons, ← hrev, List.reverse_reverse]
    cases h
    subst hp
    rw [← List.foldr_reverse]
    generalize rest.reverse = q
    induction q with
    | nil => simpa [toPoly] using contains_point highest
    | cons d q ih =>
      have hval : (toPoly (d :: q ++ [highest])).eval z =
          (toPoly (q ++ [highest])).eval z * z + toComplex d := by
        rw [List.cons_append, toPoly_cons]
        simp only [eval_add, eval_mul, eval_C, eval_X]
        ring
      rw [List.foldr_cons, hval]
      exact (ih.mul hz).add (contains_point d)

theorem not_contains_zero {a : ComplexRationalBall} (h : a.excludesZero = true) :
    ¬ Contains a 0 := by
  rintro ⟨hre, him⟩
  have hzero : ∀ i : RationalInterval, i.Contains 0 → i.containsZero = true := by
    intro i hi
    have h1 : i.lower ≤ 0 := by exact_mod_cast hi.1
    have h2 : 0 ≤ i.upper := by exact_mod_cast hi.2
    simp [RationalInterval.containsZero, h1, h2]
  unfold ComplexRationalBall.excludesZero at h
  rw [hzero _ hre, hzero _ him] at h
  cases h

theorem interval_convex {i : RationalInterval} {x y s t : ℝ} (hx : i.Contains x) (hy : i.Contains y)
    (hs : 0 ≤ s) (ht : 0 ≤ t) (hst : s + t = 1) : i.Contains (s * x + t * y) :=
  (convex_Icc (i.lower : ℝ) i.upper) hx hy hs ht hst

theorem contains_segment {a : ComplexRationalBall} {z w v : ℂ} (hz : Contains a z)
    (hw : Contains a w) (hv : v ∈ segment ℝ z w) : Contains a v := by
  obtain ⟨s, t, hs, ht, hst, rfl⟩ := hv
  constructor
  · simpa using interval_convex hz.1 hw.1 hs ht hst
  · simpa using interval_convex hz.2 hw.2 hs ht hst

theorem contains_hull (x y : ℚ) :
    (RationalInterval.hull x y).Contains x ∧ (RationalInterval.hull x y).Contains y := by
  unfold RationalInterval.hull
  split
  · rename_i h
    have h' : (x : ℝ) ≤ y := by exact_mod_cast h
    exact ⟨⟨le_rfl, h'⟩, ⟨h', le_rfl⟩⟩
  · rename_i h
    have h' : (y : ℝ) ≤ x := by exact_mod_cast (not_le.mp h).le
    exact ⟨⟨h', le_rfl⟩, ⟨le_rfl, h'⟩⟩

theorem complexSegmentBall_contains {a b : ComplexRational} {z : ℂ}
    (hz : z ∈ segment ℝ (toComplex a) (toComplex b)) : Contains (complexSegmentBall a b) z := by
  have ha : Contains (complexSegmentBall a b) (toComplex a) :=
    ⟨(contains_hull a.real b.real).1, (contains_hull a.imaginary b.imaginary).1⟩
  have hb : Contains (complexSegmentBall a b) (toComplex b) :=
    ⟨(contains_hull a.real b.real).2, (contains_hull a.imaginary b.imaginary).2⟩
  exact contains_segment ha hb hz

/-! ## Cells -/

/-- On a stretch every two values are joined by a chord that avoids zero. -/
def ClearStretch (p : List ComplexRational) (a b : ComplexRational) : Prop :=
  ∀ z ∈ segment ℝ (toComplex a) (toComplex b), ∀ w ∈ segment ℝ (toComplex a) (toComplex b),
    Clear ((toPoly p).eval z) ((toPoly p).eval w)

theorem evaluateCell_clear {p : List ComplexRational} {a b : ComplexRational}
    {cell : PolynomialContourCell} (h : evaluateCell p a b = .ok cell)
    (hex : cell.imageEnclosure.excludesZero = true) : ClearStretch p a b := by
  unfold evaluateCell at h
  obtain ⟨enclosure, henclosure, h⟩ := bind_eq_ok h
  obtain ⟨_, _, h⟩ := bind_eq_ok h
  obtain ⟨_, _, h⟩ := bind_eq_ok h
  obtain ⟨_, _, h⟩ := bind_eq_ok h
  cases h
  intro z hz w hw h0
  have hmem : ∀ {x}, x ∈ segment ℝ (toComplex a) (toComplex b) →
      Contains enclosure ((toPoly p).eval x) := fun hx =>
    evaluateComplexPolynomialBall_contains henclosure (complexSegmentBall_contains hx)
  exact not_contains_zero hex (contains_segment (hmem hz) (hmem hw) h0)

/-- The bisection tree of a stretch; its leaves are clear. -/
inductive Subdivision (p : List ComplexRational) :
    ComplexRational → ComplexRational → List ComplexRational → Prop
  | cell {a b : ComplexRational} (h : ClearStretch p a b) : Subdivision p a b [b]
  | split {a b : ComplexRational} {l r : List ComplexRational}
      (hl : Subdivision p a (complexMidpoint a b) l)
      (hr : Subdivision p (complexMidpoint a b) b r) :
      Subdivision p a b (l ++ r)

/-- The traversal pushes the leaves of every pending stretch in order. -/
theorem enclosePolynomialContourSegment_spec {p : List ComplexRational} {maximumDepth : ℕ}
    {budget : ContourWorkBudget} {pending : List Stretch} {state result : Traversal}
    (h : enclosePolynomialContourSegment p maximumDepth budget pending state = .ok result) :
    ∃ lists, List.Forall₂ (fun stretch l => Subdivision p stretch.start stretch.stop l)
      pending lists ∧
      result.vertices = state.vertices ++ lists.flatten := by
  induction pending, state using enclosePolynomialContourSegment.induct p maximumDepth budget with
  | case1 state =>
    rw [enclosePolynomialContourSegment] at h
    cases h
    exact ⟨[], .nil, by simp⟩
  | case2 state stretch rest hbudget =>
    rw [enclosePolynomialContourSegment, dif_pos hbudget] at h
    cases h
  | case3 state stretch rest hbudget e hcell =>
    rw [enclosePolynomialContourSegment, dif_neg hbudget, hcell] at h
    cases h
  | case4 state stretch rest hbudget cell hcell hex ih =>
    rw [enclosePolynomialContourSegment, dif_neg hbudget, hcell] at h
    dsimp only at h
    rw [if_pos hex] at h
    obtain ⟨lists, hlists, hvertices⟩ := ih h
    refine ⟨[stretch.stop] :: lists, .cons (.cell (evaluateCell_clear hcell hex)) hlists, ?_⟩
    rw [hvertices]
    simp
  | case5 state stretch rest hbudget cell hcell hex hdepth =>
    rw [enclosePolynomialContourSegment, dif_neg hbudget, hcell] at h
    dsimp only at h
    rw [if_neg hex, if_pos hdepth] at h
    cases h
  | case6 state stretch rest hbudget cell hcell hex hdepth midpoint ih =>
    rw [enclosePolynomialContourSegment, dif_neg hbudget, hcell] at h
    dsimp only at h
    rw [if_neg hex, if_neg hdepth] at h
    obtain ⟨lists, hlists, hvertices⟩ := ih h
    cases hlists with
    | cons hl hlists =>
      cases hlists with
      | cons hr hrest =>
        refine ⟨_ :: _, .cons (.split hl hr) hrest, ?_⟩
        rw [hvertices]
        simp

theorem toComplex_midpoint (a b : ComplexRational) :
    toComplex (complexMidpoint a b) = (toComplex a + toComplex b) / 2 := by
  apply Complex.ext <;> simp [toComplex, complexMidpoint]

theorem segment_midpoint {a b z : ℂ} (hz : z ∈ segment ℝ a b) :
    z ∈ segment ℝ a ((a + b) / 2) ∨ z ∈ segment ℝ ((a + b) / 2) b := by
  obtain ⟨s, t, hs, ht, hst, rfl⟩ := hz
  have hs' : s = 1 - t := by linarith
  subst hs'
  rcases le_total t (1 / 2) with h | h
  · refine .inl ⟨1 - 2 * t, 2 * t, by linarith, by linarith, by ring, ?_⟩
    simp only [Complex.real_smul]
    push_cast
    ring
  · refine .inr ⟨2 - 2 * t, 2 * t - 1, by linarith, by linarith, by ring, ?_⟩
    simp only [Complex.real_smul]
    push_cast
    ring

theorem midpoint_mem (a b r : ℂ) : (a + b) / 2 - r ∈ segment ℝ (a - r) (b - r) := by
  refine ⟨1 / 2, 1 / 2, by norm_num, by norm_num, by norm_num, ?_⟩
  simp only [Complex.real_smul]
  push_cast
  ring

/-- The image of a vertex. -/
noncomputable def image (p : List ComplexRational) (a : ComplexRational) : ℂ :=
  (toPoly p).eval (toComplex a)

/-- The sum of the turns of the linear factors between two points. -/
noncomputable def factorTurn (p : List ComplexRational) (a b : ComplexRational) : ℝ :=
  ((toPoly p).roots.map fun r => turn (toComplex a - r) (toComplex b - r)).sum

/-- A list of vertices after `a` that ends in `b`, with clear chords between
consecutive images, and its total turn. -/
structure Traced (p : List ComplexRational) (a b : ComplexRational) (l : List ComplexRational)
    (total : ℝ) : Prop where
  last : (a :: l).getLastD a = b
  chain : (image p a :: l.map (image p)).IsChain Clear
  turning : turning (image p a) (l.map (image p)) = total

theorem getLastD_map {α β : Type} (f : α → β) (a : α) (l : List α) (d : α) (e : β) :
    ((a :: l).map f).getLastD e = f ((a :: l).getLastD d) := by
  rw [List.getLastD_eq_getLast?, List.getLastD_eq_getLast?, List.getLast?_map,
    List.getLast?_eq_some_getLast (List.cons_ne_nil a l)]
  rfl

theorem isChain_append {R : ℂ → ℂ → Prop} {w m : ℂ} {l r : List ℂ} (hl : (w :: l).IsChain R)
    (hlast : (w :: l).getLastD 0 = m) (hr : (m :: r).IsChain R) : (w :: (l ++ r)).IsChain R := by
  induction l generalizing w with
  | nil =>
    have hm : w = m := hlast
    rwa [hm]
  | cons w' l ih =>
    rw [List.isChain_cons_cons] at hl
    rw [List.cons_append, List.isChain_cons_cons]
    exact ⟨hl.1, ih hl.2 hlast⟩

theorem Traced.trans {p : List ComplexRational} {a m b : ComplexRational}
    {l r : List ComplexRational} {s t : ℝ} (hl : Traced p a m l s) (hr : Traced p m b r t) :
    Traced p a b (l ++ r) (s + t) := by
  have hlast : (image p a :: l.map (image p)).getLastD 0 = image p m := by
    rw [← List.map_cons, getLastD_map (image p) a l a 0, hl.last]
  refine ⟨?_, ?_, ?_⟩
  · cases r with
    | nil =>
      rw [List.append_nil, hl.last]
      exact hr.last
    | cons c r =>
      rw [← hr.last, List.getLastD_eq_getLast?, List.getLastD_eq_getLast?, ← List.cons_append,
        List.getLast?_append]
      rfl
  · rw [List.map_append]
    exact isChain_append hl.chain hlast hr.chain
  · rw [List.map_append, turning_append hlast, hl.turning, hr.turning]

/-- A bisection tree traces its stretch: no zero on it, and the turns of the
factors add up over the leaves. -/
theorem Subdivision.traced {p : List ComplexRational} {a b : ComplexRational}
    {l : List ComplexRational} (h : Subdivision p a b l) :
    (∀ z ∈ segment ℝ (toComplex a) (toComplex b), (toPoly p).eval z ≠ 0) ∧
      Traced p a b l (factorTurn p a b) := by
  induction h with
  | @cell a b h =>
    have ha := left_mem_segment ℝ (toComplex a) (toComplex b)
    have hb := right_mem_segment ℝ (toComplex a) (toComplex b)
    refine ⟨fun z hz => (h z hz z hz).left_ne, rfl, ?_, ?_⟩
    · exact List.isChain_pair.mpr (h _ ha _ hb)
    · rw [List.map_singleton, turning, turning, add_zero]
      exact turn_eval fun z hz => h _ ha z hz
  | @split a b l r hl hr ihl ihr =>
    rw [toComplex_midpoint] at ihl ihr
    have hne : ∀ z ∈ segment ℝ (toComplex a) (toComplex b), (toPoly p).eval z ≠ 0 := by
      intro z hz
      rcases segment_midpoint hz with hz | hz
      · exact ihl.1 z hz
      · exact ihr.1 z hz
    have hsum : factorTurn p a (complexMidpoint a b) + factorTurn p (complexMidpoint a b) b =
        factorTurn p a b := by
      unfold factorTurn
      rw [← Multiset.sum_map_add, toComplex_midpoint]
      refine congrArg Multiset.sum (Multiset.map_congr rfl fun x hx => ?_)
      have hx' : x ∉ segment ℝ (toComplex a) (toComplex b) := fun hmem =>
        hne x hmem (isRoot_of_mem_roots hx)
      exact turn_add (clear_sub hx' (right_mem_segment ℝ _ _)) (midpoint_mem _ _ x)
    exact ⟨hne, hsum ▸ ihl.2.trans ihr.2⟩

/-! ## The polygon -/

theorem windingStep_eq {a b : ComplexRational} {k : ℤ} (h : windingStep a b = .ok k) :
    k = crossing (toComplex a) (toComplex b) := by
  unfold windingStep at h
  split at h
  · cases h
  · have h1 : (a.imaginary ≤ 0 ∧ b.imaginary > 0 ∧
        a.real * b.imaginary - b.real * a.imaginary > 0) ↔
        ((toComplex a).im ≤ 0 ∧ 0 < (toComplex b).im ∧ 0 < (toComplex a).re * (toComplex b).im -
          (toComplex b).re * (toComplex a).im) := by
      simp only [toComplex]
      exact_mod_cast Iff.rfl
    have h2 : (a.imaginary > 0 ∧ b.imaginary ≤ 0 ∧
        a.real * b.imaginary - b.real * a.imaginary < 0) ↔
        (0 < (toComplex a).im ∧ (toComplex b).im ≤ 0 ∧ (toComplex a).re * (toComplex b).im -
          (toComplex b).re * (toComplex a).im < 0) := by
      simp only [toComplex]
      exact_mod_cast Iff.rfl
    dsimp only at h
    unfold crossing
    simp only [← h1, ← h2]
    split_ifs at h ⊢ <;> cases h <;> rfl

theorem windingFrom_eq {start : ComplexRational} {l : List ComplexRational} {winding k : ℤ}
    (h : windingFrom winding start l = .ok k) :
    k = winding + crossings (toComplex start) (l.map toComplex) := by
  induction l generalizing winding start with
  | nil =>
    cases h
    simp [crossings]
  | cons b l ih =>
    rw [windingFrom] at h
    obtain ⟨step, hstep, h⟩ := bind_eq_ok h
    rw [ih h, windingStep_eq hstep, List.map_cons, crossings, add_assoc]

theorem mapM_image {p l images : List ComplexRational}
    (h : l.mapM (fun vertex => evaluateComplexPolynomialExact p vertex) = .ok images) :
    images.map toComplex = l.map (image p) := by
  induction l generalizing images with
  | nil =>
    cases h
    rfl
  | cons v l ih =>
    rw [List.mapM_cons] at h
    obtain ⟨w, hw, h⟩ := bind_eq_ok h
    obtain ⟨ws, hws, h⟩ := bind_eq_ok h
    cases h
    rw [List.map_cons, List.map_cons, ih hws, evaluateComplexPolynomialExact_eq hw]
    rfl

theorem certifyEdge_spec {p : List ComplexRational} {depth : ℕ} {budget : ContourWorkBudget}
    {state result : Traversal} {a b : ComplexRational}
    (h : certifyEdge p depth budget state (a, b) = .ok result) :
    ∃ l, Subdivision p a b l ∧
      result.vertices.map toComplex = state.vertices.map toComplex ++ l.map (image p) := by
  unfold certifyEdge at h
  obtain ⟨inner, hinner, h⟩ := bind_eq_ok h
  obtain ⟨images, himages, h⟩ := bind_eq_ok h
  cases h
  obtain ⟨lists, hlists, hvertices⟩ := enclosePolynomialContourSegment_spec hinner
  cases hlists with
  | @cons _ l _ rest hl hrest =>
    cases hrest
    refine ⟨l, hl, ?_⟩
    have hflat : inner.vertices = l := by rw [hvertices]; simp
    rw [hflat] at himages
    rw [List.map_append]
    congr 1
    exact mapM_image himages

/-! ## The rectangle -/

/-- The sides of the rectangle. -/
def OnBoundary (r : RationalContourRectangle) (z : ℂ) : Prop :=
  ((r.realLower : ℝ) ≤ z.re ∧ z.re ≤ r.realUpper) ∧
    ((r.imaginaryLower : ℝ) ≤ z.im ∧ z.im ≤ r.imaginaryUpper) ∧
    (z.re = r.realLower ∨ z.re = r.realUpper ∨ z.im = r.imaginaryLower ∨ z.im = r.imaginaryUpper)

/-- Strictly inside the rectangle. -/
def Within (r : RationalContourRectangle) (z : ℂ) : Prop :=
  Inside r.realLower r.realUpper r.imaginaryLower r.imaginaryUpper z

theorem mem_horizontal {xl xu x : ℝ} (y : ℝ) (hlt : xl < xu) (hl : xl ≤ x) (hu : x ≤ xu) :
    (⟨x, y⟩ : ℂ) ∈ segment ℝ (⟨xl, y⟩ : ℂ) ⟨xu, y⟩ := by
  have hx : x ∈ segment ℝ xl xu := segment_eq_Icc hlt.le ▸ ⟨hl, hu⟩
  obtain ⟨s, t, hs, ht, hst, hx⟩ := hx
  refine ⟨s, t, hs, ht, hst, Complex.ext ?_ ?_⟩
  · simpa using hx
  · simp [← add_mul, hst]

theorem mem_vertical {yl yu y : ℝ} (x : ℝ) (hlt : yl < yu) (hl : yl ≤ y) (hu : y ≤ yu) :
    (⟨x, y⟩ : ℂ) ∈ segment ℝ (⟨x, yl⟩ : ℂ) ⟨x, yu⟩ := by
  have hy : y ∈ segment ℝ yl yu := segment_eq_Icc hlt.le ▸ ⟨hl, hu⟩
  obtain ⟨s, t, hs, ht, hst, hy⟩ := hy
  refine ⟨s, t, hs, ht, hst, Complex.ext ?_ ?_⟩
  · simp [← add_mul, hst]
  · simpa using hy

theorem sum_map_filter_card {ι : Type} (s : Multiset ι) (P : ι → Prop) [DecidablePred P]
    {f : ι → ℝ} {c : ℝ} (h : ∀ i ∈ s, f i = if P i then c else 0) :
    (s.map f).sum = c * (s.filter P).card := by
  induction s using Multiset.induction with
  | empty => simp
  | cons i s ih =>
    rw [Multiset.map_cons, Multiset.sum_cons, ih fun j hj => h j (Multiset.mem_cons_of_mem hj),
      h i (Multiset.mem_cons_self i s)]
    by_cases hi : P i
    · rw [if_pos hi, Multiset.filter_cons_of_pos _ hi, Multiset.card_cons]
      push_cast
      ring
    · rw [if_neg hi, Multiset.filter_cons_of_neg _ hi, zero_add]

/-- What a traversal of all four edges leaves behind. -/
structure Traversed (p : List ComplexRational) (r : RationalContourRectangle)
    (vertices : List ComplexRational) : Prop where
  boundary : ∀ z, OnBoundary r z → (toPoly p).eval z ≠ 0
  polygon : ∃ (l : List ComplexRational),
    Traced p ⟨r.realLower, r.imaginaryLower⟩ ⟨r.realLower, r.imaginaryLower⟩ l
      ((toPoly p).roots.map fun z => rectangleTurn r.realLower r.realUpper r.imaginaryLower
        r.imaginaryUpper z).sum ∧
    vertices.map toComplex = image p ⟨r.realLower, r.imaginaryLower⟩ :: l.map (image p)

theorem certifyEdges_traversed {p : List ComplexRational} {r : RationalContourRectangle}
    {depth : ℕ} {budget : ContourWorkBudget} {first : ComplexRational} {state result : Traversal}
    (hr : r.realLower < r.realUpper) (hi : r.imaginaryLower < r.imaginaryUpper)
    (hfirst : toComplex first = image p ⟨r.realLower, r.imaginaryLower⟩)
    (hstate : state.vertices = [first])
    (h : (r.counterclockwiseVertices.zip r.counterclockwiseVertices.tail).foldlM
      (certifyEdge p depth budget) state = .ok result) : Traversed p r result.vertices := by
  have hr' : (r.realLower : ℝ) < r.realUpper := by exact_mod_cast hr
  have hi' : (r.imaginaryLower : ℝ) < r.imaginaryUpper := by exact_mod_cast hi
  simp only [RationalContourRectangle.counterclockwiseVertices, List.tail_cons, List.zip_cons_cons,
    List.zip_nil_right, List.foldlM_cons, List.foldlM_nil] at h
  obtain ⟨s1, h1, h⟩ := bind_eq_ok h
  obtain ⟨s2, h2, h⟩ := bind_eq_ok h
  obtain ⟨s3, h3, h⟩ := bind_eq_ok h
  obtain ⟨s4, h4, h⟩ := bind_eq_ok h
  cases h
  obtain ⟨l1, hl1, hv1⟩ := certifyEdge_spec h1
  obtain ⟨l2, hl2, hv2⟩ := certifyEdge_spec h2
  obtain ⟨l3, hl3, hv3⟩ := certifyEdge_spec h3
  obtain ⟨l4, hl4, hv4⟩ := certifyEdge_spec h4
  obtain ⟨hn1, ht1⟩ := hl1.traced
  obtain ⟨hn2, ht2⟩ := hl2.traced
  obtain ⟨hn3, ht3⟩ := hl3.traced
  obtain ⟨hn4, ht4⟩ := hl4.traced
  refine ⟨fun z hz => ?_, l1 ++ l2 ++ l3 ++ l4, ?_, ?_⟩
  · obtain ⟨⟨hxl, hxu⟩, ⟨hyl, hyu⟩, hside⟩ := hz
    have hz : z = ⟨z.re, z.im⟩ := rfl
    rcases hside with hx | hx | hy | hy
    · refine hn4 z ?_
      rw [hz, hx]
      rw [segment_symm]
      exact mem_vertical _ hi' hyl hyu
    · refine hn2 z ?_
      rw [hz, hx]
      exact mem_vertical _ hi' hyl hyu
    · refine hn1 z ?_
      rw [hz, hy]
      exact mem_horizontal _ hr' hxl hxu
    · refine hn3 z ?_
      rw [hz, hy]
      rw [segment_symm]
      exact mem_horizontal _ hr' hxl hxu
  · have hall := ((ht1.trans ht2).trans ht3).trans ht4
    convert hall using 1
    unfold factorTurn rectangleTurn
    rw [← Multiset.sum_map_add, ← Multiset.sum_map_add, ← Multiset.sum_map_add]
    rfl
  · rw [hv4, hv3, hv2, hv1, hstate, List.map_singleton, hfirst]
    simp

open Classical in
/-- The zeros strictly inside the rectangle, with multiplicity. -/
noncomputable def zerosWithin (p : List ComplexRational) (r : RationalContourRectangle) : ℕ :=
  ((toPoly p).roots.filter (Within r)).card

/-- A root off the boundary turns once around from the inside and not at all from the outside. -/
theorem sum_rectangleTurn {p : List ComplexRational} {r : RationalContourRectangle}
    (hr : r.realLower < r.realUpper) (hi : r.imaginaryLower < r.imaginaryUpper)
    (hboundary : ∀ z, OnBoundary r z → (toPoly p).eval z ≠ 0) :
    ((toPoly p).roots.map fun z => rectangleTurn r.realLower r.realUpper r.imaginaryLower
      r.imaginaryUpper z).sum = 2 * Real.pi * zerosWithin p r := by
  classical
  unfold zerosWithin
  convert sum_map_filter_card (toPoly p).roots (Within r) (f := fun z => rectangleTurn r.realLower
    r.realUpper r.imaginaryLower r.imaginaryUpper z) (c := 2 * Real.pi) fun z hz => ?_
  split
  · rename_i hin
    exact rectangleTurn_inside hin
  · rename_i hin
    refine rectangleTurn_outside (by exact_mod_cast hr) (by exact_mod_cast hi) ?_
    by_contra hout
    have hroot : (toPoly p).eval z = 0 := isRoot_of_mem_roots hz
    refine hboundary z ?_ hroot
    unfold Outside at hout
    unfold Within Inside at hin
    unfold OnBoundary
    push Not at hout
    grind

theorem winding_eq_zerosWithin {p : List ComplexRational} {r : RationalContourRectangle}
    {vertices : List ComplexRational} {winding : ℤ} (hr : r.realLower < r.realUpper)
    (hi : r.imaginaryLower < r.imaginaryUpper) (h : Traversed p r vertices)
    (hwinding : exactPolygonWindingAboutZero vertices = .ok winding) :
    winding = zerosWithin p r := by
  obtain ⟨l, htraced, hvertices⟩ := h.polygon
  unfold exactPolygonWindingAboutZero at hwinding
  split at hwinding
  · rename_i first second rest
    split at hwinding
    · have hk := windingFrom_eq hwinding
      rw [List.map_cons, List.cons.injEq] at hvertices
      obtain ⟨hfirst, hrest⟩ := hvertices
      rw [hfirst, hrest, zero_add] at hk
      have hturn := turning_eq_crossings htraced.chain
      rw [← List.map_cons, getLastD_map _ _ _ ⟨r.realLower, r.imaginaryLower⟩ 0, htraced.last,
        htraced.turning, sum_rectangleTurn hr hi h.boundary, sub_self, zero_add, ← hk] at hturn
      have hpi : (2 * Real.pi) ≠ 0 := Real.two_pi_pos.ne'
      have hcast : ((zerosWithin p r : ℕ) : ℝ) = (winding : ℝ) := mul_left_cancel₀ hpi hturn
      exact_mod_cast hcast.symm
    · cases hwinding
  · cases hwinding

/-- **The argument principle, certified.** An accepted rectangle has no zero on
its sides, and the count is the number of zeros strictly inside, each as often
as its multiplicity. -/
theorem certifyPolynomialZeroCountOnRectangleWithBudget_sound {coefficients : List ComplexRational}
    {rectangle : RationalContourRectangle} {depth : ℕ} {budget : ContourWorkBudget}
    {result : PolynomialContourCount}
    (h : certifyPolynomialZeroCountOnRectangleWithBudget coefficients rectangle depth budget =
      .ok result) :
    toPoly coefficients ≠ 0 ∧
      (∀ z, OnBoundary rectangle z → (toPoly coefficients).eval z ≠ 0) ∧
      result.zeroCount = zerosWithin coefficients rectangle := by
  unfold certifyPolynomialZeroCountOnRectangleWithBudget at h
  obtain ⟨_, _, h⟩ := bind_eq_ok h
  obtain ⟨_, hnonzero, h⟩ := bind_eq_ok h
  obtain ⟨validated, hvalidated, h⟩ := bind_eq_ok h
  obtain ⟨first, hfirst, h⟩ := bind_eq_ok h
  obtain ⟨state, hstate, h⟩ := bind_eq_ok h
  obtain ⟨winding, hwinding, h⟩ := bind_eq_ok h
  obtain ⟨zeroCount, hzero, h⟩ := bind_eq_ok h
  cases h
  obtain ⟨rfl, hr, hi⟩ : validated = rectangle ∧ rectangle.realLower < rectangle.realUpper ∧
      rectangle.imaginaryLower < rectangle.imaginaryUpper := by
    unfold RationalContourRectangle.new at hvalidated
    split at hvalidated
    · cases hvalidated
    · rename_i hordered
      rw [not_or, not_le, not_le] at hordered
      cases hvalidated
      exact ⟨rfl, hordered⟩
  have htraversed := certifyEdges_traversed hr hi
    (evaluateComplexPolynomialExact_eq hfirst) rfl hstate
  have hcount := winding_eq_zerosWithin hr hi htraversed hwinding
  refine ⟨fun h0 => ?_, htraversed.boundary, ?_⟩
  · have hcheck := check_ok hnonzero
    rw [toPoly_eq_zero h0] at hcheck
    simp at hcheck
  · unfold zeroCountOf at hzero
    split at hzero
    · cases hzero
      rw [hcount, Int.toNat_natCast]
    · cases hzero

/-- A double zero at the origin of the square. -/
theorem certifyPolynomialZeroCountOnRectangleWithBudget_sound_double :
    (certifyPolynomialZeroCountOnRectangleWithBudget [⟨0, 0⟩, ⟨0, 0⟩, ⟨1, 0⟩] ⟨-1, 1, -1, 1⟩ 20
        ⟨1000, 1000, 100⟩).toOption.map (·.zeroCount) = some 2 ∧
      zerosWithin [⟨0, 0⟩, ⟨0, 0⟩, ⟨1, 0⟩] ⟨-1, 1, -1, 1⟩ = 2 := by
  have hrun : (certifyPolynomialZeroCountOnRectangleWithBudget [⟨0, 0⟩, ⟨0, 0⟩, ⟨1, 0⟩]
      ⟨-1, 1, -1, 1⟩ 20 ⟨1000, 1000, 100⟩).toOption.map (·.zeroCount) = some 2 := by
    decide +kernel
  refine ⟨hrun, ?_⟩
  cases h : certifyPolynomialZeroCountOnRectangleWithBudget [⟨0, 0⟩, ⟨0, 0⟩, ⟨1, 0⟩]
      ⟨-1, 1, -1, 1⟩ 20 ⟨1000, 1000, 100⟩ with
  | error e =>
    rw [h] at hrun
    cases hrun
  | ok result =>
    rw [h] at hrun
    have hcount := (certifyPolynomialZeroCountOnRectangleWithBudget_sound h).2.2
    exact hcount.symm.trans (Option.some.inj hrun)

end Xcelerator.Numerics.ContourSoundness
