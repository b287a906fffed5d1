import Mathlib
import Xcelerator.Foundations.Sturm
import Xcelerator.Numerics.SturmRoots
import Xcelerator.Numerics.SturmRootsSoundness

/-! # Correctness of root isolation

Dividing by the common divisor with the derivative keeps every real root, so
the subdivided polynomial stands for the original one. The stack and the
isolated intervals together are ordered from left to right, their endpoints
are no roots, every pending count is exact and no root is lost (`Partition`);
a turn of the loop keeps this for any configuration of the roots. -/

namespace Xcelerator.Numerics.RootIsolationSoundness
open Polynomial
open Xcelerator.Foundations Machine Sturm Xcelerator.Numerics.Interval
  Xcelerator.Numerics.SturmRoots
open Xcelerator.Numerics.SturmRootsSoundness

/-! ## The square-free part -/

theorem gcdLoop_spec {first second : List ℚ} (hf : first ≠ []) (hs : second ≠ [])
    (hsecond : isZeroPolynomial second = true ∨ toPoly second ≠ 0)
    (hne : toPoly first ≠ 0 ∨ toPoly second ≠ 0) :
    ∃ g, gcdLoop first second = .ok g ∧ g ≠ [] ∧ toPoly g ≠ 0 ∧ toPoly g ∣ toPoly first ∧
      toPoly g ∣ toPoly second := by
  induction first, second using gcdLoop.induct with
  | case1 first second hz =>
    rw [gcdLoop, if_pos hz]
    have hzero := toPoly_of_isZero hz
    refine ⟨first, rfl, hf, hne.resolve_right fun h => h hzero, dvd_rfl, ?_⟩
    rw [hzero]
    exact dvd_zero _
  | case2 first second hz e herror =>
    obtain ⟨r, hrun, _⟩ := polynomialRemainder_spec hf hs (hsecond.resolve_left hz)
    rw [hrun] at herror
    cases herror
  | case3 first second hz remainder hrem ih =>
    have hnonzero := hsecond.resolve_left hz
    obtain ⟨r, hrun, hr⟩ := polynomialRemainder_spec hf hs hnonzero
    obtain rfl : remainder = r := by
      rw [hrun] at hrem
      cases hrem
      rfl
    have hrem' : isZeroPolynomial remainder = true ∨ toPoly remainder ≠ 0 := by
      rw [hr.trimmed.isZero_iff]
      exact em _
    obtain ⟨g, hg, hgnil, hgne, hdvd2, hdvdr⟩ := ih hs hr.trimmed.ne_nil hrem' (.inl hnonzero)
    refine ⟨g, ?_, hgnil, hgne, ?_, hdvd2⟩
    · rw [gcdLoop, if_neg hz]
      split
      · simp_all
      · rename_i r' hr'
        rw [hrun] at hr'
        cases hr'
        exact hg
    · obtain ⟨k, hk, q, heq⟩ := hr.equation
      have hunit : IsUnit (C k : ℚ[X]) := isUnit_C.mpr (isUnit_iff_ne_zero.mpr hk.ne')
      rw [← hunit.dvd_mul_left, heq, toPoly_trimPolynomial]
      exact dvd_add (dvd_mul_of_dvd_right hdvd2 q) hdvdr

theorem toPoly_modify {p : List ℚ} {i : ℕ} (h : i < p.length) (c : ℚ) :
    toPoly (p.modify i (· + c)) = toPoly p + C c * X ^ i := by
  induction p generalizing i with
  | nil => simp at h
  | cons d p ih =>
    cases i with
    | zero =>
      rw [List.modify_zero_cons, toPoly_cons, toPoly_cons, C_add, pow_zero]
      ring
    | succ i =>
      rw [List.modify_succ_cons, toPoly_cons, ih (by simpa using h), toPoly_cons]
      ring

theorem quotientLoop_spec {divisor quotient remainder : List ℚ} (hd : divisor.getLastD 0 ≠ 0)
    (hr : Trimmed remainder) (hroom : remainder.length < quotient.length + divisor.length) :
    ∃ q r, quotientLoop divisor quotient remainder = .ok (q, r) ∧ Trimmed r ∧
      (isZeroPolynomial r = true ∨ r.length < divisor.length) ∧
      toPoly quotient * toPoly divisor + toPoly remainder = toPoly q * toPoly divisor + toPoly r ∧
      q.length = quotient.length := by
  induction quotient, remainder using quotientLoop.induct divisor with
  | case1 quotient remainder hdone =>
    rw [quotientLoop, dif_pos hdone]
    exact ⟨quotient, remainder, rfl, hr, hdone, rfl, rfl⟩
  | case2 quotient remainder hdone hlead => exact absurd hlead hd
  | case3 quotient remainder hdone hlead shift factor ih =>
    rw [quotientLoop, dif_neg hdone, dif_neg hlead]
    rw [not_or, not_lt] at hdone
    have hne : cancelLeading remainder divisor ≠ [] := by
      intro h0
      have hlast := cancelLeading_last hd hdone.2
      rw [h0] at hlast
      cases hlast
    have hlen := trimPolynomial_length_le (cancelLeading remainder divisor)
    rw [cancelLeading_length hdone.2] at hlen
    obtain ⟨q, r, hrun, htrim, hsmall, heq, hq⟩ := ih (trimmed_trimPolynomial hne) (by
      rw [List.length_modify]
      omega)
    refine ⟨q, r, hrun, htrim, hsmall, ?_, by rw [hq, List.length_modify]⟩
    have hshift : shift < quotient.length := by
      simp only [shift]
      omega
    rw [toPoly_modify hshift, toPoly_trimPolynomial, toPoly_cancelLeading hdone.2] at heq
    rw [← heq]
    simp only [shift, factor]
    ring

theorem all_zero_of_isZero {p : List ℚ} (h : isZeroPolynomial p = true) :
    (!p.any fun x => decide (x ≠ 0)) = true := by
  unfold isZeroPolynomial at h
  simp only [Bool.and_eq_true, beq_iff_eq] at h
  cases p with
  | nil => rfl
  | cons c p =>
    have hp : p = [] := List.eq_nil_of_length_eq_zero (by simpa using h.1)
    subst hp
    cases h.2
    simp

/-- The two vectors have the same real roots. -/
def SameRoots (p q : List ℚ) : Prop := ∀ x : ℝ, (toReal q).eval x = 0 ↔ (toReal p).eval x = 0

theorem sameRoots_iff {p q : List ℚ} :
    SameRoots p q ↔ ∀ x : ℝ, aeval x (toPoly q) = 0 ↔ aeval x (toPoly p) = 0 := by
  simp only [SameRoots, toReal, eval_map_algebraMap]

/-- The square-free part of a nonconstant polynomial exists and keeps every root. -/
theorem polynomialSquareFreePart_spec {coefficients : List ℚ}
    (hdeg : 0 < (toPoly coefficients).natDegree) :
    ∃ q, polynomialSquareFreePart coefficients = .ok q ∧ q ≠ [] ∧ toPoly q ≠ 0 ∧
      SameRoots coefficients q := by
  have hpne : toPoly coefficients ≠ 0 := fun h0 => by simp [h0] at hdeg
  have hnil : coefficients ≠ [] := fun h0 => hpne (by rw [h0]; rfl)
  have htrim := trimmed_trimPolynomial hnil
  have hlast := htrim.last (by rwa [toPoly_trimPolynomial])
  have hderiv : toPoly (polynomialDerivative (trimPolynomial coefficients)) =
      derivative (toPoly coefficients) := by
    rw [toPoly_polynomialDerivative, toPoly_trimPolynomial]
  have hderivne : derivative (toPoly coefficients) ≠ 0 := fun h0 => by
    rw [derivative_eq_zero] at h0
    omega
  obtain ⟨g, hg, hgnil, hgne, hdvd, hdvd'⟩ := gcdLoop_spec htrim.ne_nil
    (polynomialDerivative_ne_nil _) (.inr (by rwa [hderiv])) (.inl (by rwa [toPoly_trimPolynomial]))
  rw [toPoly_trimPolynomial] at hdvd
  rw [hderiv] at hdvd'
  obtain ⟨htrimd, k, hk, hdiv⟩ := normalizePolynomialPositive_spec hgnil
  generalize hdivisor : normalizePolynomialPositive g = divisor at htrimd hdiv
  have hunit : IsUnit (C k : ℚ[X]) := isUnit_C.mpr (isUnit_iff_ne_zero.mpr hk.ne')
  have hdivne : toPoly divisor ≠ 0 := by
    rw [hdiv]
    exact mul_ne_zero (C_ne_zero.mpr hk.ne') hgne
  have hdlast := htrimd.last hdivne
  have hdivdvd : toPoly divisor ∣ toPoly coefficients := by
    rw [hdiv]
    exact hunit.mul_left_dvd.mpr hdvd
  -- the division leaves a remainder of smaller degree that the divisor divides
  have hroom : (trimPolynomial coefficients).length < (List.replicate
      ((trimPolynomial coefficients).length - divisor.length + 1) (0 : ℚ)).length +
        divisor.length := by
    rw [List.length_replicate]
    omega
  obtain ⟨q, r, hrun, hrtrim, hsmall, heq, hqlen⟩ := quotientLoop_spec hdlast htrim hroom
  have hzeros : ∀ n, toPoly (List.replicate n 0) = 0 := by
    intro n
    induction n with
    | zero => rfl
    | succ n ih => rw [List.replicate_succ, toPoly_cons, ih, C_0, mul_zero, add_zero]
  rw [hzeros, zero_mul, zero_add, toPoly_trimPolynomial] at heq
  have hrzero : isZeroPolynomial r = true := by
    refine hsmall.elim id fun hlt => ?_
    rw [hrtrim.isZero_iff]
    by_contra hrne
    have hrdvd : toPoly divisor ∣ toPoly r := by
      have hform : toPoly r = toPoly coefficients - toPoly q * toPoly divisor := by rw [heq]; ring
      rw [hform]
      exact dvd_sub hdivdvd (dvd_mul_left _ _)
    have hle := natDegree_le_of_dvd hrdvd hrne
    have hrlen := (natDegree_of_last (hrtrim.last hrne)).2
    have hdlen := (natDegree_of_last hdlast).2
    omega
  rw [toPoly_of_isZero hrzero, add_zero] at heq
  have hqne : toPoly q ≠ 0 := fun h0 => hpne (by rw [heq, h0, zero_mul])
  have hqnil : q ≠ [] := fun h0 => hqne (by rw [h0]; rfl)
  obtain ⟨htrimq, l, hl, hq⟩ := normalizePolynomialPositive_spec hqnil
  refine ⟨normalizePolynomialPositive q, ?_, htrimq.ne_nil, ?_, sameRoots_iff.mpr fun x => ?_⟩
  · unfold polynomialSquareFreePart
    dsimp only
    rw [hg, ok_bind, hdivisor, hrun, ok_bind, lift_check_pos (all_zero_of_isZero hrzero)]
    rfl
  · rw [hq]
    exact mul_ne_zero (C_ne_zero.mpr hl.ne') hqne
  · have hfactor : toReal coefficients = toReal divisor * toReal q := by
      rw [toReal, heq, Polynomial.map_mul, mul_comm]
      rfl
    have hdvdReal : toReal divisor ∣ derivative (toReal coefficients) := by
      rw [toReal, toReal, derivative_map]
      refine map_dvd (mapRingHom (algebraMap ℚ ℝ)) ?_
      rw [hdiv]
      exact hunit.mul_left_dvd.mpr hdvd'
    have hroots := eval_quotient_eq_zero_iff (toReal_ne_zero hpne) hfactor hdvdReal x
    rw [toReal, toReal, eval_map_algebraMap, eval_map_algebraMap] at hroots
    have hl' : (algebraMap ℚ ℝ) l ≠ 0 := by simpa using hl.ne'
    rw [hq, map_mul, aeval_C, mul_eq_zero_iff_left hl', hroots]

/-! ## Refusals -/

def notConserved : IntervalError :=
  .invalid "Sturm subdivision count did not conserve the parent count"

def notExact : IntervalError := .invalid "polynomial gcd division was not exact"

/-- A refusal of the input or of the budget, not of an internal check. -/
def Expected (stop : Stop) : Prop :=
  stop ≠ .error notConserved ∧ stop ≠ .error notExact ∧ ∀ message, stop ≠ .panic message

theorem expected_inconclusive (message : String) : Expected (.error (.inconclusive message)) :=
  ⟨nofun, nofun, nofun⟩

theorem refuses_check {condition : Bool} {error : IntervalError} (h : Expected (.error error)) :
    Refuses Expected (lift (check condition error)) := by
  intro e he
  cases hc : condition with
  | true =>
    rw [lift_check_pos hc] at he
    cases he
  | false =>
    rw [lift_check_neg hc] at he
    cases he
    exact h

theorem refuses_exactSturmRootCount (coefficients : List ℚ) (lower upper : ℚ) :
    Refuses Expected (exactSturmRootCount coefficients lower upper) := by
  intro stop hstop
  rcases exactSturmRootCount_cases coefficients lower upper with ⟨e, he, hrun⟩ | ⟨count, hrun, _⟩
  · rw [hrun] at hstop
    cases hstop
    simp only [List.mem_cons, List.not_mem_nil, or_false] at he
    rcases he with rfl | rfl | rfl
    · exact ⟨by decide, by decide, nofun⟩
    · exact ⟨by decide, by decide, nofun⟩
    · exact expected_inconclusive _
  · rw [hrun] at hstop
    cases hstop

theorem exactSturmRootCount_counted {coefficients : List ℚ} {lower upper : ℚ}
    {count : ExactSturmCount} (h : exactSturmRootCount coefficients lower upper = .ok count) :
    Counted coefficients lower upper count := by
  rcases exactSturmRootCount_cases coefficients lower upper with ⟨e, _, hrun⟩ | ⟨c, hrun, hc⟩
  · rw [hrun] at h
    cases h
  · rw [hrun] at h
    cases h
    exact hc

theorem refuses_chooseSplit {coefficients : List ℚ} (hne : coefficients ≠ []) (left width : ℚ)
    (denominators : List ℕ) :
    Refuses Expected (lift (chooseSplit coefficients left width denominators)) := by
  induction denominators with
  | nil =>
    intro stop h
    cases h
    exact expected_inconclusive _
  | cons d denominators ih =>
    rw [chooseSplit, evaluateRealPolynomialExact_eq hne]
    dsimp only [ok_bind]
    split
    · exact Refuses.ok _
    · exact ih

/-! ## Root counts of subintervals -/

theorem finite_realRoots {p : List ℚ} (hp : toPoly p ≠ 0) (lower upper : ℚ) :
    (realRoots p lower upper).Finite := by
  refine ((toReal p).roots.toFinset.finite_toSet).subset fun x hx => ?_
  rw [Finset.mem_coe, Multiset.mem_toFinset, mem_roots (toReal_ne_zero hp), IsRoot.def, toReal,
    eval_map_algebraMap]
  exact hx.2.2

theorem aeval_ratCast (p : List ℚ) (x : ℚ) :
    aeval (x : ℝ) (toPoly p) = 0 ↔ (toPoly p).eval x = 0 := by
  have h := toReal_eval p x
  rw [toReal, eval_map_algebraMap] at h
  rw [h]
  exact_mod_cast Iff.rfl

/-- The counts on both sides of a point that is no root add up. -/
theorem realRoots_split {p : List ℚ} (hp : toPoly p ≠ 0) {left split right : ℚ} (hl : left < split)
    (hr : split < right) (hsplit : (toPoly p).eval split ≠ 0) :
    (realRoots p left split).ncard + (realRoots p split right).ncard =
      (realRoots p left right).ncard := by
  have hdisjoint : Disjoint (realRoots p left split) (realRoots p split right) :=
    Set.disjoint_left.mpr fun x hx hx' => lt_asymm hx.2.1 hx'.1
  rw [← Set.ncard_union_eq hdisjoint (finite_realRoots hp _ _) (finite_realRoots hp _ _)]
  congr 1
  ext x
  have hl' : (left : ℝ) < split := by exact_mod_cast hl
  have hr' : (split : ℝ) < right := by exact_mod_cast hr
  constructor
  · rintro (⟨h1, h2, h0⟩ | ⟨h1, h2, h0⟩)
    · exact ⟨h1, h2.trans hr', h0⟩
    · exact ⟨hl'.trans h1, h2, h0⟩
  · rintro ⟨h1, h2, h0⟩
    rcases lt_trichotomy x split with h | rfl | h
    · exact .inl ⟨h1, h, h0⟩
    · exact absurd ((aeval_ratCast p split).mp h0) hsplit
    · exact .inr ⟨h, h2, h0⟩

/-- A work item with an exact count and endpoints that are no roots. -/
structure Exact (p : List ℚ) (item : Pending) : Prop where
  ordered : item.left < item.right
  leftNotRoot : (toPoly p).eval item.left ≠ 0
  rightNotRoot : (toPoly p).eval item.right ≠ 0
  count : item.count = (realRoots p item.left item.right).ncard

theorem splitItem_ok {p : List ℚ} {maximumDepth : ℕ} {item l r : Pending}
    (h : splitItem p maximumDepth item = .ok (l, r)) :
    Exact p l ∧ Exact p r ∧ l.left = item.left ∧ l.right = r.left ∧ r.right = item.right := by
  unfold splitItem at h
  obtain ⟨_, _, h⟩ := bind_eq_ok h
  obtain ⟨split, _, h⟩ := bind_eq_ok h
  obtain ⟨leftCount, hleft, h⟩ := bind_eq_ok h
  obtain ⟨rightCount, hright, h⟩ := bind_eq_ok h
  obtain ⟨_, _, h⟩ := bind_eq_ok h
  cases h
  have hl := exactSturmRootCount_counted hleft
  have hr := exactSturmRootCount_counted hright
  exact ⟨⟨hl.ordered, hl.lowerNotRoot, hl.upperNotRoot, hl.roots⟩,
    ⟨hr.ordered, hr.lowerNotRoot, hr.upperNotRoot, hr.roots⟩, rfl, rfl, rfl⟩

/-- The two halves of an exact item conserve its count. -/
theorem refuses_splitItem {p : List ℚ} (hp : toPoly p ≠ 0) {maximumDepth : ℕ} {item : Pending}
    (hitem : Exact p item) : Refuses Expected (splitItem p maximumDepth item) := by
  have hnil : p ≠ [] := fun h0 => hp (by rw [h0]; rfl)
  unfold splitItem
  refine (refuses_check (expected_inconclusive _)).bind fun _ _ => ?_
  refine (refuses_chooseSplit hnil _ _ _).bind fun split _ => ?_
  refine (refuses_exactSturmRootCount _ _ _).bind fun leftCount hleft => ?_
  refine (refuses_exactSturmRootCount _ _ _).bind fun rightCount hright => ?_
  have hl := exactSturmRootCount_counted hleft
  have hr := exactSturmRootCount_counted hright
  have hsum : leftCount.distinctRealRoots + rightCount.distinctRealRoots = item.count := by
    rw [hl.roots, hr.roots, hitem.count]
    exact realRoots_split hp hl.ordered hr.ordered hl.upperNotRoot
  rw [lift_check_pos (decide_eq_true hsum)]
  exact Refuses.ok _

/-! ## The loop -/

/-- The isolated and the pending intervals, from left to right. -/
def spans (isolated : List RationalInterval) (pending : List Pending) : List (ℚ × ℚ) :=
  isolated.map (fun interval => (interval.lower, interval.upper)) ++
    pending.map fun item => (item.left, item.right)

/-- One narrow interval around one root. -/
structure Isolates (p : List ℚ) (targetWidth : ℚ) (interval : RationalInterval) : Prop where
  width : interval.upper - interval.lower ≤ targetWidth
  lowerNotRoot : (toPoly p).eval interval.lower ≠ 0
  upperNotRoot : (toPoly p).eval interval.upper ≠ 0
  one : (realRoots p interval.lower interval.upper).ncard = 1

/-- The invariant of the loop. -/
structure Partition (p : List ℚ) (lower upper targetWidth : ℚ) (pending : List Pending)
    (isolated : List RationalInterval) : Prop where
  exact : ∀ item ∈ pending, Exact p item
  isolates : ∀ interval ∈ isolated, Isolates p targetWidth interval
  ordered : (spans isolated pending).Pairwise fun a b => a.2 ≤ b.1
  covers : ∀ x ∈ realRoots p lower upper, ∃ span ∈ spans isolated pending,
    (span.1 : ℝ) < x ∧ x < span.2

section
variable {p : List ℚ} {lower upper targetWidth : ℚ} {item : Pending} {rest : List Pending}
  {isolated : List RationalInterval}

theorem Partition.skip (h : Partition p lower upper targetWidth (item :: rest) isolated)
    (hp : toPoly p ≠ 0) (hzero : item.count = 0) :
    Partition p lower upper targetWidth rest isolated := by
  have hempty : realRoots p item.left item.right = ∅ := by
    have hcount := (h.exact item List.mem_cons_self).count
    rw [hzero] at hcount
    exact (Set.ncard_eq_zero (finite_realRoots hp _ _)).mp hcount.symm
  have hsub : (spans isolated rest).Sublist (spans isolated (item :: rest)) :=
    List.Sublist.append_left (List.sublist_cons_self _ _) _
  refine ⟨fun i hi => h.exact i (List.mem_cons_of_mem _ hi), h.isolates, h.ordered.sublist hsub,
    fun x hx => ?_⟩
  obtain ⟨span, hspan, hin⟩ := h.covers x hx
  rcases List.mem_append.mp hspan with hspan | hspan
  · exact ⟨span, List.mem_append_left _ hspan, hin⟩
  rcases List.mem_cons.mp hspan with rfl | hspan
  · have hmem : x ∈ realRoots p item.left item.right := ⟨hin.1, hin.2, hx.2.2⟩
    rw [hempty] at hmem
    exact hmem.elim
  · exact ⟨span, List.mem_append_right _ hspan, hin⟩

theorem Partition.isolate (h : Partition p lower upper targetWidth (item :: rest) isolated)
    {interval : RationalInterval} (hone : item.count = 1)
    (hwidth : item.right - item.left ≤ targetWidth)
    (hinterval : RationalInterval.new item.left item.right = .ok interval) :
    Partition p lower upper targetWidth rest (isolated ++ [interval]) := by
  obtain ⟨hlower, hupper⟩ : interval.lower = item.left ∧ interval.upper = item.right := by
    unfold RationalInterval.new at hinterval
    split at hinterval
    · cases hinterval
      exact ⟨rfl, rfl⟩
    · cases hinterval
  have hspans : spans (isolated ++ [interval]) rest = spans isolated (item :: rest) := by
    unfold spans
    simp [hlower, hupper]
  have hitem := h.exact item List.mem_cons_self
  refine ⟨fun i hi => h.exact i (List.mem_cons_of_mem _ hi), fun i hi => ?_, ?_, ?_⟩
  · rcases List.mem_append.mp hi with hi | hi
    · exact h.isolates i hi
    · rw [List.mem_singleton.mp hi]
      refine ⟨?_, ?_, ?_, ?_⟩
      · rwa [hlower, hupper]
      · rw [hlower]
        exact hitem.leftNotRoot
      · rw [hupper]
        exact hitem.rightNotRoot
      · rw [hlower, hupper, ← hitem.count, hone]
  · rw [hspans]
    exact h.ordered
  · rw [hspans]
    exact h.covers

theorem Partition.split (h : Partition p lower upper targetWidth (item :: rest) isolated)
    {maximumDepth : ℕ} {l r : Pending} (hsplit : splitItem p maximumDepth item = .ok (l, r)) :
    Partition p lower upper targetWidth (l :: r :: rest) isolated := by
  obtain ⟨hl, hr, hleft, hmid, hright⟩ := splitItem_ok hsplit
  have hlm := hl.ordered
  have hmr := hr.ordered
  refine ⟨fun i hi => ?_, h.isolates, ?_, fun x hx => ?_⟩
  · rcases List.mem_cons.mp hi with rfl | hi
    · exact hl
    rcases List.mem_cons.mp hi with rfl | hi
    · exact hr
    · exact h.exact i (List.mem_cons_of_mem _ hi)
  · have hordered := h.ordered
    unfold spans at hordered ⊢
    simp only [List.map_cons] at hordered ⊢
    rw [List.pairwise_append] at hordered ⊢
    obtain ⟨hiso, hpend, hcross⟩ := hordered
    rw [List.pairwise_cons] at hpend
    refine ⟨hiso, ?_, fun a ha b hb => ?_⟩
    · refine List.pairwise_cons.mpr ⟨fun b hb =>
        ?_, List.pairwise_cons.mpr ⟨fun b hb => ?_, hpend.2⟩⟩
      · rcases List.mem_cons.mp hb with rfl | hb
        · exact hmid.le
        · have := hpend.1 b hb
          dsimp only at this ⊢
          linarith
      · have := hpend.1 b hb
        dsimp only at this ⊢
        linarith
    · have hbase := hcross a ha (item.left, item.right) List.mem_cons_self
      dsimp only at hbase
      rcases List.mem_cons.mp hb with rfl | hb
      · dsimp only
        linarith
      rcases List.mem_cons.mp hb with rfl | hb
      · dsimp only
        linarith
      · exact hcross a ha b (List.mem_cons_of_mem _ hb)
  · obtain ⟨span, hspan, hin⟩ := h.covers x hx
    rcases List.mem_append.mp hspan with hspan | hspan
    · exact ⟨span, List.mem_append_left _ hspan, hin⟩
    rcases List.mem_cons.mp hspan with rfl | hspan
    · -- the root is not the split point
      dsimp only at hin
      rw [← hleft, ← hright] at hin
      rcases lt_trichotomy x l.right with hlt | heq | hgt
      · exact ⟨(l.left, l.right), by simp [spans], hin.1, hlt⟩
      · have hroot := hx.2.2
        rw [heq, aeval_ratCast] at hroot
        exact absurd hroot hl.rightNotRoot
      · rw [hmid] at hgt
        exact ⟨(r.left, r.right), by simp [spans], hgt, hin.2⟩
    · exact ⟨span, List.mem_append_right _ (List.mem_cons_of_mem _ (List.mem_cons_of_mem _ hspan)),
        hin⟩

end

/-- Every run from a partition ends in one with nothing pending, or lacks budget. -/
theorem isolateLoop_spec {p : List ℚ} (hp : toPoly p ≠ 0) {lower upper targetWidth : ℚ}
    {maximumDepth : ℕ} {pending : List Pending} {isolated : List RationalInterval}
    (h : Partition p lower upper targetWidth pending isolated) :
    Refuses Expected (isolateLoop p targetWidth maximumDepth pending isolated) ∧
      ∀ result, isolateLoop p targetWidth maximumDepth pending isolated = .ok result →
        Partition p lower upper targetWidth [] result := by
  induction pending, isolated using isolateLoop.induct p targetWidth maximumDepth with
  | case1 isolated =>
    rw [isolateLoop]
    refine ⟨Refuses.ok _, fun result hrun => ?_⟩
    cases hrun
    exact h
  | case2 isolated item rest hzero ih =>
    rw [isolateLoop, if_pos hzero]
    exact ih (h.skip hp hzero)
  | case3 isolated item rest hzero hone e hnew =>
    have hle := (h.exact item List.mem_cons_self).ordered.le
    rw [RationalInterval.new, dif_pos hle] at hnew
    cases hnew
  | case4 isolated item rest hzero hone interval hnew ih =>
    rw [isolateLoop, if_neg hzero, if_pos hone, hnew]
    exact ih (h.isolate hone.1 hone.2 hnew)
  | case5 isolated item rest hzero hone e hsplit =>
    rw [isolateLoop, if_neg hzero, if_neg hone]
    split
    · rename_i e' he'
      refine ⟨fun stop hstop => ?_, fun result hrun => (nomatch hrun)⟩
      cases hstop
      exact refuses_splitItem hp (h.exact item List.mem_cons_self) _ he'
    · simp_all
  | case6 isolated item rest hzero hone l r hsplit ih =>
    rw [isolateLoop, if_neg hzero, if_neg hone]
    split
    · simp_all
    · rename_i l' r' hsplit'
      rw [hsplit] at hsplit'
      cases hsplit'
      exact ih (h.split hsplit)

theorem SameRoots.realRoots {p q : List ℚ} (h : SameRoots p q) (lower upper : ℚ) :
    realRoots q lower upper = realRoots p lower upper := by
  ext x
  simp only [SturmRootsSoundness.realRoots, Set.mem_ofPred_eq, sameRoots_iff.mp h x]

theorem SameRoots.eval {p q : List ℚ} (h : SameRoots p q) (x : ℚ) :
    (toPoly q).eval x = 0 ↔ (toPoly p).eval x = 0 := by
  rw [← aeval_ratCast, ← aeval_ratCast, sameRoots_iff.mp h]

/-- The subdivided polynomial exists and has the roots of the original. -/
theorem isolationCoefficients_spec {coefficients : List ℚ}
    (hdeg : 0 < (toPoly coefficients).natDegree) (squareFree : Bool) :
    ∃ q, isolationCoefficients coefficients squareFree = .ok q ∧ toPoly q ≠ 0 ∧
      SameRoots coefficients q := by
  unfold isolationCoefficients
  split
  · exact ⟨coefficients, rfl, fun h0 => by simp [h0] at hdeg, fun x => Iff.rfl⟩
  · obtain ⟨q, hq, _, hne, hroots⟩ := polynomialSquareFreePart_spec hdeg
    exact ⟨q, hq, hne, hroots⟩

/-- An isolated root is the only one of the closed interval. -/
theorem Isolates.existsUnique {p : List ℚ} {targetWidth : ℚ} {interval : RationalInterval}
    (h : Isolates p targetWidth interval) :
    ∃! x : ℝ, interval.Contains x ∧ aeval x (toPoly p) = 0 := by
  obtain ⟨x, hx⟩ := Set.ncard_eq_one.mp h.one
  have hmem : x ∈ realRoots p interval.lower interval.upper := hx ▸ Set.mem_singleton x
  refine ⟨x, ⟨⟨hmem.1.le, hmem.2.1.le⟩, hmem.2.2⟩, fun y hy => ?_⟩
  have hlower : (interval.lower : ℝ) ≠ y := by
    rintro rfl
    exact h.lowerNotRoot ((aeval_ratCast p _).mp hy.2)
  have hupper : y ≠ interval.upper := by
    rintro rfl
    exact h.upperNotRoot ((aeval_ratCast p _).mp hy.2)
  have hy' : y ∈ realRoots p interval.lower interval.upper :=
    ⟨lt_of_le_of_ne hy.1.1 hlower, lt_of_le_of_ne hy.1.2 hupper, hy.2⟩
  rw [hx] at hy'
  exact hy'

/-- A finished partition for the subdivided polynomial is one for the original. -/
theorem Partition.transfer {p q : List ℚ} (hroots : SameRoots p q) {lower upper targetWidth : ℚ}
    {isolated : List RationalInterval} (h : Partition q lower upper targetWidth [] isolated) :
    Partition p lower upper targetWidth [] isolated := by
  refine ⟨fun _ hi => (List.not_mem_nil hi).elim, fun interval hmem =>
    ?_, h.ordered, fun x hx => ?_⟩
  · have hiso := h.isolates interval hmem
    refine ⟨hiso.width, ?_, ?_, ?_⟩
    · exact fun h0 => hiso.lowerNotRoot ((hroots.eval _).mpr h0)
    · exact fun h0 => hiso.upperNotRoot ((hroots.eval _).mpr h0)
    · rw [← hroots.realRoots]
      exact hiso.one
  · exact h.covers x (by rwa [hroots.realRoots])

/-- A finished partition is sorted already. -/
theorem Partition.insertionSort {p : List ℚ} {lower upper targetWidth : ℚ}
    {isolated : List RationalInterval} (h : Partition p lower upper targetWidth [] isolated) :
    isolated.insertionSort (fun left right => left.lower ≤ right.lower) = isolated := by
  refine List.Pairwise.insertionSort_eq ?_
  have hordered := h.ordered
  simp only [spans, List.map_nil, List.append_nil, List.pairwise_map] at hordered
  exact hordered.imp fun {a b} hab => a.ordered.trans hab

/-- Every run leaves a finished partition or refuses for its input or budget. -/
theorem exactSturmIsolateRoots_partition (coefficients : List ℚ) (lower upper targetWidth : ℚ)
    (maximumDepth : ℕ) :
    Refuses Expected (exactSturmIsolateRoots coefficients lower upper targetWidth maximumDepth) ∧
      ∀ intervals,
        exactSturmIsolateRoots coefficients lower upper targetWidth maximumDepth = .ok intervals →
        Partition coefficients lower upper targetWidth [] intervals := by
  -- what the loop does from the whole interval
  have hloop : ∀ initial, exactSturmRootCount coefficients lower upper = .ok initial →
      ∃ q, isolationCoefficients coefficients initial.squareFree = .ok q ∧
        SameRoots coefficients q ∧
        Refuses Expected (isolateLoop q targetWidth maximumDepth
          [⟨lower, upper, initial.distinctRealRoots, 0⟩] []) ∧
        ∀ result, isolateLoop q targetWidth maximumDepth
          [⟨lower, upper, initial.distinctRealRoots, 0⟩] [] = .ok result →
          Partition q lower upper targetWidth [] result := by
    intro initial hinitial
    have hcount := exactSturmRootCount_counted hinitial
    obtain ⟨q, hq, hqne, hroots⟩ := isolationCoefficients_spec hcount.nonconstant initial.squareFree
    have hstart : Partition q lower upper targetWidth
        [⟨lower, upper, initial.distinctRealRoots, 0⟩] [] := by
      refine ⟨fun item hitem => ?_, fun _ hi => (List.not_mem_nil hi).elim, ?_, fun x hx => ?_⟩
      · rw [List.mem_singleton.mp hitem]
        refine ⟨hcount.ordered, ?_, ?_, ?_⟩
        · exact fun h0 => hcount.lowerNotRoot ((hroots.eval _).mp h0)
        · exact fun h0 => hcount.upperNotRoot ((hroots.eval _).mp h0)
        · rw [hroots.realRoots]
          exact hcount.roots
      · exact List.pairwise_singleton _ _
      · exact ⟨(lower, upper), List.mem_singleton.mpr rfl, hx.1, hx.2.1⟩
    exact ⟨q, hq, hroots, isolateLoop_spec hqne hstart⟩
  unfold exactSturmIsolateRoots
  constructor
  · refine (refuses_check ⟨by decide, by decide, nofun⟩).bind fun _ _ => ?_
    refine (refuses_exactSturmRootCount _ _ _).bind fun initial hinitial => ?_
    obtain ⟨q, hq, _, hrefuses, _⟩ := hloop initial hinitial
    rw [hq, ok_bind]
    exact hrefuses.bind fun _ _ => Refuses.ok _
  · intro intervals hrun
    obtain ⟨_, _, hrun⟩ := bind_eq_ok hrun
    obtain ⟨initial, hinitial, hrun⟩ := bind_eq_ok hrun
    obtain ⟨q, hq, hroots, _, hpart⟩ := hloop initial hinitial
    rw [hq, ok_bind] at hrun
    obtain ⟨isolated, hisolated, hrun⟩ := bind_eq_ok hrun
    cases hrun
    have hfinal := hpart isolated hisolated
    rw [hfinal.insertionSort]
    exact hfinal.transfer hroots

/-- **Isolation.** The intervals are ordered with disjoint interiors, narrow, and
each encloses one root of the original polynomial, which is no endpoint; no
root of the requested interval is missed, and no internal check refuses. -/
theorem exactSturmIsolateRoots_isolates (coefficients : List ℚ) (lower upper targetWidth : ℚ)
    (maximumDepth : ℕ) :
    (∀ intervals,
      exactSturmIsolateRoots coefficients lower upper targetWidth maximumDepth = .ok intervals →
      intervals.Pairwise (fun a b => a.lower ≤ b.lower ∧ a.upper ≤ b.lower) ∧
      (∀ interval ∈ intervals, interval.upper - interval.lower ≤ targetWidth ∧
        (toPoly coefficients).eval interval.lower ≠ 0 ∧
        (toPoly coefficients).eval interval.upper ≠ 0 ∧
        ∃! x : ℝ, interval.Contains x ∧ aeval x (toPoly coefficients) = 0) ∧
      ∀ x ∈ realRoots coefficients lower upper, ∃ interval ∈ intervals, interval.Contains x) ∧
    exactSturmIsolateRoots coefficients lower upper targetWidth maximumDepth ≠
      .error (.error notConserved) ∧
    exactSturmIsolateRoots coefficients lower upper targetWidth maximumDepth ≠
      .error (.error notExact) := by
  have hspec := exactSturmIsolateRoots_partition coefficients lower upper targetWidth maximumDepth
  refine ⟨fun intervals hrun => ?_, fun herr => ?_, fun herr => ?_⟩
  · have hpart := hspec.2 intervals hrun
    have hordered := hpart.ordered
    simp only [spans, List.map_nil, List.append_nil, List.pairwise_map] at hordered
    refine ⟨hordered.imp fun {a b} hab => ⟨a.ordered.trans hab, hab⟩, fun interval hmem => ?_,
      fun x hx => ?_⟩
    · have hiso := hpart.isolates interval hmem
      exact ⟨hiso.width, hiso.lowerNotRoot, hiso.upperNotRoot, hiso.existsUnique⟩
    · obtain ⟨span, hspan, hin⟩ := hpart.covers x hx
      simp only [spans, List.map_nil, List.append_nil, List.mem_map] at hspan
      obtain ⟨interval, hmem, rfl⟩ := hspan
      exact ⟨interval, hmem, hin.1.le, hin.2.le⟩
  · exact (hspec.1 _ herr).1 rfl
  · exact (hspec.1 _ herr).2.1 rfl

/-- A double root at one and a simple root at two, after exact removal of the repeated factor. -/
theorem exactSturmIsolateRoots_isolates_double :
    exactSturmIsolateRoots [-2, 5, -4, 1] (-3) 5 (1 / 2) 20 =
        .ok [⟨23 / 27, 31 / 27, by norm_num⟩, ⟨17 / 9, 7 / 3, by norm_num⟩] ∧
      ∃! x : ℝ, (⟨23 / 27, 31 / 27, by norm_num⟩ : RationalInterval).Contains x ∧
        aeval x (toPoly [-2, 5, -4, 1]) = 0 := by
  have hrun : exactSturmIsolateRoots [-2, 5, -4, 1] (-3) 5 (1 / 2) 20 =
      .ok [⟨23 / 27, 31 / 27, by norm_num⟩, ⟨17 / 9, 7 / 3, by norm_num⟩] := by
    decide +kernel
  refine ⟨hrun, ?_⟩
  exact (((exactSturmIsolateRoots_isolates _ _ _ _ _).1 _ hrun).2.1 _ List.mem_cons_self).2.2.2

end Xcelerator.Numerics.RootIsolationSoundness
