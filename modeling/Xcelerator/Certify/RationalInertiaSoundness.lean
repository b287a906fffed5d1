import Mathlib
import Xcelerator.Numerics.SymmetricInertiaSoundness
import Xcelerator.Certify.RationalInertia

/-! # The rational elimination never fails and counts eigenvalues

Every operation on the way has a result, so the loop ends with counts. Each turn
splits a pivot block off every enclosed symmetric array at once; the counts of a
finished run are the signature, those of a stopped run a lower bound. -/

namespace Xcelerator.Certify.RationalInertiaSoundness
open Xcelerator.Foundations.Machine (bind_eq_ok ok_bind)
open Xcelerator.Foundations.Inertia Xcelerator.Foundations.Workspace
open Xcelerator.Numerics.Interval (RationalInterval)
open Xcelerator.Certify.Records Xcelerator.Certify.RationalInertia
open Xcelerator.Numerics.Interval.RationalInterval (contains_point)
open Xcelerator.Numerics.SymmetricInertiaSoundness
  (schurOne_symm schurTwo_symm array trailing_array)

@[simp] theorem verified_ok {α : Type} (context : String) (v : α) :
    verified context (.ok v) = .ok v := rfl

@[simp] theorem lift_ok {α : Type} (v : α) : lift (.ok v : Result α) = .ok v := rfl

/-! ## Pivot blocks -/

/-- The strict sign of the enclosure is the sign of the number. -/
def SignOf (v : RationalInterval) (t : ℝ) : Prop :=
  if v.isStrictlyPositive then 0 < t else t < 0

theorem SignOf.of_contains {v : RationalInterval} {t : ℝ} (h : hasStrictSign v = true)
    (ht : v.Contains t) : SignOf v t := by
  unfold SignOf
  split
  · rename_i hpos
    exact ht.pos hpos
  · rename_i hpos
    simp only [hasStrictSign, Bool.or_eq_true] at h
    exact ht.negative (h.resolve_left hpos)

theorem lowRoot_le_highRoot (x y z : ℝ) : lowRoot x y z ≤ highRoot x y z := by
  unfold lowRoot highRoot
  have := Real.sqrt_nonneg ((x - z) ^ 2 + y ^ 2 * 4)
  linarith

theorem lowRoot_add_highRoot (x y z : ℝ) : lowRoot x y z + highRoot x y z = x + z := by
  unfold lowRoot highRoot
  ring

theorem lowRoot_mul_highRoot (x y z : ℝ) : lowRoot x y z * highRoot x y z = x * z - y ^ 2 := by
  have hroot : √((x - z) ^ 2 + y ^ 2 * 4) ^ 2 = (x - z) ^ 2 + y ^ 2 * 4 :=
    Real.sq_sqrt (by positivity)
  unfold lowRoot highRoot
  linear_combination (-1 / 4) * hroot

theorem rootEnclosures_spec (a b c : RationalInterval) :
    ∃ lower upper, rootEnclosures a b c = .ok (lower, upper) ∧
      ∀ x y z : ℝ, a.Contains x → b.Contains y → c.Contains z →
        lower.Contains (lowRoot x y z) ∧ upper.Contains (highRoot x y z) := by
  have htwo : (RationalInterval.point 2).containsZero = false := by decide
  have hnonneg : 0 ≤ ((a.sub c).square.add (b.square.mul (RationalInterval.point 4))).lower := by
    have h1 := (a.sub c).square_nonneg
    have h2 := b.square_nonneg
    have h3 : 0 ≤ b.square.upper := h2.trans b.square.ordered
    simp only [RationalInterval.add, RationalInterval.mul, RationalInterval.point]
    exact add_nonneg h1 (le_min (le_min (by positivity) (by positivity))
      (le_min (by positivity) (by positivity)))
  obtain ⟨root, hroot, hsqrt⟩ :=
    RationalInterval.sqrtNonnegative_spec (show 256 ≤ 1000000 by decide) hnonneg
  obtain ⟨lower, hlower, hlow⟩ := RationalInterval.div_spec ((a.add c).sub root) htwo
  obtain ⟨upper, hupper, hupp⟩ := RationalInterval.div_spec ((a.add c).add root) htwo
  refine ⟨lower, upper, ?_, fun x y z hx hy hz => ?_⟩
  · unfold rootEnclosures
    simp only [hroot, hlower, hupper, verified_ok, ok_bind]
    rfl
  · have hfour : (RationalInterval.point 4).Contains 4 := by simpa using contains_point 4
    have htwo' : (RationalInterval.point 2).Contains 2 := by simpa using contains_point 2
    have hr := hsqrt _ ((hx.sub hz).square.add (hy.square.mul hfour))
    exact ⟨(hlow _ _ ((hx.add hz).sub hr) htwo').2, (hupp _ _ ((hx.add hz).add hr) htwo').2⟩

/-- The determinant is at most the square of the row-sum norm. -/
theorem determinant_le_bound {a b c : RationalInterval} {bound : ℚ}
    (hbound : max (a.magnitude + b.magnitude) (c.magnitude + b.magnitude) = bound) :
    -((a.mul c).sub b.square).upper ≤ bound * bound ∧ ((a.mul c).sub b.square).lower ≤
      bound * bound := by
  -- one point of the box is enough
  have ha : a.Contains a.lower := ⟨le_rfl, by exact_mod_cast a.ordered⟩
  have hb : b.Contains b.lower := ⟨le_rfl, by exact_mod_cast b.ordered⟩
  have hc : c.Contains c.lower := ⟨le_rfl, by exact_mod_cast c.ordered⟩
  have hdet := (ha.mul hc).sub hb.square
  have habs := ha.abs_le_magnitude
  have hbbs := hb.abs_le_magnitude
  have hcbs := hc.abs_le_magnitude
  have hleft : (a.magnitude + b.magnitude : ℝ) ≤ bound := by
    exact_mod_cast hbound ▸ le_max_left (a.magnitude + b.magnitude) (c.magnitude + b.magnitude)
  have hright : (c.magnitude + b.magnitude : ℝ) ≤ bound := by
    exact_mod_cast hbound ▸ le_max_right (a.magnitude + b.magnitude) (c.magnitude + b.magnitude)
  have hdetBound : |(a.lower : ℝ) * c.lower - (b.lower : ℝ) ^ 2| ≤ (bound : ℝ) * bound := by
    have h0 := abs_nonneg (a.lower : ℝ)
    have h1 := abs_nonneg (b.lower : ℝ)
    have h2 := abs_nonneg (c.lower : ℝ)
    calc |(a.lower : ℝ) * c.lower - (b.lower : ℝ) ^ 2|
        ≤ |(a.lower : ℝ)| * |(c.lower : ℝ)| + |(b.lower : ℝ)| * |(b.lower : ℝ)| := by
          refine (abs_sub _ _).trans (le_of_eq ?_)
          rw [abs_mul, sq, abs_mul]
      _ ≤ (|(a.lower : ℝ)| + |(b.lower : ℝ)|) * (|(c.lower : ℝ)| + |(b.lower : ℝ)|) := by nlinarith
      _ ≤ (bound : ℝ) * bound := mul_le_mul (by linarith) (by linarith) (by linarith) (by linarith)
  obtain ⟨hneg, hpos⟩ := abs_le.mp hdetBound
  constructor
  · have h : -(((a.mul c).sub b.square).upper : ℝ) ≤ (bound : ℝ) * bound := by linarith [hdet.2]
    exact_mod_cast h
  · have h : (((a.mul c).sub b.square).lower : ℝ) ≤ (bound : ℝ) * bound := by linarith [hdet.1]
    exact_mod_cast h

/-- A separation from zero that the norm admits. -/
theorem separated {d bound : ℚ} (hd : 0 < d) (hle : d ≤ bound * bound) (hb : 0 ≤ bound) :
    0 < d / bound ∧ d / bound ≤ bound := by
  have hpos : 0 < bound := by
    rcases hb.lt_or_eq with h | h
    · exact h
    · rw [← h] at hle
      linarith
  exact ⟨div_pos hd hpos, (div_le_iff₀ hpos).mpr hle⟩

/-- What a certified pair of eigenvalue enclosures says of every block. -/
structure Signs (lower upper a b c : RationalInterval) : Prop where
  lowerSigned : hasStrictSign lower = true
  upperSigned : hasStrictSign upper = true
  low : ∀ x y z : ℝ, a.Contains x → b.Contains y → c.Contains z → SignOf lower (lowRoot x y z)
  high : ∀ x y z : ℝ, a.Contains x → b.Contains y → c.Contains z → SignOf upper (highRoot x y z)

theorem normEnclosures_spec {a b c : RationalInterval}
    (hdet : ((a.mul c).sub b.square).containsZero = false) :
    ∃ found, normEnclosures a b c ((a.mul c).sub b.square) = .ok found ∧
      ∀ lower upper, found = some (lower, upper) → Signs lower upper a b c := by
  obtain ⟨hup, hlow⟩ := determinant_le_bound (a := a) (b := b) (c := c) rfl
  have hbound0 : 0 ≤ max (a.magnitude + b.magnitude) (c.magnitude + b.magnitude) := by
    refine le_max_of_le_left (add_nonneg ?_ ?_) <;> exact le_max_of_le_left (abs_nonneg _)
  have hcontains : ∀ x y z : ℝ, a.Contains x → b.Contains y → c.Contains z →
      ((a.mul c).sub b.square).Contains (lowRoot x y z * highRoot x y z) := by
    intro x y z hx hy hz
    rw [lowRoot_mul_highRoot]
    exact (hx.mul hz).sub hy.square
  have hsum : ∀ x y z : ℝ, a.Contains x → c.Contains z →
      (a.add c).Contains (lowRoot x y z + highRoot x y z) := by
    intro x y z hx hz
    rw [lowRoot_add_highRoot]
    exact hx.add hz
  unfold normEnclosures
  generalize (a.mul c).sub b.square = determinant at hdet hup hlow hcontains ⊢
  generalize max (a.magnitude + b.magnitude) (c.magnitude + b.magnitude) =
    bound at hbound0 hup hlow ⊢
  dsimp only
  split
  · exact ⟨none, rfl, nofun⟩
  by_cases hneg : determinant.isStrictlyNegative = true
  · -- eigenvalues of opposite signs
    have hd : determinant.upper < 0 := of_decide_eq_true hneg
    obtain ⟨hsep, hle⟩ := separated (neg_pos.mpr hd) hup hbound0
    rw [if_pos hneg]
    simp only [RationalInterval.new, dif_pos hle, dif_pos (neg_le_neg hle), verified_ok,
      ok_bind, hneg, if_true]
    refine ⟨_, rfl, ?_⟩
    rintro lower upper ⟨⟩
    refine ⟨by simp [hasStrictSign, RationalInterval.isStrictlyNegative, hsep],
      by simp [hasStrictSign, RationalInterval.isStrictlyPositive, hsep], fun x y z hx hy hz => ?_,
      fun x y z hx hy hz => ?_⟩ <;>
      have hprod := (hcontains x y z hx hy hz).negative hneg <;>
      have hord := lowRoot_le_highRoot x y z
    · rw [SignOf, if_neg (by simp [RationalInterval.isStrictlyPositive]; linarith)]
      by_contra hge
      nlinarith [not_lt.mp hge]
    · rw [SignOf, if_pos (by simp [RationalInterval.isStrictlyPositive, hsep])]
      by_contra hge
      nlinarith [not_lt.mp hge]
  · have hd : 0 < determinant.lower := by
      rcases RationalInterval.containsZero_false hdet with h | h
      · exact h
      · exact absurd (decide_eq_true h) hneg
    have hdpos : determinant.isStrictlyPositive = true := decide_eq_true hd
    obtain ⟨hsep, hle⟩ := separated hd hlow hbound0
    rw [if_neg hneg]
    simp only [RationalInterval.new, dif_pos hle, dif_pos (neg_le_neg hle), verified_ok,
      ok_bind, hneg]
    by_cases htrace : (a.add c).isStrictlyPositive = true
    · simp only [htrace, if_true]
      refine ⟨_, rfl, ?_⟩
      rintro lower upper ⟨⟩
      refine ⟨by simp [hasStrictSign, RationalInterval.isStrictlyPositive, hsep],
        by simp [hasStrictSign, RationalInterval.isStrictlyPositive, hsep], fun x y z hx hy hz =>
          ?_,
        fun x y z hx hy hz => ?_⟩ <;>
        have hprod := (hcontains x y z hx hy hz).pos hdpos <;>
        have htr := (hsum x y z hx hz).pos htrace <;>
        rw [SignOf, if_pos (by simp [RationalInterval.isStrictlyPositive, hsep])] <;>
        by_contra hge <;> nlinarith [not_lt.mp hge]
    · by_cases htrace' : (a.add c).isStrictlyNegative = true
      · simp only [htrace, htrace', if_true]
        refine ⟨_, rfl, ?_⟩
        rintro lower upper ⟨⟩
        refine ⟨by simp [hasStrictSign, RationalInterval.isStrictlyNegative, hsep],
          by simp [hasStrictSign, RationalInterval.isStrictlyNegative, hsep], fun x y z hx hy hz =>
            ?_,
          fun x y z hx hy hz => ?_⟩ <;>
          have hprod := (hcontains x y z hx hy hz).pos hdpos <;>
          have htr := (hsum x y z hx hz).negative htrace' <;>
          rw [SignOf, if_neg (by simp [RationalInterval.isStrictlyPositive]; linarith)] <;>
          by_contra hge <;> nlinarith [not_lt.mp hge]
      · simp only [htrace, htrace']
        exact ⟨none, rfl, nofun⟩

theorem signedEnclosures_spec {a b c : RationalInterval} (scaleInvariant : Bool)
    (hdet : ((a.mul c).sub b.square).containsZero = false) :
    ∃ found, signedEnclosures a b c ((a.mul c).sub b.square) scaleInvariant = .ok found ∧
      ∀ lower upper, found = some (lower, upper) → Signs lower upper a b c := by
  obtain ⟨lower, upper, hroots, hcontains⟩ := rootEnclosures_spec a b c
  unfold signedEnclosures
  simp only [hroots, ok_bind]
  by_cases hsigned : (!hasStrictSign lower || !hasStrictSign upper) = true
  · rw [if_pos hsigned]
    cases scaleInvariant with
    | false => exact ⟨none, rfl, nofun⟩
    | true => exact normEnclosures_spec hdet
  · rw [if_neg hsigned]
    simp only [Bool.or_eq_true, Bool.not_eq_true', not_or, Bool.not_eq_false] at hsigned
    refine ⟨_, rfl, ?_⟩
    rintro lower upper ⟨⟩
    exact ⟨hsigned.1, hsigned.2,
      fun x y z hx hy hz => .of_contains hsigned.1 (hcontains x y z hx hy hz).1,
      fun x y z hx hy hz => .of_contains hsigned.2 (hcontains x y z hx hy hz).2⟩

/-- What a certified block says of every enclosed block. -/
structure Certified (block : CertifiedTwoByTwoPivot) (a b c : RationalInterval) : Prop where
  signs : Signs block.lowerEigenvalue block.upperEigenvalue a b c
  inverse : ∀ x y z : ℝ, a.Contains x → b.Contains y → c.Contains z →
    x * z - y ^ 2 ≠ 0 ∧ block.inverse11.Contains (z / (x * z - y ^ 2)) ∧
      block.inverse12.Contains (-y / (x * z - y ^ 2)) ∧
      block.inverse22.Contains (x / (x * z - y ^ 2))

theorem certifyTwoByTwoPivot_spec (matrix : Cells RationalInterval) (first second : Nat)
    (scaleInvariant : Bool) :
    ∃ found, certifyTwoByTwoPivot matrix first second scaleInvariant = .ok found ∧
      ∀ block, found = some block →
        Certified block (matrix first first) (matrix first second) (matrix second second) := by
  unfold certifyTwoByTwoPivot
  generalize matrix first first = a
  generalize matrix first second = b
  generalize matrix second second = c
  dsimp only
  split
  · exact ⟨none, rfl, by simp⟩
  rename_i hzero
  have hdet := Bool.eq_false_of_not_eq_true hzero
  obtain ⟨found, hfound, hsigns⟩ := signedEnclosures_spec scaleInvariant hdet
  obtain ⟨i11, h11, hc11⟩ := RationalInterval.div_spec c hdet
  obtain ⟨i12, h12, hc12⟩ := RationalInterval.div_spec b.neg hdet
  obtain ⟨i22, h22, hc22⟩ := RationalInterval.div_spec a hdet
  simp only [hfound, ok_bind]
  cases found with
  | none => exact ⟨none, rfl, by simp⟩
  | some pair =>
    obtain ⟨lower, upper⟩ := pair
    simp only [h11, h12, h22, verified_ok, ok_bind]
    refine ⟨_, rfl, fun block hblock => ?_⟩
    rw [← Option.some.inj hblock]
    refine ⟨hsigns _ _ rfl, fun x y z hx hy hz => ?_⟩
    have hd := (hx.mul hz).sub hy.square
    exact ⟨(hc11 _ _ hz hd).1, (hc11 _ _ hz hd).2, (hc12 _ _ hy.neg hd).2, (hc22 _ _ hx hd).2⟩

theorem searchBlock_spec (schur : Cells RationalInterval) (scaleInvariant : Bool)
    (candidates : List (Nat × Nat)) :
    ∃ found, searchBlock schur scaleInvariant candidates = .ok found ∧
      ∀ first second, found = some (first, second) → (first, second) ∈ candidates ∧
        ∃ block, certifyTwoByTwoPivot schur first second scaleInvariant = .ok (some block) := by
  induction candidates with
  | nil => exact ⟨none, rfl, nofun⟩
  | cons pair rest ih =>
    obtain ⟨found, hfound, _⟩ := certifyTwoByTwoPivot_spec schur pair.1 pair.2 scaleInvariant
    unfold searchBlock
    simp only [hfound, ok_bind]
    cases found with
    | some block =>
      refine ⟨_, rfl, ?_⟩
      rintro first second ⟨⟩
      exact ⟨by simp, block, hfound⟩
    | none =>
      obtain ⟨later, hlater, hspec⟩ := ih
      exact ⟨later, hlater, fun first second h =>
        ⟨List.mem_cons_of_mem _ (hspec first second h).1, (hspec first second h).2⟩⟩

theorem mem_pairs {k n i j : Nat} (h : (i, j) ∈ pairs k n) : k ≤ i ∧ i < j ∧ j < n := by
  simp only [pairs, List.mem_flatMap, List.mem_map, List.mem_range'_1, Prod.mk.injEq] at h
  obtain ⟨i', hi, j', hj, rfl, rfl⟩ := h
  omega

theorem selectDiagonal_spec {s : State} {n selected : Nat}
    (h : selectDiagonal s n = some selected) :
    s.pivotIndex ≤ selected ∧ selected < n ∧ hasStrictSign (s.schur selected selected) = true := by
  have hmem := List.mem_range'_1.mp (List.mem_of_find?_eq_some h)
  have hsign := List.find?_some h
  exact ⟨hmem.1, by omega, hsign⟩

/-! ## Counting -/

/-- The counts follow the signs of the pivots. -/
theorem count_eq {s : State} {pivot : RationalInterval} (h : hasStrictSign pivot = true)
    (message : String) :
    s.count pivot message = .ok { s with
      pivots := s.pivots ++ [pivot]
      positive := s.positive + if pivot.isStrictlyPositive then 1 else 0
      negative := s.negative + if pivot.isStrictlyPositive then 0 else 1 } := by
  unfold State.count
  dsimp only
  split
  · rfl
  · rename_i hpos
    simp only [hasStrictSign, Bool.or_eq_true] at h
    rw [if_pos (h.resolve_left hpos)]
    rfl

theorem SignOf.counts {v : RationalInterval} {t : ℝ} (h : SignOf v t) :
    (if v.isStrictlyPositive then 1 else 0) = (if 0 < t then 1 else 0 : Nat) ∧
      (if v.isStrictlyPositive then 0 else 1) = (if 0 < t then 0 else 1 : Nat) := by
  unfold SignOf at h
  split at h
  · rename_i hpos
    simp [hpos, h]
  · rename_i hpos
    simp [hpos, not_lt.mpr h.le]

theorem SignOf.ne_zero {v : RationalInterval} {t : ℝ} (h : SignOf v t) : t ≠ 0 := by
  unfold SignOf at h
  split at h
  · exact h.ne'
  · exact h.ne

/-! ## The enclosure invariant -/

/-- The block of the workspace from `k` on encloses a symmetric array. -/
structure Enclosed (a : Cells RationalInterval) (n k : Nat) (S : Nat → Nat → ℝ) : Prop where
  symm : ∀ i j, S i j = S j i
  entry : ∀ i j, k ≤ i → i < n → k ≤ j → j < n → (a i j).Contains (S i j)

theorem symmetricSwap_apply (a : Cells RationalInterval) {n first second r c : Nat} (hr : r < n)
    (hc : c < n) (hf : first < n) (hs : second < n) :
    symmetricSwap a n first second r c =
      a (Equiv.swap first second r) (Equiv.swap first second c) := by
  unfold symmetricSwap
  split
  · rename_i h
    simp [h]
  · exact swapColumns_swapRows a hr hc hf hs

theorem Enclosed.swap {a : Cells RationalInterval} {n k first second : Nat} {S : Nat → Nat → ℝ}
    (h : Enclosed a n k S) (hf : k ≤ first ∧ first < n) (hs : k ≤ second ∧ second < n) :
    Enclosed (symmetricSwap a n first second) n k (exchanged S first second) := by
  refine ⟨fun i j => h.symm _ _, fun i j hi hin hj hjn => ?_⟩
  rw [symmetricSwap_apply a hin hjn hf.2 hs.2]
  have hbi := swap_bounds hf hs ⟨hi, hin⟩
  have hbj := swap_bounds hf hs ⟨hj, hjn⟩
  exact h.entry _ _ hbi.1 hbi.2 hbj.1 hbj.2

/-- Cells and mirror images written by an update enclose a symmetric array. -/
theorem enclosed_of_mirrored {a : Cells RationalInterval} {n k : Nat} {S : Nat → Nat → ℝ}
    (hS : ∀ i j, S i j = S j i)
    (h : ∀ i j, k ≤ i → i ≤ j → j < n → (a i j).Contains (S i j) ∧ a j i = a i j) :
    Enclosed a n k S := by
  refine ⟨hS, fun i j hi hin hj hjn => ?_⟩
  rcases le_total i j with hij | hij
  · exact (h i j hi hij hjn).1
  · rw [(h j i hj hij hin).2, hS]
    exact (h j i hj hij hin).1

/-- The one by one Schur loop: total, and an enclosure of every complement. -/
theorem updateOne_spec {a : Cells RationalInterval} {n k : Nat} (hk : k < n)
    (hsign : hasStrictSign (a k k) = true) :
    ∃ a', (upperCells (k + 1) n).foldlM (mirrored (updateOne k (a k k))) a = .ok a' ∧
      ∀ S, Enclosed a n k S → Enclosed a' n (k + 1) (schurOne S k) := by
  have hzero : (a k k).containsZero = false := by
    simp only [hasStrictSign, Bool.or_eq_true, RationalInterval.isStrictlyPositive,
      RationalInterval.isStrictlyNegative, decide_eq_true_eq] at hsign
    unfold RationalInterval.containsZero
    rcases hsign with h | h
    · simp [not_le.mpr h]
    · simp [not_le.mpr h]
  obtain ⟨a', ha', hall⟩ := upperCells_mirrored (updateOne k (a k k))
    (fun i j v => ∀ S, Enclosed a n k S → v.Contains (schurOne S k i j)) a (k + 1) n
    (by
      intro b hfront i j hi hij hj hcell
      obtain ⟨q, hq, hdiv⟩ := RationalInterval.div_spec ((a i k).mul (a j k)) hzero
      refine ⟨(a i j).sub q, ?_, fun S hS => ?_⟩
      · unfold updateOne
        rw [hfront i k (by omega), hfront j k (by omega), hcell]
        simp only [hq, verified_ok, ok_bind]
        rfl
      · have hik := hS.entry i k (by omega) (by omega) le_rfl hk
        have hjk := hS.entry j k (by omega) hj le_rfl hk
        have hkk := hS.entry k k le_rfl hk le_rfl hk
        unfold schurOne
        rw [mul_one_div]
        exact (hS.entry i j (by omega) (by omega) (by omega) hj).sub (hdiv _ _ (hik.mul hjk) hkk).2)
  refine ⟨a', ha', fun S hS => ?_⟩
  exact enclosed_of_mirrored (schurOne_symm hS.symm k)
    fun i j hi hij hj => ⟨(hall i j hi hij hj).1 S hS, (hall i j hi hij hj).2⟩

theorem updateTwo_spec {a : Cells RationalInterval} {n k : Nat} {block : CertifiedTwoByTwoPivot}
    (hk : k + 1 < n) (hblock : Certified block (a k k) (a k (k + 1)) (a (k + 1) (k + 1))) :
    ∃ a', (upperCells (k + 2) n).foldlM (mirrored (updateTwo k block)) a = .ok a' ∧
      ∀ S, Enclosed a n k S → Enclosed a' n (k + 2) (schurTwo S k) := by
  obtain ⟨a', ha', hall⟩ := upperCells_mirrored (updateTwo k block)
    (fun i j v => ∀ S, Enclosed a n k S → v.Contains (schurTwo S k i j)) a (k + 2) n
    (by
      intro b hfront i j hi hij hj hcell
      refine ⟨_, rfl, fun S hS => ?_⟩
      rw [hfront i k (by omega), hfront j k (by omega), hfront i (k + 1) (by omega),
        hfront j (k + 1) (by omega), hcell]
      have hentry : ∀ r c, k ≤ r → r < n → k ≤ c → c < n → (a r c).Contains (S r c) := hS.entry
      obtain ⟨_, h11, h12, h22⟩ :=
        hblock.inverse _ _ _ (hentry k k le_rfl (by omega) le_rfl (by omega))
        (hentry k (k + 1) le_rfl (by omega) (by omega) hk)
        (hentry (k + 1) (k + 1) (by omega) hk (by omega) hk)
      have hi0 := hentry i k (by omega) (by omega) le_rfl (by omega)
      have hi1 := hentry i (k + 1) (by omega) (by omega) (by omega) hk
      have hj0 := hentry j k (by omega) hj le_rfl (by omega)
      have hj1 := hentry j (k + 1) (by omega) hj (by omega) hk
      exact (hentry i j (by omega) (by omega) (by omega) hj).sub
        (((((hi0.mul h11).mul hj0).add ((hi0.mul h12).mul hj1)).add ((hi1.mul h12).mul hj0)).add
          ((hi1.mul h22).mul hj1)))
  refine ⟨a', ha', fun S hS => ?_⟩
  exact enclosed_of_mirrored (schurTwo_symm hS.symm k)
    fun i j hi hij hj => ⟨(hall i j hi hij hj).1 S hS, (hall i j hi hij hj).2⟩

/-! ## The run -/

/-- Every index in front of the pivot has been counted once. -/
structure Counted (n : Nat) (s : State) : Prop where
  bound : s.pivotIndex ≤ n
  pivots : s.pivots.length = s.pivotIndex
  counts : s.positive + s.negative = s.pivotIndex

/-- One turn splits its pivots off every enclosed array. -/
structure Turn (n : Nat) (s s' : State) : Prop where
  advances : s.pivotIndex < s'.pivotIndex
  counted : Counted n s → Counted n s'
  signature : ∀ S, Enclosed s.schur n s.pivotIndex S →
    ∃ S' p q, Enclosed s'.schur n s'.pivotIndex S' ∧
      s'.positive = s.positive + p ∧ s'.negative = s.negative + q ∧
      ∀ p' q', HasSignature (trailing S' s'.pivotIndex (n - s'.pivotIndex)) p' q' →
        HasSignature (trailing S s.pivotIndex (n - s.pivotIndex)) (p + p') (q + q')

theorem sign_total (v : RationalInterval) :
    (if v.isStrictlyPositive then 1 else 0) + (if v.isStrictlyPositive then 0 else 1) = 1 := by
  split <;> rfl

theorem pivotOne_turn {n selected : Nat} {s : State}
    (hsel : s.pivotIndex ≤ selected ∧ selected < n)
    (hsign : hasStrictSign (s.schur selected selected) = true) :
    ∃ s', pivotOne n s selected = .ok s' ∧ Turn n s s' := by
  obtain ⟨schur, pivots, positive, negative, k⟩ := s
  dsimp only at hsel hsign
  have hk : k < n := by omega
  have hpivot : symmetricSwap schur n k selected k k = schur selected selected := by
    rw [symmetricSwap_apply schur hk hk hk hsel.2, Equiv.swap_apply_left]
  obtain ⟨a', ha', henclosed⟩ := updateOne_spec (a := symmetricSwap schur n k selected) hk
    (by rwa [hpivot])
  have hcount := count_eq (s := ⟨symmetricSwap schur n k selected, pivots, positive, negative, k⟩)
    hsign "the selected interval pivot has a strict sign"
  rw [hpivot] at ha'
  have hrun : pivotOne n ⟨schur, pivots, positive, negative, k⟩ selected = .ok
      ⟨a', pivots ++ [schur selected selected],
        positive + (if (schur selected selected).isStrictlyPositive then 1 else 0),
        negative + (if (schur selected selected).isStrictlyPositive then 0 else 1), k + 1⟩ := by
    unfold pivotOne
    dsimp only
    rw [hpivot, hcount]
    simp only [ok_bind, ha', lift_ok]
    rfl
  refine ⟨_, hrun, Nat.lt_succ_self k, fun hc => ⟨hk, ?_, ?_⟩, fun S hS => ?_⟩
  · simpa using hc.pivots
  · have htotal := sign_total (schur selected selected)
    have hbefore := hc.counts
    dsimp only at hbefore ⊢
    omega
  · replace hS : Enclosed schur n k S := hS
    have hsw := hS.swap ⟨le_rfl, hk⟩ hsel
    have hentry := SignOf.of_contains hsign (hS.entry selected selected hsel.1 hsel.2 hsel.1 hsel.2)
    have hlead : exchanged S k selected k k = S selected selected := by simp [exchanged]
    refine ⟨_, _, _, henclosed _ hsw, rfl, rfl, fun p' q' hrest => ?_⟩
    have hwhole := hasSignature_schurOne hsw.symm (by rw [hlead]; exact hentry.ne_zero) hrest
    rw [hlead, ← hentry.counts.1, ← hentry.counts.2,
      show 1 + (n - (k + 1)) = n - k by omega] at hwhole
    have hback := hasSignature_exchanged ⟨le_rfl, by omega⟩ ⟨hsel.1, by omega⟩ hwhole
    exact hback

/-- After the two exchanges the leading block is the selected one. -/
theorem selected_block (a : Cells RationalInterval) {n k first second : Nat}
    (h : k ≤ first ∧ first < second ∧ second < n) (scaleInvariant : Bool) :
    certifyTwoByTwoPivot (symmetricSwap (symmetricSwap a n k first) n (k + 1) second) k (k + 1)
      scaleInvariant = certifyTwoByTwoPivot a first second scaleInvariant := by
  have hcell : ∀ r c, r < n → c < n →
      symmetricSwap (symmetricSwap a n k first) n (k + 1) second r c =
        a (Equiv.swap k first (Equiv.swap (k + 1) second r))
          (Equiv.swap k first (Equiv.swap (k + 1) second c)) := by
    intro r c hr hc
    have hbound : ∀ x, x < n → Equiv.swap (k + 1) second x < n := fun x hx =>
      (swap_bounds (k := 0) ⟨Nat.zero_le _, by omega⟩ ⟨Nat.zero_le _, h.2.2⟩ ⟨Nat.zero_le _, hx⟩).2
    rw [symmetricSwap_apply _ hr hc (by omega) h.2.2,
      symmetricSwap_apply a (hbound r hr) (hbound c hc) (by omega) (by omega)]
  have hlead : Equiv.swap k first (Equiv.swap (k + 1) second k) = first := by
    rw [Equiv.swap_apply_of_ne_of_ne (a := k + 1) (by omega) (by omega), Equiv.swap_apply_left]
  have hnext : Equiv.swap k first (Equiv.swap (k + 1) second (k + 1)) = second := by
    rw [Equiv.swap_apply_left, Equiv.swap_apply_of_ne_of_ne (by omega) (by omega)]
  unfold certifyTwoByTwoPivot
  rw [hcell k k (by omega) (by omega), hcell k (k + 1) (by omega) (by omega),
    hcell (k + 1) (k + 1) (by omega) (by omega), hlead, hnext]

theorem pivotTwo_turn {n first second : Nat} {scaleInvariant : Bool} {s : State}
    {found : CertifiedTwoByTwoPivot} (h : s.pivotIndex ≤ first ∧ first < second ∧ second < n)
    (hfound : certifyTwoByTwoPivot s.schur first second scaleInvariant = .ok (some found)) :
    ∃ s', pivotTwo n scaleInvariant s first second = .ok s' ∧ Turn n s s' := by
  obtain ⟨schur, pivots, positive, negative, k⟩ := s
  dsimp only at h hfound
  have hk : k + 1 < n := by omega
  rw [← selected_block schur h] at hfound
  set a := symmetricSwap (symmetricSwap schur n k first) n (k + 1) second with ha
  obtain ⟨_, hsame, hspec⟩ := certifyTwoByTwoPivot_spec a k (k + 1) scaleInvariant
  rw [hfound] at hsame
  have hblock := hspec found (Except.ok.inj hsame).symm
  obtain ⟨a', ha', henclosed⟩ := updateTwo_spec hk hblock
  have hadjusted : (if second = k then first else second) = second := if_neg (by omega)
  have hrun : pivotTwo n scaleInvariant ⟨schur, pivots, positive, negative, k⟩ first second = .ok
      ⟨a', pivots ++ [found.lowerEigenvalue] ++ [found.upperEigenvalue],
        positive + (if found.lowerEigenvalue.isStrictlyPositive then 1 else 0) +
          (if found.upperEigenvalue.isStrictlyPositive then 1 else 0),
        negative + (if found.lowerEigenvalue.isStrictlyPositive then 0 else 1) +
          (if found.upperEigenvalue.isStrictlyPositive then 0 else 1), k + 2⟩ := by
    unfold pivotTwo
    dsimp only
    rw [hadjusted, ← ha, hfound]
    simp only [lift_ok, ok_bind, count_eq hblock.signs.lowerSigned,
      count_eq hblock.signs.upperSigned, ha']
    rfl
  refine ⟨_, hrun, ?_, fun hc => ⟨hk, ?_, ?_⟩, fun S hS => ?_⟩
  · exact Nat.lt_add_of_pos_right (by decide)
  · simpa using hc.pivots
  · have hlower := sign_total found.lowerEigenvalue
    have hupper := sign_total found.upperEigenvalue
    have hbefore := hc.counts
    dsimp only at hbefore ⊢
    omega
  · replace hS : Enclosed schur n k S := hS
    have hsw1 := hS.swap ⟨le_rfl, by omega⟩ ⟨h.1, by omega⟩
    have hsw := hsw1.swap ⟨Nat.le_succ k, hk⟩ ⟨by omega, h.2.2⟩
    rw [← ha] at hsw
    set R := exchanged (exchanged S k first) (k + 1) second
    have hx := hsw.entry k k le_rfl (by omega) le_rfl (by omega)
    have hy := hsw.entry k (k + 1) le_rfl (by omega) (by omega) hk
    have hz := hsw.entry (k + 1) (k + 1) (by omega) hk (by omega) hk
    have hlow := hblock.signs.low _ _ _ hx hy hz
    have hhigh := hblock.signs.high _ _ _ hx hy hz
    refine ⟨_, _, _, henclosed _ hsw, add_assoc .., add_assoc .., fun p' q' hrest => ?_⟩
    have hwhole := hasSignature_schurTwo hsw.symm (hblock.inverse _ _ _ hx hy hz).1 hrest
    rw [← hlow.counts.1, ← hlow.counts.2, ← hhigh.counts.1, ← hhigh.counts.2,
      show 2 + (n - (k + 2)) = n - k by omega] at hwhole
    have hinner := hasSignature_exchanged (k := k) ⟨Nat.le_succ k, by omega⟩ ⟨by omega, by
      omega⟩ hwhole
    have hback := hasSignature_exchanged ⟨le_rfl, by omega⟩ ⟨h.1, by omega⟩ hinner
    exact hback

/-- One turn always has a result. -/
theorem step_spec (n : Nat) (scaleInvariant enforceBudget : Bool) (s : State) :
    (∃ s', step n scaleInvariant enforceBudget s = .ok (.inl s') ∧ Turn n s s') ∨
      ∃ reason, step n scaleInvariant enforceBudget s = .ok (.inr (s.stop n reason)) := by
  unfold step
  split
  · exact .inr ⟨_, rfl⟩
  cases hsel : selectDiagonal s n with
  | some selected =>
    obtain ⟨hlow, hhigh, hsign⟩ := selectDiagonal_spec hsel
    obtain ⟨s', hs', hturn⟩ := pivotOne_turn ⟨hlow, hhigh⟩ hsign
    exact .inl ⟨s', by simp only [hs', ok_bind]; rfl, hturn⟩
  | none =>
    obtain ⟨found, hfound, hspec⟩ := searchBlock_spec s.schur scaleInvariant (pairs s.pivotIndex n)
    cases found with
    | none => exact .inr ⟨_, by simp only [hfound, lift_ok, ok_bind]; rfl⟩
    | some pair =>
      obtain ⟨first, second⟩ := pair
      obtain ⟨hmem, block, hblock⟩ := hspec first second rfl
      obtain ⟨s', hs', hturn⟩ := pivotTwo_turn (mem_pairs hmem) hblock
      exact .inl ⟨s', by simp only [hfound, lift_ok, hs', ok_bind]; rfl, hturn⟩

theorem trailing_hermitian {S : Nat → Nat → ℝ} (hS : ∀ i j, S i j = S j i) (k d : Nat) :
    (trailing S k d).IsHermitian := by
  ext i j
  simp only [trailing, Matrix.conjTranspose_apply, Matrix.of_apply, star_trivial]
  exact hS _ _

theorem hasSignature_empty (S : Nat → Nat → ℝ) (k : Nat) : HasSignature (trailing S k 0) 0 0 :=
  ⟨fun i => i.elim0, LinearMap.id, ⟨fun _ _ h => h, fun x => by simp [dotProduct]⟩,
    by simp [positiveCount], by simp [negativeCount]⟩

/-- What a result states about the arrays a state encloses. -/
def Explains (n : Nat) (s : State) : IntervalInertiaResult → Prop
  | .conclusive positive negative pivots =>
    positive + negative = n ∧ pivots.length = n ∧
      ∀ S, Enclosed s.schur n s.pivotIndex S → ∃ p q, positive = s.positive + p ∧
        negative = s.negative + q ∧ HasSignature (trailing S s.pivotIndex (n - s.pivotIndex)) p q
  | .inconclusive _ positive negative zeroOrUnresolved _ _ =>
    0 < zeroOrUnresolved ∧ positive + negative + zeroOrUnresolved = n ∧
      ∀ S, Enclosed s.schur n s.pivotIndex S → ∃ p q, positive ≤ s.positive + p ∧
        negative ≤ s.negative + q ∧ HasSignature (trailing S s.pivotIndex (n - s.pivotIndex)) p q

theorem Turn.explains {n : Nat} {s s' : State} (h : Turn n s s') {result : IntervalInertiaResult}
    (hresult : Explains n s' result) : Explains n s result := by
  cases result with
  | conclusive positive negative pivots =>
    obtain ⟨hsum, hlength, hall⟩ := hresult
    refine ⟨hsum, hlength, fun S hS => ?_⟩
    obtain ⟨S', p, q, hS', hp, hq, hback⟩ := h.signature S hS
    obtain ⟨p', q', hp', hq', hsig⟩ := hall S' hS'
    exact ⟨p + p', q + q', by omega, by omega, hback p' q' hsig⟩
  | inconclusive k positive negative unresolved pivots reason =>
    obtain ⟨hpos, hsum, hall⟩ := hresult
    refine ⟨hpos, hsum, fun S hS => ?_⟩
    obtain ⟨S', p, q, hS', hp, hq, hback⟩ := h.signature S hS
    obtain ⟨p', q', hp', hq', hsig⟩ := hall S' hS'
    exact ⟨p + p', q + q', by omega, by omega, hback p' q' hsig⟩

/-- The loop ends with a result about every array it started from. -/
theorem inertiaLoop_spec {n : Nat} (scaleInvariant enforceBudget : Bool) {s : State}
    (hs : Counted n s) :
    ∃ result, inertiaLoop n scaleInvariant enforceBudget s = .ok result ∧ Explains n s result := by
  induction hd : n - s.pivotIndex using Nat.strong_induction_on generalizing s with
  | _ d ih =>
    rw [inertiaLoop]
    by_cases hk : s.pivotIndex < n
    · rw [dif_pos hk]
      rcases step_spec n scaleInvariant enforceBudget s with ⟨s', hstep, hturn⟩ | ⟨reason, hstep⟩
      · have hs' := hturn.counted hs
        have hadvances := hturn.advances
        obtain ⟨result, hresult, hexplains⟩ := ih (n - s'.pivotIndex) (by omega) hs' rfl
        refine ⟨result, ?_, hturn.explains hexplains⟩
        split <;> simp_all
      · refine ⟨s.stop n reason, by split <;> simp_all, ?_⟩
        have hcounts := hs.counts
        refine ⟨by omega, by omega, fun S hS => ?_⟩
        obtain ⟨p, q, hsig⟩ := exists_hasSignature
          (trailing_hermitian hS.symm s.pivotIndex (n - s.pivotIndex))
        exact ⟨p, q, Nat.le_add_right _ _, Nat.le_add_right _ _, hsig⟩
    · rw [dif_neg hk]
      have hend : s.pivotIndex = n := le_antisymm hs.bound (not_lt.mp hk)
      refine ⟨_, rfl, by rw [hs.counts, hend], by rw [hs.pivots, hend], fun S _ => ?_⟩
      refine ⟨0, 0, rfl, rfl, ?_⟩
      rw [hend, Nat.sub_self]
      exact hasSignature_empty S n

/-! ## Entry points -/

/-- Every entry of the matrix lies in its interval. -/
def Encloses (matrix : List RationalInterval) {n : Nat} (A : Matrix (Fin n) (Fin n) ℝ) : Prop :=
  ∀ i j : Fin n, (cells matrix n i j).Contains (A i j)

theorem Encloses.enclosed {matrix : List RationalInterval} {n : Nat} {A : Matrix (Fin n) (Fin n) ℝ}
    (h : Encloses matrix A) (hA : A.IsHermitian) : Enclosed (cells matrix n) n 0 (array A) := by
  refine ⟨fun i j => ?_, fun i j _ hi _ hj => by simpa [array, hi, hj] using h ⟨i, hi⟩ ⟨j, hj⟩⟩
  unfold array
  split
  · rename_i hij
    rw [dif_pos hij.symm]
    exact (hA.apply _ _).symm
  · rename_i hij
    rw [dif_neg fun hji => hij hji.symm]

/-- A result states the signs of the eigenvalues of every enclosed symmetric matrix. -/
def TrueOf (matrix : List RationalInterval) (n : Nat) : IntervalInertiaResult → Prop
  | .conclusive positive negative _ => ∀ (A : Matrix (Fin n) (Fin n) ℝ) (hA : A.IsHermitian),
      Encloses matrix A →
        positiveCount hA.eigenvalues = positive ∧ negativeCount hA.eigenvalues = negative
  | .inconclusive _ positive negative _ _ _ =>
    ∀ (A : Matrix (Fin n) (Fin n) ℝ) (hA : A.IsHermitian),
      Encloses matrix A →
        positive ≤ positiveCount hA.eigenvalues ∧ negative ≤ negativeCount hA.eigenvalues

/-- The counts and the recorded pivots add up. -/
def Balanced (n : Nat) : IntervalInertiaResult → Prop
  | .conclusive positive negative pivots => positive + negative = n ∧ pivots.length = n
  | .inconclusive _ positive negative zeroOrUnresolved _ _ =>
    0 < zeroOrUnresolved ∧ positive + negative + zeroOrUnresolved = n

theorem Explains.trueOf {matrix : List RationalInterval} {n : Nat} {s : State}
    {result : IntervalInertiaResult} (h : Explains n s result) (hschur : s.schur = cells matrix n)
    (hindex : s.pivotIndex = 0) (hpositive : s.positive = 0) (hnegative : s.negative = 0) :
    TrueOf matrix n result := by
  have hwhole : ∀ (A : Matrix (Fin n) (Fin n) ℝ), A.IsHermitian → Encloses matrix A →
      Enclosed s.schur n s.pivotIndex (array A) := by
    intro A hA hin
    rw [hschur, hindex]
    exact hin.enclosed hA
  cases result with
  | conclusive positive negative pivots =>
    intro A hA hin
    obtain ⟨p, q, hp, hq, hsig⟩ := h.2.2 (array A) (hwhole A hA hin)
    rw [hindex, Nat.sub_zero, trailing_array] at hsig
    have hcounts := hsig.eigenvalues hA
    omega
  | inconclusive k positive negative unresolved pivots reason =>
    intro A hA hin
    obtain ⟨p, q, hp, hq, hsig⟩ := h.2.2 (array A) (hwhole A hA hin)
    rw [hindex, Nat.sub_zero, trailing_array] at hsig
    have hcounts := hsig.eigenvalues hA
    omega

theorem Explains.balanced {n : Nat} {s : State} {result : IntervalInertiaResult}
    (h : Explains n s result) : Balanced n result := by
  cases result with
  | conclusive => exact ⟨h.1, h.2.1⟩
  | inconclusive => exact ⟨h.1, h.2.1⟩

theorem asymmetry_none {a : Cells RationalInterval} {n : Nat}
    (h : ∀ i j, i < n → j < n → a i j = a j i) : asymmetry a n = none := by
  unfold asymmetry
  rw [List.find?_eq_none]
  rintro ⟨row, column⟩ hmem
  simp only [List.mem_flatMap, List.mem_range, List.mem_map, Prod.mk.injEq] at hmem
  obtain ⟨r, hr, c, hc, rfl, rfl⟩ := hmem
  simp [h r c hr (by omega)]

/-- A square symmetric slice. -/
structure SymmetricInput (matrix : List RationalInterval) (n : Nat) : Prop where
  nonempty : 1 ≤ n
  square : matrix.length = n * n
  slice : matrix.length < 2 ^ 64
  symm : ∀ i j, i < n → j < n → cells matrix n i j = cells matrix n j i

theorem SymmetricInput.validateInput {matrix : List RationalInterval} {n : Nat}
    (h : SymmetricInput matrix n) : validateInput matrix n = .ok () := by
  unfold RationalInertia.validateInput
  have hpos := h.nonempty
  have hslice := h.slice
  rw [h.square] at hslice
  rw [if_neg (by rw [h.square, saturatingMul]; omega), asymmetry_none h.symm]

/-- After the input checks no error or panic can follow, and the result holds. -/
theorem validated_spec {matrix : List RationalInterval} {n : Nat}
    (scaleInvariant enforceBudget : Bool) (h : validateInput matrix n = .ok ()) :
    ∃ result, intervalSymmetricLdltInertiaWithBudget matrix n scaleInvariant enforceBudget =
      .ok result ∧
      TrueOf matrix n result ∧ Balanced n result := by
  have hn : 0 < n := by
    unfold RationalInertia.validateInput at h
    split at h
    · cases h
    · rename_i hshape
      omega
  unfold intervalSymmetricLdltInertiaWithBudget
  simp only [h, lift_ok, ok_bind]
  split
  · exact ⟨_, rfl, fun A hA _ => ⟨Nat.zero_le _, Nat.zero_le _⟩, hn, Nat.zero_add n⟩
  · obtain ⟨result, hresult, hexplains⟩ := inertiaLoop_spec scaleInvariant enforceBudget
      (s := ⟨cells matrix n, [], 0, 0, 0⟩) ⟨Nat.zero_le n, rfl, rfl⟩
    exact ⟨result, hresult, hexplains.trueOf rfl rfl rfl rfl, hexplains.balanced⟩

/-- A result comes only from an accepted input. -/
theorem result_validated {matrix : List RationalInterval} {n : Nat}
    {scaleInvariant enforceBudget : Bool} {result : IntervalInertiaResult}
    (h : intervalSymmetricLdltInertiaWithBudget matrix n scaleInvariant enforceBudget =
      .ok result) :
    validateInput matrix n = .ok () := by
  unfold intervalSymmetricLdltInertiaWithBudget at h
  obtain ⟨_, hvalid, _⟩ := bind_eq_ok h
  cases hv : validateInput matrix n with
  | ok u => rfl
  | error e =>
    rw [hv] at hvalid
    cases hvalid

theorem result_true {matrix : List RationalInterval} {n : Nat} {scaleInvariant enforceBudget : Bool}
    {result : IntervalInertiaResult}
    (h : intervalSymmetricLdltInertiaWithBudget matrix n scaleInvariant enforceBudget =
      .ok result) :
    TrueOf matrix n result ∧ Balanced n result := by
  obtain ⟨_, hresult, hspec⟩ := validated_spec scaleInvariant enforceBudget (result_validated h)
  rw [h] at hresult
  cases hresult
  exact hspec

end Xcelerator.Certify.RationalInertiaSoundness
