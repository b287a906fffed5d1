import Mathlib

/-! # Sturm's theorem

The sign variations of a remainder chain, with zeros skipped, drop by one at
every distinct root of its first member. The proof adds to the variations at
`x` the number of roots up to `x` and shows that the sum is locally constant:
nothing changes where the first member does not vanish, since a later member
vanishes only between neighbours of opposite sign, and at a root one variation
is exchanged for one counted root. A chain may end in a nonconstant common
divisor; dividing by it changes no variation where it does not vanish. -/

namespace Xcelerator.Foundations.Sturm
open Polynomial Filter Topology

/-! ## Sign variations -/

/-- The sign changes in a list, zeros skipped, after the sign `previous`. -/
def variations {α : Type} [LinearOrder α] [Zero α] : Option Bool → List α → ℕ
  | _, [] => 0
  | previous, v :: vs =>
    if v = 0 then variations previous vs
    else (if previous = some (!decide (0 < v)) then 1 else 0) + variations
      (some (decide (0 < v))) vs

theorem variations_cons_zero {α : Type} [LinearOrder α] [Zero α] {previous : Option Bool} {v : α}
    {vs : List α} (h : v = 0) : variations previous (v :: vs) = variations previous vs := by
  rw [variations, if_pos h]

theorem variations_cons {α : Type} [LinearOrder α] [Zero α] {previous : Option Bool} {v : α}
    {vs : List α} (h : v ≠ 0) : variations previous (v :: vs) =
      (if previous = some (!decide (0 < v)) then 1 else 0) + variations
        (some (decide (0 < v))) vs := by
  rw [variations, if_neg h]

theorem variations_ratCast (previous : Option Bool) (vs : List ℚ) :
    variations previous (vs.map fun v : ℚ => (v : ℝ)) = variations previous vs := by
  induction vs generalizing previous with
  | nil => rfl
  | cons v vs ih =>
    by_cases h : v = 0
    · rw [List.map_cons, variations_cons_zero (by exact_mod_cast h), variations_cons_zero h, ih]
    · rw [List.map_cons, variations_cons (by exact_mod_cast h), variations_cons h, ih]
      simp

/-- Scaling all values by one nonzero factor changes no variation. -/
theorem variations_mul {k : ℝ} (hk : k ≠ 0) (previous : Option Bool) (vs : List ℝ) :
    variations (previous.map fun b => xor (decide (k < 0)) b) (vs.map fun v => k * v) =
      variations previous vs := by
  induction vs generalizing previous with
  | nil => rfl
  | cons v vs ih =>
    by_cases h : v = 0
    · rw [List.map_cons, variations_cons_zero (by simp [h]), variations_cons_zero h, ih]
    · have hsign : decide (0 < k * v) = xor (decide (k < 0)) (decide (0 < v)) := by
        rcases lt_or_gt_of_ne hk with hk | hk <;> rcases lt_or_gt_of_ne h with hv | hv
        · rw [decide_eq_true (mul_pos_of_neg_of_neg hk hv), decide_eq_true hk,
            decide_eq_false hv.not_gt, Bool.xor_false]
        · rw [decide_eq_false (mul_neg_of_neg_of_pos hk hv).not_gt, decide_eq_true hk,
            decide_eq_true hv, Bool.xor_self]
        · rw [decide_eq_false (mul_neg_of_pos_of_neg hk hv).not_gt, decide_eq_false hk.not_gt,
            decide_eq_false hv.not_gt, Bool.xor_self]
        · rw [decide_eq_true (mul_pos hk hv), decide_eq_false hk.not_gt, decide_eq_true hv,
            Bool.false_xor]
      rw [List.map_cons, variations_cons (mul_ne_zero hk h), variations_cons h, hsign, ← ih]
      cases previous with
      | none => simp
      | some b => cases b <;> cases decide (k < 0) <;> cases decide (0 < v) <;> simp

/-! ## Chains without a common root -/

/-- The variations of a list of polynomials at a point. -/
noncomputable def variationsAt (previous : Option Bool) (chain : List ℝ[X]) (x : ℝ) : ℕ :=
  variations previous (chain.map fun f => f.eval x)

/-- A member vanishes only between neighbours of opposite sign, the last never. -/
def Alternates : List ℝ[X] → Prop
  | s :: t :: u :: rest => (∀ x, t.eval x = 0 → s.eval x * u.eval x < 0) ∧
      Alternates (t :: u :: rest)
  | [_, t] => ∀ x, t.eval x ≠ 0
  | _ => True

theorem Alternates.tail {s t : ℝ[X]} {rest : List ℝ[X]} (h : Alternates (s :: t :: rest)) :
    Alternates (t :: rest) := by
  cases rest with
  | nil => trivial
  | cons u rest => exact h.2

theorem Alternates.second_ne {s t : ℝ[X]} {rest : List ℝ[X]} {c : ℝ}
    (h : Alternates (s :: t :: rest)) (hs : s.eval c = 0) : t.eval c ≠ 0 := by
  cases rest with
  | nil => exact h c
  | cons u rest =>
    intro ht
    simpa [hs] using h.1 c ht

/-- Near a point where it does not vanish a polynomial keeps its sign. -/
theorem eventually_sign {s : ℝ[X]} {c : ℝ} (hs : s.eval c ≠ 0) :
    ∀ᶠ x in 𝓝 c, s.eval x ≠ 0 ∧ decide (0 < s.eval x) = decide (0 < s.eval c) := by
  have hcont : ContinuousAt (fun x => s.eval x) c := s.continuous.continuousAt
  rcases lt_or_gt_of_ne hs with h | h
  · filter_upwards [hcont.eventually_lt_const h] with x hx
    exact ⟨hx.ne, by rw [decide_eq_false hx.not_gt, decide_eq_false h.not_gt]⟩
  · filter_upwards [hcont.eventually_const_lt h] with x hx
    exact ⟨hx.ne', by rw [decide_eq_true hx, decide_eq_true h]⟩

/-- After a member that does not vanish, the variations are locally constant. -/
theorem eventually_variationsAt {c : ℝ} : ∀ (rest : List ℝ[X]) (s : ℝ[X]), Alternates (s :: rest) →
    s.eval c ≠ 0 → ∀ᶠ x in 𝓝 c,
      variationsAt (some (decide (0 < s.eval c))) rest x =
        variationsAt (some (decide (0 < s.eval c))) rest c
  | [], _, _, _ => Eventually.of_forall fun _ => rfl
  | t :: rest, s, h, hs => by
    by_cases ht : t.eval c = 0
    · -- a zero of `t` lies between opposite signs, so its sign nearby is irrelevant
      cases rest with
      | nil => exact absurd ht (h c)
      | cons u rest =>
        have hopp : s.eval c * u.eval c < 0 := h.1 c ht
        have hu : u.eval c ≠ 0 := fun h0 => by simp [h0] at hopp
        have hsu : decide (0 < s.eval c) = !decide (0 < u.eval c) := by
          rcases mul_neg_iff.mp hopp with ⟨h1, h2⟩ | ⟨h1, h2⟩
          · rw [decide_eq_true h1, decide_eq_false h2.not_gt, Bool.not_false]
          · rw [decide_eq_false h1.not_gt, decide_eq_true h2, Bool.not_true]
        have hskip : ∀ x, u.eval x ≠ 0 ∧ decide (0 < u.eval x) = decide (0 < u.eval c) →
            variationsAt (some (decide (0 < s.eval c))) (t :: u :: rest) x =
              1 + variationsAt (some (decide (0 < u.eval c))) rest x := by
          intro x hx
          unfold variationsAt
          rw [List.map_cons, List.map_cons]
          by_cases htx : t.eval x = 0
          · rw [variations_cons_zero htx, variations_cons hx.1, hx.2, if_pos (by rw [hsu])]
          · rw [variations_cons htx, variations_cons hx.1, hx.2, hsu]
            cases decide (0 < u.eval c) <;> cases decide (0 < t.eval x) <;> simp
        filter_upwards [eventually_sign hu, eventually_variationsAt rest u h.tail.tail hu]
          with x hx hrest
        rw [hskip x hx, hskip c ⟨hu, rfl⟩, hrest]
    · filter_upwards [eventually_sign ht, eventually_variationsAt rest t h.tail ht] with x hx hrest
      unfold variationsAt at hrest ⊢
      rw [List.map_cons, List.map_cons, variations_cons hx.1, variations_cons ht, hx.2, hrest]

/-! ## The count -/

/-- The number of distinct roots up to `x`. -/
noncomputable def rootsUpTo (s : ℝ[X]) (x : ℝ) : ℕ := (s.roots.toFinset.filter (· ≤ x)).card

/-- Near a point, no other member of a finite set changes sides. -/
theorem eventually_side (F : Finset ℝ) (c : ℝ) :
    ∀ᶠ x in 𝓝 c, ∀ r ∈ F, r ≠ c → (r ≤ x ↔ r ≤ c) := by
  rw [Filter.eventually_all_finset]
  intro r _
  rcases lt_trichotomy r c with h | rfl | h
  · filter_upwards [eventually_gt_nhds h] with x hx _
    exact iff_of_true hx.le h.le
  · exact Eventually.of_forall fun _ hne => absurd rfl hne
  · filter_upwards [eventually_lt_nhds h] with x hx _
    exact iff_of_false hx.not_ge h.not_ge

/-- The product of the two members turns from negative to positive at every root of the first. -/
def Crosses (s t : ℝ[X]) : Prop :=
  ∀ c, s.eval c = 0 → ∀ᶠ x in 𝓝[≠] c, 0 < (x - c) * (s.eval x * t.eval x)

theorem rootsUpTo_of_side {s : ℝ[X]} {c x : ℝ} (hs : s ≠ 0)
    (hside : ∀ r ∈ s.roots.toFinset, r ≠ c → (r ≤ x ↔ r ≤ c)) (hc : s.eval c ≠ 0 ∨ c ≤ x) :
    rootsUpTo s x = rootsUpTo s c := by
  unfold rootsUpTo
  congr 1
  refine Finset.filter_congr fun r hr => ?_
  by_cases hrc : r = c
  · subst hrc
    have hroot : s.eval r = 0 := by
      rw [Multiset.mem_toFinset, mem_roots hs] at hr
      exact hr
    exact iff_of_true (hc.resolve_left fun h => h hroot) le_rfl
  · exact hside r hr hrc

theorem rootsUpTo_left {s : ℝ[X]} {c x : ℝ} (hs : s ≠ 0)
    (hside : ∀ r ∈ s.roots.toFinset, r ≠ c → (r ≤ x ↔ r ≤ c)) (hc : s.eval c = 0) (hx : x < c) :
    1 + rootsUpTo s x = rootsUpTo s c := by
  have hmem : c ∈ s.roots.toFinset.filter (· ≤ c) := by
    rw [Finset.mem_filter, Multiset.mem_toFinset, mem_roots hs]
    exact ⟨hc, le_rfl⟩
  have herase : s.roots.toFinset.filter (· ≤ x) = (s.roots.toFinset.filter (· ≤ c)).erase c := by
    ext r
    rw [Finset.mem_erase, Finset.mem_filter, Finset.mem_filter]
    by_cases hrc : r = c
    · subst hrc
      exact iff_of_false (fun h => h.2.not_gt hx) fun h => h.1 rfl
    · constructor
      · rintro ⟨hr, hrx⟩
        exact ⟨hrc, hr, (hside r hr hrc).mp hrx⟩
      · rintro ⟨_, hr, hrx⟩
        exact ⟨hr, (hside r hr hrc).mpr hrx⟩
  unfold rootsUpTo
  rw [herase, add_comm]
  exact Finset.card_erase_add_one hmem

/-- The variations plus the roots passed are locally constant. -/
theorem eventually_balance {s t : ℝ[X]} {rest : List ℝ[X]} (hs : s ≠ 0)
    (halt : Alternates (s :: t :: rest)) (hcross : Crosses s t) (c : ℝ) :
    ∀ᶠ x in 𝓝 c, variationsAt none (s :: t :: rest) x + rootsUpTo s x =
      variationsAt none (s :: t :: rest) c + rootsUpTo s c := by
  by_cases hc : s.eval c = 0
  · have ht : t.eval c ≠ 0 := halt.second_ne hc
    have hsigns := eventually_nhdsWithin_iff.mp (hcross c hc)
    filter_upwards [eventually_side s.roots.toFinset c, hsigns, eventually_sign ht,
      eventually_variationsAt rest t halt.tail ht] with x hside hsign htx hrest
    -- the value at the root itself
    have hat : variationsAt none (s :: t :: rest) c =
        variationsAt (some (decide (0 < t.eval c))) rest c := by
      unfold variationsAt
      rw [List.map_cons, List.map_cons, variations_cons_zero hc, variations_cons ht]
      simp
    -- the value next to it depends on the sign of the product only
    have hnear : s.eval x ≠ 0 → variationsAt none (s :: t :: rest) x =
        (if s.eval x * t.eval x < 0 then 1 else 0) +
          variationsAt (some (decide (0 < t.eval c))) rest c := by
      intro hsx
      rw [← hrest]
      unfold variationsAt
      rw [List.map_cons, List.map_cons, variations_cons hsx, variations_cons htx.1, htx.2]
      have hiff : (some (decide (0 < s.eval x)) = some (!decide (0 < t.eval c))) ↔
          s.eval x * t.eval x < 0 := by
        rw [← htx.2]
        rcases lt_or_gt_of_ne hsx with h1 | h1 <;> rcases lt_or_gt_of_ne htx.1 with h2 | h2
        · simp [h1.not_gt, h2.not_gt, (mul_pos_of_neg_of_neg h1 h2).not_gt]
        · simp [h1.not_gt, h2, mul_neg_of_neg_of_pos h1 h2]
        · simp [h1, h2.not_gt, mul_neg_of_pos_of_neg h1 h2]
        · simp [h1, h2, (mul_pos h1 h2).not_gt]
      simp only [hiff]
      simp
    rcases lt_trichotomy x c with hx | rfl | hx
    · have hneg : s.eval x * t.eval x < 0 :=
        (neg_iff_neg_of_mul_pos (hsign hx.ne)).mp (sub_neg.mpr hx)
      rw [hnear (left_ne_zero_of_mul hneg.ne), if_pos hneg, hat, ← rootsUpTo_left hs hside hc hx]
      omega
    · rfl
    · have hpos : 0 < s.eval x * t.eval x :=
        (pos_iff_pos_of_mul_pos (hsign hx.ne')).mp (sub_pos.mpr hx)
      rw [hnear (left_ne_zero_of_mul hpos.ne'), if_neg hpos.not_gt, hat,
        rootsUpTo_of_side hs hside (.inr hx.le), Nat.zero_add]
  · filter_upwards [eventually_side s.roots.toFinset c, eventually_sign hc,
      eventually_variationsAt (t :: rest) s halt hc] with x hside hsx hrest
    rw [rootsUpTo_of_side hs hside (.inl hc)]
    have hhead : ∀ y, s.eval y ≠ 0 ∧ decide (0 < s.eval y) = decide (0 < s.eval c) →
        variationsAt none (s :: t :: rest) y =
          variationsAt (some (decide (0 < s.eval c))) (t :: rest) y := by
      intro y hy
      unfold variationsAt
      rw [List.map_cons, variations_cons hy.1, hy.2]
      simp
    rw [hhead x hsx, hhead c ⟨hc, rfl⟩, hrest]

theorem rootsUpTo_add {s : ℝ[X]} {a b : ℝ} (hab : a ≤ b) :
    rootsUpTo s b = rootsUpTo s a + (s.roots.toFinset.filter fun r => a < r ∧ r ≤ b).card := by
  unfold rootsUpTo
  rw [← Finset.card_union_of_disjoint]
  · congr 1
    ext r
    simp only [Finset.mem_filter, Finset.mem_union]
    constructor
    · rintro ⟨hr, hrb⟩
      rcases le_or_gt r a with h | h
      · exact .inl ⟨hr, h⟩
      · exact .inr ⟨hr, h, hrb⟩
    · rintro (⟨hr, h⟩ | ⟨hr, _, h⟩)
      · exact ⟨hr, h.trans hab⟩
      · exact ⟨hr, h⟩
  · exact Finset.disjoint_filter.mpr fun r _ h1 h2 => h2.1.not_ge h1

/-- Sturm's theorem for a chain without a common root. -/
theorem variationsAt_alternates {s t : ℝ[X]} {rest : List ℝ[X]} (hs : s ≠ 0)
    (halt : Alternates (s :: t :: rest)) (hcross : Crosses s t) {a b : ℝ} (hab : a ≤ b) :
    variationsAt none (s :: t :: rest) a = variationsAt none (s :: t :: rest) b +
      (s.roots.toFinset.filter fun r => a < r ∧ r ≤ b).card := by
  have hlocal : IsLocallyConstant fun x => variationsAt none (s :: t :: rest) x + rootsUpTo s x :=
    (IsLocallyConstant.iff_eventually_eq _).mpr (eventually_balance hs halt hcross)
  have hbalance := hlocal.apply_eq_of_preconnectedSpace a b
  rw [rootsUpTo_add hab] at hbalance
  omega

/-! ## Chains with a common divisor -/

/-- A remainder chain whose members are rescaled by positive factors; the last
member divides the one before it. -/
inductive RemainderChain {K : Type} [Field K] [LinearOrder K] : List K[X] → Prop
  | last {f g : K[X]} (hg : g ≠ 0) (hdvd : g ∣ f) : RemainderChain [f, g]
  | step {f g h : K[X]} {rest : List K[X]} (q : K[X]) {c d : K} (hc : 0 < c) (hd : 0 < d)
      (heq : C c * f = q * g - C d * h) (tail : RemainderChain (g :: h :: rest)) :
      RemainderChain (f :: g :: h :: rest)

/-- The last member divides every member. -/
theorem RemainderChain.last_dvd {K : Type} [Field K] [LinearOrder K] [IsStrictOrderedRing K]
    {chain : List K[X]} (h : RemainderChain chain) : ∀ f ∈ chain, chain.getLastD 0 ∣ f := by
  induction h with
  | @last f g hg hdvd =>
    intro p hp
    rcases List.mem_pair.mp hp with rfl | rfl
    · exact hdvd
    · exact dvd_rfl
  | @step f g h rest q c d hc hd heq tail ih =>
    have hlast : (f :: g :: h :: rest).getLastD 0 = (g :: h :: rest).getLastD 0 := rfl
    rw [hlast]
    intro p hp
    rcases List.mem_cons.mp hp with rfl | hp
    · have hunit : IsUnit (C c : K[X]) := isUnit_C.mpr (isUnit_iff_ne_zero.mpr hc.ne')
      rw [← hunit.dvd_mul_left, heq]
      exact dvd_sub (dvd_mul_of_dvd_right (ih g (by simp)) q)
        (dvd_mul_of_dvd_right (ih h (by simp)) (C d))
    · exact ih p hp

/-- A common divisor of the first two members divides the last. -/
theorem RemainderChain.dvd_last {K : Type} [Field K] [LinearOrder K] [IsStrictOrderedRing K]
    {e f g : K[X]} {rest : List K[X]} (h : RemainderChain (f :: g :: rest)) (hf : e ∣ f)
    (hg : e ∣ g) : e ∣ (f :: g :: rest).getLastD 0 := by
  induction rest generalizing f g with
  | nil => exact hg
  | cons r rest ih =>
    cases h with
    | step q hc hd heq tail =>
      rename_i c d
      have hunit : IsUnit (C d : K[X]) := isUnit_C.mpr (isUnit_iff_ne_zero.mpr hd.ne')
      have hr : e ∣ C d * r := by
        have hform : C d * r = q * g - C c * f := by rw [heq]; ring
        rw [hform]
        exact dvd_sub (dvd_mul_of_dvd_right hg q) (dvd_mul_of_dvd_right hf (C c))
      exact ih tail hg (hunit.dvd_mul_left.mp hr)

/-- A rational chain is a chain over the reals. -/
theorem RemainderChain.map_real {chain : List ℚ[X]} (h : RemainderChain chain) :
    RemainderChain (chain.map fun f => f.map (algebraMap ℚ ℝ)) := by
  induction h with
  | last hg hdvd =>
    refine .last ?_ (map_dvd (mapRingHom (algebraMap ℚ ℝ)) hdvd)
    exact (Polynomial.map_ne_zero_iff (algebraMap ℚ ℝ).injective).mpr hg
  | @step f g h rest q c d hc hd heq tail ih =>
    have hmap := congrArg (fun p => p.map (algebraMap ℚ ℝ)) heq
    simp only [Polynomial.map_mul, Polynomial.map_sub, map_C] at hmap
    refine .step (q.map (algebraMap ℚ ℝ)) ?_ ?_ hmap ih
    · exact Rat.cast_pos.mpr hc
    · exact Rat.cast_pos.mpr hd

/-- A chain is a common divisor times a chain without a common root. -/
theorem RemainderChain.factor {chain : List ℝ[X]} (h : RemainderChain chain) :
    ∃ (e s t : ℝ[X]) (rest : List ℝ[X]), e ≠ 0 ∧ Alternates (s :: t :: rest) ∧
      chain = (s :: t :: rest).map fun f => e * f := by
  induction h with
  | @last f g hg hdvd =>
    obtain ⟨s, rfl⟩ := hdvd
    exact ⟨g, s, 1, [], hg, fun x => by simp, by simp⟩
  | @step f g h rest q c d hc hd heq tail ih =>
    obtain ⟨e, s, t, rest', he, halt, hchain⟩ := ih
    simp only [List.map_cons, List.cons.injEq] at hchain
    obtain ⟨rfl, rfl, rfl⟩ := hchain
    have hscale : (C c⁻¹ : ℝ[X]) * C c = 1 := by rw [← C_mul, inv_mul_cancel₀ hc.ne', C_1]
    refine ⟨e, C c⁻¹ * (q * s - C d * t), s, t :: rest', he, ⟨fun x hx => ?_, halt⟩, ?_⟩
    · have ht : t.eval x ≠ 0 := halt.second_ne hx
      have hval : (C c⁻¹ * (q * s - C d * t)).eval x * t.eval x = -(c⁻¹ * d * t.eval x ^ 2) := by
        simp only [eval_mul, eval_sub, eval_C, hx]
        ring
      rw [hval]
      exact neg_neg_of_pos (mul_pos (mul_pos (inv_pos.mpr hc) hd) (sq_pos_of_ne_zero ht))
    · have hf : f = e * (C c⁻¹ * (q * s - C d * t)) := by
        calc f = C c⁻¹ * C c * f := by rw [hscale, one_mul]
          _ = C c⁻¹ * (C c * f) := by ring
          _ = e * (C c⁻¹ * (q * s - C d * t)) := by rw [heq]; ring
      simp [← hf]

/-- At a root, a polynomial and its derivative have the sign of the distance to it. -/
theorem eventually_mul_derivative {p : ℝ[X]} (hp : p ≠ 0) {c : ℝ} (hc : p.eval c = 0) :
    ∀ᶠ x in 𝓝[≠] c, 0 < (x - c) * (p.eval x * p.derivative.eval x) := by
  obtain ⟨h, hfactor, hndvd⟩ := exists_eq_pow_rootMultiplicity_mul_and_not_dvd p hp c
  have hmult : 0 < p.rootMultiplicity c := (rootMultiplicity_pos hp).mpr hc
  obtain ⟨k, hk⟩ : ∃ k, p.rootMultiplicity c = k + 1 := ⟨_, (Nat.succ_pred_eq_of_pos hmult).symm⟩
  rw [hk] at hfactor
  have hh : h.eval c ≠ 0 := fun h0 => hndvd (dvd_iff_isRoot.mpr h0)
  -- the remaining factor is positive at the root
  let G : ℝ → ℝ := fun x => h.eval x * ((k + 1) * h.eval x + (x - c) * h.derivative.eval x)
  have hG : ContinuousAt G c := by fun_prop
  have hGc : 0 < G c := by
    have hval : G c = (k + 1) * h.eval c ^ 2 := by simp only [G, sub_self]; ring
    rw [hval]
    positivity
  have hform : ∀ x, (x - c) * (p.eval x * p.derivative.eval x) = ((x - c) ^ (k + 1)) ^ 2 * G x := by
    intro x
    have hderiv : p.derivative =
        (k + 1 : ℝ[X]) * (X - C c) ^ k * h + (X - C c) ^ (k + 1) * derivative h := by
      rw [hfactor, derivative_mul, derivative_X_sub_C_pow]
      push_cast
      simp
    rw [hderiv]
    conv_lhs => rw [hfactor]
    simp only [eval_mul, eval_add, eval_pow, eval_sub, eval_X, eval_C, eval_natCast, eval_one, G]
    ring
  filter_upwards [(hG.eventually_const_lt hGc).filter_mono nhdsWithin_le_nhds,
    self_mem_nhdsWithin] with x hx hne
  rw [hform]
  have hsub : x - c ≠ 0 := sub_ne_zero.mpr hne
  positivity

/-- Dividing by a common divisor with the derivative keeps every root. -/
theorem eval_quotient_eq_zero_iff {p e s : ℝ[X]} (hp : p ≠ 0) (hfactor : p = e * s)
    (hderiv : e ∣ derivative p) (c : ℝ) : s.eval c = 0 ↔ p.eval c = 0 := by
  constructor
  · intro hs
    rw [hfactor, eval_mul, hs, mul_zero]
  · intro hc
    by_contra hs
    have he : e ≠ 0 := fun h0 => hp (by rw [hfactor, h0, zero_mul])
    have hs0 : s ≠ 0 := fun h0 => hs (by rw [h0, eval_zero])
    have hmult : p.rootMultiplicity c = e.rootMultiplicity c := by
      rw [hfactor, rootMultiplicity_mul (mul_ne_zero he hs0), rootMultiplicity_eq_zero (p := s) hs,
        add_zero]
    have hpos : 0 < p.rootMultiplicity c := (rootMultiplicity_pos hp).mpr hc
    have hd0 : derivative p ≠ 0 := by
      intro h0
      have hconst : p.natDegree = 0 := derivative_eq_zero.mp h0
      rw [eq_C_of_natDegree_eq_zero hconst, rootMultiplicity_C] at hpos
      exact hpos.ne' rfl
    have hle := rootMultiplicity_le_rootMultiplicity_of_dvd hd0 hderiv c
    rw [derivative_rootMultiplicity_of_root hc] at hle
    omega

/-- **Sturm's theorem.** The variations of a remainder chain that starts with a
polynomial and its derivative count the distinct roots between two non-roots. -/
theorem sturm {p f g : ℝ[X]} {rest : List ℝ[X]} (hp : p ≠ 0) (h : RemainderChain (f :: g :: rest))
    {k l : ℝ} (hk : 0 < k) (hl : 0 < l) (hf : f = C k * p) (hg : g = C l * derivative p) {a b : ℝ}
    (hab : a ≤ b) (ha : p.eval a ≠ 0) (hb : p.eval b ≠ 0) :
    variationsAt none (f :: g :: rest) a = variationsAt none (f :: g :: rest) b +
      (p.roots.toFinset.filter fun r => a < r ∧ r < b).card := by
  obtain ⟨e, s, t, rest', he, halt, hchain⟩ := h.factor
  simp only [List.map_cons, List.cons.injEq] at hchain
  obtain ⟨hfe, hge, hrest⟩ := hchain
  have hCk : ∀ {x : ℝ}, 0 < x → (C x⁻¹ : ℝ[X]) * C x = 1 := fun hx => by
    rw [← C_mul, inv_mul_cancel₀ hx.ne', C_1]
  have hpe : p = e * (C k⁻¹ * s) := by
    calc p = C k⁻¹ * C k * p := by rw [hCk hk, one_mul]
      _ = C k⁻¹ * (C k * p) := by ring
      _ = e * (C k⁻¹ * s) := by rw [← hf, hfe]; ring
  have hde : derivative p = e * (C l⁻¹ * t) := by
    calc derivative p = C l⁻¹ * C l * derivative p := by rw [hCk hl, one_mul]
      _ = C l⁻¹ * (C l * derivative p) := by ring
      _ = e * (C l⁻¹ * t) := by rw [← hg, hge]; ring
  have hroots : ∀ c, s.eval c = 0 ↔ p.eval c = 0 := by
    intro c
    rw [← eval_quotient_eq_zero_iff hp hpe ⟨_, hde⟩ c, eval_mul, eval_C,
      mul_eq_zero_iff_left (inv_ne_zero hk.ne')]
  have hs0 : s ≠ 0 := fun h0 => hp (by rw [hpe, h0, mul_zero, mul_zero])
  have hcross : Crosses s t := by
    intro c hc
    filter_upwards [eventually_mul_derivative hp ((hroots c).mp hc)] with x hx
    have hval : (x - c) * (p.eval x * p.derivative.eval x) =
        (x - c) * (s.eval x * t.eval x) * (k⁻¹ * l⁻¹ * e.eval x ^ 2) := by
      rw [hde]
      conv_lhs => rw [hpe]
      simp only [eval_mul, eval_C]
      ring
    rw [hval] at hx
    have hnonneg : 0 ≤ k⁻¹ * l⁻¹ * e.eval x ^ 2 := by positivity
    exact pos_of_mul_pos_left hx hnonneg
  have hscaled : ∀ {x}, p.eval x ≠ 0 → variationsAt none (f :: g :: rest) x =
      variationsAt none (s :: t :: rest') x := by
    intro x hx
    have hex : e.eval x ≠ 0 := fun h0 => hx (by rw [hpe, eval_mul, h0, zero_mul])
    have hmap : (f :: g :: rest).map (fun q => q.eval x) =
        ((s :: t :: rest').map fun q => q.eval x).map fun v => e.eval x * v := by
      rw [hfe, hge, hrest]
      simp [Function.comp_def]
    unfold variationsAt
    rw [hmap]
    exact variations_mul hex none _
  have hset : s.roots.toFinset.filter (fun r => a < r ∧ r ≤ b) =
      p.roots.toFinset.filter fun r => a < r ∧ r < b := by
    ext r
    simp only [Finset.mem_filter, Multiset.mem_toFinset, mem_roots hs0, mem_roots hp, IsRoot.def,
      hroots r]
    constructor
    · rintro ⟨hr, har, hrb⟩
      exact ⟨hr, har, lt_of_le_of_ne hrb fun h0 => hb (h0 ▸ hr)⟩
    · rintro ⟨hr, har, hrb⟩
      exact ⟨hr, har, hrb.le⟩
  rw [hscaled ha, hscaled hb, ← hset]
  exact variationsAt_alternates hs0 halt hcross hab

end Xcelerator.Foundations.Sturm
