import Mathlib
import Xcelerator.Variational.MaynardForms
import Xcelerator.Variational.MaynardPkd

/-! # Exact polynomials as functions

What the operations on maps of monomials do to the functions they stand for. The
maps stay in the order of their keys, and the degrees stay bounded, so that no
exponent overflows. -/

namespace Xcelerator.Variational.Maynard
open Xcelerator.Foundations Machine

/-! ## Exact polynomials as functions -/

section
variable {k : Nat}

noncomputable def evaluateEntries {n : ℕ} (p : ExactPolynomial) (x : Fin n → ℝ) : ℝ :=
  (p.map fun entry => (entry.2 : ℝ) * monomial entry.1 x).sum

def keys (p : ExactPolynomial) : List MultiIndex := p.map Prod.fst

/-- The keys are in order, have the right length and a bounded degree. -/
structure Formed (k bound : Nat) (p : ExactPolynomial) : Prop where
  sorted : (keys p).Pairwise (· < ·)
  members : ∀ key ∈ keys p, key.length = k ∧ key.sum ≤ bound

theorem evaluateEntries_cons {n : ℕ} (entry : MultiIndex × ℚ) (p : ExactPolynomial)
    (x : Fin n → ℝ) :
    evaluateEntries (entry :: p) x = entry.2 * monomial entry.1 x + evaluateEntries p x := by
  simp [evaluateEntries]

theorem evaluate_addAt {n : ℕ} (p : ExactPolynomial) (key : MultiIndex) (term : ℚ) (x : Fin n → ℝ) :
    evaluateEntries (addAt p key term) x = evaluateEntries p x + term * monomial key x := by
  induction p with
  | nil => simp [addAt, evaluateEntries]
  | cons entry rest ih =>
    unfold addAt
    split_ifs with hsame hless
    · rw [evaluateEntries_cons, evaluateEntries_cons, hsame]
      push_cast
      ring
    · rw [evaluateEntries_cons, zero_add, add_comm]
    · rw [evaluateEntries_cons, evaluateEntries_cons, ih]
      ring

theorem mem_addAt {p : ExactPolynomial} {key other : MultiIndex} {term : ℚ} :
    other ∈ keys (addAt p key term) ↔ other = key ∨ other ∈ keys p := by
  induction p with
  | nil => simp [addAt, keys]
  | cons entry rest ih =>
    unfold addAt
    split_ifs with hsame hless
    · simp [keys, hsame]
    · simp [keys]
    · have hrest : other ∈ keys (entry :: addAt rest key term) ↔
          other = entry.1 ∨ other ∈ keys (addAt rest key term) := by
        simp [keys]
      rw [hrest, ih]
      simp only [keys, List.map_cons, List.mem_cons]
      exact or_left_comm

theorem sorted_addAt {p : ExactPolynomial} (h : (keys p).Pairwise (· < ·)) (key : MultiIndex)
    (term : ℚ) :
    (keys (addAt p key term)).Pairwise (· < ·) := by
  induction p with
  | nil => simp [addAt, keys]
  | cons entry rest ih =>
    obtain ⟨hfirst, hrest⟩ := List.pairwise_cons.mp h
    unfold addAt
    split_ifs with hsame hless
    · exact List.pairwise_cons.mpr ⟨hfirst, hrest⟩
    · refine List.pairwise_cons.mpr ⟨fun other hother => ?_, h⟩
      rcases List.mem_cons.mp hother with rfl | hother
      · exact hless
      · exact lt_trans hless (hfirst other hother)
    · refine List.pairwise_cons.mpr ⟨fun other hother => ?_, ih hrest⟩
      rcases mem_addAt.mp hother with rfl | hother
      · exact lt_of_le_of_ne (not_lt.mp hless) (Ne.symm hsame)
      · exact hfirst other hother

theorem Formed.addAt {bound : Nat} {p : ExactPolynomial} (h : Formed k bound p)
    {key : MultiIndex} (term : ℚ)
    (hkey : key.length = k ∧ key.sum ≤ bound) : Formed k bound (addAt p key term) where
  sorted := sorted_addAt h.sorted key term
  members other hother := by
    rcases mem_addAt.mp hother with rfl | hother
    · exact hkey
    · exact h.members other hother

theorem Formed.mono {bound larger : Nat} {p : ExactPolynomial} (h : Formed k bound p)
    (hle : bound ≤ larger) :
    Formed k larger p :=
  ⟨h.sorted, fun key hkey => ⟨(h.members key hkey).1, (h.members key hkey).2.trans hle⟩⟩

theorem formed_nil {bound : Nat} : Formed k bound [] := ⟨by simp [keys], by simp [keys]⟩

theorem evaluate_retain {n : ℕ} (p : ExactPolynomial) (x : Fin n → ℝ) :
    evaluateEntries (retainNonzero p) x = evaluateEntries p x := by
  induction p with
  | nil => rfl
  | cons entry rest ih =>
    unfold retainNonzero at ih ⊢
    by_cases h : entry.2 = 0
    · rw [List.filter_cons_of_neg (by simp [h]), ih, evaluateEntries_cons, h]
      simp
    · rw [List.filter_cons_of_pos (by simp [h]), evaluateEntries_cons, ih, evaluateEntries_cons]

theorem Formed.retain {bound : Nat} {p : ExactPolynomial} (h : Formed k bound p) :
    Formed k bound (retainNonzero p) := by
  have hsub : (keys (retainNonzero p)).Sublist (keys p) := List.Sublist.map _ List.filter_sublist
  exact ⟨h.sorted.sublist hsub, fun key hkey => h.members key (hsub.subset hkey)⟩

/-! ## Monomials -/

theorem monomial_zero (x : Fin k → ℝ) : monomial (List.replicate k 0) x = 1 := by
  refine Finset.prod_eq_one fun i _ => ?_
  rw [List.getD_eq_getElem _ _ (by simp)]
  simp

theorem getD_unit (v m i : Nat) (hi : i < k) :
    ((List.replicate k 0).set v m).getD i 0 = if i = v then m else 0 := by
  rw [List.getD_eq_getElem _ _ (by simpa using hi), List.getElem_set]
  by_cases h : v = i
  · rw [if_pos h, if_pos h.symm]
  · rw [if_neg h, if_neg (Ne.symm h), List.getElem_replicate]

theorem monomial_unit (v : Fin k) (m : Nat) (x : Fin k → ℝ) :
    monomial ((List.replicate k 0).set v m) x = x v ^ m := by
  rw [monomial, Finset.prod_eq_single v]
  · rw [getD_unit v m v v.isLt, if_pos rfl]
  · intro i _ hne
    rw [getD_unit v m i i.isLt, if_neg (Fin.val_injective.ne hne), pow_zero]
  · simp

theorem sum_unit (v : Fin k) (m : Nat) : ((List.replicate k 0).set v m).sum = m := by
  rw [← sum_getD (n := k) (by simp), Finset.sum_eq_single v]
  · rw [getD_unit v m v v.isLt, if_pos rfl]
  · intro i _ hne
    rw [getD_unit v m i i.isLt, if_neg (Fin.val_injective.ne hne)]
  · simp

def addIndex (k : Nat) (a b : MultiIndex) : MultiIndex :=
  (List.range k).map fun i => a.getD i 0 + b.getD i 0

theorem getD_addIndex (a b : MultiIndex) {i : Nat} (hi : i < k) :
    (addIndex k a b).getD i 0 = a.getD i 0 + b.getD i 0 := by
  rw [addIndex, List.getD_eq_getElem _ _ (by simpa using hi)]
  simp

theorem sum_addIndex {a b : MultiIndex} (ha : a.length = k) (hb : b.length = k) :
    (addIndex k a b).sum = a.sum + b.sum := by
  rw [← sum_getD (n := k) (by simp [addIndex]), ← sum_getD ha, ← sum_getD hb,
    ← Finset.sum_add_distrib]
  exact Finset.sum_congr rfl fun i _ => getD_addIndex a b i.isLt

theorem monomial_addIndex (a b : MultiIndex) (x : Fin k → ℝ) :
    monomial (addIndex k a b) x = monomial a x * monomial b x := by
  rw [monomial, monomial, monomial, ← Finset.prod_mul_distrib]
  exact Finset.prod_congr rfl fun i _ => by rw [getD_addIndex a b i.isLt, pow_add]

/-! ## Products -/

theorem checked_some {w n : Nat} (h : n < 2 ^ w) : checked w n = some n := if_pos h

theorem addExponents_ok {a b : MultiIndex} (ha : a.length = k) (hb : b.length = k)
    (hsum : a.sum + b.sum < 2 ^ 32) :
    addExponents k a b = .ok (addIndex k a b) := by
  have hcheck : (a.length == k && b.length == k) = true := by simp [ha, hb]
  rw [addExponents, check, if_pos hcheck, ok_bind]
  refine mapM_ok fun i _ => ?_
  have hi := getD_le_sum a i
  have hi' := getD_le_sum b i
  rw [checked_some (by omega)]
  rfl

theorem multiplyEntries_ok {bound : Nat} {product : ExactPolynomial} (h : Formed k bound product)
    {pairs : List ((MultiIndex × ℚ) × (MultiIndex × ℚ))} (hbound : bound < 2 ^ 32)
    (hpairs : ∀ pair ∈ pairs, pair.1.1.length = k ∧ pair.2.1.length = k ∧
      pair.1.1.sum + pair.2.1.sum ≤ bound) :
    ∃ next, pairs.foldlM (multiplyEntry k) product = .ok next ∧ Formed k bound next ∧ ∀ x :
    Fin k → ℝ,
      evaluateEntries next x = evaluateEntries product x + (pairs.map fun pair =>
        ((pair.1.2 : ℝ) * monomial pair.1.1 x) * (pair.2.2 * monomial pair.2.1 x)).sum := by
  induction pairs generalizing product with
  | nil => exact ⟨product, rfl, h, fun x => by simp⟩
  | cons pair rest ih =>
    obtain ⟨ha, hb, hsum⟩ := hpairs pair List.mem_cons_self
    have hstep : multiplyEntry k product pair =
        .ok (addAt product (addIndex k pair.1.1 pair.2.1) (pair.1.2 * pair.2.2)) := by
      rw [multiplyEntry, addExponents_ok ha hb (by omega), ok_bind]
      rfl
    obtain ⟨next, hnext, hformed, hvalue⟩ := ih
      (h.addAt (pair.1.2 * pair.2.2) ⟨by simp [addIndex], (sum_addIndex ha hb).trans_le hsum⟩)
      fun other hother => hpairs other (List.mem_cons_of_mem _ hother)
    refine ⟨next, by rw [List.foldlM_cons, hstep, ok_bind, hnext], hformed, fun x => ?_⟩
    rw [hvalue x, evaluate_addAt, monomial_addIndex, List.map_cons, List.sum_cons]
    push_cast
    ring

theorem sum_pairs {α β : Type} (left : List α) (right : List β) (f : α → ℝ) (g : β → ℝ) :
    ((left.flatMap fun l => right.map fun r => (l, r)).map fun pair => f pair.1 * g pair.2).sum =
      (left.map f).sum * (right.map g).sum := by
  induction left with
  | nil => simp
  | cons l left ih =>
    rw [List.flatMap_cons, List.map_append, List.sum_append, ih, List.map_map, List.map_cons,
      List.sum_cons, add_mul]
    refine congrArg (· + _) ?_
    exact List.sum_map_mul_left right g (f l)

theorem product_ok {p q : ExactPolynomial} {bound other : Nat} (hp : Formed k bound p)
    (hq : Formed k other q) (hbound : bound + other < 2 ^ 32) :
    ∃ product, exactPolynomialProduct p q k = .ok product ∧ Formed k (bound + other) product ∧
      ∀ x : Fin k → ℝ, evaluateEntries product x = evaluateEntries p x * evaluateEntries q x := by
  have hpairs : ∀ pair ∈ p.flatMap fun l => q.map fun r => (l, r),
      pair.1.1.length = k ∧ pair.2.1.length = k ∧ pair.1.1.sum + pair.2.1.sum ≤ bound + other := by
    intro pair hpair
    simp only [List.mem_flatMap, List.mem_map] at hpair
    obtain ⟨l, hl, r, hr, rfl⟩ := hpair
    obtain ⟨hll, hls⟩ := hp.members l.1 (List.mem_map_of_mem hl)
    obtain ⟨hrl, hrs⟩ := hq.members r.1 (List.mem_map_of_mem hr)
    exact ⟨hll, hrl, Nat.add_le_add hls hrs⟩
  obtain ⟨product, hproduct, hformed, hvalue⟩ := multiplyEntries_ok formed_nil hbound hpairs
  refine ⟨retainNonzero product, by rw [exactPolynomialProduct, hproduct, ok_bind]; rfl,
    hformed.retain, fun x => ?_⟩
  rw [evaluate_retain, hvalue x,
    sum_pairs p q (fun l => (l.2 : ℝ) * monomial l.1 x) fun r => (r.2 : ℝ) * monomial r.1 x]
  simp [evaluateEntries]

/-! ## Powers of the remainder -/

theorem insertAt_fresh {p : ExactPolynomial} {key : MultiIndex} (h : key ∉ keys p) (value : ℚ) :
    insertAt p key value = addAt p key value := by
  induction p with
  | nil => simp [insertAt, addAt]
  | cons entry rest ih =>
    have hne : key ≠ entry.1 := fun heq => h (by simp [keys, heq])
    have hrest : key ∉ keys rest := fun hmem => h (List.mem_cons_of_mem _ hmem)
    unfold insertAt addAt
    rw [if_neg hne, if_neg hne, ih hrest, zero_add]

theorem formed_one : Formed k 0 (constantOne k) :=
  ⟨by simp [keys, constantOne], by simp [keys, constantOne]⟩

theorem evaluate_one (x : Fin k → ℝ) : evaluateEntries (constantOne k) x = 1 := by
  simp [evaluateEntries, constantOne, monomial_zero]

/-- The sum of the first variables. -/
def leading (x : Fin k → ℝ) (preceding : Nat) : ℝ :=
  ∑ i : Fin k, if (i : Nat) < preceding then x i else 0

theorem leading_succ (x : Fin k → ℝ) (v : Fin k) : leading x (v + 1) = leading x v + x v := by
  have hsplit : ∀ i : Fin k, (if (i : Nat) < v + 1 then x i else 0) =
      (if (i : Nat) < v then x i else 0) + if i = v then x i else 0 := by
    intro i
    rcases Nat.lt_trichotomy i v with hlt | heq | hgt
    · rw [if_pos (by omega), if_pos hlt, if_neg (Fin.ne_of_lt hlt), add_zero]
    · rw [if_pos (by omega), if_neg (by omega), if_pos (Fin.ext heq), zero_add]
    · rw [if_neg (by omega), if_neg (by omega), if_neg (Fin.ne_of_gt hgt), add_zero]
  rw [leading, Finset.sum_congr rfl fun i _ => hsplit i, Finset.sum_add_distrib, leading]
  simp

theorem affineRemainder_ok {preceding : Nat} (h : preceding ≤ k) :
    (Formed k 1 (affineRemainder k preceding) ∧ ∀ key ∈ keys (affineRemainder k preceding),
      ∀ i < k, preceding ≤ i → key.getD i 0 = 0) ∧
      ∀ x : Fin k → ℝ, evaluateEntries (affineRemainder k preceding) x =
        1 - leading x preceding := by
  induction preceding with
  | zero =>
    refine ⟨⟨formed_one.mono (Nat.zero_le 1), fun key hkey i hi _ => ?_⟩, fun x => ?_⟩
    · have hzero : key = List.replicate k 0 :=
        by simpa [affineRemainder, keys, constantOne] using hkey
      rw [hzero, List.getD_eq_getElem _ _ (by simpa using hi), List.getElem_replicate]
    · have hnone : leading x 0 = 0 := Finset.sum_eq_zero fun i _ => if_neg (Nat.not_lt_zero _)
      rw [hnone, sub_zero]
      exact evaluate_one x
  | succ v ih =>
    obtain ⟨⟨hformed, hkeys⟩, hvalue⟩ := ih (by omega)
    have hv : v < k := h
    have hfresh : (List.replicate k 0).set v 1 ∉ keys (affineRemainder k v) := by
      intro hmem
      have hget := hkeys _ hmem v hv le_rfl
      rw [getD_unit v 1 v hv, if_pos rfl] at hget
      exact one_ne_zero hget
    have hstep : affineRemainder k (v + 1) = addAt (affineRemainder k v)
        ((List.replicate k 0).set v 1) (-1) := by
      rw [← insertAt_fresh hfresh, affineRemainder, List.range_succ, List.foldl_append]
      rfl
    rw [hstep]
    refine ⟨⟨hformed.addAt (-1) ⟨by simp, (sum_unit ⟨v, hv⟩ 1).le⟩, fun key hkey i hi hle => ?_⟩,
      fun x => ?_⟩
    · rcases mem_addAt.mp hkey with rfl | hkey
      · rw [getD_unit v 1 i hi, if_neg (by omega)]
      · exact hkeys key hkey i hi (by omega)
    · rw [evaluate_addAt, hvalue x, monomial_unit ⟨v, hv⟩ 1 x, leading_succ x ⟨v, hv⟩]
      push_cast
      ring

theorem affineRemainderPower_ok {preceding power : Nat} (h : preceding ≤ k)
    (hpower : power < 2 ^ 32) :
    ∃ result, affineRemainderPower k preceding power = .ok result ∧ Formed k power result ∧
      ∀ x : Fin k → ℝ, evaluateEntries result x = (1 - leading x preceding) ^ power := by
  obtain ⟨⟨hformed, -⟩, hvalue⟩ := affineRemainder_ok h
  have hpowers : ∀ count < 2 ^ 32, ∃ result, (List.range count).foldlM
      (fun result _ => exactPolynomialProduct result (affineRemainder k preceding) k)
      (constantOne k) = .ok result ∧
        Formed k count result ∧ ∀ x : Fin k → ℝ, evaluateEntries result x =
            (1 - leading x preceding) ^ count := by
    intro count
    induction count with
    | zero => exact fun _ =>
      ⟨constantOne k, rfl, formed_one, fun x => (evaluate_one x).trans (pow_zero _).symm⟩
    | succ count ih =>
      intro hcount
      obtain ⟨result, hresult, hresultFormed, hresultValue⟩ := ih (by omega)
      obtain ⟨next, hnext, hnextFormed, hnextValue⟩ := product_ok hresultFormed hformed hcount
      refine ⟨next, ?_, hnextFormed, fun x => ?_⟩
      · rw [List.range_succ, List.foldlM_append, hresult, ok_bind, List.foldlM_cons, hnext, ok_bind]
        rfl
      · rw [hnextValue x, hresultValue x, hvalue x, pow_succ]
  unfold affineRemainderPower
  split
  · next hzero =>
    subst hzero
    exact ⟨constantOne k, rfl, formed_one, fun x => (evaluate_one x).trans (pow_zero _).symm⟩
  · exact hpowers power hpower

end

end Xcelerator.Variational.Maynard
