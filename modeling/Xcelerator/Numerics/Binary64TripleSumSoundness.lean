import Mathlib
import Xcelerator.Foundations.Machine
import Xcelerator.Foundations.Binary64Rounding
import Xcelerator.Numerics.Binary64TripleSum

/-! # The rounded triple sum is the nearest binary64 value of the exact one

Every add changes the bins by its own contribution, so the bins of a run are a
sum in which the order does not matter. The digits of the final rounding are
those of the exact total in units of `2 ^ -3328`. -/

namespace Xcelerator.Numerics.Binary64TripleSum
open Foundations
open Foundations.Machine (bind_eq_ok ok_bind mapM_ok)

/-! ## Products of significands -/

theorem ofDigits_modify {B x : ℕ} {l : List ℕ} {i : ℕ} (h : i < l.length) :
    Nat.ofDigits B (l.modify i (· + x)) = Nat.ofDigits B l + x * B ^ i := by
  induction l generalizing i with
  | nil => cases h
  | cons d rest ih =>
    cases i with
    | zero =>
      rw [List.modify_zero_cons, Nat.ofDigits_cons, Nat.ofDigits_cons]
      ring
    | succ i =>
      rw [List.modify_succ_cons, Nat.ofDigits_cons, Nat.ofDigits_cons,
        ih (by simpa using h), pow_succ]
      ring

/-- The convolution of the limbs is the product of the numbers. -/
theorem convolve_value (product : List ℕ) (low high : ℕ) :
    Nat.ofDigits (2 ^ 32) (convolve product low high) =
      Nat.ofDigits (2 ^ 32) product * (low + 2 ^ 32 * high) ∧
      (convolve product low high).length = product.length + 2 := by
  have hrun : ∀ (entries : List ℕ) (start : ℕ) (cells : List ℕ), start + entries.length + 2 ≤
    cells.length →
      Nat.ofDigits (2 ^ 32) ((entries.zipIdx start).foldl (accumulate low high) cells) =
          Nat.ofDigits (2 ^ 32) cells + (2 ^ 32) ^ start * Nat.ofDigits
            (2 ^ 32) entries * (low + 2 ^ 32 * high) ∧
        ((entries.zipIdx start).foldl (accumulate low high) cells).length = cells.length := by
    intro entries
    induction entries with
    | nil => intro start cells _; simp
    | cons a entries ih =>
      intro start cells hlength
      rw [List.length_cons] at hlength
      rw [List.zipIdx_cons, List.foldl_cons]
      have hcells : (accumulate low high cells (a, start)).length = cells.length :=
        by simp [accumulate]
      obtain ⟨hvalue, hlen⟩ :=
        ih (start + 1) (accumulate low high cells (a, start)) (by rw [hcells]; omega)
      refine ⟨?_, by rw [hlen, hcells]⟩
      rw [hvalue, accumulate, ofDigits_modify (by simp; omega), ofDigits_modify (by omega),
        Nat.ofDigits_cons]
      ring
  obtain ⟨hvalue, hlen⟩ := hrun product 0 (List.replicate (product.length + 2) 0) (by simp)
  refine ⟨?_, by rw [convolve, hlen, List.length_replicate]⟩
  rw [convolve, hvalue, Nat.ofDigits_replicate_zero]
  ring

/-- The carry keeps the number and leaves limbs when the number fits. -/
theorem carryFrom_spec (rest : List ℕ) (current : ℕ)
    (h : current + 2 ^ 32 * Nat.ofDigits (2 ^ 32) rest < (2 ^ 32) ^ (rest.length + 1)) :
    Nat.ofDigits (2 ^ 32) (carryFrom current rest) = current + 2 ^ 32 * Nat.ofDigits (2 ^ 32) rest ∧
      ∀ x ∈ carryFrom current rest, x < 2 ^ 32 := by
  induction rest generalizing current with
  | nil =>
    simp only [carryFrom, List.mem_singleton, forall_eq, Nat.ofDigits_nil, Nat.ofDigits_singleton,
      Nat.mul_zero, Nat.add_zero, List.length_nil, Nat.zero_add, pow_one] at h ⊢
    exact ⟨trivial, h⟩
  | cons next rest ih =>
    have hmask : current &&& 0xffffffff = current % 2 ^ 32 :=
      Nat.and_two_pow_sub_one_eq_mod current 32
    have hsplit := Nat.div_add_mod current (2 ^ 32)
    rw [List.length_cons, pow_succ _ (rest.length + 1), Nat.ofDigits_cons] at h
    have hnext : next + current >>> 32 + 2 ^ 32 * Nat.ofDigits (2 ^ 32) rest <
        (2 ^ 32) ^ (rest.length + 1) := by
      rw [Nat.shiftRight_eq_div_pow]
      by_contra hge
      have hmul := Nat.mul_le_mul_right (2 ^ 32) (not_lt.mp hge)
      generalize (2 ^ 32) ^ (rest.length + 1) = bound at h hmul
      omega
    obtain ⟨hvalue, hlimbs⟩ := ih _ hnext
    refine ⟨?_, ?_⟩
    · rw [carryFrom, Nat.ofDigits_cons, hvalue, hmask, Nat.shiftRight_eq_div_pow, Nat.ofDigits_cons]
      omega
    · intro x hx
      rw [carryFrom] at hx
      rcases List.mem_cons.mp hx with rfl | hx
      · rw [hmask]
        exact Nat.mod_lt _ (by norm_num)
      · exact hlimbs x hx

/-- Limbs without leading zeros. -/
structure Limbs (limbs : List ℕ) : Prop where
  small : ∀ x ∈ limbs, x < 2 ^ 32
  last : limbs.getLast? ≠ some 0

theorem ofDigits_rdropWhile (B : ℕ) (l : List ℕ) :
    Nat.ofDigits B (l.rdropWhile (· == 0)) = Nat.ofDigits B l := by
  have hzeros : l.rtakeWhile (· == 0) = List.replicate (l.rtakeWhile (· == 0)).length 0 :=
    List.eq_replicate_iff.mpr ⟨rfl, fun x hx => by simpa using List.mem_rtakeWhile_imp hx⟩
  conv_rhs => rw [← List.rdropWhile_append_rtakeWhile (p := (· == 0)) (l := l)]
  rw [Nat.ofDigits_append, hzeros, Nat.ofDigits_replicate_zero, Nat.mul_zero, Nat.add_zero]

theorem multiply_spec {product : List ℕ} {significand : ℕ} (hproduct : ∀ x ∈ product, x < 2 ^ 32)
    (hsignificand : significand < 2 ^ 64) :
    ∃ limbs, multiply product significand = .ok limbs ∧ Limbs limbs ∧
      Nat.ofDigits (2 ^ 32) limbs = Nat.ofDigits (2 ^ 32) product * significand := by
  set low := significand % 2 ^ 32 with hlow
  set high := significand >>> 32 % 2 ^ 32 with hhigh
  have hparts : low + 2 ^ 32 * high = significand := by
    rw [hlow, hhigh, Nat.shiftRight_eq_div_pow]
    omega
  obtain ⟨hvalue, hlength⟩ := convolve_value product low high
  rw [hparts] at hvalue
  have hbound : Nat.ofDigits (2 ^ 32) product < (2 ^ 32) ^ product.length :=
    Nat.ofDigits_lt_base_pow_length (by norm_num) hproduct
  cases hcells : convolve product low high with
  | nil => simp [hcells] at hlength
  | cons first rest =>
    rw [hcells] at hvalue hlength
    rw [List.length_cons] at hlength
    rw [Nat.ofDigits_cons] at hvalue
    have hfits : first + 2 ^ 32 * Nat.ofDigits (2 ^ 32) rest < (2 ^ 32) ^ (rest.length + 1) := by
      have hpow : ((2 : ℕ) ^ 32) ^ (rest.length + 1) = (2 ^ 32) ^ product.length * 2 ^ 64 := by
        rw [hlength, pow_add]
        norm_num
      rw [hpow, hvalue]
      exact Nat.mul_lt_mul'' hbound hsignificand
    obtain ⟨hcarried, hlimbs⟩ := carryFrom_spec rest first hfits
    refine ⟨(carryFrom first rest).rdropWhile (· == 0), ?_, ⟨fun x hx => ?_, fun hlast => ?_⟩, ?_⟩
    · have hmap : (carryFrom first rest).mapM limb = .ok ((carryFrom first rest).map id) :=
        mapM_ok fun x hx => if_pos (hlimbs x hx)
      rw [multiply, ← hlow, ← hhigh, hcells, carried, hmap, ok_bind, List.map_id]
    · exact hlimbs x ((List.rdropWhile_prefix _ _).subset hx)
    · have hne : (carryFrom first rest).rdropWhile (· == 0) ≠ [] := by
        intro hempty
        rw [hempty] at hlast
        cases hlast
      have hkept := List.rdropWhile_last_not (· == 0) (carryFrom first rest) hne
      rw [List.getLast?_eq_some_getLast hne] at hlast
      rw [Option.some.inj hlast] at hkept
      exact hkept rfl
    · rw [ofDigits_rdropWhile, hcarried, hvalue]

/-- The number of limbs from the size of the number. -/
theorem Limbs.length_le {limbs : List ℕ} (h : Limbs limbs) {n : ℕ}
    (hbound : Nat.ofDigits (2 ^ 32) limbs < 2 ^ (32 * n)) :
    limbs.length ≤ n := by
  rcases List.eq_nil_or_concat limbs with rfl | ⟨front, x, rfl⟩
  · exact Nat.zero_le n
  · have hx : 1 ≤ x := by
      have := h.last
      simp only [List.concat_eq_append, List.getLast?_append, List.getLast?_singleton,
        Option.some_or] at this
      exact Nat.one_le_iff_ne_zero.mpr fun h0 => this (by rw [h0])
    rw [List.concat_eq_append, Nat.ofDigits_append, Nat.ofDigits_singleton] at hbound
    have hlow : (2 ^ 32) ^ front.length ≤ (2 ^ 32) ^ front.length * x :=
      Nat.le_mul_of_pos_right _ hx
    have hpow : 2 ^ (32 * front.length) < 2 ^ (32 * n) := by
      rw [pow_mul]
      omega
    have := (Nat.pow_lt_pow_iff_right (by norm_num)).mp hpow
    rw [List.concat_eq_append, List.length_append, List.length_singleton]
    omega

theorem isZero_iff (x : Binary64) : isZero x = true ↔ x.value = 0 := by
  rw [Binary64.value_eq_zero, isZero, beq_iff_eq, Binary64.significand, Binary64.encoded,
    Binary64.fraction]
  constructor
  · intro h
    rw [if_pos (by omega)]
    omega
  · intro h
    split at h <;> omega

/-- The fields that the loop reads. -/
theorem fields_eq (x : Binary64) :
    (x.bits >>> 52) &&& 0x7ff = x.encoded ∧
      ((x.bits &&& ((1 <<< 52) - 1)) ||| (if x.encoded = 0 then 0 else 1 <<< 52)) = x.significand ∧
      (x.bits >>> 63 ≠ 0 ↔ x.negative = true) := by
  have hexp : (x.bits >>> 52) &&& 0x7ff = x.encoded := by
    rw [Nat.shiftRight_eq_div_pow]
    exact Nat.and_two_pow_sub_one_eq_mod _ 11
  have hfrac : x.bits &&& ((1 <<< 52) - 1) = x.fraction := Nat.and_two_pow_sub_one_eq_mod _ 52
  refine ⟨hexp, ?_, ?_⟩
  · rw [hfrac, Binary64.significand]
    split
    · exact Nat.or_zero _
    · exact x.fraction_or
  · rw [Nat.shiftRight_eq_div_pow, Binary64.negative, bne_iff_ne]

/-- What the factors of a product stand for. -/
def Factors.value (f : Factors) : ℚ :=
  f.sign * (Nat.ofDigits (2 ^ 32) f.product : ℕ) * 2 ^ f.exponent

/-- Factors of a product of `n` values. -/
structure Factors.Sound (f : Factors) (n : ℕ) : Prop where
  sign : f.sign = 1 ∨ f.sign = -1
  limbs : Limbs f.product
  bound : (Nat.ofDigits (2 ^ 32) f.product : ℕ) < 2 ^ (53 * n + 1)
  exponent : -1074 * (n : ℤ) ≤ f.exponent ∧ f.exponent ≤ 971 * n

/-- One more factor. -/
theorem Factors.Sound.step {f : Factors} {n : ℕ} {x : Binary64} {product : List ℕ} (h : f.Sound n)
    (hx : x.isFinite = true) (hlimbs : Limbs product)
    (hproduct : Nat.ofDigits (2 ^ 32) product = Nat.ofDigits (2 ^ 32) f.product * x.significand) :
    let f' : Factors := { sign := if x.negative then
      -f.sign else f.sign, exponent := f.exponent + x.exponent, product }
    f'.Sound (n + 1) ∧ f'.value = f.value * x.value := by
  intro f'
  have hexponent := Binary64.exponent_bounds hx
  have hrange := h.exponent
  refine ⟨⟨?_, hlimbs, ?_, ?_⟩, ?_⟩
  · rcases h.sign with hs | hs <;> cases hneg : x.negative <;> simp [f', hs, hneg]
  · have hpow : 2 ^ (53 * (n + 1) + 1) = 2 ^ (53 * n + 1) * 2 ^ 53 := by
      rw [← pow_add]
      ring_nf
    rw [hpow]
    simp only [f', hproduct]
    exact Nat.mul_lt_mul'' h.bound x.significand_lt
  · push_cast
    simp only [f']
    constructor <;> linarith
  · have hcast : ((Nat.ofDigits (2 ^ 32) product : ℕ) : ℚ) = (Nat.ofDigits (2 ^ 32) f.product :
        ℕ) * x.significand := by
      rw [hproduct]
      push_cast
      rfl
    simp only [Factors.value, Binary64.value, Binary64.signed, f']
    rw [zpow_add₀ (by norm_num : (2 : ℚ) ≠ 0), hcast]
    cases x.negative
    · simp only [Bool.false_eq_true, if_false, Int.cast_natCast]
      ring
    · simp only [if_true, Int.cast_neg, Int.cast_natCast]
      ring

/-- The loop over finite values: a zero one ends it, or the factors are those of the whole
product. -/
theorem multiplyAll_spec {values : List Binary64} {f : Factors} {n : ℕ}
    (hfinite : ∀ x ∈ values, x.isFinite = true) (hf : f.Sound n) :
    (multiplyAll values f = .ok none ∧ (values.map Binary64.value).prod = 0) ∨
      ∃ f', multiplyAll values f = .ok (some f') ∧ f'.Sound (n + values.length) ∧
        f'.value = f.value * (values.map Binary64.value).prod := by
  induction values generalizing f n with
  | nil => exact .inr ⟨f, rfl, hf, by simp⟩
  | cons x rest ih =>
    have hx := hfinite x List.mem_cons_self
    rw [multiplyAll, if_neg (by simp [hx])]
    by_cases hzero : isZero x = true
    · left
      rw [if_pos hzero, List.map_cons, List.prod_cons, (isZero_iff x).mp hzero, zero_mul]
      exact ⟨rfl, rfl⟩
    · obtain ⟨hencoded, hsignificand, hnegative⟩ := fields_eq x
      obtain ⟨product, hmultiply, hlimbs, hproduct⟩ := multiply_spec hf.limbs.small
        (lt_of_lt_of_le x.significand_lt (by norm_num))
      obtain ⟨hstep, hvalue⟩ := hf.step hx hlimbs hproduct
      rw [if_neg hzero]
      simp only [hencoded, hsignificand, hmultiply, ok_bind, hnegative]
      rcases ih (fun y hy => hfinite y (List.mem_cons_of_mem _ hy)) hstep with ⟨hrun, hprod⟩
        | ⟨f', hrun, hsound, hprod⟩
      · left
        rw [List.map_cons, List.prod_cons, hprod, mul_zero]
        exact ⟨hrun, rfl⟩
      · right
        refine ⟨f', hrun, ?_, ?_⟩
        · rwa [List.length_cons, Nat.add_comm rest.length 1, ← Nat.add_assoc]
        · rw [hprod, hvalue, List.map_cons, List.prod_cons, mul_assoc]

/-! ## Bins -/

/-- The bins as a function of the index. -/
def cells (bins : List ℤ) : ℕ → ℤ := fun i => bins.getD i 0

/-- The total of the bins in units of the lowest one. -/
def binValue (f : ℕ → ℤ) : ℤ := ∑ i ∈ Finset.range binCount, f i * radix ^ i

theorem binValue_add (f g : ℕ → ℤ) : binValue (f + g) = binValue f + binValue g := by
  rw [binValue, binValue, binValue, ← Finset.sum_add_distrib]
  exact Finset.sum_congr rfl fun i _ => by rw [Pi.add_apply, add_mul]

theorem binValue_zero : binValue 0 = 0 := by simp [binValue]

theorem binValue_single {i : ℕ} (x : ℤ) (h : i < binCount) :
    binValue (Pi.single i x) = x * radix ^ i := by
  rw [binValue, Finset.sum_eq_single i]
  · rw [Pi.single_eq_same]
  · intro j _ hj
    rw [Pi.single_eq_of_ne hj, zero_mul]
  · intro hi
    exact absurd (Finset.mem_range.mpr h) hi

/-- What adding limbs from an index on changes. -/
def limbContribution (sign : ℤ) (bits : ℕ) : List ℕ → ℕ → ℕ → ℤ
  | [], _ => 0
  | limb :: rest, index =>
    Pi.single index (sign * ((limb <<< bits : ℕ) : ℤ)) + limbContribution sign bits rest (index + 1)

theorem limbContribution_below {sign : ℤ} {bits : ℕ} {limbs : List ℕ} {index i : ℕ}
    (h : i < index) :
    limbContribution sign bits limbs index i = 0 := by
  induction limbs generalizing index with
  | nil => rfl
  | cons limb rest ih =>
    rw [limbContribution, Pi.add_apply, Pi.single_eq_of_ne (by omega), ih (by omega), add_zero]

theorem limbContribution_above {sign : ℤ} {bits : ℕ} {limbs : List ℕ} {index i : ℕ}
    (h : index + limbs.length ≤ i) :
    limbContribution sign bits limbs index i = 0 := by
  induction limbs generalizing index with
  | nil => rfl
  | cons limb rest ih =>
    rw [List.length_cons] at h
    rw [limbContribution, Pi.add_apply, Pi.single_eq_of_ne (by omega), ih (by omega), add_zero]

theorem limbContribution_value {sign : ℤ} {bits : ℕ} {limbs : List ℕ} {index : ℕ}
    (h : index + limbs.length ≤ binCount) :
    binValue (limbContribution sign bits limbs index) =
      sign * (Nat.ofDigits (2 ^ 32) limbs : ℕ) * 2 ^ bits * radix ^ index := by
  induction limbs generalizing index with
  | nil => simp [limbContribution, binValue]
  | cons limb rest ih =>
    rw [List.length_cons] at h
    rw [limbContribution, binValue_add, binValue_single _ (by omega), ih (by omega),
      Nat.ofDigits_cons, Nat.shiftLeft_eq, pow_succ radix, radix]
    push_cast
    ring

/-- A contribution stays below `2 ^ 63`. -/
theorem abs_limbContribution_lt {sign : ℤ} {bits : ℕ} {limbs : List ℕ}
    (hsign : sign = 1 ∨ sign = -1) (hbits : bits < 32)
    (hlimbs : ∀ x ∈ limbs, x < 2 ^ 32) (index i : ℕ) :
    |limbContribution sign bits limbs index i| < 2 ^ 63 := by
  induction limbs generalizing index with
  | nil => simp [limbContribution]
  | cons limb rest ih =>
    rw [limbContribution, Pi.add_apply]
    by_cases hi : i = index
    · have hlimb := hlimbs limb List.mem_cons_self
      have hshift : limb <<< bits < 2 ^ 63 := by
        rw [Nat.shiftLeft_eq]
        calc limb * 2 ^ bits ≤ (2 ^ 32 - 1) * 2 ^ 31 :=
              Nat.mul_le_mul (by omega) (Nat.pow_le_pow_right (by norm_num) (by omega))
          _ < 2 ^ 63 := by norm_num
      rw [hi, Pi.single_eq_same, limbContribution_below (Nat.lt_succ_self index), add_zero, abs_mul]
      rcases hsign with hs | hs <;> rw [hs] <;> simp only [abs_one, abs_neg, one_mul, Nat.abs_cast]
        <;> exact_mod_cast hshift
    · rw [Pi.single_eq_of_ne hi, zero_add]
      exact ih (fun x hx => hlimbs x (List.mem_cons_of_mem _ hx)) (index + 1)

theorem cells_set {bins : List ℤ} {index : ℕ} (x : ℤ) (h : index < bins.length) :
    cells (bins.set index (bins.getD index 0 + x)) = cells bins + Pi.single index x := by
  funext i
  rw [Pi.add_apply, cells, cells]
  by_cases hi : i = index
  · subst hi
    rw [Pi.single_eq_same, List.getD_eq_getElem _ _ (by simpa using h), List.getElem_set_self]
  · rw [Pi.single_eq_of_ne hi, add_zero, List.getD_eq_getElem?_getD,
      List.getElem?_set_ne (Ne.symm hi), ← List.getD_eq_getElem?_getD]

theorem checkedI128_ok {text : String} {x y : ℤ} (h : checkedI128 text x = .ok y) :
    y = x ∧ -2 ^ 127 ≤ x ∧ x < 2 ^ 127 := by
  unfold checkedI128 at h
  split at h
  · rename_i hrange
    cases h
    exact ⟨rfl, hrange⟩
  · cases h

/-- Adding limbs succeeds with their contribution, or reports the count. -/
theorem addLimbs_spec (sign : ℤ) (bits : ℕ) {limbs : List ℕ} {index : ℕ} {bins : List ℤ}
    (h : index + limbs.length ≤ bins.length) :
    (∃ bins', addLimbs sign bits limbs index bins = .ok bins' ∧ bins'.length = bins.length ∧
        cells bins' = cells bins + limbContribution sign bits limbs index) ∨
      (addLimbs sign bits limbs index bins = bail "exact binary64 sum count overflow" ∧
        ∃ i, ¬ (-2 ^ 127 ≤ (cells bins + limbContribution sign bits limbs index) i ∧
          (cells bins + limbContribution sign bits limbs index) i < 2 ^ 127)) := by
  induction limbs generalizing index bins with
  | nil => exact .inl ⟨bins, rfl, rfl, by simp [limbContribution]⟩
  | cons limb rest ih =>
    rw [List.length_cons] at h
    have hindex : index < bins.length := by omega
    have hcell : bins[index]? = some (bins.getD index 0) := by
      rw [List.getElem?_eq_getElem hindex, List.getD_eq_getElem _ _ hindex]
    set x : ℤ := sign * ((limb <<< bits : ℕ) : ℤ) with hx
    have hat : (cells bins + limbContribution sign bits (limb :: rest) index) index =
        bins.getD index 0 + x := by
      rw [limbContribution, Pi.add_apply, Pi.add_apply, Pi.single_eq_same,
        limbContribution_below (Nat.lt_succ_self index), add_zero]
      rfl
    rw [addLimbs, hcell]
    simp only [← hx]
    by_cases hrange : -2 ^ 127 ≤ bins.getD index 0 + x ∧ bins.getD index 0 + x < 2 ^ 127
    · have hcheck : checkedI128 "exact binary64 sum count overflow" (bins.getD index 0 + x) =
          .ok (bins.getD index 0 + x) := if_pos hrange
      have hcells := cells_set x hindex
      have hsum : cells bins + limbContribution sign bits (limb :: rest) index =
          cells (bins.set index (bins.getD index 0 + x)) + limbContribution sign bits rest
              (index + 1) := by
        rw [hcells, limbContribution, add_assoc]
      rw [hcheck, ok_bind, hsum]
      have hlength : (bins.set index (bins.getD index 0 + x)).length = bins.length :=
        List.length_set
      have hroom : index + 1 + rest.length ≤ (bins.set index (bins.getD index 0 + x)).length := by
        rw [hlength]
        omega
      have := ih hroom
      rwa [hlength] at this
    · right
      refine ⟨?_, index, by rwa [hat]⟩
      rw [checkedI128, if_neg hrange]
      rfl

/-! ## A run of adds -/

/-- The exact product of a triple. -/
def Triple.product (t : Triple) : ℚ := (t.values.map Binary64.value).prod

/-- A triple of finite values. -/
def Triple.Finite (t : Triple) : Prop := ∀ x ∈ t.values, x.isFinite = true

/-- The contribution of a triple: a zero factor changes nothing. -/
def contribution (t : Triple) : ℕ → ℤ :=
  match multiplyAll t.values ⟨1, 0, [1]⟩ with
  | .ok (some f) => limbContribution f.sign ((f.exponent - baseExp).toNat % 32) f.product
      ((f.exponent - baseExp).toNat / 32)
  | _ => 0

/-- The bins that products can reach. -/
def reached : ℕ := 200

/-- What a contribution is: the exact product in units of the lowest bin, inside the reached
bins. -/
structure Contributes (t : Triple) : Prop where
  value : (binValue (contribution t) : ℚ) * 2 ^ baseExp = t.product
  small : ∀ i, |contribution t i| < 2 ^ 63
  inside : ∀ i, reached ≤ i → contribution t i = 0

theorem start_sound : Factors.Sound ⟨1, 0, [1]⟩ 0 := by
  refine ⟨.inl rfl, ⟨by simp, by simp⟩, by simp, by simp⟩

/-- What an add of a finite triple does. -/
theorem add_spec {self : TripleSum} {t : Triple} (hself : self.bins.length = binCount)
    (ht : t.Finite) :
    Contributes t ∧
      ((∃ self', self.add t = .ok self' ∧ self'.bins.length = binCount ∧
          cells self'.bins = cells self.bins + contribution t) ∨
        (self.add t = bail "exact binary64 sum count overflow" ∧
          ∃ i, ¬ (-2 ^ 127 ≤ (cells self.bins + contribution t) i ∧
            (cells self.bins + contribution t) i < 2 ^ 127))) := by
  have hfinite : t.values.any (!·.isFinite) = false := by
    rw [List.any_eq_false]
    intro x hx
    simp [ht x hx]
  have hstart : Factors.value ⟨1, 0, [1]⟩ = 1 := by simp [Factors.value]
  rcases multiplyAll_spec ht start_sound with ⟨hrun, hprod⟩ | ⟨f, hrun, hsound, hprod⟩
  · have hnone : contribution t = 0 := by rw [contribution, hrun]
    refine ⟨⟨?_, ?_, ?_⟩, .inl ⟨self, ?_, hself, ?_⟩⟩
    · rw [hnone, binValue_zero, Triple.product, hprod]
      simp
    · simp [hnone]
    · simp [hnone]
    · rw [TripleSum.add, if_neg (by rw [hfinite]; exact Bool.false_ne_true), hrun, ok_bind]
    · rw [hnone, add_zero]
  · obtain ⟨hlow, hhigh⟩ := hsound.exponent
    have hlength : t.values.length = 3 := rfl
    rw [hlength, Nat.zero_add] at hlow hhigh
    have hbound := hsound.bound
    rw [hlength, Nat.zero_add] at hbound
    have hlimbs : f.product.length ≤ 5 :=
      hsound.limbs.length_le (lt_of_lt_of_le hbound (by norm_num))
    set shift := (f.exponent - baseExp).toNat with hshift
    have hcast : (shift : ℤ) = f.exponent + 3328 := by
      rw [hshift, Int.toNat_of_nonneg (by unfold baseExp; omega)]
      unfold baseExp
      ring
    have hinside : shift / 32 + f.product.length ≤ reached := by
      unfold reached
      push_cast at hlow hhigh
      omega
    have hcontribution : contribution t = limbContribution f.sign (shift % 32) f.product
        (shift / 32) := by
      rw [contribution, hrun]
    have hroom : shift / 32 + f.product.length ≤ self.bins.length := by
      rw [hself]
      exact hinside.trans (by decide)
    refine ⟨⟨?_, ?_, ?_⟩, ?_⟩
    · rw [hstart, one_mul] at hprod
      have hpow : (2 : ℚ) ^ (shift % 32) * (2 ^ 32) ^ (shift / 32) * 2 ^ baseExp =
          2 ^ f.exponent := by
        have hdiv : 32 * (shift / 32) + shift % 32 = shift := Nat.div_add_mod shift 32
        rw [← pow_mul, ← pow_add, Nat.add_comm, hdiv, ← zpow_natCast,
          ← zpow_add₀ (by norm_num : (2 : ℚ) ≠ 0), hcast]
        congr 1
        unfold baseExp
        ring
      rw [hcontribution, limbContribution_value (hinside.trans (by decide)), Triple.product,
        ← hprod, Factors.value, radix, ← hpow]
      simp only [Int.cast_mul, Int.cast_pow, Int.cast_natCast, Int.cast_ofNat]
      ring
    · intro i
      rw [hcontribution]
      exact abs_limbContribution_lt hsound.sign (Nat.mod_lt _ (by norm_num)) hsound.limbs.small _ i
    · intro i hi
      rw [hcontribution]
      exact limbContribution_above (hinside.trans hi)
    · have hadd : self.add t = (do
          let bins ← addLimbs f.sign (shift % 32) f.product (shift / 32) self.bins
          .ok ⟨bins⟩) := by
        rw [TripleSum.add, if_neg (by rw [hfinite]; exact Bool.false_ne_true), hrun, ok_bind]
        simp only [← hshift]
        rw [if_neg (by unfold baseExp; push_cast at hlow; omega)]
      rw [hadd, hcontribution]
      rcases addLimbs_spec f.sign (shift % 32) hroom with ⟨bins', hbins, hlen, hcells⟩
        | ⟨hfail, hout⟩
      · left
        exact ⟨⟨bins'⟩, by rw [hbins, ok_bind], by rw [hlen, hself], hcells⟩
      · right
        exact ⟨by rw [hfail]; rfl, hout⟩

/-- The adds of a run in order. -/
def addAll (self : TripleSum) (triples : List Triple) : Result TripleSum :=
  triples.foldlM TripleSum.add self

/-- The bins after a run are the sum of the contributions. -/
theorem addAll_cells {self self' : TripleSum} {triples : List Triple}
    (hself : self.bins.length = binCount)
    (ht : ∀ t ∈ triples, t.Finite) (h : addAll self triples = .ok self') :
    self'.bins.length = binCount ∧
    cells self'.bins = cells self.bins + (triples.map contribution).sum := by
  induction triples generalizing self with
  | nil =>
    cases h
    exact ⟨hself, by simp⟩
  | cons t rest ih =>
    rw [addAll, List.foldlM_cons] at h
    obtain ⟨next, hnext, h⟩ := bind_eq_ok h
    obtain ⟨_, hadd⟩ := add_spec hself (ht t List.mem_cons_self)
    rcases hadd with ⟨next', hok, hlength, hcells⟩ | ⟨hfail, _⟩
    · rw [hok] at hnext
      cases hnext
      obtain ⟨hlen, hsum⟩ := ih hlength (fun u hu => ht u (List.mem_cons_of_mem _ hu)) h
      refine ⟨hlen, ?_⟩
      rw [hsum, hcells, List.map_cons, List.sum_cons, add_assoc]
    · rw [hfail] at hnext
      cases hnext

/-! ## Digits of the total -/

/-- The number with the given base `2 ^ 32` digits, the lowest first. -/
def listValue : List ℤ → ℤ
  | [] => 0
  | x :: rest => x + radix * listValue rest

theorem listValue_eq (bins : List ℤ) :
    listValue bins = ∑ i ∈ Finset.range bins.length, cells bins i * radix ^ i := by
  induction bins with
  | nil => rfl
  | cons x rest ih =>
    rw [listValue, ih, List.length_cons, Finset.sum_range_succ', Finset.mul_sum, add_comm]
    congr 1
    · refine Finset.sum_congr rfl fun i _ => ?_
      have : cells (x :: rest) (i + 1) = cells rest i := rfl
      rw [this, pow_succ]
      ring
    · simp [cells]

theorem binValue_cells {bins : List ℤ} (h : bins.length = binCount) :
    binValue (cells bins) = listValue bins := by
  rw [listValue_eq, h, binValue]

/-- Digits, except that the last one is unrestricted. -/
def AlmostDigits : List ℤ → Prop
  | [] => True
  | [_] => True
  | x :: rest => (0 ≤ x ∧ x < radix) ∧ AlmostDigits rest

/-- A carry that does not overflow keeps the number; it only fails to fit. -/
theorem normalizeFrom_spec (rest : List ℤ) (current : ℤ) :
    (∃ digits, normalizeFrom current rest = .ok digits ∧ digits.length = rest.length + 1 ∧
        listValue digits = current + radix * listValue rest ∧ AlmostDigits digits) ∨
      normalizeFrom current rest = bail "binary64 accumulator carry overflow" := by
  induction rest generalizing current with
  | nil => exact .inl ⟨[current], rfl, rfl, by simp [listValue], trivial⟩
  | cons next rest ih =>
    rw [normalizeFrom]
    by_cases hrange : -2 ^ 127 ≤ next + current / radix ∧ next + current / radix < 2 ^ 127
    · have hcheck : checkedI128 "binary64 accumulator carry overflow" (next + current / radix) =
          .ok (next + current / radix) := if_pos hrange
      rw [hcheck, ok_bind]
      rcases ih (next + current / radix) with ⟨digits, hrun, hlength, hvalue, hdigits⟩ | hfail
      · left
        refine ⟨current % radix :: digits, by rw [hrun, ok_bind], by
          rw [List.length_cons, hlength, List.length_cons], ?_, ?_⟩
        · have hsplit := Int.emod_add_mul_ediv current radix
          rw [listValue, hvalue, listValue]
          linear_combination hsplit
        · have hmod : 0 ≤ current % radix ∧ current % radix < radix :=
            ⟨Int.emod_nonneg _ (by decide), Int.emod_lt_of_pos _ (by decide)⟩
          cases digits with
          | nil => simp at hlength
          | cons y digits => exact ⟨hmod, hdigits⟩
      · right
        rw [hfail]
        rfl
    · right
      rw [checkedI128, if_neg hrange]
      rfl

theorem normalize_spec {bins : List ℤ} (h : bins.length = binCount) :
    (∃ digits, normalize bins = .ok digits ∧ digits.length = binCount ∧
      listValue digits = listValue bins ∧
        AlmostDigits digits) ∨
      normalize bins = bail "binary64 accumulator carry overflow" := by
  cases bins with
  | nil => cases h
  | cons first rest =>
    rcases normalizeFrom_spec rest first with ⟨digits, hrun, hlength, hvalue, hdigits⟩ | hfail
    · exact .inl ⟨digits, hrun, by rw [hlength, ← h, List.length_cons], hvalue, hdigits⟩
    · exact .inr hfail

/-- A carry of bins that leave room never overflows. -/
theorem normalizeFrom_ok (rest : List ℤ) (current : ℤ) (hcurrent : |current| ≤ 2 ^ 126 + 2 ^ 95)
    (hrest : ∀ x ∈ rest, |x| ≤ 2 ^ 126) : ∃ digits, normalizeFrom current rest = .ok digits := by
  induction rest generalizing current with
  | nil => exact ⟨[current], rfl⟩
  | cons next rest ih =>
    have hnext := abs_le.mp (hrest next List.mem_cons_self)
    have habs := abs_le.mp hcurrent
    have hcarry : |next + current / radix| ≤ 2 ^ 126 + 2 ^ 95 := by
      unfold radix
      rw [abs_le]
      omega
    have hbounds := abs_le.mp hcarry
    have hcheck : checkedI128 "binary64 accumulator carry overflow" (next + current / radix) =
        .ok (next + current / radix) := if_pos (by constructor <;> linarith)
    obtain ⟨digits, hrun⟩ := ih _ hcarry fun x hx => hrest x (List.mem_cons_of_mem _ hx)
    exact ⟨current % radix :: digits, by rw [normalizeFrom, hcheck, ok_bind, hrun, ok_bind]⟩

theorem normalize_ok {bins : List ℤ} (h : ∀ x ∈ bins, |x| ≤ 2 ^ 126) :
    ∃ digits, normalize bins = .ok digits := by
  cases bins with
  | nil => exact ⟨[], rfl⟩
  | cons first rest =>
    have hfirst := h first List.mem_cons_self
    exact normalizeFrom_ok rest first (hfirst.trans (by norm_num)) fun x hx =>
      h x (List.mem_cons_of_mem _ hx)

/-- Below the last digit the number is below its power of the radix. -/
theorem AlmostDigits.last {digits : List ℤ} (h : AlmostDigits digits) (hne : digits ≠ []) :
    digits.getD (digits.length - 1) 0 * radix ^ (digits.length - 1) ≤ listValue digits ∧
      listValue digits < (digits.getD (digits.length - 1) 0 + 1) * radix ^ (digits.length - 1) := by
  induction digits with
  | nil => exact absurd rfl hne
  | cons x rest ih =>
    cases rest with
    | nil => simp [listValue]
    | cons y rest =>
      obtain ⟨hx, hrest⟩ := h
      obtain ⟨hlow, hhigh⟩ := ih hrest (by simp)
      have hget : (x :: y :: rest).getD ((x :: y :: rest).length - 1) 0 =
          (y :: rest).getD ((y :: rest).length - 1) 0 := by
        simp
      have hpow : radix ^ ((x :: y :: rest).length - 1) =
          radix * radix ^ ((y :: rest).length - 1) := by
        simp [pow_succ, mul_comm]
      have hpos : 0 < radix := by decide
      rw [hget, hpow, listValue]
      constructor
      · nlinarith
      · nlinarith

/-- Base `2 ^ 32` digits. -/
def Digits (digits : List ℤ) : Prop := ∀ x ∈ digits, 0 ≤ x ∧ x < radix

theorem AlmostDigits.digits {digits : List ℤ} (h : AlmostDigits digits)
    (hlast : 0 ≤ digits.getD (digits.length - 1) 0 ∧ digits.getD (digits.length - 1) 0 < radix) :
    Digits digits := by
  induction digits with
  | nil => intro x hx; cases hx
  | cons x rest ih =>
    cases rest with
    | nil =>
      intro y hy
      rw [List.mem_singleton.mp hy]
      simpa using hlast
    | cons y rest =>
      obtain ⟨hx, hrest⟩ := h
      have htail := ih hrest (by simpa using hlast)
      intro z hz
      rcases List.mem_cons.mp hz with rfl | hz
      · exact hx
      · exact htail z hz

/-- A total that the reached bins hold lies below the last bin. -/
theorem abs_binValue_lt {f : ℕ → ℤ} (hsmall : ∀ i, |f i| ≤ 2 ^ 127)
    (hinside : ∀ i, reached ≤ i → f i = 0) :
    |binValue f| < radix ^ (binCount - 1) := by
  have hsplit : binValue f = ∑ i ∈ Finset.range reached, f i * radix ^ i := by
    refine (Finset.sum_subset (Finset.range_subset_range.mpr (by decide)) fun i _ hi => ?_).symm
    rw [hinside i (by simpa using hi), zero_mul]
  have hterm : ∀ i ∈ Finset.range reached, |f i * radix ^ i| ≤ 2 ^ 127 * radix ^ i := by
    intro i _
    have hpow : (0 : ℤ) < radix ^ i := pow_pos (by decide) i
    rw [abs_mul, abs_of_pos hpow]
    exact mul_le_mul_of_nonneg_right (hsmall i) hpow.le
  calc |binValue f| ≤ ∑ i ∈ Finset.range reached, |f i * radix ^ i| := by
        rw [hsplit]
        exact Finset.abs_sum_le_sum_abs _ _
    _ ≤ ∑ i ∈ Finset.range reached, 2 ^ 127 * radix ^ i := Finset.sum_le_sum hterm
    _ = 2 ^ 127 * ∑ i ∈ Finset.range reached, radix ^ i := by rw [Finset.mul_sum]
    _ ≤ 2 ^ 127 * radix ^ reached := by
        refine mul_le_mul_of_nonneg_left ?_ (by norm_num)
        have hgeom := mul_geom_sum radix reached
        have hpos : 0 ≤ ∑ i ∈ Finset.range reached, radix ^ i :=
          Finset.sum_nonneg fun i _ => (pow_pos (by decide) i).le
        have hradix : (1 : ℤ) ≤ radix - 1 := by decide
        nlinarith
    _ < radix ^ (binCount - 1) := by
        rw [radix, reached, binCount, ← pow_mul, ← pow_mul, ← pow_add]
        exact pow_lt_pow_right₀ (by norm_num) (by norm_num)

theorem listValue_neg (bins : List ℤ) : listValue (bins.map fun x => -x) = -listValue bins := by
  induction bins with
  | nil => rfl
  | cons x rest ih =>
    rw [List.map_cons, listValue, listValue, ih]
    ring

/-- One bin out of range refuses the whole pass. -/
theorem mapM_refused {text : String} {bins : List ℤ}
    (h : ¬ ∀ x ∈ bins, -2 ^ 127 ≤ -x ∧ -x < 2 ^ 127) :
    (bins.mapM fun x => checkedI128 text (-x)) = bail text := by
  induction bins with
  | nil => exact absurd (fun x hx => by cases hx) h
  | cons x rest ih =>
    rw [List.mapM_cons]
    by_cases hx : -2 ^ 127 ≤ -x ∧ -x < 2 ^ 127
    · have hcheck : checkedI128 text (-x) = .ok (-x) := if_pos hx
      have hrest : ¬ ∀ y ∈ rest, -2 ^ 127 ≤ -y ∧ -y < 2 ^ 127 := by
        intro hall
        refine h fun y hy => ?_
        rcases List.mem_cons.mp hy with rfl | hy
        · exact hx
        · exact hall y hy
      rw [hcheck, ok_bind, ih hrest]
      rfl
    · have hcheck : checkedI128 text (-x) = bail text := if_neg hx
      rw [hcheck]
      rfl

/-- The accumulator's own refusals. -/
def AccumulatorOverflow (result : Result Binary64) : Prop :=
  result = bail "binary64 accumulator carry overflow" ∨
    result = bail "binary64 accumulator sign overflow"

/-- Finishing refuses by itself, or rounds the digits of the magnitude. -/
theorem finish_cases {self : TripleSum} (hlength : self.bins.length = binCount)
    (htotal : |listValue self.bins| < radix ^ (binCount - 1)) :
    (AccumulatorOverflow self.finish ∧ ∃ x ∈ self.bins, 2 ^ 126 < |x|) ∨
      ∃ digits, self.finish = encode (decide (listValue self.bins < 0)) digits ∧
      digits.length = binCount ∧
        Digits digits ∧ listValue digits = |listValue self.bins| := by
  obtain ⟨hlow, hhigh⟩ := abs_lt.mp htotal
  have hpow : (0 : ℤ) < radix ^ (binCount - 1) := pow_pos (by decide) _
  have hlastOf : ∀ digits : List ℤ, digits.length = binCount → AlmostDigits digits →
      digits.getD (binCount - 1) 0 * radix ^ (binCount - 1) ≤ listValue digits ∧
        listValue digits < (digits.getD (binCount - 1) 0 + 1) * radix ^ (binCount - 1) := by
    intro digits hlen halmost
    have := halmost.last (by rintro rfl; cases hlen)
    rwa [hlen] at this
  -- a refused carry comes from a bin that leaves no room
  have hroom : ∀ bins : List ℤ, normalize bins = bail "binary64 accumulator carry overflow" →
      ∃ x ∈ bins, 2 ^ 126 < |x| := by
    intro bins hfail
    by_contra hnone
    push Not at hnone
    obtain ⟨digits, hdigits⟩ := normalize_ok hnone
    rw [hfail] at hdigits
    cases hdigits
  rcases normalize_spec hlength with ⟨digits, hrun, hlen, hvalue, halmost⟩ | hfail
  · obtain ⟨h1, h2⟩ := hlastOf digits hlen halmost
    rw [hvalue] at h1 h2
    by_cases hnegative : digits.getD (binCount - 1) 0 < 0
    · have hneg : listValue self.bins < 0 := by nlinarith
      by_cases hall : ∀ x ∈ self.bins, -2 ^ 127 ≤ -x ∧ -x < 2 ^ 127
      · have hmap : (self.bins.mapM fun x =>
          checkedI128 "binary64 accumulator sign overflow" (-x)) =
            .ok (self.bins.map fun x => -x) := mapM_ok fun x hx => if_pos (hall x hx)
        have hlength' : (self.bins.map fun x => -x).length = binCount :=
          by rw [List.length_map, hlength]
        rcases normalize_spec hlength' with ⟨digits', hrun', hlen', hvalue', halmost'⟩ | hfail'
        · right
          rw [listValue_neg] at hvalue'
          obtain ⟨h3, h4⟩ := hlastOf digits' hlen' halmost'
          rw [hvalue'] at h3 h4
          have hzero : digits'.getD (binCount - 1) 0 = 0 := by
            have hle : digits'.getD (binCount - 1) 0 < 1 := by
              by_contra hge
              nlinarith
            have hge : -1 < digits'.getD (binCount - 1) 0 := by
              by_contra hlt
              nlinarith
            omega
          refine ⟨digits', ?_, hlen', halmost'.digits (by rw [hlen', hzero]; decide), by
            rw [hvalue', abs_of_neg hneg]⟩
          rw [TripleSum.finish, hrun, ok_bind]
          simp only [oriented, hnegative, decide_true, if_true, hmap, ok_bind, hrun', hneg, hzero]
          rfl
        · left
          refine ⟨.inl ?_, ?_⟩
          · rw [TripleSum.finish, hrun, ok_bind]
            simp only [oriented, hnegative, decide_true, if_true, hmap, ok_bind, hfail']
            rfl
          · obtain ⟨x, hx, hlarge⟩ := hroom _ hfail'
            obtain ⟨y, hy, rfl⟩ := List.mem_map.mp hx
            exact ⟨y, hy, by rwa [abs_neg] at hlarge⟩
      · left
        have hmap : (self.bins.mapM fun x =>
          checkedI128 "binary64 accumulator sign overflow" (-x)) =
            bail "binary64 accumulator sign overflow" := mapM_refused hall
        refine ⟨.inr ?_, ?_⟩
        · rw [TripleSum.finish, hrun, ok_bind]
          simp only [oriented, hnegative, decide_true, if_true, hmap]
          rfl
        · by_contra hnone
          push Not at hnone
          refine hall fun x hx => ?_
          have := abs_le.mp (hnone x hx)
          constructor <;> linarith
    · right
      have hzero : digits.getD (binCount - 1) 0 = 0 := by
        have hle : digits.getD (binCount - 1) 0 < 1 := by
          by_contra hge
          nlinarith
        omega
      have hnonneg : ¬ listValue self.bins < 0 := by
        rw [hzero] at h1
        omega
      refine ⟨digits, ?_, hlen, halmost.digits (by rw [hlen, hzero]; decide), by
        rw [hvalue, abs_of_nonneg (not_lt.mp hnonneg)]⟩
      rw [TripleSum.finish, hrun, ok_bind]
      simp only [oriented, hnegative, decide_false, Bool.false_eq_true, if_false, ok_bind, hnonneg]
      rw [hzero, if_neg (by decide)]
  · left
    refine ⟨.inl ?_, hroom _ hfail⟩
    rw [TripleSum.finish, hfail]
    rfl

/-! ## Bits of the digits -/

/-- The digits as a natural number. -/
def natural (digits : List ℤ) : ℕ := Nat.ofDigits (2 ^ 32) (digits.map Int.toNat)

theorem listValue_natural {digits : List ℤ} (h : Digits digits) :
    listValue digits = natural digits := by
  induction digits with
  | nil => rfl
  | cons x rest ih =>
    have hx := h x List.mem_cons_self
    have hrest := ih fun y hy => h y (List.mem_cons_of_mem _ hy)
    unfold natural at hrest ⊢
    rw [listValue, hrest, List.map_cons, Nat.ofDigits_cons, Nat.cast_add, Nat.cast_mul,
      Int.toNat_of_nonneg hx.1]
    rfl

theorem toNat_lt {digits : List ℤ} (h : Digits digits) :
    ∀ x ∈ digits.map Int.toNat, x < 2 ^ 32 := by
  intro x hx
  obtain ⟨y, hy, rfl⟩ := List.mem_map.mp hx
  have := h y hy
  unfold radix at this
  omega

theorem testBit_ofDigits {ds : List ℕ} (h : ∀ d ∈ ds, d < 2 ^ 32) (i : ℕ) :
    (Nat.ofDigits (2 ^ 32) ds).testBit i = (ds.getD (i / 32) 0).testBit (i % 32) := by
  induction ds generalizing i with
  | nil => simp
  | cons d rest ih =>
    have hd := h d List.mem_cons_self
    have hrest := ih fun y hy => h y (List.mem_cons_of_mem _ hy)
    rw [Nat.ofDigits_cons, Nat.add_comm, Nat.testBit_two_pow_mul_add _ hd]
    by_cases hi : i < 32
    · rw [if_pos hi, Nat.div_eq_of_lt hi, Nat.mod_eq_of_lt hi, List.getD_cons_zero]
    · have hdiv : i / 32 = (i - 32) / 32 + 1 := by omega
      have hmod : i % 32 = (i - 32) % 32 := by omega
      rw [if_neg hi, hrest, hdiv, List.getD_cons_succ, hmod]

/-- The closure reads the bits of the number. -/
theorem bit_eq {digits : List ℤ} (h : Digits digits) (i : ℕ) :
    bit digits i = (natural digits).testBit i := by
  rw [natural, testBit_ofDigits (toNat_lt h), bit]
  have hmask : ∀ w : ℕ, (w &&& (1 <<< (i % 32)) != 0) = w.testBit (i % 32) := by
    intro w
    rw [Nat.one_shiftLeft, Nat.and_two_pow]
    cases w.testBit (i % 32) <;> simp
  cases hword : digits[i / 32]? with
  | none =>
    have : (digits.map Int.toNat).getD (i / 32) 0 = 0 := by
      rw [List.getD_eq_getElem?_getD, List.getElem?_map, hword]
      rfl
    rw [this, Nat.zero_testBit]
  | some word =>
    have : (digits.map Int.toNat).getD (i / 32) 0 = word.toNat := by
      rw [List.getD_eq_getElem?_getD, List.getElem?_map, hword]
      rfl
    rw [this, ← hmask]

/-- The last nonzero digit, and nothing above it. -/
theorem rposition_some {digits : List ℤ} {top : ℕ} (h : rposition digits = some top) :
    top < digits.length ∧ digits.getD top 0 ≠ 0 ∧ ∀ i, top < i → digits.getD i 0 = 0 := by
  obtain ⟨hfound, before, after, hsplit, hbefore⟩ := List.find?_eq_some_iff_append.mp h
  have hmem : top ∈ (List.range digits.length).reverse := by
    rw [hsplit]
    simp
  have htop : top < digits.length := by simpa using hmem
  refine ⟨htop, by simpa using hfound, fun i hi => ?_⟩
  by_cases hlen : i < digits.length
  · have hi' : i ∈ (List.range digits.length).reverse := by simpa using hlen
    have hsorted : ((List.range digits.length).reverse).Pairwise (· > ·) := by
      rw [List.pairwise_reverse]
      exact List.pairwise_lt_range
    rw [hsplit] at hi' hsorted
    rcases List.mem_append.mp hi' with hb | ha
    · have := hbefore i hb
      simpa using this
    · rcases List.mem_cons.mp ha with rfl | ha
      · exact absurd hi (lt_irrefl _)
      · have := (List.pairwise_cons.mp (List.pairwise_append.mp hsorted).2.1).1 i ha
        omega
  · exact List.getD_eq_default _ _ (not_lt.mp hlen)

theorem rposition_none {digits : List ℤ} (h : rposition digits = none) : natural digits = 0 := by
  have hzero : ∀ x ∈ digits.map Int.toNat, x = 0 := by
    intro x hx
    obtain ⟨y, hy, rfl⟩ := List.mem_map.mp hx
    obtain ⟨i, hi, rfl⟩ := List.getElem_of_mem hy
    have := List.find?_eq_none.mp h i (by simpa using hi)
    rw [List.getD_eq_getElem _ _ hi] at this
    simp only [bne_iff_ne, ne_eq, not_not] at this
    rw [this]
    rfl
  have hreplicate : digits.map Int.toNat = List.replicate (digits.map Int.toNat).length 0 :=
    List.eq_replicate_iff.mpr ⟨rfl, hzero⟩
  rw [natural, hreplicate, Nat.ofDigits_replicate_zero]

/-- The leading bit of the number. -/
theorem high_eq {digits : List ℤ} {top : ℕ} (hdigits : Digits digits)
    (h : rposition digits = some top) :
    natural digits ≠ 0 ∧ top * 32 + (127 - leadingZeros (digits.getD top 0)) =
      Nat.log 2 (natural digits) := by
  obtain ⟨htop, hne, habove⟩ := rposition_some h
  set d := (digits.getD top 0).toNat with hd
  have hrange := hdigits (digits.getD top 0)
    (by rw [List.getD_eq_getElem _ _ htop]; exact List.getElem_mem htop)
  have hdpos : 0 < d := by omega
  have hdsmall : d < 2 ^ 32 := by
    unfold radix at hrange
    omega
  have hquotient : natural digits / (2 ^ 32) ^ top = d := by
    have hdrop : (digits.map Int.toNat).drop top =
        d :: ((digits.map Int.toNat).drop (top + 1)) := by
      rw [List.drop_eq_getElem_cons (by simpa using htop), List.getElem_map, hd,
        List.getD_eq_getElem _ _ htop]
    have hzeros : Nat.ofDigits (2 ^ 32) ((digits.map Int.toNat).drop (top + 1)) = 0 := by
      have hall : ∀ x ∈ (digits.map Int.toNat).drop (top + 1), x = 0 := by
        intro x hx
        obtain ⟨i, hi, rfl⟩ := List.getElem_of_mem hx
        have hlen : top + 1 + i < digits.length := by
          simp only [List.length_drop, List.length_map] at hi
          omega
        have := habove (top + 1 + i) (by omega)
        rw [List.getD_eq_getElem _ _ hlen] at this
        rw [List.getElem_drop, List.getElem_map, this]
        rfl
      rw [List.eq_replicate_iff.mpr ⟨rfl, hall⟩, Nat.ofDigits_replicate_zero]
    rw [natural, Nat.ofDigits_div_pow_eq_ofDigits_drop _ (by norm_num) _ (toNat_lt hdigits), hdrop,
      Nat.ofDigits_cons, hzeros, Nat.mul_zero, Nat.add_zero]
  have hlow : d * (2 ^ 32) ^ top ≤ natural digits := by
    rw [← hquotient]
    exact Nat.div_mul_le_self _ _
  have hhigh : natural digits < (d + 1) * (2 ^ 32) ^ top := by
    rw [← hquotient]
    exact Nat.lt_mul_of_div_lt (Nat.lt_succ_self _) (by positivity)
  have hsize : 0 < d.size := Nat.size_pos.mpr hdpos
  have hsize' : d.size ≤ 32 := Nat.size_le.mpr hdsmall
  refine ⟨?_, ?_⟩
  · have : 0 < d * (2 ^ 32) ^ top := by positivity
    omega
  · have hzeros : 127 - leadingZeros (digits.getD top 0) = d.size - 1 := by
      rw [leadingZeros, ← hd]
      omega
    rw [hzeros]
    symm
    refine Nat.log_eq_of_pow_le_of_lt_pow ?_ ?_
    · refine le_trans ?_ hlow
      rw [pow_add, Nat.mul_comm top 32, pow_mul, Nat.mul_comm]
      exact Nat.mul_le_mul_right _ (Nat.lt_size.mp (by omega))
    · refine lt_of_lt_of_le hhigh ?_
      have hexp : top * 32 + (d.size - 1) + 1 = d.size + 32 * top := by omega
      rw [hexp, pow_add, pow_mul]
      exact Nat.mul_le_mul_right _ (Nat.lt_size_self d)

/-- The kept bits are the shifted number. -/
theorem gather_eq {digits : List ℤ} (h : Digits digits) {shift count : ℕ} (hcount : count ≤ 63)
    (hbound : natural digits < 2 ^ (shift + count)) :
    (List.range' shift count).reverse.foldl
      (fun significand index => ((significand <<< 1) % 2 ^ 64) ||| (bit digits index).toNat) 0 =
        natural digits / 2 ^ shift := by
  induction count generalizing shift with
  | zero =>
    rw [Nat.add_zero] at hbound
    rw [Nat.div_eq_of_lt hbound]
    rfl
  | succ count ih =>
    rw [List.range'_succ, List.reverse_cons, List.foldl_append, List.foldl_cons, List.foldl_nil,
      ih (by omega) (by rwa [Nat.add_right_comm, Nat.add_assoc]), bit_eq h]
    set v := natural digits
    have hhalf : v / 2 ^ (shift + 1) = v / 2 ^ shift / 2 := by rw [pow_succ, Nat.div_div_eq_div_mul]
    have hsmall : v / 2 ^ shift / 2 < 2 ^ 63 := by
      have : v / 2 ^ shift < 2 ^ 64 := by
        refine Nat.div_lt_of_lt_mul (lt_of_lt_of_le hbound ?_)
        rw [pow_add]
        exact Nat.mul_le_mul_left _ (Nat.pow_le_pow_right (by norm_num) (by omega))
      omega
    have hbit : (v.testBit shift).toNat = v / 2 ^ shift % 2 := by
      rw [Nat.testBit_eq_decide_div_mod_eq]
      rcases Nat.mod_two_eq_zero_or_one (v / 2 ^ shift) with h0 | h0 <;> simp [h0]
    rw [hhalf, hbit, Nat.shiftLeft_eq, pow_one, Nat.mod_eq_of_lt (by omega)]
    have hor := Nat.two_pow_add_eq_or_of_lt (i := 1) (b := v / 2 ^ shift % 2)
      (Nat.mod_lt _ (by norm_num)) (v / 2 ^ shift / 2)
    rw [pow_one] at hor
    rw [Nat.mul_comm, ← hor]
    omega

theorem sticky_iff {digits : List ℤ} (h : Digits digits) (t : ℕ) :
    (List.range t).any (bit digits) = true ↔ natural digits % 2 ^ t ≠ 0 := by
  rw [List.any_eq_true]
  constructor
  · rintro ⟨i, hi, hbit⟩ hzero
    have hlt : i < t := List.mem_range.mp hi
    have := Nat.testBit_mod_two_pow (natural digits) t i
    rw [hzero, Nat.zero_testBit, ← bit_eq h, hbit] at this
    simp [hlt] at this
  · intro hne
    by_contra hnone
    refine hne (Nat.eq_of_testBit_eq fun i => ?_)
    rw [Nat.testBit_mod_two_pow, Nat.zero_testBit, ← bit_eq h]
    by_cases hi : i < t
    · have : bit digits i = false := by
        by_contra hbit
        exact hnone ⟨i, List.mem_range.mpr hi, by simpa using hbit⟩
      simp [this]
    · simp [hi]

/-- The rounded significand is the nearest integer, ties to even. -/
theorem roundedSignificand_eq {digits : List ℤ} (h : Digits digits) (shift high : ℕ)
    (hshift : 0 < shift)
    (hhigh : natural digits < 2 ^ (high + 1)) (hcount : high + 1 - shift ≤ 63) :
    (roundedSignificand digits shift high : ℤ) =
      BinaryRounding.toInteger .nearest ((natural digits : ℚ) / 2 ^ shift) := by
  have hkept : (if shift ≤ high then gather digits shift high else 0) =
      natural digits / 2 ^ shift := by
    split
    · rename_i hle
      rw [gather, gather_eq h hcount]
      have : shift + (high + 1 - shift) = high + 1 := by omega
      rwa [this]
    · rename_i hle
      rw [Nat.div_eq_of_lt]
      exact lt_of_lt_of_le hhigh (Nat.pow_le_pow_right (by norm_num) (by omega))
  obtain ⟨t, rfl⟩ : ∃ t, shift = t + 1 := ⟨shift - 1, by omega⟩
  rw [BinaryRounding.toInteger_nearest_shift, roundedSignificand, hkept]
  simp only [Nat.add_sub_cancel, bit_eq h, Nat.zero_lt_succ, true_and]
  have hodd : (natural digits / 2 ^ (t + 1) &&& 1 != 0) = true ↔
      natural digits / 2 ^ (t + 1) % 2 = 1 := by
    rw [Nat.and_one_is_mod, bne_iff_ne]
    omega
  by_cases hguard : (natural digits).testBit t = true
  · rw [if_pos hguard]
    by_cases hup : natural digits % 2 ^ t ≠ 0 ∨ natural digits / 2 ^ (t + 1) % 2 = 1
    · rw [if_pos (by rw [Bool.or_eq_true, sticky_iff h, hodd]; exact hup), if_pos ⟨hguard, hup⟩]
      push_cast
      rfl
    · rw [if_neg (by rw [Bool.or_eq_true, sticky_iff h, hodd]; exact hup),
        if_neg (fun hc => hup hc.2), add_zero]
  · rw [if_neg hguard, if_neg (fun hc => hguard hc.1), add_zero]

/-! ## The rounded total -/

/-- What rounding a nonnegative total gives: a finite value of the requested sign, overflow or
underflow. -/
inductive Rounded (negative : Bool) (x : ℚ) : Result Binary64 → Prop
  | value {r : Binary64} (finite : r.isFinite = true)
      (nearest : r.value = (if negative then -1 else 1) * Binary64.nearestEven x)
      (nonzero : x ≠ 0 → Binary64.nearestEven x ≠ 0) (zero : x = 0 → r.bits = 0) :
        Rounded negative x (.ok r)
  | overflow (large : 2 ^ (1024 : ℤ) ≤ Binary64.nearestEven x) :
      Rounded negative x (bail "quadrature result overflows binary64")
  | underflow (nonzero : x ≠ 0) (vanishes : Binary64.nearestEven x = 0) :
      Rounded negative x (bail "nonzero quadrature result underflows binary64")

theorem bits_fromBits {n : ℕ} (h : n < 2 ^ 64) : (fromBits n).bits = n := Nat.mod_eq_of_lt h

/-- The unit in the last place in terms of the rounding point. -/
theorem nearestEven_natural {v : ℕ} (shift : ℕ) (hv : v ≠ 0)
    (hshift : (shift : ℤ) + baseExp = max ((Nat.log 2 v : ℤ) + baseExp - 52) (-1074)) :
    Binary64.nearestEven ((v : ℚ) * 2 ^ baseExp) =
      BinaryRounding.toInteger .nearest ((v : ℚ) / 2 ^ shift) * 2 ^ ((shift : ℤ) + baseExp) := by
  have hvq : (v : ℚ) ≠ 0 := Nat.cast_ne_zero.mpr hv
  have hlog : Int.log 2 |(v : ℚ) * 2 ^ baseExp| = Nat.log 2 v + baseExp := by
    rw [BinaryRounding.log_mul_zpow hvq, Nat.abs_cast, Int.log_natCast]
  have hulp : Binary64.ulp ((v : ℚ) * 2 ^ baseExp) = 2 ^ ((shift : ℤ) + baseExp) := by
    rw [Binary64.ulp, hlog, hshift]
  have hquotient : (v : ℚ) * 2 ^ baseExp / 2 ^ ((shift : ℤ) + baseExp) = v / 2 ^ shift := by
    have hpow : (2 : ℚ) ^ baseExp ≠ 0 := zpow_ne_zero _ (by norm_num)
    rw [zpow_add₀ (by norm_num : (2 : ℚ) ≠ 0), zpow_natCast, mul_div_mul_right _ _ hpow]
  rw [Binary64.nearestEven, hulp, hquotient]

theorem le_nearest {v : ℕ} (shift k : ℕ) (h : 2 ^ (shift + k) ≤ v) :
    ((2 ^ k : ℕ) : ℤ) ≤ BinaryRounding.toInteger .nearest ((v : ℚ) / 2 ^ shift) := by
  refine BinaryRounding.le_toInteger ?_
  have hmul : 2 ^ k * 2 ^ shift ≤ v := by rwa [← pow_add, Nat.add_comm]
  rw [le_div_iff₀ (by positivity)]
  exact_mod_cast hmul

theorem nearest_le {v : ℕ} (shift k : ℕ) (h : v ≤ 2 ^ (shift + k)) :
    BinaryRounding.toInteger .nearest ((v : ℚ) / 2 ^ shift) ≤ ((2 ^ k : ℕ) : ℤ) := by
  refine BinaryRounding.toInteger_le ?_
  have hmul : v ≤ 2 ^ k * 2 ^ shift := by rwa [← pow_add, Nat.add_comm]
  rw [div_le_iff₀ (by positivity)]
  exact_mod_cast hmul

theorem encode_spec (negative : Bool) {digits : List ℤ} (h : Digits digits) :
    Rounded negative ((natural digits : ℚ) * 2 ^ baseExp) (encode negative digits) := by
  cases htop : rposition digits with
  | none =>
    have hzero := rposition_none htop
    have hencode : encode negative digits = .ok (fromBits 0) := by rw [encode, htop]
    rw [hencode, hzero, Nat.cast_zero, zero_mul]
    refine .value rfl ?_ (fun hne => absurd rfl hne) fun _ => rfl
    rw [Binary64.nearestEven_zero, mul_zero, Binary64.value_eq_zero]
    rfl
  | some top =>
    obtain ⟨hne, hhigh⟩ := high_eq h htop
    set v := natural digits with hv
    set high := Nat.log 2 v with hhighdef
    have hx : (v : ℚ) * 2 ^ baseExp ≠ 0 :=
      mul_ne_zero (Nat.cast_ne_zero.mpr hne) (zpow_ne_zero _ (by norm_num))
    have hlow : 2 ^ high ≤ v := Nat.pow_log_le_self 2 hne
    have hupper : v < 2 ^ (high + 1) := Nat.lt_pow_succ_log_self (by norm_num) v
    have hbase : baseExp = -3328 := rfl
    rw [encode, htop]
    simp only [hhigh]
    by_cases hover : baseExp + (high : ℤ) > 1023
    · rw [if_pos hover]
      refine .overflow ?_
      obtain ⟨shift, hshift⟩ : ∃ shift : ℕ, shift + 52 = high := ⟨high - 52, by omega⟩
      have hnearest := nearestEven_natural shift hne (by omega)
      have hinteger := le_nearest shift 52 (show 2 ^ (shift + 52) ≤ v by rwa [hshift])
      rw [hnearest]
      calc (2 : ℚ) ^ (1024 : ℤ) ≤ 2 ^ ((52 : ℤ) + (shift + baseExp)) :=
        zpow_le_zpow_right₀ (by norm_num) (by omega)
        _ = (((2 ^ 52 : ℕ) : ℤ) : ℚ) * 2 ^ ((shift : ℤ) + baseExp) := by
            rw [zpow_add₀ (by norm_num : (2 : ℚ) ≠ 0)]
            norm_num
        _ ≤ _ := mul_le_mul_of_nonneg_right (Int.cast_le.mpr hinteger) (by positivity)
    · rw [if_neg hover]
      by_cases hsub : baseExp + (high : ℤ) < -1022
      · -- the rounding point is the smallest subnormal
        obtain ⟨shift, hshift, hunit⟩ : ∃ shift : ℕ, (-1074 - baseExp).toNat = shift ∧
            (shift : ℤ) + baseExp = -1074 :=
          ⟨2254, rfl, rfl⟩
        have hnearest := nearestEven_natural shift hne (by omega)
        have hsignificand := roundedSignificand_eq h shift high (by omega) hupper (by omega)
        have hsmall := nearest_le shift 52
          (hupper.le.trans (Nat.pow_le_pow_right (by norm_num)
          (show high + 1 ≤ shift + 52 by omega)))
        simp only [hsub, decide_true, if_true, hshift, Bool.not_true, Bool.false_and,
          Bool.false_eq_true, if_false]
        set m := roundedSignificand digits shift high with hm
        rw [← hsignificand] at hnearest hsmall
        rw [hunit] at hnearest
        by_cases hzero : m = 0
        · rw [if_pos hzero]
          refine .underflow hx ?_
          rw [hnearest, hzero]
          simp
        · rw [if_neg hzero, if_neg hover]
          have hle : m ≤ 2 ^ 52 := by exact_mod_cast hsmall
          have hor : (negative.toNat <<< 63) ||| m = negative.toNat * 2 ^ 63 + m := by
            have := Nat.two_pow_add_eq_or_of_lt (i := 63) (b := m) (by omega) negative.toNat
            rw [Nat.shiftLeft_eq, Nat.mul_comm, ← this]
          have hneg : negative.toNat ≤ 1 := Bool.toNat_le negative
          have hbits : (fromBits ((negative.toNat <<< 63) ||| m)).bits =
              negative.toNat * 2 ^ 63 + m := by
            rw [hor, bits_fromBits (by omega)]
          obtain ⟨hfinite, hvalue⟩ := Binary64.value_subnormal hle hbits
          have hcast : ((m : ℤ) : ℚ) = m := Int.cast_natCast m
          refine .value hfinite ?_ (fun _ => ?_) fun h0 => absurd h0 hx
          · rw [hvalue, hnearest, hcast, mul_assoc]
          · rw [hnearest, hcast]
            exact mul_ne_zero (Nat.cast_ne_zero.mpr hzero) (zpow_ne_zero _ (by norm_num))
      · obtain ⟨shift, hshift⟩ : ∃ shift : ℕ, shift + 52 = high := ⟨high - 52, by omega⟩
        have hsub52 : high - 52 = shift := by omega
        have hnearest := nearestEven_natural shift hne (by omega)
        have hsignificand := roundedSignificand_eq h shift high (by omega) hupper (by omega)
        have hlarge := le_nearest shift 52 (show 2 ^ (shift + 52) ≤ v by rwa [hshift])
        have hsmall := nearest_le shift 53 (show v ≤ 2 ^ (shift + 53) by
          have : shift + 53 = high + 1 := by omega
          rw [this]
          exact hupper.le)
        simp only [hsub, decide_false, Bool.false_eq_true, if_false, hsub52, Bool.not_false,
          Bool.true_and]
        set m := roundedSignificand digits shift high with hm
        rw [← hsignificand] at hnearest hlarge hsmall
        have hm52 : 2 ^ 52 ≤ m := by exact_mod_cast hlarge
        have hm53 : m ≤ 2 ^ 53 := by exact_mod_cast hsmall
        have hcast : ((m : ℤ) : ℚ) = m := Int.cast_natCast m
        rw [hcast] at hnearest
        have hmask : ∀ n : ℕ, 2 ^ 52 ≤ n → n < 2 ^ 53 → n &&& ((1 <<< 52) - 1) = n - 2 ^ 52 := by
          intro n hl hu
          have : n &&& ((1 <<< 52) - 1) = n % 2 ^ 52 := Nat.and_two_pow_sub_one_eq_mod n 52
          rw [this]
          omega
        have hnonzero : Binary64.nearestEven ((v : ℚ) * 2 ^ baseExp) ≠ 0 := by
          rw [hnearest]
          exact mul_ne_zero (Nat.cast_ne_zero.mpr (by omega)) (zpow_ne_zero _ (by norm_num))
        -- the encoding of a normal significand at an exponent in range
        have hencode : ∀ (n : ℕ) (e : ℤ), 2 ^ 52 ≤ n → n < 2 ^ 53 → -1022 ≤ e → e ≤ 1023 →
            (n : ℚ) * 2 ^ (e - 52) = m * 2 ^ ((shift : ℤ) + baseExp) →
            Rounded negative ((v : ℚ) * 2 ^ baseExp)
              (.ok (fromBits ((negative.toNat <<< 63) |||
                  (((e + 1023).toNat <<< 52) ||| (n &&& ((1 <<< 52) - 1)))))) := by
          intro n e hn1 hn2 he1 he2 hvalue
          have hneg : negative.toNat ≤ 1 := Bool.toNat_le negative
          have hbits : (fromBits ((negative.toNat <<< 63) |||
            (((e + 1023).toNat <<< 52) ||| (n &&& ((1 <<< 52) - 1))))).bits =
              negative.toNat * 2 ^ 63 + (e + 1023).toNat * 2 ^ 52 + (n - 2 ^ 52) := by
            rw [hmask n hn1 hn2, Binary64.or_fields negative (by omega) (by omega),
              bits_fromBits (by omega)]
          obtain ⟨hfinite, hresult⟩ := Binary64.value_normal hn1 hn2 he1 he2 hbits
          refine .value hfinite ?_ (fun _ => hnonzero) fun h0 => absurd h0 hx
          rw [hresult, hnearest, mul_assoc, hvalue]
        rw [if_neg (by omega)]
        by_cases hcarry : m = 2 ^ 53
        · have hbeq : (m == 1 <<< 53) = true := by rw [hcarry]; rfl
          simp only [hbeq, if_true]
          have hhalf : m >>> 1 = 2 ^ 52 := by rw [hcarry]; rfl
          have hexp : baseExp + ((high + 1 : ℕ) : ℤ) = shift + baseExp + 53 := by
            push_cast
            omega
          by_cases hlast : baseExp + ((high + 1 : ℕ) : ℤ) > 1023
          · rw [if_pos hlast]
            refine .overflow ?_
            rw [hnearest, hcarry]
            have hpow : ((2 ^ 53 : ℕ) : ℚ) * 2 ^ ((shift : ℤ) + baseExp) =
                2 ^ ((53 : ℤ) + (shift + baseExp)) := by
              rw [zpow_add₀ (by norm_num : (2 : ℚ) ≠ 0) 53]
              congr 1
            rw [hpow]
            exact zpow_le_zpow_right₀ (by norm_num) (by omega)
          · rw [if_neg hlast, hhalf]
            refine hencode (2 ^ 52) _ le_rfl (by norm_num) (by omega) (not_lt.mp hlast) ?_
            have hsplit : baseExp + ((high + 1 : ℕ) : ℤ) - 52 = 1 + (shift + baseExp) := by omega
            rw [hsplit, hcarry, zpow_add₀ (by norm_num : (2 : ℚ) ≠ 0)]
            push_cast
            ring
        · have hbeq : (m == 1 <<< 53) = false := by rw [beq_eq_false_iff_ne]; exact hcarry
          simp only [hbeq, Bool.false_eq_true, if_false]
          rw [if_neg hover]
          refine hencode m _ hm52 (by omega) (not_lt.mp hsub) (not_lt.mp hover) ?_
          have hsplit : baseExp + (high : ℤ) - 52 = shift + baseExp := by omega
          rw [hsplit]

/-! ## Runs -/

/-- The exact sum of the triple products. -/
def exactSum (triples : List Triple) : ℚ := (triples.map Triple.product).sum

theorem new_length : TripleSum.new.bins.length = binCount := List.length_replicate

theorem cells_new : cells TripleSum.new.bins = 0 := by
  funext i
  rw [cells, TripleSum.new, List.getD_eq_getElem?_getD, List.getElem?_replicate]
  split <;> rfl

theorem contributes {t : Triple} (ht : t.Finite) : Contributes t := (add_spec new_length ht).1

/-- The bins of a run hold its exact sum, in the reached bins only. -/
theorem contribution_sum {triples : List Triple} (ht : ∀ t ∈ triples, t.Finite) :
    (binValue (triples.map contribution).sum : ℚ) * 2 ^ baseExp = exactSum triples ∧
      (∀ i, |(triples.map contribution).sum i| ≤ triples.length * 2 ^ 63) ∧
      ∀ i, reached ≤ i → (triples.map contribution).sum i = 0 := by
  induction triples with
  | nil =>
    refine ⟨?_, ?_, ?_⟩
    · simp [binValue_zero, exactSum]
    · simp
    · simp
  | cons t rest ih =>
    have hcontributes := contributes (ht t List.mem_cons_self)
    obtain ⟨hvalue, hsmall, hinside⟩ := ih fun u hu => ht u (List.mem_cons_of_mem _ hu)
    rw [List.map_cons, List.sum_cons]
    refine ⟨?_, fun i => ?_, fun i hi => ?_⟩
    · rw [binValue_add, Int.cast_add, add_mul, hcontributes.value, hvalue, exactSum, exactSum,
        List.map_cons, List.sum_cons]
    · have h1 := hcontributes.small i
      have h2 := hsmall i
      rw [Pi.add_apply, List.length_cons]
      refine (abs_add_le _ _).trans ?_
      push_cast
      linarith
    · rw [Pi.add_apply, hcontributes.inside i hi, hinside i hi, add_zero]

/-- Bins of one length with equal cells are equal. -/
theorem bins_ext {a b : TripleSum} (ha : a.bins.length = binCount) (hb : b.bins.length = binCount)
    (h : cells a.bins = cells b.bins) : a = b := by
  cases a with
  | mk abins =>
    cases b with
    | mk bbins =>
      congr 1
      refine List.ext_getElem (ha.trans hb.symm) fun i h1 h2 => ?_
      have := congrFun h i
      rwa [cells, cells, List.getD_eq_getElem _ _ h1, List.getD_eq_getElem _ _ h2] at this

/-- Bins that are `i128` values. -/
def InRange (bins : List ℤ) : Prop := ∀ x ∈ bins, -2 ^ 127 ≤ x ∧ x < 2 ^ 127

theorem addLimbs_range {sign : ℤ} {bits : ℕ} {limbs : List ℕ} {index : ℕ} {bins bins' : List ℤ}
    (hbins : InRange bins)
    (h : addLimbs sign bits limbs index bins = .ok bins') : InRange bins' := by
  induction limbs generalizing index bins with
  | nil =>
    cases h
    exact hbins
  | cons limb rest ih =>
    rw [addLimbs] at h
    split at h
    · cases h
    · obtain ⟨cell, hcell, h⟩ := bind_eq_ok h
      obtain ⟨rfl, hrange⟩ := checkedI128_ok hcell
      refine ih (fun x hx => ?_) h
      rcases List.mem_or_eq_of_mem_set hx with hx | rfl
      · exact hbins x hx
      · exact hrange

theorem add_range {self self' : TripleSum} {t : Triple} (hself : InRange self.bins)
    (h : self.add t = .ok self') :
    InRange self'.bins := by
  unfold TripleSum.add at h
  split at h
  · cases h
  · obtain ⟨factors, _, h⟩ := bind_eq_ok h
    cases factors with
    | none =>
      cases h
      exact hself
    | some f =>
      simp only at h
      split at h
      · cases h
      · obtain ⟨bins, hbins, h⟩ := bind_eq_ok h
        cases h
        exact addLimbs_range hself hbins

/-- Every bin of a run that went through is an `i128`. -/
theorem addAll_range {self sum : TripleSum} {triples : List Triple} (hself : InRange self.bins)
    (h : addAll self triples = .ok sum) : InRange sum.bins := by
  induction triples generalizing self with
  | nil =>
    cases h
    exact hself
  | cons t rest ih =>
    rw [addAll, List.foldlM_cons] at h
    obtain ⟨next, hnext, h⟩ := bind_eq_ok h
    exact ih (add_range hself hnext) h

theorem new_range : InRange TripleSum.new.bins := by
  intro x hx
  rw [List.eq_of_mem_replicate hx]
  norm_num

theorem abs_cells_le {bins : List ℤ} (h : InRange bins) (i : ℕ) : |cells bins i| ≤ 2 ^ 127 := by
  rw [cells]
  by_cases hi : i < bins.length
  · rw [List.getD_eq_getElem _ _ hi]
    have := h _ (List.getElem_mem hi)
    exact abs_le.mpr ⟨this.1, this.2.le⟩
  · rw [List.getD_eq_default _ _ (not_lt.mp hi)]
    norm_num

/-- The outcome that the exact sum `x` asks for. -/
structure NearestOutcome (x : ℚ) (result : Result Binary64) : Prop where
  value : ∀ r, result = .ok r → r.isFinite = true ∧ r.value = Binary64.nearestEven x ∧
    (x = 0 → r.bits = 0)
  refused : (∃ failure, result = .error failure) ↔
    2 ^ (1024 : ℤ) ≤ |Binary64.nearestEven x| ∨ (x ≠ 0 ∧ Binary64.nearestEven x = 0)

/-- The rounding of a magnitude with its sign. -/
theorem Rounded.outcome {negative : Bool} {x y : ℚ} {result : Result Binary64}
    (h : Rounded negative x result)
    (hy : y = (if negative then -1 else 1) * x) : NearestOutcome y result := by
  have hnearest : Binary64.nearestEven y =
      (if negative then -1 else 1) * Binary64.nearestEven x := by
    cases negative
    · simp [hy]
    · simp [hy, Binary64.nearestEven_neg]
  have habs : |Binary64.nearestEven y| = |Binary64.nearestEven x| := by
    rw [hnearest]
    cases negative <;> simp
  have hzero : y = 0 ↔ x = 0 := by
    rw [hy]
    cases negative <;> simp
  have hnearestZero : Binary64.nearestEven y = 0 ↔ Binary64.nearestEven x = 0 := by
    rw [← abs_eq_zero, habs, abs_eq_zero]
  cases h with
  | @value r finite nearest nonzero zero =>
    refine ⟨fun r' hr => ?_, ?_⟩
    · cases hr
      exact ⟨finite, by rw [nearest, hnearest], fun h0 => zero (hzero.mp h0)⟩
    · refine iff_of_false ?_ ?_
      · rintro ⟨failure, hfailure⟩
        cases hfailure
      · rintro (hlarge | ⟨hne, hvanish⟩)
        · have := Binary64.isFinite_lt finite
          rw [nearest, ← hnearest] at this
          exact absurd hlarge (not_le.mpr this)
        · exact nonzero (fun h0 => hne (hzero.mpr h0)) (hnearestZero.mp hvanish)
  | overflow large =>
    refine ⟨fun r hr => (by cases hr), iff_of_true ⟨_, rfl⟩ (.inl ?_)⟩
    rw [habs]
    exact large.trans (le_abs_self _)
  | underflow nonzero vanishes =>
    refine ⟨fun r hr => (by cases hr), iff_of_true ⟨_, rfl⟩ (.inr ?_)⟩
    exact ⟨fun h0 => nonzero (hzero.mp h0), hnearestZero.mpr vanishes⟩

/-- **The finished sum is the nearest binary64 value of the exact one.** Beyond `2 ^ 63` adds the
accumulator may refuse instead; the order of the adds does not matter, and an add of finite values
is only ever refused for the count. -/
theorem tripleSum_nearest (triples : List Triple) (sum : TripleSum)
    (hfinite : ∀ t ∈ triples, t.Finite) (hsum : addAll TripleSum.new triples = .ok sum) :
    (NearestOutcome (exactSum triples) sum.finish ∨
      (AccumulatorOverflow sum.finish ∧ 2 ^ 63 < triples.length)) ∧
      (∀ triples' sum', triples'.Perm triples → addAll TripleSum.new triples' = .ok sum' →
        sum'.finish = sum.finish) ∧
      ∀ t : Triple, t.Finite → ∀ failure, sum.add t = .error failure →
        failure = .message "exact binary64 sum count overflow" := by
  obtain ⟨hlength, hcells⟩ := addAll_cells new_length hfinite hsum
  rw [cells_new, zero_add] at hcells
  obtain ⟨hvalue, hsmall, hinside⟩ := contribution_sum hfinite
  rw [← hcells] at hvalue hsmall hinside
  have hrange := addAll_range new_range hsum
  refine ⟨?_, ?_, ?_⟩
  · have htotal := abs_binValue_lt (abs_cells_le hrange) hinside
    rw [binValue_cells hlength] at htotal hvalue
    rcases finish_cases hlength htotal with ⟨hoverflow, x, hx, hlarge⟩
      | ⟨digits, hfinish, _, hdigits, hmagnitude⟩
    · refine .inr ⟨hoverflow, ?_⟩
      obtain ⟨i, hi, rfl⟩ := List.getElem_of_mem hx
      have hcell := hsmall i
      rw [cells, List.getD_eq_getElem _ _ hi] at hcell
      have hlt : (2 : ℤ) ^ 63 * 2 ^ 63 < triples.length * 2 ^ 63 := by
        refine lt_of_lt_of_le (lt_of_eq_of_lt ?_ hlarge) hcell
        norm_num
      have := lt_of_mul_lt_mul_right hlt (by norm_num)
      exact_mod_cast this
    · left
      rw [hfinish]
      have hrounded := encode_spec (decide (listValue sum.bins < 0)) hdigits
      refine hrounded.outcome ?_
      rw [listValue_natural hdigits] at hmagnitude
      have hcast : (natural digits : ℚ) = |(listValue sum.bins : ℚ)| := by
        rw [← Int.cast_abs, ← hmagnitude, Int.cast_natCast]
      rw [← hvalue, hcast]
      by_cases hneg : listValue sum.bins < 0
      · have hq : (listValue sum.bins : ℚ) < 0 := by exact_mod_cast hneg
        simp only [hneg, decide_true, if_true, abs_of_neg hq]
        ring
      · have hq : 0 ≤ (listValue sum.bins : ℚ) := by exact_mod_cast not_lt.mp hneg
        simp only [hneg, decide_false, Bool.false_eq_true, if_false, abs_of_nonneg hq, one_mul]
  · intro triples' sum' hperm hsum'
    have hfinite' : ∀ t ∈ triples', t.Finite := fun t ht => hfinite t (hperm.subset ht)
    obtain ⟨hlength', hcells'⟩ := addAll_cells new_length hfinite' hsum'
    rw [cells_new, zero_add, (hperm.map contribution).sum_eq, ← hcells] at hcells'
    rw [bins_ext hlength' hlength hcells']
  · intro t ht failure hfailure
    rcases (add_spec hlength ht).2 with ⟨sum', hok, _⟩ | ⟨hcount, _⟩
    · rw [hok] at hfailure
      cases hfailure
    · rw [hcount] at hfailure
      cases hfailure
      rfl

/-- A repeated triple goes through as long as its bins stay in range. -/
theorem addAll_replicate {t : Triple} (ht : t.Finite) {n : ℕ}
    (hn : ∀ i, -2 ^ 127 ≤ n * contribution t i ∧ n * contribution t i < 2 ^ 127) :
    ∃ sum, addAll TripleSum.new (List.replicate n t) = .ok sum := by
  have hrun : ∀ k ≤ n, ∃ sum, addAll TripleSum.new (List.replicate k t) = .ok sum := by
    intro k
    induction k with
    | zero => exact fun _ => ⟨TripleSum.new, rfl⟩
    | succ k ih =>
      intro hk
      obtain ⟨sum, hsum⟩ := ih (by omega)
      have hall : ∀ u ∈ List.replicate k t, u.Finite :=
        fun u hu => by rwa [List.eq_of_mem_replicate hu]
      obtain ⟨hlength, hcells⟩ := addAll_cells new_length hall hsum
      rw [cells_new, zero_add, List.map_replicate, List.sum_replicate] at hcells
      have hstep : addAll TripleSum.new (List.replicate (k + 1) t) = sum.add t := by
        rw [List.replicate_succ', addAll, List.foldlM_append]
        rw [addAll] at hsum
        rw [hsum, ok_bind, List.foldlM_cons]
        cases sum.add t <;> rfl
      rw [hstep]
      rcases (add_spec hlength ht).2 with ⟨sum', hok, _⟩ | ⟨_, i, hout⟩
      · exact ⟨sum', hok⟩
      · refine absurd ?_ hout
        rw [Pi.add_apply, hcells, Pi.smul_apply, nsmul_eq_mul]
        have hrange := hn i
        have hk' : ((k : ℤ) + 1) ≤ n := by exact_mod_cast hk
        rcases le_or_gt 0 (contribution t i) with hc | hc
        · constructor <;> nlinarith
        · constructor <;> nlinarith
  exact hrun n le_rfl

/-- `(2 ^ 53 - 2 ^ 24 + 1) * 2 ^ 7` times one times one. -/
def heavyTriple : Triple :=
  ⟨fromBits (1082 * 2 ^ 52 + (2 ^ 52 - 2 ^ 24 + 1)), fromBits 0x3ff0000000000000,
    fromBits 0x3ff0000000000000⟩

theorem heavyTriple_finite : heavyTriple.Finite := by
  unfold Triple.Finite
  decide +kernel

theorem tripleSum_nearest_sample :
    ∃ sum, addAll TripleSum.new [heavyTriple] = .ok sum ∧
    NearestOutcome (exactSum [heavyTriple]) sum.finish := by
  have hfinite : ∀ t ∈ [heavyTriple], t.Finite := by
    intro t ht
    rw [List.mem_singleton.mp ht]
    exact heavyTriple_finite
  have hsum : addAll TripleSum.new [heavyTriple] =
      .ok ⟨((List.replicate binCount 0).set 103 (2 ^ 39)).set 104 ((2 ^ 29 - 1) * 2 ^ 31)⟩ := by
    decide +kernel
  refine ⟨_, hsum, (tripleSum_nearest [heavyTriple] _ hfinite hsum).1.resolve_right fun h => ?_⟩
  exact absurd h.2 (by norm_num)

/-- The most adds of the heavy triple that its highest bin holds. -/
def heavyCount : ℕ := (2 ^ 127 - 1) / ((2 ^ 29 - 1) * 2 ^ 31)

theorem heavyTriple_contribution :
    contribution heavyTriple = Pi.single 103 (2 ^ 39) + Pi.single 104 ((2 ^ 29 - 1) * 2 ^ 31) := by
  have hfactors : multiplyAll heavyTriple.values ⟨1, 0, [1]⟩ =
      .ok (some ⟨1, -97, [0, 0, 0, 2 ^ 8, 2 ^ 29 - 1]⟩) := by decide +kernel
  have hshift : (-97 - baseExp).toNat = 3231 := rfl
  rw [contribution, hfactors]
  simp only [hshift, limbContribution]
  norm_num [Nat.shiftLeft_eq]

/-- Zero bins with two of them set. -/
theorem cells_two (x y : ℤ) :
    cells (((List.replicate binCount 0).set 103 x).set 104 y) =
      Pi.single 103 x + Pi.single 104 y := by
  funext i
  rw [cells, Pi.add_apply, List.getD_eq_getElem?_getD]
  by_cases h104 : i = 104
  · subst h104
    have hbound : 104 < ((List.replicate binCount (0 : ℤ)).set 103 x).length := by
      rw [List.length_set, List.length_replicate, binCount]
      norm_num
    rw [List.getElem?_set_self hbound, Pi.single_eq_of_ne (by norm_num),
      Pi.single_eq_same, zero_add]
    rfl
  · rw [List.getElem?_set_ne (Ne.symm h104), Pi.single_eq_of_ne h104, add_zero]
    by_cases h103 : i = 103
    · subst h103
      have hbound : 103 < (List.replicate binCount (0 : ℤ)).length := by
        rw [List.length_replicate, binCount]
        norm_num
      rw [List.getElem?_set_self hbound, Pi.single_eq_same]
      rfl
    · rw [List.getElem?_set_ne (Ne.symm h103), Pi.single_eq_of_ne h103, List.getElem?_replicate]
      split <;> rfl

/-- The bins after the heavy run. -/
def heavyBins : List ℤ :=
  ((List.replicate binCount 0).set 103 ((heavyCount : ℤ) * 2 ^ 39)).set 104
    ((heavyCount : ℤ) * ((2 ^ 29 - 1) * 2 ^ 31))

theorem heavyBins_cells : cells heavyBins = heavyCount • contribution heavyTriple := by
  rw [heavyBins, cells_two, heavyTriple_contribution]
  funext i
  rw [Pi.smul_apply, Pi.add_apply, Pi.add_apply, nsmul_eq_mul, mul_add]
  congr 1
  · by_cases hi : i = 103
    · rw [hi, Pi.single_eq_same, Pi.single_eq_same]
    · rw [Pi.single_eq_of_ne hi, Pi.single_eq_of_ne hi, mul_zero]
  · by_cases hi : i = 104
    · rw [hi, Pi.single_eq_same, Pi.single_eq_same]
    · rw [Pi.single_eq_of_ne hi, Pi.single_eq_of_ne hi, mul_zero]

/-- The heavy run's total in units of `2 ^ n`. -/
def heavyTotal (n : ℕ) : ℕ := heavyCount * (2 ^ 53 - 2 ^ 24 + 1) * 2 ^ n

-- Stated at an arbitrary bin: the powers are too large to be evaluated.
theorem heavy_total (n : ℕ) :
    (heavyCount : ℤ) * 2 ^ 39 * radix ^ n + (heavyCount : ℤ) * ((2 ^ 29 - 1) * 2 ^ 31) *
      radix ^ (n + 1) =
      (heavyTotal (39 + 32 * n) : ℤ) := by
  have hsignificand : ((2 ^ 53 - 2 ^ 24 + 1 : ℕ) : ℤ) = 2 ^ 53 - 2 ^ 24 + 1 := by norm_num
  have hunit : ((2 ^ (39 + 32 * n) : ℕ) : ℤ) = 2 ^ 39 * radix ^ n := by
    rw [Nat.cast_pow, Nat.cast_ofNat, pow_add, pow_mul, radix]
  rw [heavyTotal, Nat.cast_mul, Nat.cast_mul, hsignificand, hunit, pow_succ radix n]
  generalize radix ^ n = unit
  rw [radix]
  ring

theorem heavyTotal_bounds (n : ℕ) :
    2 ^ (120 + n) ≤ heavyTotal n ∧ heavyTotal n < 2 ^ (120 + n + 1) := by
  have hfactor : 2 ^ 120 ≤ heavyCount * (2 ^ 53 - 2 ^ 24 + 1) ∧ heavyCount * (2 ^ 53 - 2 ^ 24 + 1) <
      2 ^ 121 := by
    decide +kernel
  rw [heavyTotal, add_right_comm, pow_add 2 120, pow_add 2 (120 + 1)]
  exact ⟨Nat.mul_le_mul_right _ hfactor.1,
    Nat.mul_lt_mul_of_pos_right hfactor.2 (Nat.two_pow_pos n)⟩

/-- A total in the middle of the exponent range neither overflows nor vanishes. -/
theorem nearestEven_moderate {v k : ℕ} (hl : 2 ^ k ≤ v) (hu : v < 2 ^ (k + 1)) (hk : 2306 ≤ k)
    (hk' : k ≤ 4000) :
    Binary64.nearestEven ((v : ℚ) * 2 ^ baseExp) ≠ 0 ∧
    |Binary64.nearestEven ((v : ℚ) * 2 ^ baseExp)| < 2 ^ (1024 : ℤ) := by
  have hbase : baseExp = -3328 := rfl
  have hne : v ≠ 0 := fun h0 => by
    rw [h0] at hl
    exact absurd hl (not_le.mpr (by positivity))
  have hlog : Nat.log 2 v = k := Nat.log_eq_of_pow_le_of_lt_pow hl hu
  obtain ⟨shift, hshift⟩ : ∃ shift : ℕ, shift + 52 = k := ⟨k - 52, by omega⟩
  have hnearest := nearestEven_natural shift hne (by rw [hlog]; omega)
  have hlow := le_nearest shift 52 (show 2 ^ (shift + 52) ≤ v by rwa [hshift])
  have hhigh := nearest_le shift 53 (show v ≤ 2 ^ (shift + 53) by
    have : shift + 53 = k + 1 := by omega
    rw [this]
    exact hu.le)
  set m := BinaryRounding.toInteger .nearest ((v : ℚ) / 2 ^ shift)
  have hm : 0 < m := lt_of_lt_of_le (by positivity) hlow
  have hunit : (0 : ℚ) < 2 ^ ((shift : ℤ) + baseExp) := by positivity
  have hmq : (0 : ℚ) < m := by exact_mod_cast hm
  rw [hnearest]
  refine ⟨(mul_pos hmq hunit).ne', ?_⟩
  rw [abs_of_pos (mul_pos hmq hunit)]
  calc (m : ℚ) * 2 ^ ((shift : ℤ) + baseExp) ≤ ((2 ^ 53 : ℕ) : ℤ) * 2 ^ ((shift : ℤ) + baseExp) :=
        mul_le_mul_of_nonneg_right (Int.cast_le.mpr hhigh) hunit.le
    _ = 2 ^ ((53 : ℤ) + (shift + baseExp)) := by
        rw [zpow_add₀ (by norm_num : (2 : ℚ) ≠ 0) 53]
        congr 1
    _ < 2 ^ (1024 : ℤ) := zpow_lt_zpow_right₀ (by norm_num) (by omega)

/-- A run that goes through and is still refused at the end. -/
theorem tripleSum_accumulator_refuses :
    ∃ sum, addAll TripleSum.new (List.replicate heavyCount heavyTriple) = .ok sum ∧
      (∀ t ∈ List.replicate heavyCount heavyTriple, t.Finite) ∧
      sum.finish = bail "binary64 accumulator carry overflow" ∧
      ¬ NearestOutcome (exactSum (List.replicate heavyCount heavyTriple)) sum.finish := by
  have hcount : (heavyCount : ℤ) * 2 ^ 39 < 2 ^ 127 ∧ (heavyCount : ℤ) * ((2 ^ 29 - 1) * 2 ^ 31) <
      2 ^ 127 := by
    decide +kernel
  have hlower : (-2 ^ 127 : ℤ) ≤ 0 := by norm_num
  have hfinite : ∀ t ∈ List.replicate heavyCount heavyTriple, t.Finite := fun t ht => by
    rw [List.eq_of_mem_replicate ht]
    exact heavyTriple_finite
  have hrange : ∀ i, -2 ^ 127 ≤ (heavyCount : ℤ) * contribution heavyTriple i ∧
      (heavyCount : ℤ) * contribution heavyTriple i < 2 ^ 127 := by
    intro i
    rw [heavyTriple_contribution, Pi.add_apply]
    by_cases h103 : i = 103
    · subst h103
      rw [Pi.single_eq_same, Pi.single_eq_of_ne (by norm_num), add_zero]
      exact ⟨le_trans hlower (mul_nonneg (Int.natCast_nonneg _) (by norm_num)), hcount.1⟩
    · rw [Pi.single_eq_of_ne h103, zero_add]
      by_cases h104 : i = 104
      · subst h104
        rw [Pi.single_eq_same]
        exact ⟨le_trans hlower (mul_nonneg (Int.natCast_nonneg _) (by norm_num)), hcount.2⟩
      · rw [Pi.single_eq_of_ne h104, mul_zero]
        norm_num
  obtain ⟨sum, hsum⟩ := addAll_replicate heavyTriple_finite hrange
  obtain ⟨hlength, hcells⟩ := addAll_cells new_length hfinite hsum
  rw [cells_new, zero_add, List.map_replicate, List.sum_replicate, ← heavyBins_cells] at hcells
  have heq : sum = ⟨heavyBins⟩ := bins_ext hlength (by simp [heavyBins]) hcells
  have hfinish : sum.finish = bail "binary64 accumulator carry overflow" := by
    rw [heq]
    decide +kernel
  refine ⟨sum, hsum, hfinite, hfinish, fun houtcome => ?_⟩
  obtain ⟨hvalue, _, _⟩ := contribution_sum hfinite
  rw [List.map_replicate, List.sum_replicate, ← heavyBins_cells, heavyBins, cells_two, binValue_add,
    binValue_single _ (by decide), binValue_single _ (by decide)] at hvalue
  rw [heavy_total 103, Int.cast_natCast] at hvalue
  obtain ⟨hlow, hhigh⟩ := heavyTotal_bounds (39 + 32 * 103)
  obtain ⟨hnonzero, hsmall⟩ := nearestEven_moderate hlow hhigh (by norm_num) (by norm_num)
  rw [hvalue] at hnonzero hsmall
  rcases houtcome.refused.mp ⟨_, hfinish⟩ with hlarge | ⟨_, hvanish⟩
  · exact absurd hlarge (not_le.mpr hsmall)
  · exact hnonzero hvanish

end Xcelerator.Numerics.Binary64TripleSum
