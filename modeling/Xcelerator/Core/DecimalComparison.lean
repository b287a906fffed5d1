import Mathlib
import Xcelerator.Core.DecimalLiteralSoundness

/-! # Comparisons of decimal literals are exact

Two normal forms of one sign are ordered by their extents and then digit by
digit. A sum is ordered by the two carried digit maps: every carried digit is
at most nine, so the first difference decides. -/

namespace Xcelerator.Core.DecimalLiteral
open Foundations.Machine

/-! ## Two literals -/

theorem magnitude_cons (d : ℕ) (digits : List ℕ) :
    magnitude (d :: digits) = d * 10 ^ digits.length + magnitude digits := by
  have := magnitude_append [d] digits
  rwa [magnitude_single] at this

/-- The first different digit decides. -/
theorem cmp_leading {a b x y B : ℕ} (hx : x < B) (hy : y < B) :
    cmp (a * B + x) (b * B + y) = (cmp a b).then (cmp x y) := by
  rcases lt_trichotomy a b with h | h | h
  · rw [(cmp_eq_lt_iff _ _).mpr h]
    refine (cmp_eq_lt_iff _ _).mpr ?_
    have : (a + 1) * B ≤ b * B := Nat.mul_le_mul_right B h
    nlinarith
  · subst h
    rw [cmp_self_eq_eq]
    exact cmp_add_left (a * B) x y
  · rw [(cmp_eq_gt_iff _ _).mpr h]
    refine (cmp_eq_gt_iff _ _).mpr ?_
    have : (b + 1) * B ≤ a * B := Nat.mul_le_mul_right B h
    nlinarith

theorem cmpDigits_eq {left right : List ℕ} (hl : ∀ i, left.getD i 0 < 10)
    (hr : ∀ i, right.getD i 0 < 10) (indices : List ℕ) :
    cmpDigits left right indices =
      cmp (magnitude (indices.map fun i => left.getD i 0))
      (magnitude (indices.map fun i => right.getD i 0)) := by
  induction indices with
  | nil => rfl
  | cons index rest ih =>
    have hbound : ∀ f : ℕ → ℕ, (∀ i, f i < 10) → magnitude (rest.map f) < 10 ^ rest.length := by
      intro f hf
      have hsmall : ∀ d ∈ rest.map f, d < 10 := by
        intro d hd
        obtain ⟨i, _, rfl⟩ := List.mem_map.mp hd
        exact hf i
      have := magnitude_lt hsmall
      rwa [List.length_map] at this
    rw [cmpDigits, ih, List.map_cons, List.map_cons, magnitude_cons, magnitude_cons,
      List.length_map, List.length_map, cmp_leading (hbound _ hl) (hbound _ hr)]
    cases cmp (left.getD index 0) (right.getD index 0) <;> rfl

theorem map_range_getD (digits : List ℕ) {n : ℕ} (h : digits.length ≤ n) :
    (List.range n).map (fun i => digits.getD i 0) = digits ++
      List.replicate (n - digits.length) 0 := by
  refine List.ext_getElem (by simp; omega) fun i h1 h2 => ?_
  simp only [List.getElem_map, List.getElem_range]
  by_cases hi : i < digits.length
  · rw [List.getD_eq_getElem _ _ hi, List.getElem_append_left hi]
  · rw [List.getD_eq_default _ _ (not_lt.mp hi), List.getElem_append_right (not_lt.mp hi),
      List.getElem_replicate]

/-- A normal magnitude fills its leading digit. -/
theorem le_magnitude {digits : List ℕ} (hne : digits ≠ []) (hfirst : digits.head? ≠ some 0) :
    10 ^ (digits.length - 1) ≤ magnitude digits := by
  cases digits with
  | nil => exact absurd rfl hne
  | cons d rest =>
    have hd : 1 ≤ d := by
      rcases d with _ | d
      · exact absurd rfl hfirst
      · omega
    rw [magnitude_cons, List.length_cons, Nat.add_sub_cancel]
    nlinarith [Nat.one_le_pow rest.length 10 (by norm_num)]

namespace DecimalParts

/-- The value without its sign. -/
def size (p : DecimalParts) : ℚ := magnitude p.digits * 10 ^ p.scale

theorem value_eq (p : DecimalParts) : p.value = p.sign * p.size := by
  rw [value, size, mul_assoc]

/-- A normal form lies in the decade of its extent. -/
theorem Normal.size_bounds {p : DecimalParts} (h : p.Normal) :
    (10 : ℚ) ^ (p.digits.length + p.scale - 1) ≤ p.size ∧
    p.size < 10 ^ (p.digits.length + p.scale) := by
  have hpow : (0 : ℚ) < 10 ^ p.scale := by positivity
  have hpos : 0 < p.digits.length := List.length_pos_iff.mpr h.nonempty
  constructor
  · have hlow : (10 : ℚ) ^ (p.digits.length - 1) ≤ magnitude p.digits := by
      exact_mod_cast le_magnitude h.nonempty h.first
    have hexp : (p.digits.length : ℤ) + p.scale - 1 = ((p.digits.length - 1 : ℕ) : ℤ) + p.scale :=
      by omega
    rw [hexp, zpow_add₀ (by norm_num : (10 : ℚ) ≠ 0), zpow_natCast, size]
    exact mul_le_mul_of_nonneg_right hlow hpow.le
  · have hhigh : (magnitude p.digits : ℚ) < 10 ^ p.digits.length :=
      by exact_mod_cast magnitude_lt h.small
    rw [zpow_add₀ (by norm_num : (10 : ℚ) ≠ 0), zpow_natCast, size]
    exact mul_lt_mul_of_pos_right hhigh hpow

theorem Normal.size_pos {p : DecimalParts} (h : p.Normal) : 0 < p.size :=
  lt_of_lt_of_le (by positivity) h.size_bounds.1

/-- The padded digits in the unit of the common width. -/
theorem size_padded (p : DecimalParts) {width : ℕ} (h : p.digits.length ≤ width) :
    p.size = magnitude ((List.range width).map fun i => p.digits.getD i 0) *
      10 ^ (p.digits.length + p.scale - width) := by
  have hexp : (p.digits.length : ℤ) + p.scale - width = p.scale - (width - p.digits.length : ℕ) :=
    by omega
  rw [map_range_getD _ h, magnitude_append, magnitude_replicate, Nat.add_zero,
    List.length_replicate, hexp, size, zpow_sub₀ (by norm_num : (10 : ℚ) ≠ 0), zpow_natCast]
  push_cast
  field_simp

theorem Normal.getD_lt {p : DecimalParts} (h : p.Normal) (i : ℕ) : p.digits.getD i 0 < 10 := by
  by_cases hi : i < p.digits.length
  · rw [List.getD_eq_getElem _ _ hi]
    exact h.small _ (List.getElem_mem hi)
  · rw [List.getD_eq_default _ _ (not_lt.mp hi)]
    norm_num

theorem extent_ok {p : DecimalParts} (h : p.Normal) (hlength : p.digits.length < 2 ^ 63) :
    signed 128 (p.digits.length + p.scale) = .ok (p.digits.length + p.scale) := by
  have := h.scale
  exact signed_ok (by omega) (by omega)

theorem cmpMagnitude_eq {p q : DecimalParts} (hp : p.Normal) (hq : q.Normal)
    (hlp : p.digits.length < 2 ^ 63)
    (hlq : q.digits.length < 2 ^ 63) : p.cmpMagnitude q = .ok (cmp p.size q.size) := by
  have hsign : ∀ r : DecimalParts, r.Normal → (r.sign != 0) = true := by
    intro r hr
    rcases hr.sign with h | h <;> simp [h]
  have hassert : assert (p.sign != 0 && q.sign != 0) = .ok () :=
    by simp [assert, hsign p hp, hsign q hq]
  rw [cmpMagnitude, hassert, ok_bind, extent_ok hp hlp, ok_bind, extent_ok hq hlq, ok_bind]
  have hmono : ∀ r s : DecimalParts, r.Normal → s.Normal →
      (r.digits.length : ℤ) + r.scale < s.digits.length + s.scale → r.size < s.size := by
    intro r s hr hs hlt
    have hstep : (10 : ℚ) ^ (r.digits.length + r.scale) ≤ 10 ^ (s.digits.length + s.scale - 1) :=
      zpow_le_zpow_right₀ (by norm_num) (by omega)
    exact lt_of_lt_of_le (hr.size_bounds.2.trans_le hstep) hs.size_bounds.1
  rcases lt_trichotomy ((p.digits.length : ℤ) + p.scale) (q.digits.length + q.scale) with h | h | h
  · rw [(cmp_eq_lt_iff _ _).mpr h, (cmp_eq_lt_iff _ _).mpr (hmono p q hp hq h)]
  · set width := max p.digits.length q.digits.length with hwidth
    have hunit : (0 : ℚ) < 10 ^ ((q.digits.length : ℤ) + q.scale - width) := by positivity
    rw [(cmp_eq_eq_iff _ _).mpr h, cmpDigits_eq hp.getD_lt hq.getD_lt,
      size_padded p (le_max_left _ _),
      size_padded q (le_max_right _ _), ← hwidth, h, cmp_mul_pos_right hunit]
    rw [(Nat.strictMono_cast (α := ℚ)).cmp_map_eq]
  · rw [(cmp_eq_gt_iff _ _).mpr h, (cmp_eq_gt_iff _ _).mpr (hmono q p hq hp h)]

/-- What parsing returns is ordered as its values. -/
theorem cmpNumeric_eq {p q : DecimalParts} (hp : p = zero ∨ p.Normal) (hq : q = zero ∨ q.Normal)
    (hlp : p.digits.length < 2 ^ 63) (hlq : q.digits.length < 2 ^ 63) :
    p.cmpNumeric q = .ok (cmp p.value q.value) := by
  have hsize : ∀ r : DecimalParts, r = zero ∨ r.Normal → r.sign ≠ 0 → r.Normal := by
    intro r hr hne
    rcases hr with rfl | hr
    · exact absurd rfl hne
    · exact hr
  have hcases : ∀ r : DecimalParts, r = zero ∨ r.Normal →
      (r.sign = 0 ∧ r.value = 0) ∨ (r.sign = 1 ∧ 0 < r.value) ∨ (r.sign = -1 ∧ r.value < 0) := by
    intro r hr
    rcases hr with rfl | hr
    · exact .inl ⟨rfl, zero_value⟩
    · have hpos := hr.size_pos
      rcases hr.sign with h | h
      · exact .inr (.inl ⟨h, by rw [value_eq, h]; simpa using hpos⟩)
      · exact .inr (.inr ⟨h, by rw [value_eq, h]; simpa using hpos⟩)
  have hlt : ∀ {x y : ℤ} {a b : ℚ}, x < y → a < b → cmp x y = .lt ∧ cmp a b = .lt := fun hxy hab =>
    ⟨(cmp_eq_lt_iff _ _).mpr hxy, (cmp_eq_lt_iff _ _).mpr hab⟩
  have hgt : ∀ {x y : ℤ} {a b : ℚ}, y < x → b < a → cmp x y = .gt ∧ cmp a b = .gt := fun hxy hab =>
    ⟨(cmp_eq_gt_iff _ _).mpr hxy, (cmp_eq_gt_iff _ _).mpr hab⟩
  unfold cmpNumeric
  rcases hcases p hp with ⟨hps, hpv⟩ | ⟨hps, hpv⟩ | ⟨hps, hpv⟩ <;>
    rcases hcases q hq with ⟨hqs, hqv⟩ | ⟨hqs, hqv⟩ | ⟨hqs, hqv⟩
  · rw [hps, hqs, cmp_self_eq_eq, hpv, hqv, cmp_self_eq_eq]
    rfl
  · obtain ⟨h1, h2⟩ := hlt (show p.sign < q.sign by omega) (show p.value < q.value by linarith)
    rw [h1, h2]
  · obtain ⟨h1, h2⟩ := hgt (show q.sign < p.sign by omega) (show q.value < p.value by linarith)
    rw [h1, h2]
  · obtain ⟨h1, h2⟩ := hgt (show q.sign < p.sign by omega) (show q.value < p.value by linarith)
    rw [h1, h2]
  · have hnp := hsize p hp (by omega)
    have hnq := hsize q hq (by omega)
    rw [value_eq, value_eq, hps, hqs, cmp_self_eq_eq, Int.cast_one, one_mul, one_mul]
    simpa using cmpMagnitude_eq hnp hnq hlp hlq
  · obtain ⟨h1, h2⟩ := hgt (show q.sign < p.sign by omega) (show q.value < p.value by linarith)
    rw [h1, h2]
  · obtain ⟨h1, h2⟩ := hlt (show p.sign < q.sign by omega) (show p.value < q.value by linarith)
    rw [h1, h2]
  · obtain ⟨h1, h2⟩ := hlt (show p.sign < q.sign by omega) (show p.value < q.value by linarith)
    rw [h1, h2]
  · have hnp := hsize p hp (by omega)
    have hnq := hsize q hq (by omega)
    have hneg : cmp p.value q.value = (cmp p.size q.size).swap := by
      rw [value_eq, value_eq, hps, hqs, cmp_swap]
      exact cmp_mul_neg_left (by norm_num) _ _
    rw [hneg, hps, hqs, cmp_self_eq_eq, cmpMagnitude_eq hnp hnq hlp hlq]
    rfl

end DecimalParts

/-! ## Digit maps -/

/-- The number a digit map stands for. -/
def mapValue (map : List (ℤ × ℕ)) : ℚ := (map.map fun entry => (entry.2 : ℚ) * 10 ^ entry.1).sum

theorem mapValue_cons (entry : ℤ × ℕ) (map : List (ℤ × ℕ)) :
    mapValue (entry :: map) = entry.2 * 10 ^ entry.1 + mapValue map := by simp [mapValue]

theorem mapValue_nonneg (map : List (ℤ × ℕ)) : 0 ≤ mapValue map := by
  induction map with
  | nil => simp [mapValue]
  | cons entry map ih =>
    rw [mapValue_cons]
    positivity

/-- Keys in increasing order. -/
def Ascending (map : List (ℤ × ℕ)) : Prop := map.Pairwise fun a b => a.1 < b.1

theorem total_cons (entry : ℤ × ℕ) (map : List (ℤ × ℕ)) :
    total (entry :: map) = entry.2 + total map := by
  simp [total]

/-- Adding at a power, within the range of the amounts. -/
theorem addAt_spec {map : List (ℤ × ℕ)} (power : ℤ) {amount : ℕ} (hmap : Ascending map)
    (hbound : total map + amount < 2 ^ 128) :
    ∃ map', addAt map power amount = .ok map' ∧ Ascending map' ∧
      mapValue map' = mapValue map + amount * 10 ^ power ∧
      ∀ entry ∈ map', entry.1 = power ∨ ∃ old ∈ map, entry.1 = old.1 := by
  induction map with
  | nil =>
    refine ⟨[(power, amount)], ?_, by simp [Ascending], by simp [mapValue], by simp⟩
    rw [addAt, Nat.zero_add, unsigned_ok (by simpa [total] using hbound)]
    rfl
  | cons entry rest ih =>
    obtain ⟨key, value⟩ := entry
    obtain ⟨hfirst, hrest⟩ := List.pairwise_cons.mp hmap
    rw [total_cons] at hbound
    rw [addAt]
    split
    · rename_i hlt
      refine ⟨(power, amount) :: (key, value) :: rest, ?_, ?_, ?_, ?_⟩
      · rw [Nat.zero_add, unsigned_ok (by omega)]
        rfl
      · refine List.pairwise_cons.mpr ⟨fun e he => ?_, hmap⟩
        rcases List.mem_cons.mp he with rfl | he
        · exact hlt
        · exact hlt.trans (hfirst e he)
      · rw [mapValue_cons, add_comm]
      · intro e he
        rcases List.mem_cons.mp he with rfl | he
        · exact .inl rfl
        · exact .inr ⟨e, he, rfl⟩
    · split
      · rename_i heq
        subst heq
        refine ⟨(power, value + amount) :: rest, ?_, List.pairwise_cons.mpr ⟨hfirst, hrest⟩, ?_, ?_⟩
        · rw [unsigned_ok (by omega)]
          rfl
        · rw [mapValue_cons, mapValue_cons]
          push_cast
          ring
        · intro e he
          rcases List.mem_cons.mp he with rfl | he
          · exact .inl rfl
          · exact .inr ⟨e, List.mem_cons_of_mem _ he, rfl⟩
      · rename_i hge hne
        obtain ⟨rest', hadd, hasc, hvalue, hkeys⟩ := ih hrest (by omega)
        refine ⟨(key, value) :: rest', ?_, List.pairwise_cons.mpr ⟨fun e he => ?_, hasc⟩, ?_, ?_⟩
        · rw [hadd]
          rfl
        · rcases hkeys e he with h | ⟨old, hold, h⟩
          · rw [h]
            have : key ≠ power := fun heq => hne heq.symm
            exact lt_of_le_of_ne (not_lt.mp hge) this
          · rw [h]
            exact hfirst old hold
        · rw [mapValue_cons, mapValue_cons, hvalue, add_assoc]
        · intro e he
          rcases List.mem_cons.mp he with rfl | he
          · exact .inr ⟨_, List.mem_cons_self, rfl⟩
          · rcases hkeys e he with h | ⟨old, hold, h⟩
            · exact .inl h
            · exact .inr ⟨old, List.mem_cons_of_mem _ hold, h⟩

/-- What the loop over the terms keeps of each map. -/
structure Collected (map : List (ℤ × ℕ)) (bound : ℕ) : Prop where
  ascending : Ascending map
  keys : ∀ entry ∈ map, -2 ^ 63 ≤ entry.1 ∧ entry.1 < 2 ^ 64
  amounts : total map ≤ bound

theorem addDigits_spec {digits : List ℕ} {scale : ℤ} {offset bound : ℕ} {map : List (ℤ × ℕ)}
    (hsmall : ∀ d ∈ digits, d < 10) (hscale : -2 ^ 63 ≤ scale ∧ scale < 2 ^ 63)
    (hoffset : offset + digits.length < 2 ^ 63) (hmap : Collected map bound)
    (hbound : bound + 9 * digits.length < 2 ^ 128) :
    ∃ map', addDigits scale digits offset map = .ok map' ∧
    Collected map' (bound + 9 * digits.length) ∧
      mapValue map' = mapValue map + ((Nat.ofDigits 10 digits : ℕ) :
        ℚ) * 10 ^ (scale + offset) := by
  induction digits generalizing offset bound map with
  | nil => exact ⟨map, rfl, hmap, by simp⟩
  | cons d rest ih =>
    simp only [List.length_cons] at hoffset hbound ⊢
    have hd := hsmall d List.mem_cons_self
    have hnext : ((offset + 1 : ℕ) : ℤ) = offset + 1 := by push_cast; ring
    have hshift : (10 : ℚ) ^ (scale + (offset + 1 : ℕ)) = 10 * 10 ^ (scale + offset) := by
      rw [hnext, ← add_assoc, zpow_add_one₀ (by norm_num), mul_comm]
    have hrest := fun e he => hsmall e (List.mem_cons_of_mem d he)
    rw [addDigits]
    split
    · have hamounts := hmap.amounts
      have hpower : signed 128 (scale + offset) = .ok (scale + offset) :=
        signed_ok (by omega) (by omega)
      obtain ⟨map1, hadd, hasc, hvalue, hkeys⟩ := addAt_spec (scale + offset) hmap.ascending
        (show total map + d < 2 ^ 128 by omega)
      have hcollected : Collected map1 (bound + 9) := by
        refine ⟨hasc, fun e he => ?_, ?_⟩
        · rcases hkeys e he with h | ⟨old, hold, h⟩
          · rw [h]
            omega
          · rw [h]
            exact hmap.keys old hold
        · rw [(addAt_ok hadd).1]
          omega
      obtain ⟨map', hrun, hfinal, hsum⟩ :=
        ih hrest (show offset + 1 + rest.length < 2 ^ 63 by omega) hcollected (by omega)
      refine ⟨map', ?_, ?_, ?_⟩
      · rw [hpower, ok_bind, hadd, ok_bind, hrun]
      · have : bound + 9 + 9 * rest.length = bound + 9 * (rest.length + 1) := by ring
        rwa [this] at hfinal
      · rw [hsum, hvalue, hshift, Nat.ofDigits_cons]
        push_cast
        ring
    · rename_i hzero
      have hd0 : d = 0 := not_not.mp hzero
      obtain ⟨map', hrun, hfinal, hsum⟩ :=
        ih hrest (show offset + 1 + rest.length < 2 ^ 63 by omega) hmap (by omega)
      refine ⟨map', hrun, ⟨hfinal.ascending, hfinal.keys, hfinal.amounts.trans (by omega)⟩, ?_⟩
      rw [hsum, hshift, Nat.ofDigits_cons, hd0]
      push_cast
      ring

/-- A carried digit list, highest power first. -/
structure Carried (digits : List (ℤ × ℕ)) : Prop where
  descending : digits.Pairwise fun a b => b.1 < a.1
  small : ∀ entry ∈ digits, 0 < entry.2 ∧ entry.2 < 10

theorem mapValue_lt {digits : List (ℤ × ℕ)} {power : ℤ} (h : Carried digits)
    (hkeys : ∀ entry ∈ digits, entry.1 < power) :
    mapValue digits < 10 ^ power := by
  induction digits generalizing power with
  | nil =>
    simp only [mapValue, List.map_nil, List.sum_nil]
    positivity
  | cons entry rest ih =>
    obtain ⟨hfirst, hrest⟩ := List.pairwise_cons.mp h.descending
    have hvalue := ih ⟨hrest, fun e he => h.small e (List.mem_cons_of_mem _ he)⟩ hfirst
    have hdigit : (entry.2 : ℚ) + 1 ≤ 10 := by
      have := (h.small entry List.mem_cons_self).2
      exact_mod_cast this
    have hpow : (10 : ℚ) ^ (entry.1 + 1) ≤ 10 ^ power :=
      zpow_le_zpow_right₀ (by norm_num) (hkeys entry List.mem_cons_self)
    have hpos : (0 : ℚ) < 10 ^ entry.1 := by positivity
    rw [zpow_add_one₀ (by norm_num)] at hpow
    rw [mapValue_cons]
    nlinarith

theorem Carried.tail {entry : ℤ × ℕ} {digits : List (ℤ × ℕ)} (h : Carried (entry :: digits)) :
    Carried digits :=
  ⟨(List.pairwise_cons.mp h.descending).2, fun e he => h.small e (List.mem_cons_of_mem _ he)⟩

theorem Carried.bounds {power : ℤ} {value : ℕ} {digits : List (ℤ × ℕ)}
    (h : Carried ((power, value) :: digits)) :
    (value : ℚ) * 10 ^ power ≤ mapValue ((power, value) :: digits) ∧
      mapValue ((power, value) :: digits) < (value + 1) * 10 ^ power := by
  have hrest := mapValue_lt h.tail (List.pairwise_cons.mp h.descending).1
  have hnonneg := mapValue_nonneg digits
  rw [mapValue_cons]
  constructor
  · simpa using hnonneg
  · rw [add_mul, one_mul]
    simpa using hrest

/-- A higher leading power, or a larger digit at the same power, is a larger number. -/
theorem Carried.lt {p q : ℤ} {v w : ℕ} {left right : List (ℤ × ℕ)} (hl : Carried ((p, v) :: left))
    (hr : Carried ((q, w) :: right)) (h : p < q ∨ (p = q ∧ v < w)) :
    mapValue ((p, v) :: left) < mapValue ((q, w) :: right) := by
  refine lt_of_lt_of_le hl.bounds.2 (le_trans ?_ hr.bounds.1)
  have hpos : (0 : ℚ) < 10 ^ p := by positivity
  have hw : (1 : ℚ) ≤ w := by
    have := (hr.small (q, w) List.mem_cons_self).1
    exact_mod_cast this
  rcases h with h | ⟨rfl, h⟩
  · have hv : (v : ℚ) + 1 ≤ 10 := by
      have := (hl.small (p, v) List.mem_cons_self).2
      exact_mod_cast this
    have hpow : (10 : ℚ) ^ (p + 1) ≤ 10 ^ q := zpow_le_zpow_right₀ (by norm_num) h
    rw [zpow_add_one₀ (by norm_num)] at hpow
    nlinarith
  · have : (v : ℚ) + 1 ≤ w := by exact_mod_cast h
    exact mul_le_mul_of_nonneg_right this hpos.le

/-- The order of carried digit lists is the order of their numbers. -/
theorem cmpTerms_eq {left right : List (ℤ × ℕ)} (hl : Carried left) (hr : Carried right) :
    cmpTerms left right = cmp (mapValue left) (mapValue right) := by
  induction left generalizing right with
  | nil =>
    cases right with
    | nil => rfl
    | cons entry right =>
      have hpos : 0 < mapValue (entry :: right) := by
        refine lt_of_lt_of_le ?_ hr.bounds.1
        have := (hr.small entry List.mem_cons_self).1
        positivity
      exact ((cmp_eq_lt_iff _ _).mpr hpos).symm
  | cons entry left ih =>
    obtain ⟨p, v⟩ := entry
    cases right with
    | nil =>
      have hpos : 0 < mapValue ((p, v) :: left) := by
        refine lt_of_lt_of_le ?_ hl.bounds.1
        have := (hl.small (p, v) List.mem_cons_self).1
        positivity
      exact ((cmp_eq_gt_iff _ _).mpr hpos).symm
    | cons entry right =>
      obtain ⟨q, w⟩ := entry
      rw [cmpTerms]
      rcases lt_trichotomy p q with h | h | h
      · rw [(cmp_eq_lt_iff _ _).mpr h, (cmp_eq_lt_iff _ _).mpr (hl.lt hr (.inl h))]
      · subst h
        rw [cmp_self_eq_eq]
        rcases lt_trichotomy v w with h | h | h
        · rw [(cmp_eq_lt_iff _ _).mpr h, (cmp_eq_lt_iff _ _).mpr (hl.lt hr (.inr ⟨rfl, h⟩))]
        · subst h
          rw [cmp_self_eq_eq, mapValue_cons, mapValue_cons, cmp_add_left]
          exact ih hl.tail hr.tail
        · rw [(cmp_eq_gt_iff _ _).mpr h, (cmp_eq_gt_iff _ _).mpr (hr.lt hl (.inr ⟨rfl, h⟩))]
      · rw [(cmp_eq_gt_iff _ _).mpr h, (cmp_eq_gt_iff _ _).mpr (hr.lt hl (.inl h))]

/-- The state of the carry: what is pending lies above what is done, and a carry never leaves
`i128`. -/
structure Carrying (digits result : List (ℤ × ℕ)) : Prop where
  ascending : Ascending digits
  amounts : total digits < 2 ^ 128
  keys : ∀ entry ∈ digits, -2 ^ 127 ≤ entry.1 ∧ entry.1 + total digits < 2 ^ 127
  done : Carried result
  above : ∀ entry ∈ digits, ∀ old ∈ result, old.1 < entry.1

/-- The digit that stays behind at a power. -/
theorem Carrying.push {power : ℤ} {value : ℕ} {rest result : List (ℤ × ℕ)}
    (h : Carrying ((power, value) :: rest) result) :
    let result' := if value % 10 ≠ 0 then (power, value % 10) :: result else result
    Carried result' ∧ (∀ old ∈ result', old.1 ≤ power) ∧
      mapValue result' = mapValue result + (value % 10 : ℕ) * 10 ^ power := by
  have hold : ∀ old ∈ result, old.1 < power := h.above _ List.mem_cons_self
  intro result'
  by_cases hdigit : value % 10 ≠ 0
  · have hresult : result' = (power, value % 10) :: result := if_pos hdigit
    rw [hresult]
    refine ⟨⟨List.pairwise_cons.mpr ⟨hold, h.done.descending⟩, ?_⟩, ?_, ?_⟩
    · intro e he
      rcases List.mem_cons.mp he with rfl | he
      · exact ⟨Nat.pos_of_ne_zero hdigit, Nat.mod_lt _ (by norm_num)⟩
      · exact h.done.small e he
    · intro e he
      rcases List.mem_cons.mp he with rfl | he
      · exact le_refl _
      · exact (hold e he).le
    · rw [mapValue_cons, add_comm]
  · have hresult : result' = result := if_neg hdigit
    rw [hresult]
    refine ⟨h.done, fun e he => (hold e he).le, ?_⟩
    rw [not_not.mp hdigit]
    simp

/-- The carry ends with digits of the same number. -/
theorem carry_spec {digits result : List (ℤ × ℕ)} (h : Carrying digits result) :
    ∃ out, carry digits result = .ok out ∧ Carried out ∧
    mapValue out = mapValue digits + mapValue result := by
  -- the measure of the loop: amounts and entries that are pending
  induction hn : total digits + digits.length using Nat.strong_induction_on generalizing digits
    result with
  | _ n ih =>
    cases digits with
    | nil =>
      refine ⟨result, by rw [carry], h.done, ?_⟩
      simp [mapValue]
    | cons entry rest =>
      obtain ⟨power, value⟩ := entry
      obtain ⟨hdone, hbelow, hpushed⟩ := h.push
      obtain ⟨hfirst, hrest⟩ := List.pairwise_cons.mp h.ascending
      have hamounts := h.amounts
      have hpower := h.keys (power, value) List.mem_cons_self
      rw [total_cons] at hamounts hpower hn
      simp only [List.length_cons] at hn
      have hcast : (value : ℚ) = 10 * (value / 10 : ℕ) + (value % 10 : ℕ) := by
        exact_mod_cast (Nat.div_add_mod value 10).symm
      rw [carry]
      by_cases hlarge : 10 ≤ value
      · have hnext : signed 128 (power + 1) = .ok (power + 1) := signed_ok (by omega) (by omega)
        obtain ⟨rest', hadd, hasc, hvalue, hkeys⟩ := addAt_spec (power + 1) hrest
          (show total rest + value / 10 < 2 ^ 128 by omega)
        obtain ⟨htotal, hlength⟩ := addAt_ok hadd
        have hfound : ∀ e ∈ rest', power < e.1 ∧ -2 ^ 127 ≤ e.1 ∧ e.1 + total rest' < 2 ^ 127 := by
          intro e he
          rcases hkeys e he with hkey | ⟨old, hold, hkey⟩
          · rw [hkey]
            omega
          · have hlow := hfirst old hold
            have hrange := h.keys old (List.mem_cons_of_mem _ hold)
            rw [total_cons] at hrange
            rw [hkey]
            simp only at hlow hrange
            omega
        have hcarrying := Carrying.mk hasc (by omega) (fun e he => (hfound e he).2) hdone
          fun e he old hold => lt_of_le_of_lt (hbelow old hold) (hfound e he).1
        obtain ⟨out, hrun, hcarried, hsum⟩ :=
          ih (total rest' + rest'.length) (by omega) hcarrying rfl
        refine ⟨out, ?_, hcarried, ?_⟩
        · rw [if_pos hlarge, hnext]
          simp only
          split
          · rename_i fault hfault
            rw [hadd] at hfault
            cases hfault
          · rename_i rest'' hrest''
            rw [hadd] at hrest''
            cases hrest''
            exact hrun
        · rw [hsum, hpushed, hvalue, mapValue_cons, zpow_add_one₀ (by norm_num)]
          simp only
          rw [hcast]
          ring
      · have hquotient : value / 10 = 0 := Nat.div_eq_of_lt (not_le.mp hlarge)
        have hfound : ∀ e ∈ rest, -2 ^ 127 ≤ e.1 ∧ e.1 + total rest < 2 ^ 127 := by
          intro e he
          have hrange := h.keys e (List.mem_cons_of_mem _ he)
          rw [total_cons] at hrange
          simp only at hrange
          omega
        have hcarrying := Carrying.mk hrest (by omega) hfound hdone
          fun e he old hold => lt_of_le_of_lt (hbelow old hold) (hfirst e he)
        obtain ⟨out, hrun, hcarried, hsum⟩ := ih (total rest + rest.length) (by omega) hcarrying rfl
        refine ⟨out, ?_, hcarried, ?_⟩
        · rw [if_neg hlarge, hrun]
        · rw [hsum, hpushed, mapValue_cons]
          simp only
          rw [hcast, hquotient]
          push_cast
          ring

/-! ## Sums of literals -/

/-- What memory promises of the operands: a string has at most `isize::MAX` bytes, and a slice of
eight-byte references spans no more. -/
structure InMemory (left : DecimalLiteral) (terms : List DecimalLiteral) : Prop where
  texts : ∀ literal ∈ left :: terms, literal.text.length < 2 ^ 63
  slice : terms.length < 2 ^ 60

theorem validateStr_ok {text : List Char} (h : validateStr text = .ok ()) :
    ∃ p, parse text = .ok p := by
  obtain ⟨p, hp, _⟩ := bind_eq_ok h
  exact ⟨p, hp⟩

/-- What one literal can add to the amounts of a map. -/
def termAmount : ℕ := 9 * 2 ^ 63

/-- One term of the sum goes to the map of its sign. -/
theorem addTerm_spec {maps : List (ℤ × ℕ) × List (ℤ × ℕ)} {literal : DecimalLiteral}
    {multiplier : ℤ} {bound : ℕ}
    (hmultiplier : multiplier = 1 ∨ multiplier = -1) (hliteral : validateStr literal.text = .ok ())
    (htext : literal.text.length < 2 ^ 63) (hpositive : Collected maps.1 bound)
    (hnegative : Collected maps.2 bound) (hbound : bound + termAmount < 2 ^ 128) :
    ∃ maps', addTerm maps (literal, multiplier) = .ok maps' ∧
      Collected maps'.1 (bound + termAmount) ∧ Collected maps'.2 (bound + termAmount) ∧
      mapValue maps'.1 - mapValue maps'.2 = mapValue maps.1 - mapValue maps.2 +
        multiplier * literal.value := by
  obtain ⟨p, hp⟩ := validateStr_ok hliteral
  obtain ⟨hform, hlength, hvalue⟩ := parse_ok hp
  have hparse : ofResult (parse literal.text) = .ok p := by rw [hp]; rfl
  have hweaken : ∀ {map : List (ℤ × ℕ)} {b : ℕ}, Collected map b → b ≤ bound + termAmount →
      Collected map (bound + termAmount) :=
        fun hmap hb => ⟨hmap.ascending, hmap.keys, hmap.amounts.trans hb⟩
  rw [addTerm, hparse, ok_bind]
  rcases hform with rfl | hnormal
  · refine ⟨maps, ?_, hweaken hpositive (by omega), hweaken hnegative (by omega), ?_⟩
    · rw [if_pos (by simp [DecimalParts.zero])]
    · rw [value, ← hvalue, DecimalParts.zero_value, mul_zero, add_zero]
  · have hreversed : p.digits.reverse.length < 2 ^ 63 := by
      rw [List.length_reverse]
      omega
    have hsmall : ∀ d ∈ p.digits.reverse, d < 10 :=
      fun d hd => hnormal.small d (List.mem_reverse.mp hd)
    have hadd : ∀ {map : List (ℤ × ℕ)}, Collected map bound →
        ∃ map', ofChecked (addDigits p.scale p.digits.reverse 0 map) = .ok map' ∧
          Collected map' (bound + termAmount) ∧ mapValue map' = mapValue map + p.size := by
      intro map hmap
      obtain ⟨map', hrun, hcollected, hsum⟩ := addDigits_spec hsmall hnormal.scale
        (show 0 + p.digits.reverse.length < 2 ^ 63 by omega) hmap
        (by unfold termAmount at hbound; omega)
      refine ⟨map', by rw [hrun]; rfl, hweaken hcollected (by unfold termAmount; omega), ?_⟩
      rw [hsum, Nat.cast_zero, add_zero]
      rfl
    have hsigned : p.sign * multiplier = 1 ∨ p.sign * multiplier = -1 := by
      rcases hnormal.sign with h1 | h1 <;> rcases hmultiplier with h2 | h2 <;> simp [h1, h2]
    have hterm : (multiplier : ℚ) * literal.value = (p.sign * multiplier : ℤ) * p.size := by
      rw [value, ← hvalue, DecimalParts.value_eq]
      push_cast
      ring
    rcases hsigned with hsign | hsign
    · obtain ⟨map', hrun, hcollected, hsum⟩ := hadd hpositive
      refine ⟨(map', maps.2), ?_, hcollected, hweaken hnegative (by omega), ?_⟩
      · simp only [hsign, hrun, ok_bind]
        rfl
      · rw [hterm, hsign, hsum]
        push_cast
        ring
    · obtain ⟨map', hrun, hcollected, hsum⟩ := hadd hnegative
      refine ⟨(maps.1, map'), ?_, hweaken hpositive (by omega), hcollected, ?_⟩
      · simp only [hsign, hrun, ok_bind]
        rfl
      · rw [hterm, hsign, hsum]
        push_cast
        ring

/-- The loop over the literal and the terms. -/
theorem addTerm_foldlM {terms : List (DecimalLiteral × ℤ)} (maps : List (ℤ × ℕ) × List (ℤ × ℕ))
    {bound : ℕ}
    (hterms : ∀ term ∈ terms, (term.2 = 1 ∨ term.2 = -1) ∧ validateStr term.1.text = .ok () ∧
      term.1.text.length < 2 ^ 63)
    (hpositive : Collected maps.1 bound) (hnegative : Collected maps.2 bound)
    (hbound : bound + terms.length * termAmount < 2 ^ 128) :
    ∃ maps', terms.foldlM addTerm maps = .ok maps' ∧
      Collected maps'.1 (bound + terms.length * termAmount) ∧
      Collected maps'.2 (bound + terms.length * termAmount) ∧
      mapValue maps'.1 - mapValue maps'.2 =
        mapValue maps.1 - mapValue maps.2 + (terms.map fun term =>
          (term.2 : ℚ) * term.1.value).sum := by
  induction terms generalizing maps bound with
  | nil => exact ⟨maps, rfl, by simpa using hpositive, by simpa using hnegative, by simp⟩
  | cons term terms ih =>
    simp only [List.length_cons] at hbound ⊢
    obtain ⟨hmultiplier, hvalid, htext⟩ := hterms term List.mem_cons_self
    have hcount : bound + termAmount + terms.length * termAmount =
        bound + (terms.length + 1) * termAmount := by
      ring
    have hroom : bound + termAmount + terms.length * termAmount < 2 ^ 128 := by rwa [hcount]
    obtain ⟨maps1, hstep, hp1, hn1, hvalue1⟩ :=
      addTerm_spec hmultiplier hvalid htext hpositive hnegative
      (by omega)
    obtain ⟨maps', hrun, hp', hn', hvalue'⟩ :=
      ih maps1 (fun t ht => hterms t (List.mem_cons_of_mem _ ht)) hp1 hn1
      hroom
    rw [hcount] at hp' hn'
    refine ⟨maps', ?_, hp', hn', ?_⟩
    · rw [List.foldlM_cons, hstep, ok_bind, hrun]
    · rw [hvalue', hvalue1, List.map_cons, List.sum_cons, add_assoc]

/-- A collected map is carried without a fault. -/
theorem Collected.carry {map : List (ℤ × ℕ)} {bound : ℕ} (h : Collected map bound)
    (hbound : bound < 2 ^ 127 - 2 ^ 64) :
    ∃ out, ofChecked (DecimalLiteral.carry map []) = .ok out ∧ Carried out ∧
    mapValue out = mapValue map := by
  have hamounts := h.amounts
  have hkeys : ∀ e ∈ map, -2 ^ 127 ≤ e.1 ∧ e.1 + total map < 2 ^ 127 := by
    intro e he
    have := h.keys e he
    omega
  have hcarrying : Carrying map [] := ⟨h.ascending, by omega, hkeys, ⟨by simp, by simp⟩, by simp⟩
  obtain ⟨out, hrun, hcarried, hsum⟩ := carry_spec hcarrying
  refine ⟨out, by rw [hrun]; rfl, hcarried, ?_⟩
  rw [hsum]
  simp [mapValue]

/-- **Comparisons are exact.** No step leaves `i128` or `u128`. -/
theorem decimal_comparisons_exact (a b : DecimalLiteral) (terms : List DecimalLiteral)
    (hmemory : InMemory a terms) (hb : b.text.length < 2 ^ 63)
    (ha : validateStr a.text = .ok ()) (hvalid : validateStr b.text = .ok ())
    (hterms : ∀ term ∈ terms, validateStr term.text = .ok ()) :
    a.cmpNumeric b = .ok (cmp a.value b.value) ∧
      a.cmpSumMany terms = .ok (cmp a.value (terms.map value).sum) := by
  constructor
  · obtain ⟨p, hp⟩ := validateStr_ok ha
    obtain ⟨q, hq⟩ := validateStr_ok hvalid
    obtain ⟨hpform, hplength, hpvalue⟩ := parse_ok hp
    obtain ⟨hqform, hqlength, hqvalue⟩ := parse_ok hq
    have htext := hmemory.texts a List.mem_cons_self
    have hcmp := DecimalParts.cmpNumeric_eq hpform hqform (by omega) (by omega)
    rw [cmpNumeric, hp, hq, value, value, ← hpvalue, ← hqvalue]
    simp only [ofResult, ofChecked, Except.mapError, ok_bind, hcmp]
  · have hslice := hmemory.slice
    have hall : ∀ term ∈ (a, (1 : ℤ)) :: terms.map fun term => (term, -1),
        (term.2 = 1 ∨ term.2 = -1) ∧ validateStr term.1.text = .ok () ∧ term.1.text.length <
            2 ^ 63 := by
      intro term hterm
      rcases List.mem_cons.mp hterm with rfl | hterm
      · exact ⟨.inl rfl, ha, hmemory.texts a List.mem_cons_self⟩
      · obtain ⟨t, ht, rfl⟩ := List.mem_map.mp hterm
        exact ⟨.inr rfl, hterms t ht, hmemory.texts t (List.mem_cons_of_mem _ ht)⟩
    have hempty : Collected [] 0 := ⟨by simp [Ascending], by simp, by simp [total]⟩
    obtain ⟨maps, hrun, hpositive, hnegative, hvalue⟩ := addTerm_foldlM ([], []) hall hempty hempty
      (by simp only [List.length_cons, List.length_map, termAmount]; omega)
    simp only [List.length_cons, List.length_map, termAmount] at hpositive hnegative
    obtain ⟨left, hleft, hleftCarried, hleftValue⟩ := hpositive.carry (by omega)
    obtain ⟨right, hright, hrightCarried, hrightValue⟩ := hnegative.carry (by omega)
    have hsum : mapValue maps.1 - mapValue maps.2 = a.value - (terms.map value).sum := by
      rw [hvalue, List.map_cons, List.sum_cons, List.map_map]
      have hneg : (terms.map ((fun term : DecimalLiteral × ℤ => (term.2 : ℚ) * term.1.value) ∘
        fun term => (term, -1))) =
          terms.map fun term => -1 * value term := List.map_congr_left fun t _ => by simp
      rw [hneg, List.sum_map_mul_left]
      simp only [mapValue, List.map_nil, List.sum_nil, Int.cast_one]
      ring
    have hcode : a.cmpSumMany terms = .ok (cmpTerms left right) := by
      simp only [cmpSumMany, hrun, ok_bind, hleft, hright]
    rw [hcode, cmpTerms_eq hleftCarried hrightCarried, hleftValue, hrightValue,
      ← cmp_sub_zero (mapValue maps.1), hsum, cmp_sub_zero]

/-- `1.0` against `1e0`, and against `0.999 + 1e-3`. -/
theorem decimal_comparisons_exact_sample :
    let a : DecimalLiteral := ⟨['1', '.', '0']⟩
    let b : DecimalLiteral := ⟨['1', 'e', '0']⟩
    let terms : List DecimalLiteral := [⟨['0', '.', '9', '9', '9']⟩, ⟨['1', 'e', '-', '3']⟩]
    a.cmpNumeric b = .ok (cmp a.value b.value) ∧
        a.cmpSumMany terms = .ok (cmp a.value (terms.map value).sum) :=
  decimal_comparisons_exact _ _ _ ⟨by decide, by decide⟩ (by decide) (by decide) (by decide)
    (by decide)

end Xcelerator.Core.DecimalLiteral
