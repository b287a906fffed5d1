import Mathlib
import Xcelerator.Foundations.Enumeration
import Xcelerator.Numerics.DigitProduct
import Xcelerator.Numerics.ModularProductSoundness

/-! # The digit route gives the host kernel's residues

Every packed buffer is a `tile`: the digits of the matrix in its corner, zeros
around them, whatever the buffer held. The digits are small enough that no
digit sum leaves `i8` and no partial sum of a GEMM leaves `i32`, and the three
products recombine to the dot product of the centred residues. -/

namespace Xcelerator.Numerics.DigitProductSoundness
open Xcelerator.Foundations.Enumeration (flatMap_rows)
open Xcelerator.Foundations Machine Xcelerator.Numerics.ModularProduct
open Xcelerator.Numerics.ResidueTreeSoundness Xcelerator.Numerics.ModularProductSoundness
open Xcelerator.Numerics.DigitProduct

/-! ## Digits -/

def highDigit (r : Int) : Int := (r + 64) / 128
def lowDigit (r : Int) : Int := r - 128 * highDigit r

theorem digits_bounds {r : Int} (h : |r| ≤ 8095) :
    (-64 ≤ lowDigit r ∧ lowDigit r ≤ 63) ∧ -63 ≤ highDigit r ∧ highDigit r ≤ 63 := by
  obtain ⟨hl, hu⟩ := abs_le.mp h
  unfold lowDigit highDigit
  omega

theorem asI8_eq {x : Int} (hl : -128 ≤ x) (hu : x ≤ 127) : asI8 x = x := by
  unfold asI8
  omega

theorem packEntry_ok {message : String} {prime value : Nat} (hp : prime ≤ 16191)
    (hv : value < prime) :
    packEntry message prime value =
      .ok (lowDigit (balanced prime value), highDigit (balanced prime value)) := by
  obtain ⟨⟨h1, h2⟩, h3, h4⟩ := digits_bounds (balanced_abs hp hv)
  unfold packEntry
  rw [ensure, if_pos (decide_eq_true hv), ok_bind, centered_ok hp hv]
  show Except.ok (asI8 (lowDigit (balanced prime value)), asI8 (highDigit (balanced prime value))) =
    _
  rw [asI8_eq (by omega) (by omega), asI8_eq (by omega) (by omega)]

/-! ## Tiles -/

/-- A row-major buffer. -/
def tile (rows cols : Nat) (f : Nat → Nat → Int) : List Int :=
  (List.range (rows * cols)).map fun e => f (e / cols) (e % cols)

@[simp] theorem tile_length (rows cols : Nat) (f : Nat → Nat → Int) :
    (tile rows cols f).length = rows * cols := by
  simp [tile]

theorem index_lt {rows cols i t : Nat} (hi : i < rows) (ht : t < cols) :
    i * cols + t < rows * cols :=
  calc i * cols + t < i * cols + cols := by omega
    _ = (i + 1) * cols := by ring
    _ ≤ rows * cols := Nat.mul_le_mul_right _ hi

theorem tile_getD {rows cols i t : Nat} (f : Nat → Nat → Int) (hi : i < rows) (ht : t < cols) :
    (tile rows cols f).getD (i * cols + t) 0 = f i t := by
  have hlt := index_lt hi ht
  have hpos : 0 < cols := by omega
  rw [List.getD_eq_getElem _ _ (by simpa using hlt)]
  simp only [tile, List.getElem_map, List.getElem_range]
  rw [Nat.mul_comm, Nat.mul_add_div hpos, Nat.div_eq_of_lt ht, Nat.add_zero, Nat.mul_add_mod,
    Nat.mod_eq_of_lt ht]

theorem mem_tile {rows cols : Nat} {f : Nat → Nat → Int} {P : Int → Prop}
    (h : ∀ i < rows, ∀ t < cols, P (f i t)) : ∀ x ∈ tile rows cols f, P x := by
  intro x hx
  obtain ⟨e, he, rfl⟩ := List.mem_map.mp hx
  have he := List.mem_range.mp he
  have hcols : 0 < cols := Nat.pos_of_ne_zero (by rintro rfl; simp at he)
  exact h _ (Nat.div_lt_of_lt_mul (by rwa [Nat.mul_comm])) _ (Nat.mod_lt _ hcols)

/-- The corner of a tile that holds `count` by `k` entries. -/
def corner (count k : Nat) (f : Nat → Nat → Int) (i t : Nat) : Int :=
  if i < count ∧ t < k then f i t else 0

/-! ## Packing -/

theorem take_succ_set {s : Nat} {xs : List Int} (d : Int) (h : s < xs.length) :
    (xs.set s d).take (s + 1) = xs.take s ++ [d] := by
  rw [List.take_add_one, List.take_set_of_le (le_refl s), List.getElem?_set_self h]
  rfl

theorem packDigits_ok {message : String} {source : Nat → Checked Nat} {prime : Nat} {f : Nat → Nat}
    (hp : prime ≤ 16191) {s n : Nat} {low high : List Int}
    (hsource : ∀ t, s ≤ t → t < s + n → source t = .ok (f t) ∧ f t < prime)
    (hlow : s + n ≤ low.length) (hhigh : s + n ≤ high.length) :
    packDigits message source prime (List.range' s n) low high = .ok
      (low.take s ++ (List.range' s n).map (fun t => lowDigit (balanced prime (f t))) ++
        low.drop (s + n),
        high.take s ++ (List.range' s n).map (fun t => highDigit (balanced prime (f t))) ++
          high.drop (s + n)) := by
  induction n generalizing s low high with
  | zero => simp [packDigits]
  | succ n ih =>
    obtain ⟨hs, hlt⟩ := hsource s (le_refl s) (by omega)
    rw [List.range'_succ, packDigits, hs, checked_ok, ok_bind, packEntry_ok hp hlt, ok_bind,
      write_ok _ (by omega), checked_ok, ok_bind, write_ok _ (by omega), checked_ok, ok_bind,
      ih (fun t h1 h2 => hsource t (by omega) (by omega)) (by rw [List.length_set]; omega)
        (by rw [List.length_set]; omega), take_succ_set _ (by omega), take_succ_set _ (by omega),
      List.drop_set_of_lt (by omega), List.drop_set_of_lt (by omega)]
    simp [Nat.add_comm, Nat.add_left_comm]

theorem fillFrom_ok {k : Nat} {xs : List Int} (h : k ≤ xs.length) :
    fillFrom k xs = .ok (xs.take k ++ List.replicate (xs.length - k) 0) := if_pos h

/-- A written row, then zeros. -/
theorem row_eq {k pk : Nat} (g : Nat → Int) (h : k ≤ pk) :
    (List.range k).map g ++ List.replicate (pk - k) 0 =
      (List.range pk).map fun t => if t < k then g t else 0 := by
  obtain ⟨d, rfl⟩ := Nat.exists_eq_add_of_le h
  rw [Nat.add_sub_cancel_left, List.range_add, List.map_append, List.map_map]
  congr 1
  · exact List.map_congr_left fun t ht => (if_pos (List.mem_range.mp ht)).symm
  · refine List.ext_getElem (by simp) fun i h1 h2 => ?_
    simp

/-- The digits of a source matrix, padded. -/
def digitTile (digit : Int → Int) (prime : Nat) (f : Nat → Nat → Nat) (count k : Nat) :
    Nat → Nat → Int :=
  corner count k fun i t => digit (balanced prime (f i t))

theorem packChunk_ok {message : String} {source : Nat → Nat → Checked Nat} {prime : Nat}
    {f : Nat → Nat → Nat} (hp : prime ≤ 16191) {count k pk index : Nat} (hk : k ≤ pk)
    (hsource : ∀ i < count, ∀ t < k, source i t = .ok (f i t) ∧ f i t < prime) {low high : List Int}
    (hlow : low.length = pk) (hhigh : high.length = pk) :
    packChunk message source count k prime index low high = .ok
      ((List.range pk).map (digitTile lowDigit prime f count k index),
        (List.range pk).map (digitTile highDigit prime f count k index)) := by
  unfold packChunk
  split
  · rename_i hindex
    rw [List.range_eq_range', packDigits_ok hp (fun t _ ht => hsource index hindex t (by omega))
      (by omega) (by omega), ok_bind]
    simp only [List.take_zero, List.nil_append, Nat.zero_add, ← List.range_eq_range']
    have hfill (digit : Int → Int) {old : List Int} (hold : old.length = pk) :
        fillFrom k ((List.range k).map (fun t => digit (balanced prime (f index t))) ++
          old.drop k) =
          .ok ((List.range pk).map (digitTile digit prime f count k index)) := by
      rw [fillFrom_ok (by simp), List.take_left' (by simp)]
      have hlen : ((List.range k).map (fun t => digit (balanced prime (f index t))) ++
          old.drop k).length = pk := by
        simp [hold, hk]
      rw [hlen, row_eq _ hk]
      refine congrArg Except.ok (List.map_congr_left fun t _ => ?_)
      simp [digitTile, corner, hindex]
    rw [hfill lowDigit hlow, checked_ok, ok_bind, hfill highDigit hhigh, checked_ok, ok_bind]
    rfl
  · rename_i hindex
    rw [hlow, hhigh]
    refine congrArg Except.ok (Prod.ext ?_ ?_) <;>
      exact List.ext_getElem (by simp) fun i h1 h2 => by simp [digitTile, corner, hindex]

theorem chunks_eq {α : Type} {size r : Nat} {xs : List α} (hs : 0 < size)
    (h : xs.length = r * size) :
    chunks size xs = (List.range r).map fun i => (xs.drop (i * size)).take size := by
  have hcount : (xs.length + size - 1) / size = r := by
    rw [h, Nat.add_sub_assoc hs, Nat.mul_comm, Nat.mul_add_div hs, Nat.div_eq_of_lt (by omega),
      Nat.add_zero]
  rw [chunks, hcount]

theorem chunk_length {α : Type} {size r i : Nat} {xs : List α} (h : xs.length = r * size)
    (hi : i < r) :
    ((xs.drop (i * size)).take size).length = size := by
  have : (i + 1) * size ≤ r * size := Nat.mul_le_mul_right _ hi
  rw [Nat.succ_mul] at this
  rw [List.length_take, List.length_drop, h]
  omega

/-- A map over chunks that ignores their content gives one row per chunk. -/
theorem mapM_chunks {α β γ : Type} {f : β × Nat → Except γ α} {g : Nat → α} {xs : List β}
    (h : ∀ x i, xs[i]? = some x → f (x, i) = .ok (g i)) :
    xs.zipIdx.mapM f = .ok ((List.range xs.length).map g) := by
  rw [mapM_ok (g := g ∘ Prod.snd), ← List.map_map, List.zipIdx_map_snd, ← List.range_eq_range']
  rintro ⟨x, i⟩ hx
  exact h x i (List.mem_zipIdx_iff_getElem?.mp hx)

/-- **Packing.** It succeeds on canonical residues and leaves the padded digits,
whatever the buffers held. -/
theorem packAll_ok {message : String} {source : Nat → Nat → Checked Nat} {prime : Nat}
    {f : Nat → Nat → Nat} (hp : prime ≤ 16191) {count k pk r : Nat} (hk : k ≤ pk) (hpk : 0 < pk)
    (hsource : ∀ i < count, ∀ t < k, source i t = .ok (f i t) ∧ f i t < prime) {low high : List Int}
    (hlow : low.length = r * pk) (hhigh : high.length = r * pk) :
    packAll message source count k pk prime low high = .ok
      (tile r pk (digitTile lowDigit prime f count k),
        tile r pk (digitTile highDigit prime f count k)) := by
  have hzip : ∀ x i, ((chunks pk low).zip (chunks pk high))[i]? = some x →
      packChunk message source count k prime i x.1 x.2 = .ok
        ((List.range pk).map (digitTile lowDigit prime f count k i),
          (List.range pk).map (digitTile highDigit prime f count k i)) := by
    rintro ⟨x, y⟩ i hx
    rw [List.getElem?_zip_eq_some, chunks_eq hpk hlow, chunks_eq hpk hhigh, List.getElem?_map,
      List.getElem?_map] at hx
    obtain ⟨h1, h2⟩ := hx
    obtain ⟨j, hj, rfl⟩ := Option.map_eq_some_iff.mp h1
    obtain ⟨j', hj', rfl⟩ := Option.map_eq_some_iff.mp h2
    obtain ⟨hir, rfl⟩ := List.getElem?_eq_some_iff.mp hj
    obtain ⟨-, rfl⟩ := List.getElem?_eq_some_iff.mp hj'
    rw [List.length_range] at hir
    simp only [List.getElem_range]
    exact packChunk_ok hp hk hsource (chunk_length hlow hir) (chunk_length hhigh hir)
  have hlen : ((chunks pk low).zip (chunks pk high)).length = r := by
    rw [chunks_eq hpk hlow, chunks_eq hpk hhigh]
    simp
  unfold packAll
  rw [assert, if_pos (by simpa using hpk.ne'), checked_ok, ok_bind,
    mapM_chunks (fun x i => hzip x i), hlen, ok_bind]
  rw [List.flatMap_map, List.flatMap_map]
  exact congrArg Except.ok (Prod.ext (flatMap_rows _ r pk) (flatMap_rows _ r pk))

theorem packLeft_ok {a : List Nat} {m k pm pk prime : Nat} (hp : prime ≤ 16191) (hk0 : 0 < k)
    (hk : k ≤ pk) (ha : a.length = m * k) (hcanon : ∀ v ∈ a, v < prime) {low high : List Int}
    (hlow : low.length = pm * pk) (hhigh : high.length = pm * pk) :
    packLeft a k pk prime low high = .ok
      (tile pm pk (digitTile lowDigit prime (fun i t => a.getD (i * k + t) 0) m k),
        tile pm pk (digitTile highDigit prime (fun i t => a.getD (i * k + t) 0) m k)) := by
  unfold packLeft
  rw [divide_ok (by omega), checked_ok, ok_bind, ha, Nat.mul_div_cancel _ hk0]
  refine packAll_ok hp hk (by omega) (fun i hi t ht => ?_) hlow hhigh
  have hlt : i * k + t < a.length := by rw [ha]; exact index_lt hi ht
  exact ⟨read_getD 0 hlt, hcanon _ (getD_mem 0 hlt)⟩

theorem packRight_ok {b : List Nat} {k n pk pn prime : Nat} (hp : prime ≤ 16191) (hn0 : 0 < n)
    (hk0 : 0 < k) (hk : k ≤ pk) (hb : b.length = k * n) (hcanon : ∀ v ∈ b, v < prime)
    {low high : List Int} (hlow : low.length = pn * pk) (hhigh : high.length = pn * pk) :
    packRight b n pk prime low high = .ok
      (tile pn pk (digitTile lowDigit prime (fun j t => b.getD (t * n + j) 0) n k),
        tile pn pk (digitTile highDigit prime (fun j t => b.getD (t * n + j) 0) n k)) := by
  unfold packRight
  rw [divide_ok (by omega), checked_ok, ok_bind, hb, Nat.mul_div_cancel _ hn0]
  refine packAll_ok hp hk (by omega) (fun j hj t ht => ?_) hlow hhigh
  have hlt : t * n + j < b.length := by rw [hb]; exact index_lt ht hj
  exact ⟨read_getD 0 hlt, hcanon _ (getD_mem 0 hlt)⟩

/-! ## Digit sums -/

theorem writeSums_ok {sums lows highs : List Int} (hl : lows.length = sums.length)
    (hh : highs.length = sums.length)
    (hrange : ∀ x ∈ List.zipWith (· + ·) lows highs, -128 ≤ x ∧ x ≤ 127) :
    writeSums sums lows highs = .ok (List.zipWith (· + ·) lows highs) := by
  induction sums generalizing lows highs with
  | nil =>
    obtain rfl := List.eq_nil_of_length_eq_zero hl
    rfl
  | cons sum sums ih =>
    obtain ⟨low, lows, rfl⟩ := List.exists_cons_of_length_eq_add_one hl
    obtain ⟨high, highs, rfl⟩ := List.exists_cons_of_length_eq_add_one hh
    rw [List.zipWith_cons_cons] at hrange ⊢
    rw [writeSums, addI8?, if_pos (hrange _ List.mem_cons_self), context, ok_bind,
      ih (by simpa using hl) (by simpa using hh) fun x hx => hrange x (List.mem_cons_of_mem _ hx),
      ok_bind]
    rfl

/-- The sum of the two digits of a source matrix, padded. -/
def sumDigit (r : Int) : Int := lowDigit r + highDigit r

theorem zipWith_tile (rows cols : Nat) (f g : Nat → Nat → Int) :
    List.zipWith (· + ·) (tile rows cols f) (tile rows cols g) =
      tile rows cols fun i t => f i t + g i t := by
  simp [tile, List.zipWith_map, List.zipWith_self]

theorem digitTile_add (prime : Nat) (f : Nat → Nat → Nat) (count k i t : Nat) :
    digitTile lowDigit prime f count k i t + digitTile highDigit prime f count k i t =
      digitTile sumDigit prime f count k i t := by
  unfold digitTile corner
  split <;> simp [sumDigit]

/-- Entries that fit `i8`, with room: no magnitude above 127. -/
theorem digitTile_abs {digit : Int → Int} (hdigit : ∀ r, |r| ≤ 8095 → |digit r| ≤ 127) {prime : Nat}
    (hp : prime ≤ 16191) {f : Nat → Nat → Nat} {count k : Nat}
    (hf : ∀ i < count, ∀ t < k, f i t < prime) (i t : Nat) :
    |digitTile digit prime f count k i t| ≤ 127 := by
  unfold digitTile corner
  split
  · rename_i h
    exact hdigit _ (balanced_abs hp (hf i h.1 t h.2))
  · norm_num

theorem lowDigit_abs {r : Int} (h : |r| ≤ 8095) : |lowDigit r| ≤ 127 := by
  have := digits_bounds h
  rw [abs_le]
  omega

theorem highDigit_abs {r : Int} (h : |r| ≤ 8095) : |highDigit r| ≤ 127 := by
  have := digits_bounds h
  rw [abs_le]
  omega

theorem sumDigit_abs {r : Int} (h : |r| ≤ 8095) : |sumDigit r| ≤ 127 := by
  have := digits_bounds h
  unfold sumDigit
  rw [abs_le]
  omega

theorem writeSums_tile {rows cols prime count k : Nat} {f : Nat → Nat → Nat} (hp : prime ≤ 16191)
    (hf : ∀ i < count, ∀ t < k, f i t < prime) {stale : List Int}
    (hstale : stale.length = rows * cols) :
    writeSums stale (tile rows cols (digitTile lowDigit prime f count k))
        (tile rows cols (digitTile highDigit prime f count k)) =
      .ok (tile rows cols (digitTile sumDigit prime f count k)) := by
  have hsum : List.zipWith (· + ·) (tile rows cols (digitTile lowDigit prime f count k))
      (tile rows cols (digitTile highDigit prime f count k)) =
        tile rows cols (digitTile sumDigit prime f count k) := by
    rw [zipWith_tile]
    simp only [digitTile_add]
  rw [writeSums_ok (by simp [hstale]) (by simp [hstale]), hsum]
  rw [hsum]
  refine mem_tile fun i _ t _ => ?_
  have := abs_le.mp (digitTile_abs (fun r => sumDigit_abs) hp hf i t)
  omega

/-! ## The three products -/

/-- A dot product of two packed operands over some of the reduction indices. -/
def partialSum (a b : List Int) (pk i j : Nat) (indices : Finset Nat) : Int :=
  ∑ t ∈ indices, a.getD (i * pk + t) 0 * b.getD (j * pk + t) 0

/-- Operands of a GEMM call: full tiles of `i8` values no partial sum of which,
in any order, leaves `i32`. -/
structure GemmOperands (pm pk pn : Nat) (a b output : List Int) : Prop where
  left_length : a.length = pm * pk
  right_length : b.length = pn * pk
  output_length : output.length = pm * pn
  left_i8 : ∀ x ∈ a, -128 ≤ x ∧ x ≤ 127
  right_i8 : ∀ x ∈ b, -128 ≤ x ∧ x ≤ 127
  partial_i32 : ∀ i < pm, ∀ j < pn, ∀ indices ⊆ Finset.range pk,
    |partialSum a b pk i j indices| ≤ 2 ^ 31 - 1

/-- The column-major product of a transposed left and a right operand. -/
def gemmOutput (pm pk pn : Nat) (a b : List Int) : List Int :=
  (List.range (pm * pn)).map fun e => partialSum a b pk (e % pm) (e / pm) (Finset.range pk)

/-- The device computes the integer product of every such pair of operands. -/
def ExactGemm (gemm : List Int → List Int → List Int → Result (List Int)) (pm pk pn : Nat) : Prop :=
  ∀ a b output, GemmOperands pm pk pn a b output → gemm a b output = .ok (gemmOutput pm pk pn a b)

theorem partialSum_abs {a b : List Int} {pk i j : Nat} {indices : Finset Nat}
    (ha : ∀ t ∈ indices, |a.getD (i * pk + t) 0| ≤ 127)
    (hb : ∀ t ∈ indices, |b.getD (j * pk + t) 0| ≤ 127) :
    |partialSum a b pk i j indices| ≤ indices.card * 16129 := by
  calc |partialSum a b pk i j indices|
      ≤ ∑ t ∈ indices, |a.getD (i * pk + t) 0 * b.getD (j * pk + t) 0| :=
        Finset.abs_sum_le_sum_abs _ _
    _ ≤ ∑ _t ∈ indices, (16129 : Int) := by
        refine Finset.sum_le_sum fun t ht => ?_
        rw [abs_mul]
        exact (mul_le_mul (ha t ht) (hb t ht) (abs_nonneg _) (by norm_num)).trans (by norm_num)
    _ = indices.card * 16129 := by rw [Finset.sum_const, nsmul_eq_mul]

theorem gemmOperands_tile {pm pk pn : Nat} {f g : Nat → Nat → Int} {output : List Int}
    (hpk : pk * 127 * 127 ≤ 2 ^ 31 - 1) (hf : ∀ i t, |f i t| ≤ 127) (hg : ∀ i t, |g i t| ≤ 127)
    (hout : output.length = pm * pn) :
    GemmOperands pm pk pn (tile pm pk f) (tile pn pk g) output := by
  have hi8 : ∀ x : Int, |x| ≤ 127 → -128 ≤ x ∧ x ≤ 127 := fun x hx => by
    have := abs_le.mp hx
    omega
  refine ⟨by simp, by simp, hout, mem_tile fun i _ t _ => hi8 _ (hf i t),
    mem_tile fun i _ t _ => hi8 _ (hg i t), fun i hi j hj indices hsub => ?_⟩
  have hlt : ∀ t ∈ indices, t < pk := fun t ht => Finset.mem_range.mp (hsub ht)
  have hcard := Finset.card_le_card hsub
  rw [Finset.card_range] at hcard
  refine (partialSum_abs (fun t ht => ?_) (fun t ht => ?_)).trans ?_
  · rw [tile_getD f hi (hlt t ht)]
    exact hf i t
  · rw [tile_getD g hj (hlt t ht)]
    exact hg j t
  · zify at hcard hpk ⊢
    omega

/-- A product of two tiles, at one place. -/
def tileDot (f g : Nat → Nat → Int) (pk i j : Nat) : Int := ∑ t ∈ Finset.range pk, f i t * g j t

theorem partialSum_tile {pm pk pn i j : Nat} (f g : Nat → Nat → Int) (hi : i < pm) (hj : j < pn) :
    partialSum (tile pm pk f) (tile pn pk g) pk i j (Finset.range pk) = tileDot f g pk i j := by
  refine Finset.sum_congr rfl fun t ht => ?_
  have ht := Finset.mem_range.mp ht
  rw [tile_getD f hi ht, tile_getD g hj ht]

theorem gemmOutput_getElem {pm pk pn i j : Nat} (f g : Nat → Nat → Int) (hi : i < pm)
    (hj : j < pn) :
    (gemmOutput pm pk pn (tile pm pk f) (tile pn pk g))[j * pm + i]? =
      some (tileDot f g pk i j) := by
  have hlt : j * pm + i < pm * pn := by
    rw [Nat.mul_comm pm pn]
    exact index_lt hj hi
  rw [gemmOutput, List.getElem?_map, List.getElem?_range hlt, Option.map_some, Nat.mul_comm,
    Nat.mul_add_mod, Nat.mod_eq_of_lt hi, Nat.mul_add_div (by omega), Nat.div_eq_of_lt hi,
    Nat.add_zero, partialSum_tile f g hi hj]

/-! ## Recombination -/

theorem recombineEntry_ok {c0 c2 cs : List Int} {pm prime i j : Nat} {low high sum : Int}
    (hindex : j * pm + i < 2 ^ 64) (h0 : c0[j * pm + i]? = some low)
    (h2 : c2[j * pm + i]? = some high)
    (hs : cs[j * pm + i]? = some sum) (hlow : |low| ≤ 2 ^ 31 - 1) (hhigh : |high| ≤ 2 ^ 31 - 1)
    (hsum : |sum| ≤ 2 ^ 31 - 1) :
    recombineEntry c0 c2 cs pm prime i j =
      .ok (((low + 128 * (sum - low - high) + 16384 * high) % (prime : Int)).toNat % 2 ^ 16) := by
  obtain ⟨h1, h2'⟩ := abs_le.mp hlow
  obtain ⟨h3, h4⟩ := abs_le.mp hhigh
  obtain ⟨h5, h6⟩ := abs_le.mp hsum
  unfold recombineEntry
  rw [unsigned_ok hindex, ok_bind, read_ok h0, ok_bind, read_ok h2, ok_bind, read_ok hs, ok_bind,
    signed_ok (by omega) (by omega), ok_bind, signed_ok (by omega) (by omega), ok_bind,
    signed_ok (by omega) (by omega), ok_bind, signed_ok (by omega) (by omega), ok_bind,
    signed_ok (by omega) (by omega), ok_bind, signed_ok (by omega) (by omega), ok_bind]
  rfl

theorem recombineProducts_ok {c0 c2 cs : List Int} {pm m n prime : Nat} {g : Nat → Nat → Nat}
    (hn : 0 < n)
    (h : ∀ i < m, ∀ j < n, recombineEntry c0 c2 cs pm prime i j = .ok (g i j)) {result : List Nat}
    (hresult : result.length = m * n) :
    recombineProducts c0 c2 cs pm n prime result =
      .ok ((List.range (m * n)).map fun e => g (e / n) (e % n)) := by
  have hrow : ∀ row i, (chunks n result)[i]? = some row →
      (List.range row.length).mapM (fun j => recombineEntry c0 c2 cs pm prime i j) =
        .ok ((List.range n).map (g i)) := by
    intro row i hrow
    rw [chunks_eq hn hresult, List.getElem?_map] at hrow
    obtain ⟨i', hi, rfl⟩ := Option.map_eq_some_iff.mp hrow
    obtain ⟨him, rfl⟩ := List.getElem?_eq_some_iff.mp hi
    rw [List.length_range] at him
    simp only [List.getElem_range]
    rw [chunk_length hresult him]
    exact mapM_ok fun j hj => h i him j (List.mem_range.mp hj)
  have hlen : (chunks n result).length = m := by
    rw [chunks_eq hn hresult]
    simp
  unfold recombineProducts
  rw [assert, if_pos (by simpa using hn.ne'), ok_bind, mapM_chunks (fun row i => hrow row i), hlen,
    ok_bind]
  refine congrArg Except.ok ?_
  rw [← flatMap_rows g m n, List.flatMap_def]

/-- Two digits by two digits: the three products give the product of the centred
residues. -/
theorem digits_recombine (ra rb : Int) :
    lowDigit ra * lowDigit rb + 128 * (sumDigit ra * sumDigit rb - lowDigit ra * lowDigit rb -
      highDigit ra * highDigit rb) + 16384 * (highDigit ra * highDigit rb) = ra * rb := by
  unfold sumDigit lowDigit
  ring

/-- The recombined value is the dot product of the centred residues. -/
theorem tileDot_recombine {prime m k n pk i j : Nat} {f g : Nat → Nat → Nat} (hk : k ≤ pk)
    (hi : i < m) (hj : j < n) :
    tileDot (digitTile lowDigit prime f m k) (digitTile lowDigit prime g n k) pk i j +
        128 * (tileDot (digitTile sumDigit prime f m k) (digitTile sumDigit prime g n k) pk i j -
          tileDot (digitTile lowDigit prime f m k) (digitTile lowDigit prime g n k) pk i j -
          tileDot (digitTile highDigit prime f m k) (digitTile highDigit prime g n k) pk i j) +
        16384 * tileDot (digitTile highDigit prime f m k) (digitTile highDigit prime g n k) pk i j =
      ∑ t ∈ Finset.range k, balanced prime (f i t) * balanced prime (g j t) := by
  unfold tileDot
  rw [← Finset.sum_sub_distrib, ← Finset.sum_sub_distrib, Finset.mul_sum, Finset.mul_sum,
    ← Finset.sum_add_distrib, ← Finset.sum_add_distrib]
  -- the padded indices add nothing
  have hpad : ∑ t ∈ Finset.range k, balanced prime (f i t) * balanced prime (g j t) =
      ∑ t ∈ Finset.range pk, if t < k then balanced prime (f i t) * balanced prime (g j t)
          else 0 := by
    rw [← Finset.sum_filter]
    refine Finset.sum_congr ?_ fun _ _ => rfl
    ext t
    simp only [Finset.mem_range, Finset.mem_filter]
    omega
  rw [hpad]
  refine Finset.sum_congr rfl fun t _ => ?_
  by_cases ht : t < k
  · simp only [digitTile, corner, hi, hj, ht, and_self, if_true]
    exact digits_recombine _ _
  · simp [digitTile, corner, ht]

/-! ## Canonical residues -/

/-- The residues both routes return. -/
def expectedResidues (a b : List Nat) (m k n p : Nat) : List Nat :=
  (List.range (m * n)).map fun e =>
    entryResidue (a.map (Nat.cast : Nat → Int)) (b.map (Nat.cast : Nat → Int)) k n (e / n) (e % n) p

theorem residueMatrix_canonical {a : List Nat} {p : Nat} (h : ∀ v ∈ a, v < p) :
    residueMatrix (a.map (Nat.cast : Nat → Int)) p = a := by
  rw [residueMatrix, List.map_map]
  refine (List.map_congr_left fun v hv => ?_).trans (List.map_id a)
  have hneg : decide ((v : Int) < 0) = false := by simp
  simp [Function.comp, signedResidue, hneg, Nat.mod_eq_of_lt (h v hv)]

theorem cpuResidueProduct_canonical {a b : List Nat} {m k n p : Nat} (hp3 : 3 ≤ p) (hp : p ≤ 16191)
    (ha : a.length = m * k) (hb : b.length = k * n) (hca : ∀ v ∈ a, v < p) (hcb : ∀ v ∈ b, v < p)
    (hk : k ≤ 2 ^ 31) (hmn : m * n < 2 ^ 64) :
    cpuResidueProduct a b m k n p = .ok (expectedResidues a b m k n p) := by
  have hl : (a.map (Nat.cast : Nat → Int)).length = m * k := by rw [List.length_map, ha]
  have hr : (b.map (Nat.cast : Nat → Int)).length = k * n := by rw [List.length_map, hb]
  have h := cpuResidueProduct_ok hp3 hp hl hr hk hmn
  rwa [residueMatrix_canonical hca, residueMatrix_canonical hcb] at h

/-- The centred dot product has the residue of the entry. -/
theorem balanced_residue {a b : List Nat} {k n p : Nat} (hp3 : 3 ≤ p) (hp : p ≤ 16191) (i j : Nat) :
    ((∑ t ∈ Finset.range k, balanced p (a.getD (i * k + t) 0) * balanced p (b.getD (t * n + j) 0)) %
        (p : Int)).toNat % 2 ^ 16 =
      entryResidue (a.map (Nat.cast : Nat → Int)) (b.map (Nat.cast : Nat → Int)) k n i j p := by
  have hcast (xs : List Nat) (x : Nat) :
      (xs.map (Nat.cast : Nat → Int)).getD x 0 = ((xs.getD x 0 : Nat) : Int) := by
    rw [← Nat.cast_zero, List.getD_map]
  have hmod : (∑ t ∈ Finset.range k,
      balanced p (a.getD (i * k + t) 0) * balanced p (b.getD (t * n + j) 0)) ≡
        productEntry (a.map (Nat.cast : Nat → Int)) (b.map (Nat.cast : Nat → Int)) k n i j
            [ZMOD p] := by
    refine Int.modEq_iff_dvd.mpr ?_
    unfold productEntry
    rw [← Finset.sum_sub_distrib]
    refine Finset.dvd_sum fun t _ => ?_
    rw [hcast, hcast]
    exact ((balanced_modEq p _).mul (balanced_modEq p _)).dvd
  rw [hmod.eq, entryResidue, Nat.mod_eq_of_lt]
  have := Int.emod_lt_of_pos
    (productEntry (a.map (Nat.cast : Nat → Int)) (b.map (Nat.cast : Nat → Int)) k n i j)
    (b := p) (by omega)
  omega

section
variable {a b : List Nat} {m k n pm pk pn p : Nat}

/-- One of the three GEMM operands. -/
def leftTile (digit : Int → Int) (p : Nat) (a : List Nat) (m k : Nat) : Nat → Nat → Int :=
  digitTile digit p (fun i t => a.getD (i * k + t) 0) m k

def rightTile (digit : Int → Int) (p : Nat) (b : List Nat) (k n : Nat) : Nat → Nat → Int :=
  digitTile digit p (fun j t => b.getD (t * n + j) 0) n k

theorem left_canonical (ha : a.length = m * k) (hca : ∀ v ∈ a, v < p) :
    ∀ i < m, ∀ t < k, a.getD (i * k + t) 0 < p :=
  fun i hi t ht => hca _ (getD_mem 0 (by rw [ha]; exact index_lt hi ht))

theorem right_canonical (hb : b.length = k * n) (hcb : ∀ v ∈ b, v < p) :
    ∀ j < n, ∀ t < k, b.getD (t * n + j) 0 < p :=
  fun j hj t ht => hcb _ (getD_mem 0 (by rw [hb]; exact index_lt ht hj))

/-- A GEMM call on one pair of digit tiles returns their product. -/
theorem gemm_tile {gemm : List Int → List Int → List Int → Result (List Int)}
    (hg : ExactGemm gemm pm pk pn) {digit : Int → Int} (hdigit : ∀ r, |r| ≤ 8095 → |digit r| ≤ 127)
    (hp : p ≤ 16191) (ha : a.length = m * k) (hb : b.length = k * n) (hca : ∀ v ∈ a, v < p)
    (hcb : ∀ v ∈ b, v < p) (hpk : pk * 127 * 127 ≤ 2 ^ 31 - 1) {output : List Int}
    (hout : output.length = pm * pn) :
    gemm (tile pm pk (leftTile digit p a m k)) (tile pn pk (rightTile digit p b k n)) output =
      .ok (gemmOutput pm pk pn (tile pm pk (leftTile digit p a m k))
        (tile pn pk (rightTile digit p b k n))) :=
  hg _ _ _ (gemmOperands_tile hpk
    (digitTile_abs hdigit hp (left_canonical ha hca))
    (digitTile_abs hdigit hp (right_canonical hb hcb)) hout)

theorem tileDot_abs {digit : Int → Int} (hdigit : ∀ r, |r| ≤ 8095 → |digit r| ≤ 127)
    (hp : p ≤ 16191) (ha : a.length = m * k) (hb : b.length = k * n) (hca : ∀ v ∈ a, v < p)
    (hcb : ∀ v ∈ b, v < p) (hpk : pk * 127 * 127 ≤ 2 ^ 31 - 1) {i j : Nat} (hi : i < pm)
    (hj : j < pn) :
    |tileDot (leftTile digit p a m k) (rightTile digit p b k n) pk i j| ≤ 2 ^ 31 - 1 := by
  have hops : GemmOperands pm pk pn (tile pm pk (leftTile digit p a m k))
      (tile pn pk (rightTile digit p b k n)) (List.replicate (pm * pn) 0) :=
    gemmOperands_tile hpk (digitTile_abs hdigit hp (left_canonical ha hca))
      (digitTile_abs hdigit hp (right_canonical hb hcb)) (by simp)
  have h := hops.partial_i32 i hi j hj _ (Finset.Subset.refl _)
  rwa [partialSum_tile _ _ hi hj] at h

/-- Recombining the three products gives the expected residues. -/
theorem recombine_expected (hp3 : 3 ≤ p) (hp : p ≤ 16191) (ha : a.length = m * k)
    (hb : b.length = k * n) (hca : ∀ v ∈ a, v < p) (hcb : ∀ v ∈ b, v < p) (hn : 0 < n) (hk : k ≤ pk)
    (hm : m ≤ pm) (hnn : n ≤ pn) (hpk : pk * 127 * 127 ≤ 2 ^ 31 - 1) (hsize : pm * pn < 2 ^ 64)
    {result : List Nat} (hresult : result.length = m * n) :
    recombineProducts
        (gemmOutput pm pk pn (tile pm pk (leftTile lowDigit p a m k))
          (tile pn pk (rightTile lowDigit p b k n)))
        (gemmOutput pm pk pn (tile pm pk (leftTile highDigit p a m k))
          (tile pn pk (rightTile highDigit p b k n)))
        (gemmOutput pm pk pn (tile pm pk (leftTile sumDigit p a m k))
          (tile pn pk (rightTile sumDigit p b k n))) pm n p result =
      .ok (expectedResidues a b m k n p) := by
  refine recombineProducts_ok (g := fun i j => entryResidue (a.map (Nat.cast : Nat → Int))
    (b.map (Nat.cast : Nat → Int)) k n i j p) hn (fun i hi j hj => ?_) hresult
  have hi' : i < pm := by omega
  have hj' : j < pn := by omega
  have hindex : j * pm + i < 2 ^ 64 := by
    refine lt_of_lt_of_le (index_lt hj' hi') ?_
    rw [Nat.mul_comm]
    exact hsize.le
  rw [recombineEntry_ok hindex (gemmOutput_getElem _ _ hi' hj') (gemmOutput_getElem _ _ hi' hj')
    (gemmOutput_getElem _ _ hi' hj')
    (tileDot_abs (fun r => lowDigit_abs) hp ha hb hca hcb hpk hi' hj')
    (tileDot_abs (fun r => highDigit_abs) hp ha hb hca hcb hpk hi' hj')
    (tileDot_abs (fun r => sumDigit_abs) hp ha hb hca hcb hpk hi' hj')]
  unfold leftTile rightTile
  rw [tileDot_recombine hk hi hj, balanced_residue hp3 hp]

end

/-! ## Shapes -/

theorem paddedTo_ok {tile value out : Nat} (ht : 0 < tile) (h : paddedTo tile value = .ok out) :
    value ≤ out ∧ out ≤ 2 ^ 31 - 1 := by
  unfold paddedTo at h
  obtain ⟨sum, hsum, h⟩ := bind_eq_ok h
  obtain ⟨_, hle, h⟩ := bind_eq_ok h
  cases h
  obtain ⟨rfl, -⟩ := usize_eq_some (context_ok hsum)
  have hdiv := Nat.div_add_mod (value + (tile - 1)) tile
  have hmod := Nat.mod_lt (value + (tile - 1)) ht
  rw [Nat.mul_comm] at hdiv
  exact ⟨by omega, of_decide_eq_true (ensure_ok hle)⟩

/-- Padded dimensions cover the real ones, and the tiles of a product fit `usize`. -/
structure Padded (m k n pm pk pn : Nat) : Prop where
  rows : m ≤ pm
  inner : k ≤ pk
  columns : n ≤ pn
  rows_le : pm ≤ 2 ^ 31 - 1
  columns_le : pn ≤ 2 ^ 31 - 1

theorem Padded.product_lt {m k n pm pk pn : Nat} (h : Padded m k n pm pk pn) : pm * pn < 2 ^ 64 :=
  lt_of_le_of_lt (Nat.mul_le_mul h.rows_le h.columns_le) (by norm_num)

theorem Padded.entries_lt {m k n pm pk pn : Nat} (h : Padded m k n pm pk pn) : m * n < 2 ^ 64 :=
  lt_of_le_of_lt (Nat.mul_le_mul h.rows h.columns) h.product_lt

theorem inner_le {m k n pm pk pn : Nat} (h : Padded m k n pm pk pn)
    (hpk : pk * 127 * 127 ≤ 2 ^ 31 - 1) : k ≤ 2 ^ 31 := by
  have := h.inner
  omega

theorem engineShape_ok {m k n : Nat} {shape : EngineShape} (h : EngineShape.new m k n = .ok shape) :
    (shape.m = m ∧ shape.k = k ∧ shape.n = n) ∧ Padded m k n shape.pm shape.pk shape.pn := by
  unfold EngineShape.new at h
  obtain ⟨pm, hpm, h⟩ := bind_eq_ok h
  obtain ⟨pk, hpk, h⟩ := bind_eq_ok h
  obtain ⟨pn, hpn, h⟩ := bind_eq_ok h
  cases h
  have h1 := paddedTo_ok (by norm_num) hpm
  have h2 := paddedTo_ok (by norm_num) hpk
  have h3 := paddedTo_ok (by norm_num) hpn
  exact ⟨⟨rfl, rfl, rfl⟩, h1.1, h2.1, h3.1, h1.2, h3.2⟩

/-- What an accepted pipeline shape guarantees. -/
structure PipelineOk (m k n : Nat) (shape : PipelineShape) : Prop where
  dims : shape.m = m ∧ shape.k = k ∧ shape.n = n
  inner_pos : 0 < k
  columns_pos : 0 < n
  padded : Padded m k n shape.pm shape.pk shape.pn
  accumulation : shape.pk * 127 * 127 ≤ 2 ^ 31 - 1
  a_eq : shape.a = shape.pm * shape.pk
  b_eq : shape.b = shape.pn * shape.pk
  c_eq : shape.c = shape.pm * shape.pn

theorem pipelineShape_ok {m k n : Nat} {shape : PipelineShape}
    (h : PipelineShape.new m k n = .ok shape) : PipelineOk m k n shape := by
  unfold PipelineShape.new at h
  obtain ⟨_, hpos, h⟩ := bind_eq_ok h
  obtain ⟨pm, hpm, h⟩ := bind_eq_ok h
  obtain ⟨pk, hpk, h⟩ := bind_eq_ok h
  obtain ⟨pn, hpn, h⟩ := bind_eq_ok h
  obtain ⟨_, hacc, h⟩ := bind_eq_ok h
  obtain ⟨_, _, h⟩ := bind_eq_ok h
  obtain ⟨a, ha, h⟩ := bind_eq_ok h
  obtain ⟨b, hb, h⟩ := bind_eq_ok h
  obtain ⟨c, hc, h⟩ := bind_eq_ok h
  obtain ⟨_, _, h⟩ := bind_eq_ok h
  cases h
  have hpos := ensure_ok hpos
  simp only [Bool.and_eq_true, decide_eq_true_eq] at hpos
  have h1 := paddedTo_ok (by norm_num) hpm
  have h2 := paddedTo_ok (by norm_num) hpk
  have h3 := paddedTo_ok (by norm_num) hpn
  exact ⟨⟨rfl, rfl, rfl⟩, hpos.1.2, hpos.2, ⟨h1.1, h2.1, h3.1, h1.2, h3.2⟩,
    of_decide_eq_true (ensure_ok hacc), (usize_eq_some (context_ok ha)).1,
    (usize_eq_some (context_ok hb)).1.trans (Nat.mul_comm _ _), (usize_eq_some (context_ok hc)).1⟩

/-! ## The two engines -/

/-- Canonical residue matrices of one product. -/
structure Operands (a b : List Nat) (m k n p : Nat) : Prop where
  modulus : 3 ≤ p ∧ p ≤ 16191
  left_length : a.length = m * k
  right_length : b.length = k * n
  left_canonical : ∀ v ∈ a, v < p
  right_canonical : ∀ v ∈ b, v < p

section
variable {a b : List Nat} {m k n p : Nat}

/-- The digit matrices of one side, stored one after another. -/
def leftBatch (p : Nat) (a : List Nat) (m k pm pk : Nat) : List Int :=
  tile pm pk (leftTile lowDigit p a m k) ++ tile pm pk (leftTile highDigit p a m k) ++
    tile pm pk (leftTile sumDigit p a m k)

def rightBatch (p : Nat) (b : List Nat) (k n pk pn : Nat) : List Int :=
  tile pn pk (rightTile lowDigit p b k n) ++ tile pn pk (rightTile highDigit p b k n) ++
    tile pn pk (rightTile sumDigit p b k n)

theorem length_parts {size : Nat} {xs : List Int} (h : xs.length = 3 * size) :
    (xs.take size).length = size ∧ ((xs.drop size).take size).length = size ∧
      ((xs.drop size).drop size).length = size := by
  simp only [List.length_take, List.length_drop, h]
  omega

theorem packDigitBatch_ok (ho : Operands a b m k n p) {shape : PipelineShape}
    (hs : PipelineOk m k n shape) {aa bb : List Int} (haa : aa.length = 3 * shape.a)
    (hbb : bb.length = 3 * shape.b) :
    packDigitBatch a b p shape aa bb = .ok
      (leftBatch p a m k shape.pm shape.pk, rightBatch p b k n shape.pk shape.pn) := by
  obtain ⟨rfl, rfl, rfl⟩ := hs.dims
  obtain ⟨hp3, hp⟩ := ho.modulus
  obtain ⟨ha1, ha2, ha3⟩ := length_parts haa
  obtain ⟨hb1, hb2, hb3⟩ := length_parts hbb
  have hleft := packLeft_ok hp hs.inner_pos hs.padded.inner ho.left_length ho.left_canonical
    (ha1.trans hs.a_eq) (ha2.trans hs.a_eq)
  have hright := packRight_ok hp hs.columns_pos hs.inner_pos hs.padded.inner ho.right_length
    ho.right_canonical (hb1.trans hs.b_eq) (hb2.trans hs.b_eq)
  have hasum := writeSums_tile hp (left_canonical ho.left_length ho.left_canonical)
    (ha3.trans hs.a_eq)
  have hbsum := writeSums_tile hp (right_canonical ho.right_length ho.right_canonical)
    (hb3.trans hs.b_eq)
  unfold packDigitBatch
  simp only [ho.left_length, ho.right_length, haa, hbb, beq_self_eq_true, Bool.and_self, hp3, hp,
    decide_true, ensure, if_true, hleft, hright, hasum, hbsum, ok_bind]
  rfl

/-- The product of one pair of digit matrices, as the device lays it out. -/
def digitOutput (digit : Int → Int) (p : Nat) (a b : List Nat) (m k n pm pk pn : Nat) : List Int :=
  gemmOutput pm pk pn (tile pm pk (leftTile digit p a m k)) (tile pn pk (rightTile digit p b k n))

theorem digitOutput_length (digit : Int → Int) (p : Nat) (a b : List Nat) (m k n pm pk pn : Nat) :
    (digitOutput digit p a b m k n pm pk pn).length = pm * pn := by
  simp [digitOutput, gemmOutput]

/-- The three parts of a batch, cut at multiples of their common length. -/
theorem batch_slices {size : Nat} {xs ys zs : List Int} (hx : xs.length = size)
    (hy : ys.length = size) (hz : zs.length = size) :
    ((xs ++ ys ++ zs).drop (0 * size)).take size = xs ∧
      ((xs ++ ys ++ zs).drop (1 * size)).take size = ys ∧
      ((xs ++ ys ++ zs).drop (2 * size)).take size = zs := by
  refine ⟨?_, ?_, ?_⟩
  · rw [Nat.zero_mul, List.drop_zero, List.append_assoc, ← hx, List.take_left]
  · rw [Nat.one_mul, List.append_assoc, ← hx, List.drop_left, hx, ← hy, List.take_left]
  · have hlen : (xs ++ ys).length = 2 * size := by
      rw [List.length_append, hx, hy, Nat.two_mul]
    rw [← hlen, List.drop_left, ← hz, List.take_length]

theorem batchedGemm_ok {gemm : List Int → List Int → List Int → Result (List Int)}
    (ho : Operands a b m k n p) {shape : PipelineShape} (hs : PipelineOk m k n shape)
    (hg : ExactGemm gemm shape.pm shape.pk shape.pn) {cc : List Int}
    (hcc : cc.length = 3 * shape.c) :
    batchedGemm gemm shape (leftBatch p a m k shape.pm shape.pk)
        (rightBatch p b k n shape.pk shape.pn) cc = .ok
      (digitOutput lowDigit p a b m k n shape.pm shape.pk shape.pn ++
        digitOutput highDigit p a b m k n shape.pm shape.pk shape.pn ++
        digitOutput sumDigit p a b m k n shape.pm shape.pk shape.pn) := by
  have hslice {i : Nat} (hi : i < 3) : ((cc.drop (i * shape.c)).take shape.c).length =
      shape.pm * shape.pn := by
    rw [← hs.c_eq]
    exact chunk_length hcc hi
  have hcall {digit : Int → Int} (hdigit : ∀ r, |r| ≤ 8095 → |digit r| ≤ 127) {i : Nat}
      (hi : i < 3) :=
    gemm_tile hg hdigit ho.modulus.2 ho.left_length ho.right_length ho.left_canonical
      ho.right_canonical hs.accumulation (hslice hi)
  obtain ⟨ha0, ha1, ha2⟩ := batch_slices
    ((tile_length shape.pm shape.pk (leftTile lowDigit p a m k)).trans hs.a_eq.symm)
    ((tile_length shape.pm shape.pk (leftTile highDigit p a m k)).trans hs.a_eq.symm)
    ((tile_length shape.pm shape.pk (leftTile sumDigit p a m k)).trans hs.a_eq.symm)
  obtain ⟨hb0, hb1, hb2⟩ := batch_slices
    ((tile_length shape.pn shape.pk (rightTile lowDigit p b k n)).trans hs.b_eq.symm)
    ((tile_length shape.pn shape.pk (rightTile highDigit p b k n)).trans hs.b_eq.symm)
    ((tile_length shape.pn shape.pk (rightTile sumDigit p b k n)).trans hs.b_eq.symm)
  unfold batchedGemm leftBatch rightBatch
  simp only [List.range_succ, List.range_zero, List.nil_append, List.cons_append, List.mapM_cons,
    List.mapM_nil, ha0, ha1, ha2, hb0, hb1, hb2,
    hcall (fun r => lowDigit_abs) (by norm_num : 0 < 3),
    hcall (fun r => highDigit_abs) (by norm_num : 1 < 3),
    hcall (fun r => sumDigit_abs) (by norm_num : 2 < 3), ok_bind]
  simp [digitOutput, pure, Except.pure]

theorem pipelineProduct_ok {gemm : List Int → List Int → List Int → Result (List Int)}
    (ho : Operands a b m k n p) {shape : PipelineShape} (hs : PipelineOk m k n shape)
    (hg : ExactGemm gemm shape.pm shape.pk shape.pn) {aa bb cc : List Int}
    (haa : aa.length = 3 * shape.a) (hbb : bb.length = 3 * shape.b)
    (hcc : cc.length = 3 * shape.c) :
    pipelineProduct gemm shape a b p aa bb cc = .ok (expectedResidues a b m k n p) := by
  have hlen (digit : Int → Int) :
      (digitOutput digit p a b m k n shape.pm shape.pk shape.pn).length = shape.c :=
    (digitOutput_length ..).trans hs.c_eq.symm
  obtain ⟨h0, h1, h2⟩ := batch_slices (hlen lowDigit) (hlen highDigit) (hlen sumDigit)
  rw [Nat.zero_mul, List.drop_zero] at h0
  rw [Nat.one_mul] at h1
  have hlast : ((digitOutput lowDigit p a b m k n shape.pm shape.pk shape.pn ++
      digitOutput highDigit p a b m k n shape.pm shape.pk shape.pn ++
      digitOutput sumDigit p a b m k n shape.pm shape.pk shape.pn).drop (2 * shape.c)).length ≤
        shape.c := by
    simp only [List.length_drop, List.length_append, hlen]
    omega
  rw [List.take_of_length_le hlast] at h2
  have hrec := recombine_expected ho.modulus.1 ho.modulus.2 ho.left_length ho.right_length
    ho.left_canonical ho.right_canonical hs.columns_pos hs.padded.inner hs.padded.rows
    hs.padded.columns hs.accumulation hs.padded.product_lt
    (List.length_replicate : (List.replicate (m * n) 0).length = m * n)
  unfold pipelineProduct
  rw [packDigitBatch_ok ho hs haa hbb, ok_bind, batchedGemm_ok ho hs hg hcc, ok_bind, h0, h1, h2,
    hs.dims.1, hs.dims.2.2]
  unfold digitOutput
  rw [hrec]
  rfl

/-- Host buffers of the lengths the serial engine allocates. -/
structure Allocated (host : HostBuffers) (shape : EngineShape) : Prop where
  a0 : host.a0.length = shape.pm * shape.pk
  a1 : host.a1.length = shape.pm * shape.pk
  b0 : host.b0.length = shape.pn * shape.pk
  b1 : host.b1.length = shape.pn * shape.pk
  c0 : host.c0.length = shape.pm * shape.pn
  c2 : host.c2.length = shape.pm * shape.pn
  cs : host.cs.length = shape.pm * shape.pn

/-- The buffers after a product: the digit sums have replaced the low digits. -/
def packedHost (p : Nat) (a b : List Nat) (shape : EngineShape) : HostBuffers where
  a0 := tile shape.pm shape.pk (leftTile sumDigit p a shape.m shape.k)
  a1 := tile shape.pm shape.pk (leftTile highDigit p a shape.m shape.k)
  b0 := tile shape.pn shape.pk (rightTile sumDigit p b shape.k shape.n)
  b1 := tile shape.pn shape.pk (rightTile highDigit p b shape.k shape.n)
  c0 := digitOutput lowDigit p a b shape.m shape.k shape.n shape.pm shape.pk shape.pn
  c2 := digitOutput highDigit p a b shape.m shape.k shape.n shape.pm shape.pk shape.pn
  cs := digitOutput sumDigit p a b shape.m shape.k shape.n shape.pm shape.pk shape.pn

theorem productInBuffers_ok {gemm : List Int → List Int → List Int → Result (List Int)}
    (ho : Operands a b m k n p) {shape : EngineShape} (hs : EngineShape.new m k n = .ok shape)
    (hk : 0 < k) (hn : 0 < n) (hpk : shape.pk * 127 * 127 ≤ 2 ^ 31 - 1)
    (hg : ExactGemm gemm shape.pm shape.pk shape.pn) {host : HostBuffers}
    (hhost : Allocated host shape) :
    ∃ host', productInBuffers gemm shape a b p host = .ok (expectedResidues a b m k n p, host') ∧
      Allocated host' shape := by
  obtain ⟨⟨rfl, rfl, rfl⟩, hpad⟩ := engineShape_ok hs
  obtain ⟨hp3, hp⟩ := ho.modulus
  have hleft := packLeft_ok hp hk hpad.inner ho.left_length ho.left_canonical hhost.a0 hhost.a1
  have hright := packRight_ok hp hn hk hpad.inner ho.right_length ho.right_canonical hhost.b0
    hhost.b1
  have hasum := writeSums_tile hp (left_canonical ho.left_length ho.left_canonical)
    (tile_length shape.pm shape.pk (leftTile lowDigit p a shape.m shape.k))
  have hbsum := writeSums_tile hp (right_canonical ho.right_length ho.right_canonical)
    (tile_length shape.pn shape.pk (rightTile lowDigit p b shape.k shape.n))
  have hcall {digit : Int → Int} (hdigit : ∀ r, |r| ≤ 8095 → |digit r| ≤ 127) {output : List Int}
      (hout : output.length = shape.pm * shape.pn) :=
    gemm_tile hg hdigit hp ho.left_length ho.right_length ho.left_canonical
      ho.right_canonical hpk hout
  have hrec := recombine_expected hp3 hp ho.left_length ho.right_length
    ho.left_canonical ho.right_canonical hn hpad.inner hpad.rows hpad.columns hpk hpad.product_lt
    (List.length_replicate : (List.replicate (shape.m * shape.n) 0).length = shape.m * shape.n)
  have h0 := hcall (fun r => lowDigit_abs) hhost.c0
  have h2 := hcall (fun r => highDigit_abs) hhost.c2
  have h3 := hcall (fun r => sumDigit_abs) hhost.cs
  simp only [leftTile, rightTile] at hasum hbsum hrec h0 h2 h3
  refine ⟨packedHost p a b shape, ?_, ?_⟩
  · unfold productInBuffers packedHost
    simp only [ho.left_length, ho.right_length, beq_self_eq_true, Bool.and_self, hp3, hp, hpk,
      decide_true, ensure, if_true, hleft, hright, hasum, hbsum, h0, h2, h3, hrec, ok_bind]
    rfl
  · constructor <;> simp [packedHost, digitOutput_length]

theorem tile_i8 {rows cols prime count k : Nat} {f : Nat → Nat → Nat} (hp : prime ≤ 16191)
    (hf : ∀ i < count, ∀ t < k, f i t < prime) {digit : Int → Int}
    (hdigit : ∀ r, |r| ≤ 8095 → |digit r| ≤ 127) :
    ∀ x ∈ tile rows cols (digitTile digit prime f count k), -128 ≤ x ∧ x ≤ 127 := by
  refine mem_tile fun i _ t _ => ?_
  have h := abs_le.mp (digitTile_abs hdigit hp hf i t)
  omega

theorem leftBatch_i8 (ho : Operands a b m k n p) (pm pk : Nat) :
    ∀ x ∈ leftBatch p a m k pm pk, -128 ≤ x ∧ x ≤ 127 := by
  have hf := left_canonical ho.left_length ho.left_canonical
  simp only [leftBatch, List.forall_mem_append]
  exact ⟨⟨tile_i8 ho.modulus.2 hf fun r => lowDigit_abs, tile_i8 ho.modulus.2 hf fun r =>
    highDigit_abs⟩, tile_i8 ho.modulus.2 hf fun r => sumDigit_abs⟩

theorem rightBatch_i8 (ho : Operands a b m k n p) (pk pn : Nat) :
    ∀ x ∈ rightBatch p b k n pk pn, -128 ≤ x ∧ x ≤ 127 := by
  have hf := right_canonical ho.right_length ho.right_canonical
  simp only [rightBatch, List.forall_mem_append]
  exact ⟨⟨tile_i8 ho.modulus.2 hf fun r => lowDigit_abs, tile_i8 ho.modulus.2 hf fun r =>
    highDigit_abs⟩, tile_i8 ho.modulus.2 hf fun r => sumDigit_abs⟩

/-- The serial engine packs the same digits, each matrix in a buffer of its own. -/
theorem serialPacking_ok (ho : Operands a b m k n p) {shape : EngineShape}
    (hs : EngineShape.new m k n = .ok shape) (hk : 0 < k) (hn : 0 < n) {host : HostBuffers}
    (hhost : Allocated host shape) :
    ∃ left right asum bsum,
      packLeft a k shape.pk p host.a0 host.a1 = .ok left ∧
      packRight b n shape.pk p host.b0 host.b1 = .ok right ∧
      writeSums left.1 left.1 left.2 = .ok asum ∧ writeSums right.1 right.1 right.2 = .ok bsum ∧
      left.1 ++ left.2 ++ asum = leftBatch p a m k shape.pm shape.pk ∧
      right.1 ++ right.2 ++ bsum = rightBatch p b k n shape.pk shape.pn := by
  obtain ⟨-, hpad⟩ := engineShape_ok hs
  have hp := ho.modulus.2
  exact ⟨_, _, _, _,
    packLeft_ok hp hk hpad.inner ho.left_length ho.left_canonical hhost.a0 hhost.a1,
    packRight_ok hp hn hk hpad.inner ho.right_length ho.right_canonical hhost.b0 hhost.b1,
    writeSums_tile hp (left_canonical ho.left_length ho.left_canonical) (tile_length ..),
    writeSums_tile hp (right_canonical ho.right_length ho.right_canonical) (tile_length ..), rfl,
    rfl⟩

/-- Both engines pack every digit and digit sum within `i8` and return the CPU
product, whatever their buffers held before. -/
theorem digitProduct_exact (ho : Operands a b m k n p) :
    (∀ shape, PipelineShape.new m k n = .ok shape →
      ∀ aa bb cc : List Int, aa.length = 3 * shape.a → bb.length = 3 * shape.b →
        cc.length = 3 * shape.c →
      (∃ aa' bb', packDigitBatch a b p shape aa bb = .ok (aa', bb') ∧
        ∀ x ∈ aa' ++ bb', -128 ≤ x ∧ x ≤ 127) ∧
      ∀ gemm, ExactGemm gemm shape.pm shape.pk shape.pn →
        ∃ residues, cpuResidueProduct a b m k n p = .ok residues ∧
          pipelineProduct gemm shape a b p aa bb cc = .ok residues) ∧
    (∀ shape, EngineShape.new m k n = .ok shape → 0 < k → 0 < n →
      shape.pk * 127 * 127 ≤ 2 ^ 31 - 1 → ∀ host, Allocated host shape →
      (∃ left right asum bsum,
        packLeft a k shape.pk p host.a0 host.a1 = .ok left ∧
        packRight b n shape.pk p host.b0 host.b1 = .ok right ∧
        writeSums left.1 left.1 left.2 = .ok asum ∧ writeSums right.1 right.1 right.2 = .ok bsum ∧
        ∀ x ∈ (left.1 ++ left.2 ++ asum) ++ (right.1 ++ right.2 ++ bsum), -128 ≤ x ∧ x ≤ 127) ∧
      ∀ gemm, ExactGemm gemm shape.pm shape.pk shape.pn →
        ∃ residues host', cpuResidueProduct a b m k n p = .ok residues ∧
          productInBuffers gemm shape a b p host = .ok (residues, host') ∧
          Allocated host' shape) := by
  obtain ⟨hp3, hp⟩ := ho.modulus
  have hcpu (hk : k ≤ 2 ^ 31) (hmn : m * n < 2 ^ 64) := cpuResidueProduct_canonical hp3 hp
    ho.left_length ho.right_length ho.left_canonical ho.right_canonical hk hmn
  constructor
  · intro shape hshape aa bb cc haa hbb hcc
    have hs := pipelineShape_ok hshape
    refine ⟨⟨_, _, packDigitBatch_ok ho hs haa hbb, ?_⟩, fun gemm hg => ⟨_,
      hcpu (inner_le hs.padded hs.accumulation) hs.padded.entries_lt,
      pipelineProduct_ok ho hs hg haa hbb hcc⟩⟩
    exact List.forall_mem_append.mpr ⟨leftBatch_i8 ho _ _, rightBatch_i8 ho _ _⟩
  · intro shape hshape hk hn hacc host hhost
    obtain ⟨-, hpad⟩ := engineShape_ok hshape
    obtain ⟨left, right, asum, bsum, h1, h2, h3, h4, hl, hr⟩ :=
      serialPacking_ok ho hshape hk hn hhost
    refine ⟨⟨left, right, asum, bsum, h1, h2, h3, h4, ?_⟩, fun gemm hg => ?_⟩
    · rw [hl, hr]
      exact List.forall_mem_append.mpr ⟨leftBatch_i8 ho _ _, rightBatch_i8 ho _ _⟩
    · obtain ⟨host', hrun, hhost'⟩ := productInBuffers_ok ho hshape hk hn hacc hg hhost
      exact ⟨_, host', hcpu (inner_le hpad hacc) hpad.entries_lt, hrun, hhost'⟩

/-- A product of the extreme residues modulo the largest modulus. -/
theorem digitProduct_exact_extremes :
    Operands [16190, 8095] [8096, 8095] 1 2 1 16191 ∧
      ∃ shape, PipelineShape.new 1 2 1 = .ok shape ∧
        ∃ residues, cpuResidueProduct [16190, 8095] [8096, 8095] 1 2 1 16191 = .ok residues ∧
          pipelineProduct (fun a b _ => .ok (gemmOutput 16 32 16 a b)) shape [16190, 8095]
          [8096, 8095]
            16191 (List.replicate 1536 7) (List.replicate 1536 (-3)) (List.replicate 768 1) =
          .ok residues := by
  have ho : Operands [16190, 8095] [8096, 8095] 1 2 1 16191 :=
    ⟨by decide, rfl, rfl, by decide, by decide⟩
  have hshape : PipelineShape.new 1 2 1 = .ok ⟨1, 2, 1, 16, 32, 16, 512, 512, 256⟩ := by
    decide +kernel
  exact ⟨ho, _, hshape, ((digitProduct_exact ho).1 _ hshape _ _ _ List.length_replicate
    List.length_replicate
    List.length_replicate).2 _
    fun _ _ _ _ => rfl⟩

end

end Xcelerator.Numerics.DigitProductSoundness
