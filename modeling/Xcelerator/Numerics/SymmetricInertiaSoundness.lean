import Mathlib
import Xcelerator.Foundations.Inertia
import Xcelerator.Numerics.SymmetricInertia

/-! # Soundness of symmetric inertia certificates

The invariant (`Enclosed`) says that the trailing block of the workspace still
encloses a real symmetric matrix. A turn of the loop permutes that matrix and
replaces it by a Schur complement, and counts the signs of exactly the pivot
block it removed; the inertia of what was there is the pivots' signs plus the
inertia of what is left. -/

namespace Xcelerator.Numerics.SymmetricInertiaSoundness
open Xcelerator.Foundations Machine Inertia Xcelerator.Numerics.Interval Xcelerator.Numerics.Mpfr
open Xcelerator.Numerics.SymmetricInertia

/-! ## Symmetric exchanges -/

theorem foldl_rows (first second : Nat) {js : List Nat} (hnd : js.Nodup) (a : Cells) (r c : Nat) :
    js.foldl (fun a j => Cells.exchange a first j second j) a r c =
      if c ∈ js then a (Equiv.swap first second r) c else a r c := by
  induction js generalizing a with
  | nil => simp
  | cons j js ih =>
    obtain ⟨hj, hnd⟩ := List.nodup_cons.mp hnd
    rw [List.foldl_cons, ih hnd]
    by_cases hc : c ∈ js
    · have hne : c ≠ j := fun h => hj (h ▸ hc)
      simp [hc, hne, Cells.exchange]
    · by_cases hcj : c = j
      · subst hcj
        simp only [hc, if_false, List.mem_cons, true_or, if_true, Cells.exchange, and_true,
          Equiv.swap_apply_def]
        split_ifs <;> rfl
      · simp [hc, hcj, Cells.exchange]

theorem foldl_columns (first second : Nat) {is : List Nat} (hnd : is.Nodup) (a : Cells)
    (r c : Nat) :
    is.foldl (fun a i => Cells.exchange a i first i second) a r c =
      if r ∈ is then a r (Equiv.swap first second c) else a r c := by
  induction is generalizing a with
  | nil => simp
  | cons i is ih =>
    obtain ⟨hi, hnd⟩ := List.nodup_cons.mp hnd
    rw [List.foldl_cons, ih hnd]
    by_cases hr : r ∈ is
    · have hne : r ≠ i := fun h => hi (h ▸ hr)
      simp [hr, hne, Cells.exchange]
    · by_cases hri : r = i
      · subst hri
        simp only [hr, if_false, List.mem_cons, true_or, if_true, Cells.exchange, true_and,
          Equiv.swap_apply_def]
        split_ifs <;> rfl
      · simp [hr, hri, Cells.exchange]

/-- Before any update both triangles are exchanged. -/
theorem swap_full {a : Cells} {n first second r c : Nat} (hr : r < n) (hc : c < n)
    (hf : first < n) (hs : second < n) :
    swap a n first second none r c = a (Equiv.swap first second r) (Equiv.swap first second c) := by
  unfold swap
  split
  · rename_i h
    simp [h]
  · have hc' : Equiv.swap first second c < n := by
      rw [Equiv.swap_apply_def]; split_ifs <;> assumption
    dsimp only
    unfold swapColumns swapRows
    rw [foldl_columns _ _ List.nodup_range, foldl_rows _ _ List.nodup_range,
      foldl_rows _ _ List.nodup_range]
    simp [hr, hc']

/-- The current value of an unordered pair of indices. -/
def upperEntry (a : Cells) (i j : Nat) : MpfrInterval := a (min i j) (max i j)

theorem upperEntry_comm (a : Cells) (i j : Nat) : upperEntry a i j = upperEntry a j i := by
  rw [upperEntry, upperEntry, min_comm, max_comm]

theorem upperEntry_exchange (a : Cells) (first second j r c : Nat) :
    upperEntry (a.exchange (min first j) (max first j) (min second j) (max second j)) r c =
      if (r = first ∧ c = j) ∨ (r = j ∧ c = first) then upperEntry a second j
      else if (r = second ∧ c = j) ∨ (r = j ∧ c = second) then upperEntry a first j
      else upperEntry a r c := by
  have hpair : ∀ x, (min r c = min x j ∧ max r c = max x j) ↔ (r = x ∧ c = j) ∨
      (r = j ∧ c = x) := by
    intro x; omega
  unfold upperEntry Cells.exchange
  simp only [hpair]

theorem foldl_upper {first second : Nat} (hne : first ≠ second) {js : List Nat} (hnd : js.Nodup)
    (hf : first ∉ js) (hs : second ∉ js) (a : Cells) (r c : Nat) :
    upperEntry (js.foldl (fun a j => Cells.exchange a (min first j) (max first j)
      (min second j) (max second j)) a) r c =
      if (c ∈ js ∧ (r = first ∨ r = second)) ∨ (r ∈ js ∧ (c = first ∨ c = second)) then
        upperEntry a (Equiv.swap first second r) (Equiv.swap first second c)
      else upperEntry a r c := by
  induction js generalizing a with
  | nil => simp
  | cons j js ih =>
    obtain ⟨hj, hnd⟩ := List.nodup_cons.mp hnd
    rw [List.mem_cons, not_or] at hf hs
    rw [List.foldl_cons, ih hnd hf.2 hs.2]
    simp only [upperEntry_exchange, Equiv.swap_apply_def, List.mem_cons]
    have hcomm := upperEntry_comm a
    grind

theorem swap_upper {a : Cells} {n start first second r c : Nat} (hr : start ≤ r ∧ r < n)
    (hc : start ≤ c ∧ c < n) :
    upperEntry (swap a n first second (some start)) r c =
      upperEntry a (Equiv.swap first second r) (Equiv.swap first second c) := by
  unfold swap
  split
  · rename_i h
    simp [h]
  · rename_i hne
    have hswap : ∀ x, Equiv.swap (min first second) (max first second) x =
        Equiv.swap first second x := by
      intro x
      rcases le_total first second with h | h
      · rw [min_eq_left h, max_eq_right h]
      · rw [min_eq_right h, max_eq_left h, Equiv.swap_comm]
    have hne' : min first second ≠ max first second := by omega
    rw [← hswap, ← hswap]
    generalize min first second = lo at hne' ⊢
    generalize max first second = hi at hne' ⊢
    dsimp only
    unfold swapUpper
    rw [foldl_upper hne' (List.Nodup.filter _ (List.nodup_range' ..)) (by simp) (by simp)]
    have hdiag : ∀ x y, upperEntry (a.exchange lo lo hi hi) x y =
        if x = lo ∧ y = lo then upperEntry a hi hi
        else if x = hi ∧ y = hi then upperEntry a lo lo else upperEntry a x y := by
      intro x y
      have hpair : ∀ z, (min x y = z ∧ max x y = z) ↔ (x = z ∧ y = z) := by intro z; omega
      unfold upperEntry Cells.exchange
      simp only [hpair, min_self, max_self]
    simp only [hdiag, Equiv.swap_apply_def, List.mem_filter, List.mem_range'_1]
    have hcomm := upperEntry_comm a
    grind

/-! ## The enclosure invariant -/

/-- The block of the workspace from `k` on encloses a symmetric array. The lower
triangle is current only until the first update. -/
structure Enclosed (a : Cells) (n k : Nat) (updated : Bool) (S : Nat → Nat → ℝ) : Prop where
  symm : ∀ i j, S i j = S j i
  upper : ∀ i j, k ≤ i → i ≤ j → j < n → (a i j).Contains (S i j)
  lower : updated = false → ∀ i j, k ≤ i → i ≤ j → j < n → (a j i).Contains (S j i)

theorem Enclosed.upperEntry {a : Cells} {n k i j : Nat} {updated : Bool} {S : Nat → Nat → ℝ}
    (h : Enclosed a n k updated S) (hi : k ≤ i ∧ i < n) (hj : k ≤ j ∧ j < n) :
    (upperEntry a i j).Contains (S i j) := by
  rcases le_total i j with hij | hij
  · simpa [SymmetricInertiaSoundness.upperEntry, hij] using h.upper i j hi.1 hij hj.2
  · rw [h.symm i j]
    simpa [SymmetricInertiaSoundness.upperEntry, hij] using h.upper j i hj.1 hij hi.2

theorem Enclosed.below {a : Cells} {n k i j : Nat} {updated : Bool} {S : Nat → Nat → ℝ}
    (h : Enclosed a n k updated S) (hj : k ≤ j) (hij : j ≤ i) (hi : i < n) :
    (below a updated i j).Contains (S i j) := by
  unfold SymmetricInertia.below
  split
  · rw [h.symm i j]
    exact h.upper j i hj hij hi
  · rename_i hu
    exact h.lower (Bool.eq_false_of_not_eq_true hu) j i hj hij hi

theorem swap_bounds {k n first second x : Nat} (hf : k ≤ first ∧ first < n)
    (hs : k ≤ second ∧ second < n) (hx : k ≤ x ∧ x < n) :
    k ≤ Equiv.swap first second x ∧ Equiv.swap first second x < n := by
  rw [Equiv.swap_apply_def]
  split_ifs <;> assumption

/-- A symmetric exchange of the workspace exchanges the array it encloses. -/
theorem Enclosed.swap {a : Cells} {n k first second : Nat} {updated : Bool} {S : Nat → Nat → ℝ}
    (h : Enclosed a n k updated S) (hf : k ≤ first ∧ first < n) (hs : k ≤ second ∧ second < n) :
    Enclosed (swap a n first second (if updated then some k else none)) n k updated
      (exchanged S first second) := by
  have hbounds : ∀ {x}, k ≤ x ∧ x < n → _ := fun hx => swap_bounds hf hs hx
  cases updated with
  | true =>
    refine ⟨fun i j => h.symm _ _, fun i j hi hij hj => ?_, fun hu => Bool.noConfusion hu⟩
    have hri : k ≤ i ∧ i < n := ⟨hi, by omega⟩
    have hrj : k ≤ j ∧ j < n := ⟨by omega, hj⟩
    have hentry := h.upperEntry (hbounds hri) (hbounds hrj)
    rw [← swap_upper hri hrj] at hentry
    simpa [SymmetricInertiaSoundness.upperEntry, hij, exchanged] using hentry
  | false =>
    -- both triangles are current
    have hall : ∀ i j, k ≤ i ∧ i < n → k ≤ j ∧ j < n → (a i j).Contains (S i j) := by
      intro i j hi hj
      rcases le_total i j with hij | hij
      · exact h.upper i j hi.1 hij hj.2
      · exact h.lower rfl j i hj.1 hij hi.2
    refine ⟨fun i j => h.symm _ _, fun i j hi hij hj => ?_, fun _ i j hi hij hj => ?_⟩
    · rw [if_neg (by decide), swap_full (by omega) hj hf.2 hs.2]
      exact hall _ _ (hbounds ⟨hi, by omega⟩) (hbounds ⟨by omega, hj⟩)
    · rw [if_neg (by decide), swap_full hj (by omega) hf.2 hs.2]
      exact hall _ _ (hbounds ⟨by omega, hj⟩) (hbounds ⟨hi, by omega⟩)

/-! ## Schur updates -/

/-- A pair of scratch endpoints around a real number. -/
def Within (s : ℚ × ℚ) (x : ℝ) : Prop := (s.1 : ℝ) ≤ x ∧ x ≤ s.2

theorem finiteOrdered_within {error : IntervalError} {lower upper : Option ℚ} {s : ℚ × ℚ} {x : ℝ}
    (h : finiteOrdered error lower upper = .ok s) (hl : ∀ l, lower = some l → (l : ℝ) ≤ x)
    (hu : ∀ u, upper = some u → x ≤ u) : Within s x := by
  unfold finiteOrdered at h
  split at h
  · split at h
    · cases h
      exact ⟨hl _ rfl, hu _ rfl⟩
    · cases h
  · cases h

theorem operand_within {error : IntervalError} {v : MpfrInterval} {s : ℚ × ℚ} {x : ℝ}
    (h : operand error v = .ok s) (hx : v.Contains x) : Within s x := by
  cases v with
  | enclosure p l u _ =>
    cases h
    exact hx
  | invalid p => cases h

/-- The selected corners bound every product over the box. -/
theorem selectedCorners_bounds {al au bl bu ll lr ul ur : ℚ} {x y : ℝ}
    (h : selectedCorners al au bl bu = some (ll, lr, ul, ur)) (hx : Within (al, au) x)
    (hy : Within (bl, bu) y) : ((ll * lr : ℚ) : ℝ) ≤ x * y ∧ x * y ≤ ((ul * ur : ℚ) : ℝ) := by
  obtain ⟨hxl, hxu⟩ := hx
  obtain ⟨hyl, hyu⟩ := hy
  dsimp only at hxl hxu hyl hyu
  unfold selectedCorners at h
  push_cast
  split_ifs at h with h1 h2 h3 h4 h5 h6 h7 h8 <;>
    simp only [Option.some.injEq, Prod.mk.injEq] at h <;>
    obtain ⟨rfl, rfl, rfl, rfl⟩ := h <;>
    (try rify at *) <;> constructor <;> nlinarith

section
variable {m : Rounding} (hm : m.Directed)
include hm

theorem selectedProduct_within {p : Nat} {a b s : ℚ × ℚ} {x y : ℝ}
    (h : selectedProduct m p a b = .ok s) (hx : Within a x) (hy : Within b y) :
    Within s (x * y) := by
  unfold selectedProduct at h
  split at h
  · rename_i ll lr ul ur hsel
    have hbounds := selectedCorners_bounds hsel hx hy
    refine finiteOrdered_within h (fun l hl => ?_) fun u hu => ?_
    · exact le_trans (by exact_mod_cast hm.round_down hl) hbounds.1
    · exact hbounds.2.trans (by exact_mod_cast hm.round_up hu)
  · rename_i hsel
    -- both operands straddle zero
    have hsign : a.1 < 0 ∧ 0 < a.2 ∧ b.1 < 0 ∧ 0 < b.2 := by
      unfold selectedCorners at hsel
      split_ifs at hsel
      grind
    have hbox := corner_bounds hx hy
    refine finiteOrdered_within h (fun l hl => ?_) fun u hu => ?_
    · obtain ⟨r1, r2, h1, h2, rfl⟩ := Option.map₂_eq_some_iff.mp hl
      have hr1 : (r1 : ℝ) ≤ a.1 * b.2 := by exact_mod_cast hm.round_down h1
      have hr2 : (r2 : ℝ) ≤ a.2 * b.1 := by exact_mod_cast hm.round_down h2
      obtain ⟨ha1, ha2, hb1, hb2⟩ := hsign
      rify at ha1 ha2 hb1 hb2
      push_cast
      refine le_trans ?_ hbox.1
      have h11 : (0 : ℝ) < a.1 * b.1 := mul_pos_of_neg_of_neg ha1 hb1
      have h22 : (0 : ℝ) < a.2 * b.2 := mul_pos ha2 hb2
      have h12 : (a.1 : ℝ) * b.2 < 0 := mul_neg_of_neg_of_pos ha1 hb2
      refine le_min (le_min ?_ ?_) (le_min ?_ ?_)
      · exact (min_le_left _ _).trans (by linarith)
      · exact (min_le_left _ _).trans hr1
      · exact (min_le_right _ _).trans hr2
      · exact (min_le_left _ _).trans (by linarith)
    · obtain ⟨r1, r2, h1, h2, rfl⟩ := Option.map₂_eq_some_iff.mp hu
      have hr1 : (a.1 : ℝ) * b.1 ≤ r1 := by exact_mod_cast hm.round_up h1
      have hr2 : (a.2 : ℝ) * b.2 ≤ r2 := by exact_mod_cast hm.round_up h2
      obtain ⟨ha1, ha2, hb1, hb2⟩ := hsign
      rify at ha1 ha2 hb1 hb2
      push_cast
      refine hbox.2.trans ?_
      have h11 : (0 : ℝ) < a.1 * b.1 := mul_pos_of_neg_of_neg ha1 hb1
      have h12 : (a.1 : ℝ) * b.2 < 0 := mul_neg_of_neg_of_pos ha1 hb2
      have h21 : (a.2 : ℝ) * b.1 < 0 := mul_neg_of_pos_of_neg ha2 hb1
      refine max_le (max_le ?_ ?_) (max_le ?_ ?_)
      · exact hr1.trans (le_max_left _ _)
      · exact le_trans (by linarith) (le_max_left (r1 : ℝ) _)
      · exact le_trans (by linarith) (le_max_left (r1 : ℝ) _)
      · exact hr2.trans (le_max_right _ _)

theorem fullProduct_within {p : Nat} {a b s : ℚ × ℚ} {x y : ℝ}
    (h : fullProduct m p a b = .ok s) (hx : Within a x) (hy : Within b y) : Within s (x * y) := by
  have hbounds := MpfrInterval.cornerProducts_bounds (p := p) hm hx hy
  exact finiteOrdered_within h hbounds.1 hbounds.2

theorem scratchAdd_within {p : Nat} {a b s : ℚ × ℚ} {x y : ℝ}
    (h : scratchAdd m p a b = .ok s) (hx : Within a x) (hy : Within b y) : Within s (x + y) := by
  refine finiteOrdered_within h (fun l hl => ?_) fun u hu => ?_
  · have hle : (l : ℝ) ≤ ((a.1 + b.1 : ℚ) : ℝ) := by exact_mod_cast hm.round_down hl
    push_cast at hle
    exact hle.trans (add_le_add hx.1 hy.1)
  · have hle : ((a.2 + b.2 : ℚ) : ℝ) ≤ u := by exact_mod_cast hm.round_up hu
    push_cast at hle
    exact (add_le_add hx.2 hy.2).trans hle

theorem subtractFrom_contains {s : ℚ × ℚ} {previous v : MpfrInterval} {x y : ℝ}
    (h : subtractFrom m s previous = .ok v) (hx : previous.Contains x) (hy : Within s y) :
    v.Contains (x - y) := by
  cases previous with
  | invalid p => exact hx.elim
  | enclosure p l u _ =>
    rw [subtractFrom] at h
    cases hnew : MpfrInterval.new p (m.round p .down (l - s.2)) (m.round p .up (u - s.1)) with
    | error e =>
      rw [hnew] at h
      cases h
    | ok w =>
      rw [hnew] at h
      cases h
      refine MpfrInterval.new_contains hnew (fun r hr => ?_) fun r hr => ?_
      · have hle : (r : ℝ) ≤ ((l - s.2 : ℚ) : ℝ) := by exact_mod_cast hm.round_down hr
        push_cast at hle
        exact hle.trans (sub_le_sub hx.1 hy.2)
      · have hle : ((u - s.1 : ℚ) : ℝ) ≤ r := by exact_mod_cast hm.round_up hr
        push_cast at hle
        exact (sub_le_sub hx.2 hy.1).trans hle

theorem one_contains {p : Nat} {previous left right inverse v : MpfrInterval} {x l r q : ℝ}
    (h : one m p previous left right inverse = .ok v) (hx : previous.Contains x)
    (hl : left.Contains l) (hr : right.Contains r) (hq : inverse.Contains q) :
    v.Contains (x - l * r * q) := by
  unfold one at h
  obtain ⟨sl, hsl, h⟩ := bind_eq_ok h
  obtain ⟨sr, hsr, h⟩ := bind_eq_ok h
  obtain ⟨first, hfirst, h⟩ := bind_eq_ok h
  obtain ⟨sq, hsq, h⟩ := bind_eq_ok h
  obtain ⟨second, hsecond, h⟩ := bind_eq_ok h
  have hlr := selectedProduct_within hm hfirst (operand_within hsl hl) (operand_within hsr hr)
  have hlrq := selectedProduct_within hm hsecond hlr (operand_within hsq hq)
  exact subtractFrom_contains hm h hx hlrq

theorem twoTerm_within {p : Nat} {left inverse right : MpfrInterval} {s : ℚ × ℚ} {l q r : ℝ}
    (h : twoTerm m p left inverse right = .ok s) (hl : left.Contains l) (hq : inverse.Contains q)
    (hr : right.Contains r) : Within s (l * q * r) := by
  unfold twoTerm at h
  obtain ⟨sl, hsl, h⟩ := bind_eq_ok h
  obtain ⟨sq, hsq, h⟩ := bind_eq_ok h
  obtain ⟨first, hfirst, h⟩ := bind_eq_ok h
  obtain ⟨sr, hsr, h⟩ := bind_eq_ok h
  have hlq := fullProduct_within hm hfirst (operand_within hsl hl) (operand_within hsq hq)
  exact fullProduct_within hm h hlq (operand_within hsr hr)

theorem two_contains {p : Nat} {previous ri si rj sj v : MpfrInterval} {b : Block}
    {x r s r' s' q11 q12 q22 : ℝ} (h : two m p previous ri si rj sj b = .ok v)
    (hx : previous.Contains x) (hr : ri.Contains r) (hs : si.Contains s) (hr' : rj.Contains r')
    (hs' : sj.Contains s') (h11 : b.inverse11.Contains q11) (h12 : b.inverse12.Contains q12)
    (h22 : b.inverse22.Contains q22) :
    v.Contains (x - (r * q11 * r' + r * q12 * s' + s * q12 * r' + s * q22 * s')) := by
  unfold two at h
  obtain ⟨t1, ht1, h⟩ := bind_eq_ok h
  obtain ⟨t2, ht2, h⟩ := bind_eq_ok h
  obtain ⟨s2, hs2, h⟩ := bind_eq_ok h
  obtain ⟨t3, ht3, h⟩ := bind_eq_ok h
  obtain ⟨s3, hs3, h⟩ := bind_eq_ok h
  obtain ⟨t4, ht4, h⟩ := bind_eq_ok h
  obtain ⟨s4, hs4, h⟩ := bind_eq_ok h
  have hsum2 := scratchAdd_within hm hs2 (twoTerm_within hm ht1 hr h11 hr')
    (twoTerm_within hm ht2 hr h12 hs')
  have hsum3 := scratchAdd_within hm hs3 hsum2 (twoTerm_within hm ht3 hs h12 hr')
  have hsum4 := scratchAdd_within hm hs4 hsum3 (twoTerm_within hm ht4 hs h22 hs')
  exact subtractFrom_contains hm h hx hsum4

end

theorem mem_upperCells {start n i j : Nat} :
    (i, j) ∈ upperCells start n ↔ start ≤ i ∧ i ≤ j ∧ j < n := by
  simp only [upperCells, List.mem_flatMap, List.mem_map, List.mem_range'_1, Prod.mk.injEq]
  constructor
  · rintro ⟨i', hi, j', hj, rfl, rfl⟩
    omega
  · rintro ⟨hi, hij, hj⟩
    exact ⟨i, by omega, j, by omega, rfl, rfl⟩

theorem nodup_upperCells (start n : Nat) : (upperCells start n).Nodup := by
  refine List.nodup_flatMap.mpr ⟨fun i _ => ?_, ?_⟩
  · exact (List.nodup_range' ..).map fun j j' h => (Prod.mk.inj h).2
  · refine (List.nodup_range' ..).imp fun hne => ?_
    intro c hc hc'
    obtain ⟨_, _, rfl⟩ := List.mem_map.mp hc
    obtain ⟨_, _, h⟩ := List.mem_map.mp hc'
    exact hne (Prod.mk.inj h).1.symm

theorem foldlM_updateCell {update : Nat → Nat → MpfrInterval → Result MpfrInterval}
    {cells : List (Nat × Nat)} (hnd : cells.Nodup) {a a' : Cells}
    (h : cells.foldlM (updateCell update) a = .ok a') (i j : Nat) :
    if (i, j) ∈ cells then update i j (a i j) = .ok (a' i j) else a' i j = a i j := by
  induction cells generalizing a with
  | nil =>
    cases h
    simp
  | cons c cells ih =>
    obtain ⟨hc, hnd⟩ := List.nodup_cons.mp hnd
    rw [List.foldlM_cons] at h
    obtain ⟨b, hb, h⟩ := bind_eq_ok h
    obtain ⟨value, hvalue, hb⟩ := bind_eq_ok hb
    obtain ⟨_, _, hb⟩ := bind_eq_ok hb
    cases hb
    have hrest := ih hnd h
    by_cases hcell : c = (i, j)
    · subst hcell
      rw [if_neg hc] at hrest
      rw [if_pos List.mem_cons_self, hrest]
      simpa [Cells.set] using hvalue
    · have hset : (Cells.set a c.1 c.2 value) i j = a i j := by
        refine if_neg fun hij => hcell ?_
        rw [hij.1, hij.2]
      rw [hset] at hrest
      simpa [Ne.symm hcell] using hrest

/-- The workers do not change what an update writes. -/
theorem updateSchurRows_ok {pool : Pool} {update : Nat → Nat → MpfrInterval → Result MpfrInterval}
    {a a' : Cells} {n start p : Nat} (h : updateSchurRows pool a n start p update = .ok a') :
    updateRows a n start update = .ok a' := by
  unfold updateSchurRows at h
  split at h
  · split at h
    · exact h
    · cases h
  · exact h

/-- Every upper cell of the updated block comes from its own previous value. -/
theorem updateSchurRows_cell {pool : Pool} {update : Nat → Nat → MpfrInterval → Result MpfrInterval}
    {a a' : Cells} {n start p i j : Nat} (h : updateSchurRows pool a n start p update = .ok a')
    (hi : start ≤ i) (hij : i ≤ j) (hj : j < n) : update i j (a i j) = .ok (a' i j) := by
  have hcell := foldlM_updateCell (nodup_upperCells start n) (updateSchurRows_ok h) i j
  rwa [if_pos (mem_upperCells.mpr ⟨hi, hij, hj⟩)] at hcell

/-! ## Pivots -/

/-- A signed interval decides the sign of what it encloses. -/
theorem signed_sign {v : MpfrInterval} {x : ℝ} (h : signed v = true) (hx : v.Contains x) :
    x ≠ 0 ∧ (v.isStrictlyPositive = true ↔ 0 < x) := by
  rcases Bool.or_eq_true_iff.mp h with hpos | hneg
  · have hx0 := MpfrInterval.isStrictlyPositive_pos hpos hx
    exact ⟨hx0.ne', iff_of_true hpos hx0⟩
  · have hx0 := MpfrInterval.upperNegative_neg hneg hx
    refine ⟨hx0.ne, fun hpos => MpfrInterval.isStrictlyPositive_pos hpos hx, fun hx1 => ?_⟩
    exact absurd hx1 hx0.le.not_gt

theorem count_signed {v : MpfrInterval} {x : ℝ} (h : signed v = true) (hx : v.Contains x)
    (s : State) :
    (s.count v).positive = s.positive + (if 0 < x then 1 else 0) ∧
      (s.count v).negative = s.negative + (if 0 < x then 0 else 1) := by
  unfold State.count
  simp only [(signed_sign h hx).2]
  split <;> simp

theorem laterMaximum_mem {a : Cells} {candidates : List Nat} {best : Option Nat} {pivot : Nat}
    (h : candidates.foldl (laterMaximum a) best = some pivot) :
    pivot ∈ candidates ∨ best = some pivot := by
  induction candidates generalizing best with
  | nil => exact .inr h
  | cons j candidates ih =>
    rcases ih h with hmem | hbest
    · exact .inl (List.mem_cons_of_mem _ hmem)
    · unfold laterMaximum at hbest
      split at hbest
      · cases hbest
        exact .inl List.mem_cons_self
      · split at hbest
        · exact .inr hbest
        · cases hbest
          exact .inl List.mem_cons_self

theorem diagonalPivot_spec {stablePivots : Bool} {a : Cells} {k n pivot : Nat}
    (h : diagonalPivot stablePivots a k n = some pivot) :
    (k ≤ pivot ∧ pivot < n) ∧ signed (a pivot pivot) = true := by
  have hmem : pivot ∈ (List.range' k (n - k)).filter fun j => signed (a j j) := by
    unfold diagonalPivot at h
    dsimp only at h
    split at h
    · exact (laterMaximum_mem h).resolve_right nofun
    · exact List.mem_of_head? h
  obtain ⟨hrange, hsigned⟩ := List.mem_filter.mp hmem
  rw [List.mem_range'_1] at hrange
  exact ⟨by omega, hsigned⟩

theorem mem_pairs {k n i j : Nat} (h : (i, j) ∈ pairs k n) : k ≤ i ∧ i < j ∧ j < n := by
  simp only [pairs, List.mem_flatMap, List.mem_map, List.mem_range'_1, Prod.mk.injEq] at h
  obtain ⟨i', hi, j', hj, rfl, rfl⟩ := h
  omega

theorem searchBlock_mem {m : Rounding} {a : Cells} {p : Nat} {candidates : List (Nat × Nat)}
    {pair : Nat × Nat} (h : searchBlock m a p candidates = .ok (some pair)) :
    pair ∈ candidates := by
  induction candidates with
  | nil => cases h
  | cons c candidates ih =>
    rw [searchBlock] at h
    obtain ⟨found, _, h⟩ := bind_eq_ok h
    cases found with
    | none => exact List.mem_cons_of_mem _ (ih h)
    | some b =>
      cases h
      exact List.mem_cons_self

/-- What a certified block says about the entries it was formed from. -/
structure BlockEncloses (b : Block) (x y z : ℝ) : Prop where
  det : x * z - y ^ 2 ≠ 0
  low : b.low.Contains (lowRoot x y z)
  high : b.high.Contains (highRoot x y z)
  lowSigned : signed b.low = true
  highSigned : signed b.high = true
  inverse11 : b.inverse11.Contains (z / (x * z - y ^ 2))
  inverse12 : b.inverse12.Contains (-y / (x * z - y ^ 2))
  inverse22 : b.inverse22.Contains (x / (x * z - y ^ 2))

theorem count_block {b : Block} {x y z : ℝ} (h : BlockEncloses b x y z) (s : State) :
    ((s.count b.low).count b.high).positive =
        s.positive + ((if 0 < lowRoot x y z then 1 else 0) + if 0 < highRoot x y z then 1 else 0) ∧
      ((s.count b.low).count b.high).negative =
        s.negative + ((if 0 < lowRoot x y z then 0 else 1) + if 0 < highRoot x y z then 0
          else 1) := by
  have hlow := count_signed h.lowSigned h.low s
  have hhigh := count_signed h.highSigned h.high (s.count b.low)
  rw [hhigh.1, hhigh.2, hlow.1, hlow.2, Nat.add_assoc, Nat.add_assoc]
  exact ⟨rfl, rfl⟩

theorem sqrt_valid {m : Rounding} {v w : MpfrInterval} (h : MpfrInterval.sqrt m v = .ok w) :
    v.Valid := by
  cases v with
  | enclosure p l u _ => trivial
  | invalid p => cases h

theorem div_valid {m : Rounding} {v w r : MpfrInterval} (h : MpfrInterval.div m v w = .ok r) :
    v.Valid ∧ w.Valid := by
  unfold MpfrInterval.div at h
  obtain ⟨_, hv, h⟩ := bind_eq_ok h
  obtain ⟨_, hw, _⟩ := bind_eq_ok h
  exact ⟨MpfrInterval.validate_ok hv, MpfrInterval.validate_ok hw⟩

theorem certifiedBlock_encloses {m : Rounding} (hm : m.Directed)
    {X Y Z det : MpfrInterval} {p : Nat}
    {b : Block} {x y z : ℝ} (h : certifiedBlock m X Y Z det p = .ok (some b)) (hx : X.Contains x)
    (hy : Y.Contains y) (hz : Z.Contains z) (hdet : det.Contains (x * z - y ^ 2))
    (hne : x * z - y ^ 2 ≠ 0) : BlockEncloses b x y z := by
  unfold certifiedBlock at h
  obtain ⟨root, hroot, h⟩ := bind_eq_ok h
  obtain ⟨low, hlow, h⟩ := bind_eq_ok h
  obtain ⟨high, hhigh, h⟩ := bind_eq_ok h
  split at h
  · rename_i hsigned
    obtain ⟨i11, h11, h⟩ := bind_eq_ok h
    obtain ⟨i12, h12, h⟩ := bind_eq_ok h
    obtain ⟨i22, h22, h⟩ := bind_eq_ok h
    cases h
    obtain ⟨hls, hhs⟩ := Bool.and_eq_true_iff.mp hsigned
    -- validity runs down from what the fallible operations accepted
    have hradicand := sqrt_valid hroot
    obtain ⟨hsq, hprod⟩ := MpfrInterval.combine_valid hradicand
    obtain ⟨hsqy, hfour⟩ := MpfrInterval.combine_valid hprod
    obtain ⟨hlowArg, htwo⟩ := div_valid hlow
    obtain ⟨hhighArg, _⟩ := div_valid hhigh
    obtain ⟨htrace, _⟩ := MpfrInterval.combine_valid hlowArg
    have hfour' := MpfrInterval.fromI64_contains hm hfour
    have htwo' := MpfrInterval.fromI64_contains hm htwo
    push_cast at hfour' htwo'
    have hsub := hx.sub hm hz (MpfrInterval.square_valid hsq)
    have hrad := (hsub.square hm hsq).add hm ((hy.square hm hsqy).mul hm hfour' hprod) hradicand
    have hroot' := hrad.sqrt hm hroot
    have htr := hx.add hm hz htrace
    exact {
      det := hne
      low := (htr.sub hm hroot' hlowArg).div hm htwo' hlow
      high := (htr.add hm hroot' hhighArg).div hm htwo' hhigh
      lowSigned := hls
      highSigned := hhs
      inverse11 := hz.div hm hdet h11
      inverse12 := hy.neg.div hm hdet h12
      inverse22 := hx.div hm hdet h22 }
  · cases h

theorem block_encloses {m : Rounding} (hm : m.Directed) {a : Cells} {i j p : Nat} {b : Block}
    {x y z : ℝ} (h : block m a i j p = .ok (some b)) (hx : (a i i).Contains x)
    (hy : (a i j).Contains y) (hz : (a j j).Contains z) : BlockEncloses b x y z := by
  unfold block at h
  obtain ⟨_, hdet, h⟩ := bind_eq_ok h
  have hvalid := MpfrInterval.validate_ok hdet
  obtain ⟨hprod, hsq⟩ := MpfrInterval.combine_valid hvalid
  have hcontains := (hx.mul hm hz hprod).sub hm (hy.square hm hsq) hvalid
  split at h
  · cases h
  · rename_i hzero
    have hne := MpfrInterval.ne_zero_of_not_containsZero
      (Bool.eq_false_of_not_eq_true hzero) hcontains
    exact certifiedBlock_encloses hm h hx hy hz hcontains hne

/-! ## Runs -/

theorem schurOne_symm {S : Nat → Nat → ℝ} (hS : ∀ i j, S i j = S j i) (k i j : Nat) :
    schurOne S k i j = schurOne S k j i := by
  unfold schurOne
  rw [hS i j]
  ring

theorem schurTwo_symm {S : Nat → Nat → ℝ} (hS : ∀ i j, S i j = S j i) (k i j : Nat) :
    schurTwo S k i j = schurTwo S k j i := by
  unfold schurTwo
  rw [hS i j]
  ring

/-- What a turn of the loop does to an enclosed array: the signs it counts are
those of the block it eliminates. -/
structure Turn (n : Nat) (s s' : State) (S S' : Nat → Nat → ℝ) : Prop where
  enclosed : Enclosed s'.a n s'.k s'.updated S'
  bound : s'.k ≤ n
  inertia : ∃ p q, s'.positive = s.positive + p ∧ s'.negative = s.negative + q ∧
    ∀ p' q', HasInertia (trailing S' s'.k (n - s'.k)) p' q' →
      HasInertia (trailing S s.k (n - s.k)) (p + p') (q + q')

section
variable {m : Rounding} {pool : Pool} (hm : m.Directed)
include hm

theorem eliminateOne_enclosed {a a' : Cells} {n p k : Nat} {updated : Bool} {S : Nat → Nat → ℝ}
    (h : eliminateOne m pool a n p k updated = .ok a') (hk : k < n)
    (hS : Enclosed a n k updated S) :
    Enclosed a' n (k + 1) true (schurOne S k) := by
  unfold eliminateOne at h
  obtain ⟨inverse, hinverse, h⟩ := bind_eq_ok h
  have hpivot := (hS.upper k k le_rfl le_rfl hk).reciprocal hm hinverse
  refine ⟨schurOne_symm hS.symm k, fun i j hi hij hj => ?_, fun hu => Bool.noConfusion hu⟩
  exact one_contains hm (updateSchurRows_cell h hi hij hj) (hS.upper i j (by omega) hij hj)
    (hS.below le_rfl (by omega) (by omega)) (hS.below le_rfl (by omega) hj) hpivot

theorem eliminateTwo_enclosed {a a' : Cells} {n p k : Nat} {updated : Bool} {b : Block}
    {S : Nat → Nat → ℝ} (h : eliminateTwo m pool a n p k updated b = .ok a')
    (hS : Enclosed a n k updated S)
    (hb : BlockEncloses b (S k k) (S k (k + 1)) (S (k + 1) (k + 1))) :
    Enclosed a' n (k + 2) true (schurTwo S k) := by
  refine ⟨schurTwo_symm hS.symm k, fun i j hi hij hj => ?_, fun hu => Bool.noConfusion hu⟩
  exact two_contains hm (updateSchurRows_cell h hi hij hj) (hS.upper i j (by omega) hij hj)
    (hS.below le_rfl (by omega) (by omega)) (hS.below (by omega) (by omega) (by omega))
    (hS.below le_rfl (by omega) hj) (hS.below (by omega) (by omega) hj)
    hb.inverse11 hb.inverse12 hb.inverse22

theorem pivotOne_turn {n p selected : Nat} {s s' : State} {S : Nat → Nat → ℝ}
    (h : pivotOne m pool n p s selected = .ok s') (hsel : s.k ≤ selected ∧ selected < n)
    (hsigned : signed (s.a selected selected) = true) (hS : Enclosed s.a n s.k s.updated S) :
    ∃ S', Turn n s s' S S' := by
  have hk : s.k < n := by omega
  have hsw := hS.swap ⟨le_rfl, hk⟩ hsel
  have hpivot : exchanged S s.k selected s.k s.k = S selected selected := by simp [exchanged]
  have hcontains := hS.upper selected selected hsel.1 le_rfl hsel.2
  have hne := (signed_sign hsigned hcontains).1
  have hdim : n - s.k = 1 + (n - (s.k + 1)) := by omega
  -- the exchanged array's leading entry is the selected one
  have hback : ∀ p' q', HasInertia (trailing (schurOne (exchanged S s.k selected) s.k) (s.k + 1)
      (n - (s.k + 1))) p' q' → HasInertia (trailing S s.k (n - s.k))
        ((if 0 < S selected selected then 1 else 0) + p')
        ((if 0 < S selected selected then 0 else 1) + q') := by
    intro p' q' hrest
    have hwhole := hasInertia_schurOne hsw.symm (by rwa [hpivot]) hrest
    rw [hpivot, ← hdim] at hwhole
    exact hasInertia_exchanged ⟨le_rfl, by omega⟩ ⟨hsel.1, by omega⟩ hwhole
  have hcell : swap s.a n s.k selected (upperFrom s) s.k s.k = s.a selected selected := by
    unfold upperFrom
    by_cases hu : s.updated = true
    · have hupper := @swap_upper s.a n s.k s.k selected s.k s.k ⟨le_rfl, hk⟩ ⟨le_rfl, hk⟩
      simpa [upperEntry, hu] using hupper
    · rw [if_neg hu, swap_full hk hk hk hsel.2]
      simp
  unfold pivotOne at h
  dsimp only at h
  rw [hcell] at h
  have hcount := count_signed hsigned hcontains
    { s with a := swap s.a n s.k selected (upperFrom s) }
  refine ⟨schurOne (exchanged S s.k selected) s.k, ?_⟩
  split at h
  · rename_i hlast
    cases h
    have hlast' : s.k + 1 = n := hlast
    refine ⟨⟨schurOne_symm hsw.symm _, fun i j hi hij hj => ?_, fun _ i j hi hij hj => ?_⟩,
      hlast'.le, _, _, hcount.1, hcount.2, hback⟩
    · exact absurd (show s.k + 1 ≤ i from hi) (by omega)
    · exact absurd (show s.k + 1 ≤ i from hi) (by omega)
  · obtain ⟨a', ha', h⟩ := bind_eq_ok h
    cases h
    exact ⟨eliminateOne_enclosed hm (lift_ok ha') hk hsw, hk, _, _, hcount.1, hcount.2, hback⟩

theorem pivotTwo_turn {n p i j : Nat} {s s' : State} {S : Nat → Nat → ℝ}
    (h : pivotTwo m pool n p s i j = .ok s') (hij : s.k ≤ i ∧ i < j ∧ j < n)
    (hS : Enclosed s.a n s.k s.updated S) : ∃ S', Turn n s s' S S' := by
  unfold pivotTwo at h
  obtain ⟨found, hfound, h⟩ := bind_eq_ok h
  obtain ⟨b, hb, h⟩ := bind_eq_ok h
  obtain ⟨a', ha', h⟩ := bind_eq_ok h
  cases h
  rw [expect_ok hb] at hfound
  have hi : s.k ≤ i ∧ i < n := by omega
  have hadj : s.k ≤ (if j = s.k then i else j) ∧ (if j = s.k then i else j) < n := by
    split <;> omega
  generalize (if j = s.k then i else j) = adjusted at *
  have hk : s.k ≤ s.k ∧ s.k < n := by omega
  have hk1 : s.k ≤ s.k + 1 ∧ s.k + 1 < n := by omega
  have hsw := (hS.swap hk hi).swap hk1 hadj
  set R := exchanged (exchanged S s.k i) (s.k + 1) adjusted with hR
  have hblock := block_encloses hm (lift_ok hfound) (hsw.upper _ _ le_rfl le_rfl hk.2)
    (hsw.upper _ _ le_rfl (by omega) hk1.2) (hsw.upper _ _ (by omega) le_rfl hk1.2)
  have hdim : n - s.k = 2 + (n - (s.k + 2)) := by omega
  have hcount := count_block hblock
    { s with a := swap (swap s.a n s.k i (upperFrom s)) n (s.k + 1) adjusted (upperFrom s) }
  refine ⟨schurTwo R s.k, eliminateTwo_enclosed hm (lift_ok ha') hsw hblock, hk1.2, _, _,
    hcount.1, hcount.2, fun p' q' hrest => ?_⟩
  replace hrest : HasInertia (trailing (schurTwo R s.k) (s.k + 2) (n - (s.k + 2))) p' q' := hrest
  have hwhole := hasInertia_schurTwo hsw.symm hblock.det hrest
  rw [← hdim] at hwhole
  exact hasInertia_exchanged ⟨le_rfl, by omega⟩ ⟨hi.1, by omega⟩
    (hasInertia_exchanged ⟨hk1.1, by omega⟩ ⟨hadj.1, by omega⟩ hwhole)

/-- Every continuing turn is explained by the array it encloses. -/
theorem step_turn {n p : Nat} {stablePivots : Bool} {s s' : State} {S : Nat → Nat → ℝ}
    (h : step m pool n p stablePivots s = .ok (.inl s')) (hS : Enclosed s.a n s.k s.updated S) :
    ∃ S', Turn n s s' S S' := by
  unfold step at h
  split at h
  · rename_i selected hpivot
    obtain ⟨t, ht, h⟩ := bind_eq_ok h
    cases h
    obtain ⟨hsel, hsigned⟩ := diagonalPivot_spec hpivot
    exact pivotOne_turn hm ht hsel hsigned hS
  · obtain ⟨found, hfound, h⟩ := bind_eq_ok h
    cases found with
    | none => cases h
    | some pair =>
      obtain ⟨t, ht, h⟩ := bind_eq_ok h
      cases h
      exact pivotTwo_turn hm ht (mem_pairs (searchBlock_mem (lift_ok hfound))) hS

omit hm in
theorem step_result {n p : Nat} {stablePivots : Bool} {s : State} {result : MpfrInertiaResult}
    (h : step m pool n p stablePivots s = .ok (.inr result)) :
    ∀ positive negative pivots, result ≠ .conclusive positive negative pivots := by
  unfold step at h
  split at h
  · obtain ⟨t, _, h⟩ := bind_eq_ok h
    cases h
  · obtain ⟨found, _, h⟩ := bind_eq_ok h
    cases found with
    | none =>
      cases h
      exact nofun
    | some pair =>
      obtain ⟨t, _, h⟩ := bind_eq_ok h
      cases h

omit hm in
theorem hasInertia_empty (S : Nat → Nat → ℝ) (k : Nat) : HasInertia (trailing S k 0) 0 0 := by
  refine ⟨fun i => i.elim0, LinearMap.id, ⟨fun _ _ h => h, fun x => ?_⟩, fun i => i.elim0, ?_, ?_⟩
  · simp [dotProduct]
  · simp [positiveCount]
  · simp [negativeCount]

/-- A conclusive run has counted the inertia of every array it encloses. -/
theorem inertiaLoop_sound {n p : Nat} {stablePivots : Bool} {s : State} {positive negative : Nat}
    {pivots : List MpfrInterval} {S : Nat → Nat → ℝ}
    (h : inertiaLoop m pool n p stablePivots s = .ok (.conclusive positive negative pivots))
    (hk : s.k ≤ n) (hS : Enclosed s.a n s.k s.updated S) :
    ∃ p' q', positive = s.positive + p' ∧ negative = s.negative + q' ∧
      HasInertia (trailing S s.k (n - s.k)) p' q' := by
  induction s using inertiaLoop.induct m pool n p stablePivots generalizing S with
  | case1 s hlt e hstep =>
    rw [inertiaLoop, dif_pos hlt] at h
    split at h <;> simp_all
  | case2 s hlt result hstep =>
    rw [inertiaLoop, dif_pos hlt] at h
    have := step_result hstep
    split at h <;> simp_all
  | case3 s hlt s' hstep ih =>
    rw [inertiaLoop, dif_pos hlt] at h
    obtain ⟨S', hturn⟩ := step_turn hm hstep hS
    obtain ⟨p1, q1, hp1, hq1, hback⟩ := hturn.inertia
    have hrest : inertiaLoop m pool n p stablePivots s' =
        .ok (.conclusive positive negative pivots) := by
      split at h <;> simp_all
    obtain ⟨p2, q2, hp2, hq2, hinertia⟩ := ih hrest hturn.bound hturn.enclosed
    exact ⟨p1 + p2, q1 + q2, by omega, by omega, hback _ _ hinertia⟩
  | case4 s hlt =>
    rw [inertiaLoop, dif_neg hlt] at h
    cases h
    refine ⟨0, 0, rfl, rfl, ?_⟩
    have hdone : n - s.k = 0 := by omega
    rw [hdone]
    exact hasInertia_empty S s.k

end

/-! ## Counting -/

/-- Every index in front of the pivot has been counted once. -/
structure Counted (n : Nat) (s : State) : Prop where
  bound : s.k ≤ n
  pivots : s.pivots.length = s.k
  counts : s.positive + s.negative = s.k

theorem count_total (s : State) (pivot : MpfrInterval) :
    (s.count pivot).pivots.length = s.pivots.length + 1 ∧
      (s.count pivot).positive + (s.count pivot).negative = s.positive + s.negative + 1 := by
  refine ⟨by simp [State.count], ?_⟩
  simp only [State.count]
  split <;> omega

theorem pivotOne_counted {m : Rounding} {pool : Pool} {n p selected : Nat} {s s' : State}
    (h : pivotOne m pool n p s selected = .ok s') (hk : s.k < n) (hs : Counted n s) :
    Counted n s' := by
  unfold pivotOne at h
  dsimp only at h
  obtain ⟨hlength, hcounts⟩ := count_total { s with a := swap s.a n s.k selected (upperFrom s) }
    (swap s.a n s.k selected (upperFrom s) s.k s.k)
  have hpivots := hs.pivots
  have hbefore := hs.counts
  split at h
  · cases h
    exact ⟨hk, hlength.trans (by simp [hpivots, State.count]),
      hcounts.trans (by simp [hbefore, State.count])⟩
  · obtain ⟨_, _, h⟩ := bind_eq_ok h
    cases h
    exact ⟨hk, hlength.trans (by simp [hpivots, State.count]),
      hcounts.trans (by simp [hbefore, State.count])⟩

theorem pivotTwo_counted {m : Rounding} {pool : Pool} {n p i j : Nat} {s s' : State}
    (h : pivotTwo m pool n p s i j = .ok s') (hij : s.k ≤ i ∧ i < j ∧ j < n) (hs : Counted n s) :
    Counted n s' := by
  unfold pivotTwo at h
  obtain ⟨_, _, h⟩ := bind_eq_ok h
  obtain ⟨b, _, h⟩ := bind_eq_ok h
  obtain ⟨_, _, h⟩ := bind_eq_ok h
  cases h
  have hpivots := hs.pivots
  have hbefore := hs.counts
  generalize swap (swap s.a n s.k i (upperFrom s)) n (s.k + 1) (if j = s.k then i else j)
    (upperFrom s) = a
  obtain ⟨hlength, hcounts⟩ := count_total { s with a } b.low
  obtain ⟨hlength', hcounts'⟩ := count_total ({ s with a }.count b.low) b.high
  refine ⟨show s.k + 2 ≤ n by omega, hlength'.trans ?_, hcounts'.trans ?_⟩
  · rw [hlength]
    exact congrArg (· + 2) hpivots
  · rw [hcounts]
    exact congrArg (· + 2) hbefore

theorem step_counted {m : Rounding} {pool : Pool} {n p : Nat} {stablePivots : Bool} {s s' : State}
    (h : step m pool n p stablePivots s = .ok (.inl s')) (hs : Counted n s) : Counted n s' := by
  unfold step at h
  split at h
  · rename_i selected hpivot
    obtain ⟨t, ht, h⟩ := bind_eq_ok h
    cases h
    have hsel := (diagonalPivot_spec hpivot).1
    exact pivotOne_counted ht (by omega) hs
  · obtain ⟨found, hfound, h⟩ := bind_eq_ok h
    cases found with
    | none => cases h
    | some pair =>
      obtain ⟨t, ht, h⟩ := bind_eq_ok h
      cases h
      exact pivotTwo_counted ht (mem_pairs (searchBlock_mem (lift_ok hfound))) hs

theorem inertiaLoop_counted {m : Rounding} {pool : Pool} {n p : Nat} {stablePivots : Bool}
    {s : State} {positive negative : Nat} {pivots : List MpfrInterval}
    (h : inertiaLoop m pool n p stablePivots s = .ok (.conclusive positive negative pivots))
    (hs : Counted n s) : positive + negative = n ∧ pivots.length = n := by
  induction s using inertiaLoop.induct m pool n p stablePivots with
  | case1 s hlt e hstep =>
    rw [inertiaLoop, dif_pos hlt] at h
    split at h <;> simp_all
  | case2 s hlt result hstep =>
    rw [inertiaLoop, dif_pos hlt] at h
    have := step_result hstep
    split at h <;> simp_all
  | case3 s hlt s' hstep ih =>
    rw [inertiaLoop, dif_pos hlt] at h
    refine ih ?_ (step_counted hstep hs)
    split at h <;> simp_all
  | case4 s hlt =>
    rw [inertiaLoop, dif_neg hlt] at h
    cases h
    have hend : s.k = n := le_antisymm hs.bound (not_lt.mp hlt)
    exact ⟨by rw [hs.counts, hend], by rw [hs.pivots, hend]⟩

/-- The counts and the pivots of a conclusive run are complete. -/
theorem inertiaImpl_counted {m : Rounding} {pool : Pool} {stablePivots : Bool}
    {matrix : List MpfrInterval} {n p positive negative : Nat} {pivots : List MpfrInterval}
    (h : inertiaImpl m pool matrix n p stablePivots = .ok (.conclusive positive negative pivots)) :
    positive + negative = n ∧ pivots.length = n := by
  unfold inertiaImpl at h
  obtain ⟨_, _, h⟩ := bind_eq_ok h
  exact inertiaLoop_counted h ⟨Nat.zero_le n, rfl, rfl⟩

/-! ## Input -/

/-- Every entry of the matrix lies in its interval. -/
def Encloses (matrix : List MpfrInterval) {n : Nat} (A : Matrix (Fin n) (Fin n) ℝ) : Prop :=
  ∀ i j : Fin n, (cells matrix n i j).Contains (A i j)

/-- A matrix as an array, zero outside. -/
def array {n : Nat} (A : Matrix (Fin n) (Fin n) ℝ) : Nat → Nat → ℝ :=
  fun i j => if h : i < n ∧ j < n then A ⟨i, h.1⟩ ⟨j, h.2⟩ else 0

theorem trailing_array {n : Nat} (A : Matrix (Fin n) (Fin n) ℝ) : trailing (array A) 0 n = A := by
  ext i j
  simp [trailing, array]

theorem Encloses.enclosed {matrix : List MpfrInterval} {n : Nat} {A : Matrix (Fin n) (Fin n) ℝ}
    (h : Encloses matrix A) (hA : A.IsHermitian) :
    Enclosed (cells matrix n) n 0 false (array A) := by
  have hentry : ∀ i j, i < n → j < n → (cells matrix n i j).Contains (array A i j) := by
    intro i j hi hj
    simpa [array, hi, hj] using h ⟨i, hi⟩ ⟨j, hj⟩
  refine ⟨fun i j => ?_, fun i j _ hij hj => hentry i j (by omega) hj,
    fun _ i j _ hij hj => hentry j i hj (by omega)⟩
  unfold array
  split
  · rename_i hij
    rw [dif_pos hij.symm]
    exact (hA.apply _ _).symm
  · rename_i hij
    rw [dif_neg fun hji => hij hji.symm]

/-- The lower endpoint, as a sample of the enclosed reals. -/
def sample : MpfrInterval → ℝ
  | .enclosure _ l _ _ => l
  | .invalid _ => 0

/-- Every cell of an accepted input is valid at the working precision. -/
theorem validateInertiaInput_cells {pool : Pool} {matrix : List MpfrInterval} {n p i j : Nat}
    {u : Unit} (h : validateInertiaInput pool matrix n p = .ok u) (hi : i < n) (hj : j < n) :
    (cells matrix n i j).Valid ∧ (cells matrix n i j).precision = p := by
  unfold validateInertiaInput at h
  obtain ⟨_, _, h⟩ := bind_eq_ok h
  obtain ⟨_, hshape, h⟩ := bind_eq_ok h
  obtain ⟨_, _, h⟩ := bind_eq_ok h
  obtain ⟨_, _, h⟩ := bind_eq_ok h
  have hlength : n * n = matrix.length := by
    have hconditions := check_ok hshape
    simp only [Bool.and_eq_true, beq_iff_eq] at hconditions
    exact hconditions.2
  have hlt : i * n + j < matrix.length := by
    rw [← hlength]
    calc i * n + j < (i + 1) * n := by rw [Nat.add_mul]; omega
      _ ≤ n * n := Nat.mul_le_mul_right n hi
  have hmem : cells matrix n i j ∈ matrix := by
    unfold cells
    rw [List.getD_eq_getElem _ _ hlt]
    exact List.getElem_mem hlt
  obtain ⟨_, hv, hp⟩ := bind_eq_ok (forM_ok h _ hmem)
  exact ⟨MpfrInterval.validate_ok hv, by simpa using check_ok hp⟩

/-- An accepted input encloses at least one symmetric matrix. -/
theorem validateInertiaInput_inhabited {pool : Pool} {matrix : List MpfrInterval} {n p : Nat}
    {u : Unit} (h : validateInertiaInput pool matrix n p = .ok u) :
    ∃ A : Matrix (Fin n) (Fin n) ℝ, A.IsHermitian ∧ Encloses matrix A := by
  have hvalid : ∀ i j : Fin n, (cells matrix n i j).Valid :=
    fun i j => (validateInertiaInput_cells h i.isLt j.isLt).1
  unfold validateInertiaInput at h
  obtain ⟨_, _, h⟩ := bind_eq_ok h
  obtain ⟨_, _, h⟩ := bind_eq_ok h
  obtain ⟨_, hsymm, h⟩ := bind_eq_ok h
  have hsame : ∀ i j : Fin n, j < i → sample (cells matrix n i j) =
      sample (cells matrix n j i) := by
    intro i j hij
    have hpairs := List.all_eq_true.mp (check_ok hsymm) i (List.mem_range.mpr i.isLt)
    have hpair := List.all_eq_true.mp hpairs j (List.mem_range.mpr hij)
    unfold sameEndpoints at hpair
    split at hpair
    · rename_i h1 h2
      rw [h1, h2]
      simp only [Bool.and_eq_true, decide_eq_true_eq] at hpair
      simp [sample, hpair.1]
    · cases hpair
  refine ⟨Matrix.of fun i j => sample (cells matrix n i j), ?_, fun i j => ?_⟩
  · ext i j
    simp only [Matrix.conjTranspose_apply, Matrix.of_apply, star_trivial]
    rcases lt_trichotomy i j with hij | rfl | hij
    · exact hsame j i hij
    · rfl
    · exact (hsame i j hij).symm
  · have hv := hvalid i j
    rw [Matrix.of_apply]
    cases hc : cells matrix n i j with
    | invalid p =>
      rw [hc] at hv
      exact hv.elim
    | enclosure p l u hlu => exact ⟨le_rfl, by simpa [sample] using hlu⟩

theorem inertiaImpl_hasInertia {m : Rounding} (hm : m.Directed) {pool : Pool} {stablePivots : Bool}
    {matrix : List MpfrInterval} {n p positive negative : Nat} {pivots : List MpfrInterval}
    (h : inertiaImpl m pool matrix n p stablePivots = .ok (.conclusive positive negative pivots))
    {A : Matrix (Fin n) (Fin n) ℝ} (hA : A.IsHermitian) (hin : Encloses matrix A) :
    HasInertia A positive negative := by
  unfold inertiaImpl at h
  obtain ⟨_, _, h⟩ := bind_eq_ok h
  obtain ⟨p', q', hp, hq, hinertia⟩ :=
    inertiaLoop_sound hm h (Nat.zero_le n) (hin.enclosed hA)
  rw [Nat.zero_add] at hp hq
  subst hp hq
  rwa [Nat.sub_zero, trailing_array] at hinertia

/-- **Soundness of a conclusive certificate**, for both pivot strategies. -/
theorem inertia_sound {m : Rounding} (hm : m.Directed) {pool : Pool}
    {matrix : List MpfrInterval} {n p positive negative : Nat} {pivots : List MpfrInterval}
    (h : inertia m pool matrix n p = .ok (.conclusive positive negative pivots) ∨
      inertiaStable m pool matrix n p = .ok (.conclusive positive negative pivots)) :
    positive + negative = n ∧
      ∀ (A : Matrix (Fin n) (Fin n) ℝ) (hA : A.IsHermitian), Encloses matrix A →
        A.det ≠ 0 ∧ positiveCount hA.eigenvalues = positive ∧
          negativeCount hA.eigenvalues = negative := by
  obtain ⟨stablePivots, h⟩ : ∃ stablePivots, inertiaImpl m pool matrix n p stablePivots =
      .ok (.conclusive positive negative pivots) := by
    rcases h with h | h
    · exact ⟨false, h⟩
    · exact ⟨true, h⟩
  constructor
  · obtain ⟨_, hvalid, _⟩ := bind_eq_ok h
    obtain ⟨A, hA, hin⟩ := validateInertiaInput_inhabited (lift_ok hvalid)
    simpa using (inertiaImpl_hasInertia hm h hA hin).card
  · intro A hA hin
    exact (inertiaImpl_hasInertia hm h hA hin).eigenvalues hA

/-- A diagonal pivot, a symmetric exchange and a two by two block. -/
theorem inertia_sound_indefinite :
    let point := fun x : ℚ => MpfrInterval.enclosure 64 x x le_rfl
    let matrix := [0, 1, 0, 1, 0, 0, 0, 0, 1].map point
    inertiaStable .unbounded .serial matrix 3 64 =
        .ok (.conclusive 2 1 ([1, -1, 1].map point)) ∧
      2 + 1 = 3 ∧ ∀ (A : Matrix (Fin 3) (Fin 3) ℝ) (hA : A.IsHermitian), Encloses matrix A →
        A.det ≠ 0 ∧ positiveCount hA.eigenvalues = 2 ∧ negativeCount hA.eigenvalues = 1 := by
  have hrun : inertiaStable .unbounded .serial
      ([0, 1, 0, 1, 0, 0, 0, 0, 1].map fun x : ℚ => MpfrInterval.enclosure 64 x x le_rfl) 3 64 =
      .ok (.conclusive 2 1 ([1, -1, 1].map fun x : ℚ => MpfrInterval.enclosure 64 x x le_rfl)) := by
    decide +kernel
  exact ⟨hrun, inertia_sound Rounding.unbounded_directed (.inr hrun)⟩

end Xcelerator.Numerics.SymmetricInertiaSoundness
