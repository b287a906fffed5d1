import Mathlib
import Xcelerator.Foundations.Agreement
import Xcelerator.Numerics.ReflectedInertia
import Xcelerator.Numerics.SymmetricInertiaSoundness

/-! # Upper-triangle storage against reflected storage

The two eliminations run in lockstep. What relates them (`Current`) reads the
upper-triangle workspace through its flag: before the first update as it is
stored, afterwards through the upper entry of each index pair; read so, it holds
what the reflected workspace holds. The scratch updates round the same corners
as the interval operations and fail with the same error. -/

namespace Xcelerator.Numerics.ReflectedInertiaSoundness
open Xcelerator.Foundations.Agreement Xcelerator.Numerics.Interval Xcelerator.Numerics.Mpfr
open Xcelerator.Foundations.Machine (bind_eq_ok ok_bind)
open Xcelerator.Numerics.SymmetricInertia Xcelerator.Numerics.SymmetricInertiaSoundness
open Xcelerator.Numerics.ReflectedInertia
open MpfrInterval (unordered unrepresentable)

/-! ## Stored intervals -/

/-- A valid interval of the working precision. -/
def Stored (p : Nat) (v : MpfrInterval) : Prop := ∃ l u h, v = .enclosure p l u h

theorem stored_of_valid {v : MpfrInterval} (h : v.Valid) : Stored v.precision v := by
  cases v with
  | enclosure p l u hlu => exact ⟨l, u, hlu, rfl⟩
  | invalid p => exact h.elim

theorem Stored.precision {p : Nat} {v : MpfrInterval} (h : Stored p v) : v.precision = p := by
  obtain ⟨l, u, hlu, rfl⟩ := h
  rfl

theorem new_stored {p : Nat} {lower upper : Option ℚ} {v : MpfrInterval}
    (h : MpfrInterval.new p lower upper = .ok v) : Stored p v := by
  unfold MpfrInterval.new at h
  split at h
  · split at h
    · cases h
      exact ⟨_, _, _, rfl⟩
    · cases h
  · cases h

theorem arithmeticResult_precision (p : Nat) (lower upper : Option ℚ) :
    (MpfrInterval.arithmeticResult p lower upper).precision = p := by
  unfold MpfrInterval.arithmeticResult
  split
  · exact (new_stored ‹_›).precision
  · rfl

theorem combine_precision (f : Nat → ℚ → ℚ → ℚ → ℚ → Option ℚ × Option ℚ) (a b : MpfrInterval) :
    (MpfrInterval.combine f a b).precision = a.precision := by
  cases a with
  | invalid p => rfl
  | enclosure p l u _ =>
    cases b with
    | invalid p' => rfl
    | enclosure p' l' u' _ =>
      rw [MpfrInterval.combine]
      split
      · exact arithmeticResult_precision ..
      · rfl

section
variable {m : Rounding}

theorem reciprocal_stored {a b : MpfrInterval} (h : MpfrInterval.reciprocal m a = .ok b) :
    Stored a.precision b := by
  cases a with
  | invalid p => cases h
  | enclosure p l u hlu =>
    unfold MpfrInterval.reciprocal at h
    dsimp only at h
    split at h
    · cases h
    · exact new_stored h

theorem div_stored {a b c : MpfrInterval} (h : MpfrInterval.div m a b = .ok c) :
    Stored a.precision c := by
  unfold MpfrInterval.div at h
  obtain ⟨_, _, h⟩ := bind_eq_ok h
  obtain ⟨_, _, h⟩ := bind_eq_ok h
  split at h
  · obtain ⟨r, _, h⟩ := bind_eq_ok h
    obtain ⟨_, hv, h⟩ := bind_eq_ok h
    cases h
    have hstored := stored_of_valid (MpfrInterval.validate_ok hv)
    rwa [show (MpfrInterval.mul m a r).precision = a.precision from combine_precision _ a r]
      at hstored
  · cases h

/-- The inverse of a certified block is stored. -/
theorem block_stored {a : Cells} {i j p : Nat} {b : Block} (h : block m a i j p = .ok (some b))
    (hx : Stored p (a i i)) (hy : Stored p (a i j)) (hz : Stored p (a j j)) :
    Stored p b.inverse11 ∧ Stored p b.inverse12 ∧ Stored p b.inverse22 := by
  unfold block at h
  obtain ⟨_, _, h⟩ := bind_eq_ok h
  split at h
  · cases h
  · unfold certifiedBlock at h
    obtain ⟨root, _, h⟩ := bind_eq_ok h
    obtain ⟨low, _, h⟩ := bind_eq_ok h
    obtain ⟨high, _, h⟩ := bind_eq_ok h
    split at h
    · obtain ⟨i11, h11, h⟩ := bind_eq_ok h
      obtain ⟨i12, h12, h⟩ := bind_eq_ok h
      obtain ⟨i22, h22, h⟩ := bind_eq_ok h
      cases h
      have hneg : (MpfrInterval.neg (a i j)).precision = p := by
        obtain ⟨l, u, hlu, hy⟩ := hy
        rw [hy]
        rfl
      refine ⟨?_, ?_, ?_⟩
      · rw [← hz.precision]
        exact div_stored h11
      · rw [← hneg]
        exact div_stored h12
      · rw [← hx.precision]
        exact div_stored h22
    · cases h

/-! ## Updates of one entry -/

/-- An update followed by the validation of its value. -/
def checked (x : Result MpfrInterval) : Result MpfrInterval := do
  let value ← x
  value.validate
  return value

theorem checked_valid {x : Result MpfrInterval} {v : MpfrInterval} (h : checked x = .ok v) :
    x = .ok v ∧ v.Valid := by
  obtain ⟨w, hw, h⟩ := bind_eq_ok h
  obtain ⟨_, hv, h⟩ := bind_eq_ok h
  cases h
  exact ⟨hw, MpfrInterval.validate_ok hv⟩

theorem operand_arithmeticResult (p : Nat) (lower upper : Option ℚ) :
    operand unrepresentable (.arithmeticResult p lower upper) =
      finiteOrdered unrepresentable lower upper := by
  unfold MpfrInterval.arithmeticResult MpfrInterval.new finiteOrdered
  cases lower with
  | none => rfl
  | some l =>
    cases upper with
    | none => rfl
    | some u =>
      dsimp only
      by_cases hlu : l ≤ u
      · rw [dif_pos hlu, if_pos hlu]
        rfl
      · rw [dif_neg hlu, if_neg hlu]
        rfl

/-- The endpoints of a combination, in the order the scratch buffers compute them. -/
theorem operand_combine (f : Nat → ℚ → ℚ → ℚ → ℚ → Option ℚ × Option ℚ) {p : Nat}
    {a b : MpfrInterval} (ha : a.precision = p) (hb : b.precision = p) :
    operand unrepresentable (.combine f a b) = (do
      let x ← operand unrepresentable a
      let y ← operand unrepresentable b
      finiteOrdered unrepresentable (f p x.1 x.2 y.1 y.2).1 (f p x.1 x.2 y.1 y.2).2) := by
  cases a with
  | invalid q => rfl
  | enclosure q l u _ =>
    cases b with
    | invalid q' => rfl
    | enclosure q' l' u' _ =>
      cases ha
      cases hb
      rw [MpfrInterval.combine, if_pos rfl, operand_arithmeticResult]
      rfl

theorem operand_mul {p : Nat} {a b : MpfrInterval} (ha : a.precision = p) (hb : b.precision = p) :
    operand unrepresentable (.mul m a b) = (do
      let x ← operand unrepresentable a
      let y ← operand unrepresentable b
      fullProduct m p x y) := operand_combine _ ha hb

theorem operand_add {p : Nat} {a b : MpfrInterval} (ha : a.precision = p) (hb : b.precision = p) :
    operand unrepresentable (.add m a b) = (do
      let x ← operand unrepresentable a
      let y ← operand unrepresentable b
      scratchAdd m p x y) := operand_combine _ ha hb

/-- Subtracting scratch endpoints is subtracting the interval that holds them. -/
theorem checked_subtractFrom {p : Nat} {previous correction : MpfrInterval} (hp : Stored p previous)
    (hc : correction.precision = p) :
    checked (operand unrepresentable correction >>= fun s => subtractFrom m s previous) =
      checked (.ok (.sub m previous correction)) := by
  obtain ⟨l, u, hlu, rfl⟩ := hp
  cases correction with
  | invalid q => rfl
  | enclosure q cl cu hcu =>
    have hq : p = q := hc.symm
    subst hq
    simp only [operand, ok_bind, subtractFrom, MpfrInterval.sub, MpfrInterval.combine, if_pos,
      MpfrInterval.arithmeticResult]
    cases hnew : MpfrInterval.new p (m.round p .down (l - cu)) (m.round p .up (u - cl)) with
    | error e => rfl
    | ok v => rfl

theorem twoTerm_eq {p : Nat} {left inverse right : MpfrInterval} (hl : left.precision = p)
    (hi : inverse.precision = p) (hr : right.precision = p) :
    twoTerm m p left inverse right =
      operand unrepresentable (.mul m (.mul m left inverse) right) := by
  have hprec : (MpfrInterval.mul m left inverse).precision = p := by
    rw [← hl]
    exact combine_precision ..
  rw [operand_mul hprec hr, operand_mul hl hi]
  simp only [twoTerm, bind_assoc]

/-- The four scratch terms of a two by two update are the interval expression. -/
theorem checked_two {p : Nat} {previous ri si rj sj : MpfrInterval} {b : Block}
    (hp : Stored p previous) (hri : Stored p ri) (hsi : Stored p si) (hrj : Stored p rj)
    (hsj : Stored p sj) (h11 : Stored p b.inverse11) (h12 : Stored p b.inverse12)
    (h22 : Stored p b.inverse22) :
    checked (two m p previous ri si rj sj b) = checked (referenceTwo m previous ri si rj sj b) := by
  have hmul : ∀ {x y z : MpfrInterval}, Stored p x →
      (MpfrInterval.mul m (.mul m x y) z).precision = p := by
    intro x y z hx
    exact ((combine_precision _ _ z).trans (combine_precision _ x y)).trans hx.precision
  have hadd : ∀ {x y : MpfrInterval}, x.precision = p → (MpfrInterval.add m x y).precision = p := by
    intro x y hx
    exact (combine_precision _ x y).trans hx
  have h1 := hmul (y := b.inverse11) (z := rj) hri
  have h2 := hmul (y := b.inverse12) (z := sj) hri
  have h3 := hmul (y := b.inverse12) (z := rj) hsi
  have h4 := hmul (y := b.inverse22) (z := sj) hsi
  rw [referenceTwo, ← checked_subtractFrom hp (hadd (hadd (hadd h1))),
    operand_add (hadd (hadd h1)) h4, operand_add (hadd h1) h3, operand_add h1 h2,
    ← twoTerm_eq hri.precision h11.precision hrj.precision,
    ← twoTerm_eq hri.precision h12.precision hsj.precision,
    ← twoTerm_eq hsi.precision h12.precision hrj.precision,
    ← twoTerm_eq hsi.precision h22.precision hsj.precision]
  simp only [two, bind_assoc]

/-- The scratch product of selected corners is the validated one. -/
theorem selectedProduct_eq {p : Nat} {al au bl bu : ℚ} (ha : al ≤ au) (hb : bl ≤ bu) :
    selectedProduct m p (al, au) (bl, bu) =
      product m (.enclosure p al au ha) (.enclosure p bl bu hb) >>= operand unordered := by
  have hnew : ∀ lower upper, finiteOrdered unordered lower upper =
      MpfrInterval.new p lower upper >>= operand unordered := by
    intro lower upper
    unfold finiteOrdered MpfrInterval.new
    cases lower with
    | none => rfl
    | some l =>
      cases upper with
      | none => rfl
      | some u =>
        dsimp only
        by_cases hlu : l ≤ u
        · rw [dif_pos hlu, if_pos hlu]
          rfl
        · rw [dif_neg hlu, if_neg hlu]
          rfl
  rw [product, if_pos rfl]
  unfold selectedProduct
  dsimp only
  cases selectedCorners al au bl bu with
  | none => exact hnew _ _
  | some corners => exact hnew _ _

theorem product_stored {p : Nat} {a b c : MpfrInterval} (ha : Stored p a) (hb : Stored p b)
    (h : product m a b = .ok c) : Stored p c := by
  obtain ⟨al, au, hal, rfl⟩ := ha
  obtain ⟨bl, bu, hbl, rfl⟩ := hb
  rw [product, if_pos rfl] at h
  split at h
  · exact new_stored h
  · exact new_stored h

theorem checked_one {p : Nat} {previous left right inverse : MpfrInterval} (hp : Stored p previous)
    (hl : Stored p left) (hr : Stored p right) (hi : Stored p inverse) :
    checked (one m p previous left right inverse) =
      checked (referenceOne m previous left right inverse) := by
  obtain ⟨ll, lu, hll, rfl⟩ := hl
  obtain ⟨rl, ru, hrl, rfl⟩ := hr
  obtain ⟨il, iu, hil, rfl⟩ := hi
  simp only [one, referenceOne, operand, ok_bind, selectedProduct_eq hll hrl, bind_assoc]
  cases hfirst : product m (.enclosure p ll lu hll) (.enclosure p rl ru hrl) with
  | error e => rfl
  | ok first =>
    obtain ⟨fl, fu, hfl, rfl⟩ := product_stored ⟨_, _, _, rfl⟩ ⟨_, _, _, rfl⟩ hfirst
    simp only [operand, ok_bind, selectedProduct_eq hfl hil, bind_assoc]
    cases hsecond : product m (.enclosure p fl fu hfl) (.enclosure p il iu hil) with
    | error e => rfl
    | ok second =>
      have hstored := product_stored ⟨_, _, _, rfl⟩ ⟨_, _, _, rfl⟩ hsecond
      refine Eq.trans ?_ (checked_subtractFrom hp hstored.precision)
      obtain ⟨sl, su, hsl, rfl⟩ := hstored
      rfl

theorem checked_sub_stored {p : Nat} {previous correction w : MpfrInterval} (hp : Stored p previous)
    (h : checked (.ok (.sub m previous correction)) = .ok w) : Stored p w := by
  obtain ⟨hw, hvalid⟩ := checked_valid h
  cases hw
  have hstored := stored_of_valid hvalid
  rwa [show (MpfrInterval.sub m previous correction).precision = p from
    (combine_precision _ _ correction).trans hp.precision] at hstored

theorem referenceOne_stored {p : Nat} {previous left right inverse w : MpfrInterval}
    (hp : Stored p previous) (h : checked (referenceOne m previous left right inverse) = .ok w) :
    Stored p w := by
  obtain ⟨hone, _⟩ := checked_valid h
  obtain ⟨numerator, hnumerator, hone⟩ := bind_eq_ok hone
  obtain ⟨correction, hcorrection, hone⟩ := bind_eq_ok hone
  rw [referenceOne, hnumerator, ok_bind, hcorrection, ok_bind] at h
  exact checked_sub_stored hp h

end

/-! ## Updates of a block -/

/-- The upper triangles from `start` on hold the same stored intervals. -/
def SameUpper (p n start : Nat) (a b : Cells) : Prop :=
  ∀ i j, start ≤ i → i ≤ j → j < n → a i j = b i j ∧ Stored p (b i j)

theorem updateCell_eq (update : Nat → Nat → MpfrInterval → Result MpfrInterval) (a : Cells)
    (cell : Nat × Nat) :
    updateCell update a cell = (do
      let value ← checked (update cell.1 cell.2 (a cell.1 cell.2))
      return a.set cell.1 cell.2 value) := by
  simp only [updateCell, checked, bind_assoc, pure_bind]

section
variable {pool : Pool} {p n start : Nat} {a b : Cells}
  {update update' : Nat → Nat → MpfrInterval → Result MpfrInterval}

/-- The updates agree on stored entries of the upper triangle. -/
def SameUpdate (p n start : Nat) (update update' : Nat → Nat → MpfrInterval → Result MpfrInterval) :
    Prop :=
  ∀ i j v, start ≤ i → i ≤ j → j < n → Stored p v →
    checked (update i j v) = checked (update' i j v) ∧ ∀ w, checked (update' i j v) = .ok w →
    Stored p w

/-- Two updates that agree on stored entries keep the upper triangles the same. -/
theorem updateCells_agree (hupdate : SameUpdate p n start update update') {cells : List (Nat × Nat)}
    (hcells : ∀ cell ∈ cells, start ≤ cell.1 ∧ cell.1 ≤ cell.2 ∧ cell.2 < n)
    (h : SameUpper p n start a b) :
    Agrees (fun _ => True) (SameUpper p n start) (cells.foldlM (updateCell update) a)
      (cells.foldlM (updateCell update') b) := by
  refine Agrees.foldlM (fun a b cell hcell hab => ?_) h
  obtain ⟨hstart, hle, hlt⟩ := hcells cell hcell
  obtain ⟨heq, hstored⟩ := hab cell.1 cell.2 hstart hle hlt
  obtain ⟨hsame, hvalue⟩ := hupdate cell.1 cell.2 (b cell.1 cell.2) hstart hle hlt hstored
  rw [updateCell_eq, updateCell_eq, heq, hsame]
  cases hchecked : checked (update' cell.1 cell.2 (b cell.1 cell.2)) with
  | error e => exact ⟨rfl, trivial⟩
  | ok v =>
    intro i j hi hij hj
    simp only [Cells.set]
    split
    · exact ⟨rfl, hvalue v hchecked⟩
    · exact hab i j hi hij hj

theorem errorOf_agrees {ε α β : Type} {expected : ε → Prop} {R : α → β → Prop} {x : Except ε α}
    {y : Except ε β} (h : Agrees expected R x y) : errorOf x = errorOf y := by
  cases x with
  | error e =>
    cases y with
    | error e' => exact congrArg some h.1
    | ok b => exact h.elim
  | ok a =>
    cases y with
    | error e' => exact h.elim
    | ok b => rfl

/-- The same rows fail, with the same errors. -/
theorem failures_agree (hupdate : SameUpdate p n start update update')
    (h : SameUpper p n start a b) :
    failures pool a n start update = failures pool b n start update' := by
  unfold failures
  refine List.filterMap_congr fun i hi => ?_
  rw [List.mem_range'_1] at hi
  have hrow : Agrees (fun _ => True) (SameUpper p n start) (rowUpdate pool a n start update i)
      (rowUpdate pool b n start update' i) := by
    refine (agrees_self fun _ _ => trivial).bind fun _ _ _ =>
      updateCells_agree hupdate (fun cell hcell => ?_) h
    obtain ⟨j, hj, rfl⟩ := List.mem_map.mp hcell
    rw [List.mem_range'_1] at hj
    exact ⟨hi.1, hj.1, by dsimp only; omega⟩
  exact errorOf_agrees hrow

theorem updateRows_agree (hupdate : SameUpdate p n start update update')
    (h : SameUpper p n start a b) (q : Nat) :
    Agrees (fun _ => True) (SameUpper p n start) (updateSchurRows pool a n start q update)
      (updateSchurRows pool b n start q update') := by
  have hrows : Agrees (fun _ => True) (SameUpper p n start) (updateRows a n start update)
      (updateRows b n start update') :=
        updateCells_agree hupdate (fun cell hcell => mem_upperCells.mp hcell) h
  unfold updateSchurRows
  rw [failures_agree hupdate h]
  split
  · split
    · exact hrows
    · exact ⟨rfl, trivial⟩
  · exact hrows

end

theorem foldl_reflect {cells : List (Nat × Nat)} (hcells : ∀ cell ∈ cells, cell.1 < cell.2)
    (a : Cells) (r c : Nat) :
    cells.foldl (fun a cell => Cells.set a cell.2 cell.1 (a cell.1 cell.2)) a r c =
      if (c, r) ∈ cells then a c r else a r c := by
  induction cells generalizing a with
  | nil => simp
  | cons cell cells ih =>
    have hlt := hcells cell (by simp)
    rw [List.foldl_cons, ih fun x hx => hcells x (List.mem_cons_of_mem _ hx)]
    have hupper : ∀ i j, i ≤ j →
        Cells.set a cell.2 cell.1 (a cell.1 cell.2) i j = a i j := by
      intro i j hij
      exact if_neg (by omega)
    by_cases hmem : (c, r) ∈ cells
    · have hrc := hcells (c, r) (List.mem_cons_of_mem _ hmem)
      rw [if_pos hmem, if_pos (List.mem_cons_of_mem _ hmem), hupper c r hrc.le]
    · rw [if_neg hmem]
      by_cases hcell : (c, r) = cell
      · subst hcell
        rw [if_pos (by simp)]
        exact if_pos ⟨rfl, rfl⟩
      · rw [if_neg (by simp [hmem, hcell])]
        refine if_neg fun h => hcell ?_
        rw [h.1, h.2]

/-- A reflected block holds the upper entry of every index pair. -/
theorem reflect_upperEntry {a : Cells} {start n i j : Nat} (hi : start ≤ i ∧ i < n)
    (hj : start ≤ j ∧ j < n) : reflect a start n i j = upperEntry a i j := by
  unfold reflect
  rw [foldl_reflect fun cell hcell => (mem_pairs hcell).2.1]
  have hmem : (j, i) ∈ pairs start n ↔ j < i := by
    refine ⟨fun h => (mem_pairs h).2.1, fun hji => ?_⟩
    simp only [pairs, List.mem_flatMap, List.mem_map, List.mem_range'_1, Prod.mk.injEq]
    exact ⟨j, by omega, i, by omega, rfl, rfl⟩
  unfold upperEntry
  by_cases hji : j < i
  · rw [if_pos (hmem.mpr hji), min_eq_right hji.le, max_eq_left hji.le]
  · rw [if_neg (mt hmem.mp hji), min_eq_left (by omega), max_eq_right (by omega)]

/-! ## Lockstep -/

/-- What the upper-triangle workspace holds for an index pair. -/
def current (a : Cells) (updated : Bool) (i j : Nat) : MpfrInterval :=
  if updated then upperEntry a i j else a i j

/-- The block from `k` on, read through the flag, is the reflected block. -/
def Current (n p k : Nat) (updated : Bool) (a b : Cells) : Prop :=
  ∀ i j, k ≤ i ∧ i < n → k ≤ j ∧ j < n → current a updated i j = b i j ∧ Stored p (b i j)

section
variable {n p k : Nat} {updated : Bool} {a b : Cells} (h : Current n p k updated a b)
include h

theorem Current.upper {i j : Nat} (hi : k ≤ i) (hij : i ≤ j) (hj : j < n) : a i j = b i j := by
  rw [← (h i j ⟨hi, by omega⟩ ⟨by omega, hj⟩).1]
  unfold current
  split
  · rw [upperEntry, min_eq_left hij, max_eq_right hij]
  · rfl

theorem Current.below {i j : Nat} (hj : k ≤ j) (hij : j ≤ i) (hi : i < n) :
    below a updated i j = b i j := by
  rw [← (h i j ⟨by omega, hi⟩ ⟨hj, by omega⟩).1]
  unfold current SymmetricInertia.below
  split
  · rw [upperEntry, min_eq_right hij, max_eq_left hij]
  · rfl

theorem Current.swap {first second : Nat} (hf : k ≤ first ∧ first < n)
    (hs : k ≤ second ∧ second < n) :
    Current n p k updated (swap a n first second (if updated then some k else none))
      (referenceSwap b n first second) := by
  intro i j hi hj
  have href : referenceSwap b n first second i j =
      b (Equiv.swap first second i) (Equiv.swap first second j) :=
    swap_full (a := b) hi.2 hj.2 hf.2 hs.2
  rw [href]
  obtain ⟨heq, hstored⟩ := h _ _ (swap_bounds hf hs hi) (swap_bounds hf hs hj)
  refine ⟨?_, hstored⟩
  rw [← heq]
  cases updated with
  | true => exact swap_upper hi hj
  | false => exact swap_full hi.2 hj.2 hf.2 hs.2

theorem Current.diagonalPivot (stablePivots : Bool) :
    diagonalPivot stablePivots a k n = diagonalPivot stablePivots b k n := by
  have hdiag : ∀ j ∈ List.range' k (n - k), a j j = b j j := by
    intro j hj
    rw [List.mem_range'_1] at hj
    exact h.upper (by omega) le_rfl (by omega)
  have hcandidates : (List.range' k (n - k)).filter (fun j => signed (a j j)) =
      (List.range' k (n - k)).filter fun j => signed (b j j) :=
    List.filter_congr fun j hj => by rw [hdiag j hj]
  unfold SymmetricInertia.diagonalPivot
  dsimp only
  rw [hcandidates]
  split
  · -- the running maximum stays among the candidates
    have hfold : ∀ (candidates : List Nat) (best : Option Nat),
        (∀ j ∈ candidates, a j j = b j j) → (∀ j ∈ best, a j j = b j j) →
        candidates.foldl (laterMaximum a) best = candidates.foldl (laterMaximum b) best := by
      intro candidates
      induction candidates with
      | nil => exact fun _ _ _ => rfl
      | cons j candidates ih =>
        intro best hall hbest
        have hj := hall j (by simp)
        have hsame : laterMaximum a best j = laterMaximum b best j := by
          unfold laterMaximum
          cases best with
          | none => rfl
          | some i => simp only [hbest i rfl, hj]
        rw [List.foldl_cons, List.foldl_cons, hsame]
        refine ih _ (fun x hx => hall x (List.mem_cons_of_mem _ hx)) fun x hx => ?_
        unfold laterMaximum at hx
        cases best with
        | none =>
          cases hx
          exact hj
        | some i =>
          dsimp only at hx
          split at hx
          · exact hbest x hx
          · cases hx
            exact hj
    exact hfold _ none (fun j hj => hdiag j (List.mem_of_mem_filter hj)) nofun
  · rfl

theorem Current.block (m : Rounding) {i j : Nat} (hi : k ≤ i) (hij : i ≤ j) (hj : j < n) (q : Nat) :
    block m a i j q = block m b i j q := by
  unfold SymmetricInertia.block
  rw [h.upper hi le_rfl (by omega), h.upper hi hij hj, h.upper (by omega) le_rfl hj]

theorem Current.searchBlock (m : Rounding) (q : Nat) {candidates : List (Nat × Nat)}
    (hcandidates : ∀ pair ∈ candidates, k ≤ pair.1 ∧ pair.1 < pair.2 ∧ pair.2 < n) :
    searchBlock m a q candidates = searchBlock m b q candidates := by
  induction candidates with
  | nil => rfl
  | cons pair candidates ih =>
    obtain ⟨hi, hij, hj⟩ := hcandidates pair (by simp)
    have hrest := ih fun x hx => hcandidates x (List.mem_cons_of_mem _ hx)
    simp only [SymmetricInertia.searchBlock, h.block m hi hij.le hj q, hrest]

end

/-- The states of the two loops. -/
structure Mirrors (n p : Nat) (s t : State) : Prop where
  pivots : s.pivots = t.pivots
  positive : s.positive = t.positive
  negative : s.negative = t.negative
  index : s.k = t.k
  cells : Current n p s.k s.updated s.a t.a

/-- Interval errors are expected, a failed expectation is not. -/
def intervalStop : Stop → Prop
  | .error _ => True
  | .panic _ => False

theorem lift_agrees {α β : Type} {R : α → β → Prop} {x : Result α} {y : Result β}
    (h : Agrees (fun _ => True) R x y) : Agrees intervalStop R (lift x) (lift y) :=
  h.mapError _ fun _ _ => trivial

section
variable (m : Rounding) (pool : Pool) {n p k : Nat} {updated : Bool} {a b : Cells}

/-- Scratch updates above the diagonal followed by the reflection of the reference. -/
theorem updateSchurRows_agrees {start : Nat}
    {update update' : Nat → Nat → MpfrInterval → Result MpfrInterval}
    (hupdate : SameUpdate p n start update update')
    (h : Current n p k updated a b) (hk : k ≤ start) (q : Nat) :
    Agrees (fun _ => True) (Current n p start true) (updateSchurRows pool a n start q update)
      (referenceUpdateSchurRows pool b n start q update') := by
  have hsame : SameUpper p n start a b := by
    intro i j hi hij hj
    exact ⟨h.upper (by omega) hij hj, (h i j ⟨by omega, by omega⟩ ⟨by omega, hj⟩).2⟩
  have hagree := @updateRows_agree pool p n start a b update update' hupdate hsame q
  unfold referenceUpdateSchurRows
  rw [← bind_pure (updateSchurRows pool a n start q update)]
  refine hagree.bind fun a' b' hab => ?_
  intro i j hi hj
  have hentry := hab (min i j) (max i j) (by omega) (by omega) (by omega)
  rw [reflect_upperEntry hi hj]
  exact hentry

theorem eliminateOne_agrees (h : Current n p k updated a b) (hk : k < n) :
    Agrees (fun _ => True) (Current n p (k + 1) true) (eliminateOne m pool a n p k updated)
      (referenceEliminateOne m pool b n p k) := by
  unfold eliminateOne referenceEliminateOne
  rw [h.upper le_rfl le_rfl hk]
  have hpivot := (h k k ⟨le_rfl, hk⟩ ⟨le_rfl, hk⟩).2
  refine ((agrees_self fun _ _ => trivial).imp fun v w hv _ heq =>
    (⟨heq, reciprocal_stored hv⟩ : v = w ∧ Stored (b k k).precision v)).bind ?_
  rintro inverse _ ⟨rfl, hinverse⟩
  rw [hpivot.precision] at hinverse
  refine updateSchurRows_agrees pool (fun i j v hi hij hj hv => ?_) h (by omega) p
  have hcolumn : ∀ r, k + 1 ≤ r → r < n → Stored p (b r k) :=
    fun r hr hrn => (h r k ⟨by omega, hrn⟩ ⟨le_rfl, hk⟩).2
  dsimp only
  rw [h.below le_rfl (by omega) (by omega), h.below le_rfl (by omega) hj]
  exact ⟨checked_one hv (hcolumn i hi (by omega)) (hcolumn j (by omega) hj) hinverse,
    fun w hw => referenceOne_stored hv hw⟩

theorem eliminateTwo_agrees (h : Current n p k updated a b) (hk : k + 1 < n) {c : Block}
    (hc : block m b k (k + 1) p = .ok (some c)) :
    Agrees (fun _ => True) (Current n p (k + 2) true) (eliminateTwo m pool a n p k updated c)
      (referenceEliminateTwo m pool b n p k c) := by
  have hstored : ∀ r s, k ≤ r → r < n → k ≤ s → s < n → Stored p (b r s) :=
    fun r s hr hrn hs hsn => (h r s ⟨hr, hrn⟩ ⟨hs, hsn⟩).2
  obtain ⟨h11, h12, h22⟩ := block_stored hc (hstored _ _ le_rfl (by omega) le_rfl (by omega))
    (hstored _ _ le_rfl (by omega) (by omega) hk) (hstored _ _ (by omega) hk (by omega) hk)
  unfold eliminateTwo referenceEliminateTwo
  refine updateSchurRows_agrees pool (fun i j v hi hij hj hv => ?_) h (by omega) p
  dsimp only
  rw [h.below le_rfl (by omega) (by omega), h.below (by omega) (by omega) (by omega),
    h.below le_rfl (by omega) hj, h.below (by omega) (by omega) hj]
  refine ⟨checked_two hv ?_ ?_ ?_ ?_ h11 h12 h22, fun w hw => checked_sub_stored hv hw⟩
  all_goals exact hstored _ _ (by omega) (by omega) (by omega) (by omega)

end

section
variable (m : Rounding) (pool : Pool) {n p : Nat} {s t : State} (h : Mirrors n p s t)
include h

theorem Mirrors.pivotOne {selected : Nat} (hk : s.k < n) (hs : s.k ≤ selected ∧ selected < n) :
    Agrees intervalStop (Mirrors n p) (pivotOne m pool n p s selected)
      (referencePivotOne m pool n p t selected) := by
  obtain ⟨a, pivots, positive, negative, k, updated⟩ := s
  obtain ⟨b, _, _, _, _, flag⟩ := t
  obtain ⟨hpivots, hpositive, hnegative, hindex, hcells⟩ := h
  dsimp only at *
  subst hpivots hpositive hnegative hindex
  have hswap := hcells.swap ⟨le_rfl, hk⟩ hs
  unfold SymmetricInertia.pivotOne referencePivotOne upperFrom
  dsimp only [State.count]
  rw [hswap.upper le_rfl le_rfl hk]
  by_cases hlast : k + 1 = n
  · rw [if_pos hlast, if_pos hlast]
    -- nothing is left of the block
    exact agrees_ok ⟨rfl, rfl, rfl, rfl, fun i j hi => absurd hi.1 (by dsimp only; omega)⟩
  · rw [if_neg hlast, if_neg hlast]
    refine (lift_agrees (eliminateOne_agrees m pool hswap hk)).bind fun a' b' hab => ?_
    exact agrees_ok ⟨rfl, rfl, rfl, rfl, hab⟩

/-- The exchanges bring the certified block to the front, so it is certified again. -/
theorem Mirrors.pivotTwo {i j : Nat} (hi : s.k ≤ i) (hij : i < j) (hj : j < n) {c : Block}
    (hc : block m s.a i j p = .ok (some c)) :
    Agrees intervalStop (Mirrors n p) (pivotTwo m pool n p s i j)
      (referencePivotTwo m pool n p t i j) := by
  obtain ⟨a, pivots, positive, negative, k, updated⟩ := s
  obtain ⟨b, _, _, _, _, flag⟩ := t
  obtain ⟨hpivots, hpositive, hnegative, hindex, hcells⟩ := h
  dsimp only at *
  subst hpivots hpositive hnegative hindex
  have hk : k ≤ k ∧ k < n := ⟨le_rfl, by omega⟩
  have hk' : k ≤ k + 1 ∧ k + 1 < n := ⟨by omega, by omega⟩
  have hjn : k ≤ j ∧ j < n := ⟨by omega, hj⟩
  have hfirst := hcells.swap hk ⟨hi, by omega⟩
  have hboth := hfirst.swap hk' hjn
  have hadjusted : (if j = k then i else j) = j := if_neg (by omega)
  have hentry : ∀ x y, k ≤ x ∧ x < n → k ≤ y ∧ y < n →
      referenceSwap (referenceSwap b n k i) n (k + 1) j x y =
        b (Equiv.swap k i (Equiv.swap (k + 1) j x)) (Equiv.swap k i (Equiv.swap (k + 1) j y)) := by
    intro x y hx hy
    refine (swap_full (a := referenceSwap b n k i) hx.2 hy.2 hk'.2 hj).trans ?_
    exact swap_full (a := b) (swap_bounds hk' hjn hx).2 (swap_bounds hk' hjn hy).2 hk.2 (by omega)
  have hfront : Equiv.swap k i (Equiv.swap (k + 1) j k) = i := by
    have hfixed : Equiv.swap (k + 1) j k = k := Equiv.swap_apply_of_ne_of_ne (by omega) (by omega)
    rw [hfixed, Equiv.swap_apply_left]
  have hnext : Equiv.swap k i (Equiv.swap (k + 1) j (k + 1)) = j := by
    rw [Equiv.swap_apply_left, Equiv.swap_apply_of_ne_of_ne (by omega) (by omega)]
  have hblock : block m (referenceSwap (referenceSwap b n k i) n (k + 1) j) k (k + 1) p =
      .ok (some c) := by
    rw [← hc, hcells.block m hi hij.le hj p]
    unfold block
    rw [hentry k k hk hk, hentry k (k + 1) hk hk', hentry (k + 1) (k + 1) hk' hk', hfront, hnext]
  unfold SymmetricInertia.pivotTwo referencePivotTwo upperFrom
  dsimp only [State.count]
  rw [hadjusted, hboth.block m le_rfl (by omega) hk'.2 p, hblock]
  refine (lift_agrees (eliminateTwo_agrees m pool hboth hk'.2 hblock)).bind fun a' b' hab => ?_
  exact agrees_ok ⟨rfl, rfl, rfl, rfl, hab⟩

end

/-! ## Whole runs -/

theorem searchBlock_certified {m : Rounding} {a : Cells} {p : Nat} {candidates : List (Nat × Nat)}
    {i j : Nat} (h : searchBlock m a p candidates = .ok (some (i, j))) :
    ∃ c, block m a i j p = .ok (some c) := by
  induction candidates with
  | nil => cases h
  | cons pair candidates ih =>
    rw [searchBlock] at h
    obtain ⟨found, hfound, h⟩ := bind_eq_ok h
    cases found with
    | none => exact ih h
    | some c =>
      cases h
      exact ⟨c, hfound⟩

/-- The results of one turn: related states, or one result. -/
def SameTurn (n p : Nat) : State ⊕ MpfrInertiaResult → State ⊕ MpfrInertiaResult → Prop
  | .inl s, .inl t => Mirrors n p s t
  | .inr r, .inr r' => r = r'
  | _, _ => False

section
variable (m : Rounding) (pool : Pool) {n p : Nat} {s t : State}

theorem Mirrors.step (h : Mirrors n p s t) (hk : s.k < n) (stablePivots : Bool) :
    Agrees intervalStop (SameTurn n p) (step m pool n p stablePivots s)
      (referenceStep m pool n p stablePivots t) := by
  have hpivot : diagonalPivot stablePivots t.a t.k n = diagonalPivot stablePivots s.a s.k n := by
    rw [← h.index]
    exact (h.cells.diagonalPivot stablePivots).symm
  have hsearch : searchBlock m t.a p (pairs t.k n) = searchBlock m s.a p (pairs s.k n) := by
    rw [← h.index]
    exact (h.cells.searchBlock m p fun pair hpair => mem_pairs hpair).symm
  unfold SymmetricInertia.step referenceStep
  rw [hpivot, hsearch]
  cases hselected : diagonalPivot stablePivots s.a s.k n with
  | some selected =>
    refine (h.pivotOne m pool hk (diagonalPivot_spec hselected).1).bind fun s' t' h' => ?_
    exact agrees_ok h'
  | none =>
    dsimp only
    cases hfound : searchBlock m s.a p (pairs s.k n) with
    | error e => exact ⟨rfl, trivial⟩
    | ok found =>
      cases found with
      | none =>
        have hcell := h.cells.upper le_rfl le_rfl hk
        refine agrees_ok ?_
        show MpfrInertiaResult.inconclusive .. = .inconclusive ..
        rw [← h.index, h.positive, h.negative, h.pivots, hcell]
      | some pair =>
        obtain ⟨i, j⟩ := pair
        obtain ⟨c, hc⟩ := searchBlock_certified hfound
        obtain ⟨hi, hij, hj⟩ := mem_pairs (searchBlock_mem hfound)
        refine (h.pivotTwo m pool hi hij hj hc).bind fun s' t' h' => ?_
        exact agrees_ok h'

theorem inertiaLoop_eq (stablePivots : Bool) (s : State) : inertiaLoop m pool n p stablePivots s =
    if s.k < n then (do
      match ← step m pool n p stablePivots s with
      | .inl s' => inertiaLoop m pool n p stablePivots s'
      | .inr result => return result)
    else .ok (.conclusive s.positive s.negative s.pivots) := by
  rw [inertiaLoop]
  split
  · split <;> simp_all [pure, Except.pure]
  · rfl

theorem referenceLoop_eq (stablePivots : Bool) (s : State) :
    referenceLoop m pool n p stablePivots s =
    if s.k < n then (do
      match ← referenceStep m pool n p stablePivots s with
      | .inl s' => referenceLoop m pool n p stablePivots s'
      | .inr result => return result)
    else .ok (.conclusive s.positive s.negative s.pivots) := by
  rw [referenceLoop]
  split
  · split <;> simp_all [pure, Except.pure]
  · rfl

/-- The loops stay in lockstep until they end. -/
theorem Mirrors.loop (stablePivots : Bool) (h : Mirrors n p s t) :
    Agrees intervalStop Eq (inertiaLoop m pool n p stablePivots s)
      (referenceLoop m pool n p stablePivots t) := by
  obtain ⟨fuel, hfuel⟩ : ∃ fuel, n - s.k = fuel := ⟨_, rfl⟩
  induction fuel using Nat.strong_induction_on generalizing s t with
  | _ fuel ih =>
    rw [inertiaLoop_eq, referenceLoop_eq, ← h.index]
    by_cases hk : s.k < n
    · rw [if_pos hk, if_pos hk]
      refine ((h.step m pool hk stablePivots).imp fun x y hx _ hxy =>
        (⟨hx, hxy⟩ : SymmetricInertia.step m pool n p stablePivots s = .ok x ∧
          SameTurn n p x y)).bind ?_
      rintro x y ⟨hx, hxy⟩
      cases x with
      | inl s' =>
        cases y with
        | inl t' =>
          have hadvance := step_advances m pool hx
          exact ih (n - s'.k) (by omega) hxy rfl
        | inr r' => exact hxy.elim
      | inr r =>
        cases y with
        | inl t' => exact hxy.elim
        | inr r' => exact agrees_ok hxy
    · rw [if_neg hk, if_neg hk, h.positive, h.negative, h.pivots]
      exact agrees_ok rfl

/-- With the same workers, upper-triangle storage returns what reflected storage returns. -/
theorem inertia_agrees (matrix : List MpfrInterval) (stablePivots : Bool) :
    Agrees intervalStop Eq (inertiaImpl m pool matrix n p stablePivots)
      (referenceInertiaImpl m pool matrix n p stablePivots) := by
  unfold inertiaImpl referenceInertiaImpl
  refine ((lift_agrees (agrees_self fun _ _ => trivial)).imp fun v w hv _ _ => hv).bind ?_
  intro v w hv
  have hvalid := lift_ok hv
  refine Mirrors.loop m pool stablePivots ⟨rfl, rfl, rfl, rfl, fun i j hi hj => ⟨rfl, ?_⟩⟩
  obtain ⟨hentry, hp⟩ := validateInertiaInput_cells hvalid hi.2 hj.2
  rw [← hp]
  exact stored_of_valid hentry

end

/-! ## The choice among failing rows -/

section
variable {m : Rounding} {pool pool' : Pool} {n p : Nat} {stablePivots : Bool}

theorem toOption_lift {α : Type} {x y : Result α} (h : x.toOption = y.toOption) :
    (lift x).toOption = (lift y).toOption := by
  cases x with
  | error e =>
    cases y with
    | error e' => rfl
    | ok b => cases h
  | ok a =>
    cases y with
    | error e' => cases h
    | ok b =>
      cases h
      rfl

/-- The pools share everything but the row they report. -/
structure SameWorkers (pool pool' : Pool) : Prop where
  workers : pool.workers = pool'.workers
  uniform : pool.uniformExponentRange = pool'.uniformExponentRange
  bounds : pool.sharesBounds = pool'.sharesBounds

theorem SameWorkers.parallel (h : SameWorkers pool pool') (rows : Nat) :
    pool.parallel rows p = pool'.parallel rows p := by
  unfold Pool.parallel
  rw [h.workers]

theorem SameWorkers.updateSchurRows (h : SameWorkers pool pool') (a : Cells) (start : Nat)
    (update : Nat → Nat → MpfrInterval → Result MpfrInterval) :
    (updateSchurRows pool a n start p update).toOption =
      (updateSchurRows pool' a n start p update).toOption := by
  have hfailures : failures pool a n start update = failures pool' a n start update := by
    unfold failures rowUpdate
    rw [h.bounds]
  unfold SymmetricInertia.updateSchurRows
  rw [h.parallel, hfailures]
  split
  · split
    · rfl
    · rfl
  · rfl

theorem SameWorkers.step (h : SameWorkers pool pool') (s : State) :
    (step m pool n p stablePivots s).toOption = (step m pool' n p stablePivots s).toOption := by
  unfold SymmetricInertia.step
  split
  · refine toOption_bind ?_ fun _ _ => rfl
    unfold pivotOne
    dsimp only
    split
    · rfl
    · refine toOption_bind (toOption_lift ?_) fun _ _ => rfl
      exact toOption_bind rfl fun _ _ => h.updateSchurRows ..
  · refine toOption_bind rfl fun found _ => ?_
    cases found with
    | none => rfl
    | some pair =>
      refine toOption_bind ?_ fun _ _ => rfl
      refine toOption_bind rfl fun found _ => toOption_bind rfl fun b _ => ?_
      exact toOption_bind (toOption_lift (h.updateSchurRows ..)) fun _ _ => rfl

theorem SameWorkers.loop (h : SameWorkers pool pool') (s : State) :
    (inertiaLoop m pool n p stablePivots s).toOption =
      (inertiaLoop m pool' n p stablePivots s).toOption := by
  obtain ⟨fuel, hfuel⟩ : ∃ fuel, n - s.k = fuel := ⟨_, rfl⟩
  induction fuel using Nat.strong_induction_on generalizing s with
  | _ fuel ih =>
    rw [inertiaLoop_eq, inertiaLoop_eq]
    by_cases hk : s.k < n
    · rw [if_pos hk, if_pos hk]
      refine toOption_bind (h.step s) fun turn hturn => ?_
      cases turn with
      | inl s' =>
        have hadvance := step_advances m pool hturn
        exact ih (n - s'.k) (by omega) s' rfl
      | inr result => rfl
    · rw [if_neg hk, if_neg hk]

theorem SameWorkers.inertiaImpl (h : SameWorkers pool pool') (matrix : List MpfrInterval) :
    (inertiaImpl m pool matrix n p stablePivots).toOption =
      (inertiaImpl m pool' matrix n p stablePivots).toOption := by
  unfold SymmetricInertia.inertiaImpl
  refine toOption_bind (toOption_lift ?_) fun _ _ => h.loop _
  unfold validateInertiaInput
  rw [h.workers, h.uniform]

/-- One worker updates row by row, whatever the choice. -/
theorem serial_inertiaImpl (hpool : pool.workers ≤ 1) (hpool' : pool'.workers ≤ 1)
    (matrix : List MpfrInterval) :
    inertiaImpl m pool matrix n p stablePivots = inertiaImpl m pool' matrix n p stablePivots := by
  have hserial : ∀ {pool : Pool} {a : Cells} {start : Nat} {update : Nat → Nat → MpfrInterval →
    Result MpfrInterval},
      pool.workers ≤ 1 → updateSchurRows pool a n start p update = updateRows a n start update := by
    intro pool a start update hworkers
    unfold updateSchurRows Pool.parallel
    rw [decide_eq_false (by omega : ¬ 1 < pool.workers)]
    rfl
  have hstep : ∀ s, step m pool n p stablePivots s = step m pool' n p stablePivots s := by
    intro s
    simp only [step, pivotOne, pivotTwo, eliminateOne, eliminateTwo, hserial hpool, hserial hpool']
  have hloop : ∀ fuel s, n - s.k = fuel →
      inertiaLoop m pool n p stablePivots s = inertiaLoop m pool' n p stablePivots s := by
    intro fuel
    induction fuel using Nat.strong_induction_on with
    | _ fuel ih =>
      intro s hfuel
      rw [inertiaLoop_eq, inertiaLoop_eq, hstep]
      by_cases hk : s.k < n
      · rw [if_pos hk, if_pos hk]
        cases hturn : step m pool' n p stablePivots s with
        | error e => rfl
        | ok turn =>
          cases turn with
          | inl s' =>
            have hadvance := step_advances m pool' hturn
            exact ih (n - s'.k) (by omega) s' rfl
          | inr result => rfl
      · rw [if_neg hk, if_neg hk]
  unfold inertiaImpl
  rw [hloop _ _ rfl]
  unfold validateInertiaInput
  rw [decide_eq_true hpool, decide_eq_true hpool']
  rfl

end

/-- Upper-triangle storage returns what reflected storage returns, with either choice of pivots and
the same choice among failing rows; without that choice the results are the same, with one worker
the errors too. The block found by the search is certified again after the exchanges. -/
theorem inertiaImpl_reflected (m : Rounding) (pool pool' : Pool) (h : SameWorkers pool pool')
    (matrix : List MpfrInterval) (n p : Nat) (stablePivots : Bool) :
    inertiaImpl m pool matrix n p stablePivots =
      referenceInertiaImpl m pool matrix n p stablePivots ∧
    (inertiaImpl m pool matrix n p stablePivots).toOption =
      (referenceInertiaImpl m pool' matrix n p stablePivots).toOption ∧
    (pool.workers ≤ 1 → inertiaImpl m pool matrix n p stablePivots =
      referenceInertiaImpl m pool' matrix n p stablePivots) ∧
    ∀ message, inertiaImpl m pool matrix n p stablePivots ≠ .error (.panic message) := by
  obtain ⟨heq, hstop⟩ := (@inertia_agrees m pool n p matrix stablePivots).eq
  have heq' := (@inertia_agrees m pool' n p matrix stablePivots).eq.1
  refine ⟨heq, ?_, fun hserial => ?_, fun message hpanic => hstop _ hpanic⟩
  · rw [← heq']
    exact h.inertiaImpl matrix
  · rw [← heq']
    exact serial_inertiaImpl hserial (h.workers ▸ hserial) matrix

/-! Two workers on three rows. -/

section

def pointMatrix (p : Nat) (entries : List ℚ) : List MpfrInterval :=
  entries.map fun x => .enclosure p x x le_rfl

def reporting (row : Nat) : Pool := ⟨2, true, fun _ _ => true, fun _ => row⟩

/-- Rounding that overflows from `2 ^ 101` on. -/
def capped : Rounding where
  round p direction x := (Rounding.unbounded.round p direction x).filter fun r =>
    decide (|r| < 2 ^ 101)
  sqrt p direction x := (Rounding.unbounded.sqrt p direction x).filter fun r =>
    decide (|r| < 2 ^ 101)

/-- The product of the first row and the difference of the second overflow. -/
def overflowing : List MpfrInterval :=
  pointMatrix 32768 [1, 2 ^ 60, 2 ^ 50, 2 ^ 60, 1, 0, 2 ^ 50, 0, -2 ^ 100]

theorem inertiaImpl_reported :
    ∃ e e', e ≠ e' ∧ inertiaImpl capped (reporting 0) overflowing 3 32768 false = .error e ∧
      referenceInertiaImpl capped (reporting 1) overflowing 3 32768 false = .error e' := by
  refine ⟨.error unordered, .error unrepresentable, ?_⟩
  decide +kernel

theorem inertiaImpl_reflected_indefinite :
    (referenceInertiaImpl .unbounded (reporting 1) (pointMatrix 64 [0, 1, 0, 1, 0, 0, 0, 0, 1]) 3 64
      true).toOption = some (.conclusive 2 1 (pointMatrix 64 [1, -1, 1])) := by
  have hsame : SameWorkers (reporting 0) (reporting 1) := ⟨rfl, rfl, rfl⟩
  have hrun : inertiaImpl .unbounded (reporting 0) (pointMatrix 64 [0, 1, 0, 1, 0, 0, 0, 0, 1])
    3 64 true =
      .ok (.conclusive 2 1 (pointMatrix 64 [1, -1, 1])) := by
    decide +kernel
  rw [← (inertiaImpl_reflected .unbounded _ _ hsame _ 3 64 true).2.1, hrun]
  rfl

end

end Xcelerator.Numerics.ReflectedInertiaSoundness
