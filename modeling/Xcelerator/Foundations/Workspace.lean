import Mathlib
import Xcelerator.Foundations.Machine

/-! # Square workspaces

A row-major square workspace addressed by row and column: exchanges of two rows
and of two columns, the cells of the upper triangle in loop order, and loops
that write a cell of the trailing block together with its mirror image. -/

namespace Xcelerator.Foundations.Workspace
open Xcelerator.Foundations.Machine (ok_bind)

variable {α : Type}

abbrev Cells (α : Type) := Nat → Nat → α

def Cells.set (a : Cells α) (i j : Nat) (v : α) : Cells α :=
  fun r c => if r = i ∧ c = j then v else a r c

/-- The slice swap of the cells `(i, j)` and `(i', j')`. -/
def Cells.exchange (a : Cells α) (i j i' j' : Nat) : Cells α :=
  fun r c => if r = i ∧ c = j then a i' j' else if r = i' ∧ c = j' then a i j else a r c

def swapRows (n first second : Nat) (a : Cells α) : Cells α :=
  (List.range n).foldl (fun a j => a.exchange first j second j) a

def swapColumns (n first second : Nat) (a : Cells α) : Cells α :=
  (List.range n).foldl (fun a i => a.exchange i first i second) a

/-- The upper-triangle cells of the block from `start` on, row by row. -/
def upperCells (start n : Nat) : List (Nat × Nat) :=
  (List.range' start (n - start)).flatMap fun i => (List.range' i (n - i)).map fun j => (i, j)

/-- Write a cell and its mirror image. -/
def mirrored {ε : Type} (update : Cells α → Nat → Nat → Except ε α) (a : Cells α)
    (cell : Nat × Nat) : Except ε (Cells α) := do
  let value ← update a cell.1 cell.2
  return (a.set cell.1 cell.2 value).set cell.2 cell.1 value

/-! ## Exchanges -/

theorem foldl_rows (first second : Nat) {js : List Nat} (hnd : js.Nodup) (a : Cells α) (r c : Nat) :
    js.foldl (fun a j => Cells.exchange a first j second j) a r c =
      if c ∈ js then a (Equiv.swap first second r) c else a r c := by
  induction js generalizing a with
  | nil => simp
  | cons j js ih =>
    obtain ⟨hj, hnd⟩ := List.nodup_cons.mp hnd
    rw [List.foldl_cons, ih hnd]
    by_cases hc : c ∈ js
    · have hne : c ≠ j := fun h => hj (h ▸ hc)
      simp [hc, hne, Cells.exchange]
    · by_cases hcj : c = j
      · subst hcj
        simp only [hc, if_false, List.mem_cons, true_or, if_true, Cells.exchange, and_true,
          Equiv.swap_apply_def]
        split_ifs <;> rfl
      · simp [hc, hcj, Cells.exchange]

theorem foldl_columns (first second : Nat) {is : List Nat} (hnd : is.Nodup) (a : Cells α)
    (r c : Nat) :
    is.foldl (fun a i => Cells.exchange a i first i second) a r c =
      if r ∈ is then a r (Equiv.swap first second c) else a r c := by
  induction is generalizing a with
  | nil => simp
  | cons i is ih =>
    obtain ⟨hi, hnd⟩ := List.nodup_cons.mp hnd
    rw [List.foldl_cons, ih hnd]
    by_cases hr : r ∈ is
    · have hne : r ≠ i := fun h => hi (h ▸ hr)
      simp [hr, hne, Cells.exchange]
    · by_cases hri : r = i
      · subst hri
        simp only [hr, if_false, List.mem_cons, true_or, if_true, Cells.exchange, true_and,
          Equiv.swap_apply_def]
        split_ifs <;> rfl
      · simp [hr, hri, Cells.exchange]

/-- Exchanging two rows and then the two columns renames the indices. -/
theorem swapColumns_swapRows (a : Cells α) {n first second r c : Nat} (hr : r < n) (hc : c < n)
    (hf : first < n) (hs : second < n) :
    swapColumns n first second (swapRows n first second a) r c =
      a (Equiv.swap first second r) (Equiv.swap first second c) := by
  have hc' : Equiv.swap first second c < n := by
    rw [Equiv.swap_apply_def]
    split_ifs <;> assumption
  unfold swapColumns swapRows
  rw [foldl_columns _ _ List.nodup_range, foldl_rows _ _ List.nodup_range,
    foldl_rows _ _ List.nodup_range]
  simp [hr, hc']

theorem swap_bounds {k n first second x : Nat} (hf : k ≤ first ∧ first < n)
    (hs : k ≤ second ∧ second < n) (hx : k ≤ x ∧ x < n) :
    k ≤ Equiv.swap first second x ∧ Equiv.swap first second x < n := by
  rw [Equiv.swap_apply_def]
  split_ifs <;> assumption

/-! ## Triangular loops -/

theorem mem_upperCells {start n i j : Nat} :
    (i, j) ∈ upperCells start n ↔ start ≤ i ∧ i ≤ j ∧ j < n := by
  simp only [upperCells, List.mem_flatMap, List.mem_map, List.mem_range'_1, Prod.mk.injEq]
  constructor
  · rintro ⟨i', hi, j', hj, rfl, rfl⟩
    omega
  · rintro ⟨hi, hij, hj⟩
    exact ⟨i, by omega, j, by omega, rfl, rfl⟩

theorem nodup_upperCells (start n : Nat) : (upperCells start n).Nodup := by
  refine List.nodup_flatMap.mpr ⟨fun i _ => ?_, ?_⟩
  · exact (List.nodup_range' ..).map fun j j' h => (Prod.mk.inj h).2
  · refine (List.nodup_range' ..).imp fun hne => ?_
    intro c hc hc'
    obtain ⟨_, _, rfl⟩ := List.mem_map.mp hc
    obtain ⟨_, _, h⟩ := List.mem_map.mp hc'
    exact hne (Prod.mk.inj h).1.symm

theorem set_mirror (a : Cells α) (i j r c : Nat) (v : α) :
    (a.set i j v).set j i v r c = if (r = i ∧ c = j) ∨ (r = j ∧ c = i) then v else a r c := by
  unfold Cells.set
  by_cases h1 : r = j ∧ c = i <;> by_cases h2 : r = i ∧ c = j <;> simp [h1, h2]

/-- The loop over pending cells: what is in front of `start` and what is already
written stays, and every pending cell still holds its first value. -/
theorem foldlM_mirrored {ε : Type} {update : Cells α → Nat → Nat → Except ε α}
    (good : Nat → Nat → α → Prop) {a : Cells α} {start : Nat} {cells : List (Nat × Nat)}
    (hcells : ∀ cell ∈ cells, start ≤ cell.1 ∧ cell.1 ≤ cell.2) (hnd : cells.Nodup)
    (hupdate : ∀ b : Cells α, (∀ r c, r < start ∨ c < start → b r c = a r c) →
      ∀ cell ∈ cells, b cell.1 cell.2 = a cell.1 cell.2 →
        ∃ v, update b cell.1 cell.2 = .ok v ∧ good cell.1 cell.2 v)
    (b : Cells α) (hfront : ∀ r c, r < start ∨ c < start → b r c = a r c)
    (hpending : ∀ cell ∈ cells, b cell.1 cell.2 = a cell.1 cell.2) :
    ∃ a', cells.foldlM (mirrored update) b = .ok a' ∧
      (∀ cell ∈ cells, good cell.1 cell.2 (a' cell.1 cell.2) ∧ a' cell.2 cell.1 = a' cell.1 cell.2)
        ∧
      ∀ r c, (r, c) ∉ cells → (c, r) ∉ cells → a' r c = b r c := by
  induction cells generalizing b with
  | nil => exact ⟨b, rfl, by simp, fun _ _ _ _ => rfl⟩
  | cons cell cells ih =>
    obtain ⟨hnot, hnd⟩ := List.nodup_cons.mp hnd
    obtain ⟨hstart, hle⟩ := hcells cell (by simp)
    obtain ⟨v, hv, hgood⟩ := hupdate b hfront cell (by simp) (hpending cell (by simp))
    let b' := (b.set cell.1 cell.2 v).set cell.2 cell.1 v
    have hb' : ∀ r c, b' r c =
        if (r = cell.1 ∧ c = cell.2) ∨ (r = cell.2 ∧ c = cell.1) then v else b r c :=
      fun r c => set_mirror b cell.1 cell.2 r c v
    have hmirror : ∀ i j, (i, j) ∈ cells →
        ¬((i = cell.1 ∧ j = cell.2) ∨ (i = cell.2 ∧ j = cell.1)) := by
      intro i j hmem hor
      have hij := (hcells (i, j) (List.mem_cons_of_mem _ hmem)).2
      have heq : (i, j) = cell := by
        rcases hor with ⟨h1, h2⟩ | ⟨h1, h2⟩
        · exact Prod.ext h1 h2
        · exact Prod.ext (by simp only at hij ⊢; omega) (by simp only at hij ⊢; omega)
      exact hnot (heq ▸ hmem)
    obtain ⟨a', ha', hall, hrest⟩ := ih (fun c hc => hcells c (List.mem_cons_of_mem _ hc)) hnd
      (fun b hb c hc => hupdate b hb c (List.mem_cons_of_mem _ hc)) b'
      (fun r c hrc => by
        rw [hb', if_neg (by omega)]
        exact hfront r c hrc)
      (fun c hc => by
        rw [hb', if_neg (hmirror c.1 c.2 hc)]
        exact hpending c (List.mem_cons_of_mem _ hc))
    refine ⟨a', ?_, fun c hc => ?_, fun r c h1 h2 => ?_⟩
    · rw [List.foldlM_cons]
      simp only [mirrored, hv, ok_bind]
      exact ha'
    · rcases List.mem_cons.mp hc with rfl | hc
      · have hself : ∀ r s, (r = c.1 ∧ s = c.2) ∨ (r = c.2 ∧ s = c.1) → a' r s = v := by
          intro r s hrs
          rw [hrest r s (fun hm => hmirror r s hm hrs) (fun hm => hmirror s r hm (by omega)), hb',
            if_pos hrs]
        rw [hself c.1 c.2 (.inl ⟨rfl, rfl⟩), hself c.2 c.1 (.inr ⟨rfl, rfl⟩)]
        exact ⟨hgood, rfl⟩
      · exact hall c hc
    · have hne : ¬((r = cell.1 ∧ c = cell.2) ∨ (r = cell.2 ∧ c = cell.1)) := by
        rintro (⟨rfl, rfl⟩ | ⟨rfl, rfl⟩)
        · exact h1 (by simp)
        · exact h2 (by simp)
      rw [hrest r c (fun hm => h1 (List.mem_cons_of_mem _ hm)) (fun hm =>
        h2 (List.mem_cons_of_mem _ hm)), hb', if_neg hne]

/-- A whole trailing block written by a loop that never fails. -/
theorem upperCells_mirrored {ε : Type} (update : Cells α → Nat → Nat → Except ε α)
    (good : Nat → Nat → α → Prop) (a : Cells α) (start n : Nat)
    (hupdate : ∀ b : Cells α, (∀ r c, r < start ∨ c < start → b r c = a r c) →
      ∀ i j, start ≤ i → i ≤ j → j < n → b i j = a i j → ∃ v, update b i j = .ok v ∧ good i j v) :
    ∃ a', (upperCells start n).foldlM (mirrored update) a = .ok a' ∧
      ∀ i j, start ≤ i → i ≤ j → j < n → good i j (a' i j) ∧ a' j i = a' i j := by
  obtain ⟨a', ha', hall, _⟩ := foldlM_mirrored good (a := a)
    (fun cell hc => ⟨(mem_upperCells.mp hc).1, (mem_upperCells.mp hc).2.1⟩)
    (nodup_upperCells start n)
    (fun b hb cell hc => hupdate b hb cell.1 cell.2 (mem_upperCells.mp hc).1
      (mem_upperCells.mp hc).2.1
      (mem_upperCells.mp hc).2.2) a (fun _ _ _ => rfl) (fun _ _ => rfl)
  exact ⟨a', ha', fun i j hi hij hj => hall (i, j) (mem_upperCells.mpr ⟨hi, hij, hj⟩)⟩

end Xcelerator.Foundations.Workspace
