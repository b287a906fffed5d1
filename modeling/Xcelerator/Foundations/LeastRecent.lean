import Mathlib

/-! # Least recently used order

Items in the order of their last use, oldest first. A use moves an item to the
end; room is made by dropping the oldest items, as few as the limit allows. -/

namespace Xcelerator.Foundations.LeastRecent

section
variable {ι κ : Type} [DecidableEq κ] (key : ι → κ) (weight : ι → Nat)

def total (items : List ι) : Nat := (items.map weight).sum

@[simp] theorem total_cons (x : ι) (items : List ι) :
    total weight (x :: items) = weight x + total weight items := by
  simp [total]

/-- The item of a key is the last one used. -/
def touch (k : κ) (items : List ι) : List ι :=
  match items.find? fun x => key x = k with
  | some x => (items.filter fun y => key y ≠ k) ++ [x]
  | none => items

/-- How many of the oldest items make room for a weight. -/
def excess (limit need : Nat) : List ι → Nat
  | [] => 0
  | x :: items => if need + total weight (x :: items) ≤ limit then 0 else
      excess limit need items + 1

def makeRoom (limit need : Nat) (items : List ι) : List ι :=
  items.drop (excess weight limit need items)

theorem makeRoom_cons (limit need : Nat) (x : ι) (items : List ι) :
    makeRoom weight limit need (x :: items) =
      if need + total weight (x :: items) ≤ limit then x :: items else
        makeRoom weight limit need items := by
  rw [makeRoom, excess]
  split
  · rfl
  · rfl

/-- **Room.** What is dropped is the least number of the oldest items that makes room. -/
theorem excess_isLeast {limit need : Nat} (h : need ≤ limit) (items : List ι) :
    IsLeast {n | need + total weight (items.drop n) ≤ limit} (excess weight limit need items) := by
  induction items with
  | nil => exact ⟨by simpa [excess, total] using h, fun n _ => Nat.zero_le n⟩
  | cons x items ih =>
    rw [excess]
    split
    · rename_i hfits
      exact ⟨hfits, fun n _ => Nat.zero_le n⟩
    · rename_i hover
      refine ⟨ih.1, fun n hn => ?_⟩
      cases n with
      | zero => exact absurd hn hover
      | succ n => exact Nat.succ_le_succ (ih.2 hn)

end

end Xcelerator.Foundations.LeastRecent
