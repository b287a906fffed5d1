import Mathlib

/-! # Enumeration by a successor function

A successor function runs through a list when it leads from each element to the
next and stops at the last. Prefixing a common head to a run and joining runs
end to end give the lexicographic enumerations. Two nested loops enumerate the
cells of a matrix row by row. -/

namespace Xcelerator.Foundations.Enumeration

variable {α : Type*} {next : α → Option α}

/-- The successor runs from `a` through the list, `a` being its first element. -/
inductive Runs (next : α → Option α) : α → List α → Prop where
  | last {a : α} (h : next a = none) : Runs next a [a]
  | step {a b : α} {rest : List α} (h : next a = some b) (hrest : Runs next b rest) :
      Runs next a (a :: rest)

/-- A run lifted along `f`, continued by another one. -/
theorem Runs.continued {β : Type*} {next' : β → Option β} {f : β → α} {b : β} {list : List β}
    (h : Runs next' b list) (hstep : ∀ b ∈ list, ∀ b', next' b = some b' → next (f b) = some (f b'))
    {a : α} {rest : List α} (hlast : ∀ b ∈ list, next' b = none → next (f b) = some a)
    (hrest : Runs next a rest) : Runs next (f b) (list.map f ++ rest) := by
  induction h with
  | @last b h => exact .step (hlast b (by simp) h) hrest
  | @step b b' list h _ ih =>
    exact .step (hstep b (by simp) b' h) (ih (fun c hc => hstep c (List.mem_cons_of_mem _ hc))
      fun c hc => hlast c (List.mem_cons_of_mem _ hc))

/-- A run lifted along `f` that ends there. -/
theorem Runs.lifted {β : Type*} {next' : β → Option β} {f : β → α} {b : β} {list : List β}
    (h : Runs next' b list) (hstep : ∀ b ∈ list, ∀ b', next' b = some b' → next (f b) = some (f b'))
    (hlast : ∀ b ∈ list, next' b = none → next (f b) = none) : Runs next (f b) (list.map f) := by
  induction h with
  | @last b h => exact .last (hlast b (by simp) h)
  | @step b b' list h _ ih =>
    exact .step (hstep b (by simp) b' h) (ih (fun c hc => hstep c (List.mem_cons_of_mem _ hc))
      fun c hc => hlast c (List.mem_cons_of_mem _ hc))

/-- Row by row is index by index. -/
theorem flatMap_rows {α : Type} (f : Nat → Nat → α) (rows cols : Nat) :
    ((List.range rows).flatMap fun i => (List.range cols).map fun j => f i j) =
      (List.range (rows * cols)).map fun e => f (e / cols) (e % cols) := by
  induction rows with
  | zero => simp
  | succ rows ih =>
    rw [List.range_succ, List.flatMap_append, ih, Nat.succ_mul, List.range_add, List.map_append,
      List.flatMap_singleton, List.map_map]
    refine congrArg _ (List.map_congr_left fun j hj => ?_)
    have hj := List.mem_range.mp hj
    rw [Function.comp, Nat.mul_comm, Nat.mul_add_div (by omega), Nat.div_eq_of_lt hj, Nat.add_zero,
      Nat.mul_add_mod, Nat.mod_eq_of_lt hj]

end Xcelerator.Foundations.Enumeration
