import Mathlib
import Xcelerator.Foundations.Machine
import Xcelerator.Foundations.TopologicalOrder

/-! # The closure of a worklist

A stack of keys is emptied: a key seen before is dropped, any other is visited
and the keys it leads to are pushed. A visit may fail. The loop ends with all the
keys reachable from the start, or with the failure of a reachable one. -/

namespace Xcelerator.Foundations.WorklistClosure
open TopologicalOrder

variable {K ε : Type} [DecidableEq K]

/-- The stack, its top first, and the keys seen. -/
structure State (K : Type) where
  stack : List K
  visited : Finset K

def walk (visit : K → Except ε (List K)) : Nat → State K → Except ε (State K)
  | 0, s => .ok s
  | fuel + 1, s =>
    match s.stack with
    | [] => .ok s
    | x :: rest =>
      if x ∈ s.visited then walk visit fuel { s with stack := rest }
      else do
        let found ← visit x
        walk visit fuel ⟨found.reverse ++ rest, insert x s.visited⟩

def Reachable (deps : K → List K) (start : List K) (x : K) : Prop :=
  ∃ r ∈ start, Relation.ReflTransGen (DependsOn deps) r x

/-- What holds between two turns of the loop. -/
structure Inv (visit : K → Except ε (List K)) (deps : K → List K) (start : List K) (s : State K) :
    Prop where
  stack : ∀ x ∈ s.stack, Reachable deps start x
  visited : ∀ x ∈ s.visited, Reachable deps start x ∧ visit x = .ok (deps x)
  closed : ∀ x ∈ s.visited, ∀ d ∈ deps x, d ∈ s.visited ∨ d ∈ s.stack
  start : ∀ x ∈ start, x ∈ s.visited ∨ x ∈ s.stack

section
variable {visit : K → Except ε (List K)} {deps : K → List K} {nodes : Finset K} {start : List K}

omit [DecidableEq K] in
theorem initial_inv : Inv visit deps start ⟨start, ∅⟩ := by
  refine ⟨fun x hx => ⟨x, hx, .refl⟩, ?_, ?_, fun x hx => .inr hx⟩
  · intro x hx
    exact absurd hx (Finset.notMem_empty x)
  · intro x hx
    exact absurd hx (Finset.notMem_empty x)

omit [DecidableEq K] in
theorem Reachable.mem (hclosed : ∀ x ∈ nodes, ∀ d ∈ deps x, d ∈ nodes)
    (hstart : ∀ x ∈ start, x ∈ nodes) {x : K} (h : Reachable deps start x) : x ∈ nodes := by
  obtain ⟨r, hr, hsteps⟩ := h
  induction hsteps with
  | refl => exact hstart r hr
  | tail _ hstep ih => exact hclosed _ ih _ hstep

omit [DecidableEq K] in
/-- A key seen before leaves the stack. -/
theorem Inv.drop {x : K} {rest : List K} {visited : Finset K}
    (h : Inv visit deps start ⟨x :: rest, visited⟩)
    (hx : x ∈ visited) : Inv visit deps start ⟨rest, visited⟩ := by
  have hkeep : ∀ d, d ∈ visited ∨ d ∈ x :: rest → d ∈ visited ∨ d ∈ rest := by
    intro d hd
    rcases hd with hd | hd
    · exact .inl hd
    · rcases List.mem_cons.mp hd with rfl | hd
      · exact .inl hx
      · exact .inr hd
  exact ⟨fun y hy => h.stack y (List.mem_cons_of_mem _ hy), h.visited, fun y hy d hd =>
    hkeep d (h.closed y hy d hd), fun y hy => hkeep y (h.start y hy)⟩

/-- A key seen for the first time pushes what it leads to. -/
theorem Inv.push {x : K} {rest : List K} {visited : Finset K}
    (h : Inv visit deps start ⟨x :: rest, visited⟩)
    (hvisit : visit x = .ok (deps x)) :
    Inv visit deps start ⟨(deps x).reverse ++ rest, insert x visited⟩ := by
  have hreach := h.stack x List.mem_cons_self
  have hkeep : ∀ d, d ∈ visited ∨ d ∈ x :: rest → d ∈ insert x visited ∨
      d ∈ (deps x).reverse ++ rest := by
    intro d hd
    rcases hd with hd | hd
    · exact .inl (Finset.mem_insert_of_mem hd)
    · rcases List.mem_cons.mp hd with rfl | hd
      · exact .inl (Finset.mem_insert_self _ _)
      · exact .inr (List.mem_append_right _ hd)
  refine ⟨fun y hy => ?_, fun y hy => ?_, fun y hy d hd => ?_, fun y hy => hkeep y (h.start y hy)⟩
  · rcases List.mem_append.mp hy with hy | hy
    · obtain ⟨r, hr, hsteps⟩ := hreach
      exact ⟨r, hr, hsteps.tail (List.mem_reverse.mp hy)⟩
    · exact h.stack y (List.mem_cons_of_mem _ hy)
  · rcases Finset.mem_insert.mp hy with rfl | hy
    · exact ⟨hreach, hvisit⟩
    · exact h.visited y hy
  · rcases Finset.mem_insert.mp hy with rfl | hy
    · exact .inr (List.mem_append_left _ (List.mem_reverse.mpr hd))
    · exact hkeep d (h.closed y hy d hd)

/-- The turns left: the keys on the stack and those the unseen nodes would push. -/
def turns (deps : K → List K) (nodes : Finset K) (s : State K) : Nat :=
  s.stack.length + ∑ x ∈ nodes \ s.visited, (deps x).length

theorem turns_push {x : K} {rest : List K} {visited : Finset K} (hnode : x ∈ nodes)
    (hx : x ∉ visited) :
    turns deps nodes ⟨(deps x).reverse ++ rest, insert x visited⟩ + 1 =
      turns deps nodes ⟨x :: rest, visited⟩ := by
  have hmem : x ∈ nodes \ visited := Finset.mem_sdiff.mpr ⟨hnode, hx⟩
  have hsum := Finset.add_sum_erase (nodes \ visited) (fun x => (deps x).length) hmem
  have herase : (nodes \ visited).erase x = nodes \ insert x visited := by
    rw [Finset.sdiff_insert]
  rw [herase] at hsum
  simp only [turns, List.length_append, List.length_reverse, List.length_cons]
  omega

/-- The loop ends with an empty stack, or with the failure of a reachable key. -/
theorem walk_spec (hvisit : ∀ x ∈ nodes, ∀ found, visit x = .ok found → found = deps x)
    (hclosed : ∀ x ∈ nodes, ∀ d ∈ deps x, d ∈ nodes) (hstart : ∀ x ∈ start, x ∈ nodes) {fuel : Nat}
    {s : State K} (h : Inv visit deps start s) (hfuel : turns deps nodes s ≤ fuel) :
    (∃ final, walk visit fuel s = .ok final ∧ final.stack = [] ∧ Inv visit deps start final) ∨
      ∃ x e, Reachable deps start x ∧ visit x = .error e ∧ walk visit fuel s = .error e := by
  induction fuel generalizing s with
  | zero =>
    have hlength : s.stack.length = 0 := by
      rw [turns] at hfuel
      omega
    exact .inl ⟨s, rfl, List.length_eq_zero_iff.mp hlength, h⟩
  | succ fuel ih =>
    obtain ⟨stack, visited⟩ := s
    cases stack with
    | nil => exact .inl ⟨_, rfl, rfl, h⟩
    | cons x rest =>
      by_cases hx : x ∈ visited
      · have hturns : turns deps nodes ⟨rest, visited⟩ ≤ fuel := by
          simp only [turns, List.length_cons] at hfuel ⊢
          omega
        rw [walk]
        simp only [if_pos hx]
        exact ih (h.drop hx) hturns
      · have hreach := h.stack x List.mem_cons_self
        have hnode := hreach.mem hclosed hstart
        rw [walk]
        simp only [if_neg hx]
        cases hfound : visit x with
        | error e => exact .inr ⟨x, e, hreach, hfound, rfl⟩
        | ok found =>
          have hdeps := hvisit x hnode found hfound
          subst hdeps
          have hturns := @turns_push K _ deps nodes x rest visited hnode hx
          exact ih (h.push hfound) (by omega)

omit [DecidableEq K] in
/-- With an empty stack the keys seen are the reachable ones. -/
theorem Inv.visited_iff {s : State K} (h : Inv visit deps start s) (hempty : s.stack = []) (x : K) :
    x ∈ s.visited ↔ Reachable deps start x := by
  refine ⟨fun hx => (h.visited x hx).1, fun hx => ?_⟩
  obtain ⟨r, hr, hsteps⟩ := hx
  have hleft : ∀ {d : K}, d ∈ s.visited ∨ d ∈ s.stack → d ∈ s.visited := by
    intro d hd
    rw [hempty] at hd
    exact hd.resolve_right List.not_mem_nil
  induction hsteps with
  | refl => exact hleft (h.start r hr)
  | tail _ hstep ih => exact hleft (h.closed _ ih _ hstep)

theorem walk_closure (hvisit : ∀ x ∈ nodes, ∀ found, visit x = .ok found → found = deps x)
    (hclosed : ∀ x ∈ nodes, ∀ d ∈ deps x, d ∈ nodes) (hstart : ∀ x ∈ start, x ∈ nodes) {fuel : Nat}
    (hfuel : start.length + ∑ x ∈ nodes, (deps x).length ≤ fuel) :
    (∃ final, walk visit fuel ⟨start, ∅⟩ = .ok final ∧ final.stack = [] ∧
        (∀ x, x ∈ final.visited ↔ Reachable deps start x) ∧ ∀ x, Reachable deps start x →
        visit x = .ok (deps x)) ∨
      ∃ x e, Reachable deps start x ∧ visit x = .error e ∧
      walk visit fuel ⟨start, ∅⟩ = .error e := by
  have hturns : turns deps nodes ⟨start, ∅⟩ ≤ fuel := by
    rw [turns, Finset.sdiff_empty]
    exact hfuel
  rcases walk_spec hvisit hclosed hstart initial_inv hturns with
    ⟨final, hfinal, hempty, hinv⟩ | hfailed
  · have hseen := hinv.visited_iff hempty
    exact .inl ⟨final, hfinal, hempty, hseen, fun x hx => (hinv.visited x ((hseen x).mpr hx)).2⟩
  · exact .inr hfailed

end

end Xcelerator.Foundations.WorklistClosure
