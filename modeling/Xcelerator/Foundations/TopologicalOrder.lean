import Mathlib
import Xcelerator.Foundations.Machine

/-! # Kahn's algorithm with a sorted worklist

A graph is a list of keys and, for each, the keys it depends on. Every key has a
count of dependencies not yet ordered; keys whose count is zero wait in a sorted
set, whose least element is ordered next. The order is a permutation of the keys
that puts dependencies first, or it stops short and the graph has a cycle. -/

namespace Xcelerator.Foundations.TopologicalOrder
open Machine

variable {K : Type} [LinearOrder K]

/-- Insertion into a strictly sorted list. -/
def insertSorted (x : K) : List K → List K
  | [] => [x]
  | y :: ys => if x < y then x :: y :: ys else if x = y then y :: ys else y :: insertSorted x ys

structure State (K : Type) where
  incoming : K → Nat
  ready : List K
  order : List K

/-- One dependency of `dependent` has been ordered. -/
def release (s : State K) (dependent : K) : Checked (State K) := do
  let count ← subtract (s.incoming dependent) 1
  let ready := if count = 0 then insertSorted dependent s.ready else s.ready
  return { s with incoming := Function.update s.incoming dependent count, ready }

section
variable (nodes : List K) (deps : K → List K)

def dependents (x : K) : List K := nodes.filter fun n => x ∈ deps n

def initial : State K where
  incoming := fun n => (deps n).length
  ready := nodes.filter fun n => (deps n).length = 0
  order := []

/-- `while let Some(x) = ready.pop_first()`, at most `fuel` times. -/
def loop : Nat → State K → Checked (State K)
  | 0, s => .ok s
  | fuel + 1, s =>
    match s.ready with
    | [] => .ok s
    | x :: rest => do
      let s ← (dependents nodes deps x).foldlM release { s with
        ready := rest, order := s.order ++ [x] }
      loop fuel s

def ordered : Checked (List K) := do
  let s ← loop nodes deps nodes.length (initial nodes deps)
  return s.order

end

/-! ## The worklist -/

theorem mem_insertSorted {x y : K} {l : List K} : y ∈ insertSorted x l ↔ y = x ∨ y ∈ l := by
  induction l with
  | nil => simp [insertSorted]
  | cons z l ih =>
    unfold insertSorted
    split
    · simp
    · split
      · rename_i h
        subst h
        simp
      · simp only [List.mem_cons, ih]
        tauto

theorem insertSorted_sorted {x : K} {l : List K} (h : l.Pairwise (· < ·)) :
    (insertSorted x l).Pairwise (· < ·) := by
  induction l with
  | nil => simp [insertSorted]
  | cons y l ih =>
    obtain ⟨hy, hl⟩ := List.pairwise_cons.mp h
    unfold insertSorted
    split
    · rename_i hxy
      refine List.pairwise_cons.mpr ⟨fun z hz => ?_, h⟩
      rcases List.mem_cons.mp hz with rfl | hz
      · exact hxy
      · exact hxy.trans (hy z hz)
    · split
      · exact h
      · rename_i hnlt hne
        refine List.pairwise_cons.mpr ⟨fun z hz => ?_, ih hl⟩
        rcases mem_insertSorted.mp hz with rfl | hz
        · exact lt_of_le_of_ne (not_lt.mp hnlt) (Ne.symm hne)
        · exact hy z hz

/-- Releasing distinct keys with positive counts. -/
theorem foldlM_release {ds : List K} (hnodup : ds.Nodup) {s : State K}
    (hpos : ∀ d ∈ ds, 0 < s.incoming d) (hsorted : s.ready.Pairwise (· < ·)) :
    ∃ s', ds.foldlM release s = .ok s' ∧ s'.order = s.order ∧ s'.ready.Pairwise (· < ·) ∧
      (∀ n, s'.incoming n = if n ∈ ds then s.incoming n - 1 else s.incoming n) ∧
      ∀ n, n ∈ s'.ready ↔ n ∈ s.ready ∨ n ∈ ds ∧ s.incoming n = 1 := by
  induction ds generalizing s with
  | nil => exact ⟨s, rfl, rfl, hsorted, by simp, by simp⟩
  | cons d ds ih =>
    obtain ⟨hd, hnodup⟩ := List.nodup_cons.mp hnodup
    have hdpos := hpos d (by simp)
    have hrelease : release s d = .ok
        { s with
          incoming := Function.update s.incoming d (s.incoming d - 1)
          ready := if s.incoming d - 1 = 0 then insertSorted d s.ready else s.ready } := by
      rw [release, subtract_ok hdpos]
      rfl
    have hne : ∀ n ∈ ds, n ≠ d := fun n hn he => hd (he ▸ hn)
    obtain ⟨s', hs', horder, hready, hincoming, hmem⟩ := ih hnodup (s := { s with
        incoming := Function.update s.incoming d (s.incoming d - 1)
        ready := if s.incoming d - 1 = 0 then insertSorted d s.ready else s.ready })
      (fun n hn => by
        dsimp only
        rw [Function.update_of_ne (hne n hn)]
        exact hpos n (by simp [hn]))
      (by
        dsimp only
        split
        · exact insertSorted_sorted hsorted
        · exact hsorted)
    refine ⟨s', by rw [List.foldlM_cons, hrelease]; exact hs', horder, hready, fun n =>
      ?_, fun n => ?_⟩
    · rw [hincoming n]
      by_cases hnd : n = d
      · subst hnd
        simp [hd]
      · simp [hnd]
    · rw [hmem n]
      by_cases hnd : n = d
      · subst hnd
        simp only [hd, false_and, or_false, List.mem_cons, true_and]
        split
        · rw [mem_insertSorted]
          have : s.incoming n = 1 := by omega
          simp [this]
        · have : s.incoming n ≠ 1 := by omega
          simp [this]
      · simp only [Function.update_of_ne hnd, List.mem_cons, hnd, false_or]
        split
        · rw [mem_insertSorted]
          simp [hnd]
        · rfl

/-! ## The loop -/

section
variable {nodes : List K} {deps : K → List K}

/-- Dependencies of a key that are not ordered yet. -/
def pending (deps : K → List K) (order : List K) (n : K) : List K := (deps n).filter (· ∉ order)

theorem mem_dependents {x n : K} : n ∈ dependents nodes deps x ↔ n ∈ nodes ∧ x ∈ deps n := by
  simp [dependents]

/-- What holds between two turns of the loop. -/
structure Inv (nodes : List K) (deps : K → List K) (s : State K) : Prop where
  nodup : s.order.Nodup
  mem : ∀ n ∈ s.order, n ∈ nodes
  sorted : s.ready.Pairwise (· < ·)
  count : ∀ n ∈ nodes, s.incoming n = (pending deps s.order n).length
  ready : ∀ n, n ∈ s.ready ↔ n ∈ nodes ∧ n ∉ s.order ∧ s.incoming n = 0
  topological : ∀ earlier n later, s.order = earlier ++ n :: later → ∀ d ∈ deps n, d ∈ earlier

theorem initial_inv (hsorted : nodes.Pairwise (· < ·)) : Inv nodes deps (initial nodes deps) := by
  refine ⟨by simp [initial], by simp [initial], hsorted.filter _, fun n _ => ?_, fun n => ?_, ?_⟩
  · simp [initial, pending]
  · simp [initial]
  · intro earlier n later h
    simp [initial] at h

/-- Ordering `x` closes one dependency of each of its dependents. -/
theorem pending_append (hdeps : ∀ n, (deps n).Nodup) {order : List K} {x : K}
    (hx : x ∉ order) (n : K) :
    (pending deps (order ++ [x]) n).length =
      if x ∈ deps n then (pending deps order n).length - 1 else (pending deps order n).length := by
  have hfilter : pending deps (order ++ [x]) n = (pending deps order n).filter (· != x) := by
    simp only [pending, List.filter_filter]
    congr 1
    funext d
    by_cases hd : d = x <;> simp [hd]
  rw [hfilter]
  split
  · rename_i hmem
    have herase := List.Nodup.erase_eq_filter ((hdeps n).filter fun d => d ∉ order) x
    rw [pending, ← herase, List.length_erase_of_mem]
    simp [hmem, hx]
  · rename_i hmem
    rw [List.filter_eq_self.mpr]
    intro d hd
    rw [bne_iff_ne]
    rintro rfl
    exact hmem (List.mem_filter.mp hd).1

theorem Inv.turn (hnodup : nodes.Nodup) (hdeps : ∀ n, (deps n).Nodup) {s : State K}
    (h : Inv nodes deps s) {x : K} {rest : List K} (hready : s.ready = x :: rest) :
    ∃ s', (dependents nodes deps x).foldlM release { s with
      ready := rest, order := s.order ++ [x] } =
      .ok s' ∧ Inv nodes deps s' ∧ s'.order = s.order ++ [x] := by
  obtain ⟨hxnodes, hxorder, hxzero⟩ := (h.ready x).mp (by simp [hready])
  have hsorted := h.sorted
  rw [hready] at hsorted
  obtain ⟨hxrest, hrest⟩ := List.pairwise_cons.mp hsorted
  have hxopen : ∀ d ∈ deps x, d ∈ s.order := by
    intro d hd
    have hzero := (h.count x hxnodes).symm.trans hxzero
    rw [List.length_eq_zero_iff, pending, List.filter_eq_nil_iff] at hzero
    simpa using hzero d hd
  have hcount : ∀ d ∈ dependents nodes deps x, 0 < s.incoming d := by
    intro d hd
    obtain ⟨hdnodes, hxd⟩ := mem_dependents.mp hd
    rw [h.count d hdnodes]
    exact List.length_pos_of_mem (List.mem_filter.mpr ⟨hxd, by simpa using hxorder⟩)
  have hdependents : (dependents nodes deps x).Nodup := hnodup.filter _
  obtain ⟨s', hs', horder, hsorted', hincoming, hmem⟩ := foldlM_release
    (s := { s with ready := rest, order := s.order ++ [x] }) hdependents hcount hrest
  have hcount' : ∀ n ∈ nodes, s'.incoming n = (pending deps s'.order n).length := by
    intro n hn
    rw [hincoming n, horder, pending_append hdeps hxorder, h.count n hn]
    by_cases hxn : x ∈ deps n
    · rw [if_pos (mem_dependents.mpr ⟨hn, hxn⟩), if_pos hxn]
    · rw [if_neg fun hmem => hxn (mem_dependents.mp hmem).2, if_neg hxn]
  refine ⟨s', hs', ⟨?_, ?_, hsorted', hcount', fun n => ?_, ?_⟩, horder⟩
  · rw [horder]
    exact List.nodup_append.mpr ⟨h.nodup, List.nodup_singleton x, by
      intro a ha b hb
      rw [List.mem_singleton.mp hb]
      rintro rfl
      exact hxorder ha⟩
  · intro n hn
    rw [horder] at hn
    rcases List.mem_append.mp hn with hn | hn
    · exact h.mem n hn
    · rw [List.mem_singleton.mp hn]
      exact hxnodes
  · rw [hmem n, horder]
    dsimp only
    have hxn : n ∈ rest → n ≠ x := fun hn he => (lt_irrefl x) (hxrest x (he ▸ hn))
    constructor
    · rintro (hn | ⟨hn, hone⟩)
      · obtain ⟨hnodes, hnorder, hzero⟩ := (h.ready n).mp (by simp [hready, hn])
        refine ⟨hnodes, by simp [hnorder, hxn hn], ?_⟩
        rw [hincoming n]
        dsimp only
        rw [hzero]
        split <;> rfl
      · obtain ⟨hnnodes, hxdep⟩ := mem_dependents.mp hn
        refine ⟨hnnodes, ?_, ?_⟩
        · rw [List.mem_append, List.mem_singleton]
          rintro (hno | rfl)
          · obtain ⟨earlier, later, he⟩ := List.append_of_mem hno
            have := h.topological earlier n later he x hxdep
            exact hxorder (by rw [he]; exact List.mem_append_left _ this)
          · exact hxorder (hxopen n hxdep)
        · rw [hincoming n, if_pos hn]
          dsimp only
          rw [hone]
    · rintro ⟨hnnodes, hnorder, hzero⟩
      rw [List.mem_append, not_or, List.mem_singleton] at hnorder
      rw [hincoming n] at hzero
      dsimp only at hzero
      by_cases hdep : n ∈ dependents nodes deps x
      · rw [if_pos hdep] at hzero
        have := hcount n hdep
        exact .inr ⟨hdep, by omega⟩
      · rw [if_neg hdep] at hzero
        have := (h.ready n).mpr ⟨hnnodes, hnorder.1, hzero⟩
        rw [hready, List.mem_cons] at this
        exact .inl (this.resolve_left hnorder.2)
  · intro earlier n later he d hd
    rw [horder] at he
    rcases List.eq_nil_or_concat later with rfl | ⟨later', last, rfl⟩
    · obtain ⟨rfl, hn⟩ := List.append_inj' he rfl
      cases hn
      exact hxopen d hd
    · rw [List.concat_eq_append, ← List.cons_append, ← List.append_assoc] at he
      exact h.topological earlier n later' (List.append_inj' he rfl).1 d hd

theorem Inv.order_length {s : State K} (h : Inv nodes deps s) :
    s.order.length + s.ready.length ≤ nodes.length := by
  have hready : s.ready.Nodup := h.sorted.imp fun hlt => ne_of_lt hlt
  have hdisjoint : List.Disjoint s.order s.ready := fun n ho hr => ((h.ready n).mp hr).2.1 ho
  have hsub : s.order ++ s.ready ⊆ nodes := by
    intro n hn
    rcases List.mem_append.mp hn with hn | hn
    · exact h.mem n hn
    · exact ((h.ready n).mp hn).1
  have hall := (List.nodup_append'.mpr ⟨h.nodup, hready, hdisjoint⟩).subperm hsub
  simpa using hall.length_le

/-- The loop always ends with an empty worklist. -/
theorem loop_spec (hnodup : nodes.Nodup) (hdeps : ∀ n, (deps n).Nodup) {fuel : Nat} {s : State K}
    (h : Inv nodes deps s) (hfuel : nodes.length ≤ s.order.length + fuel) :
    ∃ s', loop nodes deps fuel s = .ok s' ∧ Inv nodes deps s' ∧ s'.ready = [] := by
  induction fuel generalizing s with
  | zero =>
    have := h.order_length
    exact ⟨s, rfl, h, List.length_eq_zero_iff.mp (by omega)⟩
  | succ fuel ih =>
    cases hready : s.ready with
    | nil => exact ⟨s, by rw [loop, hready], h, hready⟩
    | cons x rest =>
      obtain ⟨s', hs', hinv, horder⟩ := h.turn hnodup hdeps hready
      obtain ⟨final, hfinal, hdone⟩ := ih hinv (by simp [horder]; omega)
      refine ⟨final, ?_, hdone⟩
      rw [loop, hready]
      simp only [hs', ok_bind]
      exact hfinal

/-! ## Order and cycles -/

/-- `a` depends on `b`. -/
def DependsOn (deps : K → List K) (a b : K) : Prop := b ∈ deps a

/-- Some key depends on itself, directly or through others. -/
def Cyclic (nodes : List K) (deps : K → List K) : Prop :=
  ∃ n ∈ nodes, Relation.TransGen (DependsOn deps) n n

/-- A finite set in which every key has a dependency has a cycle. -/
theorem cyclic_of_open {rest : List K} (hne : rest ≠ []) (hsub : ∀ n ∈ rest, n ∈ nodes)
    (hopen : ∀ n ∈ rest, ∃ d ∈ rest, DependsOn deps n d) : Cyclic nodes deps := by
  by_contra hacyclic
  obtain ⟨first, hfirst⟩ := List.exists_mem_of_ne_nil rest hne
  let r : {n // n ∈ rest} → {n // n ∈ rest} → Prop :=
    fun a b => Relation.TransGen (DependsOn deps) b.1 a.1
  have : IsTrans _ r := ⟨fun a b c hab hbc => hbc.trans hab⟩
  have : Std.Irrefl r := ⟨fun a ha => hacyclic ⟨a.1, hsub _ a.2, ha⟩⟩
  have hwf : WellFounded r := Finite.wellFounded_of_trans_of_irrefl r
  obtain ⟨least, -, hleast⟩ := hwf.has_min Set.univ ⟨⟨first, hfirst⟩, trivial⟩
  obtain ⟨d, hd, hdep⟩ := hopen least.1 least.2
  exact hleast ⟨d, hd⟩ trivial (.single hdep)

/-- A list that puts dependencies first leaves no room for a cycle. -/
theorem acyclic_of_topological {order : List K} (hmem : ∀ n ∈ nodes, n ∈ order)
    (hnodup : order.Nodup) (hclosed : ∀ n ∈ nodes, ∀ d ∈ deps n, d ∈ nodes)
    (htop : ∀ earlier n later, order = earlier ++ n :: later → ∀ d ∈ deps n, d ∈ earlier) :
    ¬ Cyclic nodes deps := by
  have hlt : ∀ a ∈ nodes, ∀ b, DependsOn deps a b → order.idxOf b < order.idxOf a := by
    intro a ha b hb
    obtain ⟨earlier, later, he⟩ := List.append_of_mem (hmem a ha)
    have hbe := htop earlier a later he b hb
    have hae : a ∉ earlier := fun hmem => by
      rw [he] at hnodup
      exact (List.nodup_append'.mp hnodup).2.2 hmem (by simp)
    rw [he, List.idxOf_append_of_mem hbe, List.idxOf_append_of_notMem hae]
    have := List.idxOf_lt_length_of_mem hbe
    omega
  rintro ⟨n, hn, hcycle⟩
  have hdescend : ∀ b, Relation.TransGen (DependsOn deps) n b →
      b ∈ nodes ∧ order.idxOf b < order.idxOf n := by
    intro b hb
    induction hb with
    | single h => exact ⟨hclosed n hn _ h, hlt n hn _ h⟩
    | tail _ h ih => exact ⟨hclosed _ ih.1 _ h, (hlt _ ih.1 _ h).trans ih.2⟩
  exact lt_irrefl _ (hdescend n hcycle).2

/-- What the order says about the graph. -/
theorem ordered_spec (hsorted : nodes.Pairwise (· < ·)) (hdeps : ∀ n, (deps n).Nodup)
    (hclosed : ∀ n ∈ nodes, ∀ d ∈ deps n, d ∈ nodes) :
    ∃ order, ordered nodes deps = .ok order ∧ (order.length ≠ nodes.length ↔ Cyclic nodes deps) ∧
      (order.length = nodes.length → order.Perm nodes) ∧
      ∀ earlier n later, order = earlier ++ n :: later → ∀ d ∈ deps n, d ∈ earlier := by
  have hnodup : nodes.Nodup := hsorted.imp fun hlt => ne_of_lt hlt
  have hloop : ∃ s, loop nodes deps nodes.length (initial nodes deps) = .ok s ∧ Inv nodes deps s ∧
      s.ready = [] := loop_spec hnodup hdeps (initial_inv hsorted) (by simp)
  obtain ⟨s, hs, hinv, hempty⟩ := hloop
  have hsub : s.order.Subperm nodes := hinv.nodup.subperm hinv.mem
  have hperm : s.order.length = nodes.length → s.order.Perm nodes :=
    fun hlen => hsub.perm_of_length_le hlen.ge
  refine ⟨s.order, by rw [ordered, hs]; rfl, ⟨fun hne => ?_, fun hcyclic hlen => ?_⟩, hperm,
    hinv.topological⟩
  · have hrest : ∀ n ∈ nodes.filter (· ∉ s.order), n ∈ nodes :=
      fun n hn => (List.mem_filter.mp hn).1
    refine cyclic_of_open ?_ hrest ?_
    · intro hnil
      rw [List.filter_eq_nil_iff] at hnil
      have hall : nodes ⊆ s.order := fun n hn => by simpa using hnil n hn
      have := (hnodup.subperm hall).length_le
      have := hsub.length_le
      omega
    · intro n hn
      obtain ⟨hnnodes, hnorder⟩ := List.mem_filter.mp hn
      have hcount : s.incoming n ≠ 0 := fun hzero => by
        have := (hinv.ready n).mpr ⟨hnnodes, by simpa using hnorder, hzero⟩
        simp [hempty] at this
      rw [hinv.count n hnnodes] at hcount
      obtain ⟨d, hd⟩ := List.exists_mem_of_length_pos (Nat.pos_of_ne_zero hcount)
      obtain ⟨hdep, hdorder⟩ := List.mem_filter.mp hd
      exact ⟨d, List.mem_filter.mpr ⟨hclosed n hnnodes d hdep, hdorder⟩, hdep⟩
  · exact acyclic_of_topological (fun n hn => (hperm hlen).mem_iff.mpr hn) hinv.nodup hclosed
      hinv.topological hcyclic

end

end Xcelerator.Foundations.TopologicalOrder
