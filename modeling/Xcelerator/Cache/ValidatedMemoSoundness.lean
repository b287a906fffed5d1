import Mathlib
import Xcelerator.Cache.ValidatedMemo

/-! # The memo is a least-recently-used cache

The recency map lists the stored entries by their last use, the byte counter is
their total, and so every run of the memo is a run of the cache it stands for. -/

namespace Xcelerator.Cache.ValidatedMemo
open Xcelerator.Foundations.Machine Xcelerator.Foundations

section
variable {TypeId Artifact Digest : Type} [DecidableEq TypeId] [DecidableEq Artifact]
    [DecidableEq Digest]
variable {Val : TypeId → Type}

/-! ## Maps -/

theorem find_eq_some {entries : List (Key TypeId Artifact Digest × Entry Val)}
    (h : (entries.map Prod.fst).Nodup)
    {k : Key TypeId Artifact Digest} {e : Entry Val} :
    find entries k = some e ↔ (k, e) ∈ entries := by
  induction entries with
  | nil => simp [find]
  | cons entry entries ih =>
    rw [List.map_cons, List.nodup_cons] at h
    by_cases hk : entry.1 = k
    · have hhead : find (entry :: entries) k = some entry.2 := by simp [find, hk]
      rw [hhead]
      constructor
      · intro heq
        rw [← hk, ← Option.some.inj heq]
        exact List.mem_cons_self
      · intro hmem
        rcases List.mem_cons.mp hmem with heq | hmem
        · rw [← heq]
        · exact absurd (List.mem_map.mpr ⟨_, hmem, hk.symm⟩) h.1
    · have hhead : find (entry :: entries) k = find entries k := by simp [find, hk]
      rw [hhead, ih h.2, List.mem_cons]
      constructor
      · exact .inr
      · rintro (rfl | hmem)
        · exact absurd rfl hk
        · exact hmem

theorem find_remove {entries : List (Key TypeId Artifact Digest × Entry Val)}
    {k k' : Key TypeId Artifact Digest}
    (h : k' ≠ k) : find (remove entries k) k' = find entries k' := by
  rw [find, find, remove, List.find?_filter]
  congr 1
  refine List.find?_congr fun entry _ => ?_
  by_cases hk : entry.1 = k'
  · simp [hk, h]
  · simp [hk]

theorem find_setSequence (entries : List (Key TypeId Artifact Digest × Entry Val))
    (k k' : Key TypeId Artifact Digest)
    (sequence : Nat) : find (setSequence entries k sequence) k' =
      (find entries k').map fun e => if k' = k then { e with sequence := sequence } else e := by
  induction entries with
  | nil => rfl
  | cons entry entries ih =>
    by_cases hk' : entry.1 = k'
    · by_cases hk : entry.1 = k
      · simp [find, setSequence, hk, ← hk']
      · simp [find, setSequence, hk, ← hk']
    · have htail : find (entry :: entries) k' = find entries k' := by simp [find, hk']
      have hhead : find (setSequence (entry :: entries) k sequence) k' =
          find (setSequence entries k sequence) k' := by
        by_cases hk : entry.1 = k
        · simp [find, setSequence, hk, hk ▸ hk']
        · simp [find, setSequence, hk, hk']
      rw [hhead, htail, ih]

/-- A stored entry and the others. -/
theorem perm_remove {entries : List (Key TypeId Artifact Digest × Entry Val)}
    (h : (entries.map Prod.fst).Nodup)
    {k : Key TypeId Artifact Digest} {e : Entry Val} (hmem : (k, e) ∈ entries) :
    entries.Perm ((k, e) :: remove entries k) := by
  induction entries with
  | nil => cases hmem
  | cons entry entries ih =>
    rw [List.map_cons, List.nodup_cons] at h
    rcases List.mem_cons.mp hmem with rfl | hmem
    · have hrest : remove ((k, e) :: entries) k = entries := by
        rw [remove, List.filter_cons_of_neg (by simp)]
        refine List.filter_eq_self.mpr fun other hother => ?_
        have hne : other.1 ≠ k := fun heq => h.1 (List.mem_map.mpr ⟨other, hother, heq⟩)
        simpa using hne
      rw [hrest]
    · have hne : entry.1 ≠ k := fun heq => h.1 (List.mem_map.mpr ⟨_, hmem, heq.symm⟩)
      have hrest : remove (entry :: entries) k = entry :: remove entries k := by
        rw [remove, List.filter_cons_of_pos (by simpa using hne), remove]
      rw [hrest]
      exact ((ih h.2 hmem).cons entry).trans (List.Perm.swap _ _ _)

theorem perm_setSequence {entries : List (Key TypeId Artifact Digest × Entry Val)}
    (h : (entries.map Prod.fst).Nodup) {k : Key TypeId Artifact Digest} {e : Entry Val}
    (hmem : (k, e) ∈ entries) (sequence : Nat) :
    (setSequence entries k sequence).Perm
      ((k, { e with sequence := sequence }) :: remove entries k) := by
  have hmapped := (perm_remove h hmem).map fun entry =>
    if entry.1 = k then (entry.1, { entry.2 with sequence := sequence }) else entry
  have hrest : (remove entries k).map (fun entry =>
      if entry.1 = k then (entry.1, { entry.2 with sequence := sequence }) else
        entry) = remove entries k := by
    refine (List.map_congr_left fun entry hentry => ?_).trans (List.map_id _)
    have hne : entry.1 ≠ k := by simpa using (List.mem_filter.mp hentry).2
    rw [if_neg hne]
    rfl
  rw [List.map_cons, if_pos rfl, hrest] at hmapped
  exact hmapped

omit [DecidableEq TypeId] [DecidableEq Artifact] [DecidableEq Digest] in
theorem insertRecency_last {recency : List (Nat × Key TypeId Artifact Digest)} {sequence : Nat}
    (h : ∀ r ∈ recency, r.1 < sequence) (k : Key TypeId Artifact Digest) :
    insertRecency recency sequence k = recency ++ [(sequence, k)] := by
  have hbelow : recency.filter (fun r => r.1 < sequence) = recency :=
    List.filter_eq_self.mpr fun r hr => by simpa using h r hr
  have habove : recency.filter (fun r => sequence < r.1) = [] :=
    List.filter_eq_nil_iff.mpr fun r hr => by simpa using (h r hr).le
  rw [insertRecency, hbelow, habove]

/-! ## Items -/

def itemOf (entries : List (Key TypeId Artifact Digest × Entry Val))
    (r : Nat × Key TypeId Artifact Digest) :
    Option (Item Artifact Digest Val) := (find entries r.2).map fun e => ⟨r.2, e.value, e.bytes⟩

/-- The stored values in the order of the recency map. -/
def itemsOf (recency : List (Nat × Key TypeId Artifact Digest))
    (entries : List (Key TypeId Artifact Digest × Entry Val)) : Recent Artifact Digest Val :=
  recency.filterMap (itemOf entries)

def Memo.items (m : Memo Artifact Digest Val) : Recent Artifact Digest Val :=
  itemsOf m.recency m.entries

/-- The recency map is the bijection of the stored entries by their sequence numbers, and the
counter is their total, within the budget. -/
structure Linked (maximum : Nat) (recency : List (Nat × Key TypeId Artifact Digest))
    (entries : List (Key TypeId Artifact Digest × Entry Val)) (retained : Nat) : Prop where
  sorted : recency.Pairwise fun a b => a.1 < b.1
  keys : (entries.map Prod.fst).Nodup
  bijection : recency.Perm (entries.map fun entry => (entry.2.sequence, entry.1))
  retained_eq : retained = (entries.map fun entry => entry.2.bytes).sum
  within : retained ≤ maximum

namespace Linked
variable {maximum retained : Nat} {recency : List (Nat × Key TypeId Artifact Digest)}
  {entries : List (Key TypeId Artifact Digest × Entry Val)}

theorem stored (h : Linked maximum recency entries retained) {r : Nat × Key TypeId Artifact Digest}
    (hr : r ∈ recency) : ∃ e, find entries r.2 = some e ∧ e.sequence = r.1 := by
  obtain ⟨entry, hentry, rfl⟩ := List.mem_map.mp (h.bijection.mem_iff.mp hr)
  exact ⟨entry.2, (find_eq_some h.keys).mpr hentry, rfl⟩

theorem listed (h : Linked maximum recency entries retained) {k : Key TypeId Artifact Digest}
    {e : Entry Val} (hk : find entries k = some e) : (e.sequence, k) ∈ recency :=
  h.bijection.mem_iff.mpr (List.mem_map.mpr ⟨(k, e), (find_eq_some h.keys).mp hk, rfl⟩)

omit [DecidableEq TypeId] [DecidableEq Artifact] [DecidableEq Digest] in
theorem keys_recency (h : Linked maximum recency entries retained) :
    (recency.map Prod.snd).Nodup := by
  rw [(h.bijection.map Prod.snd).nodup_iff, List.map_map]
  exact h.keys

theorem items_perm (h : Linked maximum recency entries retained) :
    (itemsOf recency entries).Perm (entries.map fun entry =>
      ⟨entry.1, entry.2.value, entry.2.bytes⟩) := by
  have hperm := h.bijection.filterMap (itemOf entries)
  rw [List.filterMap_map] at hperm
  have hall : entries.filterMap (itemOf entries ∘ fun entry => (entry.2.sequence, entry.1)) =
      entries.map fun entry => ⟨entry.1, entry.2.value, entry.2.bytes⟩ := by
    rw [← List.filterMap_eq_map]
    refine List.filterMap_congr fun entry hentry => ?_
    rw [Function.comp_apply, itemOf, (find_eq_some h.keys).mpr hentry]
    rfl
  rwa [hall] at hperm

theorem total_items (h : Linked maximum recency entries retained) :
    LeastRecent.total Item.bytes (itemsOf recency entries) = retained := by
  rw [LeastRecent.total, (h.items_perm.map Item.bytes).sum_eq, List.map_map, h.retained_eq]
  rfl

/-- The cache finds what the map of entries holds. -/
theorem find_items (h : Linked maximum recency entries retained) (k : Key TypeId Artifact Digest) :
    Recent.find (itemsOf recency entries) k = (find entries k).map fun e =>
    ⟨k, e.value, e.bytes⟩ := by
  cases hfound : Recent.find (itemsOf recency entries) k with
  | none =>
    cases hk : find entries k with
    | none => rfl
    | some e =>
      have hitem : (⟨k, e.value, e.bytes⟩ : Item Artifact Digest Val) ∈ itemsOf recency entries :=
        List.mem_filterMap.mpr ⟨_, h.listed hk, by rw [itemOf, hk]; rfl⟩
      exact absurd (List.find?_eq_none.mp hfound _ hitem) (by simp)
  | some item =>
    obtain ⟨r, -, hr⟩ := List.mem_filterMap.mp (List.mem_of_find?_eq_some hfound)
    have hkey : item.key = k := by simpa using List.find?_some hfound
    obtain ⟨e, he, rfl⟩ := Option.map_eq_some_iff.mp hr
    simp only at hkey
    rw [← hkey, he]
    rfl

/-- Popping the oldest entry. -/
theorem pop {sequence : Nat} {k : Key TypeId Artifact Digest}
    (h : Linked maximum ((sequence, k) :: recency) entries retained) :
    ∃ e, find entries k = some e ∧ e.bytes ≤ retained ∧
      Linked maximum recency (remove entries k) (retained - e.bytes) ∧
      itemsOf ((sequence, k) :: recency) entries = ⟨k, e.value, e.bytes⟩ :: itemsOf recency
        (remove entries k) := by
  obtain ⟨e, he, hsequence⟩ := h.stored List.mem_cons_self
  simp only at he hsequence
  have hsplit := perm_remove h.keys ((find_eq_some h.keys).mp he)
  have hsum : retained = e.bytes + ((remove entries k).map fun entry => entry.2.bytes).sum := by
    rw [h.retained_eq, (hsplit.map fun entry => entry.2.bytes).sum_eq, List.map_cons, List.sum_cons]
  have hpairs := h.bijection.trans (hsplit.map fun entry => (entry.2.sequence, entry.1))
  rw [List.map_cons, hsequence] at hpairs
  refine ⟨e, he, by omega, ⟨h.sorted.tail, ?_, hpairs.cons_inv, by omega, ?_⟩, ?_⟩
  · exact h.keys.sublist (List.filter_sublist.map _)
  · have := h.within
    omega
  · have hkeys := h.keys_recency
    rw [List.map_cons, List.nodup_cons] at hkeys
    have hhead : itemOf entries (sequence, k) = some ⟨k, e.value, e.bytes⟩ := by
      rw [itemOf, he]
      rfl
    rw [itemsOf, List.filterMap_cons_some hhead, itemsOf]
    congr 1
    refine List.filterMap_congr fun r hr => ?_
    have hne : r.2 ≠ k := fun heq => hkeys.1 (List.mem_map.mpr ⟨r, hr, heq⟩)
    rw [itemOf, itemOf, find_remove hne]

end Linked

/-! ## Eviction -/

/-- The loop drops the oldest items, as few as the budget allows, and then there is room. -/
theorem makeRoom_ok {maximum bytes : Nat} (hbytes : bytes ≤ maximum)
    {recency : List (Nat × Key TypeId Artifact Digest)}
    {entries : List (Key TypeId Artifact Digest × Entry Val)}
    {retained : Nat} (h : Linked maximum recency entries retained) (evicted : List (Entry Val)) :
    ∃ room gone, makeRoom maximum bytes recency entries retained evicted = .ok room ∧
      Linked maximum room.recency room.entries room.retained ∧ room.recency.Sublist recency ∧
      room.entries.Sublist entries ∧ bytes ≤ maximum - room.retained ∧
      itemsOf room.recency room.entries = LeastRecent.makeRoom Item.bytes maximum bytes
        (itemsOf recency entries) ∧
      room.evicted = evicted ++ gone ∧
      gone.map (fun e => (e.value, e.bytes)) = ((itemsOf recency entries).take
        (LeastRecent.excess Item.bytes maximum bytes (itemsOf recency entries))).map fun item =>
        (item.value, item.bytes) := by
  induction recency generalizing entries retained evicted with
  | nil =>
    have hzero : retained = 0 := by
      rw [← h.total_items]
      rfl
    exact ⟨⟨[], entries, retained, evicted⟩, [], rfl, h, .slnil, .refl _, by
      simp only; omega, rfl, by simp, rfl⟩
  | cons r recency ih =>
    have htotal := h.total_items
    have hwithin := h.within
    obtain ⟨e, he, hle, hrest, hitems⟩ := h.pop
    rw [makeRoom, hitems, LeastRecent.makeRoom_cons, LeastRecent.excess, ← hitems, htotal]
    by_cases hover : bytes > maximum - retained
    · obtain ⟨room, gone, hroom, hlinked, hsub, hsubEntries, hfree, hkept, hevicted, hgone⟩ :=
        ih hrest (evicted ++ [e])
      rw [if_pos hover, he, if_neg (by omega), if_neg (by omega)]
      refine ⟨room, e :: gone, ?_, hlinked, hsub.cons r, hsubEntries.trans List.filter_sublist,
        hfree, hkept, ?_, ?_⟩
      · simp only [subtract_ok hle, ok_bind, hroom]
      · rw [hevicted, List.append_assoc]
        rfl
      · rw [hitems, List.take_succ_cons, List.map_cons, List.map_cons, hgone]
    · rw [if_neg hover, if_pos (by omega), if_pos (by omega)]
      exact ⟨_, [], rfl, h, .refl _, .refl _, by simp only; omega, rfl, by simp, rfl⟩

/-! ## Runs -/

/-- An entry that one of the operations inserted, under the key that it stands at. -/
def Inserted (operations : List (Operation Artifact Digest Val)) (k : Key TypeId Artifact Digest)
    (e : Entry Val) : Prop :=
  ∃ binding artifact digest context, Operation.insert binding artifact digest context e.value ∈
    operations ∧
    k = binding.key e.value.1 artifact digest context ∧ binding.size e.value = some e.bytes

structure Inv (maximum : Nat) (operations : List (Operation Artifact Digest Val))
    (m : Memo Artifact Digest Val) : Prop where
  linked : Linked maximum m.recency m.entries m.retained
  fresh : ∀ r ∈ m.recency, r.1 < m.next
  next_le : m.next ≤ operations.length
  inserted : ∀ k e, find m.entries k = some e → Inserted operations k e

omit [DecidableEq TypeId] [DecidableEq Artifact] [DecidableEq Digest] in
theorem Inserted.append {operations : List (Operation Artifact Digest Val)}
    {k : Key TypeId Artifact Digest}
    {e : Entry Val} (h : Inserted operations k e) (operation : Operation Artifact Digest Val) :
    Inserted (operations ++ [operation]) k e := by
  obtain ⟨binding, artifact, digest, context, hmem, hkey⟩ := h
  exact ⟨binding, artifact, digest, context, List.mem_append_left _ hmem, hkey⟩

theorem Inv.append {maximum : Nat} {operations : List (Operation Artifact Digest Val)}
    {m : Memo Artifact Digest Val}
    (h : Inv maximum operations m) (operation : Operation Artifact Digest Val) :
    Inv maximum (operations ++ [operation]) m where
  linked := h.linked
  fresh := h.fresh
  next_le := by
    have := h.next_le
    rw [List.length_append]
    omega
  inserted k e hk := (h.inserted k e hk).append operation

/-- A used entry moves to the end of the order. -/
theorem Inv.touch {maximum : Nat} {operations : List (Operation Artifact Digest Val)}
    {m : Memo Artifact Digest Val}
    (h : Inv maximum operations m) {k : Key TypeId Artifact Digest} {e : Entry Val}
    (hk : find m.entries k = some e) (operation : Operation Artifact Digest Val) :
    Inv maximum (operations ++ [operation]) { m with
      entries := setSequence m.entries k m.next
      recency := insertRecency (m.recency.filter fun r => r.1 ≠ e.sequence) m.next k
      next := m.next + 1 } ∧
    itemsOf (insertRecency (m.recency.filter fun r => r.1 ≠ e.sequence) m.next k)
      (setSequence m.entries k m.next) =
      LeastRecent.touch Item.key k m.items := by
  have hsplit := perm_remove h.linked.keys ((find_eq_some h.linked.keys).mp hk)
  have hset := perm_setSequence h.linked.keys ((find_eq_some h.linked.keys).mp hk) m.next
  have hkept : ∀ r ∈ m.recency.filter (fun r => r.1 ≠ e.sequence), r.1 < m.next :=
    fun r hr => h.fresh r (List.mem_filter.mp hr).1
  have hpairs := h.linked.bijection.trans (hsplit.map fun entry => (entry.2.sequence, entry.1))
  rw [List.map_cons] at hpairs
  have hfirst : (m.recency.map Prod.fst).Nodup :=
    (List.pairwise_map.mpr h.linked.sorted).imp fun hlt => hlt.ne
  rw [insertRecency_last hkept]
  -- the entry's own position is the only one with its sequence number
  have hothers : (m.recency.filter fun r => r.1 ≠ e.sequence).Perm
      ((remove m.entries k).map fun entry => (entry.2.sequence, entry.1)) := by
    have hnodup := (hpairs.map Prod.fst).nodup_iff.mp hfirst
    rw [List.map_cons, List.nodup_cons] at hnodup
    have hfilter := hpairs.filter fun r => r.1 ≠ e.sequence
    rw [List.filter_cons_of_neg (by simp)] at hfilter
    refine hfilter.trans (List.Perm.of_eq (List.filter_eq_self.mpr fun r hr => ?_))
    have hne : r.1 ≠ e.sequence := fun heq => hnodup.1 (List.mem_map.mpr ⟨r, hr, heq⟩)
    simpa using hne
  have hfind : ∀ r, itemOf (setSequence m.entries k m.next) r = itemOf m.entries r := by
    intro r
    rw [itemOf, itemOf, find_setSequence, Option.map_map]
    congr 1
    funext found
    rw [Function.comp_apply]
    split <;> rfl
  refine ⟨⟨⟨?_, ?_, ?_, ?_, h.linked.within⟩, ?_, ?_, ?_⟩, ?_⟩
  · rw [List.pairwise_append]
    refine ⟨h.linked.sorted.filter _, List.pairwise_singleton _ _, fun a ha b hb => ?_⟩
    rw [List.mem_singleton.mp hb]
    exact hkept a ha
  · rw [(hset.map Prod.fst).nodup_iff]
    exact (hsplit.map Prod.fst).nodup_iff.mp h.linked.keys
  · refine (List.perm_append_comm.trans ?_).trans (hset.map _).symm
    rw [List.map_cons, List.singleton_append]
    exact hothers.cons _
  · rw [h.linked.retained_eq, (hset.map _).sum_eq, (hsplit.map _).sum_eq]
    rfl
  · intro r hr
    simp only at hr ⊢
    rcases List.mem_append.mp hr with hr | hr
    · have := hkept r hr
      omega
    · rw [List.mem_singleton.mp hr]
      exact Nat.lt_succ_self _
  · have := h.next_le
    rw [List.length_append]
    simp only [List.length_singleton]
    omega
  · intro k' e' hk'
    simp only at hk'
    rw [find_setSequence] at hk'
    obtain ⟨found, hfound, rfl⟩ := Option.map_eq_some_iff.mp hk'
    have hold := (h.inserted k' found hfound).append operation
    split
    · exact hold
    · exact hold
  · have hitems : itemsOf (m.recency.filter (fun r => r.1 ≠ e.sequence) ++ [(m.next, k)])
        (setSequence m.entries k m.next) =
        itemsOf (m.recency.filter fun r => r.1 ≠ e.sequence) m.entries ++
        [⟨k, e.value, e.bytes⟩] := by
      rw [itemsOf, List.filterMap_append, itemsOf]
      congr 1
      · exact List.filterMap_congr fun r _ => hfind r
      · have hlast : itemOf (setSequence m.entries k m.next) (m.next, k) = some ⟨k, e.value,
            e.bytes⟩ := by
          rw [hfind, itemOf, hk]
          rfl
        rw [List.filterMap_cons_some hlast]
        rfl
    have hfound : m.items.find? (fun item => item.key = k) = some ⟨k, e.value, e.bytes⟩ := by
      have := h.linked.find_items k
      rw [hk] at this
      exact this
    rw [LeastRecent.touch, hfound, hitems]
    simp only
    congr 1
    rw [Memo.items, itemsOf, itemsOf, List.filter_filterMap, List.filterMap_filter]
    refine List.filterMap_congr fun r hr => ?_
    obtain ⟨found, hstored, hsequence⟩ := h.linked.stored hr
    by_cases heq : r.2 = k
    · obtain rfl : found = e := by
        rw [heq, hk] at hstored
        exact (Option.some.inj hstored).symm
      simp [itemOf, heq, hk, hsequence, Option.filter]
    · have hne : r.1 ≠ e.sequence := by
        intro hsame
        have hposition : r = (e.sequence, k) :=
          List.inj_on_of_nodup_map hfirst hr (h.linked.listed hk) hsame
        exact heq (by rw [hposition])
      simp [itemOf, hstored, heq, hne, Option.filter]

/-- Room is made and the value goes to the end of the order. -/
theorem Inv.insert {maximum : Nat} (hmaximum : maximum < 2 ^ 64)
    {operations : List (Operation Artifact Digest Val)}
    {m : Memo Artifact Digest Val} (h : Inv maximum operations m) (binding : Binding Val)
    (artifact : Artifact)
    (digest : Digest) (context : String) (value : Any Val) {bytes : Nat}
    (hsize : binding.size value = some bytes)
    (hbytes : bytes ≤ maximum)
    (hnew : find m.entries (binding.key value.1 artifact digest context) = none)
    (hnext : m.next + 1 < 2 ^ 64) :
    ∃ later, binding.insert maximum artifact digest context value m = .ok later ∧
      Inv maximum (operations ++ [.insert binding artifact digest context value]) later ∧
      later.items = LeastRecent.makeRoom Item.bytes maximum bytes m.items ++
        [⟨binding.key value.1 artifact digest context, value, bytes⟩] := by
  obtain ⟨room, gone, hroom, hlinked, hsub, hsubEntries, hfree, hitems, -, -⟩ :=
    makeRoom_ok hbytes h.linked []
  have hwithin := hlinked.within
  have hretained : room.retained + bytes < 2 ^ 64 := by omega
  have hfresh : ∀ r ∈ room.recency, r.1 < m.next := fun r hr => h.fresh r (hsub.subset hr)
  have hkept : ∀ k e, find room.entries k = some e → find m.entries k = some e := fun k e hk =>
    (find_eq_some h.linked.keys).mpr (hsubEntries.subset ((find_eq_some hlinked.keys).mp hk))
  have habsent : find room.entries (binding.key value.1 artifact digest context) = none := by
    cases hk : find room.entries (binding.key value.1 artifact digest context) with
    | none => rfl
    | some e => rw [hkept _ e hk] at hnew; cases hnew
  generalize hkey : binding.key value.1 artifact digest context = key at hnew habsent ⊢
  have hfind : ∀ k, find ((key, (⟨value, bytes, m.next⟩ : Entry Val)) :: room.entries) k =
      if key = k then some ⟨value, bytes, m.next⟩ else find room.entries k := by
    intro k
    by_cases hk : key = k
    · simp [find, hk]
    · simp [find, hk]
  refine ⟨⟨(key, ⟨value, bytes, m.next⟩) :: room.entries, insertRecency room.recency m.next key,
    room.retained + bytes, m.next + 1⟩, ?_, ⟨⟨?_, ?_, ?_, ?_, ?_⟩, ?_, ?_, ?_⟩, ?_⟩
  · rw [Binding.insert, hsize]
    simp only [if_neg (Nat.not_lt.mpr hbytes), hkey, hnew, Option.isSome_none, Bool.false_eq_true,
      if_false, hroom, ok_bind, unsigned_ok hnext, unsigned_ok hretained]
    rfl
  · simp only
    rw [insertRecency_last hfresh, List.pairwise_append]
    refine ⟨hlinked.sorted, List.pairwise_singleton _ _, fun a ha b hb => ?_⟩
    rw [List.mem_singleton.mp hb]
    exact hfresh a ha
  · rw [List.map_cons, List.nodup_cons]
    refine ⟨fun hmem => ?_, hlinked.keys⟩
    obtain ⟨entry, hentry, heq⟩ := List.mem_map.mp hmem
    have hpair : (key, entry.2) = entry := Prod.ext heq.symm rfl
    have hstored := (find_eq_some hlinked.keys).mpr (hpair ▸ hentry)
    rw [habsent] at hstored
    cases hstored
  · simp only
    rw [insertRecency_last hfresh, List.map_cons]
    exact List.perm_append_comm.trans (hlinked.bijection.cons _)
  · simp only
    rw [List.map_cons, List.sum_cons, hlinked.retained_eq, Nat.add_comm]
  · simp only
    omega
  · intro r hr
    simp only at hr ⊢
    rw [insertRecency_last hfresh] at hr
    rcases List.mem_append.mp hr with hr | hr
    · have := hfresh r hr
      omega
    · rw [List.mem_singleton.mp hr]
      exact Nat.lt_succ_self _
  · have := h.next_le
    rw [List.length_append, List.length_singleton]
    simp only
    omega
  · intro k e hk
    simp only at hk
    rw [hfind] at hk
    by_cases hsame : key = k
    · rw [if_pos hsame] at hk
      obtain rfl := Option.some.inj hk
      exact ⟨binding, artifact, digest, context,
        List.mem_append_right _ (List.mem_singleton.mpr rfl), by rw [← hsame, ← hkey], hsize⟩
    · rw [if_neg hsame] at hk
      exact (h.inserted k e (hkept k e hk)).append _
  · rw [Memo.items, Memo.items, ← hitems]
    simp only
    rw [insertRecency_last hfresh, itemsOf, List.filterMap_append, itemsOf]
    congr 1
    · refine List.filterMap_congr fun r hr => ?_
      obtain ⟨e, he, -⟩ := hlinked.stored hr
      have hne : key ≠ r.2 := by
        intro heq
        rw [← heq, habsent] at he
        cases he
      rw [itemOf, itemOf, hfind, if_neg hne]
    · have hlast : itemOf ((key, (⟨value, bytes, m.next⟩ : Entry Val)) :: room.entries)
        (m.next, key) =
          some ⟨key, value, bytes⟩ := by
        rw [itemOf, hfind, if_pos rfl]
        rfl
      rw [List.filterMap_cons_some hlast]
      rfl

theorem Inv.candidate {maximum : Nat} {operations : List (Operation Artifact Digest Val)}
    {m : Memo Artifact Digest Val} (h : Inv maximum operations m) (binding : Binding Val)
    (valueType : TypeId) (artifact : Artifact) (digest : Digest) :
    m.items.candidate binding valueType artifact digest =
      ((binding.reuse :: binding.stronger).map (binding.key valueType artifact digest)).find?
        fun k =>
        (find m.entries k).isSome := by
  rw [Recent.candidate]
  refine List.find?_congr fun k _ => ?_
  have hfind : m.items.find k = (find m.entries k).map fun e => ⟨k, e.value, e.bytes⟩ :=
    h.linked.find_items k
  rw [hfind, Option.isSome_map]

/-- A lookup keeps the invariant and uses the entry that it returns. -/
theorem Inv.lookup {maximum : Nat} {operations : List (Operation Artifact Digest Val)}
    {m : Memo Artifact Digest Val}
    (h : Inv maximum operations m) (binding : Binding Val) (valueType : TypeId)
    (artifact : Artifact) (digest : Digest) :
    (binding.lookup valueType artifact digest m = .error .overflow ∧ 2 ^ 64 ≤ m.next + 1) ∨
    ∃ found later, binding.lookup valueType artifact digest m = .ok (found, later) ∧
      Inv maximum (operations ++ [.lookup binding valueType artifact digest]) later ∧
      later.items = Recent.step maximum m.items (.lookup binding valueType artifact digest) ∧
      ∀ value, found = some value → ∃ k e, find m.entries k = some e ∧
      e.value = ⟨valueType, value⟩ ∧
        k ∈ (binding.reuse :: binding.stronger).map (binding.key valueType artifact digest) := by
  have hcandidate := h.candidate binding valueType artifact digest
  rw [Binding.lookup]
  simp only [Recent.step, hcandidate]
  cases hfound : ((binding.reuse :: binding.stronger).map
      (binding.key valueType artifact digest)).find? fun k =>
      (find m.entries k).isSome with
  | none => exact .inr ⟨none, m, rfl, h.append _, rfl, fun value hvalue => by cases hvalue⟩
  | some k =>
    obtain ⟨e, he⟩ := Option.isSome_iff_exists.mp (by simpa using List.find?_some hfound)
    rcases Nat.lt_or_ge (m.next + 1) (2 ^ 64) with hnext | hnext
    · obtain ⟨hinv, hitems⟩ := h.touch he (.lookup binding valueType artifact digest)
      refine .inr ⟨downcast valueType e.value, _, ?_, hinv, hitems, fun value hvalue =>
        ⟨k, e, he, ?_, List.mem_of_find?_eq_some hfound⟩⟩
      · simp only [unsigned_ok hnext, ok_bind, he]
        rfl
      · rw [downcast] at hvalue
        split at hvalue
        · rename_i htype
          subst htype
          rw [← Option.some.inj hvalue]
        · cases hvalue
    · refine .inl ⟨?_, hnext⟩
      simp only [unsigned, if_neg (Nat.not_lt.mpr hnext), error_bind]

theorem Inv.step {maximum : Nat} (hmaximum : maximum < 2 ^ 64)
    {operations : List (Operation Artifact Digest Val)}
    {m : Memo Artifact Digest Val} (h : Inv maximum operations m)
    (operation : Operation Artifact Digest Val) :
    (step maximum m operation = .error .overflow ∧ 2 ^ 64 ≤ m.next + 1) ∨
    ∃ later, step maximum m operation = .ok later ∧ Inv maximum (operations ++ [operation]) later ∧
      later.items = Recent.step maximum m.items operation := by
  cases operation with
  | lookup binding valueType artifact digest =>
    rcases h.lookup binding valueType artifact digest with ⟨hfails, hnext⟩
      | ⟨found, later, hlater, hinv, hitems, -⟩
    · exact .inl ⟨by rw [ValidatedMemo.step, hfails]; rfl, hnext⟩
    · exact .inr ⟨later, by rw [ValidatedMemo.step, hlater]; rfl, hinv, hitems⟩
  | insert binding artifact digest context value =>
    rw [ValidatedMemo.step]
    cases hsize : binding.size value with
    | none =>
      refine .inr ⟨m, ?_, h.append _, ?_⟩
      · rw [Binding.insert, hsize]
      · simp only [Recent.step, hsize]
    | some bytes =>
      have hfind : m.items.find (binding.key value.1 artifact digest context) =
          (find m.entries (binding.key value.1 artifact digest context)).map
            fun e => ⟨binding.key value.1 artifact digest context, e.value, e.bytes⟩ :=
              h.linked.find_items _
      by_cases hkept : bytes > maximum ∨
        (find m.entries (binding.key value.1 artifact digest context)).isSome
      · refine .inr ⟨m, ?_, h.append _, ?_⟩
        · rw [Binding.insert, hsize]
          simp only
          rcases hkept with hlarge | hstored
          · rw [if_pos hlarge]
          · rw [if_pos hstored]
            split <;> rfl
        · simp only [Recent.step, hsize, hfind, Option.isSome_map]
          rw [if_pos hkept]
      · rw [not_or] at hkept
        have hnew : find m.entries (binding.key value.1 artifact digest context) = none :=
          by simpa using hkept.2
        rcases Nat.lt_or_ge (m.next + 1) (2 ^ 64) with hnext | hnext
        · obtain ⟨later, hlater, hinv, hitems⟩ :=
            h.insert hmaximum binding artifact digest context value hsize
              (Nat.not_lt.mp hkept.1) hnew hnext
          refine .inr ⟨later, hlater, hinv, ?_⟩
          simp only [Recent.step, hsize, hfind, Option.isSome_map]
          rw [if_neg (not_or.mpr hkept), hitems]
        · obtain ⟨room, gone, hroom, -⟩ := makeRoom_ok (Nat.not_lt.mp hkept.1) h.linked []
          refine .inl ⟨?_, hnext⟩
          rw [Binding.insert, hsize]
          simp only [if_neg hkept.1, hnew, Option.isSome_none, Bool.false_eq_true, if_false, hroom,
            ok_bind, unsigned, if_neg (Nat.not_lt.mpr hnext), error_bind]
  | clear =>
    refine .inr ⟨.empty, rfl, ⟨⟨.nil, .nil, .refl _, rfl, Nat.zero_le _⟩, ?_, Nat.zero_le _, ?_⟩,
      rfl⟩
    · intro r hr
      cases hr
    · intro k e hk
      cases hk

theorem run_inv {maximum : Nat} (hmaximum : maximum < 2 ^ 64)
    (operations : List (Operation Artifact Digest Val)) :
    (run maximum operations = .error .overflow ∧ 2 ^ 64 ≤ operations.length) ∨
    ∃ m, run maximum operations = .ok m ∧ Inv maximum operations m ∧
      m.items = operations.foldl (Recent.step maximum) [] := by
  induction operations using List.reverseRecOn with
  | nil =>
    refine .inr ⟨.empty, rfl, ⟨⟨.nil, .nil, .refl _, rfl, Nat.zero_le _⟩, ?_, le_rfl, ?_⟩, rfl⟩
    · intro r hr
      cases hr
    · intro k e hk
      cases hk
  | append_singleton operations operation ih =>
    have hrun : run maximum (operations ++ [operation]) = run maximum operations >>= fun m =>
      step maximum m operation := by
      rw [run, List.foldlM_append, run]
      congr 1
      funext m
      rw [List.foldlM_cons]
      cases step maximum m operation <;> rfl
    rw [hrun, List.length_append, List.length_singleton, List.foldl_append]
    rcases ih with ⟨hfails, hlength⟩ | ⟨m, hm, hinv, hitems⟩
    · exact .inl ⟨by rw [hfails]; rfl, by omega⟩
    · have hnext := hinv.next_le
      rcases hinv.step hmaximum operation with ⟨hfails, hlength⟩ | ⟨later, hlater, hinv', hitems'⟩
      · exact .inl ⟨by rw [hm, ok_bind, hfails], by omega⟩
      · exact .inr ⟨later, by rw [hm, ok_bind, hlater], hinv', by rw [hitems', hitems]; rfl⟩

/-- **The memo.** A run either exhausts the sequence counter or keeps the recency map, the entries
and the byte counter in step; it is a run of the least-recently-used cache, eviction takes the
oldest items and no more than needed, and a lookup returns what an earlier operation inserted for
it. -/
theorem memo_runs (maximum : UInt64) (operations : List (Operation Artifact Digest Val)) :
    (run maximum.toNat operations = .error .overflow ∧ 2 ^ 64 ≤ operations.length) ∨
    ∃ m, run maximum.toNat operations = .ok m ∧
    Linked maximum.toNat m.recency m.entries m.retained ∧
      m.items = operations.foldl (Recent.step maximum.toNat) [] ∧
      (∀ bytes, bytes ≤ maximum.toNat → ∃ room n,
        makeRoom maximum.toNat bytes m.recency m.entries m.retained [] = .ok room ∧
        IsLeast {n | bytes + LeastRecent.total Item.bytes (m.items.drop n) ≤ maximum.toNat} n ∧
        room.evicted.map (fun e => (e.value, e.bytes)) = (m.items.take n).map (fun item =>
          (item.value, item.bytes)) ∧
        itemsOf room.recency room.entries = m.items.drop n ∧
        bytes ≤ maximum.toNat - room.retained) ∧
      ∀ (binding : Binding Val) (valueType : TypeId) (artifact : Artifact) (digest : Digest)
      (value : Val valueType)
        (later : Memo Artifact Digest Val),
        binding.lookup valueType artifact digest m = .ok (some value, later) →
        ∃ inserter context, Operation.insert inserter artifact digest context ⟨valueType, value⟩ ∈
          operations ∧
          inserter.payloadType = binding.payloadType ∧
          context ∈ binding.reuse :: binding.stronger := by
  have hmaximum : maximum.toNat < 2 ^ 64 := maximum.toNat_lt
  rcases run_inv hmaximum operations with hfails | ⟨m, hm, hinv, hitems⟩
  · exact .inl hfails
  refine .inr ⟨m, hm, hinv.linked, hitems, fun bytes hbytes => ?_, ?_⟩
  · obtain ⟨room, gone, hroom, -, -, -, hfree, hkept, hevicted, hgone⟩ :=
      makeRoom_ok hbytes hinv.linked []
    refine ⟨room, _, hroom, LeastRecent.excess_isLeast Item.bytes hbytes m.items, ?_, hkept, hfree⟩
    rw [hevicted, List.nil_append, hgone]
    rfl
  · intro binding valueType artifact digest value later hlookup
    rcases hinv.lookup binding valueType artifact digest with ⟨hfails, -⟩
      | ⟨found, other, hother, -, -, hsource⟩
    · rw [hfails] at hlookup
      cases hlookup
    · rw [hother] at hlookup
      obtain ⟨rfl, rfl⟩ := Prod.mk.inj (Except.ok.inj hlookup)
      obtain ⟨k, e, he, hvalue, hk⟩ := hsource value rfl
      obtain ⟨inserter, artifact', digest', context, hmem, hkey, -⟩ := hinv.inserted k e he
      obtain ⟨wanted, hwanted, hsame⟩ := List.mem_map.mp hk
      rw [hkey] at hsame
      simp only [Binding.key, Key.mk.injEq] at hsame
      obtain ⟨hpayload, -, rfl, rfl, rfl⟩ := hsame
      rw [hvalue] at hmem
      exact ⟨inserter, wanted, hmem, hpayload.symm, hwanted⟩

end

/-! Two values fit; the one that was looked up outlives the other. -/

def sampleBinding : Binding fun _ : Bool => Nat := ⟨true, "exact", ["certified"], fun _ => some 40⟩

def sampleOperations : List (Operation Nat Nat fun _ : Bool => Nat) :=
  [.insert sampleBinding 1 10 "certified" ⟨false, 7⟩, .insert sampleBinding 2 20 "exact" ⟨false, 8⟩,
    .lookup sampleBinding false 1 10, .insert sampleBinding 3 30 "exact" ⟨false, 9⟩]

def sampleMemo : Memo Nat Nat fun _ : Bool => Nat where
  entries := [(⟨true, false, 3, 30, "exact"⟩, ⟨⟨false, 9⟩, 40, 3⟩),
    (⟨true, false, 1, 10, "certified"⟩, ⟨⟨false, 7⟩, 40, 2⟩)]
  recency := [(2, ⟨true, false, 1, 10, "certified"⟩), (3, ⟨true, false, 3, 30, "exact"⟩)]
  retained := 80
  next := 4

/-- The value is found under the stronger context, and an insertion of the run put it there. -/
theorem memo_runs_sample :
    Linked 100 sampleMemo.recency sampleMemo.entries sampleMemo.retained ∧
      sampleMemo.items = sampleOperations.foldl (Recent.step 100) [] ∧
      ∃ inserter context, Operation.insert inserter 1 10 context ⟨false, 7⟩ ∈ sampleOperations ∧
        inserter.payloadType = true ∧ context ∈ ["exact", "certified"] := by
  have hrun : run 100 sampleOperations = .ok sampleMemo := rfl
  rcases memo_runs 100 sampleOperations with ⟨-, hlength⟩ | ⟨m, hm, hlinked, hitems, -, hlookup⟩
  · exact absurd hlength (by decide)
  · have hsame : sampleMemo = m := Except.ok.inj (hrun.symm.trans hm)
    subst hsame
    exact ⟨hlinked, hitems, hlookup sampleBinding false 1 10 7 _ rfl⟩

end Xcelerator.Cache.ValidatedMemo
