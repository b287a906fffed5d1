import Mathlib
import Xcelerator.Foundations.Machine
import Xcelerator.Foundations.DottedPath
import Xcelerator.Core.ConfigResolution

/-! # Attribution of resolved configurations

Every merge decides each path on its own: the layer wins it, it keeps what it
had, or it disappears together with its record. The attribution of the merged
document follows from that. -/

namespace Xcelerator.Core.ConfigResolution
open Xcelerator.Foundations Machine DottedPath

/-! ## Leaves -/

/-- The leaf at a path: a value that is no object, or an empty object. -/
def leaf : Value → List String → Option Value
  | .object fields, [] => if fields.isEmpty then some (.object []) else none
  | .object fields, key :: keys => (lookup fields key).bind fun v => leaf v keys
  | v, [] => some v
  | _, _ :: _ => none

/-- No key of a nested object has a dot. -/
inductive DotFreeKeys : Value → Prop where
  | leaf {v : Value} (h : v.isObject = false) : DotFreeKeys v
  | object {fields : Fields} (keys : ∀ f ∈ fields, DotFree f.1)
      (h : ∀ f ∈ fields, DotFreeKeys f.2) :
      DotFreeKeys (.object fields)

theorem Value.eq_object {value : Value} (h : value.isObject = true) :
    value = .object value.fields := by
  cases value <;> first | rfl | cases h

theorem lookup_mem {fields : Fields} {key : String} {v : Value} (h : lookup fields key = some v) :
    (key, v) ∈ fields := by
  fun_induction lookup fields key with
  | case1 => cases h
  | case2 k w rest =>
    cases h
    exact List.mem_cons_self
  | case3 k w rest key hne ih => exact List.mem_cons_of_mem _ (ih h)

theorem lookup_of_mem {fields : Fields} (hsorted : fields.Pairwise fun l r => l.1 < r.1)
    {f : String × Value} (hf : f ∈ fields) : lookup fields f.1 = some f.2 := by
  induction hsorted with
  | nil => cases hf
  | @cons g rest hg _ ih =>
    rcases List.mem_cons.mp hf with rfl | hf
    · simp [lookup]
    · have hne : g.1 ≠ f.1 := ne_of_lt (hg f hf)
      rw [show g :: rest = (g.1, g.2) :: rest from rfl, lookup, if_neg hne]
      exact ih hf

theorem lookup_insertField (fields : Fields) (key key' : String) (v : Value) :
    lookup (insertField fields key v) key' = if key = key' then some v else lookup fields key' := by
  induction fields with
  | nil => rfl
  | cons f rest ih =>
    obtain ⟨k, w⟩ := f
    simp only [insertField]
    by_cases hlt : key < k
    · rw [if_pos hlt]
      rfl
    · by_cases heq : key = k
      · rw [if_neg hlt, if_pos heq]
        subst heq
        by_cases hk : key = key' <;> simp [lookup, hk]
      · rw [if_neg hlt, if_neg heq]
        simp only [lookup, ih]
        by_cases hk : k = key'
        · have : key ≠ key' := fun h => heq (h.trans hk.symm)
          simp [hk, this]
        · simp [hk]

theorem insertField_ne_nil (fields : Fields) (key : String) (v : Value) :
    insertField fields key v ≠ [] := by
  rcases fields with _ | ⟨⟨k, w⟩, rest⟩
  · simp [insertField]
  · simp only [insertField]
    split
    · simp
    · split <;> simp

theorem leaf_dotFree {v w : Value} {keys : List String} (hv : DotFreeKeys v)
    (h : leaf v keys = some w) : ∀ k ∈ keys, DotFree k := by
  induction keys generalizing v with
  | nil => simp
  | cons key keys ih =>
    cases hv with
    | leaf hobject => cases v <;> simp_all [leaf, Value.isObject]
    | object hkeys hfields =>
      obtain ⟨child, hchild, hleaf⟩ := Option.bind_eq_some_iff.mp h
      have hmem := lookup_mem hchild
      intro k hk
      rcases List.mem_cons.mp hk with rfl | hk
      · exact hkeys _ hmem
      · exact ih (hfields _ hmem) hleaf k hk

theorem leaf_scalar {v : Value} (h : v.isObject = false) (keys : List String) :
    leaf v keys = if keys = [] then some v else none := by
  cases v <;> cases keys <;> simp_all [leaf, Value.isObject]

/-- The leaf below a field that may be absent. -/
def leafOf (child : Option Value) (keys : List String) : Option Value :=
  child.bind fun v => leaf v keys

/-! ## Recorded paths -/

section
variable {R : Paths} {p q : List String} {source : ConfigSource}

theorem recorded_insert (hp : KeyPath p) (hq : KeyPath q) :
    (R.insert (render q) source)[render p]? = if q = p then some source else R[render p]? := by
  rw [Std.ExtTreeMap.getElem?_insert]
  by_cases h : q = p
  · simp [h]
  · have : render q ≠ render p := fun he => h (render_injective hq hp he)
    simp [h, this]

theorem recorded_erase (hp : KeyPath p) (hq : KeyPath q) :
    (R.erase (render q))[render p]? = if q = p then none else R[render p]? := by
  rw [Std.ExtTreeMap.getElem?_erase]
  by_cases h : q = p
  · simp [h]
  · have : render q ≠ render p := fun he => h (render_injective hq hp he)
    simp [h, this]

theorem recorded_remove (hp : KeyPath p) (hq : KeyPath q) :
    (removeRecordedSubtree R (render q))[render p]? = if q <+: p then none else R[render p]? := by
  have hprefix : q <+: p ↔ render p = render q ∨
      (render q ++ ".").toList <+: (render p).toList := by
    rw [dot_prefix_iff hp hq]
    constructor
    · rintro ⟨r, rfl⟩
      by_cases hr : r = []
      · exact .inl (by rw [hr, List.append_nil])
      · exact .inr ⟨r, hr, rfl⟩
    · rintro (h | ⟨r, -, rfl⟩)
      · rw [render_injective hp hq h]
      · exact List.prefix_append _ _
  have hkept : (render p != render q && !(render q ++ ".").toList.isPrefixOf (render p).toList) =
      !decide (q <+: p) := by
    rw [Bool.eq_iff_iff, Bool.and_eq_true, bne_iff_ne, Bool.not_eq_true', Bool.not_eq_true',
      Bool.eq_false_iff, ne_eq, ne_eq, List.isPrefixOf_iff_prefix, decide_eq_false_iff_not,
      hprefix, not_or]
  rw [removeRecordedSubtree, Std.ExtTreeMap.getElem?_filter', hkept]
  by_cases h : q <+: p <;> cases R[render p]? <;> simp [h]

end

theorem join_render {p : List String} (hp : p ≠ [""]) (key : String) :
    joinPath (render p) key = render (p ++ [key]) := by
  by_cases h : p = []
  · subst h
    rw [List.nil_append, render_singleton]
    rfl
  · have hne := render_ne_empty h hp
    rw [joinPath, if_neg (by simpa using hne), render_append h (by simp), render_singleton]

/-! ## One merge -/

/-- What a merge may do at one path: the layer takes it, it stays as it was, or
the leaf is gone and so is its record. -/
inductive Decided (source : ConfigSource) (old incoming new : Option Value)
    (before after : Option ConfigSource) : Prop where
  | taken (hnew : new = incoming) (hsome : incoming ≠ none) (hafter : after = some source)
  | kept (hnew : new = old) (hafter : after = before)
  | gone (hnew : new = none) (hafter : after = none)

/-- Every text recorded is new by way of a path, or was there. -/
def Renders (R R' : Paths) : Prop :=
  ∀ s, R'[s]? ≠ none → R[s]? ≠ none ∨ ∃ p, KeyPath p ∧ s = render p

theorem Renders.trans {R R' R'' : Paths} (h : Renders R R') (h' : Renders R' R'') :
    Renders R R'' := by
  intro s hs
  rcases h' s hs with hs | hs
  · exact h s hs
  · exact .inr hs

theorem renders_insert {R : Paths} {p : List String} (hp : KeyPath p) (source : ConfigSource) :
    Renders R (R.insert (render p) source) := by
  intro s hs
  by_cases h : render p = s
  · exact .inr ⟨p, hp, h.symm⟩
  · rw [Std.ExtTreeMap.getElem?_insert] at hs
    simp only [Std.LawfulEqOrd.compare_eq_iff_eq, h, if_false] at hs
    exact .inl hs

theorem renders_erase (R : Paths) (s : String) : Renders R (R.erase s) := by
  intro t ht
  rw [Std.ExtTreeMap.getElem?_erase] at ht
  split at ht
  · exact absurd rfl ht
  · exact .inl ht

theorem renders_remove (R : Paths) (s : String) : Renders R (removeRecordedSubtree R s) := by
  intro t ht
  rw [removeRecordedSubtree, Std.ExtTreeMap.getElem?_filter'] at ht
  refine .inl fun hn => ht ?_
  rw [hn]
  rfl

/-- A position the merge descends to. The root is written as the empty text, so
the path of the one empty key has to be kept apart from it. -/
structure Position (tags : List (String × String)) ( pre : List String) : Prop where
  dotFree : ∀ k ∈ pre, DotFree k
  ne : pre ≠ [""]
  tagged : pre = [] → ∀ entry ∈ tags, entry.1 ≠ ""

theorem variantChanged_nil (tags : List (String × String)) ( pre : String) (target : Fields) :
    variantChanged tags pre target [] = false := by
  simp [variantChanged, lookup]

theorem variantChanged_root {tags : List (String × String)} (h : ∀ entry ∈ tags, entry.1 ≠ "")
    (target incoming : Fields) : variantChanged tags "" target incoming = false := by
  rw [variantChanged, List.any_eq_false]
  intro entry hentry
  simp [h entry hentry]

section
variable {tags : List (String × String)} {source : ConfigSource} { pre : List String} {R R' : Paths}

/-- The merge of one field. -/
structure ChildMerged (source : ConfigSource) (old : Option Value) (value new : Value)
    (path : List String) (R R' : Paths) : Prop where
  frame : ∀ p, KeyPath p → ¬ path <+: p → R'[render p]? = R[render p]?
  renders : Renders R R'
  decided : ∀ keys, (∀ k ∈ keys, DotFree k) → Decided source (leafOf old keys) (leaf value keys)
    (leaf new keys) R[render (path ++ keys)]? R'[render (path ++ keys)]?

/-- The merge of the remaining fields of an object. -/
structure FieldsMerged (source : ConfigSource) (incoming target target' : Fields)
    ( pre : List String) (R R' : Paths) : Prop where
  frame : ∀ p, KeyPath p → (∀ f ∈ incoming, ¬ pre ++ [f.1] <+: p) → R'[render p]? = R[render p]?
  renders : Renders R R'
  others : ∀ key, (∀ f ∈ incoming, f.1 ≠ key) → lookup target' key = lookup target key
  nonempty : incoming ≠ [] ∨ target ≠ [] → target' ≠ []
  decided : ∀ f ∈ incoming, ∀ keys, (∀ k ∈ keys, DotFree k) →
    Decided source (leafOf (lookup target f.1) keys) (leaf f.2 keys)
      (leafOf (lookup target' f.1) keys)
      R[render (pre ++ f.1 :: keys)]? R'[render (pre ++ f.1 :: keys)]?

/-- The merge of a whole object; its own path is told apart from those below. -/
structure ObjectMerged (source : ConfigSource) (incoming target target' : Fields)
    ( pre : List String) (R R' : Paths) : Prop where
  frame : ∀ p, KeyPath p → ¬ pre <+: p → R'[render p]? = R[render p]?
  renders : Renders R R'
  empty : incoming = [] → target = [] → target' = [] ∧ (pre ≠ [] → R'[render pre]? = some source)
  kept : incoming = [] → target ≠ [] → target' = target ∧ R' = R
  opened : incoming ≠ [] → target' ≠ [] ∧
    (KeyPath pre → R'[render pre]? = R[render pre]? ∨ R'[render pre]? = none)
  decided : ∀ key keys, DotFree key → (∀ k ∈ keys, DotFree k) →
    Decided source (leaf (.object target) (key :: keys)) (leaf (.object incoming) (key :: keys))
      (leaf (.object target') (key :: keys)) R[render (pre ++ key :: keys)]?
      R'[render (pre ++ key :: keys)]?

theorem child_scalar {path : List String} (hpath : KeyPath path) {value : Value}
    (hvalue : value.isObject = false) (old : Option Value) :
    ChildMerged source old value value path R
      ((removeRecordedSubtree R (render path)).insert (render path) source) where
  frame p hp hnot := by
    have hne : path ≠ p := fun h => hnot (h ▸ List.prefix_rfl)
    rw [recorded_insert hp hpath, if_neg hne, recorded_remove hp hpath, if_neg hnot]
  renders := (renders_remove R _).trans (renders_insert hpath source)
  decided keys hkeys := by
    rw [recorded_insert (hpath.append hkeys) hpath, recorded_remove (hpath.append hkeys) hpath,
      if_pos (List.prefix_append _ _), leaf_scalar hvalue]
    by_cases h : keys = []
    · subst h
      exact .taken rfl (by simp) (by simp)
    · refine .gone (if_neg h) (if_neg fun he => h ?_)
      simpa using he

/-- The object a field is merged into: nothing is recorded at the path of one
about to get fields. -/
structure Entered (child : Option Value) (value : Value) (path : List String) (R : Paths)
    (target : Fields) (R₁ : Paths) : Prop where
  renders : Renders R R₁
  frame : ∀ p, KeyPath p → ¬ path <+: p → R₁[render p]? = R[render p]?
  cleared : value.fields ≠ [] → R₁[render path]? = none
  below : ∀ keys, keys ≠ [] → (∀ k ∈ keys, DotFree k) →
    (leaf (.object target) keys = leafOf child keys ∧
      R₁[render (path ++ keys)]? = R[render (path ++ keys)]?) ∨
    (leaf (.object target) keys = none ∧ R₁[render (path ++ keys)]? = none)
  kept : target ≠ [] → child = some (.object target) ∧ (value.fields = [] → R₁ = R)

theorem leaf_empty {keys : List String} (hkeys : keys ≠ []) : leaf (.object []) keys = none := by
  obtain ⟨key, keys, rfl⟩ := List.exists_cons_of_ne_nil hkeys
  rfl

theorem entered_object {path : List String} (hpath : KeyPath path) {child : Option Value}
    {fields : Fields} (hleaf : ∀ keys, keys ≠ [] → leaf (.object fields) keys = leafOf child keys)
    (hsome : fields ≠ [] → child = some (.object fields)) (value : Value) :
    Entered child value path R fields (if value.fields.isEmpty then R else
      R.erase (render path)) := by
  by_cases hv : value.fields = []
  · have hif : (if value.fields.isEmpty then R else R.erase (render path)) = R := by simp [hv]
    rw [hif]
    exact ⟨fun s hs => .inl hs, fun _ _ _ => rfl, fun hne => absurd hv hne,
      fun keys hkeys _ => .inl ⟨hleaf keys hkeys, rfl⟩, fun hne => ⟨hsome hne, fun _ => rfl⟩⟩
  · have hif : (if value.fields.isEmpty then R else R.erase (render path)) =
        R.erase (render path) := by
      simp [hv]
    rw [hif]
    refine ⟨renders_erase R _, fun p hp hnot => ?_, fun _ => ?_,
      fun keys hkeys hdot => .inl ⟨hleaf keys hkeys, ?_⟩, fun hne =>
        ⟨hsome hne, fun he => absurd he hv⟩⟩
    · have hne : path ≠ p := fun h => hnot (h ▸ List.prefix_rfl)
      rw [recorded_erase hp hpath, if_neg hne]
    · rw [recorded_erase hpath hpath, if_pos rfl]
    · have hne : path ≠ path ++ keys := fun h => hkeys (by simpa using h)
      rw [recorded_erase (hpath.append hdot) hpath, if_neg hne]

theorem enterChild_spec {path : List String} (hpath : KeyPath path) (child : Option Value)
    (value : Value) (R : Paths) :
    ∃ target R₁, enterChild child value (render path) R = (.object target, R₁) ∧
      Entered child value path R target R₁ := by
  rcases child with _ | child
  · exact ⟨[], _, rfl, entered_object hpath (fun keys hkeys => leaf_empty hkeys) (fun h =>
      absurd rfl h) value⟩
  by_cases hchild : child.isObject = true
  · obtain ⟨fields, rfl⟩ : ∃ fields, child = .object fields := by
      cases child <;> simp_all [Value.isObject]
    exact ⟨fields, _, rfl, entered_object hpath (fun _ _ => rfl) (fun _ => rfl) value⟩
  -- A value that is no object is replaced, and its record goes.
  · have henter : enterChild (some child) value (render path) R =
        (.object [], removeRecordedSubtree R (render path)) := by
      cases child <;> first | rfl | simp_all [Value.isObject]
    refine ⟨[], _, henter, renders_remove R _, fun p hp hnot => ?_, fun _ => ?_,
      fun keys hkeys hdot => .inr ⟨leaf_empty hkeys, ?_⟩, fun h => absurd rfl h⟩
    · rw [recorded_remove hp hpath, if_neg hnot]
    · rw [recorded_remove hpath hpath, if_pos List.prefix_rfl]
    · rw [recorded_remove (hpath.append hdot) hpath, if_pos (List.prefix_append _ _)]

theorem child_object {path : List String} (hpath : KeyPath path) {child : Option Value}
    {value : Value} (hvalue : value.isObject = true) {target target' : Fields} {R₁ : Paths}
    (hin : Entered child value path R target R₁)
    (hm : ObjectMerged source value.fields target target' path R₁ R') :
    ChildMerged source child value (.object target') path R R' where
  frame p hp hnot := (hm.frame p hp hnot).trans (hin.frame p hp hnot)
  renders := hin.renders.trans hm.renders
  decided keys hkeys := by
    rcases keys with _ | ⟨key, keys⟩
    · rw [List.append_nil]
      by_cases hf : value.fields = []
      · by_cases ht : target = []
        · obtain ⟨htarget', hrecord⟩ := hm.empty hf ht
          rw [Value.eq_object hvalue, hf, htarget']
          exact .taken rfl (by simp [leaf]) (hrecord hpath.ne_nil)
        · obtain ⟨htarget', hR⟩ := hm.kept hf ht
          obtain ⟨hchild, hsame⟩ := hin.kept ht
          refine .kept ?_ ?_
          · rw [htarget', hchild]
            rfl
          · rw [hR, hsame hf]
      · obtain ⟨htarget', hrecord⟩ := hm.opened hf
        have hnone := hin.cleared hf
        refine .gone (by simp [leaf, htarget']) ?_
        rcases hrecord hpath with h | h
        · rw [h, hnone]
        · exact h
    · have hkey := hkeys key List.mem_cons_self
      have hrest := fun k hk => hkeys k (List.mem_cons_of_mem key hk)
      have hd := hm.decided key keys hkey hrest
      rw [← Value.eq_object hvalue] at hd
      rcases hin.below (key :: keys) (by simp) hkeys with ⟨hleaf, hrecord⟩ | ⟨hleaf, hrecord⟩
      · rw [hleaf, hrecord] at hd
        exact hd
      · rw [hleaf, hrecord] at hd
        cases hd with
        | taken hnew hsome hafter => exact .taken hnew hsome hafter
        | kept hnew hafter => exact .gone hnew hafter
        | gone hnew hafter => exact .gone hnew hafter

theorem keyPath_below {key : String} {keys : List String} (hpre : ∀ k ∈ pre, DotFree k)
    (hkey : DotFree key) (hkeys : ∀ k ∈ keys, DotFree k) : KeyPath (pre ++ key :: keys) := by
  refine ⟨by simp, fun x hx => ?_⟩
  rcases List.mem_append.mp hx with hx | hx
  · exact hpre x hx
  · rcases List.mem_cons.mp hx with rfl | hx
    · exact hkey
    · exact hkeys x hx

theorem fields_nil (target : Fields) : FieldsMerged source [] target target pre R R where
  frame _ _ _ := rfl
  renders _ hs := .inl hs
  others _ _ := rfl
  nonempty h := h.resolve_left fun h => h rfl
  decided f hf := by cases hf

theorem fields_cons {key : String} {value new : Value} {rest target target' : Fields} {R₁ : Paths}
    (hsorted : ((key, value) :: rest).Pairwise fun l r => l.1 < r.1)
    (hdot : ∀ k ∈ pre, DotFree k) (hfields : ∀ f ∈ (key, value) :: rest, DotFree f.1)
    (hchild : ChildMerged source (lookup target key) value new (pre ++ [key]) R R₁)
    (hm : FieldsMerged source rest (insertField target key new) target' pre R₁ R') :
    FieldsMerged source ((key, value) :: rest) target target' pre R R' := by
  have hne : ∀ f ∈ rest, f.1 ≠ key := fun f hf => ne_of_gt ((List.pairwise_cons.mp hsorted).1 f hf)
  have hapart : ∀ f ∈ rest, ∀ keys, ¬ pre ++ [f.1] <+: pre ++ key :: keys := by
    intro f hf keys h
    rw [List.prefix_append_right_inj, List.cons_prefix_cons] at h
    exact hne f hf h.1
  constructor
  · intro p hp hnot
    have hrest := hm.frame p hp fun f hf => hnot f (List.mem_cons_of_mem _ hf)
    exact hrest.trans (hchild.frame p hp (hnot (key, value) List.mem_cons_self))
  · exact hchild.renders.trans hm.renders
  · intro k hk
    rw [hm.others k fun f hf => hk f (List.mem_cons_of_mem _ hf), lookup_insertField,
      if_neg (hk (key, value) List.mem_cons_self)]
  · intro _
    exact hm.nonempty (.inr (insertField_ne_nil _ _ _))
  · intro f hf keys hkeys
    rcases List.mem_cons.mp hf with rfl | hf
    -- The later fields leave this one alone.
    · have hlookup : lookup target' key = some new := by
        rw [hm.others key hne, lookup_insertField, if_pos rfl]
      have hpath := keyPath_below hdot (hfields (key, value) hf) hkeys
      have hrecord := hm.frame _ hpath fun f hf => hapart f hf keys
      have hd := hchild.decided keys hkeys
      rw [List.append_assoc, List.singleton_append] at hd
      rw [hlookup, hrecord]
      exact hd
    · have hpath := keyPath_below hdot (hfields f (List.mem_cons_of_mem _ hf)) hkeys
      have hout : ¬ pre ++ [key] <+: pre ++ f.1 :: keys := by
        intro h
        rw [List.prefix_append_right_inj, List.cons_prefix_cons] at h
        exact hne f hf h.1.symm
      have hd := hm.decided f hf keys hkeys
      rw [lookup_insertField, if_neg (hne f hf).symm, hchild.frame _ hpath hout] at hd
      exact hd

theorem object_nil (hpos : Position tags pre) (target : Fields) :
    ObjectMerged source [] target target pre R (recordEmpty [] target R (render pre) source) := by
  by_cases h : target = [] ∧ pre ≠ []
  · obtain ⟨rfl, hpre⟩ := h
    have hpath : KeyPath pre := ⟨hpre, hpos.dotFree⟩
    have hrecord : recordEmpty [] [] R (render pre) source =
        (removeRecordedSubtree R (render pre)).insert (render pre) source := by
      have := render_ne_empty hpre hpos.ne
      simp [recordEmpty, this]
    rw [hrecord]
    refine ⟨fun p hp hnot => ?_, (renders_remove R _).trans (renders_insert hpath source),
      fun _ _ => ⟨rfl, fun _ => ?_⟩,
      fun _ h => absurd rfl h, fun h => absurd rfl h, fun key keys hkey hkeys => .gone rfl ?_⟩
    · have hne : pre ≠ p := fun h => hnot (h ▸ List.prefix_rfl)
      rw [recorded_insert hp hpath, if_neg hne, recorded_remove hp hpath, if_neg hnot]
    · rw [recorded_insert hpath hpath, if_pos rfl]
    · have hbelow := keyPath_below hpos.dotFree hkey hkeys
      rw [recorded_insert hbelow hpath, if_neg (by simp), recorded_remove hbelow hpath,
        if_pos (List.prefix_append _ _)]
  · have hrecord : recordEmpty [] target R (render pre) source = R := by
      by_cases ht : target = []
      · have hpre : pre = [] := by
          by_contra hpre
          exact h ⟨ht, hpre⟩
        subst hpre
        rw [recordEmpty, if_neg]
        simp [render]
      · rw [recordEmpty, if_neg]
        simp [ht]
    rw [hrecord]
    exact ⟨fun _ _ _ => rfl, fun _ hs => .inl hs, fun _ ht => ⟨ht, fun hpre => absurd ⟨ht, hpre⟩ h⟩,
      fun _ _ => ⟨rfl, rfl⟩, fun h => absurd rfl h, fun _ _ _ _ => .kept rfl rfl⟩

/-- Fields merged into an object whose record, if any, is not at its own path. -/
theorem object_fields {incoming target target' : Fields} (hne : incoming ≠ [])
    (hsorted : incoming.Pairwise fun l r => l.1 < r.1) (hdot : ∀ k ∈ pre, DotFree k)
    (hm : FieldsMerged source incoming target target' pre R R') :
    ObjectMerged source incoming target target' pre R R' := by
  refine ⟨fun p hp hnot => hm.frame p hp fun f hf h => hnot ?_, hm.renders, fun h => absurd h hne,
    fun h => absurd h hne, fun _ =>
      ⟨hm.nonempty (.inl hne), fun hpath => .inl (hm.frame _ hpath fun f hf h => ?_)⟩, ?_⟩
  · exact (List.prefix_append _ _).trans h
  · have := h.length_le
    simp at this
  · intro key keys hkey hkeys
    have hpath := keyPath_below hdot hkey hkeys
    by_cases hmem : ∃ f ∈ incoming, f.1 = key
    · obtain ⟨f, hf, rfl⟩ := hmem
      have hd := hm.decided f hf keys hkeys
      have hleaf : leaf (.object incoming) (f.1 :: keys) = leaf f.2 keys := by
        rw [leaf, lookup_of_mem hsorted hf]
        rfl
      rw [hleaf]
      exact hd
    · have hother : ∀ f ∈ incoming, f.1 ≠ key := fun f hf h => hmem ⟨f, hf, h⟩
      refine .kept ?_ (hm.frame _ hpath fun f hf h => ?_)
      · rw [leaf, hm.others key hother, leaf]
      · rw [List.prefix_append_right_inj, List.cons_prefix_cons] at h
        exact hother f hf h.1

/-- The same behind a changed variant, whose records all went. -/
theorem object_cleared {incoming target target' : Fields} (hpath : KeyPath pre)
    (hne : incoming ≠ [])
    (hm : ObjectMerged source incoming [] target' pre (removeRecordedSubtree R (render pre)) R') :
    ObjectMerged source incoming target target' pre R R' := by
  refine ⟨fun p hp hnot => ?_, (renders_remove R _).trans hm.renders, fun h => absurd h hne,
    fun h => absurd h hne, fun _ =>
      ⟨(hm.opened hne).1, fun _ => .inr ?_⟩, fun key keys hkey hkeys => ?_⟩
  · rw [hm.frame p hp hnot, recorded_remove hp hpath, if_neg hnot]
  · rcases (hm.opened hne).2 hpath with h | h
    · rw [h, recorded_remove hpath hpath, if_pos List.prefix_rfl]
    · exact h
  · have hbelow := keyPath_below hpath.dotFree hkey hkeys
    have hd := hm.decided key keys hkey hkeys
    rw [recorded_remove hbelow hpath, if_pos (List.prefix_append _ _)] at hd
    cases hd with
    | taken hnew hsome hafter => exact .taken hnew hsome hafter
    | kept hnew hafter => exact .gone hnew hafter
    | gone hnew hafter => exact .gone hnew hafter

end

/-- What a document has to satisfy for its fields to be merged at a position. -/
structure Mergeable (fields : Fields) ( pre : List String) : Prop where
  keys : fields.Pairwise fun l r => l.1 < r.1
  sorted : ∀ f ∈ fields, Sorted f.2
  dotFree : ∀ f ∈ fields, DotFree f.1
  below : ∀ f ∈ fields, DotFreeKeys f.2
  root : pre = [] → ∀ f ∈ fields, f.1 = "" → f.2.isObject = false

theorem Mergeable.tail {f : String × Value} {rest : Fields} { pre : List String}
    (h : Mergeable (f :: rest) pre) : Mergeable rest pre where
  keys := (List.pairwise_cons.mp h.keys).2
  sorted g hg := h.sorted g (List.mem_cons_of_mem _ hg)
  dotFree g hg := h.dotFree g (List.mem_cons_of_mem _ hg)
  below g hg := h.below g (List.mem_cons_of_mem _ hg)
  root hpre g hg := h.root hpre g (List.mem_cons_of_mem _ hg)

section
variable {tags : List (String × String)} {key : String} {value : Value} {rest : Fields}
    { pre : List String}

theorem Mergeable.child (h : Mergeable ((key, value) :: rest) pre)
    (hvalue : value.isObject = true) :
    Mergeable value.fields (pre ++ [key]) := by
  have hsorted : Sorted value := h.sorted _ List.mem_cons_self
  have hbelow : DotFreeKeys value := h.below _ List.mem_cons_self
  rw [Value.eq_object hvalue] at hsorted hbelow
  cases hsorted with
  | object hkeys hsorted =>
    cases hbelow with
    | leaf hobject => cases hobject
    | object hdot hbelow => exact ⟨hkeys, hsorted, hdot, hbelow, fun hnil => absurd hnil (by simp)⟩

theorem Mergeable.position (h : Mergeable ((key, value) :: rest) pre)
    (hvalue : value.isObject = true) (hpos : Position tags pre) : Position tags (pre ++ [key]) := by
  refine ⟨fun k hk => ?_, fun he => ?_, fun hnil => absurd hnil (by simp)⟩
  · rcases List.mem_append.mp hk with hk | hk
    · exact hpos.dotFree k hk
    · rw [List.mem_singleton.mp hk]
      exact h.dotFree _ List.mem_cons_self
  · obtain ⟨hpre, hkey⟩ := List.append_inj' (he.trans (List.nil_append _).symm) rfl
    have hscalar := h.root hpre _ List.mem_cons_self (List.singleton_inj.mp hkey)
    rw [hvalue] at hscalar
    cases hscalar

end

mutual
/-- Objects always merge. -/
theorem mergeValues_spec (tags : List (String × String)) (source : ConfigSource) :
    (incoming : Value) → incoming.isObject = true → ∀ { pre : List String}, Position tags pre →
      Mergeable incoming.fields pre → ∀ (target : Fields) (R : Paths), ∃ target' R',
        mergeValues tags source incoming (.object target)
        (render pre) R = .ok (.object target', R') ∧
          ObjectMerged source incoming.fields target target' pre R R'
  | .object [], _, pre, hpos, _, target, R => by
    refine ⟨target, recordEmpty [] target R (render pre) source, ?_, object_nil hpos target⟩
    simp only [mergeValues, variantChanged_nil, clearVariant, mergeFields, ok_bind]
    rfl
  | .object (f :: rest), _, pre, hpos, hin, target, R => by
    have hrecord : ∀ target R, recordEmpty (f :: rest) target R (render pre) source = R := by
      intro target R
      simp [recordEmpty]
    cases hchanged : variantChanged tags (render pre) target (f :: rest) with
    | false =>
      obtain ⟨target', R', hrun, hm⟩ := mergeFields_spec tags source (f :: rest) hpos hin target R
      refine ⟨target', R', ?_, object_fields (by simp [Value.fields]) hin.keys hpos.dotFree hm⟩
      simp only [mergeValues, hchanged, clearVariant, hrecord, Bool.false_eq_true, if_false,
        hrun, ok_bind]
      rfl
    | true =>
      have hpre : pre ≠ [] := by
        rintro rfl
        have hroot : variantChanged tags (render []) target (f :: rest) = false :=
          variantChanged_root (hpos.tagged rfl) _ _
        rw [hroot] at hchanged
        cases hchanged
      obtain ⟨target', R', hrun, hm⟩ := mergeFields_spec tags source (f :: rest) hpos hin []
        (removeRecordedSubtree R (render pre))
      refine ⟨target', R', ?_, object_cleared ⟨hpre, hpos.dotFree⟩ (by simp [Value.fields])
        (object_fields (by simp [Value.fields]) hin.keys hpos.dotFree hm)⟩
      simp only [mergeValues, hchanged, clearVariant, hrecord, if_true, hrun, ok_bind]
      rfl

theorem mergeFields_spec (tags : List (String × String)) (source : ConfigSource) :
    (incoming : List (String × Value)) → ∀ { pre : List String}, Position tags pre →
      Mergeable incoming pre → ∀ (target : Fields) (R : Paths), ∃ target' R',
        mergeFields tags source incoming target (render pre) R = .ok (target', R') ∧
          FieldsMerged source incoming target target' pre R R'
  | [], _, _, _, target, R => ⟨target, R, rfl, fields_nil target⟩
  | (key, value) :: rest, pre, hpos, hin, target, R => by
    have hpath : KeyPath (pre ++ [key]) :=
      keyPath_below hpos.dotFree (hin.dotFree _ List.mem_cons_self) (by simp)
    cases hobject : value.isObject with
    | false =>
      obtain ⟨target', R', hrest, hm⟩ := mergeFields_spec tags source rest hpos hin.tail
        (insertField target key value)
        ((removeRecordedSubtree R (render (pre ++ [key]))).insert (render (pre ++ [key])) source)
      refine ⟨target', R', ?_, fields_cons hin.keys hpos.dotFree hin.dotFree
        (child_scalar hpath hobject _) hm⟩
      simp only [mergeFields, hobject, Bool.false_eq_true, if_false, join_render hpos.ne, hrest]
    | true =>
      obtain ⟨inner, R₁, henter, hentered⟩ := enterChild_spec hpath (lookup target key) value R
      obtain ⟨inner', R₂, hmerge, hmerged⟩ := mergeValues_spec tags source value hobject
        (hin.position hobject hpos) (hin.child hobject) inner R₁
      obtain ⟨target', R', hrest, hm⟩ := mergeFields_spec tags source rest hpos hin.tail
        (insertField target key (.object inner')) R₂
      refine ⟨target', R', ?_, fields_cons hin.keys hpos.dotFree hin.dotFree
        (child_object hpath hobject hentered hmerged) hm⟩
      simp only [mergeFields, hobject, if_true, join_render hpos.ne, henter, hmerge, ok_bind, hrest]
end

/-! ## Keys of the merged document -/

theorem mem_insertField {fields : Fields} {key : String} {v : Value} {f : String × Value}
    (h : f ∈ insertField fields key v) : f = (key, v) ∨ f ∈ fields := by
  induction fields with
  | nil => exact .inl (List.mem_singleton.mp h)
  | cons g rest ih =>
    obtain ⟨k, w⟩ := g
    simp only [insertField] at h
    split at h
    · exact List.mem_cons.mp h
    · split at h
      · rcases List.mem_cons.mp h with h | h
        · exact .inl h
        · exact .inr (List.mem_cons_of_mem _ h)
      · rcases List.mem_cons.mp h with h | h
        · exact .inr (h ▸ List.mem_cons_self)
        · exact (ih h).imp_right (List.mem_cons_of_mem _)

theorem dotFreeKeys_insertField {fields : Fields} {key : String} {v : Value}
    (h : DotFreeKeys (.object fields)) (hkey : DotFree key) (hv : DotFreeKeys v) :
    DotFreeKeys (.object (insertField fields key v)) := by
  cases h with
  | leaf hobject => cases hobject
  | object hkeys hfields =>
    refine .object (fun f hf => ?_) fun f hf => ?_
    · rcases mem_insertField hf with rfl | hf
      · exact hkey
      · exact hkeys f hf
    · rcases mem_insertField hf with rfl | hf
      · exact hv
      · exact hfields f hf

theorem dotFreeKeys_enterChild {target : Fields} (h : DotFreeKeys (.object target)) (key : String)
    (value : Value) (path : String) (R : Paths) :
    DotFreeKeys (enterChild (lookup target key) value path R).1 := by
  have hempty : DotFreeKeys (.object []) := .object (by simp) (by simp)
  have hchild : DotFreeKeys ((lookup target key).getD (.object [])) := by
    cases hlookup : lookup target key with
    | none => exact hempty
    | some child =>
      cases h with
      | leaf hobject => cases hobject
      | object hkeys hfields => exact hfields _ (lookup_mem hlookup)
  unfold enterChild
  split
  · rename_i fields heq
    rw [heq] at hchild
    exact hchild
  · exact hempty

mutual
theorem mergeValues_dotFree (tags : List (String × String)) (source : ConfigSource) :
    (incoming : Value) → DotFreeKeys incoming → ∀ (target : Value) ( pre : String) (R : Paths)
      (m : Value × Paths), DotFreeKeys target →
      mergeValues tags source incoming target pre R = .ok m →
      DotFreeKeys m.1
  | .object incoming, hin, .object target, pre, R, m, ht, h => by
    simp only [mergeValues] at h
    obtain ⟨fields, hfields, h⟩ := bind_eq_ok h
    cases h
    refine mergeFields_dotFree tags source incoming ?_ _ _ _ _ ?_ hfields
    · cases hin with
      | leaf hobject => cases hobject
      | object hkeys hbelow => exact fun f hf => ⟨hkeys f hf, hbelow f hf⟩
    · unfold clearVariant
      split
      · exact .object (by simp) (by simp)
      · exact ht
  | .object _, _, .null, _, _, _, _, h => by simp [mergeValues] at h
  | .object _, _, .bool _, _, _, _, _, h => by simp [mergeValues] at h
  | .object _, _, .number _, _, _, _, _, h => by simp [mergeValues] at h
  | .object _, _, .string _, _, _, _, _, h => by simp [mergeValues] at h
  | .object _, _, .array _, _, _, _, _, h => by simp [mergeValues] at h
  | .null, _, _, _, _, _, _, h => by simp [mergeValues] at h
  | .bool _, _, _, _, _, _, _, h => by simp [mergeValues] at h
  | .number _, _, _, _, _, _, _, h => by simp [mergeValues] at h
  | .string _, _, _, _, _, _, _, h => by simp [mergeValues] at h
  | .array _, _, _, _, _, _, _, h => by simp [mergeValues] at h

theorem mergeFields_dotFree (tags : List (String × String)) (source : ConfigSource) :
    (incoming : List (String × Value)) → (∀ f ∈ incoming, DotFree f.1 ∧ DotFreeKeys f.2) →
      ∀ (target : Fields) ( pre : String) (R : Paths) (m : Fields × Paths),
      DotFreeKeys (.object target) → mergeFields tags source incoming target pre R = .ok m →
      DotFreeKeys (.object m.1)
  | [], _, target, pre, R, m, ht, h => by
    simp only [mergeFields] at h
    cases h
    exact ht
  | (key, value) :: rest, hin, target, pre, R, m, ht, h => by
    obtain ⟨hkey, hvalue⟩ := hin _ List.mem_cons_self
    have hrest := fun f hf => hin f (List.mem_cons_of_mem _ hf)
    simp only [mergeFields] at h
    split at h
    · obtain ⟨child, hchild, h⟩ := bind_eq_ok h
      have hnew := mergeValues_dotFree tags source value hvalue _ _ _ _
        (dotFreeKeys_enterChild ht _ _ _ _) hchild
      exact mergeFields_dotFree tags source rest hrest _ _ _ _
        (dotFreeKeys_insertField ht hkey hnew) h
    · exact mergeFields_dotFree tags source rest hrest _ _ _ _
        (dotFreeKeys_insertField ht hkey hvalue) h
end

/-! ## Leaf paths of a layer -/

theorem mem_collectFields {fields : Fields} {key : String} {child : Value} { pre s : String}
    (hmem : (key, child) ∈ fields) (hs : s ∈ collectChild child (joinPath pre key)) :
    s ∈ collectFields fields pre := by
  induction fields with
  | nil => cases hmem
  | cons f rest ih =>
    obtain ⟨k, w⟩ := f
    rw [collectFields, List.mem_append]
    rcases List.mem_cons.mp hmem with h | h
    · cases h
      exact .inl hs
    · exact .inr (ih h)

theorem leaf_collected {fields : Fields} {key : String} {keys pre : List String} {v : Value}
    (h : leaf (.object fields) (key :: keys) = some v) (hpre : pre ≠ [""])
    (hroot : pre = [] → ∀ w, lookup fields "" = some w → w.isObject = false) :
    render (pre ++ key :: keys) ∈ collectFields fields (render pre) := by
  induction keys generalizing fields key pre with
  | nil =>
    obtain ⟨child, hlookup, hleaf⟩ := Option.bind_eq_some_iff.mp h
    refine mem_collectFields (lookup_mem hlookup) ?_
    rw [join_render hpre]
    cases hchild : child.isObject with
    | false => cases child <;> simp_all [collectChild, Value.isObject]
    | true =>
      obtain ⟨inner, rfl⟩ : ∃ inner, child = .object inner := ⟨_, Value.eq_object hchild⟩
      have hinner : inner = [] := by
        by_contra hne
        simp [leaf, hne] at hleaf
      have hne : render (pre ++ [key]) ≠ "" := by
        refine render_ne_empty (by simp) fun he => ?_
        obtain ⟨hnil, hkey⟩ := List.append_inj' (he.trans (List.nil_append _).symm) rfl
        have := hroot hnil _ (List.singleton_inj.mp hkey ▸ hlookup)
        cases this
      simp [collectChild, hinner, hne]
  | cons key' keys ih =>
    obtain ⟨child, hlookup, hleaf⟩ := Option.bind_eq_some_iff.mp h
    refine mem_collectFields (lookup_mem hlookup) ?_
    rw [join_render hpre]
    cases hchild : child.isObject with
    | false =>
      rw [leaf_scalar hchild] at hleaf
      cases hleaf
    | true =>
      obtain ⟨inner, rfl⟩ : ∃ inner, child = .object inner := ⟨_, Value.eq_object hchild⟩
      have hne : pre ++ [key] ≠ [""] := by
        intro he
        obtain ⟨hnil, hkey⟩ := List.append_inj' (he.trans (List.nil_append _).symm) rfl
        have := hroot hnil _ (List.singleton_inj.mp hkey ▸ hlookup)
        cases this
      have hinner := ih hleaf hne fun hnil => absurd hnil (by simp)
      rw [List.append_assoc, List.singleton_append] at hinner
      rw [collectChild, List.mem_append]
      exact .inr hinner

/-! ## Runs -/

/-- The recorded paths are the leaf paths of the merged document, each recorded
for a layer that holds the merged value there; the environment only supplies
what its allowlist names. -/
structure Attributed (layers : List ConfigurationLayer) (merged : Value) (paths : Paths) :
    Prop where
  exact : ∀ s, s ∈ paths ↔ ∃ keys v, keys ≠ [] ∧ leaf merged keys = some v ∧ s = render keys
  supplied : ∀ keys v, keys ≠ [] → leaf merged keys = some v →
    ∃ layer ∈ layers, paths[render keys]? = some layer.source ∧
    leaf layer.document.value keys = some v
  allowed : ∀ s, paths[s]? = some .environment → ∃ layer ∈ layers, layer.source = .environment ∧
    ∃ allowlist, layer.overrideAllowlist = some allowlist ∧ s ∈ allowlist

/-- The invariant of the loop, path by path. -/
structure Inv (layers : List ConfigurationLayer) (s : Resolution) : Prop where
  object : s.merged.isObject = true
  dotFree : DotFreeKeys s.merged
  renders : ∀ t, s.resolvedPaths[t]? ≠ none → ∃ p, KeyPath p ∧ t = render p
  synced : ∀ p, KeyPath p → (s.resolvedPaths[render p]? = none ↔ leaf s.merged p = none)
  supplied : ∀ p source, KeyPath p → s.resolvedPaths[render p]? = some source →
    ∃ layer ∈ layers, layer.source = source ∧ leaf layer.document.value p = leaf s.merged p
  allowed : ∀ p, KeyPath p → s.resolvedPaths[render p]? = some .environment →
    ∃ layer ∈ layers, layer.source = .environment ∧
      ∃ allowlist, layer.overrideAllowlist = some allowlist ∧ render p ∈ allowlist

theorem start_inv : Inv [] .start where
  object := rfl
  dotFree := .object (by simp) (by simp)
  renders t ht := absurd (by simp [Resolution.start]) ht
  synced p hp := by simp [Resolution.start, leaf_empty hp.ne_nil]
  supplied p source hp h := by simp [Resolution.start] at h
  allowed p hp h := by simp [Resolution.start] at h

theorem Inv.attributed {layers : List ConfigurationLayer} {s : Resolution} (h : Inv layers s) :
    Attributed layers s.merged s.resolvedPaths := by
  have hpath : ∀ keys v, keys ≠ [] → leaf s.merged keys = some v → KeyPath keys :=
    fun keys v hne hleaf => ⟨hne, leaf_dotFree h.dotFree hleaf⟩
  constructor
  · intro t
    rw [Std.ExtTreeMap.mem_iff_isSome_getElem?, Option.isSome_iff_ne_none]
    constructor
    · intro ht
      obtain ⟨p, hp, rfl⟩ := h.renders t ht
      have hleaf := fun hnone => ht ((h.synced p hp).mpr hnone)
      obtain ⟨v, hv⟩ := Option.ne_none_iff_exists'.mp hleaf
      exact ⟨p, v, hp.ne_nil, hv, rfl⟩
    · rintro ⟨keys, v, hne, hleaf, rfl⟩ hnone
      rw [(h.synced keys (hpath keys v hne hleaf)).mp hnone] at hleaf
      cases hleaf
  · intro keys v hne hleaf
    have hp := hpath keys v hne hleaf
    have hrecorded : s.resolvedPaths[render keys]? ≠ none := by
      intro hnone
      rw [(h.synced keys hp).mp hnone] at hleaf
      cases hleaf
    obtain ⟨source, hsource⟩ := Option.ne_none_iff_exists'.mp hrecorded
    obtain ⟨layer, hlayer, rfl, hvalue⟩ := h.supplied keys source hp hsource
    exact ⟨layer, hlayer, hsource, hvalue.trans hleaf⟩
  · intro t ht
    obtain ⟨p, hp, rfl⟩ := h.renders t (by simp [ht])
    exact h.allowed p hp ht

theorem check_ok {condition : Bool} {error : ConfigResolutionError} {u : Unit}
    (h : check condition error = .ok u) : condition = true := by
  cases condition
  · cases h
  · rfl

/-- What a processed layer went through. -/
theorem resolveLayer_ok {tags : List (String × String)} {e : Encoding} {s s' : Resolution}
    {layer : ConfigurationLayer} (h : resolveLayer tags e s layer = .ok s') :
    layer.source ∉ s.seen ∧ s'.seen = layer.source :: s.seen ∧
      layer.document.value.isObject = true ∧ checkAllowlist layer = .ok () ∧
      mergeValues tags layer.source layer.document.value s.merged "" s.resolvedPaths =
        .ok (s'.merged, s'.resolvedPaths) := by
  unfold resolveLayer at h
  obtain ⟨_, hseen, h⟩ := bind_eq_ok h
  obtain ⟨_, -, h⟩ := bind_eq_ok h
  obtain ⟨_, hobject, h⟩ := bind_eq_ok h
  obtain ⟨_, hallow, h⟩ := bind_eq_ok h
  obtain ⟨_, -, h⟩ := bind_eq_ok h
  obtain ⟨merged, hmerged, h⟩ := bind_eq_ok h
  cases h
  refine ⟨?_, rfl, check_ok hobject, hallow, hmerged⟩
  have := check_ok hseen
  simpa using this

/-- No layer maps the empty key to an object. -/
def RootNamed (layer : ConfigurationLayer) : Prop :=
  ∀ v, lookup layer.document.value.fields "" = some v → v.isObject = false

theorem mergeable_layer {layer : ConfigurationLayer}
    (hobject : layer.document.value.isObject = true)
    (hdot : DotFreeKeys layer.document.value) (hroot : RootNamed layer) :
    Mergeable layer.document.value.fields [] := by
  have hsorted := layer.document.sorted
  rw [Value.eq_object hobject] at hsorted hdot
  cases hsorted with
  | object hkeys hsorted =>
    cases hdot with
    | leaf h => cases h
    | object hfree hbelow =>
      refine ⟨hkeys, hsorted, hfree, hbelow, fun _ f hf he => hroot f.2 ?_⟩
      rw [← he]
      exact lookup_of_mem hkeys hf

theorem checkAllowlist_ok {layer : ConfigurationLayer} (h : checkAllowlist layer = .ok ())
    (hsource : layer.source = .environment) :
    ∃ allowlist, layer.overrideAllowlist = some allowlist ∧
      ∀ path ∈ collectFields layer.document.value.fields "", path ∈ allowlist := by
  unfold checkAllowlist at h
  rw [hsource] at h
  cases hlist : layer.overrideAllowlist with
  | none =>
    rw [hlist] at h
    cases h
  | some allowlist =>
    rw [hlist] at h
    refine ⟨allowlist, rfl, fun path hpath => ?_⟩
    have hmem : path ∈ (collectLeafPaths layer.document.value).toList := by
      rw [Std.ExtTreeSet.mem_toList, collectLeafPaths, Std.ExtTreeSet.mem_ofList]
      simpa using hpath
    have := forM_ok h path hmem
    by_contra hnot
    rw [if_neg hnot] at this
    cases this

/-- One layer. -/
theorem resolveLayer_inv {tags : List (String × String)} (htags : ∀ entry ∈ tags, entry.1 ≠ "")
    {e : Encoding} {s s' : Resolution} {done : List ConfigurationLayer} {layer : ConfigurationLayer}
    (hdot : DotFreeKeys layer.document.value) (hroot : RootNamed layer) (hs : Inv done s)
    (h : resolveLayer tags e s layer = .ok s') : Inv (done ++ [layer]) s' := by
  obtain ⟨-, -, hobject, hallow, hmerge⟩ := resolveLayer_ok h
  have hpos : Position tags [] := ⟨by simp, by simp, fun _ => htags⟩
  obtain ⟨target', R', hrun, hm⟩ :=
    mergeValues_spec tags layer.source layer.document.value hobject hpos
    (mergeable_layer hobject hdot hroot) s.merged.fields s.resolvedPaths
  rw [← Value.eq_object hs.object, show render [] = "" from rfl, hmerge] at hrun
  injection hrun with hrun
  rw [Prod.mk.injEq] at hrun
  obtain ⟨hmerged, hpaths⟩ := hrun
  have hdecided : ∀ p, KeyPath p →
    Decided layer.source (leaf s.merged p) (leaf layer.document.value p)
      (leaf s'.merged p) s.resolvedPaths[render p]? s'.resolvedPaths[render p]? := by
    intro p hp
    obtain ⟨key, keys, rfl⟩ := List.exists_cons_of_ne_nil hp.ne_nil
    have hd := hm.decided key keys (hp.dotFree key List.mem_cons_self)
      fun k hk => hp.dotFree k (List.mem_cons_of_mem _ hk)
    rw [← Value.eq_object hs.object, ← Value.eq_object hobject, ← hmerged, ← hpaths,
      List.nil_append] at hd
    exact hd
  have hleft : ∀ l, l ∈ done → l ∈ done ++ [layer] := fun l hl => List.mem_append_left _ hl
  have hlayer : layer ∈ done ++ [layer] := List.mem_append_right _ (List.mem_singleton.mpr rfl)
  constructor
  · rw [hmerged]
    rfl
  · exact mergeValues_dotFree tags layer.source _ hdot _ _ _ _ hs.dotFree hmerge
  · intro t ht
    rw [hpaths] at ht
    rcases hm.renders t ht with ht | ht
    · exact hs.renders t ht
    · exact ht
  · intro p hp
    cases hdecided p hp with
    | taken hnew hsome hafter => simp [hnew, hsome, hafter]
    | kept hnew hafter => rw [hnew, hafter, hs.synced p hp]
    | gone hnew hafter => simp [hnew, hafter]
  · intro p source hp hsource
    cases hdecided p hp with
    | taken hnew hsome hafter =>
      rw [hafter] at hsource
      exact ⟨layer, hlayer, Option.some.inj hsource, hnew.symm⟩
    | kept hnew hafter =>
      rw [hafter] at hsource
      obtain ⟨l, hl, hls, hleaf⟩ := hs.supplied p source hp hsource
      exact ⟨l, hleft l hl, hls, hleaf.trans hnew.symm⟩
    | gone hnew hafter =>
      rw [hafter] at hsource
      cases hsource
  · intro p hp hsource
    cases hdecided p hp with
    | taken hnew hsome hafter =>
      rw [hafter] at hsource
      obtain ⟨allowlist, hlist, hmem⟩ := checkAllowlist_ok hallow (Option.some.inj hsource)
      obtain ⟨v, hv⟩ := Option.ne_none_iff_exists'.mp hsome
      obtain ⟨key, keys, rfl⟩ := List.exists_cons_of_ne_nil hp.ne_nil
      rw [Value.eq_object hobject] at hv
      refine ⟨layer, hlayer, Option.some.inj hsource, allowlist, hlist, hmem _ ?_⟩
      exact @leaf_collected _ key keys [] v hv (by simp) fun _ => hroot
    | kept hnew hafter =>
      rw [hafter] at hsource
      obtain ⟨l, hl, hrest⟩ := hs.allowed p hp hsource
      exact ⟨l, hleft l hl, hrest⟩
    | gone hnew hafter =>
      rw [hafter] at hsource
      cases hsource

section
variable {tags : List (String × String)} {e : Encoding}

theorem run_inv (htags : ∀ entry ∈ tags, entry.1 ≠ "") {layers : List ConfigurationLayer}
    (hdot : ∀ layer ∈ layers, DotFreeKeys layer.document.value)
    (hroot : ∀ layer ∈ layers, RootNamed layer)
    {done : List ConfigurationLayer} {s s' : Resolution} (hs : Inv done s)
    (h : layers.foldlM (resolveLayer tags e) s = .ok s') : Inv (done ++ layers) s' := by
  induction layers generalizing done s with
  | nil =>
    cases h
    rwa [List.append_nil]
  | cons layer rest ih =>
    rw [List.foldlM_cons] at h
    obtain ⟨middle, hlayer, h⟩ := bind_eq_ok h
    have hmiddle := resolveLayer_inv htags (hdot layer List.mem_cons_self)
      (hroot layer List.mem_cons_self) hs hlayer
    have hall := ih (fun l hl => hdot l (List.mem_cons_of_mem _ hl))
      (fun l hl => hroot l (List.mem_cons_of_mem _ hl)) hmiddle h
    rwa [List.append_assoc, List.singleton_append] at hall

/-- Every source is processed once. -/
theorem run_sources {layers : List ConfigurationLayer} {s s' : Resolution}
    (h : layers.foldlM (resolveLayer tags e) s = .ok s') :
    (layers.map ConfigurationLayer.source).Nodup ∧ ∀ layer ∈ layers, layer.source ∉ s.seen := by
  induction layers generalizing s with
  | nil => simp
  | cons layer rest ih =>
    rw [List.foldlM_cons] at h
    obtain ⟨middle, hlayer, h⟩ := bind_eq_ok h
    obtain ⟨hnew, hseen, -⟩ := resolveLayer_ok hlayer
    obtain ⟨hnodup, hrest⟩ := ih h
    rw [hseen] at hrest
    have hapart : ∀ l ∈ rest, layer.source ≠ l.source := by
      intro l hl he
      exact hrest l hl (he ▸ List.mem_cons_self)
    constructor
    · rw [List.map_cons, List.nodup_cons]
      refine ⟨fun hmem => ?_, hnodup⟩
      obtain ⟨l, hl, he⟩ := List.mem_map.mp hmem
      exact hapart l hl he.symm
    · intro l hl
      rcases List.mem_cons.mp hl with rfl | hl
      · exact hnew
      · exact fun hmem => hrest l hl (List.mem_cons_of_mem _ hmem)

end

theorem rank_injective : Function.Injective ConfigSource.rank := by
  intro a b h
  cases a <;> cases b <;> first | rfl | cases h

theorem sortLayers_perm (layers : List ConfigurationLayer) : (sortLayers layers).Perm layers :=
  List.perm_insertionSort _ layers

/-- Layers of distinct sources have one sorted order. -/
theorem sortLayers_eq {layers layers' : List ConfigurationLayer} (hperm : layers.Perm layers')
    (hnodup : (layers.map ConfigurationLayer.source).Nodup) :
    sortLayers layers = sortLayers layers' := by
  have : Std.Total fun l r : ConfigurationLayer => l.source.rank ≤ r.source.rank :=
    ⟨fun l r => le_total l.source.rank r.source.rank⟩
  have : IsTrans ConfigurationLayer fun l r => l.source.rank ≤ r.source.rank :=
    ⟨fun _ _ _ => le_trans⟩
  refine List.Perm.eq_of_pairwise (fun a b ha hb hab hba => ?_)
    (List.pairwise_insertionSort _ layers) (List.pairwise_insertionSort _ layers')
    ((sortLayers_perm layers).trans (hperm.trans (sortLayers_perm layers').symm))
  exact List.inj_on_of_nodup_map hnodup ((sortLayers_perm layers).mem_iff.mp ha)
    (hperm.mem_iff.mpr ((sortLayers_perm layers').mem_iff.mp hb))
    (rank_injective (le_antisymm hab hba))

/-- What a successful resolution went through. -/
theorem resolveConfiguration_ok {T : Type} {schema : Schema T} {e : Encoding}
    {layers : List ConfigurationLayer} {result : EffectiveConfiguration T}
    (h : resolveConfiguration schema e layers = .ok result) :
    ∃ s, (sortLayers layers).foldlM (resolveLayer schema.configurationVariantTags e) .start = .ok s
      ∧
      result.resolvedPaths = s.resolvedPaths := by
  unfold resolveConfiguration at h
  obtain ⟨_, -, h⟩ := bind_eq_ok h
  obtain ⟨s, hs, h⟩ := bind_eq_ok h
  refine ⟨s, hs, ?_⟩
  unfold finish at h
  obtain ⟨_, -, h⟩ := bind_eq_ok h
  obtain ⟨_, -, h⟩ := bind_eq_ok h
  obtain ⟨_, -, h⟩ := bind_eq_ok h
  obtain ⟨_, -, h⟩ := bind_eq_ok h
  obtain ⟨_, -, h⟩ := bind_eq_ok h
  cases h
  rfl

theorem resolveConfiguration_perm {T : Type} {schema : Schema T} {e : Encoding}
    {layers layers' : List ConfigurationLayer} {result : EffectiveConfiguration T}
    (h : resolveConfiguration schema e layers = .ok result) (hperm : layers.Perm layers') :
    resolveConfiguration schema e layers' = .ok result := by
  obtain ⟨s, hs, -⟩ := resolveConfiguration_ok h
  have hnodup := (run_sources hs).1
  rw [((sortLayers_perm layers).map ConfigurationLayer.source).nodup_iff] at hnodup
  rw [← h]
  unfold resolveConfiguration
  rw [← sortLayers_eq hperm hnodup]
  have hempty : layers'.isEmpty = layers.isEmpty := by
    rw [Bool.eq_iff_iff, List.isEmpty_iff_length_eq_zero, List.isEmpty_iff_length_eq_zero,
      hperm.length_eq]
  rw [hempty]

/-! ## The empty key at the root

The path of a field under the empty key is written like a path of the root, so
an object there is never attributed. -/

theorem exists_leaf : (v : Value) → ∃ keys w, leaf v keys = some w
  | .null => ⟨[], _, rfl⟩
  | .bool _ => ⟨[], _, rfl⟩
  | .number _ => ⟨[], _, rfl⟩
  | .string _ => ⟨[], _, rfl⟩
  | .array _ => ⟨[], _, rfl⟩
  | .object [] => ⟨[], _, rfl⟩
  | .object ((key, child) :: _) => by
    obtain ⟨keys, w, h⟩ := exists_leaf child
    refine ⟨key :: keys, w, ?_⟩
    simp [leaf, lookup, h]

/-- Everything recorded satisfies `P`. -/
def Recorded (P : String → Prop) (R : Paths) : Prop := ∀ s, R[s]? ≠ none → P s

section
variable {P : String → Prop} {R : Paths}

theorem Recorded.remove (h : Recorded P R) (s : String) :
    Recorded P (removeRecordedSubtree R s) := by
  intro t ht
  rw [removeRecordedSubtree, Std.ExtTreeMap.getElem?_filter'] at ht
  refine h t fun hn => ht ?_
  rw [hn]
  rfl

theorem Recorded.erase (h : Recorded P R) (s : String) : Recorded P (R.erase s) := by
  intro t ht
  rw [Std.ExtTreeMap.getElem?_erase] at ht
  split at ht
  · exact absurd rfl ht
  · exact h t ht

theorem Recorded.insert (h : Recorded P R) {s : String} (hs : P s) (source : ConfigSource) :
    Recorded P (R.insert s source) := by
  intro t ht
  rw [Std.ExtTreeMap.getElem?_insert] at ht
  split at ht
  · rename_i heq
    rwa [← Std.LawfulEqOrd.compare_eq_iff_eq.mp heq]
  · exact h t ht

theorem Recorded.enterChild (h : Recorded P R) (child : Option Value) (value : Value)
    (path : String) :
    Recorded P (enterChild child value path R).2 := by
  unfold ConfigResolution.enterChild
  split
  · dsimp only
    split
    · exact h
    · exact h.erase path
  · exact h.remove path

theorem Recorded.recordEmpty (h : Recorded P R) (incoming target : Fields) { pre : String}
    (hpre : P pre)
    (source : ConfigSource) : Recorded P (recordEmpty incoming target R pre source) := by
  unfold ConfigResolution.recordEmpty
  split
  · exact (h.remove pre).insert hpre source
  · exact h

theorem Recorded.clearVariant (h : Recorded P R) (changed : Bool) (target : Fields)
    ( pre : String) :
    Recorded P (clearVariant changed target R pre).2 := by
  unfold ConfigResolution.clearVariant
  split
  · exact h.remove pre
  · exact h

end

section
variable {P : String → Prop} (hjoin : ∀ pre key, P pre → DotFree key → P (joinPath pre key))
  (tags : List (String × String)) (source : ConfigSource)
include hjoin

mutual
theorem mergeValues_recorded : (incoming : Value) → DotFreeKeys incoming → ∀ (target : Value)
    ( pre : String) (R : Paths) (m : Value × Paths), P pre → Recorded P R →
    mergeValues tags source incoming target pre R = .ok m → Recorded P m.2
  | .object incoming, hin, .object target, pre, R, m, hpre, hR, h => by
    simp only [mergeValues] at h
    obtain ⟨fields, hfields, h⟩ := bind_eq_ok h
    cases h
    cases hin with
    | leaf hobject => cases hobject
    | object hkeys hbelow =>
      refine mergeFields_recorded incoming (fun f hf =>
        ⟨hjoin pre f.1 hpre (hkeys f hf), hbelow f hf⟩) _ _ _ ?_ hfields
      exact (hR.clearVariant _ _ _).recordEmpty _ _ hpre source
  | .object _, _, .null, _, _, _, _, _, h => by simp [mergeValues] at h
  | .object _, _, .bool _, _, _, _, _, _, h => by simp [mergeValues] at h
  | .object _, _, .number _, _, _, _, _, _, h => by simp [mergeValues] at h
  | .object _, _, .string _, _, _, _, _, _, h => by simp [mergeValues] at h
  | .object _, _, .array _, _, _, _, _, _, h => by simp [mergeValues] at h
  | .null, _, _, _, _, _, _, _, h => by simp [mergeValues] at h
  | .bool _, _, _, _, _, _, _, _, h => by simp [mergeValues] at h
  | .number _, _, _, _, _, _, _, _, h => by simp [mergeValues] at h
  | .string _, _, _, _, _, _, _, _, h => by simp [mergeValues] at h
  | .array _, _, _, _, _, _, _, _, h => by simp [mergeValues] at h

theorem mergeFields_recorded : (incoming : List (String × Value)) → ∀ { pre : String},
    (∀ f ∈ incoming, P (joinPath pre f.1) ∧ DotFreeKeys f.2) → ∀ (target : Fields) (R : Paths)
    (m : Fields × Paths), Recorded P R → mergeFields tags source incoming target pre R = .ok m →
    Recorded P m.2
  | [], _, _, _, _, _, hR, h => by
    simp only [mergeFields] at h
    cases h
    exact hR
  | (key, value) :: rest, pre, hin, target, R, m, hR, h => by
    obtain ⟨hpath, hvalue⟩ := hin _ List.mem_cons_self
    have hrest := fun f hf => hin f (List.mem_cons_of_mem _ hf)
    simp only [mergeFields] at h
    split at h
    · obtain ⟨child, hchild, h⟩ := bind_eq_ok h
      have hnew := mergeValues_recorded value hvalue _ _ _ _ hpath (hR.enterChild _ _ _) hchild
      exact mergeFields_recorded rest hrest _ _ _ hnew h
    · exact mergeFields_recorded rest hrest _ _ _ ((hR.remove _).insert hpath source) h
end

end

section
variable {tags : List (String × String)} {source : ConfigSource} {R : Paths}

theorem mergeFields_others {incoming target : Fields} { pre : String} {m : Fields × Paths}
    (h : mergeFields tags source incoming target pre R = .ok m) :
    (∀ key, (∀ f ∈ incoming, f.1 ≠ key) → lookup m.1 key = lookup target key) ∧
      (target ≠ [] → m.1 ≠ []) := by
  induction incoming generalizing target R with
  | nil =>
    simp only [mergeFields] at h
    cases h
    exact ⟨fun _ _ => rfl, fun h => h⟩
  | cons f rest ih =>
    obtain ⟨key, value⟩ := f
    have hstep : ∃ v R₁, mergeFields tags source rest (insertField target key v) pre R₁ =
        .ok m := by
      simp only [mergeFields] at h
      split at h
      · obtain ⟨child, -, h⟩ := bind_eq_ok h
        exact ⟨_, _, h⟩
      · exact ⟨_, _, h⟩
    obtain ⟨v, R₁, hrest⟩ := hstep
    obtain ⟨hothers, hnonempty⟩ := ih hrest
    refine ⟨fun k hk => ?_, fun _ => hnonempty (insertField_ne_nil _ _ _)⟩
    rw [hothers k fun f hf => hk f (List.mem_cons_of_mem _ hf), lookup_insertField,
      if_neg (hk (key, value) List.mem_cons_self)]

theorem mergeFields_empty {incoming target : Fields} { pre : String} {m : Fields × Paths}
    (h : mergeFields tags source incoming target pre R = .ok m) (hm : m.1 = []) :
    incoming = [] ∧ target = [] ∧ m.2 = R := by
  have htarget : target = [] := by
    by_contra hne
    exact (mergeFields_others h).2 hne hm
  rcases incoming with _ | ⟨⟨key, value⟩, rest⟩
  · simp only [mergeFields] at h
    cases h
    exact ⟨rfl, htarget, rfl⟩
  · simp only [mergeFields] at h
    split at h
    · obtain ⟨child, -, h⟩ := bind_eq_ok h
      exact absurd hm ((mergeFields_others h).2 (insertField_ne_nil _ _ _))
    · exact absurd hm ((mergeFields_others h).2 (insertField_ne_nil _ _ _))

/-- The merge under the empty key: an object stays there, and if it is empty
nothing was recorded for it. -/
theorem mergeValues_empty_key {fields : Fields} {target m : Value} {R' : Paths}
    (h : mergeValues tags source (.object fields) target "" R = .ok (m, R')) :
    ∃ inner, m = .object inner ∧ (inner = [] → fields = [] ∧ target = .object [] ∧ R' = R) := by
  cases hobject : target.isObject with
  | false => cases target <;> simp_all [mergeValues, Value.isObject]
  | true =>
    rw [Value.eq_object hobject] at h ⊢
    simp only [mergeValues] at h
    obtain ⟨merged, hmerged, h⟩ := bind_eq_ok h
    cases h
    refine ⟨merged.1, rfl, fun hinner => ?_⟩
    obtain ⟨hfields, htarget, hR⟩ := mergeFields_empty hmerged hinner
    rw [hfields, variantChanged_nil] at htarget hR
    have hcleared : target.fields = [] := htarget
    have hrecord : merged.2 = R := by
      rw [hR, hcleared]
      rfl
    exact ⟨hfields, by rw [hcleared], hrecord⟩

end

theorem sorted_head {fields : Fields} {v : Value} (hkeys : fields.Pairwise fun l r => l.1 < r.1)
    (h : lookup fields "" = some v) : ∃ rest, fields = ("", v) :: rest := by
  rcases fields with _ | ⟨⟨key, value⟩, rest⟩
  · cases h
  · by_cases hkey : key = ""
    · subst hkey
      simp only [lookup, if_true] at h
      cases h
      exact ⟨rest, rfl⟩
    · rw [lookup, if_neg hkey] at h
      have hlt : key < "" := (List.pairwise_cons.mp hkeys).1 _ (lookup_mem h)
      have hnot : ¬ key < "" := by
        rw [String.lt_iff_toList_lt]
        exact List.not_lt_nil _
      exact absurd hlt hnot

theorem join_undotted ( pre key : String) (hpre : pre.toList.head? ≠ some '.')
    (hkey : DotFree key) :
    (joinPath pre key).toList.head? ≠ some '.' := by
  unfold joinPath
  split
  · intro h
    exact hkey (List.mem_of_mem_head? h)
  · rename_i hne
    have : pre.toList ≠ [] := by simpa using hne
    rw [String.toList_append, String.toList_append, List.append_assoc,
      List.head?_append_of_ne_nil _ this]
    exact hpre

theorem join_nonempty ( pre key : String) (hpre : pre ≠ "") (_ : DotFree key) :
    joinPath pre key ≠ "" := by
  unfold joinPath
  split
  · rename_i he
    exact absurd (by simpa using he) hpre
  · simp

/-- Nothing is recorded under the empty key for an object just entered there. -/
theorem unrecorded_empty_key {done : List ConfigurationLayer} {s : Resolution} {value : Value}
    (hdone : ∀ l ∈ done, RootNamed l) (hs : Inv done s)
    (h : (enterChild (lookup s.merged.fields "") value "" s.resolvedPaths).1 = .object []) :
    (enterChild (lookup s.merged.fields "") value "" s.resolvedPaths).2[""]? = none := by
  have hpath : KeyPath [""] := ⟨by simp, by simp [DotFree]⟩
  have hleaf : ∀ keys, leaf s.merged ("" :: keys) = (lookup s.merged.fields "").bind fun v =>
    leaf v keys := by
    intro keys
    rw [Value.eq_object hs.object]
    rfl
  have hempty : s.resolvedPaths[""]? = none → ∀ path, (s.resolvedPaths.erase path)[""]? = none := by
    intro hnone path
    rw [Std.ExtTreeMap.getElem?_erase, hnone, ite_self]
  cases hlookup : lookup s.merged.fields "" with
  | none =>
    have hnone : s.resolvedPaths[render [""]]? = none := by
      rw [hs.synced [""] hpath, hleaf, hlookup]
      rfl
    rw [render_singleton] at hnone
    simp only [enterChild, Option.getD_none]
    split
    · exact hnone
    · exact hempty hnone _
  | some child =>
    rw [hlookup] at h
    cases hobject : child.isObject with
    | true =>
      obtain ⟨inner, rfl⟩ : ∃ inner, child = .object inner := ⟨_, Value.eq_object hobject⟩
      have hinner : inner = [] := by
        have : Value.object inner = .object [] := h
        injection this
      have hsome : leaf s.merged [""] = some (.object []) := by
        rw [hleaf, hlookup, hinner]
        rfl
      -- Only a layer that breaks the condition could have put it there.
      obtain ⟨l, hl, -, hl'⟩ := hs.attributed.supplied [""] _ (by simp) hsome
      have hlayer : ∃ w, lookup l.document.value.fields "" = some w ∧
          leaf w [] = some (.object []) := by
        cases hv : l.document.value with
        | object fields =>
          rw [hv] at hl'
          exact Option.bind_eq_some_iff.mp hl'
        | _ => simp [hv, leaf] at hl'
      obtain ⟨w, hw, hwleaf⟩ := hlayer
      have hscalar := hdone l hl w hw
      rw [leaf_scalar hscalar, if_pos rfl, Option.some.injEq] at hwleaf
      rw [hwleaf] at hscalar
      cases hscalar
    | false =>
      have henter : (enterChild (some child) value "" s.resolvedPaths).2 =
          removeRecordedSubtree s.resolvedPaths (render [""]) := by
        cases child <;> first | rfl | simp_all [Value.isObject]
      have hnone := @recorded_remove s.resolvedPaths _ _ hpath hpath
      rw [if_pos List.prefix_rfl, render_singleton] at hnone
      rw [henter, render_singleton]
      exact hnone

/-- An object under the empty key is not attributed once it is merged. -/
theorem resolveLayer_unattributed {tags : List (String × String)}
    (htags : ∀ entry ∈ tags, entry.1 ≠ "")
    {e : Encoding} {s s' : Resolution} {done : List ConfigurationLayer} {layer : ConfigurationLayer}
    (hdone : ∀ l ∈ done, RootNamed l) (hdot : DotFreeKeys layer.document.value) (hs : Inv done s)
    (hundotted : Recorded (fun t => t.toList.head? ≠ some '.') s.resolvedPaths)
    (hroot : ¬ RootNamed layer) (h : resolveLayer tags e s layer = .ok s') :
    ¬ Attributed (done ++ [layer]) s'.merged s'.resolvedPaths := by
  intro hattributed
  obtain ⟨-, -, hobject, -, hmerge⟩ := resolveLayer_ok h
  have hundotted' := mergeValues_recorded join_undotted tags layer.source _ hdot _ _ _ _
    (by simp) hundotted hmerge
  obtain ⟨v, hv, hvobject⟩ : ∃ v, lookup layer.document.value.fields "" = some v ∧
      v.isObject = true := by
    by_contra hno
    refine hroot fun v hv => ?_
    cases hvobject : v.isObject with
    | false => rfl
    | true => exact absurd ⟨v, hv, hvobject⟩ hno
  have hsorted := layer.document.sorted
  rw [Value.eq_object hobject] at hsorted hdot hmerge
  rw [Value.eq_object hs.object] at hmerge
  cases hsorted with
  | object hkeys _ =>
  cases hdot with
  | leaf hleaf => cases hleaf
  | object hfree hbelow =>
  obtain ⟨rest, hfields⟩ := sorted_head hkeys hv
  rw [hfields] at hkeys hfree hbelow hmerge
  have hapart : ∀ f ∈ rest, f.1 ≠ "" := fun f hf => ne_of_gt ((List.pairwise_cons.mp hkeys).1 f hf)
  -- The root is not replaced, and the empty key comes first.
  simp only [mergeValues, variantChanged_root htags] at hmerge
  obtain ⟨merged, hmerged, hmerge⟩ := bind_eq_ok hmerge
  injection hmerge with hmerge
  rw [Prod.mk.injEq] at hmerge
  obtain ⟨hmerged', hpaths'⟩ := hmerge
  simp only [clearVariant, recordEmpty, Bool.false_eq_true, if_false, List.isEmpty_cons,
    Bool.false_and, mergeFields, hvobject, if_true] at hmerged
  obtain ⟨child, hchild, hrest⟩ := bind_eq_ok hmerged
  obtain ⟨fields, rfl⟩ : ∃ fields, v = .object fields := ⟨_, Value.eq_object hvobject⟩
  obtain ⟨inner, hinner, hempty⟩ := mergeValues_empty_key hchild
  have hlookup : lookup merged.1 "" = some (.object inner) := by
    rw [(mergeFields_others hrest).1 "" hapart, lookup_insertField, if_pos rfl, hinner]
  obtain ⟨keys, w, hleaf⟩ := exists_leaf (.object inner)
  have hleaf' : leaf s'.merged ("" :: keys) = some w := by
    rw [← hmerged', leaf, hlookup]
    exact hleaf
  have hmem := (hattributed.exact (render ("" :: keys))).mpr ⟨_, w, by simp, hleaf', rfl⟩
  rw [Std.ExtTreeMap.mem_iff_isSome_getElem?, Option.isSome_iff_ne_none] at hmem
  by_cases hkeys' : keys = []
  · subst hkeys'
    have hnil : inner = [] := by
      by_contra hne
      simp [leaf, hne] at hleaf
    obtain ⟨-, htarget, hR⟩ := hempty hnil
    have hnone := unrecorded_empty_key hdone hs htarget
    have hnonempty : Recorded (· ≠ "") child.2 := by
      intro t ht he
      rw [he, hR] at ht
      exact ht hnone
    have hin : ∀ f ∈ rest, joinPath "" f.1 ≠ "" ∧ DotFreeKeys f.2 :=
      fun f hf => ⟨hapart f hf, hbelow f (List.mem_cons_of_mem _ hf)⟩
    have hfinal := mergeFields_recorded join_nonempty tags layer.source rest hin _ _ _
      hnonempty hrest
    rw [← hpaths'] at hmem
    exact hfinal _ hmem (render_singleton "")
  · have hhead : (render ("" :: keys)).toList.head? = some '.' := by
      have happ := @render_append [""] keys (by simp) hkeys'
      rw [List.singleton_append, render_singleton] at happ
      rw [happ]
      simp
    exact hundotted' _ hmem hhead

/-! ## Resolution -/

theorem run_undotted {tags : List (String × String)} {e : Encoding}
    {layers : List ConfigurationLayer}
    (hdot : ∀ layer ∈ layers, DotFreeKeys layer.document.value) {s s' : Resolution}
    (hs : Recorded (fun t => t.toList.head? ≠ some '.') s.resolvedPaths)
    (h : layers.foldlM (resolveLayer tags e) s = .ok s') :
    Recorded (fun t => t.toList.head? ≠ some '.') s'.resolvedPaths := by
  induction layers generalizing s with
  | nil =>
    cases h
    exact hs
  | cons layer rest ih =>
    rw [List.foldlM_cons] at h
    obtain ⟨middle, hlayer, h⟩ := bind_eq_ok h
    obtain ⟨-, -, -, -, hmerge⟩ := resolveLayer_ok hlayer
    refine ih (fun l hl => hdot l (List.mem_cons_of_mem _ hl)) ?_ h
    exact mergeValues_recorded join_undotted tags layer.source _
      (hdot layer List.mem_cons_self) _ _ _ _
      (by simp) hs hmerge

theorem first_unnamed {layers : List ConfigurationLayer} (h : ¬ ∀ layer ∈ layers, RootNamed layer) :
    ∃ done layer rest, layers = done ++ layer :: rest ∧ (∀ l ∈ done, RootNamed l) ∧
    ¬ RootNamed layer := by
  induction layers with
  | nil => exact absurd (by simp) h
  | cons layer rest ih =>
    by_cases hlayer : RootNamed layer
    · have hrest : ¬ ∀ l ∈ rest, RootNamed l :=
        fun hall => h (List.forall_mem_cons.mpr ⟨hlayer, hall⟩)
      obtain ⟨done, next, later, rfl, hdone, hnext⟩ := ih hrest
      exact ⟨layer :: done, next, later, rfl, List.forall_mem_cons.mpr ⟨hlayer, hdone⟩, hnext⟩
    · exact ⟨[], layer, rest, rfl, by simp, hlayer⟩

/-- What is expected of a resolution: the attribution is right behind every
merge and in the result, which does not depend on the order of the layers. -/
structure Sound {T : Type} (schema : Schema T) (e : Encoding) (layers : List ConfigurationLayer)
    (result : EffectiveConfiguration T) : Prop where
  merges : ∀ done rest s, sortLayers layers = done ++ rest →
    done.foldlM (resolveLayer schema.configurationVariantTags e) .start = .ok s →
    Attributed done s.merged s.resolvedPaths
  final : ∃ s, (sortLayers layers).foldlM (resolveLayer schema.configurationVariantTags e) .start =
    .ok s ∧
    Attributed layers s.merged result.resolvedPaths
  order : ∀ layers', layers.Perm layers' → resolveConfiguration schema e layers' = .ok result

theorem Attributed.perm {layers layers' : List ConfigurationLayer} {merged : Value} {paths : Paths}
    (h : Attributed layers merged paths) (hperm : layers.Perm layers') :
    Attributed layers' merged paths where
  exact := h.exact
  supplied keys v hne hleaf := by
    obtain ⟨layer, hlayer, hrest⟩ := h.supplied keys v hne hleaf
    exact ⟨layer, hperm.mem_iff.mp hlayer, hrest⟩
  allowed s hs := by
    obtain ⟨layer, hlayer, hrest⟩ := h.allowed s hs
    exact ⟨layer, hperm.mem_iff.mp hlayer, hrest⟩

/-- **Attribution.** With dot-free keys and no tagged root, a resolution is
attributed exactly when no layer holds an object under the empty key. -/
theorem resolveConfiguration_sound_iff {T : Type} {schema : Schema T} {e : Encoding}
    {layers : List ConfigurationLayer} {result : EffectiveConfiguration T}
    (htags : ∀ entry ∈ schema.configurationVariantTags, entry.1 ≠ "")
    (hdot : ∀ layer ∈ layers, DotFreeKeys layer.document.value)
    (h : resolveConfiguration schema e layers = .ok result) :
    Sound schema e layers result ↔ ∀ layer ∈ layers, RootNamed layer := by
  obtain ⟨s, hs, hresult⟩ := resolveConfiguration_ok h
  have hmem : ∀ layer, layer ∈ sortLayers layers ↔ layer ∈ layers :=
    fun _ => (sortLayers_perm layers).mem_iff
  constructor
  · intro hsound
    by_contra hnot
    have hunsorted : ¬ ∀ layer ∈ sortLayers layers, RootNamed layer :=
      fun hall => hnot fun layer hlayer => hall layer ((hmem layer).mpr hlayer)
    obtain ⟨done, layer, rest, hsplit, hdone, hlayer⟩ := first_unnamed hunsorted
    have hsplit' : sortLayers layers = (done ++ [layer]) ++ rest := by
      rw [hsplit, List.append_assoc, List.singleton_append]
    have hdots : ∀ l ∈ done ++ [layer], DotFreeKeys l.document.value := by
      intro l hl
      refine hdot l ((hmem l).mp ?_)
      rw [hsplit']
      exact List.mem_append_left _ hl
    rw [hsplit', List.foldlM_append] at hs
    obtain ⟨after, hafter, -⟩ := bind_eq_ok hs
    have hattributed := hsound.merges (done ++ [layer]) rest after hsplit' hafter
    rw [List.foldlM_append] at hafter
    obtain ⟨before, hbefore, hstep⟩ := bind_eq_ok hafter
    have hstep' : resolveLayer schema.configurationVariantTags e before layer = .ok after := by
      rw [List.foldlM_cons] at hstep
      obtain ⟨middle, hmiddle, hend⟩ := bind_eq_ok hstep
      cases hend
      exact hmiddle
    have hdots' : ∀ l ∈ done, DotFreeKeys l.document.value :=
      fun l hl => hdots l (List.mem_append_left _ hl)
    have hinv := run_inv htags hdots' hdone start_inv hbefore
    have hundotted := run_undotted hdots' (fun t ht =>
      absurd (by simp [Resolution.start]) ht) hbefore
    exact resolveLayer_unattributed htags hdone (hdots layer (by simp)) hinv hundotted hlayer hstep'
      hattributed
  · intro hroot
    have hruns : ∀ done rest s', sortLayers layers = done ++ rest →
        done.foldlM (resolveLayer schema.configurationVariantTags e) .start = .ok s' →
        Attributed done s'.merged s'.resolvedPaths := by
      intro done rest s' hsplit hrun
      have hsub : ∀ l ∈ done, l ∈ layers := by
        intro l hl
        rw [← hmem, hsplit]
        exact List.mem_append_left _ hl
      exact (run_inv htags (fun l hl => hdot l (hsub l hl)) (fun l hl =>
        hroot l (hsub l hl)) start_inv hrun).attributed
    refine ⟨hruns, ⟨s, hs, ?_⟩, fun layers' hperm => resolveConfiguration_perm h hperm⟩
    rw [hresult]
    exact (hruns (sortLayers layers) [] s (List.append_nil _).symm hs).perm (sortLayers_perm layers)

/-! A configuration with one numeric field that ignores the others. -/

def shapeSchema : Schema Number where
  fromValue v := match lookup v.fields "shape" with
    | some (.number n) => .ok n
    | _ => .error "missing field shape"
  toValue n := .ok ⟨.object [("shape", .number n)], .object (by simp) (by simp [Sorted.number])⟩
  validateResolved _ := .ok ()
  configurationVariantTags := []

def plainEncoding : Encoding where
  numberText _ := "0"
  stringText s := .ok s
  sha256Hex s := s
  debug s := s

def shapeLayer (source : ConfigSource) (n : Nat) : ConfigurationLayer where
  source := source
  name := "layer"
  document := ⟨.object [("shape", .number (.posInt n))],
    .object (by simp) (by simp [Sorted.number])⟩
  overrideAllowlist := none

/-- The field sits under the empty key instead. -/
def emptyKeyLayer : ConfigurationLayer where
  source := .user
  name := "layer"
  document := ⟨.object [("", .object [("shape", .number (.posInt 1))])],
    .object (by simp) (by simp [Sorted.object, Sorted.number])⟩
  overrideAllowlist := none

theorem shapeLayer_dotFree (source : ConfigSource) (n : Nat) :
    DotFreeKeys (shapeLayer source n).document.value :=
  .object (by simp [DotFree]) fun _ hf => by
    rw [List.mem_singleton.mp hf]
    exact .leaf rfl

theorem resolveConfiguration_sound_iff_sample :
    let layers := [shapeLayer .user 1, shapeLayer .builtIn 5]
    ∃ result, resolveConfiguration shapeSchema plainEncoding layers = .ok result ∧
      Sound shapeSchema plainEncoding layers result := by
  intro layers
  have hok : (resolveConfiguration shapeSchema plainEncoding layers).map
      (fun result => result.resolvedPaths.toList) = .ok [("shape", .user)] := by
    decide +kernel
  cases hresult : resolveConfiguration shapeSchema plainEncoding layers with
  | error error =>
    rw [hresult] at hok
    cases hok
  | ok result =>
    refine ⟨result, rfl, (resolveConfiguration_sound_iff (by simp [shapeSchema]) ?_ hresult).mpr ?_⟩
    · simp [layers, shapeLayer_dotFree]
    · simp [layers, RootNamed, shapeLayer, Value.fields, lookup]

theorem emptyKeyLayer_dotFree : DotFreeKeys emptyKeyLayer.document.value := by
  refine .object (by simp [DotFree]) fun f hf => ?_
  rw [List.mem_singleton.mp hf]
  refine .object (by simp [DotFree]) fun f hf => ?_
  rw [List.mem_singleton.mp hf]
  exact .leaf rfl

/-- The value of the built-in layer is recorded as an override by the user,
whose layer has nothing there. -/
theorem empty_key_misattributed :
    let layers := [shapeLayer .builtIn 5, emptyKeyLayer]
    (∀ layer ∈ layers, DotFreeKeys layer.document.value) ∧
    ∃ result, resolveConfiguration shapeSchema plainEncoding layers = .ok result ∧
      result.resolvedPaths["shape"]? = some .user ∧
      leaf emptyKeyLayer.document.value ["shape"] = none ∧
      ¬ Sound shapeSchema plainEncoding layers result := by
  intro layers
  refine ⟨by simp [layers, shapeLayer_dotFree, emptyKeyLayer_dotFree], ?_⟩
  have hok : (resolveConfiguration shapeSchema plainEncoding layers).map
      (fun result => result.resolvedPaths["shape"]?) = .ok (some .user) := by
    decide +kernel
  have hmerged : ((sortLayers layers).foldlM (resolveLayer [] plainEncoding) .start).map
      (fun s => leaf s.merged ["shape"]) = .ok (some (.number (.posInt 5))) := by
    rfl
  cases hresult : resolveConfiguration shapeSchema plainEncoding layers with
  | error error =>
    rw [hresult] at hok
    cases hok
  | ok result =>
    have hrecorded : result.resolvedPaths["shape"]? = some .user := by
      rw [hresult] at hok
      injection hok
    refine ⟨result, rfl, hrecorded, rfl, fun hsound => ?_⟩
    obtain ⟨s, hs, hattributed⟩ := hsound.final
    have hleaf : leaf s.merged ["shape"] = some (.number (.posInt 5)) := by
      have hs' : (sortLayers layers).foldlM (resolveLayer [] plainEncoding) .start = .ok s := hs
      rw [hs'] at hmerged
      injection hmerged
    obtain ⟨layer, hlayer, hsource, hvalue⟩ := hattributed.supplied ["shape"] _ (by simp) hleaf
    rw [render_singleton, hrecorded, Option.some.injEq] at hsource
    rcases List.mem_cons.mp hlayer with rfl | hlayer
    · cases hsource
    · rw [List.mem_singleton.mp hlayer] at hvalue
      cases hvalue

end Xcelerator.Core.ConfigResolution
