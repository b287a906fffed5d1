import Mathlib

/-! # Dotted paths

A path through nested maps is a list of keys, written with dots between them.
Among keys without dots the text determines the path, and a path lies under
another exactly when its text continues the other's behind a dot. -/

namespace Xcelerator.Foundations.DottedPath

def DotFree (key : String) : Prop := '.' ∉ key.toList

def render (keys : List String) : String := ".".intercalate keys

/-- A path below the root. -/
structure KeyPath (keys : List String) : Prop where
  ne_nil : keys ≠ []
  dotFree : ∀ k ∈ keys, DotFree k

theorem KeyPath.append {p r : List String} (hp : KeyPath p) (hr : ∀ k ∈ r, DotFree k) :
    KeyPath (p ++ r) := by
  refine ⟨by simp [hp.ne_nil], fun k hk => ?_⟩
  rcases List.mem_append.mp hk with hk | hk
  · exact hp.dotFree k hk
  · exact hr k hk

theorem render_append {p r : List String} (hp : p ≠ []) (hr : r ≠ []) :
    render (p ++ r) = render p ++ "." ++ render r :=
  String.intercalate_append_of_ne_nil hp hr

theorem render_singleton (key : String) : render [key] = key :=
  String.intercalate_singleton

theorem render_chars (keys : List String) :
    (render keys).toList = ['.'].intercalate (keys.map String.toList) :=
  String.toList_intercalate

theorem splitOn_render {p : List String} (hp : KeyPath p) :
    (render p).toList.splitOn '.' = p.map String.toList := by
  rw [render_chars]
  refine List.splitOn_intercalate '.' (fun l hl => ?_) (by simp [hp.ne_nil])
  obtain ⟨k, hk, rfl⟩ := List.mem_map.mp hl
  exact hp.dotFree k hk

theorem map_toList_injective : Function.Injective (List.map String.toList) :=
  List.map_injective_iff.mpr fun _ _ h => String.toList_inj.mp h

theorem render_injective {p q : List String} (hp : KeyPath p) (hq : KeyPath q)
    (h : render p = render q) : p = q := by
  apply map_toList_injective
  rw [← splitOn_render hp, ← splitOn_render hq, h]

/-- A text continues behind a dot exactly on the paths below. -/
theorem dot_prefix_iff {p q : List String} (hp : KeyPath p) (hq : KeyPath q) :
    (render q ++ ".").toList <+: (render p).toList ↔ ∃ r, r ≠ [] ∧ p = q ++ r := by
  constructor
  · intro ⟨rest, hrest⟩
    have hchars : (render p).toList = (render q).toList ++ '.' :: rest := by
      rw [← hrest, String.toList_append, List.append_assoc]
      rfl
    have hsplit := splitOn_render hp
    rw [hchars, List.splitOn_append_cons_self, splitOn_render hq] at hsplit
    refine ⟨(rest.splitOn '.').map String.ofList, by simp, map_toList_injective ?_⟩
    rw [← hsplit, List.map_append, List.map_map]
    simp [Function.comp_def]
  · rintro ⟨r, hr, rfl⟩
    refine ⟨(render r).toList, ?_⟩
    rw [render_append hq.ne_nil hr, ← String.toList_append]

theorem render_ne_empty {p : List String} (hp : p ≠ []) (hempty : p ≠ [""]) : render p ≠ "" := by
  intro h
  rcases p with _ | ⟨k, _ | ⟨l, rest⟩⟩
  · exact hp rfl
  · rw [render_singleton] at h
    exact hempty (by rw [h])
  · have happ := @render_append [k] (l :: rest) (by simp) (by simp)
    rw [List.singleton_append, h] at happ
    have := congrArg (fun s => '.' ∈ s.toList) happ
    simp at this

end Xcelerator.Foundations.DottedPath
