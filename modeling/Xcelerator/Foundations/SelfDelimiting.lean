import Mathlib

/-! # Self-delimiting texts

An item is read from the front of a text in only one way when what follows it
does not continue it. Runs of one class of characters and separated lists inside
a closing mark are read so. -/

namespace Xcelerator.Foundations.SelfDelimiting

/-- What follows does not continue an item. -/
def Stops (continues : Char → Bool) (rest : List Char) : Prop :=
  ∀ c ∈ rest.head?, continues c = false

theorem stops_cons {continues : Char → Bool} {c : Char} (h : continues c = false)
    (rest : List Char) :
    Stops continues (c :: rest) := by
  intro d hd
  rw [List.head?_cons, Option.mem_some_iff] at hd
  rw [← hd]
  exact h

/-- No other item of the class `P`, and no other rest, gives the same text. -/
def Reads {α : Type} (continues : Char → Bool) (text : α → List Char) (P : α → Prop) (x : α) :
    Prop :=
  ∀ y, P y → ∀ r s, Stops continues r → Stops continues s → text x ++ r = text y ++ s →
    x = y ∧ r = s

theorem takeWhile_run {continues : Char → Bool} {run rest : List Char}
    (hrun : ∀ c ∈ run, continues c = true)
    (hrest : Stops continues rest) : (run ++ rest).takeWhile continues = run := by
  rw [List.takeWhile_append_of_pos hrun]
  cases rest with
  | nil => simp
  | cons c rest => rw [List.takeWhile_cons_of_neg (by rw [hrest c rfl]; exact Bool.false_ne_true),
      List.append_nil]

theorem run_unique {continues : Char → Bool} {a b r s : List Char}
    (ha : ∀ c ∈ a, continues c = true)
    (hb : ∀ c ∈ b, continues c = true) (hr : Stops continues r) (hs : Stops continues s)
    (h : a ++ r = b ++ s) :
    a = b ∧ r = s := by
  have hsame : a = b := by rw [← takeWhile_run ha hr, h, takeWhile_run hb hs]
  rw [hsame] at h
  exact ⟨hsame, List.append_cancel_left h⟩

section
variable {α : Type} (separator : Char) (text : α → List Char)

/-- The items after the first one. -/
def following (xs : List α) : List Char := xs.flatMap fun x => separator :: text x

def separated : List α → List Char
  | [] => []
  | x :: xs => text x ++ following separator text xs

variable {separator text} {continues : Char → Bool} {P : α → Prop} {closing : Char}

theorem stops_following (hseparator : continues separator = false)
    (hclosing : continues closing = false)
    (xs : List α) (r : List Char) :
    Stops continues (following separator text xs ++ closing :: r) := by
  cases xs with
  | nil => exact stops_cons hclosing r
  | cons x xs =>
    rw [following, List.flatMap_cons, List.cons_append, List.cons_append]
    exact stops_cons hseparator _

theorem following_unique (hseparator : continues separator = false)
    (hclosing : continues closing = false)
    (hne : separator ≠ closing) {xs ys : List α} (hxs : ∀ x ∈ xs, Reads continues text P x)
    (hys : ∀ y ∈ ys, P y)
    {r s : List Char} (h : following separator text xs ++ closing :: r =
      following separator text ys ++ closing :: s) :
    xs = ys ∧ r = s := by
  induction xs generalizing ys with
  | nil =>
    cases ys with
    | nil => exact ⟨rfl, (List.cons.inj h).2⟩
    | cons y ys => exact absurd (List.cons.inj h).1.symm hne
  | cons x xs ih =>
    cases ys with
    | nil => exact absurd (List.cons.inj h).1 hne
    | cons y ys =>
      rw [following, following, List.flatMap_cons, List.flatMap_cons, List.cons_append,
        List.cons_append,
        List.cons_append, List.cons_append, List.append_assoc, List.append_assoc] at h
      obtain ⟨rfl, hrest⟩ := hxs x List.mem_cons_self y (hys y List.mem_cons_self) _ _
        (stops_following hseparator hclosing xs r) (stops_following hseparator hclosing ys s)
        (List.cons.inj h).2
      obtain ⟨rfl, hrs⟩ := ih (fun z hz => hxs z (List.mem_cons_of_mem _ hz))
        (fun z hz => hys z (List.mem_cons_of_mem _ hz)) hrest
      exact ⟨rfl, hrs⟩

/-- A list inside its closing mark, when no item starts with that mark. -/
theorem separated_unique (hseparator : continues separator = false)
    (hclosing : continues closing = false)
    (hne : separator ≠ closing) (hfirst : ∀ x, P x → ∃ c rest, text x = c :: rest ∧ c ≠ closing)
    {xs ys : List α}
    (hxs : ∀ x ∈ xs, Reads continues text P x) (hpx : ∀ x ∈ xs, P x) (hys : ∀ y ∈ ys, P y)
    {r s : List Char}
    (h : separated separator text xs ++ closing :: r = separated separator text ys ++
      closing :: s) :
    xs = ys ∧ r = s := by
  cases xs with
  | nil =>
    cases ys with
    | nil => exact ⟨rfl, (List.cons.inj h).2⟩
    | cons y ys =>
      obtain ⟨c, rest, htext, hc⟩ := hfirst y (hys y List.mem_cons_self)
      rw [separated, separated, htext] at h
      exact absurd (List.cons.inj h).1.symm hc
  | cons x xs =>
    cases ys with
    | nil =>
      obtain ⟨c, rest, htext, hc⟩ := hfirst x (hpx x List.mem_cons_self)
      rw [separated, separated, htext] at h
      exact absurd (List.cons.inj h).1 hc
    | cons y ys =>
      rw [separated, separated, List.append_assoc, List.append_assoc] at h
      obtain ⟨rfl, hrest⟩ := hxs x List.mem_cons_self y (hys y List.mem_cons_self) _ _
        (stops_following hseparator hclosing xs r) (stops_following hseparator hclosing ys s) h
      obtain ⟨rfl, hrs⟩ := following_unique hseparator hclosing hne (fun z hz =>
        hxs z (List.mem_cons_of_mem _ hz))
        (fun z hz => hys z (List.mem_cons_of_mem _ hz)) hrest
      exact ⟨rfl, hrs⟩

end

end Xcelerator.Foundations.SelfDelimiting
