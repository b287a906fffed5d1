import Mathlib
import Xcelerator.Foundations.Machine

/-! # Agreement of two fallible computations

Two programs that may stop with an error agree when both return, with related
results, or both stop with one error out of the expected ones. Agreement follows
the structure of the programs: sequencing, loops over a list and error
translation keep it. -/

namespace Xcelerator.Foundations.Agreement

variable {ε α β γ δ : Type} {expected : ε → Prop}

/-- Related results, or one expected error on both sides. -/
def Agrees (expected : ε → Prop) (R : α → β → Prop) : Except ε α → Except ε β → Prop
  | .ok a, .ok b => R a b
  | .error e, .error e' => e = e' ∧ expected e
  | _, _ => False

theorem agrees_ok {R : α → β → Prop} {a : α} {b : β} (h : R a b) :
    Agrees expected R (.ok a) (.ok b) := h

theorem Agrees.bind {R : α → β → Prop} {S : γ → δ → Prop} {x : Except ε α} {y : Except ε β}
    {f : α → Except ε γ} {g : β → Except ε δ} (h : Agrees expected R x y)
    (hf : ∀ a b, R a b → Agrees expected S (f a) (g b)) :
    Agrees expected S (x >>= f) (y >>= g) := by
  cases x with
  | error e =>
    cases y with
    | error e' => exact h
    | ok b => exact h.elim
  | ok a =>
    cases y with
    | error e' => exact h.elim
    | ok b => exact hf a b h

/-- A computation agrees with itself as far as its errors are expected. -/
theorem agrees_self {x : Except ε α} (h : ∀ e, x = .error e → expected e) :
    Agrees expected Eq x x := by
  cases x with
  | error e => exact ⟨rfl, h e rfl⟩
  | ok a => exact rfl

theorem Agrees.imp {R S : α → β → Prop} {x : Except ε α} {y : Except ε β}
    (h : Agrees expected R x y) (hR : ∀ a b, x = .ok a → y = .ok b → R a b → S a b) :
    Agrees expected S x y := by
  cases x with
  | error e =>
    cases y with
    | error e' => exact h
    | ok b => exact h.elim
  | ok a =>
    cases y with
    | error e' => exact h.elim
    | ok b => exact hR a b rfl rfl h

theorem Agrees.eq {x y : Except ε α} (h : Agrees expected Eq x y) :
    x = y ∧ ∀ e, x = .error e → expected e := by
  cases x with
  | error e =>
    cases y with
    | error e' =>
      refine ⟨congrArg _ h.1, fun e'' he => ?_⟩
      cases he
      exact h.2
    | ok b => exact h.elim
  | ok a =>
    cases y with
    | error e' => exact h.elim
    | ok b => exact ⟨congrArg _ h, nofun⟩

/-- A loop over a list: the relation is an invariant of the two bodies. -/
theorem Agrees.foldlM {R : α → β → Prop} {f : α → γ → Except ε α} {g : β → γ → Except ε β}
    {items : List γ} (hstep : ∀ a b, ∀ c ∈ items, R a b → Agrees expected R (f a c) (g b c))
    {a : α} {b : β} (h : R a b) : Agrees expected R (items.foldlM f a) (items.foldlM g b) := by
  induction items generalizing a b with
  | nil => exact h
  | cons c items ih =>
    rw [List.foldlM_cons, List.foldlM_cons]
    refine (hstep a b c (by simp) h).bind fun a' b' h' => ?_
    exact ih (fun a b c hc => hstep a b c (List.mem_cons_of_mem _ hc)) h'

/-- Errors renamed on both sides. -/
theorem Agrees.mapError {ε' : Type} {expected' : ε' → Prop} {R : α → β → Prop} {x : Except ε α}
    {y : Except ε β} (h : Agrees expected R x y) (f : ε → ε')
    (hf : ∀ e, expected e → expected' (f e)) :
    Agrees expected' R (x.mapError f) (y.mapError f) := by
  cases x with
  | error e =>
    cases y with
    | error e' => exact ⟨congrArg f h.1, hf e h.2⟩
    | ok b => exact h.elim
  | ok a =>
    cases y with
    | error e' => exact h.elim
    | ok b => exact h

/-- Two programs with the same results, whatever their errors, in sequence. -/
theorem toOption_bind {x y : Except ε α} {f g : α → Except ε β} (h : x.toOption = y.toOption)
    (hf : ∀ a, x = .ok a → (f a).toOption = (g a).toOption) :
    (x >>= f).toOption = (y >>= g).toOption := by
  cases x with
  | error e =>
    cases y with
    | error e' => rfl
    | ok b => cases h
  | ok a =>
    cases y with
    | error e' => cases h
    | ok b =>
      cases h
      exact hf a rfl

end Xcelerator.Foundations.Agreement
