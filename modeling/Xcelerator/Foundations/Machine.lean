import Mathlib.Algebra.Order.BigOperators.GroupWithZero.List
import Mathlib.Algebra.Order.Ring.Nat
import Mathlib.Data.List.GetD
import Mathlib.Tactic.Ring

/-! Fixed-width integer operations that report leaving their range. A debug
build panics where a release build wraps, so a computation that returns `ok`
here is one in which neither happens: every intermediate is the exact integer.
Slice reads and writes report an index outside the slice the same way. -/

namespace Xcelerator.Foundations.Machine

inductive Fault where
  | overflow
  | divideByZero
  | outOfBounds
  | failedAssertion
deriving DecidableEq, Repr

abbrev Checked := Except Fault

/-- An unsigned `w`-bit result. -/
def unsigned (w x : Nat) : Checked Nat := if x < 2 ^ w then .ok x else .error .overflow

/-- A signed two's-complement `w`-bit result. -/
def signed (w : Nat) (x : Int) : Checked Int :=
  if -2 ^ (w - 1) ≤ x ∧ x < 2 ^ (w - 1) then .ok x else .error .overflow

/-- Unsigned subtraction, of any width. -/
def subtract (a b : Nat) : Checked Nat := if b ≤ a then .ok (a - b) else .error .overflow

def divide (a b : Nat) : Checked Nat := if b = 0 then .error .divideByZero else .ok (a / b)

def remainder (a b : Nat) : Checked Nat := if b = 0 then .error .divideByZero else .ok (a % b)

def assert (condition : Bool) : Checked Unit :=
  if condition then .ok () else .error .failedAssertion

def read {α : Type} (xs : List α) (i : Nat) : Checked α :=
  match xs[i]? with
  | some x => .ok x
  | none => .error .outOfBounds

def write {α : Type} (xs : List α) (i : Nat) (x : α) : Checked (List α) :=
  if i < xs.length then .ok (xs.set i x) else .error .outOfBounds

/-- A left fold of checked products, as `Iterator::product`. -/
def product (w : Nat) (xs : List Nat) : Checked Nat :=
  xs.foldlM (fun acc x => unsigned w (acc * x)) 1

/-- A left fold of checked sums, as `Iterator::sum`. -/
def sum (w : Nat) (xs : List Nat) : Checked Nat :=
  xs.foldlM (fun acc x => unsigned w (acc + x)) 0

@[simp] theorem ok_bind {ε α β : Type} (x : α) (f : α → Except ε β) :
    ((Except.ok x : Except ε α) >>= f) = f x := rfl

@[simp] theorem error_bind {ε α β : Type} (e : ε) (f : α → Except ε β) :
    ((Except.error e : Except ε α) >>= f) = .error e := rfl

/-- What a successful computation is made of. -/
theorem bind_eq_ok {ε α β : Type} {x : Except ε α} {f : α → Except ε β} {b : β}
    (h : x >>= f = .ok b) : ∃ a, x = .ok a ∧ f a = .ok b := by
  cases x with
  | error e => cases h
  | ok a => exact ⟨a, rfl, h⟩

/-- Where the error of a failed computation came from. -/
theorem bind_eq_error {ε α β : Type} {x : Except ε α} {f : α → Except ε β} {e : ε}
    (h : x >>= f = .error e) : x = .error e ∨ ∃ a, x = .ok a ∧ f a = .error e := by
  cases x with
  | error e' => rw [error_bind] at h; cases h; exact .inl rfl
  | ok a => exact .inr ⟨a, rfl, h⟩

/-- Every error of the computation satisfies `P`. -/
def Refuses {ε α : Type} (P : ε → Prop) (x : Except ε α) : Prop := ∀ e, x = .error e → P e

theorem Refuses.bind {ε α β : Type} {P : ε → Prop} {x : Except ε α} {f : α → Except ε β}
    (hx : Refuses P x) (hf : ∀ a, x = .ok a → Refuses P (f a)) : Refuses P (x >>= f) := by
  intro e h
  rcases bind_eq_error h with h | ⟨a, ha, h⟩
  · exact hx e h
  · exact hf a ha e h

theorem Refuses.ok {ε α : Type} {P : ε → Prop} (a : α) : Refuses P (.ok a : Except ε α) :=
  fun _ h => by cases h

theorem mapError_ok {ε δ α : Type} {x : Except ε α} {f : ε → δ} {a : α} (h : x.mapError f = .ok a) :
    x = .ok a := by
  cases x with
  | error e => cases h
  | ok b =>
    cases h
    rfl

theorem toOption_ok {ε α : Type} {x : Except ε α} {a : α} (h : x.toOption = some a) :
    x = .ok a := by
  cases x with
  | error e => cases h
  | ok b => exact congrArg Except.ok (Option.some.inj h)

theorem forM_ok_iff {ε α : Type} {f : α → Except ε Unit} {xs : List α} {u : Unit} :
    xs.forM f = .ok u ↔ ∀ x ∈ xs, f x = .ok () := by
  induction xs with
  | nil => simp [List.forM, pure, Except.pure]
  | cons x xs ih =>
    rw [List.forM, List.forall_mem_cons]
    constructor
    · intro h
      obtain ⟨_, hx, hrest⟩ := bind_eq_ok h
      exact ⟨hx, ih.mp hrest⟩
    · intro h
      rw [h.1, ok_bind]
      exact ih.mpr h.2

theorem forM_ok {ε α : Type} {f : α → Except ε Unit} {xs : List α} {u : Unit}
    (h : xs.forM f = .ok u) :
    ∀ x ∈ xs, f x = .ok () := forM_ok_iff.mp h

theorem unsigned_ok {w x : Nat} (h : x < 2 ^ w) : unsigned w x = .ok x := if_pos h

theorem signed_ok {w : Nat} {x : Int} (hl : -2 ^ (w - 1) ≤ x) (hu : x < 2 ^ (w - 1)) :
    signed w x = .ok x := if_pos ⟨hl, hu⟩

theorem subtract_ok {a b : Nat} (h : b ≤ a) : subtract a b = .ok (a - b) := if_pos h

theorem divide_ok {a b : Nat} (h : b ≠ 0) : divide a b = .ok (a / b) := if_neg h

theorem remainder_ok {a b : Nat} (h : b ≠ 0) : remainder a b = .ok (a % b) := if_neg h

theorem read_ok {α : Type} {xs : List α} {i : Nat} {x : α} (h : xs[i]? = some x) :
    read xs i = .ok x := by simp [read, h]

theorem read_getD {α : Type} {xs : List α} {i : Nat} (d : α) (h : i < xs.length) :
    read xs i = .ok (xs.getD i d) := by
  rw [read_ok (List.getElem?_eq_getElem h), List.getD_eq_getElem xs d h]

theorem getD_mem {α : Type} {xs : List α} {i : Nat} (d : α) (h : i < xs.length) :
    xs.getD i d ∈ xs := by
  rw [List.getD_eq_getElem xs d h]
  exact List.getElem_mem h

theorem write_ok {α : Type} {xs : List α} {i : Nat} (x : α) (h : i < xs.length) :
    write xs i x = .ok (xs.set i x) := if_pos h

theorem product_ok {w : Nat} {xs : List Nat} (hpos : ∀ x ∈ xs, 0 < x)
    (h : xs.prod < 2 ^ w) : product w xs = .ok xs.prod := by
  have run : ∀ (ys : List Nat) (acc : Nat), (∀ y ∈ ys, 0 < y) → acc * ys.prod < 2 ^ w →
      ys.foldlM (fun acc x => unsigned w (acc * x)) acc = .ok (acc * ys.prod) := by
    intro ys
    induction ys with
    | nil => intro acc _ _; simp [pure, Except.pure]
    | cons y ys ih =>
      intro acc hy hb
      rw [List.prod_cons, ← Nat.mul_assoc] at hb ⊢
      have htail : 0 < ys.prod := List.prod_pos fun z hz => hy z (by simp [hz])
      have hstep : acc * y < 2 ^ w := lt_of_le_of_lt (Nat.le_mul_of_pos_right _ htail) hb
      rw [List.foldlM_cons, unsigned_ok hstep, ok_bind]
      exact ih _ (fun z hz => hy z (by simp [hz])) hb
  simpa [product] using run xs 1 hpos (by simpa using h)

theorem sum_ok {w : Nat} {xs : List Nat} (h : xs.sum < 2 ^ w) : sum w xs = .ok xs.sum := by
  have run : ∀ (ys : List Nat) (acc : Nat), acc + ys.sum < 2 ^ w →
      ys.foldlM (fun acc x => unsigned w (acc + x)) acc = .ok (acc + ys.sum) := by
    intro ys
    induction ys with
    | nil => intro acc _; simp [pure, Except.pure]
    | cons y ys ih =>
      intro acc hb
      rw [List.sum_cons, ← Nat.add_assoc] at hb ⊢
      rw [List.foldlM_cons, unsigned_ok (by omega), ok_bind]
      exact ih _ hb
  simpa [sum] using run xs 0 (by simpa using h)

/-- A traversal whose every step succeeds is the plain map. -/
theorem mapM_ok {ε α β : Type} {f : α → Except ε β} {g : α → β} {xs : List α}
    (h : ∀ x ∈ xs, f x = .ok (g x)) : xs.mapM f = .ok (xs.map g) := by
  induction xs with
  | nil => rfl
  | cons x xs ih =>
    rw [List.mapM_cons, h x (by simp), ok_bind, ih fun y hy => h y (by simp [hy]), ok_bind]
    rfl

/-- A traversal whose every step succeeds with a related value. -/
theorem mapM_forall₂ {ε α β : Type} {f : α → Except ε β} {Q : α → β → Prop} {xs : List α}
    (h : ∀ x ∈ xs, ∃ y, f x = .ok y ∧ Q x y) :
    ∃ ys, xs.mapM f = .ok ys ∧ List.Forall₂ Q xs ys := by
  induction xs with
  | nil => exact ⟨[], rfl, .nil⟩
  | cons x xs ih =>
    obtain ⟨y, hy, hq⟩ := h x (by simp)
    obtain ⟨ys, hys, hqs⟩ := ih fun z hz => h z (by simp [hz])
    refine ⟨y :: ys, ?_, .cons hq hqs⟩
    rw [List.mapM_cons, hy, ok_bind, hys, ok_bind]
    rfl

end Xcelerator.Foundations.Machine
