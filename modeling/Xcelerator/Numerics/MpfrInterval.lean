import Mathlib
import Xcelerator.Foundations.Machine
import Xcelerator.Numerics.Interval

/-! # Outward-rounded MPFR intervals

MPFR itself is the parameter `Rounding`: the rounding of an exact value, and of a
square root, at a precision in a direction; `none` is a result that is not
finite. A finite float is its exact value. The sign of a zero is left out: no
comparison of the modelled functions separates the two zeros.

The fields of an interval are private and every constructor either validates
them or stores the NaN pair, so an interval is an ordered enclosure or
`invalid`. Infallible operations return `invalid` on an invalid operand, on
mixed precisions and on an unrepresentable result. -/

namespace Xcelerator.Numerics.Mpfr
open Xcelerator.Foundations.Machine (bind_eq_ok)
open Xcelerator.Numerics.Interval

inductive Round where
  | down
  | up
deriving DecidableEq, Repr

structure Rounding where
  round : Nat → Round → ℚ → Option ℚ
  sqrt : Nat → Round → ℚ → Option ℚ

/-- Directed rounding of finite results, as MPFR documents it. -/
structure Rounding.Directed (m : Rounding) : Prop where
  round_down : ∀ {p x r}, m.round p .down x = some r → r ≤ x
  round_up : ∀ {p x r}, m.round p .up x = some r → x ≤ r
  sqrt_down : ∀ {p x r}, m.sqrt p .down x = some r → (r : ℝ) ≤ √(x : ℝ)
  sqrt_up : ∀ {p x r}, m.sqrt p .up x = some r → √(x : ℝ) ≤ r

/-- The unit in the last place of a float of magnitude `2 ^ e`. -/
def ulp (p : Nat) (e : Int) : ℚ := 2 ^ (e + 1 - p)

/-- Correct rounding without a bound on the exponent. -/
def Rounding.unbounded : Rounding where
  round p direction x :=
    let u := ulp p (Int.log 2 |x|)
    match direction with
    | .down => some (⌊x / u⌋ * u)
    | .up => some (⌈x / u⌉ * u)
  sqrt p direction x :=
    let u := ulp p (Int.log 2 x / 2)
    let s := Nat.sqrt ⌊x / (u * u)⌋₊
    if x < 0 then none
    else match direction with
      | .down => some (s * u)
      | .up => if (s * u) * (s * u) = x then some (s * u) else some ((s + 1) * u)

theorem ulp_pos (p : Nat) (e : Int) : 0 < ulp p e := by
  unfold ulp
  positivity

theorem Rounding.unbounded_directed : Rounding.unbounded.Directed where
  round_down {p x r} h := by
    cases h
    exact (le_div_iff₀ (ulp_pos _ _)).mp (Int.floor_le _)
  round_up {p x r} h := by
    cases h
    exact (div_le_iff₀ (ulp_pos _ _)).mp (Int.le_ceil _)
  sqrt_down {p x r} h := by
    have hu := ulp_pos p (Int.log 2 x / 2)
    simp only [Rounding.unbounded] at h
    generalize ulp p (Int.log 2 x / 2) = u at hu h
    split at h
    · cases h
    · rename_i hx
      cases h
      rw [not_lt] at hx
      refine Real.le_sqrt_of_sq_le ?_
      have hs : ((Nat.sqrt ⌊x / (u * u)⌋₊ : ℚ)) ^ 2 ≤ x / (u * u) := by
        refine le_trans ?_ (Nat.floor_le (by positivity))
        exact_mod_cast Nat.sqrt_le' _
      rw [le_div_iff₀ (by positivity)] at hs
      exact_mod_cast (by nlinarith [hs] : ((Nat.sqrt ⌊x / (u * u)⌋₊ : ℚ) * u) ^ 2 ≤ x)
  sqrt_up {p x r} h := by
    have hu := ulp_pos p (Int.log 2 x / 2)
    simp only [Rounding.unbounded] at h
    generalize ulp p (Int.log 2 x / 2) = u at hu h
    split at h
    · cases h
    · split at h
      · rename_i hsquare
        cases h
        refine Real.sqrt_le_iff.mpr ⟨by positivity, ?_⟩
        rw [sq]
        exact_mod_cast hsquare.ge
      · cases h
        refine Real.sqrt_le_iff.mpr ⟨by positivity, ?_⟩
        have hs : x / (u * u) < ((Nat.sqrt ⌊x / (u * u)⌋₊ : ℚ) + 1) ^ 2 := by
          refine (Nat.lt_floor_add_one _).trans_le ?_
          exact_mod_cast Nat.lt_succ_sqrt' _
        rw [div_lt_iff₀ (by positivity)] at hs
        exact_mod_cast (by nlinarith [hs] : x ≤ (((Nat.sqrt ⌊x / (u * u)⌋₊ : ℚ) + 1) * u) ^ 2)

inductive MpfrInterval where
  | enclosure (precision : Nat) (lower upper : ℚ) (ordered : lower ≤ upper)
  | invalid (precision : Nat)
deriving Repr

instance : DecidableEq MpfrInterval
  | .enclosure p l u _, .enclosure p' l' u' _ =>
    decidable_of_iff (p = p' ∧ l = l' ∧ u = u') (by simp)
  | .invalid p, .invalid p' => decidable_of_iff (p = p') (by simp)
  | .enclosure .., .invalid _ => isFalse (by simp)
  | .invalid _, .enclosure .. => isFalse (by simp)

namespace MpfrInterval

def unordered : IntervalError := .invalid "MPFR interval endpoints must be finite and ordered"
def unrepresentable : IntervalError := .invalid "invalid or unrepresentable MPFR interval"

def new (p : Nat) (lower upper : Option ℚ) : Result MpfrInterval :=
  match lower, upper with
  | some l, some u => if h : l ≤ u then .ok (.enclosure p l u h) else .error unordered
  | _, _ => .error unordered

def arithmeticResult (p : Nat) (lower upper : Option ℚ) : MpfrInterval :=
  match new p lower upper with
  | .ok value => value
  | .error _ => .invalid p

def precision : MpfrInterval → Nat
  | .enclosure p _ _ _ => p
  | .invalid p => p

def validate : MpfrInterval → Result Unit
  | .enclosure _ _ _ _ => .ok ()
  | .invalid _ => .error unrepresentable

def containsZero : MpfrInterval → Bool
  | .enclosure _ l u _ => decide (l ≤ 0) && decide (u ≥ 0)
  | .invalid _ => true

def isStrictlyPositive : MpfrInterval → Bool
  | .enclosure _ l _ _ => decide (l > 0)
  | .invalid _ => false

/-- `upper() < 0`, false on NaN. -/
def upperNegative : MpfrInterval → Bool
  | .enclosure _ _ u _ => decide (u < 0)
  | .invalid _ => false

/-- The guard of the infallible binary operations: valid operands of one precision. -/
def combine (endpoints : Nat → ℚ → ℚ → ℚ → ℚ → Option ℚ × Option ℚ) :
    MpfrInterval → MpfrInterval → MpfrInterval
  | .enclosure p l u _, .enclosure p' l' u' _ =>
    if p = p' then
      arithmeticResult p (endpoints p l u l' u').1 (endpoints p l u l' u').2
    else .invalid p
  | a, _ => .invalid a.precision

section
variable (m : Rounding)

def fromI64 (value : Int) (p : Nat) : MpfrInterval :=
  arithmeticResult p (m.round p .down value) (m.round p .up value)

def add : MpfrInterval → MpfrInterval → MpfrInterval :=
  combine fun p l u l' u' => (m.round p .down (l + l'), m.round p .up (u + u'))

def sub : MpfrInterval → MpfrInterval → MpfrInterval :=
  combine fun p l u l' u' => (m.round p .down (l - u'), m.round p .up (u - l'))

def neg : MpfrInterval → MpfrInterval
  | .enclosure p l u h => .enclosure p (-u) (-l) (neg_le_neg h)
  | .invalid p => .invalid p

/-- The distinct endpoints of an operand. -/
def corners (l u : ℚ) : List ℚ := if l = u then [l] else [l, u]

/-- The exact products of the distinct corners, in the order they are rounded. -/
def cornerProducts (al au bl bu : ℚ) : List ℚ :=
  (corners al au).flatMap fun x => (corners bl bu).map fun y => x * y

/-- The extrema of the rounded corner products; an infinite one makes its
extremum infinite, since rounding down never gives `+inf` nor rounding up `-inf`. -/
def roundedLower (p : Nat) (products : List ℚ) : Option ℚ := do
  (← products.mapM (m.round p .down)).min?

def roundedUpper (p : Nat) (products : List ℚ) : Option ℚ := do
  (← products.mapM (m.round p .up)).max?

def mul : MpfrInterval → MpfrInterval → MpfrInterval :=
  combine fun p l u l' u' =>
    let products := cornerProducts l u l' u'
    (roundedLower m p products, roundedUpper m p products)

/-- On NaN the maximum of the absolute values is NaN, and so is the square. -/
def square (a : MpfrInterval) : MpfrInterval :=
  match a with
  | .enclosure p l u _ =>
    if a.containsZero then
      let maximum := max |l| |u|
      arithmeticResult p (some 0) (m.round p .up (maximum * maximum))
    else mul m a a
  | .invalid p => .invalid p

def reciprocal (a : MpfrInterval) : Result MpfrInterval :=
  match a with
  | .enclosure p l u _ =>
    if a.containsZero then .error .divisionByZeroInterval
    else new p (m.round p .down (1 / u)) (m.round p .up (1 / l))
  | .invalid _ => .error unrepresentable

def div (a b : MpfrInterval) : Result MpfrInterval := do
  a.validate
  b.validate
  if a.precision = b.precision then
    let result := mul m a (← reciprocal m b)
    result.validate
    return result
  else .error (.invalid "MPFR interval precision mismatch")

def sqrt : MpfrInterval → Result MpfrInterval
  | .enclosure p l u _ =>
    if l < 0 then .error (.invalid "square-root interval has a negative lower endpoint")
    else new p (m.sqrt p .down l) (m.sqrt p .up u)
  | .invalid _ => .error unrepresentable

end

/-! ## Enclosure -/

/-- The reals an interval encloses; an invalid one encloses nothing. -/
def Contains : MpfrInterval → ℝ → Prop
  | .enclosure _ l u _, x => (l : ℝ) ≤ x ∧ x ≤ u
  | .invalid _, _ => False

/-- Not the NaN pair. -/
def Valid : MpfrInterval → Prop
  | .enclosure _ _ _ _ => True
  | .invalid _ => False

theorem Contains.valid {a : MpfrInterval} {x : ℝ} (h : a.Contains x) : a.Valid := by
  cases a with
  | enclosure p l u _ => trivial
  | invalid p => exact h

theorem validate_ok {a : MpfrInterval} {u : Unit} (h : a.validate = .ok u) : a.Valid := by
  cases a with
  | enclosure p l u _ => trivial
  | invalid p => cases h

theorem isStrictlyPositive_pos {a : MpfrInterval} {x : ℝ} (h : a.isStrictlyPositive = true)
    (hx : a.Contains x) : 0 < x := by
  cases a with
  | enclosure p l u _ =>
    have hl : 0 < l := of_decide_eq_true h
    exact lt_of_lt_of_le (by exact_mod_cast hl) hx.1
  | invalid p => cases h

theorem upperNegative_neg {a : MpfrInterval} {x : ℝ} (h : a.upperNegative = true)
    (hx : a.Contains x) : x < 0 := by
  cases a with
  | enclosure p l u _ =>
    have hu : u < 0 := of_decide_eq_true h
    exact lt_of_le_of_lt hx.2 (by exact_mod_cast hu)
  | invalid p => cases h

theorem ne_zero_of_not_containsZero {a : MpfrInterval} {x : ℝ} (h : a.containsZero = false)
    (hx : a.Contains x) : x ≠ 0 := by
  cases a with
  | invalid p => cases h
  | enclosure p l u _ =>
    rintro rfl
    have hl : l ≤ 0 := by exact_mod_cast hx.1
    have hu : u ≥ 0 := by exact_mod_cast hx.2
    simp [containsZero, hl, hu] at h

/-- A constructed interval encloses what lies between its rounded endpoints. -/
theorem new_contains {p : Nat} {lower upper : Option ℚ} {a : MpfrInterval} {x : ℝ}
    (h : new p lower upper = .ok a) (hl : ∀ l, lower = some l → (l : ℝ) ≤ x)
    (hu : ∀ u, upper = some u → x ≤ u) : a.Contains x := by
  unfold new at h
  split at h
  · split at h
    · cases h
      exact ⟨hl _ rfl, hu _ rfl⟩
    · cases h
  · cases h

theorem arithmeticResult_contains {p : Nat} {lower upper : Option ℚ} {x : ℝ}
    (h : (arithmeticResult p lower upper).Valid) (hl : ∀ l, lower = some l → (l : ℝ) ≤ x)
    (hu : ∀ u, upper = some u → x ≤ u) : (arithmeticResult p lower upper).Contains x := by
  unfold arithmeticResult at h ⊢
  split
  · exact new_contains ‹_› hl hu
  · rename_i hnew
    rw [hnew] at h
    exact h

section
variable {m : Rounding}

theorem fromI64_contains (hm : m.Directed) {value : Int} {p : Nat} (h : (fromI64 m value p).Valid) :
    (fromI64 m value p).Contains value := by
  refine arithmeticResult_contains h (fun l hl => ?_) fun u hu => ?_
  · exact_mod_cast hm.round_down hl
  · exact_mod_cast hm.round_up hu

/-- A valid combination comes from valid operands. -/
theorem combine_valid {f : Nat → ℚ → ℚ → ℚ → ℚ → Option ℚ × Option ℚ} {a b : MpfrInterval}
    (h : (combine f a b).Valid) : a.Valid ∧ b.Valid := by
  cases a <;> cases b
  case enclosure.enclosure => exact ⟨trivial, trivial⟩
  all_goals exact h.elim

/-- A valid combination encloses a value its endpoint rule bounds. -/
theorem combine_contains {f : Nat → ℚ → ℚ → ℚ → ℚ → Option ℚ × Option ℚ} {a b : MpfrInterval}
    {x y z : ℝ} (hx : a.Contains x) (hy : b.Contains y) (h : (combine f a b).Valid)
    (hf : ∀ p l u l' u', ((l : ℚ) : ℝ) ≤ x ∧ x ≤ ((u : ℚ) : ℝ) →
      ((l' : ℚ) : ℝ) ≤ y ∧ y ≤ ((u' : ℚ) : ℝ) →
      (∀ r, (f p l u l' u').1 = some r → (r : ℝ) ≤ z) ∧
        ∀ r, (f p l u l' u').2 = some r → z ≤ r) : (combine f a b).Contains z := by
  cases a with
  | invalid p => exact hx.elim
  | enclosure p l u _ =>
    cases b with
    | invalid p' => exact hy.elim
    | enclosure p' l' u' _ =>
      by_cases hp : p = p'
      · rw [combine, if_pos hp] at h ⊢
        have hbounds := hf p l u l' u' hx hy
        exact arithmeticResult_contains h hbounds.1 hbounds.2
      · rw [combine, if_neg hp] at h
        exact h.elim

theorem square_valid {a : MpfrInterval} (h : (square m a).Valid) : a.Valid := by
  cases a with
  | enclosure p l u _ => trivial
  | invalid p => exact h.elim

theorem Contains.add (hm : m.Directed) {a b : MpfrInterval} {x y : ℝ} (hx : a.Contains x)
    (hy : b.Contains y) (h : (add m a b).Valid) : (add m a b).Contains (x + y) := by
  refine combine_contains hx hy h fun p l u l' u' hx hy => ⟨fun r hr => ?_, fun r hr => ?_⟩
  · have hle : (r : ℝ) ≤ ((l + l' : ℚ) : ℝ) := by exact_mod_cast hm.round_down hr
    push_cast at hle
    exact hle.trans (add_le_add hx.1 hy.1)
  · have hle : ((u + u' : ℚ) : ℝ) ≤ r := by exact_mod_cast hm.round_up hr
    push_cast at hle
    exact (add_le_add hx.2 hy.2).trans hle

theorem Contains.sub (hm : m.Directed) {a b : MpfrInterval} {x y : ℝ} (hx : a.Contains x)
    (hy : b.Contains y) (h : (sub m a b).Valid) : (sub m a b).Contains (x - y) := by
  refine combine_contains hx hy h fun p l u l' u' hx hy => ⟨fun r hr => ?_, fun r hr => ?_⟩
  · have hle : (r : ℝ) ≤ ((l - u' : ℚ) : ℝ) := by exact_mod_cast hm.round_down hr
    push_cast at hle
    exact hle.trans (sub_le_sub hx.1 hy.2)
  · have hle : ((u - l' : ℚ) : ℝ) ≤ r := by exact_mod_cast hm.round_up hr
    push_cast at hle
    exact (sub_le_sub hx.2 hy.1).trans hle

theorem Contains.neg {a : MpfrInterval} {x : ℝ} (hx : a.Contains x) : (neg a).Contains (-x) := by
  cases a with
  | invalid p => exact hx
  | enclosure p l u _ =>
    unfold MpfrInterval.neg Contains
    push_cast
    exact ⟨neg_le_neg hx.2, neg_le_neg hx.1⟩

theorem mapM_some_mem {f : ℚ → Option ℚ} {xs ys : List ℚ} (h : xs.mapM f = some ys) :
    ∀ x ∈ xs, ∃ y ∈ ys, f x = some y := by
  induction xs generalizing ys with
  | nil => simp
  | cons x xs ih =>
    rw [List.mapM_cons] at h
    obtain ⟨y, hy, h⟩ := Option.bind_eq_some_iff.mp h
    obtain ⟨rest, hrest, h⟩ := Option.bind_eq_some_iff.mp h
    cases h
    intro z hz
    rcases List.mem_cons.mp hz with rfl | hz
    · exact ⟨y, List.mem_cons_self, hy⟩
    · obtain ⟨w, hw, hf⟩ := ih hrest z hz
      exact ⟨w, List.mem_cons_of_mem _ hw, hf⟩

theorem roundedLower_le (hm : m.Directed) {p : Nat} {products : List ℚ} {r : ℚ}
    (h : roundedLower m p products = some r) : ∀ c ∈ products, r ≤ c := by
  obtain ⟨downs, hdowns, hmin⟩ := Option.bind_eq_some_iff.mp h
  intro c hc
  obtain ⟨d, hd, hround⟩ := mapM_some_mem hdowns c hc
  exact ((List.min?_eq_some_iff.mp hmin).2 d hd).trans (hm.round_down hround)

theorem le_roundedUpper (hm : m.Directed) {p : Nat} {products : List ℚ} {r : ℚ}
    (h : roundedUpper m p products = some r) : ∀ c ∈ products, c ≤ r := by
  obtain ⟨ups, hups, hmax⟩ := Option.bind_eq_some_iff.mp h
  intro c hc
  obtain ⟨d, hd, hround⟩ := mapM_some_mem hups c hc
  exact (hm.round_up hround).trans ((List.max?_eq_some_iff.mp hmax).2 d hd)

theorem mem_corners (l u : ℚ) : l ∈ corners l u ∧ u ∈ corners l u := by
  unfold corners
  split <;> simp_all

theorem mem_cornerProducts {al au bl bu x y : ℚ} (hx : x = al ∨ x = au) (hy : y = bl ∨ y = bu) :
    x * y ∈ cornerProducts al au bl bu := by
  refine List.mem_flatMap.mpr ⟨x, ?_, List.mem_map.mpr ⟨y, ?_, rfl⟩⟩
  · rcases hx with rfl | rfl
    · exact (mem_corners _ _).1
    · exact (mem_corners _ _).2
  · rcases hy with rfl | rfl
    · exact (mem_corners _ _).1
    · exact (mem_corners _ _).2

/-- The rounded corner extrema bound every product over the box. -/
theorem cornerProducts_bounds (hm : m.Directed) {p : Nat} {al au bl bu : ℚ} {x y : ℝ}
    (hx : (al : ℝ) ≤ x ∧ x ≤ au) (hy : (bl : ℝ) ≤ y ∧ y ≤ bu) :
    (∀ r, roundedLower m p (cornerProducts al au bl bu) = some r → (r : ℝ) ≤ x * y) ∧
      ∀ r, roundedUpper m p (cornerProducts al au bl bu) = some r → x * y ≤ r := by
  have hbox := corner_bounds hx hy
  constructor
  · intro r hr
    have hle := roundedLower_le hm hr
    refine le_trans ?_ hbox.1
    refine le_min (le_min ?_ ?_) (le_min ?_ ?_) <;>
      exact_mod_cast hle _ (mem_cornerProducts (by simp) (by simp))
  · intro r hr
    have hle := le_roundedUpper hm hr
    refine hbox.2.trans ?_
    refine max_le (max_le ?_ ?_) (max_le ?_ ?_) <;>
      exact_mod_cast hle _ (mem_cornerProducts (by simp) (by simp))

theorem Contains.mul (hm : m.Directed) {a b : MpfrInterval} {x y : ℝ} (hx : a.Contains x)
    (hy : b.Contains y) (h : (mul m a b).Valid) : (mul m a b).Contains (x * y) :=
  combine_contains hx hy h fun _ _ _ _ _ hx hy => cornerProducts_bounds hm hx hy

theorem Contains.square (hm : m.Directed) {a : MpfrInterval} {x : ℝ} (hx : a.Contains x)
    (h : (square m a).Valid) : (square m a).Contains (x ^ 2) := by
  cases a with
  | invalid p => exact hx.elim
  | enclosure p l u hlu =>
    unfold MpfrInterval.square at h ⊢
    dsimp only at h ⊢
    split at h
    · rw [if_pos ‹_›]
      refine arithmeticResult_contains h (fun r hr => ?_) fun r hr => ?_
      · cases hr
        simpa using sq_nonneg x
      · have hle : ((max |l| |u| * max |l| |u| : ℚ) : ℝ) ≤ r := by exact_mod_cast hm.round_up hr
        push_cast at hle
        have habs : |x| ≤ max |(l : ℝ)| |(u : ℝ)| := abs_le_max_abs_abs hx.1 hx.2
        calc x ^ 2 = |x| * |x| := by rw [abs_mul_abs_self, sq]
          _ ≤ _ := mul_le_mul habs habs (abs_nonneg x) ((abs_nonneg x).trans habs)
          _ ≤ r := hle
    · rw [if_neg ‹_›, sq]
      exact Contains.mul hm hx hx h

theorem Contains.reciprocal (hm : m.Directed) {a b : MpfrInterval} {x : ℝ} (hx : a.Contains x)
    (h : reciprocal m a = .ok b) : b.Contains (1 / x) := by
  cases a with
  | invalid p => exact hx.elim
  | enclosure p l u hlu =>
    unfold MpfrInterval.reciprocal at h
    dsimp only at h
    split at h
    · cases h
    · rename_i hzero
      -- both endpoints lie on one side of zero
      have hside : (0 < l ∧ 0 < u) ∨ (l < 0 ∧ u < 0) := by
        simp only [containsZero, ge_iff_le, Bool.and_eq_true, decide_eq_true_eq, not_and,
          not_le] at hzero
        rcases lt_or_ge 0 l with hl | hl
        · exact .inl ⟨hl, hl.trans_le hlu⟩
        · exact .inr ⟨(hlu.trans_lt (hzero hl)), hzero hl⟩
      refine new_contains h (fun r hr => ?_) fun r hr => ?_
      · have hle : (r : ℝ) ≤ 1 / (u : ℝ) := by exact_mod_cast hm.round_down hr
        refine hle.trans ?_
        rcases hside with ⟨hl, hu⟩ | ⟨hl, hu⟩
        · have hx0 : 0 < x := lt_of_lt_of_le (by exact_mod_cast hl) hx.1
          exact one_div_le_one_div_of_le hx0 hx.2
        · have hu0 : (u : ℝ) < 0 := by exact_mod_cast hu
          exact one_div_le_one_div_of_neg_of_le hu0 hx.2
      · have hle : 1 / (l : ℝ) ≤ r := by exact_mod_cast hm.round_up hr
        refine le_trans ?_ hle
        rcases hside with ⟨hl, hu⟩ | ⟨hl, hu⟩
        · have hl0 : (0 : ℝ) < l := by exact_mod_cast hl
          exact one_div_le_one_div_of_le hl0 hx.1
        · have hx0 : x < 0 := lt_of_le_of_lt hx.2 (by exact_mod_cast hu)
          exact one_div_le_one_div_of_neg_of_le hx0 hx.1

theorem Contains.div (hm : m.Directed) {a b c : MpfrInterval} {x y : ℝ} (hx : a.Contains x)
    (hy : b.Contains y) (h : div m a b = .ok c) : c.Contains (x / y) := by
  unfold MpfrInterval.div at h
  obtain ⟨_, _, h⟩ := bind_eq_ok h
  obtain ⟨_, _, h⟩ := bind_eq_ok h
  split at h
  · obtain ⟨r, hr, h⟩ := bind_eq_ok h
    obtain ⟨_, hv, h⟩ := bind_eq_ok h
    cases h
    rw [div_eq_mul_one_div]
    exact Contains.mul hm hx (hy.reciprocal hm hr) (validate_ok hv)
  · cases h

theorem Contains.sqrt (hm : m.Directed) {a b : MpfrInterval} {x : ℝ} (hx : a.Contains x)
    (h : sqrt m a = .ok b) : b.Contains √x := by
  cases a with
  | invalid p => exact hx.elim
  | enclosure p l u hlu =>
    rw [MpfrInterval.sqrt] at h
    split at h
    · cases h
    · refine new_contains h (fun r hr => ?_) fun r hr => ?_
      · exact (hm.sqrt_down hr).trans (Real.sqrt_le_sqrt hx.1)
      · exact (Real.sqrt_le_sqrt hx.2).trans (hm.sqrt_up hr)

end

end MpfrInterval

end Xcelerator.Numerics.Mpfr
