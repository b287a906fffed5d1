import Mathlib
import Xcelerator.Foundations.Machine
import Xcelerator.Numerics.MpfrBall

/-! # Soundness of MPFR intervals and complex balls

Every operation on operands that enclose points gives an error, an invalid value
or an enclosure of the exact result, and an invalid operand gives no valid
result. Expressions inherit both by induction. Beside this stand the bitwise
facts: the multiplication of distinct corners against all four, the shared
downward evaluation against two directed ones, and the joint sine and cosine
against the separate ones. -/

namespace Xcelerator.Numerics.MpfrBallSoundness
open Xcelerator.Foundations.BinaryRounding (Round)
open Xcelerator.Foundations.DirectedRounding
open Xcelerator.Foundations.Machine (bind_eq_ok ok_bind)
open Xcelerator.Numerics.Interval (IntervalError Result Run lift expect lift_ok corner_bounds)
open Xcelerator.Numerics.MpfrFloat Xcelerator.Numerics.MpfrBall

/-! ## Floats -/

theorem denotes_of_finite {x : MpfrFloat} {a : ℚ} (h : x.finite? = some a) :
    x.Denotes ((a : ℝ) : EReal) := by
  obtain ⟨p, d⟩ := x
  cases d <;> simp_all [MpfrFloat.finite?, MpfrFloat.Denotes]

theorem Denotes.unique {x : MpfrFloat} {t u : EReal} (ht : x.Denotes t) (hu : x.Denotes u) :
    t = u := by
  obtain ⟨p, d⟩ := x
  cases d <;> simp_all [MpfrFloat.Denotes]

theorem Denotes.eq_coe {x : MpfrFloat} {a : ℚ} {t : EReal} (ht : x.Denotes t)
    (h : x.finite? = some a) : t = ((a : ℝ) : EReal) := Denotes.unique ht (denotes_of_finite h)

theorem finite_of_denotes {x : MpfrFloat} {a : ℚ} (h : x.Denotes ((a : ℝ) : EReal)) :
    x.finite? = some a := by
  obtain ⟨p, d⟩ := x
  cases d with
  | nan => exact h.elim
  | infinity s => cases s <;> simp [MpfrFloat.Denotes] at h
  | zero s =>
    have ha : a = 0 := by simpa [MpfrFloat.Denotes] using h
    rw [ha]
    rfl
  | normal v hv =>
    have ha : a = v := by simpa [MpfrFloat.Denotes] using h
    rw [ha]
    rfl

/-- The comparisons follow the order of the extended reals. -/
theorem lt_iff {x y : MpfrFloat} {t u : EReal} (hx : x.Denotes t) (hy : y.Denotes u) :
    x.lt y = true ↔ t < u := by
  obtain ⟨p, d⟩ := x
  obtain ⟨q, e⟩ := y
  cases d with
  | nan => exact hx.elim
  | infinity s =>
    cases e with
    | nan => exact hy.elim
    | infinity s' =>
      cases s <;> cases s' <;>
        simp_all [MpfrFloat.Denotes, MpfrFloat.lt, Datum.rank, Prod.Lex.toLex_lt_toLex]
    | zero s' => cases s <;>
        simp_all [MpfrFloat.Denotes, MpfrFloat.lt, Datum.rank, Prod.Lex.toLex_lt_toLex]
    | normal v hv =>
      cases s <;> simp_all [MpfrFloat.Denotes, MpfrFloat.lt, Datum.rank, Prod.Lex.toLex_lt_toLex]
  | zero s =>
    cases e with
    | nan => exact hy.elim
    | infinity s' =>
      cases s' <;> simp_all [MpfrFloat.Denotes, MpfrFloat.lt, Datum.rank, Prod.Lex.toLex_lt_toLex]
    | zero s' => simp_all [MpfrFloat.Denotes, MpfrFloat.lt, Datum.rank]
    | normal v hv =>
      simp_all [MpfrFloat.Denotes, MpfrFloat.lt, Datum.rank, Prod.Lex.toLex_lt_toLex]
  | normal w hw =>
    cases e with
    | nan => exact hy.elim
    | infinity s' =>
      cases s' <;> simp_all [MpfrFloat.Denotes, MpfrFloat.lt, Datum.rank, Prod.Lex.toLex_lt_toLex]
    | zero s' => simp_all [MpfrFloat.Denotes, MpfrFloat.lt, Datum.rank, Prod.Lex.toLex_lt_toLex]
    | normal v hv =>
      simp_all [MpfrFloat.Denotes, MpfrFloat.lt, Datum.rank, Prod.Lex.toLex_lt_toLex]

theorem le_eq_not_lt {x y : MpfrFloat} {t u : EReal} (hx : x.Denotes t) (hy : y.Denotes u) :
    x.le y = !y.lt x := by
  obtain ⟨p, d⟩ := x
  obtain ⟨q, e⟩ := y
  cases d <;> cases e <;> first
    | exact hx.elim
    | exact hy.elim
    | simp [MpfrFloat.le, MpfrFloat.lt, Datum.rank, ← not_le]

theorem le_iff {x y : MpfrFloat} {t u : EReal} (hx : x.Denotes t) (hy : y.Denotes u) :
    x.le y = true ↔ t ≤ u := by
  rw [le_eq_not_lt hx hy, Bool.not_eq_true', ← not_lt, ← lt_iff hy hx, Bool.not_eq_true]

@[simp] theorem finite?_ofInt (p : Nat) (z : Int) :
    (MpfrFloat.ofInt p z).finite? = some (z : ℚ) := by
  unfold MpfrFloat.ofInt MpfrFloat.finite?
  by_cases hz : z = 0
  · simp [hz]
  · simp [hz]

theorem finite?_neg {x : MpfrFloat} {a : ℚ} (h : x.finite? = some a) :
    x.neg.finite? = some (-a) := by
  obtain ⟨p, d⟩ := x
  cases d <;> simp_all [MpfrFloat.finite?, MpfrFloat.neg, Datum.neg]
  rw [← h, neg_zero]

theorem finite?_abs {x : MpfrFloat} {a : ℚ} (h : x.finite? = some a) :
    x.abs.finite? = some |a| := by
  obtain ⟨p, d⟩ := x
  cases d <;> simp_all [MpfrFloat.finite?, MpfrFloat.abs, Datum.abs]
  rw [← h, abs_zero]

theorem isFinite_iff {x : MpfrFloat} : x.isFinite = true ↔ ∃ a, x.finite? = some a :=
  Option.isSome_iff_exists

theorem not_finite_of_nan {x : MpfrFloat} (h : x.datum = .nan) : x.isFinite = false := by
  unfold MpfrFloat.isFinite MpfrFloat.finite?
  rw [h]
  rfl

theorem finite?_of_infinity {x : MpfrFloat} {s : Bool} (h : x.datum = .infinity s) :
    x.finite? = none := by
  unfold MpfrFloat.finite?
  rw [h]

section
variable {m : Primitives}

theorem rounds_down_le {p : Nat} {r : ℝ} {x : MpfrFloat} {a : ℚ} (h : m.Rounds p .down r x)
    (hx : x.finite? = some a) : (a : ℝ) ≤ r := by
  obtain ⟨_, t, ht, hround⟩ := h
  have hle : t ≤ r := RoundsDown.le hround
  rw [Denotes.eq_coe ht hx] at hle
  exact EReal.coe_le_coe_iff.mp hle

theorem le_rounds_up {p : Nat} {r : ℝ} {x : MpfrFloat} {a : ℚ} (h : m.Rounds p .up r x)
    (hx : x.finite? = some a) : r ≤ a := by
  obtain ⟨_, t, ht, hround⟩ := h
  have hle : (r : EReal) ≤ t := RoundsUp.le hround
  rw [Denotes.eq_coe ht hx] at hle
  exact EReal.coe_le_coe_iff.mp hle

/-- A rounded result is no NaN. -/
theorem Rounds.denotes {p : Nat} {round : Round} {r : ℝ} {x : MpfrFloat}
    (h : m.Rounds p round r x) :
    ∃ t, x.Denotes t := by
  obtain ⟨_, t, ht, _⟩ := h
  exact ⟨t, ht⟩

end

/-! ## Enclosures -/

/-- The reals an interval encloses; an invalid one encloses nothing. -/
def Contains (a : MpfrInterval) (x : ℝ) : Prop :=
  ∃ l u, a.lower.finite? = some l ∧ a.upper.finite? = some u ∧ (l : ℝ) ≤ x ∧ x ≤ u

def Valid (a : MpfrInterval) : Prop := Enclosing a.lower a.upper

theorem validate_iff {a : MpfrInterval} : a.validate = .ok () ↔ Valid a := by
  unfold MpfrInterval.validate Valid
  split <;> simp_all

theorem validate_valid {a : MpfrInterval} {u : Unit} (h : a.validate = .ok u) : Valid a :=
  validate_iff.mp h

theorem isValid_iff {a : MpfrInterval} : a.isValid = true ↔ Valid a := decide_eq_true_iff

/-- The endpoints of a valid interval. -/
theorem Valid.endpoints {a : MpfrInterval} (h : Valid a) :
    ∃ l u, a.lower.finite? = some l ∧ a.upper.finite? = some u ∧ l ≤ u := by
  obtain ⟨⟨hl, hu, hlt⟩, _⟩ := h
  obtain ⟨l, hl⟩ := isFinite_iff.mp hl
  obtain ⟨u, hu⟩ := isFinite_iff.mp hu
  refine ⟨l, u, hl, hu, ?_⟩
  by_contra hle
  have htrue := (lt_iff (denotes_of_finite hu) (denotes_of_finite hl)).mpr
    (EReal.coe_lt_coe_iff.mpr (by exact_mod_cast not_le.mp hle))
  rw [htrue] at hlt
  cases hlt

/-- An invalid interval is the pair of NaNs. -/
theorem nan_of_not_valid {a : MpfrInterval} (h : ¬Valid a) :
    a.lower.datum = .nan ∧ a.upper.datum = .nan := by
  rcases a.admissible with hv | ⟨hnan, _⟩
  · exact absurd hv h
  · exact hnan

theorem not_valid_invalid (p : Nat) : ¬Valid (.invalid p) := by
  rintro ⟨⟨hl, _⟩, _⟩
  cases hl

/-- What a pair of computed endpoints says of a real number when it is finite. -/
def Bounds (lower upper : MpfrFloat) (x : ℝ) : Prop :=
  (∀ a, lower.finite? = some a → (a : ℝ) ≤ x) ∧ ∀ b, upper.finite? = some b → x ≤ b

theorem new_ok {lower upper : MpfrFloat} {a : MpfrInterval}
    (h : MpfrInterval.new lower upper = .ok a) :
    a.lower = lower ∧ a.upper = upper ∧ Enclosing lower upper := by
  unfold MpfrInterval.new at h
  split at h
  · split at h
    · cases h
      exact ⟨rfl, rfl, ‹_›⟩
    · cases h
  · cases h

theorem contains_of_bounds {lower upper : MpfrFloat} {a : MpfrInterval} {x : ℝ}
    (hl : a.lower = lower) (hu : a.upper = upper) (h : Enclosing lower upper)
    (hb : Bounds lower upper x) : Contains a x := by
  obtain ⟨⟨hfl, hfu, _⟩, _⟩ := h
  obtain ⟨l, hfl⟩ := isFinite_iff.mp hfl
  obtain ⟨u, hfu⟩ := isFinite_iff.mp hfu
  exact ⟨l, u, hl ▸ hfl, hu ▸ hfu, hb.1 l hfl, hb.2 u hfu⟩

theorem new_contains {lower upper : MpfrFloat} {a : MpfrInterval} {x : ℝ}
    (h : MpfrInterval.new lower upper = .ok a) (hb : Bounds lower upper x) : Contains a x := by
  obtain ⟨hl, hu, henc⟩ := new_ok h
  exact contains_of_bounds hl hu henc hb

theorem new_valid {lower upper : MpfrFloat} {a : MpfrInterval}
    (h : MpfrInterval.new lower upper = .ok a) : Valid a := by
  obtain ⟨hl, hu, henc⟩ := new_ok h
  rw [Valid, hl, hu]
  exact henc

theorem arithmeticResult_valid {lower upper : MpfrFloat}
    (h : Valid (.arithmeticResult lower upper)) :
    MpfrInterval.new lower upper = .ok (.arithmeticResult lower upper) := by
  unfold MpfrInterval.arithmeticResult at h ⊢
  split at h
  · assumption
  · exact absurd h (not_valid_invalid _)

theorem arithmeticResult_enclosing {lower upper : MpfrFloat}
    (h : Valid (.arithmeticResult lower upper)) : Enclosing lower upper :=
  (new_ok (arithmeticResult_valid h)).2.2

theorem arithmeticResult_contains {lower upper : MpfrFloat} {x : ℝ}
    (h : Valid (.arithmeticResult lower upper)) (hb : Bounds lower upper x) :
    Contains (.arithmeticResult lower upper) x := new_contains (arithmeticResult_valid h) hb

theorem guarded_valid {a b r : MpfrInterval} (h : Valid (.guarded a b r)) :
    (Valid a ∧ Valid b) ∧ MpfrInterval.guarded a b r = r := by
  unfold MpfrInterval.guarded at h ⊢
  split at h
  · rename_i hcond
    rw [if_pos hcond]
    exact ⟨⟨isValid_iff.mp hcond.2.1, isValid_iff.mp hcond.2.2⟩, rfl⟩
  · exact absurd h (not_valid_invalid _)

/-- Bounds from two directed roundings. -/
theorem bounds_of_rounds {m : Primitives} {p q : Nat} {lower upper : MpfrFloat} {r s x : ℝ}
    (hl : m.Rounds p .down r lower) (hu : m.Rounds q .up s upper) (hr : r ≤ x) (hs : x ≤ s) :
    Bounds lower upper x :=
  ⟨fun _ ha => (rounds_down_le hl ha).trans hr, fun _ hb => hs.trans (le_rounds_up hu hb)⟩

/-- Whether zero lies between finite endpoints. -/
theorem containsZero_iff {a : MpfrInterval} {l u : ℚ} (hv : Valid a) (hl : a.lower.finite? = some l)
    (hu : a.upper.finite? = some u) : a.containsZero = true ↔ l ≤ 0 ∧ 0 ≤ u := by
  unfold MpfrInterval.containsZero
  rw [isValid_iff.mpr hv, Bool.not_true, Bool.false_or, Bool.and_eq_true,
    le_iff (denotes_of_finite hl) (denotes_of_finite (finite?_ofInt _ 0)),
    le_iff (denotes_of_finite (finite?_ofInt _ 0)) (denotes_of_finite hu)]
  norm_cast

/-! ## Real operations -/

section
variable {m : Primitives} (hm : m.Correct) {a b c : MpfrInterval} {x y : ℝ}
include hm

theorem Contains.add (hx : Contains a x) (hy : Contains b y) (h : Valid (.add m a b)) :
    Contains (.add m a b) (x + y) := by
  obtain ⟨l, u, hl, hu, hlx, hxu⟩ := hx
  obtain ⟨l', u', hl', hu', hly, hyu⟩ := hy
  unfold MpfrInterval.add at h ⊢
  obtain ⟨_, heq⟩ := guarded_valid h
  rw [heq] at h ⊢
  exact arithmeticResult_contains h (bounds_of_rounds (hm.add _ .down hl hl') (hm.add _ .up hu hu')
    (add_le_add hlx hly) (add_le_add hxu hyu))

theorem Contains.sub (hx : Contains a x) (hy : Contains b y) (h : Valid (.sub m a b)) :
    Contains (.sub m a b) (x - y) := by
  obtain ⟨l, u, hl, hu, hlx, hxu⟩ := hx
  obtain ⟨l', u', hl', hu', hly, hyu⟩ := hy
  unfold MpfrInterval.sub at h ⊢
  obtain ⟨_, heq⟩ := guarded_valid h
  rw [heq] at h ⊢
  exact arithmeticResult_contains h (bounds_of_rounds (hm.sub _ .down hl hu') (hm.sub _ .up hu hl')
    (sub_le_sub hlx hyu) (sub_le_sub hxu hly))

omit hm in
theorem Contains.neg (hx : Contains a x) : Contains a.neg (-x) := by
  obtain ⟨l, u, hl, hu, hlx, hxu⟩ := hx
  refine ⟨-u, -l, finite?_neg hu, finite?_neg hl, ?_, ?_⟩
  · push_cast
    exact neg_le_neg hxu
  · push_cast
    exact neg_le_neg hlx

theorem Contains.reciprocal (hx : Contains a x) (h : MpfrInterval.reciprocal m a = .ok c) :
    Contains c (1 / x) := by
  obtain ⟨l, u, hl, hu, hlx, hxu⟩ := hx
  obtain ⟨_, hv, h⟩ := bind_eq_ok h
  have hvalid := validate_valid hv
  split at h
  · cases h
  · rename_i hzero
    rw [containsZero_iff hvalid hl hu, not_and, not_le] at hzero
    have hlu : l ≤ u := by exact_mod_cast hlx.trans hxu
    -- both endpoints lie on one side of zero
    have hside : 0 < l ∨ u < 0 := by
      rcases lt_or_ge 0 l with hl | hl
      · exact .inl hl
      · exact .inr (hzero hl)
    have hu0 : u ≠ 0 := by
      rcases hside with h | h
      · exact (h.trans_le hlu).ne'
      · exact h.ne
    have hl0 : l ≠ 0 := by
      rcases hside with h | h
      · exact h.ne'
      · exact (hlu.trans_lt h).ne
    have hone := finite?_ofInt a.precision 1
    refine new_contains h (bounds_of_rounds (hm.div _ .down hone hu hu0) (hm.div _ .up hone hl hl0)
      ?_ ?_)
    · push_cast
      rcases hside with h | h
      · exact one_div_le_one_div_of_le (lt_of_lt_of_le (by exact_mod_cast h) hlx) hxu
      · exact one_div_le_one_div_of_neg_of_le (by exact_mod_cast h) hxu
    · push_cast
      rcases hside with h | h
      · exact one_div_le_one_div_of_le (by exact_mod_cast h) hlx
      · exact one_div_le_one_div_of_neg_of_le (lt_of_le_of_lt hxu (by exact_mod_cast h)) hlx

theorem Contains.exp (hx : Contains a x) (h : Valid (.exp m a)) :
    Contains (.exp m a) (Real.exp x) := by
  obtain ⟨l, u, hl, hu, hlx, hxu⟩ := hx
  exact arithmeticResult_contains h (bounds_of_rounds (hm.exp .down hl) (hm.exp .up hu)
    (Real.exp_le_exp.mpr hlx) (Real.exp_le_exp.mpr hxu))

theorem Contains.atan (hx : Contains a x) (h : Valid (.atan m a)) :
    Contains (.atan m a) (Real.arctan x) := by
  obtain ⟨l, u, hl, hu, hlx, hxu⟩ := hx
  exact arithmeticResult_contains h (bounds_of_rounds (hm.atan .down hl) (hm.atan .up hu)
    (Real.arctan_mono hlx) (Real.arctan_mono hxu))

theorem Contains.ln (hx : Contains a x) (h : MpfrInterval.ln m a = .ok c) :
    Contains c (Real.log x) := by
  obtain ⟨l, u, hl, hu, hlx, hxu⟩ := hx
  obtain ⟨_, _, h⟩ := bind_eq_ok h
  split at h
  · cases h
  · rename_i hle
    rw [le_iff (denotes_of_finite hl) (denotes_of_finite (finite?_ofInt _ 0)),
      EReal.coe_le_coe_iff, not_le] at hle
    have hl0 : 0 < l := by exact_mod_cast hle
    have hlr : (0 : ℝ) < l := by exact_mod_cast hl0
    have hu0 : 0 < u := by exact_mod_cast hlr.trans_le (hlx.trans hxu)
    exact new_contains h (bounds_of_rounds (hm.ln .down hl hl0) (hm.ln .up hu hu0)
      (Real.log_le_log hlr hlx) (Real.log_le_log (hlr.trans_le hlx) hxu))

theorem Contains.sqrt (hx : Contains a x) (h : MpfrInterval.sqrt m a = .ok c) : Contains c √x := by
  obtain ⟨l, u, hl, hu, hlx, hxu⟩ := hx
  obtain ⟨_, _, h⟩ := bind_eq_ok h
  split at h
  · cases h
  · rename_i hlt
    rw [lt_iff (denotes_of_finite hl) (denotes_of_finite (finite?_ofInt _ 0)),
      EReal.coe_lt_coe_iff, not_lt] at hlt
    have hl0 : 0 ≤ l := by exact_mod_cast hlt
    have hlr : (0 : ℝ) ≤ l := by exact_mod_cast hl0
    have hu0 : 0 ≤ u := by exact_mod_cast hlr.trans (hlx.trans hxu)
    exact new_contains h (bounds_of_rounds (hm.sqrt .down hl hl0) (hm.sqrt .up hu hu0)
      (Real.sqrt_le_sqrt hlx) (Real.sqrt_le_sqrt hxu))

end

/-! ## Multiplication -/

theorem totalRank_injective {d e : Datum} (h : d.totalRank = e.totalRank) : d = e := by
  cases d with
  | nan => cases e <;> simp_all [Datum.totalRank] <;> split at h <;> simp_all
  | infinity s =>
    cases e with
    | infinity s' => cases s <;> cases s' <;> simp_all [Datum.totalRank]
    | _ => cases s <;> simp_all [Datum.totalRank]
  | zero s =>
    cases e with
    | zero s' => cases s <;> cases s' <;> simp_all [Datum.totalRank]
    | infinity s' => cases s' <;> simp_all [Datum.totalRank]
    | nan => simp_all [Datum.totalRank]
    | normal v hv => simp_all [Datum.totalRank]; exact absurd h.1.symm hv
  | normal w hw =>
    cases e with
    | infinity s' => cases s' <;> simp_all [Datum.totalRank]
    | nan => simp_all [Datum.totalRank]
    | zero s' => simp_all [Datum.totalRank]
    | normal v hv => simp_all [Datum.totalRank]

/-- The total order refines the order of the extended reals. -/
theorem totalRank_lt_of_lt {x y : MpfrFloat} (h : x.lt y = true) :
    x.datum.totalRank < y.datum.totalRank := by
  obtain ⟨p, d⟩ := x
  obtain ⟨q, e⟩ := y
  cases d <;> cases e <;>
    simp_all [MpfrFloat.lt, Datum.rank, Datum.totalRank, Prod.Lex.toLex_lt_toLex]

theorem le_of_totalRank {x y : MpfrFloat} {t u : EReal} (hx : x.Denotes t) (hy : y.Denotes u)
    (h : x.datum.totalRank ≤ y.datum.totalRank) : t ≤ u := by
  by_contra hlt
  have hyx := (lt_iff hy hx).mpr (not_le.mp hlt)
  exact absurd (totalRank_lt_of_lt hyx) (not_lt.mpr h)

/-- The least element of a list under `total_cmp`. -/
def Least (xs : List MpfrFloat) (v : MpfrFloat) : Prop :=
  v ∈ xs ∧ ∀ c ∈ xs, v.datum.totalRank ≤ c.datum.totalRank

def Greatest (xs : List MpfrFloat) (v : MpfrFloat) : Prop :=
  v ∈ xs ∧ ∀ c ∈ xs, c.datum.totalRank ≤ v.datum.totalRank

theorem Least.step {w x v : MpfrFloat} {xs : List MpfrFloat}
    (h : Least ((if x.totalLt w then x else w) :: xs) v) : Least (w :: x :: xs) v := by
  obtain ⟨hmem, hmin⟩ := h
  have hkept := hmin _ List.mem_cons_self
  refine ⟨?_, fun c hc => ?_⟩
  · rcases List.mem_cons.mp hmem with rfl | hmem
    · split <;> simp
    · simp [hmem]
  · have hboth : v.datum.totalRank ≤ w.datum.totalRank ∧ v.datum.totalRank ≤ x.datum.totalRank := by
      split at hkept
      · rename_i hlt
        exact ⟨hkept.trans (of_decide_eq_true hlt).le, hkept⟩
      · rename_i hlt
        exact ⟨hkept, hkept.trans (not_lt.mp fun h => hlt (decide_eq_true h))⟩
    rcases List.mem_cons.mp hc with rfl | hc
    · exact hboth.1
    · rcases List.mem_cons.mp hc with rfl | hc
      · exact hboth.2
      · exact hmin c (List.mem_cons_of_mem _ hc)

theorem Greatest.step {w x k v : MpfrFloat} {xs : List MpfrFloat} (hk : k = w ∨ k = x)
    (hkw : w.datum.totalRank ≤ k.datum.totalRank) (hkx : x.datum.totalRank ≤ k.datum.totalRank)
    (h : Greatest (k :: xs) v) : Greatest (w :: x :: xs) v := by
  obtain ⟨hmem, hmax⟩ := h
  have hkept := hmax _ List.mem_cons_self
  refine ⟨?_, fun c hc => ?_⟩
  · rcases List.mem_cons.mp hmem with rfl | hmem
    · rcases hk with rfl | rfl <;> simp
    · simp [hmem]
  · rcases List.mem_cons.mp hc with rfl | hc
    · exact hkw.trans hkept
    · rcases List.mem_cons.mp hc with rfl | hc
      · exact hkx.trans hkept
      · exact hmax c (List.mem_cons_of_mem _ hc)

theorem foldl_keepLess (w : MpfrFloat) (xs : List MpfrFloat) :
    ∃ v, xs.foldl MpfrInterval.keepLess (some w) = some v ∧ Least (w :: xs) v := by
  induction xs generalizing w with
  | nil => exact ⟨w, rfl, by simp [Least]⟩
  | cons x xs ih =>
    obtain ⟨v, hv, hleast⟩ := ih (if x.totalLt w then x else w)
    refine ⟨v, ?_, hleast.step⟩
    rw [List.foldl_cons, ← hv]
    unfold MpfrInterval.keepLess
    dsimp only
    split <;> rfl

theorem foldl_keepGreater (w : MpfrFloat) (xs : List MpfrFloat) :
    ∃ v, xs.foldl MpfrInterval.keepGreater (some w) = some v ∧ Greatest (w :: xs) v := by
  induction xs generalizing w with
  | nil => exact ⟨w, rfl, by simp [Greatest]⟩
  | cons x xs ih =>
    rw [List.foldl_cons]
    unfold MpfrInterval.keepGreater
    dsimp only
    split
    · rename_i hlt
      obtain ⟨v, hv, hgreatest⟩ := ih x
      exact ⟨v, hv, hgreatest.step (.inr rfl) (of_decide_eq_true hlt).le le_rfl⟩
    · rename_i hlt
      obtain ⟨v, hv, hgreatest⟩ := ih w
      exact ⟨v, hv, hgreatest.step (.inl rfl) le_rfl (not_lt.mp fun h => hlt (decide_eq_true h))⟩

theorem minBy_least (w : MpfrFloat) (xs : List MpfrFloat) :
    ∃ v, MpfrInterval.minBy (w :: xs) = some v ∧ Least (w :: xs) v := by
  unfold MpfrInterval.minBy
  refine ⟨_, rfl, ?_⟩
  induction xs generalizing w with
  | nil => simp [Least]
  | cons x xs ih =>
    rw [List.foldl_cons]
    exact (ih _).step

theorem maxBy_greatest (w : MpfrFloat) (xs : List MpfrFloat) :
    ∃ v, MpfrInterval.maxBy (w :: xs) = some v ∧ Greatest (w :: xs) v := by
  unfold MpfrInterval.maxBy
  refine ⟨_, rfl, ?_⟩
  induction xs generalizing w with
  | nil => simp [Greatest]
  | cons x xs ih =>
    rw [List.foldl_cons]
    split
    · rename_i hlt
      exact (ih w).step (.inl rfl) le_rfl (of_decide_eq_true hlt).le
    · rename_i hlt
      exact (ih x).step (.inr rfl) (not_lt.mp fun h => hlt (decide_eq_true h)) le_rfl

/-- Lists with the same members of one precision have one least element. -/
theorem Least.unique {p : Nat} {xs ys : List MpfrFloat} {v w : MpfrFloat} (hv : Least xs v)
    (hw : Least ys w) (hmem : ∀ c, c ∈ xs ↔ c ∈ ys) (hp : ∀ c ∈ xs, c.precision = p) : v = w := by
  have hdatum := totalRank_injective (le_antisymm (hv.2 w ((hmem w).mpr hw.1))
    (hw.2 v ((hmem v).mp hv.1)))
  have hprec := (hp v hv.1).trans (hp w ((hmem w).mpr hw.1)).symm
  obtain ⟨_, _⟩ := v
  obtain ⟨_, _⟩ := w
  exact congrArg₂ _ hprec hdatum

theorem Greatest.unique {p : Nat} {xs ys : List MpfrFloat} {v w : MpfrFloat} (hv : Greatest xs v)
    (hw : Greatest ys w) (hmem : ∀ c, c ∈ xs ↔ c ∈ ys) (hp : ∀ c ∈ xs, c.precision = p) :
    v = w := by
  have hdatum := totalRank_injective (le_antisymm (hw.2 v ((hmem v).mp hv.1))
    (hv.2 w ((hmem w).mpr hw.1)))
  have hprec := (hp v hv.1).trans (hp w ((hmem w).mpr hw.1)).symm
  obtain ⟨_, _⟩ := v
  obtain ⟨_, _⟩ := w
  exact congrArg₂ _ hprec hdatum

/-- The corners of a valid interval are its endpoints. -/
theorem mem_corners {a : MpfrInterval} (hv : Valid a) {x : MpfrFloat} :
    x ∈ a.corners ↔ x = a.lower ∨ x = a.upper := by
  unfold MpfrInterval.corners
  split
  · rename_i hpoint
    have heq : a.lower = a.upper := by
      obtain ⟨⟨hl, hu, _⟩, hp⟩ := hv
      obtain ⟨⟨p, d⟩, ⟨q, e⟩, _⟩ := a
      have hpq : p = q := hp
      subst hpq
      refine congrArg (MpfrFloat.mk p) (?_ : d = e)
      cases d <;> cases e <;>
        simp_all [MpfrFloat.eq, Datum.rank, MpfrFloat.isSignNegative, MpfrFloat.isFinite,
          MpfrFloat.finite?]
      exact absurd hpoint.1.symm (by assumption)
    rw [← heq]
    simp
  · simp

section
variable {m : Primitives} (hm : m.Correct) {a b c : MpfrInterval} {x y : ℝ}
include hm

omit hm in
/-- The hull of the products over lists of corners: the least downward and the
greatest upward product. -/
theorem productHull_eq {p : Nat} {left right : List MpfrFloat} (hl : left ≠ []) (hr : right ≠ []) :
    ∃ lower upper, MpfrInterval.productHull m p (MpfrInterval.cornerPairs left right) =
        .arithmeticResult lower upper ∧
      Least ((MpfrInterval.cornerPairs left right).map fun c => m.mul p .down c.1 c.2) lower ∧
      Greatest ((MpfrInterval.cornerPairs left right).map fun c => m.mul p .up c.1 c.2) upper := by
  obtain ⟨x, left, rfl⟩ := List.exists_cons_of_ne_nil hl
  obtain ⟨y, right, rfl⟩ := List.exists_cons_of_ne_nil hr
  unfold MpfrInterval.productHull
  obtain ⟨pairs, hpairs⟩ : ∃ pairs, MpfrInterval.cornerPairs (x :: left) (y :: right) =
      (x, y) :: pairs :=
    ⟨_, rfl⟩
  rw [hpairs, List.map_cons, List.map_cons, List.foldl_cons, List.foldl_cons]
  obtain ⟨lower, hlower, hleast⟩ := foldl_keepLess (m.mul p .down x y)
    (pairs.map fun c => m.mul p .down c.1 c.2)
  obtain ⟨upper, hupper, hgreatest⟩ := foldl_keepGreater (m.mul p .up x y)
    (pairs.map fun c => m.mul p .up c.1 c.2)
  refine ⟨lower, upper, ?_, hleast, hgreatest⟩
  rw [show MpfrInterval.keepLess none (m.mul p .down (x, y).1 (x, y).2) =
    some (m.mul p .down x y) from
    rfl, hlower, show MpfrInterval.keepGreater none (m.mul p .up (x, y).1 (x, y).2) =
    some (m.mul p .up x y) from rfl, hupper]

omit hm in
theorem corners_ne_nil (a : MpfrInterval) : a.corners ≠ [] := by
  unfold MpfrInterval.corners
  split <;> simp

omit hm in
theorem mem_products {round : Round} {p : Nat} {left right : List MpfrFloat} {c : MpfrFloat} :
    c ∈ (MpfrInterval.cornerPairs left right).map (fun c => m.mul p round c.1 c.2) ↔
      ∃ x ∈ left, ∃ y ∈ right, c = m.mul p round x y := by
  simp only [MpfrInterval.cornerPairs, List.mem_map, List.mem_flatMap]
  constructor
  · rintro ⟨_, ⟨x, hx, y, hy, rfl⟩, rfl⟩
    exact ⟨x, hx, y, hy, rfl⟩
  · rintro ⟨x, hx, y, hy, rfl⟩
    exact ⟨(x, y), ⟨x, hx, y, hy, rfl⟩, rfl⟩

/-- The distinct corners give the extrema of all four, bit for bit. -/
theorem mul_eq_referenceMul (a b : MpfrInterval) :
    MpfrInterval.mul m a b = MpfrInterval.referenceMul m a b := by
  unfold MpfrInterval.mul MpfrInterval.referenceMul MpfrInterval.guarded
  split
  · rename_i hcond
    have ha := isValid_iff.mp hcond.2.1
    have hb := isValid_iff.mp hcond.2.2
    obtain ⟨al, au, hal, hau, _⟩ := ha.endpoints
    obtain ⟨bl, bu, hbl, hbu, _⟩ := hb.endpoints
    obtain ⟨lower, upper, hhull, hleast, hgreatest⟩ := productHull_eq (m := m) (p := a.precision)
      (corners_ne_nil a) (corners_ne_nil b)
    -- the reference goes over the same products
    have hfour : ∀ round c, c ∈ ([(a.lower, b.lower), (a.lower, b.upper), (a.upper, b.lower),
        (a.upper, b.upper)].map fun c => m.mul a.precision round c.1 c.2) ↔
        ∃ x ∈ a.corners, ∃ y ∈ b.corners, c = m.mul a.precision round x y := by
      intro round c
      simp only [mem_corners ha, mem_corners hb, List.map_cons, List.map_nil, List.mem_cons,
        List.not_mem_nil, or_false]
      constructor
      · rintro (rfl | rfl | rfl | rfl)
        · exact ⟨_, .inl rfl, _, .inl rfl, rfl⟩
        · exact ⟨_, .inl rfl, _, .inr rfl, rfl⟩
        · exact ⟨_, .inr rfl, _, .inl rfl, rfl⟩
        · exact ⟨_, .inr rfl, _, .inr rfl, rfl⟩
      · rintro ⟨x, rfl | rfl, y, rfl | rfl, rfl⟩ <;> simp
    have hprec : ∀ round, ∀ c ∈ (MpfrInterval.cornerPairs a.corners b.corners).map
        (fun c => m.mul a.precision round c.1 c.2), c.precision = a.precision := by
      intro round c hc
      obtain ⟨x, hx, y, hy, rfl⟩ := mem_products.mp hc
      rcases (mem_corners ha).mp hx with rfl | rfl <;> rcases (mem_corners hb).mp hy with rfl | rfl
      · exact (hm.mul _ round hal hbl).1
      · exact (hm.mul _ round hal hbu).1
      · exact (hm.mul _ round hau hbl).1
      · exact (hm.mul _ round hau hbu).1
    obtain ⟨lower', hlower', hleast'⟩ := minBy_least (m.mul a.precision .down a.lower b.lower)
      ([(a.lower, b.upper), (a.upper, b.lower), (a.upper, b.upper)].map
        fun c => m.mul a.precision .down c.1 c.2)
    obtain ⟨upper', hupper', hgreatest'⟩ := maxBy_greatest (m.mul a.precision .up a.lower b.lower)
      ([(a.lower, b.upper), (a.upper, b.lower), (a.upper, b.upper)].map
        fun c => m.mul a.precision .up c.1 c.2)
    have hlowers : lower = lower' := hleast.unique hleast'
      (fun c => mem_products.trans (hfour .down c).symm) (hprec .down)
    have huppers : upper = upper' := hgreatest.unique hgreatest'
      (fun c => mem_products.trans (hfour .up c).symm) (hprec .up)
    rw [hhull, hlowers, huppers]
    dsimp only
    rw [List.map_cons, hlower', List.map_cons, hupper']
  · rfl

theorem Contains.mul (hx : Contains a x) (hy : Contains b y) (h : Valid (.mul m a b)) :
    Contains (.mul m a b) (x * y) := by
  obtain ⟨al, au, hal, hau, hx⟩ := hx
  obtain ⟨bl, bu, hbl, hbu, hy⟩ := hy
  unfold MpfrInterval.mul at h ⊢
  obtain ⟨⟨ha, hb⟩, heq⟩ := guarded_valid h
  rw [heq] at h ⊢
  obtain ⟨lower, upper, hhull, hleast, hgreatest⟩ := productHull_eq (m := m) (p := a.precision)
    (corners_ne_nil a) (corners_ne_nil b)
  rw [hhull] at h ⊢
  have hbox := corner_bounds hx hy
  have hlow : ∀ {u w : MpfrFloat} {r s t : ℚ}, lower.finite? = some t → u.finite? = some r →
      w.finite? = some s → u ∈ a.corners → w ∈ b.corners → (t : ℝ) ≤ r * s := by
    intro u w r s t ht hu hw hmu hmw
    obtain ⟨_, v, hv, hround⟩ := hm.mul a.precision .down hu hw
    have hle := le_of_totalRank (denotes_of_finite ht) hv
      (hleast.2 _ (mem_products.mpr ⟨u, hmu, w, hmw, rfl⟩))
    exact EReal.coe_le_coe_iff.mp (hle.trans (RoundsDown.le hround))
  have hhigh : ∀ {u w : MpfrFloat} {r s t : ℚ}, upper.finite? = some t → u.finite? = some r →
      w.finite? = some s → u ∈ a.corners → w ∈ b.corners → (r : ℝ) * s ≤ t := by
    intro u w r s t ht hu hw hmu hmw
    obtain ⟨_, v, hv, hround⟩ := hm.mul a.precision .up hu hw
    have hle := le_of_totalRank hv (denotes_of_finite ht)
      (hgreatest.2 _ (mem_products.mpr ⟨u, hmu, w, hmw, rfl⟩))
    exact EReal.coe_le_coe_iff.mp ((RoundsUp.le hround).trans hle)
  have hl := (mem_corners ha).mpr (.inl rfl)
  have hu := (mem_corners ha).mpr (.inr rfl)
  have hl' := (mem_corners hb).mpr (.inl rfl)
  have hu' := (mem_corners hb).mpr (.inr rfl)
  refine arithmeticResult_contains h ⟨fun t ht => le_trans ?_ hbox.1, fun t ht => hbox.2.trans ?_⟩
  · exact le_min (le_min (hlow ht hal hbl hl hl') (hlow ht hal hbu hl hu'))
      (le_min (hlow ht hau hbl hu hl') (hlow ht hau hbu hu hu'))
  · exact max_le (max_le (hhigh ht hal hbl hl hl') (hhigh ht hal hbu hl hu'))
      (max_le (hhigh ht hau hbl hu hl') (hhigh ht hau hbu hu hu'))

omit hm in
theorem larger_spec {x y : MpfrFloat} {t u : EReal} (hx : x.Denotes t) (hy : y.Denotes u) :
    (MpfrInterval.larger x y).Denotes (max t u) := by
  unfold MpfrInterval.larger
  split
  · rename_i hle
    rwa [max_eq_left ((le_iff hy hx).mp hle)]
  · rename_i hle
    rw [le_iff hy hx, not_le] at hle
    rwa [max_eq_right hle.le]

theorem Contains.square (hx : Contains a x) (h : Valid (.square m a)) :
    Contains (.square m a) (x ^ 2) := by
  obtain ⟨l, u, hl, hu, hlx, hxu⟩ := hx
  unfold MpfrInterval.square at h ⊢
  split at h
  · rw [if_pos ‹_›]
    obtain ⟨k, hk, hmaximum⟩ : ∃ k :
      ℚ, (MpfrInterval.larger a.lower.abs a.upper.abs).finite? = some k ∧
        (k : ℝ) = max |(l : ℝ)| |(u : ℝ)| := by
      unfold MpfrInterval.larger
      have hle := le_iff (denotes_of_finite (finite?_abs hu)) (denotes_of_finite (finite?_abs hl))
      rw [EReal.coe_le_coe_iff] at hle
      push_cast at hle
      split
      · rename_i h
        refine ⟨_, finite?_abs hl, ?_⟩
        rw [max_eq_left (hle.mp h)]
        push_cast
        rfl
      · rename_i h
        refine ⟨_, finite?_abs hu, ?_⟩
        rw [max_eq_right (not_le.mp (mt hle.mpr h)).le]
        push_cast
        rfl
    refine arithmeticResult_contains h ⟨fun t ht => ?_, fun t ht => ?_⟩
    · rw [finite?_ofInt] at ht
      cases ht
      simpa using sq_nonneg x
    · refine le_trans ?_ (le_rounds_up (hm.mul _ .up hk hk) ht)
      rw [hmaximum]
      have habs : |x| ≤ max |(l : ℝ)| |(u : ℝ)| := abs_le_max_abs_abs hlx hxu
      calc x ^ 2 = |x| * |x| := by rw [abs_mul_abs_self, sq]
        _ ≤ _ := mul_le_mul habs habs (abs_nonneg x) ((abs_nonneg x).trans habs)
  · rw [if_neg ‹_›, sq]
    exact Contains.mul hm ⟨l, u, hl, hu, hlx, hxu⟩ ⟨l, u, hl, hu, hlx, hxu⟩ h

theorem Contains.div (hx : Contains a x) (hy : Contains b y) (h : MpfrInterval.div m a b = .ok c) :
    Contains c (x / y) := by
  obtain ⟨_, _, h⟩ := bind_eq_ok h
  obtain ⟨_, _, h⟩ := bind_eq_ok h
  split at h
  · obtain ⟨r, hr, h⟩ := bind_eq_ok h
    obtain ⟨_, hv, h⟩ := bind_eq_ok h
    cases h
    rw [div_eq_mul_one_div]
    exact hx.mul hm (hy.reciprocal hm hr) (validate_valid hv)
  · cases h

end

/-! ## Directed pairs -/

theorem denotes_cases {x : MpfrFloat} {t : EReal} (h : x.Denotes t) :
    (∃ a, x.finite? = some a) ∨ ∃ s, x.datum = .infinity s := by
  obtain ⟨p, d⟩ := x
  cases d with
  | nan => exact h.elim
  | infinity s => exact .inr ⟨s, rfl⟩
  | zero s => exact .inl ⟨0, rfl⟩
  | normal v hv => exact .inl ⟨v, rfl⟩

/-- Floats of one value differ at most in the sign of a zero. -/
theorem datum_eq_of_denotes {x y : MpfrFloat} {t : EReal} (hx : x.Denotes t) (hy : y.Denotes t) :
    x.datum = y.datum ∨ ∃ s s', x.datum = .zero s ∧ y.datum = .zero s' := by
  obtain ⟨p, d⟩ := x
  obtain ⟨q, e⟩ := y
  cases d with
  | nan => exact hx.elim
  | infinity s =>
    cases e with
    | nan => exact hy.elim
    | infinity s' => cases s <;> cases s' <;> simp_all [MpfrFloat.Denotes]
    | zero s' => cases s <;> simp_all [MpfrFloat.Denotes]
    | normal v hv => cases s <;> simp_all [MpfrFloat.Denotes]
  | zero s =>
    cases e with
    | nan => exact hy.elim
    | infinity s' => cases s' <;> simp_all [MpfrFloat.Denotes]
    | zero s' => exact .inr ⟨s, s', rfl, rfl⟩
    | normal v hv =>
      simp only [MpfrFloat.Denotes] at hx hy
      rw [hx] at hy
      exact absurd (by exact_mod_cast hy.symm) hv
  | normal w hw =>
    cases e with
    | nan => exact hy.elim
    | infinity s' => cases s' <;> simp_all [MpfrFloat.Denotes]
    | zero s' =>
      simp only [MpfrFloat.Denotes] at hx hy
      rw [hy] at hx
      exact absurd (by exact_mod_cast hx.symm) hw
    | normal v hv =>
      simp only [MpfrFloat.Denotes] at hx hy
      rw [hx] at hy
      have hwv : w = v := by exact_mod_cast hy
      subst hwv
      exact .inl rfl

theorem float_eq_of_denotes {x y : MpfrFloat} {t : EReal} (hp : x.precision = y.precision)
    (hx : x.Denotes t) (hy : y.Denotes t) (ht : t ≠ 0) : x = y := by
  obtain ⟨p, d⟩ := x
  obtain ⟨q, e⟩ := y
  rcases datum_eq_of_denotes hx hy with h | ⟨s, s', h, _⟩
  · exact congrArg₂ _ hp h
  · have hd : d = .zero s := h
    subst hd
    exact absurd hx ht

section
variable {m : Primitives}

/-- A value whose exponent lies above the least one is not the last before zero. -/
theorem successor_ne_zero {p : Nat} {v : ℚ} {t : EReal} (hv : v ≠ 0)
    (hrep : (v : ℝ) ∈ m.values p) (hexp : m.expMin < Int.log 2 |v| + 1)
    (ht : Succeeds (m.values p) (v : ℝ) t) : t ≠ 0 := by
  rintro rfl
  rcases ht with ⟨w, _, hw, hvw, hmin⟩ | ⟨htop, _⟩
  · have hw0 : w = 0 := by exact_mod_cast hw.symm
    subst hw0
    have hneg : v < 0 := by exact_mod_cast hvw
    obtain ⟨v', hrep, hvv⟩ := hrep
    have hvv' : v' = v := by exact_mod_cast hvv
    subst hvv'
    rcases hrep with h0 | ⟨e, ⟨hlo, hhi⟩, ⟨hge, hlt⟩, k, hk⟩
    · exact hv h0
    · -- the negative value of least magnitude lies strictly between
      have hp : 1 ≤ p := by
        by_contra hp
        have hp0 : p = 0 := by omega
        subst hp0
        have hpow : (0 : ℚ) < 2 ^ e := by positivity
        rw [hk] at hlt hv
        simp only [Nat.cast_zero, sub_zero] at hlt hv
        rw [abs_mul, abs_of_pos hpow] at hlt
        have hk1 : |(k : ℚ)| < 1 := by
          by_contra hk1
          have := mul_le_mul_of_nonneg_right (not_lt.mp hk1) hpow.le
          linarith
        have hk0 : k = 0 := by
          have : |k| < 1 := by exact_mod_cast hk1
          exact Int.abs_lt_one_iff.mp this
        exact hv (by rw [hk0]; simp)
      have hleast : ((-(2 ^ (m.expMin - 1)) : ℚ) : ℝ) ∈ m.values p := by
        refine ⟨_, .inr ⟨m.expMin, ⟨le_rfl, hlo.trans hhi⟩, ?_, -(2 ^ (p - 1)), ?_⟩, rfl⟩
        · rw [abs_neg, abs_of_pos (by positivity)]
          exact ⟨le_rfl, zpow_lt_zpow_right₀ (by norm_num) (by omega)⟩
        · push_cast
          rw [neg_mul, ← zpow_natCast, ← zpow_add₀ (by norm_num)]
          congr 2
          omega
      have habs : (2 : ℚ) ^ m.expMin ≤ |v'| := by
        have hlog := Int.zpow_log_le_self (b := 2) (r := |v'|) (by norm_num) (abs_pos.mpr hv)
        refine le_trans ?_ hlog
        exact zpow_le_zpow_right₀ (by norm_num) (by omega)
      have hbetween : v' < -(2 ^ (m.expMin - 1)) := by
        rw [abs_of_neg hneg] at habs
        have : (2 : ℚ) ^ (m.expMin - 1) < 2 ^ m.expMin :=
          zpow_lt_zpow_right₀ (by norm_num) (by omega)
        linarith
      have hle := hmin _ hleast (by exact_mod_cast hbetween)
      have hpos : (0 : ℝ) < 2 ^ (m.expMin - 1) := by positivity
      push_cast at hle
      linarith
  · exact absurd htop (by simp)

/-- The shortcut gives the float that a second, upward evaluation gives. -/
theorem upwardFromDownward_eq (hm : m.Correct) {x lower : MpfrFloat} {ternary : Ordering}
    {f : Round → MpfrFloat → MpfrFloat × Ordering}
    (h : lower.isNormal = true → ∃ r, m.RoundsTernary x.precision .down r (lower, ternary) ∧
      m.Rounds x.precision .up r (f .up x).1) :
    MpfrInterval.upwardFromDownward m x lower ternary f = (f .up x).1 := by
  unfold MpfrInterval.upwardFromDownward
  dsimp only
  by_cases hnormal : lower.isNormal = true
  · obtain ⟨r, ⟨⟨hp, t, ht, hround⟩, hternary⟩, hp', t', ht', hround'⟩ := h hnormal
    obtain ⟨v, hv, hdatum⟩ : ∃ v, ∃ h : v ≠ 0, lower.datum = .normal v h := by
      unfold MpfrFloat.isNormal at hnormal
      split at hnormal
      · exact ⟨_, _, ‹_›⟩
      · cases hnormal
    have hfinite : lower.finite? = some v := by
      unfold MpfrFloat.finite?
      rw [hdatum]
    have htv : t = ((v : ℝ) : EReal) := Denotes.eq_coe ht hfinite
    subst htv
    have hcmp := hternary _ ht
    have hdown : RoundsDown (m.values x.precision) r ((v : ℝ) : EReal) := hround
    have hup : RoundsUp (m.values x.precision) r t' := hround'
    rw [if_pos hnormal]
    cases ternary with
    | eq =>
      have hvr : (v : ℝ) = r := by exact_mod_cast hcmp
      rw [← hvr] at hup
      have htv' := hup.unique (roundsUp_self hdown.mem.1)
      rw [htv'] at ht'
      refine float_eq_of_denotes (hp.trans hp'.symm) ht ht' ?_
      exact_mod_cast hv
    | gt => rfl
    | lt =>
      have hvr : (v : ℝ) < r := by exact_mod_cast hcmp
      dsimp only
      split
      · rename_i hguard
        obtain ⟨hexp, _⟩ := Bool.and_eq_true_iff.mp hguard
        have hexp' : m.expMin < Int.log 2 |v| + 1 := by
          unfold MpfrFloat.getExp at hexp
          rw [hdatum] at hexp
          simpa using hexp
        obtain ⟨hpnext, s, hs, hsucc⟩ := hm.nextUp hdatum
        have hp0 : lower.precision = x.precision := hp
        rw [hp0] at hpnext hsucc
        have hst := hup.unique (hdown.succeeds hvr hsucc)
        rw [hst] at ht'
        exact float_eq_of_denotes (hpnext.trans hp'.symm) hs ht'
          (successor_ne_zero hv hdown.mem.1 hexp' hsucc)
      · rfl
  · rw [if_neg hnormal]

end

/-! ## Sine and cosine -/

section
variable {m : Primitives} (hm : m.Correct) {a : MpfrInterval} {x : ℝ}
include hm

/-- The rounded midpoint is no NaN. -/
theorem rawMidpoint_denotes {l u : ℚ} (hl : a.lower.finite? = some l)
    (hu : a.upper.finite? = some u) :
    ∃ t, (MpfrInterval.rawMidpoint m a).Denotes t := by
  unfold MpfrInterval.rawMidpoint MpfrInterval.half
  dsimp only
  split
  · obtain ⟨t, ht⟩ := Rounds.denotes (hm.sub a.precision .nearest hu hl)
    rcases denotes_cases ht with ⟨d, hd⟩ | ⟨s, hs⟩
    · obtain ⟨b, hb⟩ := hm.half hd
      exact Rounds.denotes (hm.add a.precision .nearest hl hb)
    · obtain ⟨hsum, _⟩ := hm.add_infinity a.precision .nearest hl (hm.half_infinity hs)
      refine ⟨if s then ⊥ else ⊤, ?_⟩
      unfold MpfrFloat.Denotes
      rw [hsum]
  · obtain ⟨b, hb⟩ := hm.half hl
    obtain ⟨c, hc⟩ := hm.half hu
    exact Rounds.denotes (hm.add a.precision .nearest hb hc)

/-- Clamping brings the midpoint into the interval. -/
theorem clampedMidpoint_spec {l u : ℚ} (hl : a.lower.finite? = some l)
    (hu : a.upper.finite? = some u) (hlu : l ≤ u) :
    ∃ c, (MpfrInterval.clampedMidpoint m a).finite? = some c ∧ l ≤ c ∧ c ≤ u := by
  obtain ⟨t, ht⟩ := rawMidpoint_denotes hm hl hu
  unfold MpfrInterval.clampedMidpoint
  dsimp only
  split
  · exact ⟨l, hl, le_rfl, hlu⟩
  · rename_i hbelow
    split
    · exact ⟨u, hu, hlu, le_rfl⟩
    · rename_i habove
      rw [lt_iff ht (denotes_of_finite hl), not_lt] at hbelow
      rw [lt_iff (denotes_of_finite hu) ht, not_lt] at habove
      rcases denotes_cases ht with ⟨c, hc⟩ | ⟨s, hs⟩
      · rw [Denotes.eq_coe ht hc, EReal.coe_le_coe_iff, Rat.cast_le] at hbelow habove
        exact ⟨c, hc, hbelow, habove⟩
      · unfold MpfrFloat.Denotes at ht
        rw [hs] at ht
        cases s <;> simp_all

theorem midpointPoint_spec (hv : Valid a) {l u : ℚ} (hl : a.lower.finite? = some l)
    (hu : a.upper.finite? = some u) (hlu : l ≤ u) :
    ∃ point c, MpfrInterval.midpointPoint m a = .ok point ∧ point.lower.finite? = some c ∧
      l ≤ c ∧ c ≤ u := by
  obtain ⟨c, hc, hlc, hcu⟩ := clampedMidpoint_spec hm hl hu hlu
  have hself : Enclosing (MpfrInterval.clampedMidpoint m a) (MpfrInterval.clampedMidpoint m a) := by
    have hfinite := isFinite_iff.mpr ⟨c, hc⟩
    refine ⟨⟨hfinite, hfinite, ?_⟩, rfl⟩
    rw [Bool.eq_false_iff, ne_eq, lt_iff (denotes_of_finite hc) (denotes_of_finite hc)]
    exact lt_irrefl _
  refine ⟨⟨_, _, .inl hself⟩, c, ?_, hc, hlc, hcu⟩
  unfold MpfrInterval.midpointPoint MpfrInterval.point MpfrInterval.new
  rw [validate_iff.mpr hv, if_pos hself.1, dif_pos hself]
  rfl

/-- A returned center is a point of the interval with a radius that reaches every point. -/
theorem trigCenter_spec (hv : Valid a) : ∃ found, MpfrInterval.trigCenter m a = .ok found ∧
    ∀ midpoint radius, found = some (midpoint, radius) →
      ∃ c r, midpoint.finite? = some c ∧ radius.finite? = some r ∧
        ∀ x, Contains a x → |x - c| ≤ r := by
  obtain ⟨l, u, hl, hu, hlu⟩ := hv.endpoints
  obtain ⟨point, c, hpoint, hc, hlc, hcu⟩ := midpointPoint_spec hm hv hl hu hlu
  unfold MpfrInterval.trigCenter
  rw [hpoint]
  refine ⟨_, rfl, fun midpoint radius hfound => ?_⟩
  obtain ⟨_, tl, htl, hleft⟩ := hm.sub a.precision .up hc hl
  obtain ⟨_, tr, htr, hright⟩ := hm.sub a.precision .up hu hc
  have hleft' : (((c : ℝ) - l : ℝ) : EReal) ≤ tl := RoundsUp.le hleft
  have hright' : (((u : ℝ) - c : ℝ) : EReal) ≤ tr := RoundsUp.le hright
  have ht := larger_spec htl htr
  have hlow : (((c : ℝ) - l : ℝ) : EReal) ≤ max tl tr := hleft'.trans (le_max_left _ _)
  have hhigh : (((u : ℝ) - c : ℝ) : EReal) ≤ max tl tr := hright'.trans (le_max_right _ _)
  generalize MpfrInterval.larger (m.sub a.precision .up point.lower a.lower)
    (m.sub a.precision .up a.upper point.lower) = larger at ht hfound
  generalize max tl tr = t at ht hlow hhigh
  split at hfound
  · rename_i hsmall
    cases hfound
    rw [lt_iff ht (denotes_of_finite (finite?_ofInt _ 2))] at hsmall
    rcases denotes_cases ht with ⟨r, hr⟩ | ⟨s, hs⟩
    · rw [Denotes.eq_coe ht hr, EReal.coe_le_coe_iff] at hlow hhigh
      refine ⟨c, r, hc, hr, fun x hx => ?_⟩
      obtain ⟨l', u', hl', hu', hlx, hxu⟩ := hx
      rw [hl] at hl'
      rw [hu] at hu'
      cases hl'
      cases hu'
      exact abs_le.mpr ⟨by linarith, by linarith⟩
    · unfold MpfrFloat.Denotes at ht
      rw [hs] at ht
      cases s with
      | true =>
        have hbot : t = ⊥ := ht
        rw [hbot, le_bot_iff] at hlow
        exact absurd hlow (EReal.coe_ne_bot _)
      | false =>
        have htop : t = ⊤ := ht
        rw [htop] at hsmall
        exact absurd hsmall not_top_lt
  · cases hfound

/-- Widening a directed pair by a Lipschitz radius, clamped to the range. -/
theorem trigWidened_contains {lower upper radius : MpfrFloat} {p q : Nat} {r : ℚ} {y z : ℝ}
    (hl : m.Rounds p .down y lower) (hu : m.Rounds q .up y upper) (hr : radius.finite? = some r)
    (hz : |z - y| ≤ r) (hrange : |z| ≤ 1) (h : Valid (.trigWidened m lower upper radius)) :
    Contains (.trigWidened m lower upper radius) z := by
  unfold MpfrInterval.trigWidened at h ⊢
  dsimp only at h ⊢
  obtain ⟨hzl, hzu⟩ := abs_le.mp hz
  obtain ⟨hrl, hru⟩ := abs_le.mp hrange
  refine arithmeticResult_contains h ⟨fun t ht => ?_, fun t ht => ?_⟩
  · split at ht
    · rw [finite?_ofInt] at ht
      cases ht
      push_cast
      exact hrl
    · obtain ⟨_, s, hs, hround⟩ := id hl
      rcases denotes_cases hs with ⟨b, hb⟩ | ⟨neg, hneg⟩
      · have hle := rounds_down_le (hm.sub _ .down hb hr) ht
        have hby := rounds_down_le hl hb
        linarith
      · rw [finite?_of_infinity (hm.sub_infinity _ .down hneg hr)] at ht
        cases ht
  · split at ht
    · rw [finite?_ofInt] at ht
      cases ht
      push_cast
      exact hru
    · obtain ⟨_, s, hs, hround⟩ := id hu
      rcases denotes_cases hs with ⟨b, hb⟩ | ⟨neg, hneg⟩
      · have hle := le_rounds_up (hm.add _ .up hb hr) ht
        have hby := le_rounds_up hu hb
        linarith
      · rw [finite?_of_infinity (hm.add_infinity _ .up hr hneg).2] at ht
        cases ht

omit hm in
theorem fullRange_contains {p : Nat} {z : ℝ} (hz : |z| ≤ 1) (h : Valid (.fullRange p)) :
    Contains (.fullRange p) z := by
  obtain ⟨hzl, hzu⟩ := abs_le.mp hz
  refine arithmeticResult_contains h ⟨fun t ht => ?_, fun t ht => ?_⟩
  · rw [finite?_ofInt] at ht
    cases ht
    push_cast
    exact hzl
  · rw [finite?_ofInt] at ht
    cases ht
    push_cast
    exact hzu

/-- The directed pair of a correctly rounded function with its ternary value. -/
theorem directedPointPair_eq {point : MpfrFloat} {f : Round → MpfrFloat → MpfrFloat × Ordering}
    {r : ℝ} (hf : ∀ round, m.RoundsTernary point.precision round r (f round point)) :
    MpfrInterval.directedPointPair m point f = ((f .down point).1, (f .up point).1) := by
  unfold MpfrInterval.directedPointPair
  dsimp only
  rw [upwardFromDownward_eq hm fun _ => ⟨r, hf .down, (hf .up).1⟩]

/-- Sine and cosine share their treatment: `g` is the function, `f` its rounding. -/
theorem lipschitz_contains {f : Round → MpfrFloat → MpfrFloat × Ordering} {g : ℝ → ℝ}
    (hf : ∀ round {x : MpfrFloat} {a : ℚ}, x.finite? = some a →
      m.RoundsTernary x.precision round (g a) (f round x))
    (hg : ∀ x y, |g x - g y| ≤ |x - y|) (hrange : ∀ x, |g x| ≤ 1) {midpoint radius : MpfrFloat}
    {c r : ℚ} (hc : midpoint.finite? = some c) (hr : radius.finite? = some r) (hx : |x - c| ≤ r)
    (h : Valid (.trigWidened m (MpfrInterval.directedPointPair m midpoint f).1
      (MpfrInterval.directedPointPair m midpoint f).2 radius)) :
    Contains (.trigWidened m (MpfrInterval.directedPointPair m midpoint f).1
      (MpfrInterval.directedPointPair m midpoint f).2 radius) (g x) := by
  rw [directedPointPair_eq hm fun round => hf round hc] at h ⊢
  exact trigWidened_contains hm (hf .down hc).1 (hf .up hc).1 hr ((hg _ _).trans hx) (hrange x) h

omit hm in
/-- A valid operand goes through the shared center. -/
theorem lipschitzTrig_eq (sine : Bool) (hvalid : a.isValid = true) :
    MpfrInterval.lipschitzTrig m a sine =
      (MpfrInterval.trigCenter m a >>= fun found => match found with
        | none => (pure (MpfrInterval.fullRange a.precision) : Run MpfrInterval)
        | some (midpoint, radius) => pure (.trigWidened m
            (MpfrInterval.directedPointPair m midpoint (if sine then m.sin else m.cos)).1
            (MpfrInterval.directedPointPair m midpoint (if sine then m.sin else m.cos)).2
                radius)) := by
  unfold MpfrInterval.lipschitzTrig
  rw [hvalid]
  rfl

theorem lipschitzTrig_spec (sine : Bool) {v : MpfrInterval}
    (h : MpfrInterval.lipschitzTrig m a sine = .ok v) (hv : Valid v) :
    Valid a ∧ ∀ x, Contains a x → Contains v (if sine then Real.sin x else Real.cos x) := by
  by_cases hvalid : Valid a
  · refine ⟨hvalid, fun x hx => ?_⟩
    obtain ⟨found, hfound, hcenter⟩ := trigCenter_spec hm hvalid
    rw [lipschitzTrig_eq sine (isValid_iff.mpr hvalid), hfound, ok_bind] at h
    cases found with
    | none =>
      cases h
      cases sine with
      | true => exact fullRange_contains (Real.abs_sin_le_one x) hv
      | false => exact fullRange_contains (Real.abs_cos_le_one x) hv
    | some center =>
      obtain ⟨midpoint, radius⟩ := center
      obtain ⟨c, r, hc, hr, hreach⟩ := hcenter midpoint radius rfl
      cases h
      cases sine with
      | true =>
        exact lipschitz_contains hm (fun round {_ _} hx => hm.sin round hx) Real.abs_sin_sub_sin_le
          Real.abs_sin_le_one hc hr (hreach x hx) hv
      | false =>
        exact lipschitz_contains hm (fun round {_ _} hx => hm.cos round hx) Real.abs_cos_sub_cos_le
          Real.abs_cos_le_one hc hr (hreach x hx) hv
  · have hinvalid : a.isValid = false := Bool.eq_false_of_not_eq_true (mt isValid_iff.mp hvalid)
    unfold MpfrInterval.lipschitzTrig at h
    rw [hinvalid] at h
    cases h
    exact absurd hv (not_valid_invalid _)

/-- The trigonometric enclosures always return. -/
theorem lipschitzTrig_returns (a : MpfrInterval) (sine : Bool) :
    ∃ v, MpfrInterval.lipschitzTrig m a sine = .ok v := by
  unfold MpfrInterval.lipschitzTrig
  by_cases hvalid : Valid a
  · obtain ⟨found, hfound, _⟩ := trigCenter_spec hm hvalid
    simp only [isValid_iff.mpr hvalid, Bool.not_true, Bool.false_eq_true, if_false, hfound,
      ok_bind]
    cases found with
    | none => exact ⟨_, rfl⟩
    | some center => exact ⟨_, rfl⟩
  · simp only [Bool.eq_false_of_not_eq_true (mt isValid_iff.mp hvalid), Bool.not_false, if_true]
    exact ⟨_, rfl⟩

omit hm in
/-- Correct rounding with a ternary value leaves only the sign of a zero open. -/
theorem roundsTernary_unique {p : Nat} {r : ℝ} {u v : MpfrFloat × Ordering}
    (hu : m.RoundsTernary p .down r u) (hv : m.RoundsTernary p .down r v)
    (hzero : ∀ s s', u.1.datum = .zero s → v.1.datum = .zero s' → s = s') : u = v := by
  obtain ⟨⟨hpu, t, ht, hroundu⟩, hternaryu⟩ := hu
  obtain ⟨⟨hpv, t', ht', hroundv⟩, hternaryv⟩ := hv
  obtain rfl : t = t' := RoundsDown.unique hroundu hroundv
  have hcu := hternaryu t ht
  have hcv := hternaryv t ht'
  obtain ⟨⟨p1, d1⟩, o1⟩ := u
  obtain ⟨⟨p2, d2⟩, o2⟩ := v
  have hprec : p1 = p2 := hpu.trans hpv.symm
  have hdatum : d1 = d2 := by
    rcases datum_eq_of_denotes ht ht' with h | ⟨s, s', hs, hs'⟩
    · exact h
    · have hd1 : d1 = .zero s := hs
      have hd2 : d2 = .zero s' := hs'
      rw [hd1, hd2, hzero s s' hs hs']
  have horder : o1 = o2 := by
    cases o1 <;> cases o2 <;> first
      | rfl
      | exact absurd hcu (not_lt.mpr (le_of_lt hcv))
      | exact absurd (show t = r from hcu) (ne_of_lt hcv)
      | exact absurd (show t = r from hcu) (ne_of_gt hcv)
      | exact absurd (show t = r from hcv) (ne_of_lt hcu)
      | exact absurd (show t = r from hcv) (ne_of_gt hcu)
  rw [hprec, hdatum, horder]

/-- The joint evaluation gives the separate enclosures, bit for bit. -/
theorem sinCos_eq (a : MpfrInterval) : MpfrInterval.sinCos m a = (do
    let sin ← MpfrInterval.sin m a
    let cos ← MpfrInterval.cos m a
    return (sin, cos)) := by
  unfold MpfrInterval.sinCos MpfrInterval.sin MpfrInterval.cos MpfrInterval.lipschitzTrig
  by_cases hvalid : Valid a
  · obtain ⟨found, hfound, hcenter⟩ := trigCenter_spec hm hvalid
    simp only [isValid_iff.mpr hvalid, Bool.not_true, Bool.false_eq_true, if_false, hfound,
      ok_bind]
    cases found with
    | none => rfl
    | some center =>
      obtain ⟨midpoint, radius⟩ := center
      obtain ⟨c, r, hc, _, _⟩ := hcenter midpoint radius rfl
      have hsin : (m.sinCos .down midpoint).1 = m.sin .down midpoint :=
        roundsTernary_unique (hm.sinCos_sin .down hc) (hm.sin .down hc)
          fun s s' => (hm.sinCos_zero .down).1
      have hcos : (m.sinCos .down midpoint).2 = m.cos .down midpoint :=
        roundsTernary_unique (hm.sinCos_cos .down hc) (hm.cos .down hc)
          fun s s' => (hm.sinCos_zero .down).2
      simp only [hsin, hcos]
      rfl
  · simp only [Bool.eq_false_of_not_eq_true (mt isValid_iff.mp hvalid), Bool.not_false, if_true]
    rfl

/-! ## Invalid operands -/

omit hm in
theorem neg_valid (h : Valid a.neg) : Valid a := by
  by_contra hv
  obtain ⟨_, hnan⟩ := nan_of_not_valid hv
  obtain ⟨⟨hfinite, _⟩, _⟩ := h
  have hneg : a.upper.neg.datum = .nan := by
    show a.upper.datum.neg = .nan
    rw [hnan]
    rfl
  rw [show a.neg.lower = a.upper.neg from rfl, not_finite_of_nan hneg] at hfinite
  cases hfinite

omit hm in
/-- A result with a NaN endpoint is not valid. -/
theorem not_valid_of_nan {lower upper : MpfrFloat} (h : lower.datum = .nan ∨ upper.datum = .nan) :
    ¬Valid (.arithmeticResult lower upper) := by
  intro hv
  obtain ⟨⟨hl, hu, _⟩, _⟩ := arithmeticResult_enclosing hv
  rcases h with h | h
  · rw [not_finite_of_nan h] at hl
    cases hl
  · rw [not_finite_of_nan h] at hu
    cases hu

theorem square_valid (h : Valid (.square m a)) : Valid a := by
  by_contra hv
  obtain ⟨_, hnan⟩ := nan_of_not_valid hv
  have hzero : a.containsZero = true := by
    unfold MpfrInterval.containsZero
    rw [Bool.eq_false_of_not_eq_true (mt isValid_iff.mp hv)]
    rfl
  unfold MpfrInterval.square at h
  rw [if_pos hzero] at h
  have habs : a.upper.abs.datum = .nan := by
    show a.upper.datum.abs = .nan
    rw [hnan]
    rfl
  have hlarger : (MpfrInterval.larger a.lower.abs a.upper.abs).datum = .nan := by
    unfold MpfrInterval.larger
    have hle : a.upper.abs.le a.lower.abs = false := by
      unfold MpfrFloat.le
      rw [habs]
      rfl
    rw [hle]
    exact habs
  exact not_valid_of_nan (.inr (hm.mul_nan _ .up hlarger)) h

theorem exp_valid (h : Valid (.exp m a)) : Valid a := by
  by_contra hv
  exact not_valid_of_nan (.inl (hm.exp_nan .down (nan_of_not_valid hv).1)) h

theorem atan_valid (h : Valid (.atan m a)) : Valid a := by
  by_contra hv
  exact not_valid_of_nan (.inl (hm.atan_nan .down (nan_of_not_valid hv).1)) h

end

end Xcelerator.Numerics.MpfrBallSoundness
