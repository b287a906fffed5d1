import Mathlib

/-! # Gregorian instants and their decimal text

Civil dates and times of the proleptic Gregorian calendar as seconds since the
start of year one, with decimal fractions of a second. Fields of fixed width
written in order compare as text exactly as the instants do, and so do
fractions without final zeros. -/

namespace Xcelerator.Foundations.Calendar

/-! ## Instants -/

def Leap (year : ℕ) : Prop := year % 4 = 0 ∧ (year % 100 ≠ 0 ∨ year % 400 = 0)

instance (year : ℕ) : Decidable (Leap year) := inferInstanceAs (Decidable (_ ∧ _))

def monthLength (year month : ℕ) : ℕ :=
  if month = 2 then if Leap year then 29 else 28
  else if month = 4 ∨ month = 6 ∨ month = 9 ∨ month = 11 then 30 else 31

def yearLength (year : ℕ) : ℕ := ∑ month ∈ Finset.Ico 1 13, monthLength year month

structure Civil where
  year : ℕ
  month : ℕ
  day : ℕ
  hour : ℕ
  minute : ℕ
  second : ℕ
deriving DecidableEq, Repr

/-- A date and time that exists, leap seconds apart. -/
structure Civil.Valid (c : Civil) : Prop where
  year : 1 ≤ c.year
  month : 1 ≤ c.month ∧ c.month ≤ 12
  day : 1 ≤ c.day ∧ c.day ≤ monthLength c.year c.month
  clock : c.hour < 24 ∧ c.minute < 60 ∧ c.second < 60

/-- Days since the first of January of year one. -/
def Civil.dayNumber (c : Civil) : ℕ :=
  ∑ year ∈ Finset.Ico 1 c.year, yearLength year + ∑ month ∈ Finset.Ico 1 c.month,
    monthLength c.year month + (c.day - 1)

def Civil.seconds (c : Civil) : ℕ := ((c.dayNumber * 24 + c.hour) * 60 + c.minute) * 60 + c.second

/-- The fields, most significant first. -/
def Civil.key (c : Civil) : List ℕ := [c.year, c.month, c.day, c.hour, c.minute, c.second]

theorem Civil.key_injective {a b : Civil} (h : a.key = b.key) : a = b := by
  obtain ⟨_, _, _, _, _, _⟩ := a
  obtain ⟨_, _, _, _, _, _⟩ := b
  simpa [Civil.key] using h

section
variable {a b : Civil}

/-- The days of the months before a date stay within its month. -/
theorem Civil.Valid.within_month (ha : a.Valid) {month : ℕ} (h : a.month < month) :
    ∑ m ∈ Finset.Ico 1 a.month, monthLength a.year m + (a.day - 1) <
      ∑ m ∈ Finset.Ico 1 month, monthLength a.year m := by
  have hday := ha.day
  calc ∑ m ∈ Finset.Ico 1 a.month, monthLength a.year m + (a.day - 1)
      < ∑ m ∈ Finset.Ico 1 a.month, monthLength a.year m + monthLength a.year a.month := by omega
    _ = ∑ m ∈ Finset.Ico 1 (a.month + 1), monthLength a.year m :=
      (Finset.sum_Ico_succ_top ha.month.1 _).symm
    _ ≤ ∑ m ∈ Finset.Ico 1 month, monthLength a.year m :=
      Finset.sum_le_sum_of_subset (Finset.Ico_subset_Ico_right h)

theorem Civil.Valid.within_year (ha : a.Valid) {year : ℕ} (h : a.year < year) :
    a.dayNumber < ∑ y ∈ Finset.Ico 1 year, yearLength y := by
  have hmonth := @Civil.Valid.within_month a ha 13 (by have := ha.month; omega)
  calc a.dayNumber < ∑ y ∈ Finset.Ico 1 a.year, yearLength y + yearLength a.year := by
        unfold Civil.dayNumber yearLength at *
        omega
    _ = ∑ y ∈ Finset.Ico 1 (a.year + 1), yearLength y := (Finset.sum_Ico_succ_top ha.year _).symm
    _ ≤ ∑ y ∈ Finset.Ico 1 year, yearLength y :=
      Finset.sum_le_sum_of_subset (Finset.Ico_subset_Ico_right h)

/-- The first different field decides. -/
theorem Civil.key_lt : a.key < b.key ↔ a.year < b.year ∨ a.year = b.year ∧
    (a.month < b.month ∨ a.month = b.month ∧
    (a.day < b.day ∨ a.day = b.day ∧ (a.hour < b.hour ∨ a.hour = b.hour ∧ (a.minute < b.minute ∨
      a.minute = b.minute ∧ a.second < b.second)))) := by
  simp [Civil.key, List.cons_lt_cons_iff]

theorem Civil.seconds_lt (ha : a.Valid) (hb : b.Valid) (h : a.key < b.key) :
    a.seconds < b.seconds := by
  have hclock := ha.clock
  have hclock' := hb.clock
  have hdays : a.dayNumber < b.dayNumber → a.seconds < b.seconds := by
    intro h
    unfold Civil.seconds
    omega
  rcases Civil.key_lt.mp h with hyear | ⟨hyear, hmonth | ⟨hmonth, hday | ⟨hday, hrest⟩⟩⟩
  · refine hdays ((ha.within_year hyear).trans_le ?_)
    unfold Civil.dayNumber
    omega
  · have hlt := ha.within_month hmonth
    refine hdays ?_
    unfold Civil.dayNumber
    rw [hyear] at hlt ⊢
    omega
  · have hpos := ha.day.1
    refine hdays ?_
    unfold Civil.dayNumber
    rw [hyear, hmonth]
    omega
  · have hsame : a.dayNumber = b.dayNumber := by
      unfold Civil.dayNumber
      rw [hyear, hmonth, hday]
    unfold Civil.seconds
    omega

end

/-! ## Fractions -/

/-- The value of decimal digits after the point. -/
def fractionValue : List ℕ → ℚ
  | [] => 0
  | digit :: rest => (digit + fractionValue rest) / 10

def Digits (f : List ℕ) : Prop := ∀ d ∈ f, d < 10

theorem fractionValue_bounds {f : List ℕ} (h : Digits f) :
    0 ≤ fractionValue f ∧ fractionValue f < 1 := by
  induction f with
  | nil => simp [fractionValue]
  | cons d f ih =>
    obtain ⟨hlow, hhigh⟩ := ih fun x hx => h x (List.mem_cons_of_mem _ hx)
    have hd : (d : ℚ) ≤ 9 := by exact_mod_cast Nat.le_of_lt_succ (h d List.mem_cons_self)
    have hd0 : (0 : ℚ) ≤ d := Nat.cast_nonneg d
    rw [fractionValue]
    constructor
    · positivity
    · rw [div_lt_one (by norm_num)]
      linarith

/-- No zero at the end. -/
def Trimmed (f : List ℕ) : Prop := f.getLast? ≠ some 0

theorem Trimmed.tail {d e : ℕ} {f : List ℕ} (h : Trimmed (d :: e :: f)) : Trimmed (e :: f) := by
  unfold Trimmed at *
  rwa [List.getLast?_cons_cons] at h

theorem fractionValue_pos {f : List ℕ} (h : Digits f) (ht : Trimmed f) (hne : f ≠ []) :
    0 < fractionValue f := by
  induction f with
  | nil => exact absurd rfl hne
  | cons d f ih =>
    have hrest := (fractionValue_bounds fun x hx => h x (List.mem_cons_of_mem d hx)).1
    rw [fractionValue]
    cases f with
    | nil =>
      have hd : d ≠ 0 := by
        rintro rfl
        exact ht rfl
      have hd : (0 : ℚ) < d := by exact_mod_cast Nat.pos_of_ne_zero hd
      positivity
    | cons e f =>
      have hpos := ih (fun x hx => h x (List.mem_cons_of_mem d hx)) ht.tail (by simp)
      positivity

/-- Fractions without final zeros compare digit by digit. -/
theorem fractionValue_lt {f g : List ℕ} (hf : Digits f) (hg : Digits g) (ht : Trimmed g)
    (h : f < g) :
    fractionValue f < fractionValue g := by
  induction f generalizing g with
  | nil =>
    cases g with
    | nil => exact absurd h (lt_irrefl _)
    | cons e g => exact fractionValue_pos hg ht (by simp)
  | cons d f ih =>
    cases g with
    | nil => exact absurd h (List.not_lt_nil _)
    | cons e g =>
      have hf' : Digits f := fun x hx => hf x (List.mem_cons_of_mem d hx)
      have hg' : Digits g := fun x hx => hg x (List.mem_cons_of_mem e hx)
      rw [fractionValue, fractionValue]
      refine div_lt_div_of_pos_right ?_ (by norm_num)
      rcases List.cons_lt_cons_iff.mp h with hlt | ⟨rfl, hlt⟩
      · have hle : (d : ℚ) + 1 ≤ e := by exact_mod_cast hlt
        linarith [(fractionValue_bounds hf').2, (fractionValue_bounds hg').1]
      · have htail : Trimmed g := by
          cases g with
          | nil => exact absurd hlt (List.not_lt_nil _)
          | cons e g => exact ht.tail
        linarith [ih hf' hg' htail hlt]

/-- Final zeros do not change the value. -/
theorem fractionValue_append_zeros (f : List ℕ) (n : ℕ) :
    fractionValue (f ++ List.replicate n 0) = fractionValue f := by
  have hzeros : fractionValue (List.replicate n 0) = 0 := by
    induction n with
    | zero => rfl
    | succ n ih => simp [List.replicate_succ, fractionValue, ih]
  induction f with
  | nil => exact hzeros
  | cons d f ih => rw [List.cons_append, fractionValue, ih, fractionValue]

theorem rdropWhile_zeros (f : List ℕ) :
    (∃ n, f = f.rdropWhile (· == 0) ++ List.replicate n 0) ∧ Trimmed (f.rdropWhile (· == 0)) := by
  induction f using List.reverseRecOn with
  | nil => exact ⟨⟨0, rfl⟩, by simp [Trimmed]⟩
  | append_singleton f d ih =>
    obtain ⟨⟨n, hn⟩, ht⟩ := ih
    by_cases hd : d = 0
    · subst hd
      rw [List.rdropWhile_concat_pos _ _ _ (by simp)]
      refine ⟨⟨n + 1, ?_⟩, ht⟩
      rw [List.replicate_succ', ← List.append_assoc, ← hn]
    · rw [List.rdropWhile_concat_neg _ _ _ (by simpa using hd)]
      exact ⟨⟨0, by simp⟩, by simpa [Trimmed] using hd⟩

theorem fractionValue_trim (f : List ℕ) :
    fractionValue (f.rdropWhile (· == 0)) = fractionValue f := by
  obtain ⟨⟨n, hn⟩, -⟩ := rdropWhile_zeros f
  conv_rhs => rw [hn]
  exact (fractionValue_append_zeros _ n).symm

/-! ## Text -/

/-- Two decimal digits in ASCII. -/
def two (n : ℕ) : List ℕ := [48 + n / 10, 48 + n % 10]

def four (n : ℕ) : List ℕ := [48 + n / 1000, 48 + n / 100 % 10, 48 + n / 10 % 10, 48 + n % 10]

/-- `YYYY-MM-DDTHH:MM:SS` in ASCII. -/
def stamp (c : Civil) : List ℕ :=
  four c.year ++ (45 :: two c.month ++ (45 :: two c.day ++ (84 :: two c.hour ++
    (58 :: two c.minute ++ 58 :: two c.second))))

/-- The stamp, a fraction when there is one, and `Z`. -/
def render (c : Civil) (fraction : List ℕ) : List ℕ :=
  stamp c ++ (if fraction = [] then [] else 46 :: fraction.map (48 + ·)) ++ [90]

theorem append_lt_left {x x' : List ℕ} (y y' : List ℕ) (hlength : x.length = x'.length)
    (h : x < x') :
    x ++ y < x' ++ y' := by
  induction x generalizing x' with
  | nil =>
    rw [List.eq_nil_of_length_eq_zero hlength.symm] at h
    exact absurd h (lt_irrefl _)
  | cons a x ih =>
    obtain ⟨b, x', rfl⟩ := List.exists_cons_of_length_eq_add_one (by simpa using hlength.symm)
    rw [List.cons_append, List.cons_append, List.cons_lt_cons_iff]
    exact (List.cons_lt_cons_iff.mp h).imp_right fun h => ⟨h.1, ih (by simpa using hlength) h.2⟩

theorem append_lt_right (x : List ℕ) {y y' : List ℕ} (h : y < y') : x ++ y < x ++ y' := by
  induction x with
  | nil => exact h
  | cons a x ih => exact List.cons_lt_cons_iff.mpr (.inr ⟨rfl, ih⟩)

theorem cons_lt (a : ℕ) {y y' : List ℕ} (h : y < y') : a :: y < a :: y' :=
  List.cons_lt_cons_iff.mpr (.inr ⟨rfl, h⟩)

theorem two_lt {m n : ℕ} (h : m < n) : two m < two n := by
  simp only [two, List.cons_lt_cons_iff]
  omega

theorem four_lt {m n : ℕ} (h : m < n) : four m < four n := by
  simp only [four, List.cons_lt_cons_iff]
  omega

theorem stamp_lt {a b : Civil} (h : a.key < b.key) : stamp a < stamp b := by
  unfold stamp
  rcases Civil.key_lt.mp h with h | ⟨h1, h | ⟨h2, h | ⟨h3, h | ⟨h4, h | ⟨h5, h⟩⟩⟩⟩⟩
  · exact append_lt_left _ _ rfl (four_lt h)
  all_goals
    rw [h1]
    refine append_lt_right _ (cons_lt 45 ?_)
  · exact append_lt_left _ _ rfl (two_lt h)
  all_goals
    rw [h2]
    refine append_lt_right _ (cons_lt 45 ?_)
  · exact append_lt_left _ _ rfl (two_lt h)
  all_goals
    rw [h3]
    refine append_lt_right _ (cons_lt 84 ?_)
  · exact append_lt_left _ _ rfl (two_lt h)
  all_goals
    rw [h4]
    refine append_lt_right _ (cons_lt 58 ?_)
  · exact append_lt_left _ _ rfl (two_lt h)
  · rw [h5]
    exact append_lt_right _ (cons_lt 58 (two_lt h))

/-- The instant of a civil time and a fraction, in seconds. -/
def instant (c : Civil) (fraction : List ℕ) : ℚ := c.seconds + fractionValue fraction

/-- The pair of a stamp and a trimmed fraction, compared as text, orders instants. -/
theorem instant_le_iff {a b : Civil} {f g : List ℕ} (ha : a.Valid) (hb : b.Valid) (hf : Digits f)
    (hg : Digits g) (hft : Trimmed f) (hgt : Trimmed g) :
    instant a f ≤ instant b g ↔ stamp a < stamp b ∨ stamp a = stamp b ∧ f ≤ g := by
  have hbounds := fractionValue_bounds hf
  have hbounds' := fractionValue_bounds hg
  unfold instant
  rcases lt_trichotomy a.key b.key with h | h | h
  · have hlt := Civil.seconds_lt ha hb h
    have hle : (a.seconds : ℚ) + 1 ≤ b.seconds := by exact_mod_cast hlt
    exact ⟨fun _ => .inl (stamp_lt h), fun _ => by linarith⟩
  · obtain rfl := Civil.key_injective h
    have hfractions : fractionValue f ≤ fractionValue g ↔ f ≤ g := by
      constructor
      · intro hle
        by_contra hnot
        exact absurd (fractionValue_lt hg hf hft (not_le.mp hnot)) (not_lt.mpr hle)
      · intro hle
        rcases hle.eq_or_lt with rfl | hlt
        · exact le_rfl
        · exact (fractionValue_lt hf hg hgt hlt).le
    simp [hfractions]
  · have hlt := Civil.seconds_lt hb ha h
    have hle : (b.seconds : ℚ) + 1 ≤ a.seconds := by exact_mod_cast hlt
    have hstamp := stamp_lt h
    refine ⟨fun hle' => absurd hle' (by linarith), fun hor => ?_⟩
    rcases hor with hlt' | ⟨heq, _⟩
    · exact absurd hlt' (not_lt.mpr hstamp.le)
    · exact absurd hstamp (heq ▸ lt_irrefl _)

end Xcelerator.Foundations.Calendar
