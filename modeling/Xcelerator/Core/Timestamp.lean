import Mathlib
import Xcelerator.Foundations.AsciiDecimal
import Xcelerator.Foundations.Calendar
import Xcelerator.Foundations.Machine

/-! # Archive timestamps

The UTC timestamps of archive manifests, `YYYY-MM-DDTHH:MM:SS[.digits]Z`. A
string is its bytes; slicing one outside its range or inside a character is a
fault, as an index outside a slice is. No input reaches a fault, the accepted
inputs are the rendered instants, and the textual comparison orders instants. -/

namespace Xcelerator.Core.Timestamp
open Xcelerator.Foundations Machine AsciiDecimal Calendar

def isAscii (value : Bytes) : Bool := value.all (· < 128)

/-- `is_char_boundary`. -/
def isCharBoundary (value : Bytes) (index : Nat) : Bool :=
  index == 0 || index == value.length || (value[index]?).any fun byte => byte < 128 || 192 ≤ byte

/-- `&value[start..stop]` of a string. -/
def slice (value : Bytes) (start stop : Nat) : Checked Bytes :=
  if start ≤ stop ∧ stop ≤ value.length ∧ isCharBoundary value start ∧
      isCharBoundary value stop then
    .ok ((value.drop start).take (stop - start))
  else .error .outOfBounds

/-- `&bytes[start..stop]` of a byte slice. -/
def sliceBytes (value : Bytes) (start stop : Nat) : Checked Bytes :=
  if start ≤ stop ∧ stop ≤ value.length then .ok ((value.drop start).take (stop - start))
  else .error .outOfBounds

def stripPlus : Bytes → Bytes
  | 43 :: rest => rest
  | value => value

/-- `str::parse::<u32>`. -/
def parseU32 (value : Bytes) : Option Nat :=
  let digits := stripPlus value
  if digits.isEmpty || !digits.all isDigit then none
  else if decimal digits < 2 ^ 32 then some (decimal digits) else none

/-- `expect("validated ASCII digits")`. -/
def expectNumber (value : Bytes) : Checked Nat :=
  match parseU32 value with
  | some number => .ok number
  | none => .error .failedAssertion

def daysOf (year month : Nat) : Option Nat :=
  if month ∈ [1, 3, 5, 7, 8, 10, 12] then some 31
  else if month ∈ [4, 6, 9, 11] then some 30
  else if month = 2 ∧ (year % 4 = 0 ∧ (year % 100 ≠ 0 ∨ year % 400 = 0)) then some 29
  else if month = 2 then some 28
  else none

def validDate (value : Bytes) : Checked Bool := do
  if value.length != 10 then return false
  if (← Machine.read value 4) != 45 then return false
  if (← Machine.read value 7) != 45 then return false
  if !(value.zipIdx.all fun cell => cell.2 == 4 || cell.2 == 7 || isDigit cell.1) then return false
  let year ← expectNumber (← slice value 0 4)
  let month ← expectNumber (← slice value 5 7)
  let day ← expectNumber (← slice value 8 value.length)
  match daysOf year month with
  | none => return false
  | some days => return year != 0 && (1 ≤ day && day ≤ days)

/-- The hour, minute and second fields. -/
def validClock (value : Bytes) : List (Nat × Nat) → Checked Bool
  | [] => .ok true
  | (start, limit) :: rest => do
    let pair ← sliceBytes value start (start + 2)
    if !pair.all isDigit then return false
    match parseU32 (← slice value start (start + 2)) with
    | none => return false
    | some number => if number ≥ limit then return false else validClock value rest

/-- The fraction without final zeros, or none for a malformed suffix. -/
def fractionOf (suffix : Bytes) : Option Bytes :=
  match suffix with
  | [] => some []
  | 46 :: digits =>
    if digits.isEmpty || !digits.all isDigit then none else some (digits.rdropWhile (· == 48))
  | _ => none

def timestampParts (value : Bytes) : Checked (Option (Bytes × Bytes)) := do
  if !isAscii value || decide (value.length < 20) || value.getLast? != some 90 then return none
  if !(← validDate (← slice value 0 10)) then return none
  if (← Machine.read value 10) != 84 then return none
  if (← Machine.read value 13) != 58 then return none
  if (← Machine.read value 16) != 58 then return none
  if !(← validClock value [(11, 24), (14, 60), (17, 60)]) then return none
  match fractionOf (← slice value 19 (← subtract value.length 1)) with
  | none => return none
  | some fraction => return some (← slice value 0 19, fraction)

def validTimestamp (value : Bytes) : Checked Bool := do
  return (← timestampParts value).isSome

/-- The order of strings. -/
def textLe (a b : Bytes) : Prop := a.map UInt8.toNat ≤ b.map UInt8.toNat

instance (a b : Bytes) : Decidable (textLe a b) := inferInstanceAs (Decidable (_ ≤ _))

def timestampAtOrAfter (later earlier : Bytes) : Checked Bool := do
  match ← timestampParts later, ← timestampParts earlier with
  | some later, some earlier =>
    return !decide (textLe later.1 earlier.1) ||
      (later.1 == earlier.1 && decide (textLe earlier.2 later.2))
  | _, _ => return false

/-! ## Pieces of ASCII text -/

theorem slice_ascii {value : Bytes} (h : isAscii value = true) {start stop : Nat}
    (hle : start ≤ stop)
    (hstop : stop ≤ value.length) :
    slice value start stop = .ok ((value.drop start).take (stop - start)) := by
  have hboundary : ∀ index ≤ value.length, isCharBoundary value index = true := by
    intro index hindex
    unfold isCharBoundary
    rcases hindex.eq_or_lt with rfl | hlt
    · simp
    · rw [List.getElem?_eq_getElem hlt]
      have hbyte := List.all_eq_true.mp h _ (List.getElem_mem hlt)
      simp [of_decide_eq_true hbyte]
  exact if_pos ⟨hle, hstop, hboundary start (hle.trans hstop), hboundary stop hstop⟩

/-- Few digits always parse. -/
theorem parseU32_digits {digits : Bytes} (h : digits.all isDigit = true) (hne : digits ≠ [])
    (hlength : digits.length ≤ 9) : parseU32 digits = some (decimal digits) := by
  have hplus : stripPlus digits = digits := by
    unfold stripPlus
    split
    · rename_i rest
      simp [isDigit] at h
    · rfl
  have hlt : decimal digits < 2 ^ 32 :=
    (decimal_lt h).trans_le ((Nat.pow_le_pow_right (by norm_num) hlength).trans (by norm_num))
  unfold parseU32
  dsimp only
  rw [hplus, h, if_neg (by simpa using hne), if_pos hlt]

theorem daysOf_eq (year month : Nat) :
    daysOf year month = if 1 ≤ month ∧ month ≤ 12 then some (monthLength year month) else none := by
  unfold daysOf monthLength Leap
  by_cases h : 1 ≤ month ∧ month ≤ 12
  · rw [if_pos h]
    obtain ⟨hl, hu⟩ := h
    rcases eq_or_ne month 2 with rfl | hne
    · by_cases hleap : year % 4 = 0 ∧ (year % 100 ≠ 0 ∨ year % 400 = 0)
      · simp [hleap]
      · simp [hleap]
    · interval_cases month <;> simp_all
  · rw [if_neg h, if_neg (by simp; omega), if_neg (by simp; omega), if_neg (by omega),
      if_neg (by omega)]

/-! ## Dates and clocks -/

/-- The digits of a date at their places. -/
structure DateText (value : Bytes) (year month day : Nat) : Prop where
  text : value.map UInt8.toNat = four year ++ (45 :: two month ++ 45 :: two day)
  year : year < 10000
  month : month < 100
  day : day < 100

theorem two_decimal {a b : UInt8} (ha : isDigit a = true) (hb : isDigit b = true) :
    two (decimal [a, b]) = [a.toNat, b.toNat] ∧ decimal [a, b] < 100 := by
  have ha' := isDigit_iff.mp ha
  have hb' := isDigit_iff.mp hb
  simp only [decimal, two, List.foldl_cons, List.foldl_nil, List.cons.injEq, and_true]
  omega

theorem four_decimal {a b c d : UInt8} (ha : isDigit a = true) (hb : isDigit b = true)
    (hc : isDigit c = true)
    (hd : isDigit d = true) : four (decimal [a, b, c, d]) = [a.toNat, b.toNat, c.toNat, d.toNat] ∧
      decimal [a, b, c, d] < 10000 := by
  have ha' := isDigit_iff.mp ha
  have hb' := isDigit_iff.mp hb
  have hc' := isDigit_iff.mp hc
  have hd' := isDigit_iff.mp hd
  simp only [decimal, four, List.foldl_cons, List.foldl_nil, List.cons.injEq, and_true]
  omega

theorem decimal_two {n : Nat} {a b : UInt8} (h : two n = [a.toNat, b.toNat]) (hn : n < 100) :
    (isDigit a = true ∧ isDigit b = true) ∧ decimal [a, b] = n := by
  simp only [two, List.cons.injEq, and_true] at h
  simp only [isDigit_iff, decimal, List.foldl_cons, List.foldl_nil]
  omega

theorem decimal_four {n : Nat} {a b c d : UInt8} (h : four n = [a.toNat, b.toNat, c.toNat, d.toNat])
    (hn : n < 10000) : ((isDigit a = true ∧ isDigit b = true) ∧ isDigit c = true ∧
      isDigit d = true) ∧
      decimal [a, b, c, d] = n := by
  simp only [four, List.cons.injEq, and_true] at h
  simp only [isDigit_iff, decimal, List.foldl_cons, List.foldl_nil]
  omega

/-- The separators and digits of ten bytes. -/
theorem dateText_iff {y0 y1 y2 y3 s m0 m1 s' d0 d1 : UInt8} {P : Nat → Nat → Nat → Prop} :
    (∃ year month day, DateText [y0, y1, y2, y3, s, m0, m1, s', d0, d1] year month day ∧
      P year month day) ↔
      ((s = 45 ∧ s' = 45) ∧ [y0, y1, y2, y3].all isDigit = true ∧ [m0, m1].all isDigit = true ∧
        [d0, d1].all isDigit = true) ∧
      P (decimal [y0, y1, y2, y3]) (decimal [m0, m1]) (decimal [d0, d1]) := by
  have hbyte : ∀ byte : UInt8, byte.toNat = 45 ↔ byte = 45 := fun byte =>
    (UInt8.toNat_inj (a := byte) (b := 45))
  constructor
  · rintro ⟨year, month, day, ⟨htext, hyear, hmonth, hday⟩, hP⟩
    have htext : [y0.toNat, y1.toNat, y2.toNat, y3.toNat] = four year ∧ s.toNat = 45 ∧
        [m0.toNat, m1.toNat] = two month ∧ s'.toNat = 45 ∧ [d0.toNat, d1.toNat] = two day := by
      simpa [four, two, and_assoc] using htext
    obtain ⟨hy, hs, hm, hs', hd⟩ := htext
    obtain ⟨⟨⟨h0, h1⟩, h2, h3⟩, rfl⟩ := decimal_four hy.symm hyear
    obtain ⟨⟨h4, h5⟩, rfl⟩ := decimal_two hm.symm hmonth
    obtain ⟨⟨h6, h7⟩, rfl⟩ := decimal_two hd.symm hday
    exact ⟨⟨⟨(hbyte s).mp hs, (hbyte s').mp hs'⟩, by simp [h0, h1, h2, h3], by simp [h4, h5], by
      simp [h6, h7]⟩, hP⟩
  · rintro ⟨⟨⟨rfl, rfl⟩, hy, hm, hd⟩, hP⟩
    simp only [List.all_cons, List.all_nil, Bool.and_true, Bool.and_eq_true] at hy hm hd
    have hyear := four_decimal hy.1 hy.2.1 hy.2.2.1 hy.2.2.2
    have hmonth := two_decimal hm.1 hm.2
    have hday := two_decimal hd.1 hd.2
    refine ⟨_, _, _, ⟨?_, hyear.2, hmonth.2, hday.2⟩, hP⟩
    rw [hyear.1, hmonth.1, hday.1]
    rfl

theorem ten_cells {value : Bytes} (h : value.length = 10) :
    ∃ y0 y1 y2 y3 s m0 m1 s' d0 d1, value = [y0, y1, y2, y3, s, m0, m1, s', d0, d1] := by
  refine ⟨value[0], value[1], value[2], value[3], value[4], value[5], value[6], value[7], value[8],
    value[9], ?_⟩
  refine List.ext_getElem (by simp [h]) fun i hi _ => ?_
  rw [h] at hi
  interval_cases i <;> rfl

theorem validDate_spec {value : Bytes} (hascii : isAscii value = true)
    (hlength : value.length = 10) :
    ∃ b, validDate value = .ok b ∧ (b = true ↔ ∃ year month day, DateText value year month day ∧
      (1 ≤ year ∧ (1 ≤ month ∧ month ≤ 12)) ∧ 1 ≤ day ∧ day ≤ monthLength year month) := by
  obtain ⟨y0, y1, y2, y3, s, m0, m1, s', d0, d1, rfl⟩ := ten_cells hlength
  rw [dateText_iff (P := fun year month day => (1 ≤ year ∧ (1 ≤ month ∧ month ≤ 12)) ∧
    1 ≤ day ∧ day ≤ monthLength year month)]
  have hyear : slice [y0, y1, y2, y3, s, m0, m1, s', d0, d1] 0 4 = .ok [y0, y1, y2, y3] :=
    slice_ascii hascii (by simp) (by simp)
  have hmonth : slice [y0, y1, y2, y3, s, m0, m1, s', d0, d1] 5 7 = .ok [m0, m1] :=
    slice_ascii hascii (by simp) (by simp)
  have hday : slice [y0, y1, y2, y3, s, m0, m1, s', d0, d1] 8 10 = .ok [d0, d1] :=
    slice_ascii hascii (by simp) (by simp)
  have hdigits : ([y0, y1, y2, y3, s, m0, m1, s', d0, d1].zipIdx.all fun cell =>
      cell.2 == 4 || cell.2 == 7 || isDigit cell.1) =
      ([y0, y1, y2, y3].all isDigit && ([m0, m1].all isDigit && [d0, d1].all isDigit)) := by
    simp [List.zipIdx_cons]
    ac_rfl
  unfold validDate
  rw [hlength, if_neg (by decide)]
  simp only [show Machine.read [y0, y1, y2, y3, s, m0, m1, s', d0, d1] 4 = .ok s from rfl,
    show Machine.read [y0, y1, y2, y3, s, m0, m1, s', d0, d1] 7 = .ok s' from rfl, ok_bind, hyear,
    hmonth, hday, hdigits]
  by_cases hs : s = 45
  swap
  · exact ⟨false, by simp [hs]; rfl, by simp [hs]⟩
  by_cases hs' : s' = 45
  swap
  · exact ⟨false, by simp [hs, hs']; rfl, by simp [hs']⟩
  by_cases hall : [y0, y1, y2, y3].all isDigit = true ∧ [m0, m1].all isDigit = true ∧
    [d0, d1].all isDigit = true
  swap
  · refine ⟨false, ?_, by simp only [Bool.false_eq_true, false_iff]; tauto⟩
    have hfalse : ([y0, y1, y2, y3].all isDigit && ([m0, m1].all isDigit && [d0, d1].all isDigit)) =
        false := by
      rw [← Bool.not_eq_true, Bool.and_eq_true, Bool.and_eq_true]
      exact hall
    rw [hfalse, hs, hs']
    rfl
  obtain ⟨hy, hm, hd⟩ := hall
  rw [hs, hs', hy, hm, hd]
  have hexpect : ∀ {digits : Bytes}, digits.all isDigit = true → digits ≠ [] → digits.length ≤ 9 →
      expectNumber digits = .ok (decimal digits) := by
    intro digits h hne hle
    unfold expectNumber
    rw [parseU32_digits h hne hle]
  rw [hexpect hy (by simp) (by simp), hexpect hm (by simp) (by simp),
    hexpect hd (by simp) (by simp)]
  simp only [ok_bind, daysOf_eq]
  by_cases hrange : 1 ≤ decimal [m0, m1] ∧ decimal [m0, m1] ≤ 12
  · rw [if_pos hrange]
    refine ⟨_, rfl, ?_⟩
    simp only [Bool.and_eq_true, bne_iff_ne, decide_eq_true_eq, and_self, true_and,
      hrange, and_true]
    exact and_congr_left' Nat.one_le_iff_ne_zero.symm
  · rw [if_neg hrange]
    exact ⟨false, rfl, by simp only [Bool.false_eq_true, false_iff]; tauto⟩

/-- One field of the clock. -/
theorem validClock_cons {value : Bytes} (hascii : isAscii value = true) {start limit : Nat}
    {a b : UInt8}
    (rest : List (Nat × Nat)) (hle : start + 2 ≤ value.length)
    (hpair : (value.drop start).take 2 = [a, b]) :
    validClock value ((start, limit) :: rest) =
      if [a, b].all isDigit = true ∧ decimal [a, b] < limit then validClock value rest else
        .ok false := by
  have hbytes : sliceBytes value start (start + 2) = .ok [a, b] := by
    rw [sliceBytes, if_pos ⟨by omega, hle⟩, Nat.add_sub_cancel_left, hpair]
  have htext : slice value start (start + 2) = .ok [a, b] := by
    rw [slice_ascii hascii (by omega) hle, Nat.add_sub_cancel_left, hpair]
  rw [validClock]
  simp only [hbytes, htext, ok_bind]
  by_cases hdigits : [a, b].all isDigit = true
  · rw [hdigits, parseU32_digits hdigits (by simp) (by simp)]
    by_cases hlt : decimal [a, b] < limit
    · simp [hlt]
    · simp [hlt, not_lt.mp hlt]
      rfl
  · rw [Bool.not_eq_true] at hdigits
    simp [hdigits]
    rfl

/-! ## Fractions -/

/-- A fraction in ASCII, with its point. -/
def fractionText (f : List Nat) : List Nat := if f = [] then [] else 46 :: f.map (48 + ·)

theorem rdropWhile_digits {digits : Bytes} (h : digits.all isDigit = true) :
    (digits.rdropWhile (· == 48)).map UInt8.toNat =
      ((digits.map digitValue).rdropWhile (· == 0)).map (48 + ·) := by
  induction digits using List.reverseRecOn with
  | nil => rfl
  | append_singleton digits byte ih =>
    rw [List.all_append, Bool.and_eq_true] at h
    have hbyte := digitValue_lt (by simpa using h.2)
    rw [List.map_append, List.map_singleton]
    by_cases hzero : byte = 48
    · subst hzero
      rw [List.rdropWhile_concat_pos _ _ _ (by simp), List.rdropWhile_concat_pos _ _ _ (by decide),
        ih h.1]
    · have hvalue : digitValue byte ≠ 0 := by
        intro hdigit
        exact hzero (UInt8.toNat_inj.mp (by rw [← hbyte.2, hdigit]; rfl))
      rw [List.rdropWhile_concat_neg _ _ _ (by simpa using hzero),
        List.rdropWhile_concat_neg _ _ _ (by simpa using hvalue),
        List.map_append, List.map_append, List.map_map, List.map_singleton,
        List.map_singleton, hbyte.2]
      congr 1
      refine List.map_congr_left fun x hx => ?_
      exact (digitValue_lt (List.all_eq_true.mp h.1 x hx)).2.symm

/-- Bytes that spell a fraction. -/
theorem digits_of_text {digits : Bytes} {f : List Nat} (hf : Digits f)
    (h : digits.map UInt8.toNat = f.map (48 + ·)) :
    digits.all isDigit = true ∧ digits.map digitValue = f := by
  constructor
  · rw [List.all_eq_true]
    intro byte hbyte
    obtain ⟨d, hd, heq⟩ := List.mem_map.mp (h ▸ List.mem_map_of_mem (f := UInt8.toNat) hbyte)
    have := hf d hd
    rw [isDigit_iff]
    omega
  · have hmap : digits.map digitValue = (digits.map UInt8.toNat).map (· - 48) := by
      rw [List.map_map]
      rfl
    rw [hmap, h, List.map_map]
    exact (List.map_congr_left fun d _ => Nat.add_sub_cancel_left 48 d).trans (List.map_id _)

theorem fractionOf_spec (suffix : Bytes) (fraction : Bytes) :
    fractionOf suffix = some fraction ↔ ∃ f, (Digits f ∧ suffix.map UInt8.toNat = fractionText f) ∧
      fraction.map UInt8.toNat = (f.rdropWhile (· == 0)).map (48 + ·) := by
  unfold fractionOf fractionText
  split
  · constructor
    · intro h
      cases h
      exact ⟨[], ⟨by simp [Digits], rfl⟩, rfl⟩
    · rintro ⟨f, ⟨-, htext⟩, hfraction⟩
      have hf : f = [] := by
        by_contra hne
        rw [if_neg hne] at htext
        cases htext
      subst hf
      rw [List.map_eq_nil_iff.mp hfraction]
  · rename_i digits
    constructor
    · intro h
      split at h
      · cases h
      · rename_i hguard
        cases h
        rw [Bool.or_eq_true, not_or] at hguard
        have hdigits : digits.all isDigit = true := by simpa using hguard.2
        have hne : digits.map digitValue ≠ [] := by simpa using hguard.1
        refine ⟨digits.map digitValue, ⟨?_, ?_⟩, rdropWhile_digits hdigits⟩
        · intro d hd
          obtain ⟨byte, hbyte, rfl⟩ := List.mem_map.mp hd
          exact (digitValue_lt (List.all_eq_true.mp hdigits byte hbyte)).1
        · rw [if_neg hne, List.map_cons, List.map_map]
          refine congrArg (46 :: ·) (List.map_congr_left fun byte hbyte => ?_)
          exact (digitValue_lt (List.all_eq_true.mp hdigits byte hbyte)).2.symm
    · rintro ⟨f, ⟨hf, htext⟩, hfraction⟩
      have hne : f ≠ [] := by
        rintro rfl
        cases htext
      rw [if_neg hne, List.map_cons, List.cons.injEq] at htext
      obtain ⟨hdigits, rfl⟩ := digits_of_text hf htext.2
      rw [if_neg (by simpa [hdigits] using hne)]
      refine congrArg some (List.map_injective_iff.mpr toNat_injective ?_)
      rw [hfraction, rdropWhile_digits hdigits]
  · rename_i hnil hpoint
    constructor
    · intro h
      cases h
    · rintro ⟨f, ⟨-, htext⟩, -⟩
      by_cases hf : f = []
      · rw [if_pos hf] at htext
        exact absurd (List.map_eq_nil_iff.mp htext) hnil
      · rw [if_neg hf] at htext
        obtain ⟨byte, digits, rfl⟩ := List.exists_cons_of_ne_nil hnil
        rw [List.map_cons, List.cons.injEq] at htext
        exact absurd (congrArg (· :: digits) (@toNat_injective byte 46 htext.1)) (hpoint digits)

/-! ## Whole timestamps -/

/-- A timestamp of a real date and time, and the texts its comparison uses. -/
structure Spells (value : Bytes) (c : Civil) (f : List Nat) : Prop where
  valid : c.Valid
  year : c.year < 10000
  digits : Digits f
  text : value.map UInt8.toNat = render c f

/-- What `timestamp_parts` returns for it. -/
structure Parts (p : Bytes × Bytes) (c : Civil) (f : List Nat) : Prop where
  stamp : p.1.map UInt8.toNat = stamp c
  fraction : p.2.map UInt8.toNat = (f.rdropWhile (· == 0)).map (48 + ·)

theorem nineteen_cells {value : Bytes} (h : 20 ≤ value.length) (hlast : value.getLast? = some 90) :
    ∃ y0 y1 y2 y3 s m0 m1 s' d0 d1 t h0 h1 c i0 i1 c' e0 e1 suffix,
      value = [y0, y1, y2, y3, s, m0, m1, s', d0, d1, t, h0, h1, c, i0, i1, c', e0, e1] ++
        (suffix ++ [90]) := by
  obtain ⟨front, rfl⟩ : ∃ front, value = front ++ [90] := List.getLast?_eq_some_iff.mp hlast
  rw [List.length_append, List.length_singleton] at h
  refine ⟨front[0], front[1], front[2], front[3], front[4], front[5], front[6], front[7],
    front[8], front[9],
    front[10], front[11], front[12], front[13], front[14], front[15], front[16],
    front[17], front[18], front.drop 19, ?_⟩
  rw [← List.append_assoc]
  congr 1
  refine List.ext_getElem (by simp; omega) fun i hi _ => ?_
  by_cases hlt : i < 19
  · interval_cases i <;> rfl
  · rw [List.getElem_append_right (by simpa using hlt), List.getElem_drop]
    congr 1
    simp
    omega

/-- Rendered text is ASCII, long enough and ends in `Z`. -/
theorem Spells.guard {value : Bytes} {c : Civil} {f : List Nat} (h : Spells value c f) :
    (isAscii value = true ∧ 20 ≤ value.length) ∧ value.getLast? = some 90 := by
  have hlength : value.length = (render c f).length := by rw [← h.text, List.length_map]
  have hsmall : ∀ n ∈ render c f, n < 128 := by
    have hwidths : c.month ≤ 12 ∧ c.day ≤ 31 := by
      have hmonth := h.valid.month
      have hday := h.valid.day
      have hle : monthLength c.year c.month ≤ 31 := by
        unfold monthLength
        split_ifs <;> omega
      omega
    have hyear := h.year
    have hclock := h.valid.clock
    intro n hn
    simp only [render, List.mem_append, List.mem_singleton] at hn
    rcases hn with (hn | hn) | rfl
    · simp only [stamp, four, two, List.cons_append, List.nil_append, List.mem_cons,
        List.not_mem_nil, or_false] at hn
      omega
    · split at hn
      · cases hn
      · rcases List.mem_cons.mp hn with rfl | hn
        · decide
        · obtain ⟨d, hd, rfl⟩ := List.mem_map.mp hn
          have := h.digits d hd
          omega
    · decide
  refine ⟨⟨?_, ?_⟩, ?_⟩
  · unfold isAscii
    rw [List.all_eq_true]
    intro byte hbyte
    have hlt := hsmall _ (h.text ▸ List.mem_map_of_mem (f := UInt8.toNat) hbyte)
    exact decide_eq_true (UInt8.lt_iff_toNat_lt.mpr hlt)
  · rw [hlength]
    simp [render, stamp, four, two]
  · have hlast := congrArg List.getLast? h.text
    rw [List.getLast?_map, render, List.getLast?_concat] at hlast
    obtain ⟨byte, hbyte, heq⟩ := Option.map_eq_some_iff.mp hlast
    rw [hbyte, @toNat_injective byte 90 heq]

/-- A field of the clock as text and as a number. -/
theorem clock_field {a b : UInt8} {limit : Nat} (hlimit : limit ≤ 100) {n : Nat} :
    (two n = [a.toNat, b.toNat] ∧ n < limit) ↔
      n = decimal [a, b] ∧ [a, b].all isDigit = true ∧ decimal [a, b] < limit := by
  constructor
  · rintro ⟨htext, hn⟩
    obtain ⟨⟨ha, hb⟩, rfl⟩ := decimal_two htext (hn.trans_le hlimit)
    exact ⟨rfl, by simp [ha, hb], hn⟩
  · rintro ⟨rfl, hdigits, hlt⟩
    simp only [List.all_cons, List.all_nil, Bool.and_true, Bool.and_eq_true] at hdigits
    exact ⟨(two_decimal hdigits.1 hdigits.2).1, hlt⟩

theorem timestampParts_spec (value : Bytes) :
    ∃ r, timestampParts value = .ok r ∧ ∀ p, r = some p ↔ ∃ c f, Spells value c f ∧
    Parts p c f := by
  by_cases hguard : (isAscii value = true ∧ 20 ≤ value.length) ∧ value.getLast? = some 90
  swap
  · refine ⟨none, ?_, fun p => ⟨fun h => (by cases h), ?_⟩⟩
    swap
    · rintro ⟨c, f, hspells, -⟩
      exact absurd hspells.guard hguard
    unfold timestampParts
    rw [if_pos]
    · rfl
    · simp only [Bool.or_eq_true, Bool.not_eq_true', decide_eq_true_eq, bne_iff_ne]
      by_contra hnot
      rw [not_or, not_or, Bool.not_eq_false, not_lt, not_not] at hnot
      exact hguard hnot
  obtain ⟨⟨hascii, hlength⟩, hlast⟩ := hguard
  have hcond : (!isAscii value || decide (value.length < 20) || value.getLast? != some 90) =
      false := by
    rw [hascii, hlast]
    simpa using hlength
  obtain ⟨y0, y1, y2, y3, s, m0, m1, s', d0, d1, t, h0, h1, q, i0, i1, q', e0, e1,
      suffix, hvalue⟩ :=
    nineteen_cells hlength hlast
  -- the pieces that the parser cuts out
  have hdate : slice value 0 10 = .ok [y0, y1, y2, y3, s, m0, m1, s', d0, d1] := by
    rw [slice_ascii hascii (by omega) (by omega), hvalue]
    rfl
  have hhead : slice value 0 19 = .ok [y0, y1, y2, y3, s, m0, m1, s', d0, d1, t, h0, h1, q, i0, i1,
      q', e0, e1] := by
    rw [slice_ascii hascii (by omega) (by omega), hvalue]
    rfl
  have hsize : value.length = 20 + suffix.length := by
    rw [hvalue]
    simp
    omega
  have hsuffix : slice value 19 (value.length - 1) = .ok suffix := by
    rw [slice_ascii hascii (by omega) (by omega), hsize, hvalue,
      show 20 + suffix.length - 1 - 19 = suffix.length by omega]
    exact congrArg Except.ok (List.take_left' rfl)
  obtain ⟨date, hdateOk, hdateIff⟩ := @validDate_spec [y0, y1, y2, y3, s, m0, m1, s', d0, d1] (by
    unfold isAscii at hascii ⊢
    rw [hvalue, List.all_append, Bool.and_eq_true] at hascii
    exact List.all_eq_true.mpr fun byte hbyte => List.all_eq_true.mp hascii.1 byte (by
      simp only [List.mem_cons, List.not_mem_nil, or_false] at hbyte ⊢
      tauto)) rfl
  have hclock : validClock value [(11, 24), (14, 60), (17, 60)] =
      .ok (decide (([h0, h1].all isDigit = true ∧ decimal [h0, h1] < 24) ∧
        ([i0, i1].all isDigit = true ∧ decimal [i0, i1] < 60) ∧ [e0, e1].all isDigit = true ∧
        decimal [e0, e1] < 60)) := by
    rw [validClock_cons hascii (a := h0) (b := h1) _ (by omega) (by rw [hvalue]; rfl),
      validClock_cons hascii (a := i0) (b := i1) _ (by omega) (by rw [hvalue]; rfl),
      validClock_cons hascii (a := e0) (b := e1) _ (by omega) (by rw [hvalue]; rfl), validClock]
    split_ifs <;> simp_all
  have hparts : timestampParts value = .ok (if (date = true ∧ t = 84) ∧ (q = 58 ∧ q' = 58) ∧
      (([h0, h1].all isDigit = true ∧ decimal [h0, h1] < 24) ∧
        ([i0, i1].all isDigit = true ∧ decimal [i0, i1] < 60) ∧ [e0, e1].all isDigit = true ∧
        decimal [e0, e1] < 60)
      then (fractionOf suffix).map fun g =>
        ([y0, y1, y2, y3, s, m0, m1, s', d0, d1, t, h0, h1, q, i0, i1, q', e0, e1], g) else
          none) := by
    unfold timestampParts
    rw [hcond]
    simp only [Bool.false_eq_true, if_false, hdate, hdateOk, ok_bind, hclock, hhead,
      show Machine.read value 10 = .ok t by rw [hvalue]; rfl, show Machine.read value 13 = .ok q by
        rw [hvalue]; rfl,
      show Machine.read value 16 = .ok q' by rw [hvalue]; rfl,
      subtract_ok (show 1 ≤ value.length by omega), hsuffix]
    cases date with
    | false => simp; rfl
    | true =>
      by_cases ht : t = 84
      swap
      · simp [ht]; rfl
      by_cases hq : q = 58
      swap
      · simp [ht, hq]; rfl
      by_cases hq' : q' = 58
      swap
      · simp [ht, hq, hq']; rfl
      simp only [ht, hq, hq', bne_self_eq_false, Bool.not_true, Bool.false_eq_true, if_false,
        true_and, and_self]
      split
      · rename_i hfields
        simp only [Bool.not_eq_true', decide_eq_false_iff_not] at hfields
        rw [if_neg hfields]
        rfl
      · rename_i hfields
        simp only [Bool.not_eq_true', decide_eq_false_iff_not, not_not] at hfields
        rw [if_pos hfields]
        cases fractionOf suffix <;> rfl
  refine ⟨_, hparts, fun p => ?_⟩
  -- rendered text splits into the stamp and the fraction
  have hsplit : ∀ c f, value.map UInt8.toNat = render c f ↔
      ([y0, y1, y2, y3, s, m0, m1, s', d0, d1, t, h0, h1, q, i0, i1, q', e0, e1].map UInt8.toNat =
        stamp c ∧
        suffix.map UInt8.toNat = fractionText f) := by
    intro c f
    rw [hvalue, List.map_append, List.map_append, render, List.append_assoc]
    constructor
    · intro h
      obtain ⟨hstamp, hrest⟩ := List.append_inj h rfl
      exact ⟨hstamp, List.append_cancel_right hrest⟩
    · rintro ⟨hstamp, hrest⟩
      rw [hstamp, hrest]
      rfl
  have hstamp : ∀ c : Civil,
      [y0, y1, y2, y3, s, m0, m1, s', d0, d1, t, h0, h1, q, i0, i1, q', e0, e1].map UInt8.toNat =
        stamp c ↔
        ([y0, y1, y2, y3, s, m0, m1, s', d0, d1].map UInt8.toNat =
            four c.year ++ (45 :: two c.month ++ 45 :: two c.day) ∧ t.toNat = 84) ∧
          (q.toNat = 58 ∧ q'.toNat = 58) ∧ [h0.toNat, h1.toNat] = two c.hour ∧
            [i0.toNat, i1.toNat] = two c.minute ∧ [e0.toNat, e1.toNat] = two c.second := by
    intro c
    simp only [stamp, four, two, List.map_cons, List.map_nil, List.cons_append, List.nil_append,
      List.cons.injEq, and_true]
    tauto
  have hbyte : ∀ byte n : UInt8, byte.toNat = n.toNat ↔ byte = n := fun byte n => UInt8.toNat_inj
  constructor
  · intro h
    split at h
    · rename_i hall
      obtain ⟨⟨hdate, ht⟩, ⟨hq, hq'⟩, hhour, hminute, hsecond⟩ := hall
      obtain ⟨g, hg, rfl⟩ := Option.map_eq_some_iff.mp h
      obtain ⟨f, ⟨hf, hftext⟩, hfraction⟩ := (fractionOf_spec suffix g).mp hg
      obtain ⟨year, month, day, hdateText, ⟨hyear, hmonth⟩, hday⟩ := hdateIff.mp hdate
      obtain ⟨hhourText, hhour⟩ := (clock_field (by norm_num)).mpr ⟨rfl, hhour⟩
      obtain ⟨hminuteText, hminute⟩ := (clock_field (by norm_num)).mpr ⟨rfl, hminute⟩
      obtain ⟨hsecondText, hsecond⟩ := (clock_field (by norm_num)).mpr ⟨rfl, hsecond⟩
      have hwhole := (hstamp ⟨year, month, day, decimal [h0, h1], decimal [i0, i1],
        decimal [e0, e1]⟩).mpr
        ⟨⟨hdateText.text, (hbyte t 84).mpr ht⟩, ⟨(hbyte q 58).mpr hq, (hbyte q' 58).mpr hq'⟩,
          hhourText.symm, hminuteText.symm, hsecondText.symm⟩
      exact ⟨_, f, ⟨⟨hyear, hmonth, hday, hhour, hminute, hsecond⟩, hdateText.year, hf,
        (hsplit _ f).mpr ⟨hwhole, hftext⟩⟩, hwhole, hfraction⟩
    · cases h
  · rintro ⟨c, f, ⟨hvalid, hyear, hf, htext⟩, hpstamp, hpfraction⟩
    obtain ⟨hwhole, hftext⟩ := (hsplit c f).mp htext
    obtain ⟨⟨hdateText, ht⟩, ⟨hq, hq'⟩, hhour, hminute, hsecond⟩ := (hstamp c).mp hwhole
    have hwidths : c.month < 100 ∧ c.day < 100 := by
      have hmonth := hvalid.month
      have hday := hvalid.day
      have hle : monthLength c.year c.month ≤ 31 := by
        unfold monthLength
        split_ifs <;> omega
      omega
    have hg := (fractionOf_spec suffix p.2).mpr ⟨f, ⟨hf, hftext⟩, hpfraction⟩
    rw [if_pos, hg, Option.map_some]
    · refine congrArg some (Prod.ext ?_ rfl)
      exact List.map_injective_iff.mpr toNat_injective (hwhole.trans hpstamp.symm)
    · refine ⟨⟨hdateIff.mpr ⟨c.year, c.month, c.day, ⟨hdateText, hyear, hwidths.1, hwidths.2⟩,
        ⟨hvalid.year, hvalid.month⟩, hvalid.day⟩, (hbyte t 84).mp ht⟩,
        ⟨(hbyte q 58).mp hq, (hbyte q' 58).mp hq'⟩,
        ((clock_field (by norm_num)).mp ⟨hhour.symm, hvalid.clock.1⟩).2,
        ((clock_field (by norm_num)).mp ⟨hminute.symm, hvalid.clock.2.1⟩).2,
        ((clock_field (by norm_num)).mp ⟨hsecond.symm, hvalid.clock.2.2⟩).2⟩

/-! ## Comparison -/

/-- The instant a timestamp denotes. -/
def Denotes (value : Bytes) (r : ℚ) : Prop := ∃ c f, Spells value c f ∧ r = instant c f

theorem trim_digits {f : List Nat} (h : Digits f) : Digits (f.rdropWhile (· == 0)) :=
  fun d hd => h d ((List.rdropWhile_prefix _ _).subset hd)

/-- The parts of two timestamps compare as their instants. -/
theorem parts_order {p p' : Bytes × Bytes} {v v' : Bytes} {c c' : Civil} {f f' : List Nat}
    (hs : Spells v c f) (hs' : Spells v' c' f') (hp : Parts p c f) (hp' : Parts p' c' f') :
    (!decide (textLe p.1 p'.1) || (p.1 == p'.1 && decide (textLe p'.2 p.2))) = true ↔
      instant c' f' ≤ instant c f := by
  have htrim : ∀ (c : Civil) (f : List Nat), instant c f = instant c (f.rdropWhile (· == 0)) := by
    intro c f
    unfold instant
    rw [fractionValue_trim]
  have hshift : ∀ f g : List Nat, f.map (48 + ·) ≤ g.map (48 + ·) ↔ f ≤ g := by
    have hlt : ∀ f g : List Nat, f < g → f.map (48 + ·) < g.map (48 + ·) := by
      intro f
      induction f with
      | nil =>
        intro g h
        cases g with
        | nil => exact absurd h (lt_irrefl _)
        | cons e g => exact List.nil_lt_cons _ _
      | cons d f ih =>
        intro g h
        cases g with
        | nil => exact absurd h (List.not_lt_nil _)
        | cons e g =>
          rw [List.map_cons, List.map_cons, List.cons_lt_cons_iff]
          exact (List.cons_lt_cons_iff.mp h).imp (fun h => by omega) fun h =>
            ⟨by rw [h.1], ih g h.2⟩
    intro f g
    constructor
    · intro h
      by_contra hnot
      exact absurd (hlt g f (not_le.mp hnot)) (not_lt.mpr h)
    · intro h
      rcases h.eq_or_lt with rfl | h
      · exact le_rfl
      · exact (hlt f g h).le
  rw [htrim c f, htrim c' f', instant_le_iff hs'.valid hs.valid (trim_digits hs'.digits)
    (trim_digits hs.digits)
    (rdropWhile_zeros f').2 (rdropWhile_zeros f).2]
  rw [Bool.or_eq_true, Bool.and_eq_true, Bool.not_eq_true', decide_eq_false_iff_not, beq_iff_eq,
    decide_eq_true_eq]
  unfold textLe
  rw [hp.stamp, hp'.stamp, hp.fraction, hp'.fraction, hshift, not_le]
  have hsame : p.1 = p'.1 ↔ stamp c' = stamp c := by
    rw [← hp.stamp, ← hp'.stamp]
    exact ⟨fun h => by rw [h], fun h => List.map_injective_iff.mpr toNat_injective h.symm⟩
  rw [hsame]

/-- A timestamp is rendered from one date, time and fraction. -/
theorem Spells.unique {v : Bytes} {c c' : Civil} {f f' : List Nat} (h : Spells v c f)
    (h' : Spells v c' f') :
    c = c' ∧ f = f' := by
  have htext := h.text.symm.trans h'.text
  rw [render, render, List.append_assoc, List.append_assoc] at htext
  obtain ⟨hstamp, hrest⟩ := List.append_inj htext rfl
  have hfraction := List.append_cancel_right hrest
  refine ⟨?_, ?_⟩
  · refine Civil.key_injective ?_
    rcases lt_trichotomy c.key c'.key with hlt | heq | hlt
    · exact absurd (stamp_lt hlt) (hstamp ▸ lt_irrefl _)
    · exact heq
    · exact absurd (stamp_lt hlt) (hstamp ▸ lt_irrefl _)
  · by_cases hf : f = [] <;> by_cases hf' : f' = []
    · rw [hf, hf']
    · rw [if_pos hf, if_neg hf'] at hfraction
      cases hfraction
    · rw [if_neg hf, if_pos hf'] at hfraction
      cases hfraction
    · rw [if_neg hf, if_neg hf', List.cons.injEq] at hfraction
      exact List.map_injective_iff.mpr (fun _ _ h => Nat.add_left_cancel h) hfraction.2

theorem Spells.parts {v : Bytes} {c : Civil} {f : List Nat} (h : Spells v c f) :
    ∃ p, Parts p c f := by
  refine ⟨(v.take 19, (f.rdropWhile (· == 0)).map fun d => UInt8.ofNat (48 + d)), ?_, ?_⟩
  · rw [List.map_take, h.text, render, List.append_assoc]
    exact List.take_left' rfl
  · rw [List.map_map]
    refine List.map_congr_left fun d hd => ?_
    have hd := trim_digits h.digits d hd
    exact UInt8.toNat_ofNat_of_lt' (by change _ < 256; omega)

/-- The result of the parser on a timestamp and on anything else. -/
theorem timestampParts_denotes (value : Bytes) :
    ∃ r, timestampParts value = .ok r ∧ (r.isSome = true ↔ ∃ s, Denotes value s) ∧
      ∀ p, r = some p → ∃ c f, Spells value c f ∧ Parts p c f := by
  obtain ⟨r, hr, hparts⟩ := timestampParts_spec value
  refine ⟨r, hr, ?_, fun p hp => (hparts p).mp hp⟩
  rw [Option.isSome_iff_exists]
  constructor
  · rintro ⟨p, hp⟩
    obtain ⟨c, f, hspells, -⟩ := (hparts p).mp hp
    exact ⟨_, c, f, hspells, rfl⟩
  · rintro ⟨_, c, f, hspells, -⟩
    obtain ⟨p, hp⟩ := hspells.parts
    exact ⟨p, (hparts p).mpr ⟨c, f, hspells, hp⟩⟩

/-- No input reaches a fault, the real dates and times are accepted, and of two
timestamps the first is at or after the second exactly when its instant is. -/
theorem timestamps_exact :
    (∀ value, ∃ b, validTimestamp value = .ok b ∧ (b = true ↔ ∃ r, Denotes value r)) ∧
      (∀ value r r', Denotes value r → Denotes value r' → r = r') ∧
      ∀ later earlier, ∃ b, timestampAtOrAfter later earlier = .ok b ∧
        (b = true ↔ ∃ r r', (Denotes later r ∧ Denotes earlier r') ∧ r' ≤ r) := by
  refine ⟨fun value => ?_, ?_, fun later earlier => ?_⟩
  · obtain ⟨r, hr, hsome, -⟩ := timestampParts_denotes value
    refine ⟨r.isSome, ?_, hsome⟩
    unfold validTimestamp
    rw [hr]
    rfl
  · rintro value _ _ ⟨c, f, h, rfl⟩ ⟨c', f', h', rfl⟩
    obtain ⟨rfl, rfl⟩ := h.unique h'
    rfl
  · obtain ⟨r, hr, hsome, hparts⟩ := timestampParts_denotes later
    obtain ⟨r', hr', hsome', hparts'⟩ := timestampParts_denotes earlier
    unfold timestampAtOrAfter
    rw [hr, hr', ok_bind, ok_bind]
    cases r with
    | none =>
      refine ⟨false, rfl, ⟨fun h => (by cases h), ?_⟩⟩
      rintro ⟨s, s', ⟨hs, -⟩, -⟩
      exact hsome.mpr ⟨s, hs⟩
    | some p =>
      cases r' with
      | none =>
        refine ⟨false, rfl, ⟨fun h => (by cases h), ?_⟩⟩
        rintro ⟨s, s', ⟨-, hs'⟩, -⟩
        exact hsome'.mpr ⟨s', hs'⟩
      | some p' =>
        obtain ⟨c, f, hspells, hp⟩ := hparts p rfl
        obtain ⟨c', f', hspells', hp'⟩ := hparts' p' rfl
        refine ⟨_, rfl, (parts_order hspells hspells' hp hp').trans ⟨fun hle => ?_, ?_⟩⟩
        · exact ⟨_, _, ⟨⟨c, f, hspells, rfl⟩, ⟨c', f', hspells', rfl⟩⟩, hle⟩
        · rintro ⟨_, _, ⟨⟨d, g, hd, rfl⟩, ⟨d', g', hd', rfl⟩⟩, hle⟩
          obtain ⟨rfl, rfl⟩ := hspells.unique hd
          obtain ⟨rfl, rfl⟩ := hspells'.unique hd'
          exact hle

/-- A longer fraction of the same second is later, and final zeros do not count. -/
example : timestampAtOrAfter "2024-02-29T23:59:59.25Z".toUTF8.data.toList
      "2024-02-29T23:59:59.1Z".toUTF8.data.toList = .ok true ∧
    timestampAtOrAfter "2024-02-29T23:59:59.5Z".toUTF8.data.toList
      "2024-02-29T23:59:59.500Z".toUTF8.data.toList = .ok true ∧
    validTimestamp "2023-02-29T00:00:00Z".toUTF8.data.toList = .ok false := by decide +kernel

end Xcelerator.Core.Timestamp
