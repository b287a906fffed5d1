import Mathlib

/-! # Decimal numbers in ASCII

Bytes, decimal digits, and the numbers they spell. Without a leading zero the
text of a number is unique, and such texts compare by length and then digit by
digit as the numbers do, of any length. -/

namespace Xcelerator.Foundations.AsciiDecimal

abbrev Bytes := List UInt8

def isDigit (byte : UInt8) : Bool := 48 ≤ byte && byte ≤ 57

def digitValue (byte : UInt8) : Nat := byte.toNat - 48

theorem isDigit_iff {byte : UInt8} : isDigit byte = true ↔ 48 ≤ byte.toNat ∧ byte.toNat ≤ 57 := by
  simp [isDigit, UInt8.le_iff_toNat_le]

theorem digitValue_lt {byte : UInt8} (h : isDigit byte = true) :
    digitValue byte < 10 ∧ 48 + digitValue byte = byte.toNat := by
  have := isDigit_iff.mp h
  unfold digitValue
  omega

theorem toNat_injective : Function.Injective UInt8.toNat := fun _ _ h => UInt8.toNat_inj.mp h

/-- The number that decimal digits spell. -/
def decimal (digits : Bytes) : Nat :=
  digits.foldl (fun number byte => number * 10 + (byte.toNat - 48)) 0

theorem decimal_lt {digits : Bytes} (h : digits.all isDigit = true) :
    decimal digits < 10 ^ digits.length := by
  unfold decimal
  induction digits using List.reverseRecOn with
  | nil => simp
  | append_singleton digits byte ih =>
    rw [List.all_append, Bool.and_eq_true] at h
    have hbyte := digitValue_lt (by simpa using h.2)
    have hrest := ih h.1
    rw [List.foldl_append, List.foldl_cons, List.foldl_nil, List.length_append,
      List.length_singleton, pow_succ]
    change _ * 10 + digitValue byte < _
    omega

/-- A nonempty run of digits without a leading zero, zero itself apart. -/
structure Numeric (text : Bytes) : Prop where
  nonempty : text ≠ []
  digits : text.all isDigit = true
  leading : 1 < text.length → text.head? ≠ some 48

/-- The `Display` text of an unsigned integer. -/
def renderNat (n : Nat) : Bytes :=
  if n = 0 then [48] else ((Nat.digits 10 n).reverse.map fun d => UInt8.ofNat (48 + d))

theorem decimal_eq (digits : Bytes) :
    decimal digits = Nat.ofDigits 10 (digits.map digitValue).reverse := by
  unfold decimal
  induction digits using List.reverseRecOn with
  | nil => rfl
  | append_singleton digits byte ih =>
    rw [List.foldl_append, ih, List.foldl_cons, List.foldl_nil, List.map_append, List.map_singleton,
      List.reverse_append, List.reverse_singleton, List.singleton_append, Nat.ofDigits_cons]
    unfold digitValue
    ring

/-- The text of a number below ten per digit. -/
theorem spelled (digits : List Nat) (h : ∀ d ∈ digits, d < 10) :
    (digits.map fun d => UInt8.ofNat (48 + d)).all isDigit = true ∧
      (digits.map fun d => UInt8.ofNat (48 + d)).map digitValue = digits := by
  have hbyte : ∀ d < 10, (UInt8.ofNat (48 + d)).toNat = 48 + d :=
    fun d hd => UInt8.toNat_ofNat_of_lt' (by change _ < 256; omega)
  constructor
  · rw [List.all_eq_true]
    intro byte hmem
    obtain ⟨d, hd, rfl⟩ := List.mem_map.mp hmem
    rw [isDigit_iff, hbyte d (h d hd)]
    have := h d hd
    omega
  · rw [List.map_map]
    refine (List.map_congr_left fun d hd => ?_).trans (List.map_id _)
    change (UInt8.ofNat (48 + d)).toNat - 48 = d
    rw [hbyte d (h d hd)]
    omega

theorem numeric_renderNat (n : Nat) : Numeric (renderNat n) ∧ decimal (renderNat n) = n := by
  unfold renderNat
  split
  · rename_i hzero
    subst hzero
    exact ⟨⟨by simp, by decide, by simp⟩, by decide⟩
  · rename_i hne
    have hdigits : ∀ d ∈ (Nat.digits 10 n).reverse, d < 10 :=
      fun d hd => Nat.digits_lt_base (by norm_num) (List.mem_reverse.mp hd)
    obtain ⟨hall, hvalues⟩ := spelled _ hdigits
    refine ⟨⟨?_, hall, fun _ hhead => ?_⟩, ?_⟩
    · simpa [Nat.digits_ne_nil_iff_ne_zero] using hne
    · -- the first digit is the last of the little-endian digits
      rw [List.head?_map, List.head?_reverse] at hhead
      obtain ⟨d, hd, hbyte⟩ := Option.map_eq_some_iff.mp hhead
      have hlast := Nat.getLast_digit_ne_zero 10 hne
      rw [List.getLast?_eq_some_getLast (Nat.digits_ne_nil_iff_ne_zero.mpr hne),
        Option.some.injEq] at hd
      have hlt := hdigits d (by rw [List.mem_reverse, ← hd]; exact List.getLast_mem _)
      have htoNat := congrArg UInt8.toNat hbyte
      rw [UInt8.toNat_ofNat_of_lt' (by change _ < 256; omega)] at htoNat
      have hzero : d = 0 := by
        change 48 + d = 48 at htoNat
        omega
      exact hlast (hd.trans hzero)
    · rw [decimal_eq, hvalues, List.reverse_reverse, Nat.ofDigits_digits]

/-- A leading digit other than zero bounds the number from below. -/
theorem le_decimal {byte : UInt8} {digits : Bytes} (hdigit : isDigit byte = true)
    (hne : byte ≠ 48) :
    10 ^ digits.length ≤ decimal (byte :: digits) := by
  have hvalue : 1 ≤ digitValue byte := by
    have hbyte := digitValue_lt hdigit
    by_contra hzero
    exact hne (UInt8.toNat_inj.mp (by rw [← hbyte.2]; change 48 + _ = 48; omega))
  rw [decimal_eq, List.map_cons, List.reverse_cons, Nat.ofDigits_append, Nat.ofDigits_singleton,
    List.length_reverse, List.length_map]
  calc 10 ^ digits.length ≤ 10 ^ digits.length * digitValue byte := Nat.le_mul_of_pos_right _ hvalue
    _ ≤ _ := Nat.le_add_left _ _

theorem decimal_cons (byte : UInt8) (digits : Bytes) :
    decimal (byte :: digits) = digitValue byte * 10 ^ digits.length + decimal digits := by
  rw [decimal_eq, decimal_eq, List.map_cons, List.reverse_cons, Nat.ofDigits_append,
    Nat.ofDigits_singleton, List.length_reverse, List.length_map]
  ring

/-- Texts of one length compare digit by digit. -/
theorem decimal_lt_of_lt {s t : Bytes} (hs : s.all isDigit = true) (ht : t.all isDigit = true)
    (hlength : s.length = t.length) (h : s.map UInt8.toNat < t.map UInt8.toNat) :
    decimal s < decimal t := by
  induction s generalizing t with
  | nil =>
    rw [List.eq_nil_of_length_eq_zero hlength.symm] at h
    exact absurd h (lt_irrefl _)
  | cons a s ih =>
    obtain ⟨b, t, rfl⟩ := List.exists_cons_of_length_eq_add_one (by simpa using hlength.symm)
    rw [List.all_cons, Bool.and_eq_true] at hs ht
    have hlen : s.length = t.length := by simpa using hlength
    have ha := digitValue_lt hs.1
    have hb := digitValue_lt ht.1
    rw [decimal_cons, decimal_cons, hlen]
    rcases List.cons_lt_cons_iff.mp h with hlt | ⟨heq, hlt⟩
    · have hstep : (digitValue a + 1) * 10 ^ t.length ≤ digitValue b * 10 ^ t.length :=
        Nat.mul_le_mul_right _ (by omega)
      have hbound := decimal_lt hs.2
      rw [hlen] at hbound
      rw [Nat.add_mul, Nat.one_mul] at hstep
      omega
    · have hsame : digitValue a = digitValue b := by omega
      rw [hsame]
      exact Nat.add_lt_add_left (ih hs.2 ht.2 hlen hlt) _

/-- A longer number without leading zeros is larger. -/
theorem decimal_lt_of_length {s t : Bytes} (hs : s.all isDigit = true) (ht : Numeric t)
    (hne : s ≠ []) (hlength : s.length < t.length) : decimal s < decimal t := by
  have hpos := List.length_pos_of_ne_nil hne
  obtain ⟨b, t, rfl⟩ := List.exists_cons_of_ne_nil ht.nonempty
  have hdigits := ht.digits
  rw [List.all_cons, Bool.and_eq_true] at hdigits
  rw [List.length_cons] at hlength
  have hhead : b ≠ 48 := fun h => ht.leading (by simp; omega) (by rw [h]; rfl)
  calc decimal s < 10 ^ s.length := decimal_lt hs
    _ ≤ 10 ^ t.length := Nat.pow_le_pow_right (by norm_num) (by omega)
    _ ≤ decimal (b :: t) := le_decimal hdigits.1 hhead

/-- The order of strings. -/
def textCmp (s t : Bytes) : Ordering := cmp (s.map UInt8.toNat) (t.map UInt8.toNat)

theorem textCmp_lt {s t : Bytes} (h : s.map UInt8.toNat < t.map UInt8.toNat) :
    textCmp s t = .lt := by
  unfold textCmp cmp cmpUsing
  rw [if_pos h]

theorem textCmp_gt {s t : Bytes} (h : t.map UInt8.toNat < s.map UInt8.toNat) :
    textCmp s t = .gt := by
  unfold textCmp cmp cmpUsing
  rw [if_neg (lt_asymm h), if_pos h]

theorem textCmp_self (s : Bytes) : textCmp s s = .eq := by
  unfold textCmp cmp cmpUsing
  rw [if_neg (lt_irrefl _), if_neg (lt_irrefl _)]

theorem textCmp_eq_iff {s t : Bytes} : textCmp s t = .eq ↔ s = t := by
  constructor
  · intro h
    rcases lt_trichotomy (s.map UInt8.toNat) (t.map UInt8.toNat) with hlt | heq | hlt
    · rw [textCmp_lt hlt] at h
      cases h
    · exact List.map_injective_iff.mpr toNat_injective heq
    · rw [textCmp_gt hlt] at h
      cases h
  · rintro rfl
    exact textCmp_self s

/-- Length and then text order numbers. -/
theorem numeric_cmp {s t : Bytes} (hs : Numeric s) (ht : Numeric t) :
    (cmp s.length t.length).then (textCmp s t) = cmp (decimal s) (decimal t) := by
  rcases lt_trichotomy s.length t.length with hlt | heq | hlt
  · rw [(cmp_eq_lt_iff _ _).mpr hlt,
      (cmp_eq_lt_iff _ _).mpr (decimal_lt_of_length hs.digits ht hs.nonempty hlt)]
    rfl
  · rw [(cmp_eq_eq_iff _ _).mpr heq]
    rcases lt_trichotomy (s.map UInt8.toNat) (t.map UInt8.toNat) with h | h | h
    · rw [textCmp_lt h, (cmp_eq_lt_iff _ _).mpr (decimal_lt_of_lt hs.digits ht.digits heq h)]
      rfl
    · rw [List.map_injective_iff.mpr toNat_injective h, textCmp_self, cmp_self_eq_eq]
      rfl
    · rw [textCmp_gt h, (cmp_eq_gt_iff _ _).mpr (decimal_lt_of_lt ht.digits hs.digits heq.symm h)]
      rfl
  · rw [(cmp_eq_gt_iff _ _).mpr hlt,
      (cmp_eq_gt_iff _ _).mpr (decimal_lt_of_length ht.digits hs ht.nonempty hlt)]
    rfl

theorem decimal_injective {s t : Bytes} (hs : Numeric s) (ht : Numeric t)
    (h : decimal s = decimal t) : s = t := by
  have hcmp := numeric_cmp hs ht
  rw [(cmp_eq_eq_iff _ _).mpr h, Ordering.then_eq_eq] at hcmp
  exact textCmp_eq_iff.mp hcmp.2

/-- The text of a number is its rendering. -/
theorem renderNat_decimal {s : Bytes} (hs : Numeric s) : renderNat (decimal s) = s :=
  decimal_injective (numeric_renderNat _).1 hs (numeric_renderNat _).2

end Xcelerator.Foundations.AsciiDecimal
