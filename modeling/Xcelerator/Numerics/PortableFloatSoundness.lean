import Mathlib
import Xcelerator.Numerics.PortableFloat

/-! # When a portable float is lossless

The value of an accepted record is in the exponent range, but its significand is
assigned before it is shifted: the record is reconstructed exactly when the width
of the significand, taken as an exponent, is in the range as well. -/

namespace Xcelerator.Numerics.PortableFloat
open Xcelerator.Foundations
open Xcelerator.Foundations.Machine (bind_eq_ok ok_bind error_bind)
open BinaryRounding (rounded rounded_exact log_intCast log_mul_zpow)
open MpfrFloat (Datum MpfrFloat Representable)

theorem refuse_iff {condition : Prop} [Decidable condition] {message : String} {u : Unit} :
    refuse condition message = .ok u ↔ ¬condition := by
  rw [refuse]
  split <;> simp_all

theorem refuse_not {condition : Prop} [Decidable condition] (message : String) (h : ¬condition) :
    refuse condition message = .ok () := refuse_iff.mpr h

/-! ## Base sixteen -/

theorem step_digitChar {d : Nat} (h : d < 16) (s : ReadState) :
    s.step d.digitChar = some { s with hasDigits := true, magnitude := s.magnitude * 16 + d } := by
  have hsign : ¬((d.digitChar = '+' ∨ d.digitChar = '-') ∧ (!s.hasSign) = true ∧
      (!s.hasDigits) = true) := by
    rintro ⟨hsign, -⟩
    interval_cases d <;> revert hsign <;> decide
  have hskip : ¬((d.digitChar = '_' ∧ s.hasDigits = true) ∨ isAsciiSpace d.digitChar = true) := by
    rintro (⟨hskip, -⟩ | hskip) <;> interval_cases d <;> revert hskip <;> decide
  have hdigit : hexDigit d.digitChar = some d := by
    interval_cases d <;> decide
  rw [ReadState.step, if_neg hsign, if_neg hskip, hdigit]
  rfl

theorem foldlM_toDigits (n : Nat) (s : ReadState) (h : s.magnitude = 0) :
    (Nat.toDigits 16 n).foldlM ReadState.step s = some { s with
      hasDigits := true, magnitude := n } := by
  induction n using Nat.strong_induction_on with
  | _ n ih =>
    rw [Nat.toDigits_eq_if (by norm_num)]
    split
    · rename_i hlt
      rw [List.foldlM_cons, step_digitChar hlt, h, zero_mul, zero_add]
      rfl
    · rename_i hle
      have hdiv := Nat.div_add_mod n 16
      rw [List.foldlM_append, ih (n / 16) (by omega)]
      simp only [Option.bind_eq_bind, Option.bind_some, List.foldlM_cons,
        step_digitChar (Nat.mod_lt n (by norm_num : 16 > 0))]
      have hvalue : n / 16 * 16 + n % 16 = n := by omega
      rw [hvalue]
      rfl

/-- An integer is read back from its text. -/
theorem fromStrRadix16_toStringRadix16 (z : Int) : fromStrRadix16 (toStringRadix16 z) = some z := by
  rw [toStringRadix16, fromStrRadix16]
  split
  · rename_i hneg
    have hminus : ReadState.step ⟨false, false, false, 0⟩ '-' = some ⟨true, false, true, 0⟩ := rfl
    have hread := foldlM_toDigits z.natAbs ⟨true, false, true, 0⟩ rfl
    simp only [List.foldlM_cons, hminus, Option.bind_eq_bind, Option.bind_some, hread, if_true]
    congr 1
    omega
  · rename_i hpos
    rw [foldlM_toDigits _ _ rfl]
    simp only [Option.bind_eq_bind, Option.bind_some, if_true, Bool.false_eq_true, if_false]
    congr 1
    omega

/-! ## Exact placement -/

/-- The odd part of an integer has the width that validation measures. -/
theorem exists_odd_part {z : Int} (hz : z ≠ 0) :
    ∃ odd : Int, odd ≠ 0 ∧ z = odd * 2 ^ findOne z.natAbs ∧
      odd.natAbs.size + findOne z.natAbs = z.natAbs.size := by
  have hne : z.natAbs ≠ 0 := Int.natAbs_ne_zero.mpr hz
  have hdvd : (2 : Int) ^ findOne z.natAbs ∣ z := by
    have h : 2 ^ findOne z.natAbs ∣ z.natAbs := pow_padicValNat_dvd
    exact_mod_cast Int.natCast_dvd.mpr h
  obtain ⟨odd, hodd⟩ := hdvd
  have hodd0 : odd ≠ 0 := by
    rintro rfl
    exact hz (by rw [hodd, mul_zero])
  have hnat : z.natAbs = odd.natAbs <<< findOne z.natAbs := by
    have habs := congrArg Int.natAbs hodd
    rw [Int.natAbs_mul, Int.natAbs_pow] at habs
    rw [Nat.shiftLeft_eq, Nat.mul_comm]
    exact habs
  refine ⟨odd, hodd0, by rw [mul_comm]; exact hodd, ?_⟩
  have hsize := Nat.size_shiftLeft (Int.natAbs_ne_zero.mpr hodd0) (findOne z.natAbs)
  rw [← hnat] at hsize
  exact hsize.symm

theorem exponentOf_scaled {z : Int} (hz : z ≠ 0) (k : Int) :
    exponentOf (z * 2 ^ k) = z.natAbs.size + k := by
  rw [exponentOf, log_mul_zpow (Int.cast_ne_zero.mpr hz), log_intCast hz]
  ring

theorem scaled_ne_zero {z : Int} (hz : z ≠ 0) (k : Int) : (z : ℚ) * 2 ^ k ≠ 0 :=
  mul_ne_zero (Int.cast_ne_zero.mpr hz) (zpow_ne_zero _ two_ne_zero)

section
variable (m : Mpfr) {p : Nat} {z : Int}

theorem rounded_scaled (hz : z ≠ 0) (hbits : z.natAbs.size - findOne z.natAbs ≤ p) (k : Int) :
    rounded p .nearest ((z : ℚ) * 2 ^ k) = z * 2 ^ k := by
  obtain ⟨odd, -, hodd, hsize⟩ := exists_odd_part hz
  have hexact := rounded_exact (show odd.natAbs.size ≤ p by omega) .nearest (findOne z.natAbs + k)
  have hvalue : (z : ℚ) * 2 ^ k = odd * 2 ^ ((findOne z.natAbs : Int) + k) := by
    have hcast : (z : ℚ) = odd * 2 ^ findOne z.natAbs :=
      by exact_mod_cast congrArg (Int.cast : Int → ℚ) hodd
    rw [zpow_add₀ two_ne_zero, zpow_natCast, ← mul_assoc, ← hcast]
  rw [hvalue]
  exact hexact

theorem place_within (hz : z ≠ 0) (hbits : z.natAbs.size - findOne z.natAbs ≤ p) {k : Int}
    (hmin : m.expMin ≤ z.natAbs.size + k) (hmax : z.natAbs.size + k ≤ m.expMax) :
    m.place p (z * 2 ^ k) = .normal (z * 2 ^ k) (scaled_ne_zero hz k) := by
  simp only [Mpfr.place, rounded_scaled hz hbits k, exponentOf_scaled hz k,
    dif_neg (scaled_ne_zero hz k), if_neg (not_lt.mpr hmin), if_neg (not_lt.mpr hmax)]

theorem place_above (hz : z ≠ 0) (hbits : z.natAbs.size - findOne z.natAbs ≤ p) {k : Int}
    (hmax : m.expMax < z.natAbs.size + k) :
    ∃ negative, m.place p (z * 2 ^ k) = .infinity negative := by
  simp only [Mpfr.place, rounded_scaled hz hbits k, exponentOf_scaled hz k,
    dif_neg (scaled_ne_zero hz k), if_pos hmax]
  exact ⟨_, rfl⟩

/-- Below the range a value becomes a zero or the least magnitude. -/
theorem place_below (hz : z ≠ 0) (hbits : z.natAbs.size - findOne z.natAbs ≤ p) {k : Int}
    (hmin : z.natAbs.size + k < m.expMin) (hmax : z.natAbs.size + k ≤ m.expMax) :
    (∃ negative, m.place p (z * 2 ^ k) = .zero negative) ∨
      ∃ (sign : Int) (h : (sign : ℚ) * 2 ^ (m.expMin - 1) ≠ 0), (sign = 1 ∨ sign = -1) ∧
        m.place p (z * 2 ^ k) = .normal (sign * 2 ^ (m.expMin - 1)) h := by
  simp only [Mpfr.place, rounded_scaled hz hbits k, exponentOf_scaled hz k,
    dif_neg (scaled_ne_zero hz k), if_neg (not_lt.mpr hmax), if_pos hmin]
  split
  · exact .inl ⟨_, rfl⟩
  · split
    · exact .inr ⟨-1, scaled_ne_zero (by norm_num) _, .inr rfl, by simp⟩
    · exact .inr ⟨1, scaled_ne_zero (by norm_num) _, .inl rfl, by simp⟩

end

/-! ## Accepted records -/

/-- What validation admits: a canonical text, no rounded bit, and a value in the exponent range. -/
structure PortableHpFloat.Accepted (m : Mpfr) (record : PortableHpFloat) (z : Int) : Prop where
  text : record.significandHex = toStringRadix16 z
  precision : 2 ≤ record.precisionBits ∧ record.precisionBits ≤ 1000000
  zero : record.negativeZero = true → z = 0
  width : z ≠ 0 → z.natAbs.size < 2 ^ 32
  bits : z ≠ 0 → z.natAbs.size - findOne z.natAbs ≤ record.precisionBits
  lower : z ≠ 0 → m.expMin ≤ z.natAbs.size + record.binaryExponent
  upper : z ≠ 0 → z.natAbs.size + record.binaryExponent ≤ m.expMax

/-- The width of the significand, taken as an exponent, is in the range. -/
def WidthWithin (m : Mpfr) (z : Int) : Prop :=
  z = 0 ∨ m.expMin ≤ z.natAbs.size ∧ (z.natAbs.size : Int) ≤ m.expMax

/-- The float that a record stands for, at its own precision and with its sign of zero. -/
def PortableHpFloat.exact (self : PortableHpFloat) (z : Int) : MpfrFloat where
  precision := self.precisionBits
  datum := if h : z = 0 then .zero self.negativeZero else
    .normal (z * 2 ^ self.binaryExponent) (scaled_ne_zero h _)

/-- The floats of the library: a finite one is of its precision and in the range. -/
def Stored (m : Mpfr) (x : MpfrFloat) : Prop :=
  ∀ v h, x.datum = .normal v h → Representable m.expMin m.expMax x.precision v

namespace PortableHpFloat
variable {m : Mpfr} {self : PortableHpFloat} {z : Int}

theorem significand_ok (h : self.significandHex = toStringRadix16 z) :
    self.significand = .ok z := by
  rw [significand, h, fromStrRadix16_toStringRadix16]

theorem significantBits_ok {magnitude bits : Nat} : significantBits magnitude = .ok bits ↔
    magnitude.size < 2 ^ 32 ∧ magnitude.size = bits := by
  rw [significantBits]
  split <;> simp_all

theorem validate_iff : self.validate m = .ok () ↔ ∃ z, self.Accepted m z := by
  constructor
  · intro h
    obtain ⟨_, hprecision, h⟩ := bind_eq_ok h
    obtain ⟨z, -, h⟩ := bind_eq_ok h
    obtain ⟨_, htext, h⟩ := bind_eq_ok h
    obtain ⟨_, hzero, h⟩ := bind_eq_ok h
    have hprecision := not_not.mp (refuse_iff.mp hprecision)
    have htext := not_not.mp (refuse_iff.mp htext)
    have hzero := refuse_iff.mp hzero
    have hsign : self.negativeZero = true → z = 0 := fun hneg => by
      by_contra hne
      exact hzero ⟨hneg, hne⟩
    by_cases hz : z = 0
    · exact ⟨z, htext.symm, hprecision, hsign, absurd hz, absurd hz, absurd hz, absurd hz⟩
    · rw [if_neg hz] at h
      obtain ⟨bits, hbits, h⟩ := bind_eq_ok h
      obtain ⟨_, heffective, h⟩ := bind_eq_ok h
      obtain ⟨hwidth, rfl⟩ := significantBits_ok.mp hbits
      have heffective := refuse_iff.mp heffective
      have hrange := refuse_iff.mp h
      exact ⟨z, htext.symm, hprecision, hsign, fun _ => hwidth, fun _ => by omega, fun _ => by
        omega, fun _ => by omega⟩
  · rintro ⟨z, h⟩
    rw [validate, refuse_not _ (not_not.mpr h.precision), ok_bind, significand_ok h.text, ok_bind,
      refuse_not _ (not_not.mpr h.text.symm), ok_bind,
      refuse_not _ (fun hneg => hneg.2 (h.zero hneg.1)), ok_bind]
    split
    · rfl
    · rename_i hz
      have hbits := h.bits hz
      have hlower := h.lower hz
      have hupper := h.upper hz
      rw [validateNonzero, significantBits_ok.mpr ⟨h.width hz, rfl⟩, ok_bind,
        refuse_not _ (by omega), ok_bind]
      exact refuse_not _ (by omega)

/-- The two steps of reconstruction, after validation. -/
theorem toFloat_eq (h : self.Accepted m z) (hz : z ≠ 0) :
    self.toFloat m =
      match m.shiftLeft self.precisionBits (m.place self.precisionBits (z * 2 ^ (0 : Int)))
        self.binaryExponent with
      | .normal v h => .ok ⟨self.precisionBits, .normal v h⟩
      | _ => .error (.format "portable HP reconstruction overflowed or underflowed") := by
  rw [toFloat, validate_iff.mpr ⟨z, h⟩, ok_bind, significand_ok h.text, ok_bind, if_neg hz,
    Mpfr.assign, if_neg hz, zpow_zero, mul_one]
  rfl

/-- A significand too wide for the range is refused. -/
theorem toFloat_above (h : self.Accepted m z) (hz : z ≠ 0) (hwide : m.expMax < z.natAbs.size) :
    self.toFloat m = .error (.format "portable HP reconstruction overflowed or underflowed") := by
  obtain ⟨negative, hplace⟩ := place_above m hz (h.bits hz) (k := 0) (by omega)
  rw [toFloat_eq h hz, hplace]
  rfl

/-- A significand too narrow for the range is not reconstructed. -/
theorem toFloat_below (h : self.Accepted m z) (hz : z ≠ 0)
    (hnarrow : (z.natAbs.size : Int) < m.expMin)
    (hmax : (z.natAbs.size : Int) ≤ m.expMax) : self.toFloat m ≠ .ok (self.exact z) := by
  have hlower := h.lower hz
  rw [toFloat_eq h hz, exact, dif_neg hz]
  rcases place_below m hz (h.bits hz) (k := 0) (by omega) (by omega) with ⟨negative, hplace⟩
    | ⟨sign, hne, hsign, hplace⟩
  · rw [hplace]
    exact fun heq => by cases heq
  · -- the least magnitude is shifted to another exponent than the value's
    have hs : sign ≠ 0 := by rcases hsign with rfl | rfl <;> norm_num
    have hsize : sign.natAbs.size = 1 := by rcases hsign with rfl | rfl <;> rfl
    have hbits : sign.natAbs.size - findOne sign.natAbs ≤ self.precisionBits := by
      have := h.precision.1
      omega
    have hvalue : (sign : ℚ) * 2 ^ (m.expMin - 1) * 2 ^ self.binaryExponent =
        sign * 2 ^ (m.expMin - 1 + self.binaryExponent) := by
      rw [mul_assoc, ← zpow_add₀ two_ne_zero]
    rw [hplace]
    simp only [Mpfr.shiftLeft, hvalue]
    by_cases hup : (sign.natAbs.size : Int) + (m.expMin - 1 + self.binaryExponent) ≤ m.expMax
    · rw [place_within m hs hbits (by omega) hup]
      intro heq
      have hsame : (sign : ℚ) * 2 ^ (m.expMin - 1 + self.binaryExponent) =
          z * 2 ^ self.binaryExponent := by
        simpa using heq
      have hexponent := congrArg exponentOf hsame
      rw [exponentOf_scaled hs, exponentOf_scaled hz] at hexponent
      omega
    · obtain ⟨negative, habove⟩ := place_above m hs hbits (not_le.mp hup)
      rw [habove]
      exact fun heq => by cases heq

/-- An accepted record is reconstructed exactly when the width of its significand is in the
range. -/
theorem toFloat_iff (h : self.Accepted m z) : self.toFloat m = .ok (self.exact z) ↔
    WidthWithin m z := by
  by_cases hz : z = 0
  · subst hz
    refine ⟨fun _ => .inl rfl, fun _ => ?_⟩
    rw [toFloat, validate_iff.mpr ⟨0, h⟩, ok_bind, significand_ok h.text, ok_bind, if_pos rfl,
      exact, dif_pos rfl]
    rfl
  · constructor
    · intro hok
      by_cases hwide : m.expMax < z.natAbs.size
      · rw [toFloat_above h hz hwide] at hok
        cases hok
      · refine .inr ⟨?_, not_lt.mp hwide⟩
        by_contra hnarrow
        exact toFloat_below h hz (not_le.mp hnarrow) (not_lt.mp hwide) hok
    · intro hwithin
      obtain ⟨hmin, hmax⟩ := hwithin.resolve_left hz
      have hlower := h.lower hz
      have hupper := h.upper hz
      have hfirst := place_within m hz (h.bits hz) (k := 0) (by omega) (by omega)
      have hsecond := place_within m hz (h.bits hz) hlower hupper
      rw [toFloat_eq h hz, hfirst, exact, dif_neg hz]
      simp only [Mpfr.shiftLeft, zpow_zero, mul_one, hsecond]

theorem exact_stored (h : self.Accepted m z) : Stored m (self.exact z) := by
  intro v hv hdatum
  by_cases hz : z = 0
  · rw [exact, dif_pos hz] at hdatum
    cases hdatum
  · rw [exact, dif_neg hz] at hdatum
    obtain ⟨odd, hodd0, hodd, hsize⟩ := exists_odd_part hz
    have hbits := h.bits hz
    have hvalue : v = z * 2 ^ self.binaryExponent := (Datum.normal.inj hdatum).symm
    have hexponent : exponentOf v = z.natAbs.size + self.binaryExponent :=
      by rw [hvalue, exponentOf_scaled hz]
    have hpos : 0 < |v| := abs_pos.mpr hv
    refine .inr ⟨exponentOf v,
      ⟨by rw [hexponent]; exact h.lower hz, by rw [hexponent]; exact h.upper hz⟩, ⟨?_, ?_⟩,
      odd * 2 ^ (self.precisionBits - odd.natAbs.size), ?_⟩
    · rw [exponentOf, add_sub_cancel_right]
      exact_mod_cast Int.zpow_log_le_self (R := ℚ) (b := 2) (by norm_num) hpos
    · exact_mod_cast Int.lt_zpow_succ_log_self (R := ℚ) (b := 2) (by norm_num) |v|
    · have hcast : (z : ℚ) = odd * 2 ^ findOne z.natAbs :=
        by exact_mod_cast congrArg (Int.cast : Int → ℚ) hodd
      rw [hexponent, hvalue, hcast]
      push_cast
      rw [mul_assoc, mul_assoc, ← zpow_natCast, ← zpow_natCast, ← zpow_add₀ two_ne_zero,
        ← zpow_add₀ two_ne_zero]
      congr 2
      show _ = _
      simp only [exact]
      omega

end PortableHpFloat

/-! ## Floats written and read back -/

/-- A float whose precision, taken as an exponent, is in the range, or a zero. -/
def PrecisionWithin (m : Mpfr) (x : MpfrFloat) : Prop :=
  x.finite? = some 0 ∨ m.expMin ≤ x.precision ∧ (x.precision : Int) ≤ m.expMax

section
variable {m : Mpfr}

/-- The significand and the exponent of a stored float. -/
theorem stored_parts {p : Nat} {v : ℚ} (hv : v ≠ 0) (h : Representable m.expMin m.expMax p v) :
    ∃ z : Int, z ≠ 0 ∧ z.natAbs.size = p ∧ v = z * 2 ^ (exponentOf v - p) ∧
    (v * 2 ^ (p - exponentOf v : Int)).num = z ∧
      m.expMin ≤ exponentOf v ∧ exponentOf v ≤ m.expMax := by
  obtain ⟨e, ⟨hmin, hmax⟩, ⟨hlow, hhigh⟩, z, hz⟩ := h.resolve_left hv
  have hpos : 0 < |v| := abs_pos.mpr hv
  have hexponent : exponentOf v = e := by
    have hle := (Int.zpow_le_iff_le_log (R := ℚ) (b := 2) (by norm_num) hpos).mp
      (by exact_mod_cast hlow)
    have hlt := (Int.lt_zpow_iff_log_lt (R := ℚ) (b := 2) (by norm_num) hpos).mp
      (by exact_mod_cast hhigh)
    rw [exponentOf]
    omega
  have hz0 : z ≠ 0 := by
    rintro rfl
    exact hv (by rw [hz, Int.cast_zero, zero_mul])
  have hsize : z.natAbs.size = p := by
    have hscaled := exponentOf_scaled hz0 (e - p)
    rw [← hz, hexponent] at hscaled
    omega
  refine ⟨z, hz0, hsize, by rw [hexponent]; exact hz, ?_, by rw [hexponent]; exact hmin, by
    rw [hexponent]; exact hmax⟩
  rw [hexponent]
  have hinteger : v * 2 ^ ((p : Int) - e) = z := by
    rw [hz, mul_assoc, ← zpow_add₀ two_ne_zero, sub_add_sub_cancel, sub_self, zpow_zero, mul_one]
  rw [hinteger, Rat.num_intCast]

/-- A stored finite float is accepted as a record that stands for it. -/
theorem fromFloat_ok {x : MpfrFloat} {a : ℚ} (hx : Stored m x) (hfinite : x.finite? = some a)
    (hprecision : 2 ≤ x.precision ∧ x.precision ≤ 1000000) :
    ∃ record z, PortableHpFloat.fromFloat m x = .ok record ∧ record.Accepted m z ∧
    record.exact z = x ∧
      (WidthWithin m z ↔ PrecisionWithin m x) := by
  obtain ⟨p, datum⟩ := x
  have hvalidate : ∀ {record : PortableHpFloat} {z : Int}, record.Accepted m z →
      (record.validate m >>= fun _ => Except.ok record) = .ok record := by
    intro record z h
    rw [PortableHpFloat.validate_iff.mpr ⟨z, h⟩, ok_bind]
  cases datum with
  | nan => cases hfinite
  | infinity negative => cases hfinite
  | zero negative =>
    have haccepted : (PortableHpFloat.mk p (toStringRadix16 0) m.zeroExponent negative).Accepted m
        0 :=
      ⟨rfl, hprecision, fun _ => rfl, absurd rfl, absurd rfl, absurd rfl, absurd rfl⟩
    have hsign : decide ((MpfrFloat.mk p (.zero negative)).finite? = some 0 ∧
        (MpfrFloat.mk p (.zero negative)).isSignNegative = true) = negative := by
      cases negative <;> simp [MpfrFloat.finite?, MpfrFloat.isSignNegative]
    refine ⟨_, 0, ?_, haccepted, rfl, ⟨fun _ => .inl rfl, fun _ => .inl rfl⟩⟩
    rw [PortableHpFloat.fromFloat]
    simp only [Mpfr.toIntegerExp, hsign]
    exact hvalidate haccepted
  | normal v hv =>
    obtain ⟨z, hz, hsize, hvalue, hnum, hmin, hmax⟩ := stored_parts hv (hx v hv rfl)
    have haccepted : (PortableHpFloat.mk p (toStringRadix16 z) (exponentOf v - p) false).Accepted m
        z :=
      { text := rfl
        precision := hprecision
        zero := Bool.noConfusion
        width := fun _ => hsize ▸ lt_of_le_of_lt hprecision.2 (by norm_num)
        bits := fun _ => hsize ▸ Nat.sub_le _ _
        lower := fun _ => by
          rw [hsize]
          exact (add_sub_cancel (p : Int) (exponentOf v)).symm ▸ hmin
        upper := fun _ => by
          rw [hsize]
          exact (add_sub_cancel (p : Int) (exponentOf v)).symm ▸ hmax }
    have hsign : decide ((MpfrFloat.mk p (.normal v hv)).finite? = some 0 ∧
        (MpfrFloat.mk p (.normal v hv)).isSignNegative = true) = false := by
      simp [MpfrFloat.finite?, hv]
    have hexact : (PortableHpFloat.mk p (toStringRadix16 z) (exponentOf v - p) false).exact z =
        ⟨p, .normal v hv⟩ := by
      rw [PortableHpFloat.exact, dif_neg hz]
      simp only [← hvalue]
    have hnonzero : (MpfrFloat.mk p (.normal v hv)).finite? ≠ some 0 := by
      simp [MpfrFloat.finite?, hv]
    refine ⟨_, z, ?_, haccepted, hexact, ?_⟩
    · rw [PortableHpFloat.fromFloat]
      simp only [Mpfr.toIntegerExp, hsign, hnum]
      exact hvalidate haccepted
    · rw [WidthWithin, PrecisionWithin, hsize]
      simp only [hz, hnonzero, false_or]

/-! ## Intervals -/

theorem exact_finite (record : PortableHpFloat) (z : Int) :
    (record.exact z).finite? = some ((z : ℚ) * 2 ^ record.binaryExponent) := by
  rw [PortableHpFloat.exact]
  by_cases hz : z = 0
  · rw [dif_pos hz, hz]
    simp [MpfrFloat.finite?]
  · rw [dif_neg hz]
    rfl

theorem rank_of_finite {x : MpfrFloat} {a : ℚ} (h : x.finite? = some a) :
    x.datum.rank = some (toLex (0, a)) := by
  obtain ⟨p, datum⟩ := x
  cases datum with
  | nan => cases h
  | infinity negative => cases h
  | zero negative =>
    cases h
    rfl
  | normal v hv =>
    cases h
    rfl

theorem lt_iff {x y : MpfrFloat} {a b : ℚ} (hx : x.finite? = some a) (hy : y.finite? = some b) :
    x.lt y = true ↔ a < b := by
  rw [MpfrFloat.lt, rank_of_finite hx, rank_of_finite hy]
  simp only [decide_eq_true_eq, Prod.Lex.toLex_lt_toLex]
  simp

namespace PortableHpInterval
variable {self : PortableHpInterval} {lower upper : MpfrFloat} {a b : ℚ}

/-- The bounds are those of the records exactly when these are reconstructed and in order. -/
theorem toBounds_iff (ha : lower.finite? = some a) (hb : upper.finite? = some b) :
    self.toBounds m = .ok (lower, upper) ↔
      self.lower.toFloat m = .ok lower ∧ self.upper.toFloat m = .ok upper ∧ a ≤ b := by
  constructor
  · intro h
    obtain ⟨_, hvalid, h⟩ := bind_eq_ok h
    obtain ⟨l, hl, h⟩ := bind_eq_ok h
    obtain ⟨u, hu, h⟩ := bind_eq_ok h
    obtain ⟨rfl, rfl⟩ := Prod.mk.inj (Except.ok.inj h)
    obtain ⟨bounds, hbounds, horder⟩ := bind_eq_ok hvalid
    have hsame : bounds = (l, u) := by
      rw [toBoundsUnchecked, hl, ok_bind, hu, ok_bind] at hbounds
      exact (Except.ok.inj hbounds).symm
    have horder := refuse_iff.mp horder
    rw [hsame, lt_iff hb ha] at horder
    exact ⟨hl, hu, not_lt.mp horder⟩
  · rintro ⟨hl, hu, hab⟩
    have hbounds : self.toBoundsUnchecked m = .ok (lower, upper) := by
      rw [toBoundsUnchecked, hl, ok_bind, hu, ok_bind]
      rfl
    have horder : ¬upper.lt lower = true := by
      rw [lt_iff hb ha]
      exact not_lt.mpr hab
    rw [toBounds, validate, hbounds, ok_bind, refuse_not _ horder, ok_bind]

theorem fromBounds_iff (hl : Stored m lower) (hu : Stored m upper) (ha : lower.finite? = some a)
    (hb : upper.finite? = some b)
    (hlp : 2 ≤ lower.precision ∧ lower.precision ≤ 1000000)
    (hup : 2 ≤ upper.precision ∧ upper.precision ≤ 1000000) (hab : a ≤ b) :
    (∃ interval, fromBounds m lower upper = .ok interval ∧ interval.toBounds m = .ok (lower, upper))
      ↔
      PrecisionWithin m lower ∧ PrecisionWithin m upper := by
  obtain ⟨low, zl, hlow, hlowOk, hlowExact, hlowWithin⟩ := fromFloat_ok hl ha hlp
  obtain ⟨high, zu, hhigh, hhighOk, hhighExact, hhighWithin⟩ := fromFloat_ok hu hb hup
  have hlowFloat : low.toFloat m = .ok lower ↔ PrecisionWithin m lower := by
    rw [← hlowWithin, ← PortableHpFloat.toFloat_iff hlowOk, hlowExact]
  have hhighFloat : high.toFloat m = .ok upper ↔ PrecisionWithin m upper := by
    rw [← hhighWithin, ← PortableHpFloat.toFloat_iff hhighOk, hhighExact]
  rw [← hlowFloat, ← hhighFloat, fromBounds, hlow, ok_bind, hhigh, ok_bind]
  constructor
  · rintro ⟨interval, hfrom, hto⟩
    obtain ⟨_, -, hinterval⟩ := bind_eq_ok hfrom
    cases hinterval
    obtain ⟨hlo, hhi, -⟩ := (toBounds_iff ha hb).mp hto
    exact ⟨hlo, hhi⟩
  · rintro ⟨hlo, hhi⟩
    have hto : (PortableHpInterval.mk low high).toBounds m = .ok (lower, upper) :=
      (toBounds_iff ha hb).mpr ⟨hlo, hhi, hab⟩
    obtain ⟨_, hvalid, -⟩ := bind_eq_ok hto
    refine ⟨⟨low, high⟩, ?_, hto⟩
    simp only [hvalid, ok_bind]
    rfl

end PortableHpInterval

end

/-- A persisted float or interval is lossless exactly when the widths of its significands, taken as
exponents, are in the range: for a float that is written the width is its precision, for a record it
is that of its text. -/
theorem portable_lossless_iff (m : Mpfr) :
    (∀ record : PortableHpFloat, record.validate m = .ok () →
      ∃ z, record.significand = .ok z ∧ Stored m (record.exact z) ∧
        (record.toFloat m = .ok (record.exact z) ↔ WidthWithin m z)) ∧
      (∀ x a, Stored m x → x.finite? = some a → 2 ≤ x.precision ∧ x.precision ≤ 1000000 →
        ∃ record, PortableHpFloat.fromFloat m x = .ok record ∧
        (record.toFloat m = .ok x ↔ PrecisionWithin m x)) ∧
      (∀ lower upper a b, Stored m lower → Stored m upper → lower.finite? = some a →
        upper.finite? = some b →
        2 ≤ lower.precision ∧ lower.precision ≤ 1000000 → 2 ≤ upper.precision ∧
        upper.precision ≤ 1000000 → a ≤ b →
        ((∃ interval, PortableHpInterval.fromBounds m lower upper = .ok interval ∧
          interval.toBounds m = .ok (lower, upper)) ↔
          PrecisionWithin m lower ∧ PrecisionWithin m upper)) := by
  refine ⟨fun record h => ?_, fun x a hx hfinite hprecision => ?_, ?_⟩
  · obtain ⟨z, hz⟩ := PortableHpFloat.validate_iff.mp h
    exact ⟨z, PortableHpFloat.significand_ok hz.text, PortableHpFloat.exact_stored hz,
      PortableHpFloat.toFloat_iff hz⟩
  · obtain ⟨record, z, hrecord, haccepted, hexact, hwithin⟩ := fromFloat_ok hx hfinite hprecision
    refine ⟨record, hrecord, ?_⟩
    rw [← hwithin, ← PortableHpFloat.toFloat_iff haccepted, hexact]
  · intro lower upper a b hl hu ha hb hlp hup hab
    exact PortableHpInterval.fromBounds_iff hl hu ha hb hlp hup hab

/-- MPFR's default exponent range. -/
def defaultMpfr : Mpfr := ⟨-(2 ^ 30 - 1), 2 ^ 30 - 1, -(2 ^ 30 - 1)⟩

/-- The value one, written with `n` factors of two in its significand. -/
def spreadOne (n : Nat) : PortableHpFloat := ⟨2, toStringRadix16 (2 ^ n), -n, false⟩

theorem spreadOne_accepted {m : Mpfr} {n : Nat} (hn : n + 1 < 2 ^ 32) (hmin : m.expMin ≤ 1)
    (hmax : 1 ≤ m.expMax) :
    (spreadOne n).Accepted m (2 ^ n) := by
  have habs : ((2 : Int) ^ n).natAbs = 2 ^ n := by rw [Int.natAbs_pow]; rfl
  have hone : findOne (2 ^ n) = n := padicValNat.prime_pow n
  have hsize : ((2 : Int) ^ n).natAbs.size = n + 1 := by rw [habs, Nat.size_pow]
  exact
    { text := rfl
      precision := ⟨le_rfl, by norm_num [spreadOne]⟩
      zero := Bool.noConfusion
      width := fun _ => by rwa [hsize]
      bits := fun _ => by
        rw [hsize, habs, hone]
        simp [spreadOne]
      lower := fun _ => by
        rw [hsize]
        simp only [spreadOne]
        omega
      upper := fun _ => by
        rw [hsize]
        simp only [spreadOne]
        omega }

/-- The value one as a float of two bits. -/
def one : MpfrFloat := (spreadOne 4).exact (2 ^ 4)

theorem spreadOne_four_accepted : (spreadOne 4).Accepted defaultMpfr (2 ^ 4) :=
  spreadOne_accepted (by norm_num) (by norm_num [defaultMpfr]) (by norm_num [defaultMpfr])

theorem portable_lossless_iff_one :
    (∃ z, (spreadOne 4).significand = .ok z ∧ Stored defaultMpfr ((spreadOne 4).exact z) ∧
        ((spreadOne 4).toFloat defaultMpfr = .ok ((spreadOne 4).exact z) ↔
          WidthWithin defaultMpfr z)) ∧
      (∃ record, PortableHpFloat.fromFloat defaultMpfr one = .ok record ∧
        (record.toFloat defaultMpfr = .ok one ↔ PrecisionWithin defaultMpfr one)) ∧
      ((∃ interval, PortableHpInterval.fromBounds defaultMpfr one one = .ok interval ∧
          interval.toBounds defaultMpfr = .ok (one, one)) ↔
        PrecisionWithin defaultMpfr one ∧ PrecisionWithin defaultMpfr one) := by
  have hstored : Stored defaultMpfr one := PortableHpFloat.exact_stored spreadOne_four_accepted
  have hfinite : one.finite? = some _ := exact_finite _ _
  have hprecision : 2 ≤ one.precision ∧ one.precision ≤ 1000000 := spreadOne_four_accepted.precision
  exact ⟨(portable_lossless_iff defaultMpfr).1 _
    (PortableHpFloat.validate_iff.mpr ⟨_, spreadOne_four_accepted⟩),
    (portable_lossless_iff defaultMpfr).2.1 _ _ hstored hfinite hprecision,
    (portable_lossless_iff defaultMpfr).2.2 _ _ _ _ hstored hstored hfinite hfinite hprecision
      hprecision le_rfl⟩

theorem spreadOne_refused {m : Mpfr} {n : Nat} (hn : n + 1 < 2 ^ 32) (hmin : m.expMin ≤ 1)
    (hmax : 1 ≤ m.expMax)
    (hwide : m.expMax < n + 1) (x : MpfrFloat) : (spreadOne n).toFloat m ≠ .ok x := by
  have habs : ((2 : Int) ^ n).natAbs = 2 ^ n := by rw [Int.natAbs_pow]; rfl
  have hne : (2 : Int) ^ n ≠ 0 := pow_ne_zero n two_ne_zero
  rw [PortableHpFloat.toFloat_above (spreadOne_accepted hn hmin hmax) hne
    (by rw [habs, Nat.size_pow]; exact_mod_cast hwide)]
  exact fun h => by cases h

theorem accepted_not_reconstructed :
    (spreadOne (2 ^ 30)).validate defaultMpfr = .ok () ∧
    ∀ x, (spreadOne (2 ^ 30)).toFloat defaultMpfr ≠ .ok x :=
  ⟨PortableHpFloat.validate_iff.mpr ⟨_, spreadOne_accepted (by norm_num) (by norm_num [defaultMpfr])
    (by norm_num [defaultMpfr])⟩,
    spreadOne_refused (by norm_num) (by norm_num [defaultMpfr]) (by norm_num [defaultMpfr])
      (by norm_num [defaultMpfr])⟩

end Xcelerator.Numerics.PortableFloat
