import Mathlib
import Xcelerator.Core.DecimalLiteral

/-! # Decimal literals stand for their rational values

Parsing keeps the value of the spelling and returns its only normal form: first
and last digit nonzero. Comparisons are read off extents and digits, sums off
the carried digit maps. -/

namespace Xcelerator.Core.DecimalLiteral
open Foundations.Machine

/-! ## Digits -/

/-- The number with the given digits, most significant first. -/
def magnitude (digits : List ℕ) : ℕ := Nat.ofDigits 10 digits.reverse

theorem magnitude_append (a b : List ℕ) :
    magnitude (a ++ b) = magnitude a * 10 ^ b.length + magnitude b := by
  rw [magnitude, List.reverse_append, Nat.ofDigits_append, List.length_reverse, Nat.add_comm,
    Nat.mul_comm]
  rfl

theorem magnitude_single (d : ℕ) : magnitude [d] = d := by simp [magnitude]

theorem magnitude_lt {digits : List ℕ} (h : ∀ d ∈ digits, d < 10) :
    magnitude digits < 10 ^ digits.length := by
  have := Nat.ofDigits_lt_base_pow_length' (b := 8) (l := digits.reverse) fun d hd =>
    h d (List.mem_reverse.mp hd)
  rwa [List.length_reverse] at this

theorem magnitude_replicate (k : ℕ) : magnitude (List.replicate k 0) = 0 := by
  rw [magnitude, List.reverse_replicate, Nat.ofDigits_replicate_zero]

theorem ofDigitChars_eq (cs : List Char) : Nat.ofDigitChars 10 cs 0 = magnitude (cs.map digit) := by
  induction cs using List.reverseRecOn with
  | nil => rfl
  | append_singleton cs c ih =>
    rw [Nat.ofDigitChars_append, ih, List.map_append, magnitude_append, Nat.ofDigitChars_cons,
      Nat.ofDigitChars_nil, List.map_singleton, magnitude_single, List.length_singleton, pow_one,
      Nat.mul_comm]
    rfl

theorem digit_lt {c : Char} (h : c.isDigit = true) : digit c < 10 := by
  simp only [Char.isDigit, Bool.and_eq_true, decide_eq_true_eq] at h
  have h2 : c.toNat ≤ 57 := h.2
  have h0 : '0'.toNat = 48 := rfl
  unfold digit
  omega

theorem isDigit_ne {c x : Char} (h : c.isDigit = true) (hx : x.isDigit = false) : c ≠ x := by
  intro heq
  rw [heq, hx] at h
  cases h

/-! ## Scanning -/

/-- Where the scan stopped: at the end or at an exponent mark. -/
def Ends (tail : List Char) (position : ℕ) (exponentIndex : Option ℕ) : Prop :=
  (tail = [] ∧ exponentIndex = none) ∨
    ∃ c text, tail = c :: text ∧ isExponentMark c = true ∧ exponentIndex = some position

theorem scan_point {rest : List Char} {cursor index : ℕ} {decimalIndex exponentIndex : Option ℕ}
    (h : scan rest cursor (some index) = .ok (decimalIndex, exponentIndex)) :
    ∃ fraction tail, rest = fraction ++ tail ∧ (∀ c ∈ fraction, c.isDigit = true) ∧
      decimalIndex = some index ∧ Ends tail (cursor + fraction.length) exponentIndex := by
  induction rest generalizing cursor with
  | nil =>
    cases h
    exact ⟨[], [], rfl, by simp, rfl, .inl ⟨rfl, rfl⟩⟩
  | cons c rest ih =>
    rw [scan] at h
    split at h
    · rename_i hc
      obtain ⟨fraction, tail, rfl, hdigits, hindex, hends⟩ := ih h
      refine ⟨c :: fraction, tail, rfl, by simpa using ⟨hc, hdigits⟩, hindex, ?_⟩
      rwa [List.length_cons, Nat.add_comm fraction.length 1, ← Nat.add_assoc]
    · rw [if_neg (by simp)] at h
      split at h
      · rename_i hmark
        cases h
        exact ⟨[], c :: rest, rfl, by simp, rfl,
          .inr ⟨c, rest, rfl, by simpa [isExponentMark] using hmark, rfl⟩⟩
      · cases h

/-- The whole and fractional digits of a scanned body. -/
structure Split (body whole point fraction tail : List Char) (cursor : ℕ)
    (decimalIndex exponentIndex : Option ℕ) : Prop where
  text : body = whole ++ point ++ fraction ++ tail
  whole_digits : ∀ c ∈ whole, c.isDigit = true
  fraction_digits : ∀ c ∈ fraction, c.isDigit = true
  separator : (point = [] ∧ fraction = [] ∧ decimalIndex = none) ∨
    (point = ['.'] ∧ decimalIndex = some (cursor + whole.length))
  ends : Ends tail (cursor + (whole ++ point ++ fraction).length) exponentIndex

theorem scan_split {body : List Char} {cursor : ℕ} {decimalIndex exponentIndex : Option ℕ}
    (h : scan body cursor none = .ok (decimalIndex, exponentIndex)) :
    ∃ whole point fraction tail, Split body whole point fraction tail cursor decimalIndex
      exponentIndex := by
  induction body generalizing cursor with
  | nil =>
    cases h
    exact ⟨[], [], [], [], rfl, by simp, by simp, .inl ⟨rfl, rfl, rfl⟩, .inl ⟨rfl, rfl⟩⟩
  | cons c rest ih =>
    rw [scan] at h
    split at h
    · rename_i hc
      obtain ⟨whole, point, fraction, tail, hsplit⟩ := ih h
      refine ⟨c :: whole, point, fraction, tail, ?_, ?_, hsplit.fraction_digits, ?_, ?_⟩
      · rw [hsplit.text]
        rfl
      · simpa using ⟨hc, hsplit.whole_digits⟩
      · rw [List.length_cons, Nat.add_comm whole.length 1, ← Nat.add_assoc]
        exact hsplit.separator
      · have := hsplit.ends
        rwa [Nat.add_right_comm] at this
    · split at h
      · rename_i hdot
        obtain ⟨fraction, tail, rfl, hdigits, hindex, hends⟩ := scan_point h
        refine ⟨[], ['.'], fraction, tail, ?_, by simp, hdigits, .inr ⟨rfl, hindex⟩, ?_⟩
        · rw [hdot.1]
          rfl
        · rwa [Nat.add_right_comm] at hends
      · split at h
        · rename_i hmark
          cases h
          exact ⟨[], [], [], c :: rest, rfl, by simp, by simp, .inl ⟨rfl, rfl, rfl⟩,
            .inr ⟨c, rest, rfl, by simpa [isExponentMark] using hmark, rfl⟩⟩
        · cases h

theorem isExponentMark_digit {c : Char} (h : c.isDigit = true) : isExponentMark c = false := by
  have h1 := isDigit_ne h (x := 'e') rfl
  have h2 := isDigit_ne h (x := 'E') rfl
  simp [isExponentMark, h1, h2]

/-- The value of a spelling whose parts are known. -/
theorem spelled_split {text body whole point fraction tail : List Char} {sign : ℤ} {cursor : ℕ}
    {decimalIndex exponentIndex : Option ℕ} (hsign : signOf text = (sign, body))
    (h : Split body whole point fraction tail cursor decimalIndex exponentIndex) :
    spelled text = sign * (Nat.ofDigitChars 10 whole 0 +
      Nat.ofDigitChars 10 fraction 0 / 10 ^ fraction.length) *
      10 ^ ((signOf (tail.drop 1)).1 * Nat.ofDigitChars 10 (signOf (tail.drop 1)).2 0 : ℤ) := by
  have hplain : ∀ c ∈ whole ++ point ++ fraction, (!isExponentMark c) = true := by
    intro c hc
    rcases List.mem_append.mp hc with hc | hc
    · rcases List.mem_append.mp hc with hc | hc
      · simp [isExponentMark_digit (h.whole_digits c hc)]
      · rcases h.separator with ⟨hp, _⟩ | ⟨hp, _⟩
        · rw [hp] at hc
          cases hc
        · rw [hp] at hc
          rw [List.mem_singleton.mp hc]
          rfl
    · simp [isExponentMark_digit (h.fraction_digits c hc)]
  have htail : tail.takeWhile (fun c => !isExponentMark c) = [] ∧
      tail.dropWhile (fun c => !isExponentMark c) = tail := by
    rcases h.ends with ⟨ht, _⟩ | ⟨c, rest, ht, hc, _⟩
    · rw [ht]
      exact ⟨rfl, rfl⟩
    · rw [ht]
      simp [hc]
  have hmantissa : body.takeWhile (fun c => !isExponentMark c) = whole ++ point ++ fraction := by
    rw [h.text, List.takeWhile_append_of_pos hplain, htail.1, List.append_nil]
  have hdrop : body.dropWhile (fun c => !isExponentMark c) = tail := by
    rw [h.text, List.dropWhile_append_of_pos hplain, htail.2]
  have hnodot : ∀ c ∈ whole, (c != '.') = true := fun c hc => by
    simpa using isDigit_ne (h.whole_digits c hc) (x := '.') rfl
  have hwhole : (whole ++ point ++ fraction).takeWhile (fun c => c != '.') = whole := by
    rw [List.append_assoc, List.takeWhile_append_of_pos hnodot]
    rcases h.separator with ⟨hp, hf, _⟩ | ⟨hp, _⟩
    · rw [hp, hf]
      simp
    · rw [hp]
      simp
  have hfraction : ((whole ++ point ++ fraction).dropWhile (fun c => c != '.')).drop 1 =
      fraction := by
    rw [List.append_assoc, List.dropWhile_append_of_pos hnodot]
    rcases h.separator with ⟨hp, hf, _⟩ | ⟨hp, _⟩
    · rw [hp, hf]
      rfl
    · rw [hp]
      rfl
  simp only [spelled, hsign, hmantissa, hdrop, hwhole, hfraction]

/-! ## Parsing -/

theorem checkedI64_ok {message : String} {x y : ℤ} (h : checkedI64 message x = .ok y) :
    y = x ∧ -2 ^ 63 ≤ x ∧ x < 2 ^ 63 := by
  unfold checkedI64 at h
  split at h
  · rename_i hrange
    cases h
    exact ⟨rfl, hrange⟩
  · cases h

theorem exponentStep_foldlM {digits : List Char} (start : ℕ) {magnitude : ℤ}
    (h : digits.foldlM exponentStep (start : ℤ) = .ok magnitude) :
    magnitude = Nat.ofDigitChars 10 digits start := by
  induction digits generalizing start with
  | nil =>
    cases h
    rfl
  | cons c digits ih =>
    rw [List.foldlM_cons] at h
    obtain ⟨next, hstep, h⟩ := bind_eq_ok h
    obtain ⟨current, hmul, hadd⟩ := bind_eq_ok hstep
    rw [(checkedI64_ok hadd).1, (checkedI64_ok hmul).1] at h
    have hcast : (start : ℤ) * 10 + digit c = ((10 * start + digit c : ℕ) : ℤ) := by
      push_cast
      ring
    rw [hcast] at h
    rw [ih _ h, Nat.ofDigitChars_cons]
    rfl

theorem parseExponent_ok {text : List Char} {exponent : ℤ} (h : parseExponent text = .ok exponent) :
    exponent = (signOf text).1 * Nat.ofDigitChars 10 (signOf text).2 0 := by
  simp only [parseExponent] at h
  split at h
  · cases h
  · obtain ⟨magnitude, hfold, h⟩ := bind_eq_ok h
    rw [(checkedI64_ok h).1, exponentStep_foldlM 0 hfold]

/-- What absorbing trailing zeros does. -/
theorem absorbZeros_ok {digits digits' : List ℕ} {scale scale' : ℤ}
    (hscale : -2 ^ 63 ≤ scale ∧ scale < 2 ^ 63)
    (h : absorbZeros digits scale = .ok (digits', scale')) :
    digits'.head? ≠ some 0 ∧ (-2 ^ 63 ≤ scale' ∧ scale' < 2 ^ 63) ∧
      ∃ k : ℕ, digits = List.replicate k 0 ++ digits' ∧ scale' = scale + k := by
  induction digits generalizing scale with
  | nil =>
    cases h
    exact ⟨by simp, hscale, 0, rfl, by simp⟩
  | cons d rest ih =>
    rcases d with _ | d
    · rw [absorbZeros] at h
      obtain ⟨next, hnext, h⟩ := bind_eq_ok h
      obtain ⟨rfl, hrange⟩ := checkedI64_ok hnext
      obtain ⟨hhead, hbounds, k, rfl, rfl⟩ := ih hrange h
      refine ⟨hhead, hbounds, k + 1, rfl, ?_⟩
      push_cast
      ring
    · cases h
      exact ⟨by simp, hscale, 0, rfl, by simp⟩

namespace DecimalParts

/-- The rational number of the parts. -/
def value (p : DecimalParts) : ℚ := p.sign * magnitude p.digits * 10 ^ p.scale

/-- The parts of a nonzero literal. -/
structure Normal (p : DecimalParts) : Prop where
  sign : p.sign = 1 ∨ p.sign = -1
  nonempty : p.digits ≠ []
  small : ∀ d ∈ p.digits, d < 10
  first : p.digits.head? ≠ some 0
  last : p.digits.getLast? ≠ some 0
  scale : -2 ^ 63 ≤ p.scale ∧ p.scale < 2 ^ 63

/-- The parts of zero. -/
def zero : DecimalParts := ⟨0, [0], 0⟩

theorem zero_value : zero.value = 0 := by simp [zero, value]

end DecimalParts

theorem head_dropWhile (digits : List ℕ) : (digits.dropWhile (· == 0)).head? ≠ some 0 := by
  intro h
  have := List.head?_dropWhile_not (· == 0) digits
  rw [h] at this
  simp at this

theorem magnitude_dropWhile (digits : List ℕ) :
    magnitude (digits.dropWhile (· == 0)) = magnitude digits := by
  have hzeros : digits.takeWhile (· == 0) = List.replicate (digits.takeWhile (· == 0)).length 0 :=
    List.eq_replicate_iff.mpr ⟨rfl, fun d hd => by simpa using List.mem_takeWhile_imp hd⟩
  conv_rhs => rw [← List.takeWhile_append_dropWhile (p := (· == 0)) (l := digits)]
  rw [magnitude_append, hzeros, magnitude_replicate, Nat.zero_mul, Nat.zero_add]

theorem magnitude_zeros {digits : List ℕ} (h : digits.all (· == 0) = true) :
    magnitude digits = 0 := by
  have hzeros : digits = List.replicate digits.length 0 :=
    List.eq_replicate_iff.mpr ⟨rfl, fun d hd => by simpa using List.all_eq_true.mp h d hd⟩
  rw [hzeros, magnitude_replicate]

/-- Normalization keeps the value and returns a normal form. -/
theorem normalize_ok {sign exponent : ℤ} {digits : List ℕ} {fractionalDigits : ℕ} {p : DecimalParts}
    (hsign : sign = 1 ∨ sign = -1) (hsmall : ∀ d ∈ digits, d < 10)
    (h : normalize sign digits exponent fractionalDigits = .ok p) :
    (p = DecimalParts.zero ∨ p.Normal) ∧ p.digits.length ≤ max 1 digits.length ∧
      p.value = sign * magnitude digits * 10 ^ (exponent - fractionalDigits) := by
  unfold normalize at h
  split at h
  · rename_i hzeros
    cases h
    refine ⟨.inl rfl, le_max_left _ _, ?_⟩
    rw [magnitude_zeros hzeros]
    simp [DecimalParts.value]
  · rename_i hnonzero
    obtain ⟨scale, hscale, h⟩ := bind_eq_ok h
    obtain ⟨rfl, hrange⟩ := checkedI64_ok hscale
    obtain ⟨⟨reversed, scale'⟩, habsorb, h⟩ := bind_eq_ok h
    cases h
    obtain ⟨hlast, hbounds, k, hdigits, hscale'⟩ := absorbZeros_ok hrange habsorb
    set kept := digits.dropWhile (· == 0) with hkept
    have hsplit : kept = reversed.reverse ++ List.replicate k 0 := by
      rw [← List.reverse_reverse kept, hdigits, List.reverse_append, List.reverse_replicate]
    have hsub : ∀ d ∈ kept, d ∈ digits := fun d hd => (List.dropWhile_sublist _).subset hd
    have hhead : kept.head? ≠ some 0 := head_dropWhile digits
    have hne : kept ≠ [] := by
      intro hempty
      rw [hkept, List.dropWhile_eq_nil_iff] at hempty
      exact hnonzero (List.all_eq_true.mpr hempty)
    have hreversed : reversed.reverse ≠ [] := by
      intro hempty
      rw [hempty, List.nil_append] at hsplit
      rw [hsplit] at hhead hne
      cases k with
      | zero => exact hne rfl
      | succ k => exact hhead rfl
    have hfirst : reversed.reverse.head? = kept.head? := by
      rw [hsplit, List.head?_append]
      cases hcase : reversed.reverse with
      | nil => exact absurd hcase hreversed
      | cons d rest => rfl
    refine ⟨.inr ⟨hsign, hreversed, ?_, ?_, ?_, hbounds⟩, ?_, ?_⟩
    · intro d hd
      exact hsmall d (hsub d (by rw [hsplit]; exact List.mem_append_left _ hd))
    · rw [hfirst]
      exact hhead
    · rwa [List.getLast?_reverse]
    · have h1 : reversed.reverse.length ≤ kept.length := by
        rw [hsplit, List.length_append]
        omega
      have h2 : kept.length ≤ digits.length := (List.dropWhile_sublist _).length_le
      exact (h1.trans h2).trans (le_max_right _ _)
    · have hmagnitude : magnitude digits = magnitude reversed.reverse * 10 ^ k := by
        rw [← magnitude_dropWhile, ← hkept, hsplit, magnitude_append, magnitude_replicate,
          Nat.add_zero, List.length_replicate]
      simp only [DecimalParts.value, hmagnitude, hscale']
      rw [zpow_add₀ (by norm_num : (10 : ℚ) ≠ 0), zpow_natCast]
      push_cast
      ring

theorem signOf_sign (text : List Char) : (signOf text).1 = 1 ∨ (signOf text).1 = -1 := by
  unfold signOf
  split
  · exact .inl rfl
  · exact .inr rfl
  · exact .inl rfl

theorem signOf_length (text : List Char) : (signOf text).2.length ≤ text.length := by
  unfold signOf
  split <;> simp

/-- The parts that parsing hands to normalization. -/
theorem parse_split {text : List Char} {p : DecimalParts} (h : parse text = .ok p) :
    ∃ whole point fraction tail decimalIndex exponentIndex exponent,
      Split (signOf text).2 whole point fraction tail 0 decimalIndex exponentIndex ∧
      exponent = (signOf (tail.drop 1)).1 * Nat.ofDigitChars 10 (signOf (tail.drop 1)).2 0 ∧
      0 < (whole ++ fraction).length ∧
      normalize (signOf text).1 ((whole ++ fraction).map digit) exponent fraction.length =
        .ok p := by
  unfold parse at h
  split at h
  · cases h
  · simp only at h
    split at h
    · cases h
    · obtain ⟨⟨decimalIndex, exponentIndex⟩, hscan, h⟩ := bind_eq_ok h
      obtain ⟨whole, point, fraction, tail, hsplit⟩ := scan_split hscan
      have hends := hsplit.ends
      rw [Nat.zero_add] at hends
      have hend : exponentIndex.getD (signOf text).2.length =
          (whole ++ point ++ fraction).length := by
        rcases hends with ⟨ht, he⟩ | ⟨c, rest, ht, hc, he⟩
        · rw [he, Option.getD_none, hsplit.text, ht, List.append_nil]
        · rw [he, Option.getD_some]
      have htake : (signOf text).2.take (whole ++ point ++ fraction).length = whole ++ point ++
          fraction := by
        rw [hsplit.text, List.take_left' rfl]
      have hdigits : (whole ++ point ++ fraction).filter Char.isDigit = whole ++ fraction := by
        rw [List.filter_append, List.filter_append, List.filter_eq_self.mpr hsplit.whole_digits,
          List.filter_eq_self.mpr hsplit.fraction_digits]
        rcases hsplit.separator with ⟨hp, _⟩ | ⟨hp, _⟩
        · rw [hp, List.filter_nil, List.append_nil]
        · rw [hp]
          simp
      have hfraction : (decimalIndex.map fun index =>
          (whole ++ point ++ fraction).length - (index + 1)).getD 0 = fraction.length := by
        rcases hsplit.separator with ⟨hp, hf, hd⟩ | ⟨hp, hd⟩
        · rw [hd, hf]
          rfl
        · rw [hd, hp, Option.map_some, Option.getD_some, List.length_append, List.length_append]
          simp only [List.length_singleton]
          omega
      simp only [hend, htake, hdigits, hfraction] at h
      split at h
      · cases h
      · rename_i hcount
        obtain ⟨exponent, hexponent, h⟩ := bind_eq_ok h
        refine ⟨whole, point, fraction, tail, decimalIndex, exponentIndex, exponent, hsplit, ?_,
          Nat.pos_of_ne_zero hcount, h⟩
        rcases hends with ⟨ht, he⟩ | ⟨c, rest, ht, hc, he⟩
        · rw [he] at hexponent
          cases hexponent
          rw [ht]
          rfl
        · rw [he] at hexponent
          have hdrop : (signOf text).2.drop ((whole ++ point ++ fraction).length + 1) = rest := by
            rw [hsplit.text, ht, ← List.drop_drop, List.drop_left' rfl, List.drop_succ_cons,
              List.drop_zero]
          rw [exponentAt, hdrop] at hexponent
          rw [parseExponent_ok hexponent, ht]
          rfl

/-- Parsing returns a normal form with the value of the spelling. -/
theorem parse_ok {text : List Char} {p : DecimalParts} (h : parse text = .ok p) :
    (p = DecimalParts.zero ∨ p.Normal) ∧ p.digits.length ≤ text.length ∧
    p.value = spelled text := by
  obtain ⟨whole, point, fraction, tail, decimalIndex, exponentIndex, exponent, hsplit,
    hexponent, hcount, hnormalize⟩ := parse_split h
  have hsmall : ∀ d ∈ (whole ++ fraction).map digit, d < 10 := by
    intro d hd
    obtain ⟨c, hc, rfl⟩ := List.mem_map.mp hd
    exact digit_lt ((List.mem_append.mp hc).elim (hsplit.whole_digits c) (hsplit.fraction_digits c))
  obtain ⟨hform, hlength, hvalue⟩ := normalize_ok (signOf_sign text) hsmall hnormalize
  refine ⟨hform, ?_, ?_⟩
  · have hbody := signOf_length text
    rw [hsplit.text] at hbody
    simp only [List.length_map, List.length_append] at hlength hcount hbody
    omega
  · rw [hvalue, spelled_split Prod.mk.eta.symm hsplit, ← hexponent, List.map_append,
      magnitude_append, ofDigitChars_eq,
      ofDigitChars_eq, List.length_map, sub_eq_add_neg,
      zpow_add₀ (by norm_num : (10 : ℚ) ≠ 0), zpow_neg, zpow_natCast]
    have hpow : (10 : ℚ) ^ fraction.length ≠ 0 := by positivity
    push_cast
    rw [← mul_assoc, mul_right_comm _ ((10 : ℚ) ^ exponent), ← div_eq_mul_inv,
      mul_div_assoc, add_div, mul_div_cancel_right₀ _ hpow]

end Xcelerator.Core.DecimalLiteral
