import Mathlib
import Xcelerator.Certify.Records
import Xcelerator.Core.DecimalComparison

/-! # Canonical decimal spellings

The canonical spelling writes the digits of the normal form and its power of
ten. It reads back as the same parts unless the power is the lowest `i64`: the
parser accepts no exponent whose magnitude is `2 ^ 63`. -/

namespace Xcelerator.Core.DecimalLiteral
open Foundations.Machine
open Certify.Records (toList_toString_nat toList_toString_negSucc)

/-! ## Reading integers back -/

theorem isDigit_digitChar {d : ℕ} (h : d < 10) : d.digitChar.isDigit = true := by
  interval_cases d <;> rfl

theorem digit_digitChar {d : ℕ} (h : d < 10) : digit d.digitChar = d := by
  interval_cases d <;> rfl

theorem signOf_of_isDigit {c : Char} (h : c.isDigit = true) (rest : List Char) :
    signOf (c :: rest) = (1, c :: rest) := by
  have h1 := isDigit_ne h (x := '+') rfl
  have h2 := isDigit_ne h (x := '-') rfl
  unfold signOf
  split
  · rename_i heq
    exact absurd (List.cons.inj heq).1 h1
  · rename_i heq
    exact absurd (List.cons.inj heq).1 h2
  · rfl

/-- A nonempty list of digits has no sign. -/
theorem signOf_digits {digits : List Char} (hne : digits ≠ []) (h : ∀ c ∈ digits, c.isDigit = true)
    (tail : List Char) : signOf (digits ++ tail) = (1, digits ++ tail) := by
  cases digits with
  | nil => exact absurd rfl hne
  | cons c rest => exact signOf_of_isDigit (h c List.mem_cons_self) _

theorem toDigits_isDigit (n : ℕ) : ∀ c ∈ Nat.toDigits 10 n, c.isDigit = true :=
  fun _ hc => Nat.isDigit_of_mem_toDigits (by norm_num) (by norm_num) hc

theorem toString_chars (z : ℤ) : ∀ c ∈ (toString z).toList, c.isDigit = true ∨ c = '-' := by
  intro c hc
  cases z with
  | ofNat n =>
    have htext : (toString (Int.ofNat n)).toList = Nat.toDigits 10 n := toList_toString_nat n
    rw [htext] at hc
    exact .inl (toDigits_isDigit n c hc)
  | negSucc n =>
    rw [toList_toString_negSucc] at hc
    rcases List.mem_cons.mp hc with hc | hc
    · exact .inr hc
    · exact .inl (toDigits_isDigit (n + 1) c hc)

/-- The sign and the digits of a printed integer. -/
theorem signOf_toString (z : ℤ) :
    (signOf (toString z).toList).2 = Nat.toDigits 10 z.natAbs ∧
      (signOf (toString z).toList).1 * (z.natAbs : ℤ) = z := by
  cases z with
  | ofNat n =>
    have htext : (toString (Int.ofNat n)).toList = Nat.toDigits 10 n ++ [] := by
      rw [List.append_nil]
      exact toList_toString_nat n
    rw [htext, signOf_digits Nat.toDigits_ne_nil (toDigits_isDigit n)]
    simp
  | negSucc n =>
    rw [toList_toString_negSucc]
    refine ⟨rfl, ?_⟩
    change (-1 : ℤ) * ((n + 1 : ℕ) : ℤ) = Int.negSucc n
    rw [Int.negSucc_eq]
    push_cast
    ring

theorem le_ofDigitChars (digits : List Char) (start : ℕ) :
    start ≤ Nat.ofDigitChars 10 digits start := by
  rw [Nat.ofDigitChars_eq_ofDigitChars_zero]
  have := Nat.one_le_pow digits.length 10 (by norm_num)
  nlinarith

/-- The digits of an exponent below `2 ^ 63` are read without a refusal. -/
theorem exponentStep_reads {digits : List Char} (start : ℕ)
    (h : Nat.ofDigitChars 10 digits start < 2 ^ 63) :
    digits.foldlM exponentStep (start : ℤ) = .ok (Nat.ofDigitChars 10 digits start : ℤ) := by
  induction digits generalizing start with
  | nil => rfl
  | cons c digits ih =>
    rw [Nat.ofDigitChars_cons] at h ⊢
    have hstep : 10 * start + (c.toNat - '0'.toNat) < 2 ^ 63 :=
      lt_of_le_of_lt (le_ofDigitChars _ _) h
    have hcast : (start : ℤ) * 10 + digit c = ((10 * start + (c.toNat - '0'.toNat) : ℕ) : ℤ) := by
      rw [digit]
      push_cast
      ring
    have hmul : checkedI64 "decimal exponent is too large" ((start : ℤ) * 10) =
        .ok ((start : ℤ) * 10) :=
      if_pos (by omega)
    have hadd : checkedI64 "decimal exponent is too large" ((start : ℤ) * 10 + digit c) =
        .ok ((10 * start + (c.toNat - '0'.toNat) : ℕ) : ℤ) := by
      rw [hcast]
      exact if_pos (by omega)
    rw [List.foldlM_cons, exponentStep, hmul, ok_bind, hadd, ok_bind]
    exact ih _ h

theorem parseExponent_toString {z : ℤ} (h : z.natAbs < 2 ^ 63) :
    parseExponent (toString z).toList = .ok z := by
  obtain ⟨hdigits, hsign⟩ := signOf_toString z
  have hbound : Nat.ofDigitChars 10 (Nat.toDigits 10 z.natAbs) 0 < 2 ^ 63 := by
    rwa [Nat.ofDigitChars_ten_toDigits]
  have hread := exponentStep_reads 0 hbound
  rw [Nat.ofDigitChars_ten_toDigits] at hread
  have hvalid : ((Nat.toDigits 10 z.natAbs).isEmpty || !(Nat.toDigits 10 z.natAbs).all Char.isDigit)
      = false := by
    have hall : (Nat.toDigits 10 z.natAbs).all Char.isDigit = true :=
      List.all_eq_true.mpr (toDigits_isDigit _)
    simp [hall, Nat.toDigits_ne_nil]
  have hcheck : checkedI64 "decimal exponent is too large" z = .ok z := if_pos (by omega)
  simp only [parseExponent, hdigits, hvalid]
  rw [Nat.cast_zero] at hread
  rw [if_neg Bool.false_ne_true, hread, ok_bind, hsign, hcheck]

/-- An exponent that is read is below `2 ^ 63` in magnitude. -/
theorem natAbs_lt_of_parseExponent {z x : ℤ} (h : parseExponent (toString z).toList = .ok x) :
    z.natAbs < 2 ^ 63 := by
  obtain ⟨hdigits, hsign⟩ := signOf_toString z
  simp only [parseExponent, hdigits] at h
  split at h
  · cases h
  · obtain ⟨m, hfold, h⟩ := bind_eq_ok h
    have hm : m = z.natAbs := by
      rw [exponentStep_foldlM 0 hfold, Nat.ofDigitChars_ten_toDigits]
    have hlast : m < 2 ^ 63 := by
      cases hcase : Nat.toDigits 10 z.natAbs using List.reverseRecOn with
      | nil => exact absurd hcase Nat.toDigits_ne_nil
      | append_singleton front c =>
        rw [hcase, List.foldlM_append] at hfold
        obtain ⟨start, _, hstep⟩ := bind_eq_ok hfold
        rw [List.foldlM_cons] at hstep
        obtain ⟨m', hm', hnil⟩ := bind_eq_ok hstep
        cases hnil
        obtain ⟨current, _, hadd⟩ := bind_eq_ok hm'
        obtain ⟨rfl, _, hlt⟩ := checkedI64_ok hadd
        exact hlt
    omega

/-! ## The spelling of a normal form -/

namespace DecimalParts

/-- The exponent that the canonical spelling writes. -/
def exponentText (p : DecimalParts) : List Char :=
  if p.scale ≠ 0 then 'e' :: (toString p.scale).toList else []

def canonicalText (p : DecimalParts) : List Char :=
  (if p.sign < 0 then ['-'] else []) ++ p.digits.map Nat.digitChar ++ p.exponentText

theorem Normal.chars_isDigit {p : DecimalParts} (h : p.Normal) :
    ∀ c ∈ p.digits.map Nat.digitChar, c.isDigit = true := by
  intro c hc
  obtain ⟨d, hd, rfl⟩ := List.mem_map.mp hc
  exact isDigit_digitChar (h.small d hd)

theorem Normal.map_digit {p : DecimalParts} (h : p.Normal) :
    (p.digits.map Nat.digitChar).map digit = p.digits := by
  rw [List.map_map]
  conv_rhs => rw [← List.map_id p.digits]
  exact List.map_congr_left fun d hd => digit_digitChar (h.small d hd)

theorem Normal.signOf_canonicalText {p : DecimalParts} (h : p.Normal) :
    signOf p.canonicalText = (p.sign, p.digits.map Nat.digitChar ++ p.exponentText) := by
  rcases h.sign with hs | hs
  · rw [canonicalText, hs, if_neg (by norm_num), List.nil_append]
    exact signOf_digits (by simpa using h.nonempty) h.chars_isDigit _
  · rw [canonicalText, hs, if_pos (by norm_num)]
    rfl

theorem Normal.scan_canonicalText {p : DecimalParts} (h : p.Normal) :
    scan (p.digits.map Nat.digitChar ++ p.exponentText) 0 none =
      .ok (none, if p.scale ≠ 0 then some p.digits.length else none) := by
  have hskip : ∀ (ds tail : List Char) (cursor : ℕ), (∀ c ∈ ds, c.isDigit = true) →
      scan (ds ++ tail) cursor none = scan tail (cursor + ds.length) none := by
    intro ds
    induction ds with
    | nil => intro tail cursor _; rfl
    | cons c ds ih =>
      intro tail cursor hds
      rw [List.cons_append, scan, if_pos (hds c List.mem_cons_self),
        ih tail _ fun d hd => hds d (List.mem_cons_of_mem c hd), List.length_cons,
        Nat.add_right_comm, Nat.add_assoc]
  rw [hskip _ _ 0 h.chars_isDigit, exponentText]
  split
  · rw [scan, if_neg (by decide), if_neg (by decide), if_pos (.inl rfl), Nat.zero_add,
      List.length_map]
  · rfl

/-- The canonical spelling as whole digits and an exponent. -/
theorem Normal.split_canonicalText {p : DecimalParts} (h : p.Normal) :
    Split (p.digits.map Nat.digitChar ++ p.exponentText) (p.digits.map Nat.digitChar) []
    [] p.exponentText 0 none
      (if p.scale ≠ 0 then some p.digits.length else none) := by
  refine ⟨by simp, h.chars_isDigit, by simp, .inl ⟨rfl, rfl, rfl⟩, ?_⟩
  rw [exponentText]
  split
  · exact .inr ⟨'e', _, rfl, rfl, by simp⟩
  · exact .inl ⟨rfl, rfl⟩

/-- The canonical spelling has the value of the parts. -/
theorem Normal.spelled_canonicalText {p : DecimalParts} (h : p.Normal) :
    spelled p.canonicalText = p.value := by
  have hexponent : (signOf (p.exponentText.drop 1)).1 *
    (Nat.ofDigitChars 10 (signOf (p.exponentText.drop 1)).2 0 : ℤ) =
      p.scale := by
    rw [exponentText]
    split
    · obtain ⟨hdigits, hsign⟩ := signOf_toString p.scale
      rw [List.drop_succ_cons, List.drop_zero, hdigits, Nat.ofDigitChars_ten_toDigits, hsign]
    · rename_i hzero
      rw [not_not.mp hzero]
      rfl
  rw [spelled_split h.signOf_canonicalText h.split_canonicalText, hexponent, ofDigitChars_eq,
    h.map_digit, value]
  simp

theorem Normal.no_whitespace {p : DecimalParts} (h : p.Normal) :
    p.canonicalText.any isWhitespace = false := by
  have hdigit : ∀ c : Char, c.isDigit = true → isWhitespace c = false := by
    intro c hc
    simp only [Char.isDigit, Bool.and_eq_true, decide_eq_true_eq] at hc
    have h1 : 48 ≤ c.toNat := hc.1
    have h2 : c.toNat ≤ 57 := hc.2
    simp only [isWhitespace, Bool.or_eq_false_iff, Bool.and_eq_false_iff, decide_eq_false_iff_not,
      beq_eq_false_iff_ne]
    omega
  have hall : ∀ c ∈ p.canonicalText, c.isDigit = true ∨ c = '-' ∨ c = 'e' := by
    intro c hc
    rw [canonicalText] at hc
    rcases List.mem_append.mp hc with hc | hc
    · rcases List.mem_append.mp hc with hc | hc
      · split at hc
        · exact .inr (.inl (List.mem_singleton.mp hc))
        · cases hc
      · exact .inl (h.chars_isDigit c hc)
    · rw [exponentText] at hc
      split at hc
      · rcases List.mem_cons.mp hc with hc | hc
        · exact .inr (.inr hc)
        · exact (toString_chars p.scale c hc).imp_right .inl
      · cases hc
  rw [List.any_eq_false]
  intro c hc
  rcases hall c hc with h | rfl | rfl
  · rw [hdigit c h]
    exact Bool.false_ne_true
  · decide
  · decide

/-- A normal form is its own normalization. -/
theorem Normal.normalize {p : DecimalParts} (h : p.Normal) :
    DecimalLiteral.normalize p.sign p.digits p.scale 0 = .ok p := by
  have hkeep : p.digits.dropWhile (· == 0) = p.digits := by
    cases hdigits : p.digits with
    | nil => rfl
    | cons d rest =>
      have hd : d ≠ 0 := by
        have := h.first
        rw [hdigits] at this
        simpa using this
      rw [List.dropWhile_cons_of_neg (by simpa using hd)]
  have hnonzero : p.digits.all (· == 0) ≠ true := by
    intro hall
    have : p.digits.dropWhile (· == 0) = [] :=
      List.dropWhile_eq_nil_iff.mpr (List.all_eq_true.mp hall)
    rw [hkeep] at this
    exact h.nonempty this
  have hscale : checkedI64 "decimal scale is too large" (p.scale - (0 : ℕ)) = .ok p.scale := by
    rw [Nat.cast_zero, sub_zero]
    exact if_pos h.scale
  have habsorb : absorbZeros p.digits.reverse p.scale = .ok (p.digits.reverse, p.scale) := by
    have hlast := h.last
    rw [← List.head?_reverse] at hlast
    cases hreversed : p.digits.reverse with
    | nil => rfl
    | cons d rest =>
      rw [hreversed] at hlast
      rcases d with _ | d
      · exact absurd rfl hlast
      · rfl
  rw [DecimalLiteral.normalize, if_neg hnonzero, hscale, ok_bind, hkeep, habsorb, ok_bind]
  simp only [List.reverse_reverse]

/-- The canonical spelling reads back exactly when its exponent does. -/
theorem Normal.parse_canonicalText {p : DecimalParts} (h : p.Normal) :
    parse p.canonicalText = (do
      let exponent ← exponentAt (p.digits.map Nat.digitChar ++ p.exponentText)
        (if p.scale ≠ 0 then some p.digits.length else none)
      DecimalLiteral.normalize p.sign p.digits exponent 0) := by
  have hne : p.digits.map Nat.digitChar ≠ [] := by simpa using h.nonempty
  have htext : p.canonicalText.isEmpty = false := by
    simp [canonicalText, hne]
  have hbody : (p.digits.map Nat.digitChar ++ p.exponentText).isEmpty = false :=
    by simp [h.nonempty]
  have hend : (if p.scale ≠ 0 then some p.digits.length else none : Option ℕ).getD
      (p.digits.map Nat.digitChar ++ p.exponentText).length =
          (p.digits.map Nat.digitChar).length := by
    rw [exponentText]
    split <;> simp
  have hfilter : (p.digits.map Nat.digitChar).filter Char.isDigit = p.digits.map Nat.digitChar :=
    List.filter_eq_self.mpr h.chars_isDigit
  have hcount : (p.digits.map Nat.digitChar).length ≠ 0 := by simpa using h.nonempty
  simp only [parse, htext, h.no_whitespace, Bool.or_self, Bool.false_eq_true, if_false,
    h.signOf_canonicalText, hbody,
    h.scan_canonicalText, ok_bind, hend, List.take_left' rfl, hfilter, hcount, h.map_digit,
    Option.map_none, Option.getD_none]

/-- The lowest power of ten that a literal can have. -/
def lowestScale : ℤ := -2 ^ 63

theorem Normal.parse_canonicalText_ok {p : DecimalParts} (h : p.Normal)
    (hscale : p.scale ≠ lowestScale) :
    parse p.canonicalText = .ok p := by
  have hexponent : exponentAt (p.digits.map Nat.digitChar ++ p.exponentText)
      (if p.scale ≠ 0 then some p.digits.length else none) = .ok p.scale := by
    by_cases hzero : p.scale ≠ 0
    · have hdrop : (p.digits.map Nat.digitChar ++ p.exponentText).drop (p.digits.length + 1) =
          (toString p.scale).toList := by
        rw [exponentText, if_pos hzero, ← List.drop_drop, List.drop_left' (by simp),
          List.drop_succ_cons, List.drop_zero]
      have hrange := h.scale
      have hsmall : p.scale.natAbs < 2 ^ 63 := by
        unfold lowestScale at hscale
        omega
      rw [if_pos hzero, exponentAt, hdrop, parseExponent_toString hsmall]
    · rw [if_neg hzero, not_not.mp hzero]
      rfl
  rw [h.parse_canonicalText, hexponent, ok_bind, h.normalize]

theorem Normal.parse_canonicalText_refused {p q : DecimalParts} (h : p.Normal)
    (hscale : p.scale = lowestScale) :
    parse p.canonicalText ≠ .ok q := by
  intro hparse
  have hzero : p.scale ≠ 0 := by
    rw [hscale]
    decide
  have hdrop : (p.digits.map Nat.digitChar ++ p.exponentText).drop (p.digits.length + 1) =
      (toString p.scale).toList := by
    rw [exponentText, if_pos hzero, ← List.drop_drop, List.drop_left' (by simp),
      List.drop_succ_cons, List.drop_zero]
  rw [h.parse_canonicalText, if_pos hzero, exponentAt, hdrop] at hparse
  obtain ⟨x, hx, _⟩ := bind_eq_ok hparse
  have hsmall := natAbs_lt_of_parseExponent hx
  rw [hscale, lowestScale] at hsmall
  exact absurd hsmall (by decide)

/-! ## Normal forms are unique -/

/-- The last digit of a normal form is its residue modulo ten. -/
theorem Normal.not_dvd {p : DecimalParts} (h : p.Normal) : ¬ 10 ∣ magnitude p.digits := by
  have hlast := h.last
  have hsmall : ∀ d ∈ p.digits.reverse, d < 10 := fun d hd => h.small d (List.mem_reverse.mp hd)
  rw [← List.head?_reverse] at hlast
  rw [magnitude]
  cases hreversed : p.digits.reverse with
  | nil => exact absurd (List.reverse_eq_nil_iff.mp hreversed) h.nonempty
  | cons d rest =>
    rw [hreversed] at hlast hsmall
    have hd := hsmall d List.mem_cons_self
    have hd0 : d ≠ 0 := by simpa using hlast
    rw [Nat.ofDigits_cons]
    omega

/-- Digits without a leading zero are determined by their number. -/
theorem Normal.digits_eq {p : DecimalParts} (h : p.Normal) :
    p.digits.reverse = Nat.digits 10 (magnitude p.digits) := by
  refine (Nat.digits_ofDigits 10 (by norm_num) _ (fun d hd => h.small d (List.mem_reverse.mp hd))
    fun hne => ?_).symm
  have hfirst := h.first
  rw [List.getLast_reverse]
  intro hzero
  rw [List.head?_eq_some_head h.nonempty] at hfirst
  exact hfirst (congrArg some hzero)

/-- A multiple of a power of ten, prime to ten, has one scale and one factor. -/
theorem scaled_unique {m n : ℕ} {s t : ℤ} (hm : ¬ 10 ∣ m) (hn : ¬ 10 ∣ n)
    (h : (m : ℚ) * 10 ^ s = n * 10 ^ t) : s = t ∧ m = n := by
  have hstep : ∀ {a b : ℕ} {x y : ℤ}, ¬ 10 ∣ a → (a : ℚ) * 10 ^ x = b * 10 ^ y → ¬ x < y := by
    intro a b x y ha hab hxy
    obtain ⟨k, hk⟩ := Int.le.dest hxy
    have hsplit : (10 : ℚ) ^ y = 10 ^ x * 10 ^ (k + 1) := by
      rw [← hk, add_assoc, zpow_add₀ (by norm_num : (10 : ℚ) ≠ 0), Int.add_comm 1 (k : ℤ)]
      norm_cast
    have hpow : (10 : ℚ) ^ x ≠ 0 := by positivity
    have heq : (a : ℚ) = b * 10 ^ (k + 1) := by
      apply mul_right_cancel₀ hpow
      rw [hab, hsplit]
      ring
    have hnat : a = b * 10 ^ (k + 1) := by exact_mod_cast heq
    exact ha ⟨b * 10 ^ k, by rw [hnat, pow_succ]; ring⟩
  have hst : s = t := by
    rcases lt_trichotomy s t with hlt | heq | hgt
    · exact absurd hlt (hstep hm h)
    · exact heq
    · exact absurd hgt (hstep hn h.symm)
  subst hst
  have hpow : (10 : ℚ) ^ s ≠ 0 := by positivity
  exact ⟨rfl, by exact_mod_cast mul_right_cancel₀ hpow h⟩

theorem Normal.value_ne_zero {p : DecimalParts} (h : p.Normal) : p.value ≠ 0 := by
  have hpos := h.size_pos
  rw [value_eq]
  rcases h.sign with hs | hs <;> simp [hs, hpos.ne']

theorem Normal.unique {p q : DecimalParts} (hp : p.Normal) (hq : q.Normal) (h : p.value = q.value) :
    p = q := by
  have hsizes : p.size = q.size ∧ p.sign = q.sign := by
    have h1 := hp.size_pos
    have h2 := hq.size_pos
    rw [value_eq, value_eq] at h
    rcases hp.sign with hs | hs <;> rcases hq.sign with hs' | hs' <;> rw [hs, hs'] at h
      <;> push_cast at h
    · exact ⟨by linarith, by rw [hs, hs']⟩
    · linarith
    · linarith
    · exact ⟨by linarith, by rw [hs, hs']⟩
  obtain ⟨hscale, hmagnitude⟩ := scaled_unique hp.not_dvd hq.not_dvd hsizes.1
  have hdigits : p.digits = q.digits := by
    apply List.reverse_injective
    rw [hp.digits_eq, hq.digits_eq, hmagnitude]
  cases p
  cases q
  simp only at hdigits hscale hsizes
  rw [hdigits, hscale, hsizes.2]

end DecimalParts

/-! ## Canonical literals -/

theorem canonical_zero {a : DecimalLiteral} (h : parse a.text = .ok DecimalParts.zero) :
    a.canonical = .ok ⟨['0']⟩ := by
  rw [canonical, h, ok_bind]
  rfl

theorem canonical_normal {a : DecimalLiteral} {p : DecimalParts} (h : parse a.text = .ok p)
    (hp : p.Normal) :
    a.canonical = .ok ⟨p.canonicalText⟩ := by
  have hsign : p.sign ≠ 0 := by rcases hp.sign with hs | hs <;> simp [hs]
  rw [canonical, h, ok_bind, if_neg hsign, DecimalParts.canonicalText, DecimalParts.exponentText]
  by_cases hscale : p.scale ≠ 0
  · simp only [if_pos hscale]
  · simp only [if_neg hscale, List.append_nil]

/-- What is asked of a canonical spelling: it is accepted again, keeps the value and is its own
canonical spelling. -/
def Canonicalizes (a : DecimalLiteral) : Prop :=
  ∃ c, a.canonical = .ok c ∧ validateStr c.text = .ok () ∧ c.value = a.value ∧ c.canonical = .ok c

/-- The value is a multiple of the lowest power of ten by an integer that ten does not divide. -/
def AtLowestScale (value : ℚ) : Prop :=
  ∃ k : ℤ, ¬ 10 ∣ k ∧ value = k * 10 ^ DecimalParts.lowestScale

theorem validateStr_of_parse {text : List Char} {p : DecimalParts} (h : parse text = .ok p) :
    validateStr text = .ok () := by
  rw [validateStr, h]
  rfl

theorem DecimalParts.Normal.atLowestScale_iff {p : DecimalParts} (h : p.Normal) :
    AtLowestScale p.value ↔ p.scale = lowestScale := by
  constructor
  · rintro ⟨k, hk, hvalue⟩
    have hk' : ¬ 10 ∣ k.natAbs := fun hdvd => hk (Int.ofNat_dvd_left.mpr hdvd)
    have habs : (magnitude p.digits : ℚ) * 10 ^ p.scale = (k.natAbs : ℚ) * 10 ^ lowestScale := by
      have hpow : (0 : ℚ) < 10 ^ lowestScale := zpow_pos (by norm_num) _
      have hsize : |p.value| = p.size := by
        rw [value_eq, abs_mul, abs_of_pos h.size_pos]
        rcases h.sign with hs | hs <;> simp [hs]
      rw [← size, ← hsize, hvalue, abs_mul, abs_of_pos hpow, Nat.cast_natAbs, Int.cast_abs]
    exact (scaled_unique h.not_dvd hk' habs).1
  · intro hscale
    refine ⟨p.sign * magnitude p.digits, ?_, ?_⟩
    · intro hdvd
      refine h.not_dvd ?_
      have : (p.sign * magnitude p.digits : ℤ).natAbs = magnitude p.digits := by
        rcases h.sign with hs | hs <;> simp [hs]
      have hnat := Int.natAbs_dvd_natAbs.mpr hdvd
      rwa [this] at hnat
    · rw [value, hscale]
      push_cast
      rfl

theorem canonicalizes_iff {a : DecimalLiteral} (ha : validateStr a.text = .ok ()) :
    a.Canonicalizes ↔ ¬ AtLowestScale a.value := by
  obtain ⟨p, hp⟩ := validateStr_ok ha
  obtain ⟨hform, _, hvalue⟩ := parse_ok hp
  rw [value, ← hvalue]
  rcases hform with rfl | hnormal
  · have hparse : parse ['0'] = .ok DecimalParts.zero := by decide
    have hleft : a.Canonicalizes := by
      refine ⟨⟨['0']⟩, canonical_zero hp, validateStr_of_parse hparse, ?_, canonical_zero hparse⟩
      rw [value, value, ← hvalue, ← (parse_ok hparse).2.2]
    refine iff_of_true hleft ?_
    rintro ⟨k, hk, hzero⟩
    have hpow : (10 : ℚ) ^ DecimalParts.lowestScale ≠ 0 := zpow_ne_zero _ (by norm_num)
    rw [DecimalParts.zero_value] at hzero
    have hk0 : (k : ℚ) = 0 := (mul_eq_zero.mp hzero.symm).resolve_right hpow
    exact hk (by rw [Int.cast_eq_zero.mp hk0]; exact dvd_zero 10)
  · rw [hnormal.atLowestScale_iff]
    constructor
    · rintro ⟨c, hc, hvalid, _⟩ hscale
      rw [canonical_normal hp hnormal] at hc
      cases hc
      obtain ⟨q, hq⟩ := validateStr_ok hvalid
      exact hnormal.parse_canonicalText_refused hscale hq
    · intro hscale
      have hparse := hnormal.parse_canonicalText_ok hscale
      refine ⟨⟨p.canonicalText⟩, canonical_normal hp hnormal, validateStr_of_parse hparse, ?_,
        canonical_normal hparse hnormal⟩
      rw [value, value, hnormal.spelled_canonicalText, hvalue]

/-- The canonical spelling of an accepted literal always has its value. -/
theorem canonical_value {a : DecimalLiteral} (ha : validateStr a.text = .ok ()) :
    ∃ c, a.canonical = .ok c ∧ c.value = a.value := by
  obtain ⟨p, hp⟩ := validateStr_ok ha
  obtain ⟨hform, _, hvalue⟩ := parse_ok hp
  rcases hform with rfl | hnormal
  · have hparse : parse ['0'] = .ok DecimalParts.zero := by decide
    refine ⟨⟨['0']⟩, canonical_zero hp, ?_⟩
    rw [value, value, ← hvalue, ← (parse_ok hparse).2.2]
  · refine ⟨⟨p.canonicalText⟩, canonical_normal hp hnormal, ?_⟩
    rw [value, value, hnormal.spelled_canonicalText, hvalue]

/-- Equal values have equal parts. -/
theorem parts_unique {a b : DecimalLiteral} {p q : DecimalParts} (hp : parse a.text = .ok p)
    (hq : parse b.text = .ok q) (h : a.value = b.value) : p = q := by
  obtain ⟨hpform, _, hpvalue⟩ := parse_ok hp
  obtain ⟨hqform, _, hqvalue⟩ := parse_ok hq
  have hvalues : p.value = q.value := by rw [hpvalue, hqvalue]; exact h
  rcases hpform with rfl | hpnormal <;> rcases hqform with rfl | hqnormal
  · rfl
  · exact absurd (hvalues.symm.trans DecimalParts.zero_value) hqnormal.value_ne_zero
  · exact absurd (hvalues.trans DecimalParts.zero_value) hpnormal.value_ne_zero
  · exact hpnormal.unique hqnormal hvalues

/-- **When a canonical spelling is a literal of the same value.** Spellings are equal exactly for
equal values; a spelling is accepted again unless its power of ten is the lowest `i64`. -/
theorem canonical_round_trip (a b : DecimalLiteral) (ha : validateStr a.text = .ok ())
    (hb : validateStr b.text = .ok ()) :
    (a.Canonicalizes ↔ ¬ AtLowestScale a.value) ∧
      ∃ c d, a.canonical = .ok c ∧ b.canonical = .ok d ∧ (c.text = d.text ↔ a.value = b.value) := by
  refine ⟨canonicalizes_iff ha, ?_⟩
  obtain ⟨c, hc, hcvalue⟩ := canonical_value ha
  obtain ⟨d, hd, hdvalue⟩ := canonical_value hb
  refine ⟨c, d, hc, hd, ?_, ?_⟩
  · intro htext
    rw [← hcvalue, ← hdvalue, value, value, htext]
  · intro hvalues
    obtain ⟨p, hp⟩ := validateStr_ok ha
    obtain ⟨q, hq⟩ := validateStr_ok hb
    have hsame : a.canonical = b.canonical :=
      by rw [canonical, canonical, hp, hq, parts_unique hp hq hvalues]
    rw [← hsame, hc] at hd
    cases hd
    rfl

/-- `0.1e-9223372036854775807` is accepted and its canonical spelling `1e-9223372036854775808` is
not. -/
theorem canonical_spelling_refused :
    validateStr "0.1e-9223372036854775807".toList = .ok () ∧
    DecimalLiteral.canonical ⟨"0.1e-9223372036854775807".toList⟩ =
      .ok ⟨"1e-9223372036854775808".toList⟩ ∧
    validateStr "1e-9223372036854775808".toList = .error "decimal exponent is too large" ∧
    ¬ Canonicalizes ⟨"0.1e-9223372036854775807".toList⟩ := by
  have hcanonical : DecimalLiteral.canonical ⟨"0.1e-9223372036854775807".toList⟩ =
      .ok ⟨"1e-9223372036854775808".toList⟩ := by decide +kernel
  have hrefused : validateStr "1e-9223372036854775808".toList =
      .error "decimal exponent is too large" := by
    decide +kernel
  refine ⟨by decide +kernel, hcanonical, hrefused, ?_⟩
  rintro ⟨c, hc, hvalid, _⟩
  rw [hcanonical] at hc
  cases hc
  rw [hrefused] at hvalid
  cases hvalid

/-- The two directions at `1.50`, and the spellings of `1.50` and `15e-1`. -/
theorem canonical_round_trip_sample :
    (Canonicalizes ⟨['1', '.', '5', '0']⟩ ↔ ¬ AtLowestScale (value ⟨['1', '.', '5', '0']⟩)) ∧
    ∃ c d, DecimalLiteral.canonical ⟨['1', '.', '5', '0']⟩ = .ok c ∧
      DecimalLiteral.canonical ⟨['1', '5', 'e', '-', '1']⟩ = .ok d ∧
      (c.text = d.text ↔ value ⟨['1', '.', '5', '0']⟩ = value ⟨['1', '5', 'e', '-', '1']⟩) :=
  canonical_round_trip _ _ (by decide) (by decide)

end Xcelerator.Core.DecimalLiteral
