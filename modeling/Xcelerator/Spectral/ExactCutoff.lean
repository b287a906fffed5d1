import Mathlib
import Xcelerator.Core.DecimalCanonical

/-! # Exact cutoffs

A cutoff is an integer, an exact decimal or a quotient of integers, and the
prime cutoff is its floor. The printed form is the reduced quotient, which can
be longer than the literals that are read. -/

namespace Xcelerator.Spectral
open Xcelerator.Core.DecimalLiteral (isWhitespace isExponentMark)
open Xcelerator.Foundations.Machine (Fault Refuses bind_eq_ok)
open Xcelerator.Foundations

structure ExactCutoff where
  value : ℚ
  primeCutoff : Nat
deriving DecidableEq

namespace ExactCutoff

/-- An error of the code, an exponent that is not an `i32`, or a machine step that would panic. -/
inductive Failure where
  | invalid (message : String)
  | exponent
  | fault (fault : Fault)
deriving DecidableEq

abbrev Outcome := Except Failure

def bail {α : Type} (message : String) : Outcome α := .error (.invalid message)

def refuse (condition : Prop) [Decidable condition] (message : String) : Outcome Unit :=
  if condition then bail message else .ok ()

/-! ## Reading -/

def trim (text : List Char) : List Char :=
  ((text.dropWhile isWhitespace).reverse.dropWhile isWhitespace).reverse

/-- `str::len`, in bytes. -/
def byteLength (text : List Char) : Nat := (text.map Char.utf8Size).sum

def isAscii (text : List Char) : Bool := text.all fun c => c.toNat < 128

def stripPlus : List Char → List Char
  | '+' :: rest => rest
  | text => text

def splitOnce (separator : Char) (text : List Char) : Option (List Char × List Char) :=
  if separator ∈ text then
    some (text.takeWhile (· ≠ separator), (text.dropWhile (· ≠ separator)).drop 1)
  else none

def number (digits : List Char) : Nat := Nat.ofDigitChars 10 digits 0

def allDigits (text : List Char) : Bool := text.all Char.isDigit

/-- The `i32` values that `str::parse` reads. -/
def isI32 (x : Int) : Bool := -2 ^ 31 ≤ x && x < 2 ^ 31

def parseSigned (sign : Int) (digits : List Char) : Outcome Int :=
  if digits ≠ [] ∧ allDigits digits ∧ isI32 (sign * number digits) then .ok (sign * number digits)
  else .error .exponent

/-- `str::parse::<i32>`. -/
def parseI32 : List Char → Outcome Int
  | '+' :: digits => parseSigned 1 digits
  | '-' :: digits => parseSigned (-1) digits
  | digits => parseSigned 1 digits

def parseRatio (numerator denominator : List Char) : Outcome ℚ := do
  refuse (numerator = [] ∨ denominator = [] ∨ !allDigits numerator ∨ !allDigits denominator)
    "invalid rational cutoff"
  refuse (number denominator = 0) "cutoff denominator must be positive"
  return mkRat (number numerator) (number denominator)

def exponentOf : List Char → Outcome Int
  | [] => .ok 0
  | _ :: tail => parseI32 (tail.takeWhile fun c => !isExponentMark c)

def i32TryFrom (x : Int) : Outcome Int :=
  if isI32 x then .ok x else bail "out of range integral type conversion attempted"

/-- A checked `i32` step. -/
def i32 (x : Int) : Outcome Int := if isI32 x then .ok x else .error (.fault .overflow)

def scaled (numerator : Nat) (scale : Int) : ℚ :=
  if 0 ≤ scale then mkRat numerator (10 ^ scale.toNat) else mkRat (numerator * 10 ^ scale.natAbs) 1

def parseDecimal (literal : List Char) : Outcome ℚ := do
  let mantissa := literal.takeWhile fun c => !isExponentMark c
  let marked := literal.dropWhile fun c => !isExponentMark c
  let exponent ← exponentOf marked
  refuse ((marked.drop 1).any isExponentMark ∨ exponent.natAbs > 4096)
    "invalid or excessive cutoff exponent"
  let parts := (splitOnce '.' mantissa).getD (mantissa, [])
  refuse (parts.1 = [] ∧ parts.2 = []) "empty cutoff mantissa"
  refuse (!allDigits (parts.1 ++ parts.2)) "cutoff mantissa must be a nonnegative decimal"
  let length ← i32TryFrom parts.2.length
  let scale ← i32 (length - exponent)
  return scaled (number (parts.1 ++ parts.2)) scale

/-- The integers that `to_u64` returns. -/
def isU64 (x : Int) : Bool := 0 ≤ x && x < 2 ^ 64

def significantBits (n : Nat) : Nat := if n = 0 then 0 else n.log2 + 1

def fromRational (value : ℚ) : Outcome ExactCutoff := do
  refuse (significantBits value.num.natAbs > 1048576 ∨ significantBits value.den > 1048576)
    "exact cutoff numerator or denominator exceeds the rational bit budget"
  refuse (value ≤ 1) "CCM cutoff must be greater than one"
  refuse (¬isU64 (value.num / value.den)) "cutoff floor exceeds u64"
  return ⟨value, (value.num / value.den).toNat⟩

def parseValue (literal : List Char) : Outcome ℚ :=
  match splitOnce '/' literal with
  | some (numerator, denominator) => parseRatio numerator denominator
  | none => parseDecimal literal

def parse (text : List Char) : Outcome ExactCutoff := do
  let literal := trim text
  refuse (literal = [] ∨ byteLength literal > 4096 ∨ !isAscii literal)
    "cutoff literal must contain 1..4096 ASCII characters"
  let value ← parseValue (stripPlus literal)
  fromRational value

def renderInt (z : Int) : List Char :=
  if z < 0 then '-' :: Nat.toDigits 10 z.natAbs else Nat.toDigits 10 z.natAbs

def canonical (cutoff : ExactCutoff) : List Char :=
  renderInt cutoff.value.num ++ '/' :: renderInt cutoff.value.den

/-! ## What a literal denotes -/

def IsDigits (text : List Char) : Prop := text ≠ [] ∧ ∀ c ∈ text, c.isDigit = true

/-- An exponent as written: a mark, an optional sign and digits. -/
inductive DenotesExponent : List Char → Int → Prop where
  | absent : DenotesExponent [] 0
  | unsigned (mark : Char) (digits : List Char) (hmark : isExponentMark mark = true)
      (h : IsDigits digits) :
      DenotesExponent (mark :: digits) (number digits)
  | plus (mark : Char) (digits : List Char) (hmark : isExponentMark mark = true)
      (h : IsDigits digits) :
      DenotesExponent (mark :: '+' :: digits) (number digits)
  | minus (mark : Char) (digits : List Char) (hmark : isExponentMark mark = true)
      (h : IsDigits digits) :
      DenotesExponent (mark :: '-' :: digits) (-(number digits : Int))

/-- The literals, surrounding space and a leading plus apart, with the rational each stands for. -/
inductive Denotes : List Char → ℚ → Prop where
  | ratio (numerator denominator : List Char) (hn : IsDigits numerator) (hd : IsDigits denominator)
      (hpos : 0 < number denominator) :
      Denotes (numerator ++ '/' :: denominator) (number numerator / number denominator)
  | decimal (whole point fraction mark : List Char) (exponent : Int)
      (hpoint : point = ['.'] ∨ point = [] ∧ fraction = [])
      (hdigits : IsDigits (whole ++ fraction)) (hexponent : DenotesExponent mark exponent) :
      Denotes (whole ++ point ++ fraction ++ mark)
        ((number whole + number fraction / 10 ^ fraction.length) * 10 ^ exponent)

/-! ## Reading is exact -/

theorem refuse_ok {condition : Prop} [Decidable condition] {message : String} {u : Unit}
    (h : refuse condition message = .ok u) : ¬condition := by
  intro hc
  rw [refuse, if_pos hc] at h
  cases h

theorem splitOnce_some {separator : Char} {text left right : List Char}
    (h : splitOnce separator text = some (left, right)) :
    text = left ++ separator :: right ∧ separator ∉ left := by
  rw [splitOnce] at h
  split at h
  · rename_i hmem
    obtain ⟨rfl, rfl⟩ := Prod.mk.inj (Option.some.inj h)
    have hdrop : text.dropWhile (· ≠ separator) =
        separator :: (text.dropWhile (· ≠ separator)).drop 1 := by
      cases hrest : text.dropWhile (· ≠ separator) with
      | nil =>
        rw [List.dropWhile_eq_nil_iff] at hrest
        simpa using hrest separator hmem
      | cons c rest =>
        have hhead := List.head_dropWhile_not (fun c => decide (c ≠ separator)) (l := text)
          (by rw [hrest]; simp)
        simp only [hrest, List.head_cons] at hhead
        have hc : c = separator := by simpa using hhead
        rw [hc]
        rfl
    refine ⟨?_, fun hleft => by simpa using List.mem_takeWhile_imp hleft⟩
    calc text = text.takeWhile (· ≠ separator) ++ text.dropWhile (· ≠ separator) :=
      List.takeWhile_append_dropWhile.symm
      _ = _ := by rw [hdrop]; rfl
  · cases h

theorem splitOnce_append {separator : Char} {left : List Char} (right : List Char)
    (h : separator ∉ left) :
    splitOnce separator (left ++ separator :: right) = some (left, right) := by
  have hall : ∀ c ∈ left, (fun c => decide (c ≠ separator)) c = true := fun c hc => by
    simp only [decide_eq_true_eq]
    exact fun heq => h (heq ▸ hc)
  rw [splitOnce, if_pos (by simp), List.takeWhile_append_of_pos hall,
    List.dropWhile_append_of_pos hall,
    List.takeWhile_cons_of_neg (by simp), List.dropWhile_cons_of_neg (by simp)]
  simp

theorem allDigits_iff {text : List Char} : allDigits text = true ↔ ∀ c ∈ text, c.isDigit = true :=
  List.all_eq_true

theorem parseSigned_ok {sign exponent : Int} {digits : List Char}
    (h : parseSigned sign digits = .ok exponent) :
    IsDigits digits ∧ exponent = sign * number digits := by
  rw [parseSigned] at h
  split at h
  · rename_i hread
    exact ⟨⟨hread.1, allDigits_iff.mp hread.2.1⟩, (Except.ok.inj h).symm⟩
  · cases h

theorem parseI32_ok {text : List Char} {exponent : Int} (h : parseI32 text = .ok exponent)
    (mark : Char)
    (hmark : isExponentMark mark = true) : DenotesExponent (mark :: text) exponent := by
  unfold parseI32 at h
  split at h
  · obtain ⟨hdigits, rfl⟩ := parseSigned_ok h
    rw [one_mul]
    exact .plus mark _ hmark hdigits
  · obtain ⟨hdigits, rfl⟩ := parseSigned_ok h
    rw [neg_one_mul]
    exact .minus mark _ hmark hdigits
  · obtain ⟨hdigits, rfl⟩ := parseSigned_ok h
    rw [one_mul]
    exact .unsigned mark _ hmark hdigits

theorem exponentOf_ok {literal : List Char} {exponent : Int}
    (h : exponentOf (literal.dropWhile fun c => !isExponentMark c) = .ok exponent)
    (hsingle : ((literal.dropWhile fun c => !isExponentMark c).drop 1).any isExponentMark = false) :
    DenotesExponent (literal.dropWhile fun c => !isExponentMark c) exponent := by
  cases hrest : literal.dropWhile fun c => !isExponentMark c with
  | nil =>
    rw [hrest] at h
    cases h
    exact .absent
  | cons mark tail =>
    have hmark : isExponentMark mark = true := by
      have hhead := List.head_dropWhile_not (fun c => !isExponentMark c) (l := literal)
        (by rw [hrest]; simp)
      simp only [hrest, List.head_cons] at hhead
      simpa using hhead
    rw [hrest] at h hsingle
    rw [List.drop_succ_cons, List.drop_zero, List.any_eq_false] at hsingle
    have htail : tail.takeWhile (fun c => !isExponentMark c) = tail :=
      List.takeWhile_eq_self_iff.mpr fun c hc => by simpa using hsingle c hc
    rw [exponentOf, htail] at h
    exact parseI32_ok h mark hmark

theorem i32TryFrom_ok {x y : Int} (h : i32TryFrom x = .ok y) : y = x := by
  rw [i32TryFrom] at h
  split at h
  · exact (Except.ok.inj h).symm
  · cases h

theorem i32_ok {x y : Int} (h : i32 x = .ok y) : y = x := by
  rw [i32] at h
  split at h
  · exact (Except.ok.inj h).symm
  · cases h

theorem number_append (whole fraction : List Char) :
    number (whole ++ fraction) = number whole * 10 ^ fraction.length + number fraction := by
  rw [number, number, number, Nat.ofDigitChars_append,
    Nat.ofDigitChars_eq_ofDigitChars_zero, mul_comm]

/-- Both signs of the scale give the digits over the same power of ten. -/
theorem scaled_eq (numerator : Nat) (scale : Int) :
    scaled numerator scale = numerator / (10 : ℚ) ^ scale := by
  rw [scaled]
  split
  · rename_i hscale
    obtain ⟨k, rfl⟩ := Int.eq_ofNat_of_zero_le hscale
    rw [Rat.mkRat_eq_div]
    simp
  · rename_i hscale
    obtain ⟨k, hk⟩ := Int.exists_eq_neg_ofNat (not_le.mp hscale).le
    rw [Rat.mkRat_eq_div, hk]
    simp [zpow_neg]

theorem parseDecimal_ok {literal : List Char} {value : ℚ} (h : parseDecimal literal = .ok value) :
    Denotes literal value := by
  obtain ⟨exponent, hexponent, h⟩ := bind_eq_ok h
  obtain ⟨_, hmarks, h⟩ := bind_eq_ok h
  have hmarks := refuse_ok hmarks
  rw [not_or] at hmarks
  have hsingle : ((literal.dropWhile fun c => !isExponentMark c).drop 1).any isExponentMark =
      false := by
    simpa using hmarks.1
  have hdenotes := exponentOf_ok hexponent hsingle
  generalize hmantissa : literal.takeWhile (fun c => !isExponentMark c) = mantissa at h
  have hliteral : literal = mantissa ++ literal.dropWhile fun c => !isExponentMark c := by
    rw [← hmantissa, List.takeWhile_append_dropWhile]
  obtain ⟨_, hempty, h⟩ := bind_eq_ok h
  obtain ⟨_, hdigits, h⟩ := bind_eq_ok h
  have hempty := refuse_ok hempty
  have hdigits := refuse_ok hdigits
  generalize hsplit : (splitOnce '.' mantissa).getD (mantissa, []) = parts at h hempty hdigits
  obtain ⟨length, hlength, h⟩ := bind_eq_ok h
  obtain ⟨scale, hscale, h⟩ := bind_eq_ok h
  have hlength := i32TryFrom_ok hlength
  have hscale := i32_ok hscale
  have hall : IsDigits (parts.1 ++ parts.2) := by
    refine ⟨fun hnil => hempty (List.append_eq_nil_iff.mp hnil),
      allDigits_iff.mp (by simpa using hdigits)⟩
  have hvalue : value = (number parts.1 + number parts.2 / 10 ^ parts.2.length) *
      10 ^ exponent := by
    have hten : (10 : ℚ) ≠ 0 := by norm_num
    rw [← Except.ok.inj h, scaled_eq, number_append, hscale, hlength, zpow_sub₀ hten, zpow_natCast]
    push_cast
    field_simp
  rw [hliteral, hvalue]
  cases hpoint : splitOnce '.' mantissa with
  | none =>
    rw [hpoint] at hsplit
    subst hsplit
    have hdecimal := Denotes.decimal mantissa [] [] _ exponent (.inr ⟨rfl, rfl⟩) hall hdenotes
    simpa using hdecimal
  | some split =>
    rw [hpoint] at hsplit
    subst hsplit
    obtain ⟨hmantissa', -⟩ :=
      splitOnce_some (show splitOnce '.' mantissa = some (split.1, split.2) from hpoint)
    have hdecimal := Denotes.decimal split.1 ['.'] split.2 _ exponent (.inl rfl) hall hdenotes
    rw [hmantissa']
    simpa using hdecimal

theorem parseRatio_ok {numerator denominator : List Char} {value : ℚ}
    (h : parseRatio numerator denominator = .ok value) :
    Denotes (numerator ++ '/' :: denominator) value := by
  obtain ⟨_, hdigits, h⟩ := bind_eq_ok h
  obtain ⟨_, hzero, h⟩ := bind_eq_ok h
  have hdigits := refuse_ok hdigits
  have hzero := refuse_ok hzero
  simp only [not_or, Bool.not_eq_true', Bool.not_eq_false] at hdigits
  obtain ⟨hn, hd, hnumerator, hdenominator⟩ := hdigits
  rw [← Except.ok.inj h, Rat.mkRat_eq_div, Int.cast_natCast]
  exact .ratio numerator denominator ⟨hn, allDigits_iff.mp hnumerator⟩
    ⟨hd, allDigits_iff.mp hdenominator⟩
    (Nat.pos_of_ne_zero hzero)

theorem parseValue_ok {literal : List Char} {value : ℚ} (h : parseValue literal = .ok value) :
    Denotes literal value := by
  rw [parseValue] at h
  split at h
  · rename_i numerator denominator hsplit
    rw [(splitOnce_some hsplit).1]
    exact parseRatio_ok h
  · exact parseDecimal_ok h

theorem fromRational_ok {value : ℚ} {cutoff : ExactCutoff} (h : fromRational value = .ok cutoff) :
    cutoff.value = value ∧ 1 < value ∧ (cutoff.primeCutoff : Int) = ⌊value⌋ := by
  obtain ⟨_, -, h⟩ := bind_eq_ok h
  obtain ⟨_, hone, h⟩ := bind_eq_ok h
  obtain ⟨_, hfloor, h⟩ := bind_eq_ok h
  have hone := refuse_ok hone
  have hfloor := refuse_ok hfloor
  rw [not_not, isU64, Bool.and_eq_true, decide_eq_true_eq, decide_eq_true_eq] at hfloor
  cases h
  exact ⟨rfl, not_le.mp hone, (Int.toNat_of_nonneg hfloor.1).trans (Rat.floor_def value).symm⟩

theorem parse_ok {text : List Char} {cutoff : ExactCutoff} (h : parse text = .ok cutoff) :
    Denotes (stripPlus (trim text)) cutoff.value ∧ 1 < cutoff.value ∧ (cutoff.primeCutoff : Int) =
      ⌊cutoff.value⌋ ∧
      fromRational cutoff.value = .ok cutoff := by
  obtain ⟨_, -, h⟩ := bind_eq_ok h
  obtain ⟨value, hvalue, h⟩ := bind_eq_ok h
  obtain ⟨rfl, hone, hfloor⟩ := fromRational_ok h
  exact ⟨parseValue_ok hvalue, hone, hfloor, h⟩

/-! ## No step leaves `i32` -/

/-- The outcomes that are not panics of the machine. -/
def Sound {α : Type} (outcome : Outcome α) : Prop := ∀ fault, outcome ≠ .error (.fault fault)

theorem sound_iff {α : Type} {outcome : Outcome α} :
    Sound outcome ↔ Refuses (fun e => ∀ fault, e ≠ .fault fault) outcome := by
  constructor
  · rintro h e rfl fault rfl
    exact h fault rfl
  · intro h fault hfault
    exact h _ hfault fault rfl

theorem sound_bind {α β : Type} {x : Outcome α} {f : α → Outcome β} (hx : Sound x)
    (hf : ∀ a, x = .ok a → Sound (f a)) :
    Sound (x >>= f) :=
  sound_iff.mpr ((sound_iff.mp hx).bind fun a ha => sound_iff.mp (hf a ha))

theorem sound_ok {α : Type} (a : α) : Sound (.ok a : Outcome α) := sound_iff.mpr (Refuses.ok a)

theorem sound_refuse (condition : Prop) [Decidable condition] (message : String) :
    Sound (refuse condition message) := by
  intro fault h
  rw [refuse] at h
  split at h <;> cases h

theorem sound_parseSigned (sign : Int) (digits : List Char) : Sound (parseSigned sign digits) := by
  intro fault h
  rw [parseSigned] at h
  split at h <;> cases h

theorem sound_exponentOf (marked : List Char) : Sound (exponentOf marked) := by
  cases marked with
  | nil => exact sound_ok 0
  | cons mark tail =>
    rw [exponentOf]
    unfold parseI32
    split <;> exact sound_parseSigned _ _

theorem length_fraction_le (mantissa : List Char) :
    ((splitOnce '.' mantissa).getD (mantissa, [])).2.length ≤ mantissa.length := by
  rw [splitOnce]
  split
  · rw [Option.getD_some, List.length_drop]
    exact (Nat.sub_le _ _).trans (List.dropWhile_sublist _).length_le
  · exact Nat.zero_le _

/-- The scale of a literal of at most 4096 characters is an `i32`. -/
theorem sound_parseDecimal {literal : List Char} (hlength : literal.length ≤ 4096) :
    Sound (parseDecimal literal) := by
  refine sound_bind (sound_exponentOf _) fun exponent _ => ?_
  refine sound_bind (sound_refuse _ _) fun _ hexponent => ?_
  have hexponent := refuse_ok hexponent
  rw [not_or, not_lt] at hexponent
  refine sound_bind (sound_refuse _ _) fun _ _ => ?_
  refine sound_bind (sound_refuse _ _) fun _ _ => ?_
  refine sound_bind ?_ fun length hfraction => ?_
  · intro fault h
    rw [i32TryFrom] at h
    split at h <;> cases h
  · refine sound_bind ?_ fun _ _ => sound_ok _
    have hfraction := i32TryFrom_ok hfraction
    have hmantissa : (literal.takeWhile fun c => !isExponentMark c).length ≤ literal.length :=
      (List.takeWhile_sublist _).length_le
    have hle := (length_fraction_le (literal.takeWhile fun c => !isExponentMark c)).trans
      (hmantissa.trans hlength)
    have hfits : isI32 (length - exponent) = true := by
      rw [isI32, Bool.and_eq_true, decide_eq_true_eq, decide_eq_true_eq]
      omega
    rw [i32, if_pos hfits]
    exact sound_ok _

theorem sound_parseRatio (numerator denominator : List Char) :
    Sound (parseRatio numerator denominator) :=
  sound_bind (sound_refuse _ _) fun _ _ => sound_bind (sound_refuse _ _) fun _ _ => sound_ok _

theorem sound_fromRational (value : ℚ) : Sound (fromRational value) :=
  sound_bind (sound_refuse _ _) fun _ _ => sound_bind (sound_refuse _ _) fun _ _ =>
    sound_bind (sound_refuse _ _) fun _ _ => sound_ok _

theorem length_le_byteLength (text : List Char) : text.length ≤ byteLength text := by
  induction text with
  | nil => exact Nat.zero_le _
  | cons c rest ih =>
    have hc := Char.utf8Size_pos c
    rw [byteLength, List.map_cons, List.sum_cons, List.length_cons]
    rw [byteLength] at ih
    omega

theorem length_stripPlus_le (text : List Char) : (stripPlus text).length ≤ text.length := by
  unfold stripPlus
  split
  · exact Nat.le_succ _
  · exact le_rfl

theorem parse_sound (text : List Char) : Sound (parse text) := by
  refine sound_bind (sound_refuse _ _) fun _ hlength => ?_
  have hlength := refuse_ok hlength
  simp only [not_or, not_lt] at hlength
  have hshort : (stripPlus (trim text)).length ≤ 4096 :=
    (length_stripPlus_le _).trans ((length_le_byteLength _).trans hlength.2.1)
  refine sound_bind ?_ fun value _ => sound_fromRational value
  rw [parseValue]
  split
  · exact sound_parseRatio _ _
  · exact sound_parseDecimal hshort

/-! ## The printed form -/

theorem isDigits_toDigits (n : Nat) : IsDigits (Nat.toDigits 10 n) :=
  ⟨Nat.toDigits_ne_nil, Core.DecimalLiteral.toDigits_isDigit n⟩

theorem number_toDigits (n : Nat) : number (Nat.toDigits 10 n) = n := Nat.ofDigitChars_ten_toDigits

theorem canonical_eq {cutoff : ExactCutoff} (h : 0 ≤ cutoff.value) :
    canonical cutoff = Nat.toDigits 10 cutoff.value.num.toNat ++
      '/' :: Nat.toDigits 10 cutoff.value.den := by
  have hnum : ¬cutoff.value.num < 0 := not_lt.mpr (Rat.num_nonneg.mpr h)
  rw [canonical, renderInt, renderInt, if_neg hnum, if_neg (by omega), Int.natAbs_natCast]
  congr 2
  omega

theorem not_mem_of_digits {digits : List Char} (h : IsDigits digits) {c : Char}
    (hc : c.isDigit = false) : c ∉ digits := by
  intro hmem
  rw [h.2 c hmem] at hc
  cases hc

/-- Two nonnegative values print alike only when they are equal. -/
theorem canonical_injective {a b : ExactCutoff} (ha : 0 ≤ a.value) (hb : 0 ≤ b.value)
    (h : canonical a = canonical b) :
    a.value = b.value := by
  rw [canonical_eq ha, canonical_eq hb] at h
  have hslash : ∀ n : Nat, '/' ∉ Nat.toDigits 10 n :=
    fun n => not_mem_of_digits (isDigits_toDigits n) rfl
  have hsplit := congrArg (splitOnce '/') h
  rw [splitOnce_append _ (hslash _), splitOnce_append _ (hslash _)] at hsplit
  obtain ⟨hnum, hden⟩ := Prod.mk.inj (Option.some.inj hsplit)
  have hnum' := congrArg number hnum
  have hden' := congrArg number hden
  simp only [number_toDigits] at hnum' hden'
  have ha' := Rat.num_nonneg.mpr ha
  have hb' := Rat.num_nonneg.mpr hb
  exact Rat.ext (by omega) hden'

theorem parseRatio_canonical {value : ℚ} (h : 0 ≤ value) :
    parseRatio (Nat.toDigits 10 value.num.toNat) (Nat.toDigits 10 value.den) = .ok value := by
  have hn := isDigits_toDigits value.num.toNat
  have hd := isDigits_toDigits value.den
  have hdigits : ¬(Nat.toDigits 10 value.num.toNat = [] ∨ Nat.toDigits 10 value.den = [] ∨
      !allDigits (Nat.toDigits 10 value.num.toNat) ∨ !allDigits (Nat.toDigits 10 value.den)) := by
    simp [hn.1, hd.1, allDigits_iff.mpr hn.2, allDigits_iff.mpr hd.2]
  rw [parseRatio, refuse, if_neg hdigits, refuse, number_toDigits, number_toDigits,
    if_neg value.den_ne_zero]
  have hnum : ((value.num.toNat : Nat) : Int) = value.num :=
    Int.toNat_of_nonneg (Rat.num_nonneg.mpr h)
  rw [hnum]
  exact congrArg Except.ok (Rat.mkRat_self value)

theorem canonical_chars {cutoff : ExactCutoff} (h : 0 ≤ cutoff.value) :
    ∀ c ∈ canonical cutoff, c.isDigit = true ∨ c = '/' := by
  intro c hc
  rw [canonical_eq h, List.mem_append, List.mem_cons] at hc
  rcases hc with hc | hc | hc
  · exact .inl ((isDigits_toDigits _).2 c hc)
  · exact .inr hc
  · exact .inl ((isDigits_toDigits _).2 c hc)

theorem trim_eq {text : List Char} (h : ∀ c ∈ text, isWhitespace c = false) : trim text = text := by
  have hkeep : ∀ chars : List Char, (∀ c ∈ chars, isWhitespace c = false) →
      chars.dropWhile isWhitespace = chars := by
    intro chars hchars
    cases chars with
    | nil => rfl
    | cons c rest => exact List.dropWhile_cons_of_neg (by rw [hchars c List.mem_cons_self]; simp)
  rw [trim, hkeep text h, hkeep text.reverse fun c hc => h c (List.mem_reverse.mp hc),
    List.reverse_reverse]

theorem stripPlus_eq {text : List Char} (h : '+' ∉ text) : stripPlus text = text := by
  unfold stripPlus
  split
  · exact absurd List.mem_cons_self h
  · rfl

theorem canonical_toNat {cutoff : ExactCutoff} (h : 0 ≤ cutoff.value) :
    ∀ c ∈ canonical cutoff, 47 ≤ c.toNat ∧ c.toNat ≤ 57 := by
  intro c hc
  rcases canonical_chars h c hc with hc | rfl
  · obtain ⟨hlow, hhigh⟩ : 48 ≤ c.toNat ∧ c.toNat ≤ 57 := Char.isDigit_iff_toNat.mp hc
    exact ⟨by omega, hhigh⟩
  · decide

theorem byteLength_ascii {text : List Char} (h : ∀ c ∈ text, c.toNat < 128) :
    byteLength text = text.length := by
  induction text with
  | nil => rfl
  | cons c rest ih =>
    have hc : c.utf8Size = 1 := Char.utf8Size_eq_one_iff.mpr (by
      have := h c List.mem_cons_self
      exact UInt32.le_iff_toNat_le.mpr (Nat.le_of_lt_succ this))
    rw [byteLength, List.map_cons, List.sum_cons, hc, List.length_cons, Nat.add_comm]
    exact congrArg (· + 1) (ih fun c hc => h c (List.mem_cons_of_mem _ hc))

theorem parseValue_canonical {cutoff : ExactCutoff} (h : 0 ≤ cutoff.value) :
    parseValue (canonical cutoff) = .ok cutoff.value := by
  rw [parseValue, canonical_eq h, splitOnce_append _ (not_mem_of_digits (isDigits_toDigits _) rfl)]
  exact parseRatio_canonical h

/-- The printed form is read back exactly when it is short enough to be read at all. -/
theorem parse_canonical {cutoff : ExactCutoff} (h : 0 ≤ cutoff.value)
    (hvalid : fromRational cutoff.value = .ok cutoff) :
    parse (canonical cutoff) = .ok cutoff ↔ (canonical cutoff).length ≤ 4096 := by
  have hchars := canonical_toNat h
  have htrim : trim (canonical cutoff) = canonical cutoff := by
    refine trim_eq fun c hc => ?_
    have hc := hchars c hc
    simp only [isWhitespace]
    grind
  have hplus : stripPlus (canonical cutoff) = canonical cutoff :=
    stripPlus_eq fun hmem => absurd (hchars _ hmem).1 (by decide)
  have hbytes : byteLength (canonical cutoff) = (canonical cutoff).length :=
    byteLength_ascii fun c hc => by have := hchars c hc; omega
  have hascii : isAscii (canonical cutoff) = true :=
    List.all_eq_true.mpr fun c hc => by have := hchars c hc; simp only [decide_eq_true_eq]; omega
  have hne : canonical cutoff ≠ [] := by
    rw [canonical_eq h]
    simp
  rw [parse, htrim, hplus, hbytes, hascii, parseValue_canonical h]
  constructor
  · intro hread
    obtain ⟨_, hlength, -⟩ := bind_eq_ok hread
    have hlength := refuse_ok hlength
    simp only [not_or, not_lt] at hlength
    exact hlength.2.1
  · intro hlength
    have hpass : ¬(canonical cutoff = [] ∨ (canonical cutoff).length > 4096 ∨ !true) := by
      simp only [hne, false_or, not_or, not_lt]
      exact ⟨hlength, by simp⟩
    rw [refuse, if_neg hpass]
    exact hvalid

/-- A reading is exact and never leaves `i32`; printing separates the values, and what is printed is
read back as the same cutoff exactly when it keeps to the length limit of the reader. -/
theorem cutoff_identity (text : List Char) :
    (∀ fault, parse text ≠ .error (.fault fault)) ∧
      ∀ cutoff, parse text = .ok cutoff →
        Denotes (stripPlus (trim text)) cutoff.value ∧ (cutoff.primeCutoff : Int) = ⌊cutoff.value⌋ ∧
          (parse (canonical cutoff) = .ok cutoff ↔ (canonical cutoff).length ≤ 4096) ∧
          ∀ other otherCutoff, parse other = .ok otherCutoff →
            (canonical cutoff = canonical otherCutoff ↔ cutoff.value = otherCutoff.value) := by
  refine ⟨parse_sound text, fun cutoff h => ?_⟩
  obtain ⟨hdenotes, hone, hfloor, hvalid⟩ := parse_ok h
  have hnonneg : 0 ≤ cutoff.value := by linarith
  refine ⟨hdenotes, hfloor, parse_canonical hnonneg hvalid, fun other otherCutoff hother =>
    ⟨fun heq => ?_, fun heq => ?_⟩⟩
  · obtain ⟨-, hotherOne, -, -⟩ := parse_ok hother
    exact canonical_injective hnonneg (by linarith) heq
  · rw [canonical, canonical, heq]

theorem scientific_ok : parse ['1', '.', '3', 'e', '1'] = .ok ⟨13, 13⟩ := by decide +kernel

theorem integer_ok : parse ['+', '1', '3', ' '] = .ok ⟨13, 13⟩ := by decide +kernel

theorem cutoff_identity_scientific :
    (parse (canonical ⟨13, 13⟩) = .ok ⟨13, 13⟩ ↔ (canonical ⟨13, 13⟩).length ≤ 4096) ∧
      (canonical ⟨13, 13⟩ = canonical ⟨13, 13⟩ ↔ (13 : ℚ) = 13) :=
  ⟨((cutoff_identity _).2 _ scientific_ok).2.2.1,
    ((cutoff_identity _).2 _ scientific_ok).2.2.2 _ _ integer_ok⟩

/-- `1.00…01` with 2101 fractional digits. -/
def longLiteral : List Char := '1' :: '.' :: (List.replicate 2100 '0' ++ ['1'])

theorem not_round_trip {text : List Char} (h : (parse text).isOk = true)
    (hrefused : (parse text >>= fun cutoff => parse (canonical cutoff)).isOk = false) :
    ∃ cutoff, parse text = .ok cutoff ∧ parse (canonical cutoff) ≠ .ok cutoff := by
  cases hparse : parse text with
  | error e =>
    rw [hparse] at h
    cases h
  | ok cutoff =>
    rw [hparse] at hrefused
    refine ⟨cutoff, rfl, fun hread => ?_⟩
    rw [Foundations.Machine.ok_bind, hread] at hrefused
    cases hrefused

theorem canonical_refused : ∃ cutoff, parse longLiteral = .ok cutoff ∧ parse (canonical cutoff) ≠
    .ok cutoff :=
  not_round_trip (by decide +kernel) (by decide +kernel)

end ExactCutoff

end Xcelerator.Spectral
