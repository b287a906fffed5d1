import Mathlib
import Xcelerator.Cache.Basic
import Xcelerator.Numerics.Interval

/-! # Exact rational records

Certificates carry rationals as decimal texts. Printing and parsing are inverse,
so a replayed matrix is the recorded one. -/

namespace Xcelerator.Certify.Records
open Xcelerator.Foundations.Machine (bind_eq_ok ok_bind)
open Xcelerator.Cache (isAsciiDigit)
open Xcelerator.Numerics.Interval (RationalInterval)

inductive CertificateError where
  | invalid (message : String)
  | unsupported (message : String)
  | verificationFailed (message : String)
deriving DecidableEq, Repr

/-- The `Display` text of an error. -/
def CertificateError.display : CertificateError → String
  | .invalid message => "invalid certificate: " ++ message
  | .unsupported message => "unsupported certificate: " ++ message
  | .verificationFailed message => "certificate verification failed: " ++ message

abbrev Result := Except CertificateError

def check (condition : Bool) (error : CertificateError) : Result Unit :=
  if condition then .ok () else .error error

structure ExactRationalRecord where
  numerator : String
  denominator : String
deriving DecidableEq, Repr

structure ExactRationalIntervalRecord where
  lower : ExactRationalRecord
  upper : ExactRationalRecord
deriving DecidableEq, Repr

/-- The characters after an admitted sign. -/
def unsigned (allowNegative : Bool) (chars : List Char) : List Char :=
  if allowNegative && chars.head? == some '-' then chars.tail else chars

def validInteger (value : String) (allowNegative : Bool) : Bool :=
  let digits := unsigned allowNegative value.toList
  !digits.isEmpty && digits.all isAsciiDigit

def ExactRationalRecord.validateSyntax (record : ExactRationalRecord) : Result Unit := do
  check (validInteger record.numerator true) (.invalid "invalid exact rational numerator")
  check (validInteger record.denominator false &&
      !(record.denominator.toList.dropWhile (· == '0')).isEmpty)
    (.invalid "exact rational denominator must be a positive integer")

def ExactRationalIntervalRecord.validateSyntax (record : ExactRationalIntervalRecord) :
    Result Unit := do
  record.lower.validateSyntax
  record.upper.validateSyntax

/-- The integer a decimal text denotes. -/
def decimalInteger (value : String) : Int :=
  let magnitude := Nat.ofDigitChars 10 (unsigned true value.toList) 0
  if value.toList.head? == some '-' then -magnitude else magnitude

/-- `Rational::parse` accepts every text that passes the syntax check. -/
def parse (record : ExactRationalRecord) : Result ℚ := do
  record.validateSyntax
  return decimalInteger record.numerator / decimalInteger record.denominator

def rationalRecord (value : ℚ) : ExactRationalRecord :=
  { numerator := toString value.num, denominator := toString value.den }

def intervalRecord (value : RationalInterval) : ExactRationalIntervalRecord :=
  { lower := rationalRecord value.lower, upper := rationalRecord value.upper }

def parseInterval (record : ExactRationalIntervalRecord) : Result RationalInterval := do
  record.validateSyntax
  let lower ← parse record.lower
  let upper ← parse record.upper
  (RationalInterval.new lower upper).mapError fun error => .invalid error.display

/-! ## Round trip -/

theorem all_toDigits (n : Nat) : (Nat.toDigits 10 n).all isAsciiDigit = true := by
  rw [List.all_eq_true]
  intro c hc
  exact Nat.isDigit_of_mem_toDigits (by decide) (by decide) hc

theorem toDigits_head_ne (n : Nat) : (Nat.toDigits 10 n).head? ≠ some '-' := by
  intro h
  have hall := List.all_eq_true.mp (all_toDigits n) '-' (List.mem_of_mem_head? h)
  exact absurd hall (by decide)

theorem toList_toString_nat (n : Nat) : (toString n).toList = Nat.toDigits 10 n := Nat.toList_repr

theorem unsigned_toDigits (allowNegative : Bool) (n : Nat) :
    unsigned allowNegative (Nat.toDigits 10 n) = Nat.toDigits 10 n := by
  simp [unsigned, toDigits_head_ne]

theorem toList_toString_negSucc (n : Nat) :
    (toString (Int.negSucc n)).toList = '-' :: Nat.toDigits 10 (n + 1) := by
  show ("-" ++ toString (n + 1)).toList = _
  rw [String.toList_append, toList_toString_nat]
  rfl

theorem decimalInteger_nat (n : Nat) : decimalInteger (toString n) = n := by
  simp [decimalInteger, unsigned_toDigits, toDigits_head_ne,
    Nat.ofDigitChars_ten_toDigits]

theorem decimalInteger_toString (z : Int) : decimalInteger (toString z) = z := by
  cases z with
  | ofNat n => exact decimalInteger_nat n
  | negSucc n =>
    unfold decimalInteger
    rw [toList_toString_negSucc]
    simp only [unsigned, List.head?_cons, Bool.true_and, BEq.rfl, if_true, List.tail_cons,
      Nat.ofDigitChars_ten_toDigits]
    omega

theorem validInteger_nat (n : Nat) (allowNegative : Bool) :
    validInteger (toString n) allowNegative = true := by
  simp [validInteger, unsigned_toDigits, all_toDigits, Nat.toDigits_ne_nil]

theorem validInteger_toString (z : Int) : validInteger (toString z) true = true := by
  cases z with
  | ofNat n => exact validInteger_nat n true
  | negSucc n =>
    unfold validInteger
    rw [toList_toString_negSucc]
    simp [unsigned, all_toDigits, Nat.toDigits_ne_nil]

/-- A text of zeros only denotes zero. -/
theorem dropWhile_toDigits {n : Nat} (h : n ≠ 0) :
    ((Nat.toDigits 10 n).dropWhile (· == '0')).isEmpty = false := by
  rw [Bool.eq_false_iff]
  intro hempty
  rw [List.isEmpty_iff, List.dropWhile_eq_nil_iff] at hempty
  refine h ?_
  have hzeros : Nat.toDigits 10 n = List.replicate (Nat.toDigits 10 n).length '0' :=
    List.eq_replicate_iff.mpr ⟨rfl, fun c hc => by simpa using hempty c hc⟩
  have hvalue := @Nat.ofDigitChars_ten_toDigits n
  rw [hzeros, Nat.ofDigitChars_replicate_zero] at hvalue
  simpa using hvalue.symm

theorem validateSyntax_rationalRecord (q : ℚ) : (rationalRecord q).validateSyntax = .ok () := by
  unfold ExactRationalRecord.validateSyntax
  simp only [rationalRecord, check, validInteger_toString, validInteger_nat, toList_toString_nat,
    dropWhile_toDigits q.den_nz]
  rfl

@[simp] theorem parse_rationalRecord (q : ℚ) : parse (rationalRecord q) = .ok q := by
  unfold parse
  rw [validateSyntax_rationalRecord]
  have hq : (decimalInteger (rationalRecord q).numerator : ℚ) /
      decimalInteger (rationalRecord q).denominator = q := by
    simp only [rationalRecord, decimalInteger_toString, decimalInteger_nat]
    exact Rat.num_div_den q
  simp only [ok_bind]
  exact congrArg Except.ok hq

theorem validateSyntax_intervalRecord (v : RationalInterval) :
    (intervalRecord v).validateSyntax = .ok () := by
  simp [ExactRationalIntervalRecord.validateSyntax, intervalRecord, validateSyntax_rationalRecord]

/-- **Printing and parsing an interval are inverse.** -/
@[simp] theorem parseInterval_intervalRecord (v : RationalInterval) :
    parseInterval (intervalRecord v) = .ok v := by
  unfold parseInterval
  rw [validateSyntax_intervalRecord]
  simp only [intervalRecord, parse_rationalRecord, ok_bind]
  simp [RationalInterval.new, v.ordered, Except.mapError]

theorem mapM_parseInterval (matrix : List RationalInterval) :
    (matrix.map intervalRecord).mapM parseInterval = .ok matrix := by
  induction matrix with
  | nil => rfl
  | cons v matrix ih =>
    rw [List.map_cons, List.mapM_cons, parseInterval_intervalRecord, ih]
    rfl

end Xcelerator.Certify.Records
