import Mathlib
import Xcelerator.Foundations.Machine

/-! # Decimal literals

A literal keeps its spelling. Parsing splits it at the exponent mark and the
point, drops leading zeros and absorbs trailing ones into the power of ten, so
that comparisons never pass through a binary format. A sum is compared on two
sparse digit maps, one for each sign, carried from the lowest power upward. -/

namespace Xcelerator.Core
namespace DecimalLiteral
open Foundations.Machine

/-- The text of a `ConfigError`. -/
abbrev Result := Except String

/-- What a comparison can end in besides an ordering. -/
inductive Failure where
  | config (message : String)
  | fault (fault : Fault)
deriving DecidableEq, Repr

abbrev Outcome := Except Failure

def ofResult {α : Type} (x : Result α) : Outcome α := x.mapError .config

def ofChecked {α : Type} (x : Checked α) : Outcome α := x.mapError .fault

structure DecimalParts where
  sign : ℤ
  /-- Most significant first. -/
  digits : List ℕ
  scale : ℤ
deriving DecidableEq, Repr

/-- `char::is_whitespace`: the Unicode property `White_Space`. -/
def isWhitespace (c : Char) : Bool :=
  let n := c.toNat
  (9 ≤ n && n ≤ 13) || n == 0x20 || n == 0x85 || n == 0xa0 || n == 0x1680 ||
    (0x2000 ≤ n && n ≤ 0x200a) ||
    n == 0x2028 || n == 0x2029 || n == 0x202f || n == 0x205f || n == 0x3000

/-- A checked `i64` step. -/
def checkedI64 (message : String) (x : ℤ) : Result ℤ :=
  if -2 ^ 63 ≤ x ∧ x < 2 ^ 63 then .ok x else .error message

def digit (c : Char) : ℕ := c.toNat - '0'.toNat

/-- An optional sign and what follows it. -/
def signOf : List Char → ℤ × List Char
  | '+' :: rest => (1, rest)
  | '-' :: rest => (-1, rest)
  | rest => (1, rest)

/-- The scan of the mantissa: the indices of the point and of the exponent mark. A byte of a
character outside ASCII matches no pattern, so scanning characters refuses where scanning bytes
does. -/
def scan : List Char → ℕ → Option ℕ → Result (Option ℕ × Option ℕ)
  | [], _, decimalIndex => .ok (decimalIndex, none)
  | c :: rest, cursor, decimalIndex =>
    if c.isDigit then scan rest (cursor + 1) decimalIndex
    else if c = '.' ∧ decimalIndex = none then scan rest (cursor + 1) (some cursor)
    else if c = 'e' ∨ c = 'E' then .ok (decimalIndex, some cursor)
    else .error "invalid decimal literal syntax"

/-- One digit of the exponent. -/
def exponentStep (magnitude : ℤ) (c : Char) : Result ℤ := do
  let current ← checkedI64 "decimal exponent is too large" (magnitude * 10)
  checkedI64 "decimal exponent is too large" (current + digit c)

def parseExponent (text : List Char) : Result ℤ := do
  let (exponentSign, digits) := signOf text
  if digits.isEmpty || !digits.all Char.isDigit then .error "invalid decimal exponent"
  else do
    let magnitude ← digits.foldlM exponentStep 0
    checkedI64 "decimal exponent is too large" (exponentSign * magnitude)

/-- The exponent after its mark, zero without one. -/
def exponentAt (body : List Char) : Option ℕ → Result ℤ
  | some index => parseExponent (body.drop (index + 1))
  | none => .ok 0

/-- The loop that pops trailing zeros, on the digits from the last one on. -/
def absorbZeros : List ℕ → ℤ → Result (List ℕ × ℤ)
  | 0 :: rest, scale => do
    let scale ← checkedI64 "decimal scale is too large" (scale + 1)
    absorbZeros rest scale
  | digits, scale => .ok (digits, scale)

/-- The last part of `DecimalParts::parse`: digits, point position and exponent are known. -/
def normalize (sign : ℤ) (digits : List ℕ) (exponent : ℤ) (fractionalDigits : ℕ) :
    Result DecimalParts :=
  if digits.all (· == 0) then .ok ⟨0, [0], 0⟩
  else do
    -- a string has at most `isize::MAX` bytes, so the cast of the count keeps it
    let scale ← checkedI64 "decimal scale is too large" (exponent - fractionalDigits)
    let (reversed, scale) ← absorbZeros (digits.dropWhile (· == 0)).reverse scale
    .ok ⟨sign, reversed.reverse, scale⟩

/-- `DecimalParts::parse`. -/
def parse (value : List Char) : Result DecimalParts :=
  if value.isEmpty || value.any isWhitespace then
    .error "decimal literal must be nonempty and contain no whitespace"
  else
    let (sign, body) := signOf value
    if body.isEmpty then .error "decimal literal has no digits"
    else do
      let (decimalIndex, exponentIndex) ← scan body 0 none
      let mantissaEnd := exponentIndex.getD body.length
      let mantissa := body.take mantissaEnd
      if (mantissa.filter Char.isDigit).length = 0 then
        .error "decimal literal has no mantissa digits"
      else do
        let exponent ← exponentAt body exponentIndex
        let fractionalDigits := (decimalIndex.map fun index => mantissaEnd - (index + 1)).getD 0
        normalize sign ((mantissa.filter Char.isDigit).map digit) exponent fractionalDigits

/-- The loop over the digit positions of `cmp_magnitude`. -/
def cmpDigits (left right : List ℕ) : List ℕ → Ordering
  | [] => .eq
  | index :: rest =>
    match cmp (left.getD index 0) (right.getD index 0) with
    | .eq => cmpDigits left right rest
    | order => order

namespace DecimalParts

/-- `DecimalParts::cmp_magnitude`. -/
def cmpMagnitude (self other : DecimalParts) : Checked Ordering := do
  assert (self.sign != 0 && other.sign != 0)
  let selfExtent ← signed 128 (self.digits.length + self.scale)
  let otherExtent ← signed 128 (other.digits.length + other.scale)
  match cmp selfExtent otherExtent with
  | .eq =>
    .ok (cmpDigits self.digits other.digits
      (List.range (max self.digits.length other.digits.length)))
  | order => .ok order

/-- `DecimalParts::cmp_numeric`. -/
def cmpNumeric (self other : DecimalParts) : Checked Ordering :=
  match cmp self.sign other.sign with
  | .eq =>
    if self.sign = 0 then .ok .eq
    else if self.sign > 0 then self.cmpMagnitude other
    else do
      let order ← self.cmpMagnitude other
      .ok order.swap
  | order => .ok order

end DecimalParts

/-- `*digits.entry(power).or_default() += amount` on an ordered map. -/
def addAt : List (ℤ × ℕ) → ℤ → ℕ → Checked (List (ℤ × ℕ))
  | [], power, amount => do
    let value ← unsigned 128 (0 + amount)
    .ok [(power, value)]
  | (key, value) :: rest, power, amount =>
    if power < key then do
      let added ← unsigned 128 (0 + amount)
      .ok ((power, added) :: (key, value) :: rest)
    else if power = key then do
      let added ← unsigned 128 (value + amount)
      .ok ((key, added) :: rest)
    else do
      let rest ← addAt rest power amount
      .ok ((key, value) :: rest)

/-- The digits of one term, from the last one on, into the map of its sign. -/
def addDigits (scale : ℤ) : List ℕ → ℕ → List (ℤ × ℕ) → Checked (List (ℤ × ℕ))
  | [], _, map => .ok map
  | digit :: rest, offset, map =>
    if digit ≠ 0 then do
      let power ← signed 128 (scale + offset)
      let map ← addAt map power digit
      addDigits scale rest (offset + 1) map
    else addDigits scale rest (offset + 1) map

/-- The amounts of a map. -/
def total (map : List (ℤ × ℕ)) : ℕ := (map.map Prod.snd).sum

theorem addAt_ok {map map' : List (ℤ × ℕ)} {power : ℤ} {amount : ℕ}
    (h : addAt map power amount = .ok map') :
    total map' = total map + amount ∧ map'.length ≤ map.length + 1 := by
  induction map generalizing map' with
  | nil =>
    obtain ⟨value, hvalue, h⟩ := bind_eq_ok h
    cases h
    unfold unsigned at hvalue
    split at hvalue <;> cases hvalue
    simp [total]
  | cons entry rest ih =>
    obtain ⟨key, value⟩ := entry
    rw [addAt] at h
    split at h
    · obtain ⟨added, hadded, h⟩ := bind_eq_ok h
      cases h
      unfold unsigned at hadded
      split at hadded <;> cases hadded
      simp only [total, List.map_cons, List.sum_cons, List.length_cons]
      omega
    · split at h
      · obtain ⟨added, hadded, h⟩ := bind_eq_ok h
        cases h
        unfold unsigned at hadded
        split at hadded <;> cases hadded
        simp only [total, List.map_cons, List.sum_cons, List.length_cons]
        omega
      · obtain ⟨rest', hrest, h⟩ := bind_eq_ok h
        cases h
        obtain ⟨htotal, hlength⟩ := ih hrest
        simp only [total, List.map_cons, List.sum_cons, List.length_cons] at htotal ⊢
        omega

/-- The carry of `cmp_sum_many`, from the lowest power on; `result` is kept in its final, reversed
order. -/
def carry (digits result : List (ℤ × ℕ)) : Checked (List (ℤ × ℕ)) :=
  match digits with
  | [] => .ok result
  | (power, value) :: rest =>
    let result := if value % 10 ≠ 0 then (power, value % 10) :: result else result
    if 10 ≤ value then
      match signed 128 (power + 1) with
      | .error fault => .error fault
      | .ok next =>
        match _hrest : addAt rest next (value / 10) with
        | .error fault => .error fault
        | .ok rest' => carry rest' result
    else carry rest result
termination_by total digits + digits.length
decreasing_by
  · obtain ⟨htotal, hlength⟩ := addAt_ok _hrest
    simp only [total, List.map_cons, List.sum_cons, List.length_cons] at htotal ⊢
    omega
  · simp only [total, List.map_cons, List.sum_cons, List.length_cons]
    omega

/-- The order of vectors of pairs. -/
def cmpTerms : List (ℤ × ℕ) → List (ℤ × ℕ) → Ordering
  | [], [] => .eq
  | [], _ :: _ => .lt
  | _ :: _, [] => .gt
  | (p, v) :: left, (q, w) :: right =>
    match cmp p q with
    | .eq =>
      match cmp v w with
      | .eq => cmpTerms left right
      | order => order
    | order => order

end DecimalLiteral

/-- A literal and its spelling. -/
structure DecimalLiteral where
  text : List Char
deriving DecidableEq, Repr

namespace DecimalLiteral

/-- `DecimalLiteral::new`. -/
def new (value : List Char) : Result DecimalLiteral := do
  let _ ← parse value
  .ok ⟨value⟩

/-- `DecimalLiteral::validate_str`. -/
def validateStr (value : List Char) : Result Unit := do
  let _ ← parse value
  .ok ()

/-- `DecimalLiteral::canonical`. -/
def canonical (self : DecimalLiteral) : Result DecimalLiteral := do
  let parts ← parse self.text
  if parts.sign = 0 then .ok ⟨['0']⟩
  else
    let text := (if parts.sign < 0 then ['-'] else []) ++ parts.digits.map Nat.digitChar
    .ok ⟨if parts.scale ≠ 0 then text ++ 'e' :: (toString parts.scale).toList else text⟩

/-- `DecimalLiteral::cmp_numeric`. -/
def cmpNumeric (self other : DecimalLiteral) : Outcome Ordering := do
  let left ← ofResult (parse self.text)
  let right ← ofResult (parse other.text)
  ofChecked (left.cmpNumeric right)

/-- The body of the loop over the literal and the terms. -/
def addTerm (maps : List (ℤ × ℕ) × List (ℤ × ℕ)) (term : DecimalLiteral × ℤ) :
    Outcome (List (ℤ × ℕ) × List (ℤ × ℕ)) := do
  let part ← ofResult (parse term.1.text)
  let sign := part.sign * term.2
  if sign = 0 then .ok maps
  else if 0 < sign then do
    let positive ← ofChecked (addDigits part.scale part.digits.reverse 0 maps.1)
    .ok (positive, maps.2)
  else do
    let negative ← ofChecked (addDigits part.scale part.digits.reverse 0 maps.2)
    .ok (maps.1, negative)

/-- `DecimalLiteral::cmp_sum_many`. -/
def cmpSumMany (self : DecimalLiteral) (terms : List DecimalLiteral) : Outcome Ordering := do
  let (positive, negative) ← ((self, 1) :: terms.map fun term => (term, -1)).foldlM addTerm ([], [])
  let left ← ofChecked (carry positive [])
  let right ← ofChecked (carry negative [])
  .ok (cmpTerms left right)

/-! ## What a spelling stands for -/

def isExponentMark (c : Char) : Bool := c == 'e' || c == 'E'

/-- The rational number of a decimal spelling: whole and fractional digits, times a power of ten. -/
def spelled (text : List Char) : ℚ :=
  let (sign, body) := signOf text
  let mantissa := body.takeWhile fun c => !isExponentMark c
  let (exponentSign, exponent) := signOf ((body.dropWhile fun c => !isExponentMark c).drop 1)
  let whole := mantissa.takeWhile fun c => c != '.'
  let fraction := (mantissa.dropWhile fun c => c != '.').drop 1
  sign * (Nat.ofDigitChars 10 whole 0 + Nat.ofDigitChars 10 fraction 0 / 10 ^ fraction.length) *
    10 ^ (exponentSign * Nat.ofDigitChars 10 exponent 0)

def value (self : DecimalLiteral) : ℚ := spelled self.text

end DecimalLiteral

end Xcelerator.Core
