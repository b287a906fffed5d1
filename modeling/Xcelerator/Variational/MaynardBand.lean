import Mathlib
import Xcelerator.Certify.Records
import Xcelerator.Foundations.SchurTest
import Xcelerator.Variational.MaynardOrbits

/-! # Certified degree bands

An action on the orbit basis that skips the entries between distant degrees. Its
recorded error is the largest absolute row sum of what it skips, and that
bounds the Euclidean norm because the skipped part is symmetric. The SHA-256 of
the certificate is a parameter. -/

namespace Xcelerator.Variational.Maynard
open Xcelerator.Foundations.Machine Xcelerator.Foundations
open Xcelerator.Certify.Records (ExactRationalRecord rationalRecord)
open Xcelerator.Cache (blank isAsciiDigit)

/-! ## Records -/

inductive MkSymmetricForm where
  | iMetric
  | jTotal
deriving DecidableEq, Repr

inductive MkApproximationMetric where
  | euclideanOperatorNorm
  | iMetricOperatorNorm
deriving DecidableEq, Repr

structure MkApproximationCertificate where
  construction : String
  k : Nat
  degree : Nat
  metric : MkApproximationMetric
  rigorousOperatorErrorBound : ExactRationalRecord
  roundingContribution : ExactRationalRecord
  parameterRange : String
  validationDigest : String
deriving DecidableEq, Repr

def isAsciiWhitespace (c : Char) : Bool := c = ' ' || c = '\t' || c = '\n' || c = '\x0c' || c = '\r'

/-- The digits of an integer's text, underscores between them dropped. -/
def parseMagnitude (body : List Char) : Option Nat :=
  if (body.head?.any isAsciiDigit) && body.all fun c => isAsciiDigit c || c == '_' then
    some (Nat.ofDigitChars 10 (body.filter isAsciiDigit) 0)
  else none

/-- `str::parse` of an arbitrary-precision integer. -/
def parseInteger (text : String) : Option Int :=
  match text.toList.filter fun c => !isAsciiWhitespace c with
  | '-' :: body => (parseMagnitude body).map fun magnitude => -Int.ofNat magnitude
  | '+' :: body => (parseMagnitude body).map Int.ofNat
  | body => (parseMagnitude body).map Int.ofNat

def rationalRecordValue (record : ExactRationalRecord) : Mk ℚ := do
  let numerator ← okOr (parseInteger record.numerator) "invalid approximation-bound numerator"
  let denominator ← okOr (parseInteger record.denominator) "invalid approximation-bound denominator"
  check (decide (0 < denominator)) "approximation-bound denominator must be positive"
  return numerator / denominator

def MkApproximationCertificate.validateFor (certificate : MkApproximationCertificate)
    (k degree : Nat) : Mk Unit := do
  check (certificate.k == k && certificate.degree == degree)
    "approximation certificate does not match k and degree"
  check (!(blank certificate.construction || blank certificate.parameterRange ||
    blank certificate.validationDigest))
    "approximation certificate metadata must be nonempty"
  let error ← rationalRecordValue certificate.rigorousOperatorErrorBound
  let rounding ← rationalRecordValue certificate.roundingContribution
  check (!(decide (error < 0) || decide (rounding < 0) || decide (rounding > error)))
    "approximation bounds must satisfy 0 <= rounding <= total error"

structure MkCertifiedDegreeBandAction where
  k : Nat
  degree : Nat
  form : MkSymmetricForm
  halfWidth : Nat
  retainedEntries : Nat
  omittedEntries : Nat
  certificate : MkApproximationCertificate
deriving DecidableEq, Repr

/-! ## Construction -/

abbrev Bytes := List UInt8

/-- `usize::to_le_bytes`. -/
def toLeBytes (n : Nat) : Bytes := (List.range 8).map fun i => UInt8.ofNat (n / 256 ^ i)

def textBytes (text : String) : Bytes := text.toUTF8.toList

def digestField (hasher value : Bytes) : Bytes := hasher ++ toLeBytes value.length ++ value

def absDiff (m n : Nat) : Nat := if m ≤ n then n - m else m - n

namespace MkSymmetricReference
variable (s : MkSymmetricReference)

/-- `orbits()[row].partition.total_degree()`. -/
def orbitDegree (row : Nat) : Mk Nat := do
  let orbit ← panicking (read s.orbits row)
  totalDegree orbit.partition

def formEntry (form : MkSymmetricForm) (row column : Nat) : Mk ℚ :=
  match form with
  | .iMetric => s.iEntry row column
  | .jTotal => s.jTotalEntry row column

/-- The full matrix of the form. -/
def denseExact (form : MkSymmetricForm) : Mk (List ℚ) :=
  match form with
  | .iMetric => s.denseIExact
  | .jTotal => s.denseJTotalExact

end MkSymmetricReference

/-- The accumulators of the pass over the entries. -/
structure BandScan where
  maximumOmittedRowSum : ℚ
  omittedRowSum : ℚ
  retainedEntries : Nat
  omittedEntries : Nat
  hasher : Bytes

def saturatingSucc (n : Nat) : Nat := min (n + 1) (2 ^ 64 - 1)

def scanColumn (s : MkSymmetricReference) (form : MkSymmetricForm) (halfWidth row rowDegree : Nat)
    (scan : BandScan) (column : Nat) : Mk BandScan := do
  let columnDegree ← s.orbitDegree column
  let entry ← s.formEntry form row column
  if absDiff rowDegree columnDegree ≤ halfWidth then
    return { scan with retainedEntries := saturatingSucc scan.retainedEntries }
  else
    return { scan with
      omittedEntries := saturatingSucc scan.omittedEntries
      omittedRowSum := scan.omittedRowSum + |entry|
      hasher := [toLeBytes row, toLeBytes column, textBytes (toString entry.num),
        textBytes (toString entry.den)].foldl
        digestField scan.hasher }

def scanRow (s : MkSymmetricReference) (form : MkSymmetricForm) (halfWidth : Nat) (scan : BandScan)
    (row : Nat) :
    Mk BandScan := do
  let rowDegree ← s.orbitDegree row
  let scan ← (List.range s.dimension).foldlM (scanColumn s form halfWidth row rowDegree)
    { scan with omittedRowSum := 0 }
  return { scan with maximumOmittedRowSum := max scan.maximumOmittedRowSum scan.omittedRowSum }

def MkSymmetricForm.label : MkSymmetricForm → String
  | .iMetric => "i_metric"
  | .jTotal => "j_total"

def MkSymmetricForm.name : MkSymmetricForm → String
  | .iMetric => "I"
  | .jTotal => "J_total"

namespace MkCertifiedDegreeBandAction
section
variable (sha256 : Bytes → String)

def construct (s : MkSymmetricReference) (form : MkSymmetricForm) (halfWidth : Nat) :
    Mk MkCertifiedDegreeBandAction := do
  check (decide (halfWidth ≤ s.monomial.degree)) "degree-band half-width exceeds the finite degree"
  let header := [textBytes "mk-certified-degree-band-v1", toLeBytes s.monomial.k,
    toLeBytes s.monomial.degree, toLeBytes halfWidth, textBytes form.label].foldl digestField []
  let scan ← (List.range s.dimension).foldlM (scanRow s form halfWidth) ⟨0, 0, 0, 0, header⟩
  let certificate : MkApproximationCertificate :=
    { construction := "exact omitted-entry maximum absolute row-sum bound for a symmetric degree band"
      k := s.monomial.k
      degree := s.monomial.degree
      metric := .euclideanOperatorNorm
      rigorousOperatorErrorBound := rationalRecord scan.maximumOmittedRowSum
      roundingContribution := rationalRecord 0
      parameterRange := form.name ++ " form; retain |total_degree(row)-total_degree(column)| <= " ++
        toString halfWidth
      validationDigest := "sha256:" ++ sha256 scan.hasher }
  certificate.validateFor s.monomial.k s.monomial.degree
  return { k := s.monomial.k, degree := s.monomial.degree, form, halfWidth,
           retainedEntries := scan.retainedEntries, omittedEntries := scan.omittedEntries,
           certificate }

end
end MkCertifiedDegreeBandAction

structure VerifiedMkDegreeBandAction where
  reference : MkSymmetricReference
  retainedRows : List (List (Nat × ℚ))

def retainColumn (s : MkSymmetricReference) (form : MkSymmetricForm) (halfWidth row rowDegree : Nat)
    (retained : List (Nat × ℚ)) (column : Nat) : Mk (List (Nat × ℚ)) := do
  let columnDegree ← s.orbitDegree column
  if absDiff rowDegree columnDegree ≤ halfWidth then do
    let entry ← s.formEntry form row column
    return retained ++ [(column, entry)]
  else return retained

def retainRow (s : MkSymmetricReference) (form : MkSymmetricForm) (halfWidth row : Nat) :
    Mk (List (Nat × ℚ)) := do
  let rowDegree ← s.orbitDegree row
  (List.range s.dimension).foldlM (retainColumn s form halfWidth row rowDegree) []

def MkCertifiedDegreeBandAction.verify (sha256 : Bytes → String)
    (action : MkCertifiedDegreeBandAction)
    (s : MkSymmetricReference) : Mk VerifiedMkDegreeBandAction := do
  let replay ← construct sha256 s action.form action.halfWidth
  check (decide (replay = action))
    "degree-band action does not match its exact omitted-entry replay"
  let retainedRows ← (List.range s.dimension).mapM (retainRow s action.form action.halfWidth)
  return { reference := s, retainedRows }

def applyRow (input : List ℚ) (retained : List (Nat × ℚ)) : Mk ℚ :=
  retained.foldlM (fun total cell => do
    let value ← panicking (read input cell.1)
    return total + cell.2 * value) 0

def VerifiedMkDegreeBandAction.applyExact (verified : VerifiedMkDegreeBandAction) (input : List ℚ) :
    Mk (List ℚ) := do
  verified.reference.checkCoefficients input
  verified.retainedRows.mapM (applyRow input)

/-! ## The recorded bound -/

theorem isAsciiDigit_not_space {c : Char} (h : isAsciiDigit c = true) :
    (!isAsciiWhitespace c) = true := by
  rw [Bool.not_eq_true']
  by_contra hspace
  rw [Bool.not_eq_false] at hspace
  simp only [isAsciiWhitespace, Bool.or_eq_true, decide_eq_true_eq] at hspace
  rcases hspace with (((rfl | rfl) | rfl) | rfl) | rfl <;> exact absurd h (by decide)

theorem filter_digits {digits : List Char} (h : digits.all isAsciiDigit = true) :
    (digits.filter fun c => !isAsciiWhitespace c) = digits ∧ digits.filter isAsciiDigit = digits ∧
      (digits.all fun c => isAsciiDigit c || c == '_') = true := by
  rw [List.all_eq_true] at h
  refine ⟨List.filter_eq_self.mpr fun c hc => isAsciiDigit_not_space (h c hc),
    List.filter_eq_self.mpr h, ?_⟩
  rw [List.all_eq_true]
  intro c hc
  rw [h c hc, Bool.true_or]

theorem parseMagnitude_toDigits (n : Nat) : parseMagnitude (Nat.toDigits 10 n) = some n := by
  have hall := Certify.Records.all_toDigits n
  obtain ⟨-, hfilter, hmarks⟩ := filter_digits hall
  obtain ⟨c, rest, hcons⟩ := List.exists_cons_of_ne_nil (Nat.toDigits_ne_nil (n := n) (b := 10))
  have hhead : ((Nat.toDigits 10 n).head?.any isAsciiDigit) = true := by
    rw [hcons] at hall ⊢
    rw [List.all_cons, Bool.and_eq_true] at hall
    exact hall.1
  rw [parseMagnitude, hhead, hmarks, hfilter, Nat.ofDigitChars_ten_toDigits]
  rfl

theorem parseInteger_nat (n : Nat) : parseInteger (toString n) = some (n : Int) := by
  have hall := Certify.Records.all_toDigits n
  unfold parseInteger
  rw [Certify.Records.toList_toString_nat, (filter_digits hall).1]
  split
  · rename_i body heq
    rw [heq] at hall
    exact absurd hall (by simp [isAsciiDigit])
  · rename_i body heq
    rw [heq] at hall
    exact absurd hall (by simp [isAsciiDigit])
  · rw [parseMagnitude_toDigits]
    rfl

theorem parseInteger_toString (z : Int) : parseInteger (toString z) = some z := by
  cases z with
  | ofNat n => exact parseInteger_nat n
  | negSucc n =>
    unfold parseInteger
    rw [Certify.Records.toList_toString_negSucc, List.filter_cons_of_pos (by decide),
      (filter_digits (Certify.Records.all_toDigits (n + 1))).1]
    simp only [parseMagnitude_toDigits]
    rfl

/-- What is recorded is read back. -/
theorem rationalRecordValue_record (q : ℚ) : rationalRecordValue (rationalRecord q) = .ok q := by
  unfold rationalRecordValue rationalRecord
  dsimp only
  rw [parseInteger_toString, parseInteger_nat]
  have hpos : (0 : Int) < q.den := by exact_mod_cast q.pos
  simp only [okOr, ok_bind, check, hpos, decide_true, if_true]
  exact congrArg Except.ok (by exact_mod_cast Rat.num_div_den q)

/-! ## Entries -/

theorem sum_swap {α β : Type} (left : List α) (right : List β) (f : α → β → ℚ) :
    (left.map fun a => (right.map fun b => f a b).sum).sum =
      (right.map fun b => (left.map fun a => f a b).sum).sum := by
  induction left with
  | nil => simp
  | cons a left ih =>
    simp only [List.map_cons, List.sum_cons, ih]
    rw [← List.sum_map_add]

section
variable {s : MkSymmetricReference} {k degree : Nat}

theorem Covers.accepted (h : Covers s k degree) {row column : Nat} (hrow : row < s.dimension)
    (hcolumn : column < s.dimension) {a b : MultiIndex} (ha : a ∈ s.members row)
    (hb : b ∈ s.members column) :
    Accepted s.monomial a b := by
  obtain ⟨hk, hdegree, -, -⟩ := new_ok h.engine
  have hmem : ∀ {row : Nat}, row < s.dimension → ∀ {a}, a ∈ s.members row → a.length = k ∧
      a.sum ≤ degree := by
    intro row hrow a ha
    have hrow' : row < s.orbits.length := hrow
    rw [MkSymmetricReference.members, List.getElem?_eq_getElem hrow'] at ha
    exact (h.mem a).mp (List.mem_flatMap.mpr ⟨_, List.getElem_mem hrow', ha⟩)
  obtain ⟨hal, has⟩ := hmem hrow ha
  obtain ⟨hbl, hbs⟩ := hmem hcolumn hb
  exact ⟨hal.trans hk.symm, hbl.trans hk.symm, hdegree ▸ has, hdegree ▸ hbs⟩

/-- A symmetric entry of the monomials sums to a symmetric entry of the orbits. -/
theorem orbitSum_symmetric (h : Covers s k degree) {entry : MultiIndex → MultiIndex → Mk ℚ}
    {f : MultiIndex → MultiIndex → ℚ}
    (hentry : ∀ {a b}, Accepted s.monomial a b → entry a b = .ok (f a b))
    (hsymm : ∀ {a b}, Accepted s.monomial a b → f a b = f b a) :
    ∃ g : Nat → Nat → ℚ, (∀ row < s.dimension, ∀ column < s.dimension,
      MkSymmetricReference.orbitSum entry (s.members row) (s.members column) = .ok (g row column)) ∧
      ∀ row < s.dimension, ∀ column < s.dimension, g row column = g column row := by
  refine ⟨fun row column =>
    ((s.members row).map fun a => ((s.members column).map fun b => f a b).sum).sum,
    fun row hrow column hcolumn => ?_, fun row hrow column hcolumn => ?_⟩
  · rw [MkSymmetricReference.orbitSum, foldlM_add (g := fun cell => f cell.1 cell.2),
      sum_cells, zero_add]
    intro cell hcell total
    simp only [List.mem_flatMap, List.mem_map] at hcell
    obtain ⟨a, ha, b, hb, rfl⟩ := hcell
    rw [hentry (h.accepted hrow hcolumn ha hb)]
    rfl
  · dsimp only
    rw [sum_swap]
    refine congrArg List.sum (List.map_congr_left fun b hb =>
      congrArg List.sum (List.map_congr_left fun a ha => ?_))
    exact hsymm (h.accepted hrow hcolumn ha hb)

theorem Accepted.swap {r : MkMonomialReference} {a b : MultiIndex} (h : Accepted r a b) :
    Accepted r b a :=
  ⟨h.right, h.left, h.right_le, h.left_le⟩

theorem exponent_comm (a b : MultiIndex) (i : Nat) : exponent a b i = exponent b a i :=
  Nat.add_comm _ _

theorem iEntry_symmetric {r : MkMonomialReference} (hr : Admitted r) {a b : MultiIndex}
    (hab : Accepted r a b) :
    r.iEntry a b = r.iEntry b a := by
  rw [iEntry_ok hr hab, iEntry_ok hr hab.swap]
  simp only [exponent_comm a b, add_right_comm]

theorem jEntry_symmetric {r : MkMonomialReference} (hr : Admitted r) {a b : MultiIndex}
    (hab : Accepted r a b) {m : Nat} (hm : m < r.k) : r.jEntry m a b = r.jEntry m b a := by
  rw [jEntry_ok hr hab hm, jEntry_ok hr hab.swap hm]
  simp only [exponent_comm a b, add_right_comm _ a.sum, mul_comm ((a.getD m 0 : ℚ) + 1)]

/-- Every entry exists, and the matrix is symmetric. -/
theorem formEntry_ok (h : Covers s k degree) (form : MkSymmetricForm) :
    ∃ g : Nat → Nat → ℚ, (∀ row < s.dimension, ∀ column < s.dimension, s.formEntry form row column =
      .ok (g row column)) ∧
      ∀ row < s.dimension, ∀ column < s.dimension, g row column = g column row := by
  obtain ⟨-, -, -, hr⟩ := new_ok h.engine
  have hcheck : ∀ row < s.dimension, ∀ column < s.dimension, s.checkEntryIndices row column =
      .ok () := by
    intro row hrow column hcolumn
    simp [MkSymmetricReference.checkEntryIndices, check, hrow, hcolumn]
  cases form with
  | iMetric =>
    obtain ⟨g, hg, hsymm⟩ := @orbitSum_symmetric s k degree h s.monomial.iEntry
      (fun a b => (s.monomial.iEntry a b).toOption.getD 0)
      (fun hab => by rw [iEntry_ok hr hab]; rfl) (fun hab => by rw [iEntry_symmetric hr hab])
    refine ⟨g, fun row hrow column hcolumn => ?_, hsymm⟩
    rw [MkSymmetricReference.formEntry, MkSymmetricReference.iEntry,
      hcheck row hrow column hcolumn, ok_bind]
    exact hg row hrow column hcolumn
  | jTotal =>
    obtain ⟨g, hg, hsymm⟩ := @orbitSum_symmetric s k degree h s.monomial.jTotalEntry
      (fun a b => (s.monomial.jTotalEntry a b).toOption.getD 0)
      (fun hab => by
        obtain ⟨v, hv⟩ := jTotalEntry_ok hr hab
        rw [hv]
        rfl)
      (fun {a b} hab => by
        have hfold : s.monomial.jTotalEntry a b = s.monomial.jTotalEntry b a := by
          have hstep : ∀ {a b : MultiIndex}, Accepted s.monomial a b → s.monomial.jTotalEntry a b =
              .ok (0 + ((List.range s.monomial.k).map fun m =>
                (s.monomial.jEntry m a b).toOption.getD 0).sum) := by
            intro a b hab
            refine foldlM_add (fun m hm total => ?_) 0
            rw [jEntry_ok hr hab (List.mem_range.mp hm), ok_bind]
            rfl
          rw [hstep hab, hstep hab.swap]
          refine congrArg (fun values : List ℚ => Except.ok (0 + values.sum))
            (List.map_congr_left fun m hm => ?_)
          rw [jEntry_symmetric hr hab (List.mem_range.mp hm)]
        rw [hfold])
    refine ⟨g, fun row hrow column hcolumn => ?_, hsymm⟩
    rw [MkSymmetricReference.formEntry, MkSymmetricReference.jTotalEntry,
      hcheck row hrow column hcolumn, ok_bind]
    exact hg row hrow column hcolumn

end

/-! ## What is skipped -/

section
variable (s : MkSymmetricReference)

def degreeOf (row : Nat) : Nat := (s.orbitDegree row).toOption.getD 0

def within (halfWidth row column : Nat) : Bool :=
  absDiff (degreeOf s row) (degreeOf s column) ≤ halfWidth

/-- The part of the matrix outside the band. -/
def skipped (g : Nat → Nat → ℚ) (halfWidth row column : Nat) : ℚ :=
  if within s halfWidth row column then 0 else g row column

variable {s}

theorem orbitDegree_ok {row rowDegree : Nat} (h : s.orbitDegree row = .ok rowDegree) :
    degreeOf s row = rowDegree := by
  rw [degreeOf, h]
  rfl

theorem within_comm (halfWidth row column : Nat) :
    within s halfWidth row column = within s halfWidth column row := by
  have hcomm : absDiff (degreeOf s row) (degreeOf s column) = absDiff (degreeOf s column)
      (degreeOf s row) := by
    unfold absDiff
    split <;> split <;> omega
  rw [within, within, hcomm]

variable {form : MkSymmetricForm} {g : Nat → Nat → ℚ} {halfWidth row : Nat}

/-- One entry: its degree is known, and it is added when it is skipped. -/
theorem scanColumn_ok {rowDegree column : Nat} {scan scan' : BandScan}
    (hrow : degreeOf s row = rowDegree) (hentry : s.formEntry form row column = .ok (g row column))
    (h : scanColumn s form halfWidth row rowDegree scan column = .ok scan') :
    s.orbitDegree column = .ok (degreeOf s column) ∧ scan'.maximumOmittedRowSum =
      scan.maximumOmittedRowSum ∧
      scan'.omittedRowSum = scan.omittedRowSum + |skipped s g halfWidth row column| := by
  unfold scanColumn at h
  obtain ⟨columnDegree, hcolumn, h⟩ := bind_eq_ok h
  rw [hentry, ok_bind] at h
  have hdegree := orbitDegree_ok hcolumn
  refine ⟨by rw [hdegree]; exact hcolumn, ?_⟩
  unfold skipped within
  rw [hrow, hdegree]
  split at h
  · rename_i hin
    cases h
    simp [hin]
  · rename_i hout
    cases h
    simp [hout]

theorem scanColumns_ok {rowDegree : Nat} {columns : List Nat} {scan scan' : BandScan}
    (hrow : degreeOf s row = rowDegree)
    (hentry : ∀ c ∈ columns, s.formEntry form row c = .ok (g row c))
    (h : columns.foldlM (scanColumn s form halfWidth row rowDegree) scan = .ok scan') :
    scan'.maximumOmittedRowSum = scan.maximumOmittedRowSum ∧
      scan'.omittedRowSum = scan.omittedRowSum + (columns.map fun c =>
        |skipped s g halfWidth row c|).sum := by
  induction columns generalizing scan with
  | nil =>
    cases h
    simp
  | cons c columns ih =>
    rw [List.foldlM_cons] at h
    obtain ⟨middle, hfirst, hrest⟩ := bind_eq_ok h
    obtain ⟨-, hmax, hsum⟩ := scanColumn_ok hrow (hentry c List.mem_cons_self) hfirst
    obtain ⟨hmax', hsum'⟩ := ih (fun d hd => hentry d (List.mem_cons_of_mem _ hd)) hrest
    refine ⟨hmax'.trans hmax, ?_⟩
    rw [hsum', hsum, List.map_cons, List.sum_cons, add_assoc]

/-- The rows: every degree is known, and no row sum exceeds the maximum. -/
theorem scanRows_ok {rows : List Nat} {scan scan' : BandScan}
    (hentry : ∀ row ∈ rows, ∀ c < s.dimension, s.formEntry form row c = .ok (g row c))
    (h : rows.foldlM (scanRow s form halfWidth) scan = .ok scan') :
    scan.maximumOmittedRowSum ≤ scan'.maximumOmittedRowSum ∧
      ∀ row ∈ rows, s.orbitDegree row = .ok (degreeOf s row) ∧
        ∑ c ∈ Finset.range s.dimension, |skipped s g halfWidth row c| ≤
          scan'.maximumOmittedRowSum := by
  induction rows generalizing scan with
  | nil =>
    cases h
    simp
  | cons row rows ih =>
    rw [List.foldlM_cons] at h
    obtain ⟨middle, hfirst, hrest⟩ := bind_eq_ok h
    obtain ⟨hle, hlater⟩ := ih (fun r hr => hentry r (List.mem_cons_of_mem _ hr)) hrest
    unfold scanRow at hfirst
    obtain ⟨rowDegree, hrow, hfirst⟩ := bind_eq_ok hfirst
    obtain ⟨scanned, hscan, hfirst⟩ := bind_eq_ok hfirst
    cases hfirst
    have hdegree := orbitDegree_ok hrow
    obtain ⟨hmax, hsum⟩ := scanColumns_ok hdegree
      (fun c hc => hentry row List.mem_cons_self c (List.mem_range.mp hc)) hscan
    dsimp only at hmax hsum hle
    rw [zero_add, sum_range] at hsum
    refine ⟨?_, fun r hr => ?_⟩
    · rw [← hmax]
      exact (le_max_left _ _).trans hle
    · rcases List.mem_cons.mp hr with rfl | hr
      · refine ⟨by rw [hdegree]; exact hrow, ?_⟩
        rw [← hsum]
        exact (le_max_right _ _).trans hle
      · exact hlater r hr

/-- What a constructed action records. -/
theorem construct_ok {sha256 : Bytes → String} {action : MkCertifiedDegreeBandAction}
    (hentry : ∀ row < s.dimension, ∀ c < s.dimension, s.formEntry form row c = .ok (g row c))
    (h : MkCertifiedDegreeBandAction.construct sha256 s form halfWidth = .ok action) :
    action.form = form ∧ action.halfWidth = halfWidth ∧
      ∃ bound, rationalRecordValue action.certificate.rigorousOperatorErrorBound = .ok bound ∧
        ∀ row < s.dimension, s.orbitDegree row = .ok (degreeOf s row) ∧
          ∑ c ∈ Finset.range s.dimension, |skipped s g halfWidth row c| ≤ bound := by
  unfold MkCertifiedDegreeBandAction.construct at h
  obtain ⟨_, -, h⟩ := bind_eq_ok h
  obtain ⟨scan, hscan, h⟩ := bind_eq_ok h
  obtain ⟨_, -, h⟩ := bind_eq_ok h
  cases h
  obtain ⟨-, hrows⟩ := scanRows_ok (fun row hrow => hentry row (List.mem_range.mp hrow)) hscan
  exact ⟨rfl, rfl, _, rationalRecordValue_record _, fun row hrow =>
    hrows row (List.mem_range.mpr hrow)⟩

/-! ## What is retained -/

theorem retainColumns_ok {columns : List Nat}
    (hcolumns : ∀ c ∈ columns, s.orbitDegree c = .ok (degreeOf s c) ∧
      s.formEntry form row c = .ok (g row c))
    (retained : List (Nat × ℚ)) :
    columns.foldlM (retainColumn s form halfWidth row (degreeOf s row)) retained =
      .ok (retained ++ (columns.filter (within s halfWidth row)).map fun c => (c, g row c)) := by
  induction columns generalizing retained with
  | nil =>
    rw [List.filter_nil, List.map_nil, List.append_nil]
    rfl
  | cons c columns ih =>
    obtain ⟨hdegree, hentry⟩ := hcolumns c List.mem_cons_self
    have hrest := ih fun d hd => hcolumns d (List.mem_cons_of_mem _ hd)
    rw [List.foldlM_cons, retainColumn, hdegree, ok_bind, hentry]
    by_cases hin : absDiff (degreeOf s row) (degreeOf s c) ≤ halfWidth
    · have hwithin : within s halfWidth row c = true := by simpa [within] using hin
      rw [if_pos hin, ok_bind, List.filter_cons_of_pos hwithin, List.map_cons]
      change columns.foldlM _ (retained ++ [(c, g row c)]) = _
      rw [hrest, List.append_assoc, List.singleton_append]
    · have hwithin : ¬ within s halfWidth row c = true := by simpa [within] using hin
      rw [if_neg hin, List.filter_cons_of_neg hwithin]
      exact hrest retained

theorem sum_filter_map (columns : List Nat) (p : Nat → Bool) (f : Nat → ℚ) :
    ((columns.filter p).map f).sum = (columns.map fun c => if p c then f c else 0).sum := by
  induction columns with
  | nil => rfl
  | cons c columns ih =>
    rw [List.map_cons, List.sum_cons]
    by_cases hp : p c = true
    · rw [List.filter_cons_of_pos hp, List.map_cons, List.sum_cons, ih, if_pos hp]
    · rw [List.filter_cons_of_neg hp, ih, if_neg hp, zero_add]

theorem applyRow_ok {input : List ℚ} (hlength : input.length = s.dimension) :
    applyRow input (((List.range s.dimension).filter (within s halfWidth row)).map fun c =>
      (c, g row c)) =
      .ok (∑ c ∈ Finset.range s.dimension, (g row c - skipped s g halfWidth row c) *
        input.getD c 0) := by
  unfold applyRow
  rw [foldlM_add (g := fun cell => cell.2 * input.getD cell.1 0), List.map_map, sum_filter_map,
    zero_add, sum_range]
  · refine congrArg Except.ok (Finset.sum_congr rfl fun c _ => ?_)
    unfold skipped
    split <;> simp
  · intro cell hcell total
    obtain ⟨c, hc, rfl⟩ := List.mem_map.mp hcell
    have hlt : c < input.length := by
      rw [hlength]
      exact List.mem_range.mp (List.mem_filter.mp hc).1
    have hread : panicking (read input c) = .ok (input.getD c 0) := by
      unfold Machine.read
      rw [List.getElem?_eq_getElem hlt, List.getD_eq_getElem _ _ hlt]
      rfl
    rw [hread, ok_bind]
    rfl

end

/-- The product with a row-major matrix. -/
def denseRow (matrix : List ℚ) (dimension : Nat) (input : List ℚ) (row : Nat) : ℚ :=
  ∑ column ∈ Finset.range dimension, matrix.getD (row * dimension + column) 0 * input.getD column 0

def normSq (dimension : Nat) (v : Nat → ℚ) : ℚ := ∑ i ∈ Finset.range dimension, v i ^ 2

theorem denseExact_eq (s : MkSymmetricReference) (form : MkSymmetricForm) :
    s.denseExact form = MkMonomialReference.denseOf s.dimension (s.formEntry form) := by
  cases form <;> rfl

/-- **Degree bands.** A constructed action verifies, and a verified one misses the full matrix by at
most its recorded bound in the Euclidean norm. -/
theorem degree_band_bounded (sha256 : Bytes → String) {k degree : Nat} {s : MkSymmetricReference}
    (h : MkSymmetricReference.new k degree = .ok s) :
    (∀ form halfWidth action, MkCertifiedDegreeBandAction.construct sha256 s form halfWidth =
      .ok action →
      action.form = form ∧ action.halfWidth = halfWidth ∧
      ∃ verified, action.verify sha256 s = .ok verified) ∧
    ∀ action verified, MkCertifiedDegreeBandAction.verify sha256 action s = .ok verified →
      ∃ matrix bound, s.denseExact action.form = .ok matrix ∧
        rationalRecordValue action.certificate.rigorousOperatorErrorBound = .ok bound ∧
        ∀ x : List ℚ, x.length = s.dimension → ∃ y, verified.applyExact x = .ok y ∧
        y.length = s.dimension ∧
          normSq s.dimension (fun i => denseRow matrix s.dimension x i - y.getD i 0) ≤
            bound ^ 2 * normSq s.dimension fun i => x.getD i 0 := by
  have hcovers := new_covers h
  have hretain : ∀ {form halfWidth action}, MkCertifiedDegreeBandAction.construct sha256 s form
    halfWidth = .ok action →
      ∀ {g : Nat → Nat → ℚ}, (∀ row < s.dimension, ∀ c < s.dimension, s.formEntry form row c =
        .ok (g row c)) →
      (List.range s.dimension).mapM (retainRow s form halfWidth) =
          .ok ((List.range s.dimension).map fun row =>
        ((List.range s.dimension).filter (within s halfWidth row)).map fun c => (c, g row c)) := by
    intro form halfWidth action hconstruct g hg
    obtain ⟨-, -, _, -, hrows⟩ := construct_ok hg hconstruct
    refine mapM_ok fun row hrow => ?_
    have hrow' := List.mem_range.mp hrow
    rw [retainRow, (hrows row hrow').1, ok_bind, retainColumns_ok, List.nil_append]
    intro c hc
    have hc' := List.mem_range.mp hc
    exact ⟨(hrows c hc').1, hg row hrow' c hc'⟩
  constructor
  · intro form halfWidth action hconstruct
    obtain ⟨g, hg, -⟩ := formEntry_ok hcovers form
    obtain ⟨hform, hwidth, -⟩ := construct_ok hg hconstruct
    refine ⟨hform, hwidth, ?_⟩
    unfold MkCertifiedDegreeBandAction.verify
    rw [hform, hwidth, hconstruct, ok_bind, check, if_pos (decide_eq_true rfl), ok_bind,
      hretain hconstruct hg, ok_bind]
    exact ⟨_, rfl⟩
  · intro action verified hverify
    unfold MkCertifiedDegreeBandAction.verify at hverify
    obtain ⟨replay, hconstruct, hverify⟩ := bind_eq_ok hverify
    obtain ⟨_, hsame, hverify⟩ := bind_eq_ok hverify
    obtain ⟨rows, hrows, hverify⟩ := bind_eq_ok hverify
    cases hverify
    have hreplay : replay = action := of_decide_eq_true (check_ok hsame)
    rw [hreplay] at hconstruct
    obtain ⟨g, hg, hsymm⟩ := formEntry_ok hcovers action.form
    obtain ⟨-, -, bound, hbound, hsums⟩ := construct_ok hg hconstruct
    rw [hretain hconstruct hg] at hrows
    cases hrows
    obtain ⟨matrix, hmatrix, hget⟩ := denseOf_ok hg
    refine ⟨matrix, bound, by rw [denseExact_eq]; exact hmatrix, hbound, fun x hx => ?_⟩
    have happly : (⟨s, (List.range s.dimension).map fun row =>
        ((List.range s.dimension).filter (within s action.halfWidth row)).map fun c =>
          (c, g row c)⟩ :
          VerifiedMkDegreeBandAction).applyExact x = .ok ((List.range s.dimension).map fun row =>
            ∑ c ∈ Finset.range s.dimension, (g row c - skipped s g action.halfWidth row c) *
                x.getD c 0) := by
      unfold VerifiedMkDegreeBandAction.applyExact
      rw [MkSymmetricReference.checkCoefficients, if_pos hx, ok_bind, List.mapM_map]
      exact mapM_ok fun row _ => applyRow_ok hx
    refine ⟨_, happly, by simp, ?_⟩
    -- the difference is the skipped matrix applied to the input
    have hdifference : ∀ i ∈ Finset.range s.dimension, (denseRow matrix s.dimension x i -
        ((List.range s.dimension).map fun row => ∑ c ∈ Finset.range s.dimension,
          (g row c - skipped s g action.halfWidth row c) * x.getD c 0).getD i 0) ^ 2 =
        (∑ c ∈ Finset.range s.dimension, skipped s g action.halfWidth i c * x.getD c 0) ^ 2 := by
      intro i hi
      have hi' := Finset.mem_range.mp hi
      rw [List.getD_eq_getElem _ _ (by simpa using hi'), List.getElem_map,
        List.getElem_range, denseRow, ← Finset.sum_sub_distrib]
      refine congrArg (· ^ 2) (Finset.sum_congr rfl fun c hc => ?_)
      rw [hget i hi' c (Finset.mem_range.mp hc)]
      ring
    rw [normSq, Finset.sum_congr rfl hdifference]
    refine SchurTest.norm_sq_le _ (skipped s g action.halfWidth) bound _ (fun i hi j hj => ?_)
      fun i hi => ?_
    · unfold skipped
      rw [within_comm, hsymm i (Finset.mem_range.mp hi) j (Finset.mem_range.mp hj)]
    · exact (hsums i (Finset.mem_range.mp hi)).2

def bandReference : MkSymmetricReference :=
  ⟨⟨2, 1, [[0, 0], [0, 1], [1, 0]], [1, 1, 2, 6, 24, 120]⟩,
    [⟨[], [[0, 0]]⟩, ⟨[1], [[0, 1], [1, 0]]⟩], [([0, 0], 0), ([0, 1], 1), ([1, 0], 2)]⟩

theorem bandReference_ok : MkSymmetricReference.new 2 1 = .ok bandReference := by decide +kernel

/-- The diagonal band of the second form is constructed and replayed, and its bound is 5/12. -/
theorem degree_band_bounded_plane :
    ∃ action verified matrix y,
      MkCertifiedDegreeBandAction.construct (fun _ => "00") bandReference .jTotal 0 = .ok action ∧
      action.verify (fun _ => "00") bandReference = .ok verified ∧
      bandReference.denseExact .jTotal = .ok matrix ∧ verified.applyExact [1, 2] = .ok y ∧
      normSq 2 (fun i => denseRow matrix 2 [1, 2] i - y.getD i 0) ≤
        (5 / 12) ^ 2 * normSq 2 fun i => ([1, 2] : List ℚ).getD i 0 := by
  have hsome : (MkCertifiedDegreeBandAction.construct (fun _ =>
    "00") bandReference .jTotal 0).toOption.map
      (fun action => (rationalRecordValue action.certificate.rigorousOperatorErrorBound).toOption) =
        some (some (5 / 12)) := by
    decide +kernel
  obtain ⟨hconstructed, hverified⟩ := degree_band_bounded (fun _ => "00") bandReference_ok
  cases hconstruct : MkCertifiedDegreeBandAction.construct (fun _ =>
    "00") bandReference .jTotal 0 with
  | error refusal => simp [hconstruct, Except.toOption] at hsome
  | ok action =>
    obtain ⟨hform, -, verified, hverify⟩ := hconstructed .jTotal 0 action hconstruct
    obtain ⟨matrix, bound, hmatrix, hbound, hbounded⟩ := hverified action verified hverify
    obtain ⟨y, hy, -, hle⟩ := hbounded [1, 2] rfl
    have hvalue : bound = 5 / 12 := by simpa [hconstruct, hbound, Except.toOption] using hsome
    exact ⟨action, verified, matrix, y, rfl, hverify, hform ▸ hmatrix, hy, hvalue ▸ hle⟩

end Xcelerator.Variational.Maynard
