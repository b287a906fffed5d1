import Mathlib
import Xcelerator.Core.DecimalLiteral
import Xcelerator.Foundations.DirectedRounding
import Xcelerator.Numerics.MpfrFloat
import Xcelerator.Numerics.MpfrRounded
import Xcelerator.Numerics.SymmetricInertia

/-! # Counting the eigenvalues of a closed decimal interval

Each decimal endpoint is rounded down and up, the inertia is asked for at the
four shifts, and the counts are reconciled. The reading of decimals and the two
sources of inertia are parameters. -/

namespace Xcelerator.Solver.BoundaryCount
open Xcelerator.Core
open Xcelerator.Foundations.BinaryRounding (Round)
open Xcelerator.Foundations.Machine (mapError_ok)
open Xcelerator.Foundations.DirectedRounding Xcelerator.Numerics.MpfrFloat
open Xcelerator.Numerics.Interval (IntervalError)
open Xcelerator.Numerics.SymmetricInertia (MpfrInertiaResult)

inductive SolverError where
  | invalidConfiguration (message : String)
  | operator (message : String)
  | numericalBreakdown (message : String)
deriving DecidableEq

structure SpectralInertia where
  below : Nat
  equal : Nat
  above : Nat
deriving DecidableEq

structure SymmetricOperator where
  dimension : Nat
  spectralInertiaAt : MpfrFloat → Except String (Option SpectralInertia)
  storedSymmetricEntries : Option (List MpfrFloat)
  spectralInertiaWorkingBytes : Option Nat

structure Sources where
  /-- `Float::parse` followed by `Float::with_val_round`. -/
  parseFloat : List Char → Nat → Round → Except String MpfrFloat
  pointMatrixInertiaAt : List MpfrFloat → Nat → MpfrFloat → Nat → Nat →
    Except IntervalError MpfrInertiaResult

inductive BoundaryCountEvidenceHp where
  | verified (lowerShift : Option MpfrFloat) (upperShift : MpfrFloat) (count : Nat)
  | observedCluster
  | countMismatch (expected observed : Nat)
  | unavailable (reason : String)
deriving DecidableEq

/-! ## Directed decimal endpoints -/

def invalid {α : Type} (x : Except String α) : Except SolverError α :=
  x.mapError .invalidConfiguration

/-- The rounded value with the refusal of a range that does not hold the literal. -/
def hpRead (s : Sources) (literal : DecimalLiteral) (p : Nat) (round : Round) (message : String) :
    Except SolverError MpfrFloat := do
  let value ← invalid (s.parseFloat literal.text p round)
  if !value.isFinite then .error (.invalidConfiguration message)
  else if value.finite? = some 0 then do
    let canonical ← invalid literal.canonical
    if canonical.text ≠ ['0'] then .error (.invalidConfiguration message) else return value
  else return value

def hpParseString (s : Sources) (value : List Char) (p : Nat) : Except SolverError MpfrFloat :=
  if ¬(32 ≤ p ∧ p ≤ 1000064) then .error (.invalidConfiguration "unsupported HP scalar precision")
  else do
    let literal ← invalid (DecimalLiteral.new value)
    hpRead s literal p .nearest "HP scalar is outside the representable exponent range"

def hpParseLiteral (s : Sources) (literal : DecimalLiteral) (p : Nat) :
    Except SolverError MpfrFloat := do
  invalid (DecimalLiteral.validateStr literal.text)
  hpParseString s literal.text p

def hpParseLiteralRound (s : Sources) (literal : DecimalLiteral) (p : Nat) (round : Round) :
    Except SolverError MpfrFloat := do
  let _ ← hpParseLiteral s literal p
  hpRead s literal p round "directed HP scalar is outside the supported range"

/-! ## Counts -/

def checkedAdd (a b : Nat) : Option Nat := if a + b < 2 ^ 64 then some (a + b) else none

def checkedCount (count : SpectralInertia) (dimension : Nat) :
    Except SolverError (Option SpectralInertia) :=
  if ((checkedAdd count.below count.equal).bind fun n => checkedAdd n count.above) ≠
      some dimension then
    .error (.numericalBreakdown
      "source-bound spectral inertia does not exhaust the operator dimension")
  else .ok (some count)

def denseCountMaximumBytes : Nat := 64 * 1024 * 1024

def sourcePrecision (matrix : List MpfrFloat) (shift : MpfrFloat) (p : Nat) : Nat :=
  max (max ((matrix.map MpfrFloat.precision).max?.getD p) shift.precision) p

/-- The working precision, where 32 bits can be added within the limit. -/
def workingPrecision (precision : Nat) : Option Nat :=
  if precision + 32 < 2 ^ 32 ∧ precision + 32 ≤ 1000000 then some (precision + 32) else none

def inertia (s : Sources) (operator : SymmetricOperator) (shift : MpfrFloat) (p : Nat) :
    Except SolverError (Option SpectralInertia) := do
  match ← (operator.spectralInertiaAt shift).mapError .operator with
  | some count => checkedCount count operator.dimension
  | none =>
    match operator.storedSymmetricEntries with
    | none => return none
    | some matrix =>
      match workingPrecision (sourcePrecision matrix shift p) with
      | none => return none
      | some working =>
        match s.pointMatrixInertiaAt matrix operator.dimension shift working
            (operator.spectralInertiaWorkingBytes.getD denseCountMaximumBytes) with
        | .ok (.conclusive positive negative _) =>
          checkedCount ⟨negative, 0, positive⟩ operator.dimension
        | .ok (.inconclusive ..) => return none
        | .error (.inconclusive _) => return none
        | .error error => .error (.numericalBreakdown error.display)

def unavailable : BoundaryCountEvidenceHp :=
  .unavailable "source-bound closed interval count or endpoint rounding-band exclusion unavailable"

/-- Two shifts around an endpoint with eigenvalues on or between them. -/
def unresolved (down up : MpfrFloat) (below above : SpectralInertia) : Bool :=
  !down.eq up && (below.equal != 0 || above.equal != 0 || below.below != above.below)

def intervalCount (s : Sources) (operator : SymmetricOperator) (lower upper : DecimalLiteral)
    (expected p : Nat) :
    Except SolverError BoundaryCountEvidenceHp := do
  let ld ← hpParseLiteralRound s lower p .down
  let lu ← hpParseLiteralRound s lower p .up
  let ud ← hpParseLiteralRound s upper p .down
  let uu ← hpParseLiteralRound s upper p .up
  let lod ← inertia s operator ld p
  let lou ← inertia s operator lu p
  let hid ← inertia s operator ud p
  let hiu ← inertia s operator uu p
  match lod, lou, hid, hiu with
  | some lod, some lou, some hid, some hiu =>
    if unresolved ld lu lod lou || unresolved ud uu hid hiu then return unavailable
    else
      match checkedAdd hiu.below hiu.equal with
      | none => .error (.numericalBreakdown "source interval count overflow")
      | some upperInclusive =>
        if upperInclusive < lod.below then
          .error (.numericalBreakdown "source interval counts are not monotone")
        else if upperInclusive - lod.below = expected then
          return .verified (some ld) uu (upperInclusive - lod.below)
        else return .countMismatch expected (upperInclusive - lod.below)
  | _, _, _, _ => return unavailable

/-! ## The assumptions -/

section
variable {n : Nat} {A : Matrix (Fin n) (Fin n) ℝ}

/-- How many eigenvalues, with multiplicity, have a property. -/
noncomputable def eigenvalueCount (hA : A.IsHermitian) (P : ℝ → Prop) : Nat :=
  { i | P (hA.eigenvalues i) }.ncard

/-- What is assumed of the sources of inertia: an answer at a finite shift is exact. -/
structure ExactInertia (s : Sources) (operator : SymmetricOperator) (hA : A.IsHermitian) :
    Prop where
  dimension : operator.dimension = n
  provider : ∀ (shift : MpfrFloat) (t : ℚ) (count : SpectralInertia), shift.finite? = some t →
    operator.spectralInertiaAt shift = .ok (some count) →
    count.below = eigenvalueCount hA (· < (t : ℝ)) ∧
    count.equal = eigenvalueCount hA (· = (t : ℝ)) ∧
      count.above = eigenvalueCount hA ((t : ℝ) < ·)
  stored : ∀ (matrix : List MpfrFloat) (shift : MpfrFloat) (t : ℚ)
    (working bytes positive negative : Nat) enclosures,
    operator.storedSymmetricEntries = some matrix → shift.finite? = some t →
    s.pointMatrixInertiaAt matrix operator.dimension shift working bytes =
      .ok (.conclusive positive negative enclosures) →
    negative = eigenvalueCount hA (· < (t : ℝ)) ∧ positive = eigenvalueCount hA ((t : ℝ) < ·)

/-- What is assumed of the reading of an endpoint: correct rounding down and up. -/
structure ReadsDirected (s : Sources) (expMin expMax : Int) (p : Nat) (literal : DecimalLiteral) :
    Prop where
  down : ∀ x, s.parseFloat literal.text p .down = .ok x →
    ∃ t, x.Denotes t ∧ RoundsDown (formatValues expMin expMax p) (literal.value : ℝ) t
  up : ∀ x, s.parseFloat literal.text p .up = .ok x →
    ∃ t, x.Denotes t ∧ RoundsUp (formatValues expMin expMax p) (literal.value : ℝ) t

/-! ## Soundness -/

theorem denotes_finite {x : MpfrFloat} {v : ℚ} {t : EReal} (hx : x.finite? = some v)
    (ht : x.Denotes t) :
    t = ((v : ℝ) : EReal) := by
  rw [MpfrFloat.finite?] at hx
  rw [MpfrFloat.Denotes] at ht
  cases hdatum : x.datum with
  | nan => rw [hdatum] at hx; cases hx
  | infinity negative => rw [hdatum] at hx; cases hx
  | zero negative =>
    rw [hdatum] at hx ht
    rw [ht, ← Option.some.inj hx]
    simp
  | normal value nonzero =>
    rw [hdatum] at hx ht
    rw [ht, ← Option.some.inj hx]

theorem hpRead_ok {s : Sources} {literal : DecimalLiteral} {p : Nat} {round : Round}
    {message : String} {x : MpfrFloat} (h : hpRead s literal p round message = .ok x) :
    s.parseFloat literal.text p round = .ok x ∧ ∃ v, x.finite? = some v := by
  obtain ⟨value, hvalue, h⟩ := Foundations.Machine.bind_eq_ok h
  have hread := mapError_ok hvalue
  split at h
  · cases h
  · rename_i hfinite
    have hsome : ∃ v, value.finite? = some v := by
      rw [MpfrFloat.isFinite, Bool.not_eq_true, Bool.not_eq_false'] at hfinite
      exact Option.isSome_iff_exists.mp hfinite
    split at h
    · obtain ⟨canonical, -, h⟩ := Foundations.Machine.bind_eq_ok h
      split at h
      · cases h
      · cases h
        exact ⟨hread, hsome⟩
    · cases h
      exact ⟨hread, hsome⟩

theorem hpParseLiteralRound_ok {s : Sources} {literal : DecimalLiteral} {p : Nat} {round : Round}
    {x : MpfrFloat} (h : hpParseLiteralRound s literal p round = .ok x) :
    s.parseFloat literal.text p round = .ok x ∧ ∃ v, x.finite? = some v := by
  obtain ⟨_, -, h⟩ := Foundations.Machine.bind_eq_ok h
  exact hpRead_ok h

/-- The two readings enclose the endpoint. -/
theorem ReadsDirected.enclose {s : Sources} {expMin expMax : Int} {p : Nat}
    {literal : DecimalLiteral} (h : ReadsDirected s expMin expMax p literal) {down up : MpfrFloat}
    (hdown : hpParseLiteralRound s literal p .down = .ok down)
    (hup : hpParseLiteralRound s literal p .up = .ok up) :
    ∃ a b : ℚ, down.finite? = some a ∧ up.finite? = some b ∧ a ≤ literal.value ∧
    literal.value ≤ b := by
  obtain ⟨hdown, a, ha⟩ := hpParseLiteralRound_ok hdown
  obtain ⟨hup, b, hb⟩ := hpParseLiteralRound_ok hup
  obtain ⟨t, ht, hround⟩ := h.down down hdown
  obtain ⟨u, hu, hround'⟩ := h.up up hup
  have hle := hround.le
  have hge := hround'.le
  rw [denotes_finite ha ht, EReal.coe_le_coe_iff] at hle
  rw [denotes_finite hb hu, EReal.coe_le_coe_iff] at hge
  exact ⟨a, b, ha, hb, by exact_mod_cast hle, by exact_mod_cast hge⟩

theorem checkedAdd_some {a b c : Nat} (h : checkedAdd a b = some c) : c = a + b := by
  rw [checkedAdd] at h
  split at h
  · exact (Option.some.inj h).symm
  · cases h

theorem checkedCount_some {count count' : SpectralInertia} {dimension : Nat}
    (h : checkedCount count dimension = .ok (some count')) :
    count' = count ∧ count.below + count.equal + count.above = dimension := by
  rw [checkedCount] at h
  split at h
  · cases h
  · rename_i hsum
    rw [not_not] at hsum
    obtain ⟨lower, hlower, htotal⟩ := Option.bind_eq_some_iff.mp hsum
    have hleft := checkedAdd_some hlower
    have hright := checkedAdd_some htotal
    cases h
    exact ⟨rfl, by omega⟩

theorem count_or (hA : A.IsHermitian) {P Q : ℝ → Prop} (h : ∀ x, P x → ¬Q x) :
    eigenvalueCount hA (fun x => P x ∨ Q x) = eigenvalueCount hA P + eigenvalueCount hA Q := by
  have hdisjoint : Disjoint { i | P (hA.eigenvalues i) } { i | Q (hA.eigenvalues i) } :=
    Set.disjoint_left.mpr fun i hi => h _ hi
  exact Set.ncard_union_eq hdisjoint (Set.toFinite _) (Set.toFinite _)

theorem count_congr (hA : A.IsHermitian) {P Q : ℝ → Prop}
    (h : ∀ i, P (hA.eigenvalues i) ↔ Q (hA.eigenvalues i)) :
    eigenvalueCount hA P = eigenvalueCount hA Q := congrArg Set.ncard (Set.ext h)

theorem count_total (hA : A.IsHermitian) (t : ℝ) :
    eigenvalueCount hA (· < t) + eigenvalueCount hA (· = t) + eigenvalueCount hA (t < ·) = n := by
  have hall : eigenvalueCount hA (fun _ => True) = n := by
    rw [eigenvalueCount]
    simp
  have hne : ∀ x, x < t → ¬x = t := fun x hx => hx.ne
  have hgt : ∀ x, x < t ∨ x = t → ¬t < x := by
    intro x hx
    rcases hx with hx | hx
    · exact hx.not_gt
    · exact hx.not_gt
  rw [← count_or hA hne, ← count_or hA hgt]
  refine (count_congr hA fun i => ⟨fun _ => trivial, fun _ => ?_⟩).trans hall
  rcases lt_trichotomy (hA.eigenvalues i) t with h | h | h
  · exact .inl (.inl h)
  · exact .inl (.inr h)
  · exact .inr h

/-- An answer of the inertia is exact, whichever source gave it. -/
theorem inertia_exact {s : Sources} {operator : SymmetricOperator} {hA : A.IsHermitian}
    (hexact : ExactInertia s operator hA) {shift : MpfrFloat} {t : ℚ}
    (ht : shift.finite? = some t) {p : Nat}
    {count : SpectralInertia} (h : inertia s operator shift p = .ok (some count)) :
    count.below = eigenvalueCount hA (· < (t : ℝ)) ∧
    count.equal = eigenvalueCount hA (· = (t : ℝ)) := by
  obtain ⟨answer, hanswer, h⟩ := Foundations.Machine.bind_eq_ok h
  have hprovider := mapError_ok hanswer
  cases answer with
  | some found =>
    obtain ⟨rfl, -⟩ := checkedCount_some h
    have := hexact.provider shift t _ ht hprovider
    exact ⟨this.1, this.2.1⟩
  | none =>
    simp only at h
    split at h
    · cases h
    · rename_i matrix hmatrix
      split at h
      · cases h
      · split at h
        · rename_i positive negative enclosures hpoint
          obtain ⟨rfl, hsum⟩ := checkedCount_some h
          obtain ⟨hnegative, hpositive⟩ :=
            hexact.stored matrix shift t _ _ positive negative enclosures hmatrix ht hpoint
          have htotal := count_total hA (t : ℝ)
          rw [hexact.dimension] at hsum
          simp only at hsum ⊢
          exact ⟨hnegative, by omega⟩
        · cases h
        · cases h
        · cases h

theorem count_mono (hA : A.IsHermitian) {P Q : ℝ → Prop} (h : ∀ x, P x → Q x) :
    eigenvalueCount hA P ≤ eigenvalueCount hA Q :=
  Set.ncard_le_ncard (fun _ hi => h _ hi) (Set.toFinite _)

/-- Where a weaker property counts no more, no eigenvalue distinguishes the two. -/
theorem of_count_le (hA : A.IsHermitian) {P Q : ℝ → Prop} (h : ∀ x, P x → Q x)
    (hcount : eigenvalueCount hA Q ≤ eigenvalueCount hA P) (i : Fin n) (hi : Q (hA.eigenvalues i)) :
    P (hA.eigenvalues i) := by
  have heq : { i | P (hA.eigenvalues i) } = { i | Q (hA.eigenvalues i) } :=
    Set.eq_of_subset_of_ncard_le (fun j hj => h _ hj) hcount (Set.toFinite _)
  exact (Set.ext_iff.mp heq i).mpr hi

theorem no_count (hA : A.IsHermitian) {P : ℝ → Prop} (h : eigenvalueCount hA P = 0) (i : Fin n) :
    ¬P (hA.eigenvalues i) := by
  have hempty := (Set.ncard_eq_zero (Set.toFinite _)).mp h
  exact fun hi => Set.eq_empty_iff_forall_notMem.mp hempty i hi

/-- Equal finite floats have equal values. -/
theorem eq_values {x y : MpfrFloat} {a b : ℚ} (hx : x.finite? = some a) (hy : y.finite? = some b)
    (h : x.eq y = true) : a = b := by
  have hrank : ∀ {z : MpfrFloat} {c : ℚ}, z.finite? = some c →
      z.datum.rank = some (toLex (0, c)) := by
    intro z c hz
    rw [MpfrFloat.finite?] at hz
    cases hdatum : z.datum with
    | nan => rw [hdatum] at hz; cases hz
    | infinity negative => rw [hdatum] at hz; cases hz
    | zero negative => rw [hdatum] at hz; rw [← Option.some.inj hz]; rfl
    | normal value nonzero => rw [hdatum] at hz; rw [← Option.some.inj hz]; rfl
  rw [MpfrFloat.eq, hrank hx, hrank hy] at h
  simpa using h

/-- The band of an endpoint holds no eigenvalue but the endpoint itself. -/
theorem band_clear {hA : A.IsHermitian} {down up : MpfrFloat} {a b c : ℚ}
    {below above : SpectralInertia}
    (ha : down.finite? = some a) (hb : up.finite? = some b) (hac : a ≤ c) (hcb : c ≤ b)
    (hbelow : below.below = eigenvalueCount hA (· < (a : ℝ)) ∧
      below.equal = eigenvalueCount hA (· = (a : ℝ)))
    (habove : above.below = eigenvalueCount hA (· < (b : ℝ)) ∧
      above.equal = eigenvalueCount hA (· = (b : ℝ)))
    (h : unresolved down up below above = false) (i : Fin n) :
    (hA.eigenvalues i < (a : ℝ) ↔ hA.eigenvalues i < (c : ℝ)) ∧
      (hA.eigenvalues i ≤ (b : ℝ) ↔ hA.eigenvalues i ≤ (c : ℝ)) := by
  have hac' : (a : ℝ) ≤ c := by exact_mod_cast hac
  have hcb' : (c : ℝ) ≤ b := by exact_mod_cast hcb
  by_cases hsame : down.eq up = true
  · -- a representable endpoint is its own band
    have hab := eq_values ha hb hsame
    have hca : c = a := le_antisymm (hab ▸ hcb) hac
    rw [hca, ← hab]
    exact ⟨Iff.rfl, Iff.rfl⟩
  · rw [Bool.not_eq_true] at hsame
    simp only [unresolved, hsame, Bool.not_false, Bool.true_and, Bool.or_eq_false_iff,
      bne_eq_false_iff_eq] at h
    obtain ⟨⟨-, hequal⟩, hcounts⟩ := h
    have hle : eigenvalueCount hA (· < (b : ℝ)) ≤ eigenvalueCount hA (· < (a : ℝ)) := by
      rw [← habove.1, ← hbelow.1, hcounts]
    have hlt : hA.eigenvalues i < (b : ℝ) → hA.eigenvalues i < (a : ℝ) :=
      of_count_le hA (fun x hx => lt_of_lt_of_le hx (hac'.trans hcb')) hle i
    have hne := no_count hA (habove.2.symm.trans hequal) i
    refine ⟨⟨fun hi => lt_of_lt_of_le hi hac', fun hi => hlt (lt_of_lt_of_le hi hcb')⟩,
      ⟨fun hi => ?_, fun hi => hi.trans hcb'⟩⟩
    exact (hlt (lt_of_le_of_ne hi hne)).le.trans hac'

/-- Counting up to the upper endpoint without what lies below the lower one. -/
theorem closed_count (hA : A.IsHermitian) {l u : ℝ}
    (h : eigenvalueCount hA (· < l) ≤ eigenvalueCount hA (· ≤ u)) :
    eigenvalueCount hA (fun x => l ≤ x ∧ x ≤ u) = eigenvalueCount hA (· ≤ u) - eigenvalueCount hA
      (· < l) := by
  rcases le_or_gt l u with hle | hlt
  · have hsplit : eigenvalueCount hA (· ≤ u) =
        eigenvalueCount hA (· < l) + eigenvalueCount hA (fun x => l ≤ x ∧ x ≤ u) := by
      rw [← count_or hA fun x hx hx' => absurd hx (not_lt.mpr hx'.1)]
      refine count_congr hA fun i => ⟨fun hi => ?_, fun hi => ?_⟩
      · rcases lt_or_ge (hA.eigenvalues i) l with hi' | hi'
        · exact .inl hi'
        · exact .inr ⟨hi', hi⟩
      · rcases hi with hi | hi
        · exact hi.le.trans hle
        · exact hi.2
    omega
  · -- reversed endpoints: the interval is empty and the counts agree
    have hempty : eigenvalueCount hA (fun x => l ≤ x ∧ x ≤ u) = 0 := by
      rw [eigenvalueCount, Set.ncard_eq_zero (Set.toFinite _)]
      exact Set.eq_empty_iff_forall_notMem.mpr fun i hi => absurd (hi.1.trans hi.2) (not_le.mpr hlt)
    have hmono : eigenvalueCount hA (· ≤ u) ≤ eigenvalueCount hA (· < l) :=
      count_mono hA fun x hx => lt_of_le_of_lt hx hlt
    omega

theorem inclusive_count (hA : A.IsHermitian) (t : ℝ) :
    eigenvalueCount hA (· < t) + eigenvalueCount hA (· = t) = eigenvalueCount hA (· ≤ t) := by
  rw [← count_or hA fun x hx => hx.ne]
  exact count_congr hA fun i => le_iff_lt_or_eq.symm

/-- **Closed intervals.** A verified count and an observed one are the number of eigenvalues in the
closed interval of the exact decimals, whatever their order and whether or not they are
representable. -/
theorem intervalCount_exact (s : Sources) (operator : SymmetricOperator) (hA : A.IsHermitian)
    (hexact : ExactInertia s operator hA) (expMin expMax : Int) (lower upper : DecimalLiteral)
    (expected p : Nat)
    (hlower : ReadsDirected s expMin expMax p lower)
    (hupper : ReadsDirected s expMin expMax p upper) :
    (∀ lowerShift upperShift count,
      intervalCount s operator lower upper expected p = .ok (.verified lowerShift upperShift count)
        →
      count = expected ∧
        eigenvalueCount hA (fun x => (lower.value : ℝ) ≤ x ∧ x ≤ (upper.value : ℝ)) = expected) ∧
    ∀ wanted observed,
      intervalCount s operator lower upper expected p = .ok (.countMismatch wanted observed) →
      wanted = expected ∧ observed ≠ expected ∧
        eigenvalueCount hA (fun x => (lower.value : ℝ) ≤ x ∧ x ≤ (upper.value : ℝ)) = observed := by
  -- whatever comes of the counts, their difference is the number of eigenvalues in the interval
  have hmain : ∀ evidence, intervalCount s operator lower upper expected p = .ok evidence →
      evidence = unavailable ∨ ∃ ld uu, evidence =
        if eigenvalueCount hA (fun x => (lower.value : ℝ) ≤ x ∧ x ≤ (upper.value : ℝ)) =
        expected then
          .verified (some ld) uu (eigenvalueCount hA fun x => (lower.value : ℝ) ≤ x ∧
            x ≤ (upper.value : ℝ))
        else .countMismatch expected
          (eigenvalueCount hA fun x => (lower.value : ℝ) ≤ x ∧ x ≤ (upper.value : ℝ)) := by
    intro evidence h
    obtain ⟨ld, hld, h⟩ := Foundations.Machine.bind_eq_ok h
    obtain ⟨lu, hlu, h⟩ := Foundations.Machine.bind_eq_ok h
    obtain ⟨ud, hud, h⟩ := Foundations.Machine.bind_eq_ok h
    obtain ⟨uu, huu, h⟩ := Foundations.Machine.bind_eq_ok h
    obtain ⟨lod, hlod, h⟩ := Foundations.Machine.bind_eq_ok h
    obtain ⟨lou, hlou, h⟩ := Foundations.Machine.bind_eq_ok h
    obtain ⟨hid, hhid, h⟩ := Foundations.Machine.bind_eq_ok h
    obtain ⟨hiu, hhiu, h⟩ := Foundations.Machine.bind_eq_ok h
    obtain ⟨a, b, ha, hb, hal, hlb⟩ := hlower.enclose hld hlu
    obtain ⟨c, d, hc, hd, hcu, hud'⟩ := hupper.enclose hud huu
    rcases lod with _ | lod
    · cases h
      exact .inl rfl
    rcases lou with _ | lou
    · cases h
      exact .inl rfl
    rcases hid with _ | hid
    · cases h
      exact .inl rfl
    rcases hiu with _ | hiu
    · cases h
      exact .inl rfl
    · have hlowDown := inertia_exact hexact ha hlod
      have hlowUp := inertia_exact hexact hb hlou
      have hinsideDown := inertia_exact hexact hc hhid
      have hinsideUp := inertia_exact hexact hd hhiu
      simp only at h
      split at h
      · cases h
        exact .inl rfl
      · rename_i hresolved
        rw [Bool.not_eq_true, Bool.or_eq_false_iff] at hresolved
        have hlowerBand := band_clear ha hb hal hlb hlowDown hlowUp hresolved.1
        have hupperBand := band_clear hc hd hcu hud' hinsideDown hinsideUp hresolved.2
        have hbelow : lod.below = eigenvalueCount hA (· < (lower.value : ℝ)) :=
          hlowDown.1.trans (count_congr hA fun i => (hlowerBand i).1)
        have habove : hiu.below + hiu.equal = eigenvalueCount hA (· ≤ (upper.value : ℝ)) := by
          rw [hinsideUp.1, hinsideUp.2, inclusive_count]
          exact count_congr hA fun i => (hupperBand i).2
        split at h
        · cases h
        · rename_i upperInclusive hsum
          rw [checkedAdd_some hsum, habove, hbelow] at h
          split at h
          · cases h
          · rename_i hmonotone
            rw [← closed_count hA (Nat.le_of_not_lt hmonotone)] at h
            refine .inr ⟨ld, uu, ?_⟩
            split at h
            · rename_i hequal
              rw [if_pos hequal]
              exact (Except.ok.inj h).symm
            · rename_i hdiffers
              rw [if_neg hdiffers]
              exact (Except.ok.inj h).symm
  constructor
  · intro lowerShift upperShift count h
    rcases hmain _ h with hunavailable | ⟨ld, uu, hevidence⟩
    · cases hunavailable
    · split at hevidence
      · rename_i hequal
        cases hevidence
        exact ⟨hequal, hequal⟩
      · cases hevidence
  · intro wanted observed h
    rcases hmain _ h with hunavailable | ⟨ld, uu, hevidence⟩
    · cases hunavailable
    · split at hevidence
      · cases hevidence
      · rename_i hdiffers
        cases hevidence
        exact ⟨rfl, hdiffers, rfl⟩

end

/-! The zero matrix of dimension two, counted between two decimals that no float equals. -/

section
open Xcelerator.Numerics.MpfrRounded (InRange placed placed_rounds)

def sampleSources : Sources where
  parseFloat text p round := .ok (placed p round (DecimalLiteral.mk text).value)
  pointMatrixInertiaAt _ _ _ _ _ := .error (.inconclusive "")

def sampleOperator : SymmetricOperator where
  dimension := 2
  spectralInertiaAt shift :=
    .ok (shift.finite?.map fun t =>
      ⟨if 0 < t then 2 else 0, if 0 = t then 2 else 0, if t < 0 then 2 else 0⟩)
  storedSymmetricEntries := none
  spectralInertiaWorkingBytes := none

theorem zeroMatrix : (0 : Matrix (Fin 2) (Fin 2) ℝ).IsHermitian := Matrix.isHermitian_zero

theorem zeroMatrix_count (P : ℝ → Prop) [Decidable (P 0)] :
    eigenvalueCount zeroMatrix P = if P 0 then 2 else 0 := by
  have hzero : zeroMatrix.eigenvalues = 0 := Matrix.IsHermitian.eigenvalues_eq_zero_iff _ |>.mpr rfl
  simp only [eigenvalueCount, hzero, Pi.zero_apply]
  split
  · rename_i hP
    simp [hP, Set.ncard_univ]
  · rename_i hP
    simp [hP]

theorem sampleInertia : ExactInertia sampleSources sampleOperator zeroMatrix := by
  refine ⟨rfl, fun shift t count hshift hcount => ?_, fun matrix shift t _ _ _ _ _ hmatrix => by
    cases hmatrix⟩
  simp only [sampleOperator, hshift, Option.map_some, Except.ok.injEq, Option.some.injEq] at hcount
  subst hcount
  rw [zeroMatrix_count, zeroMatrix_count, zeroMatrix_count]
  simp only [Rat.cast_pos, Rat.cast_lt_zero, eq_comm (a := (0 : ℝ)), eq_comm (a := (0 : ℚ)),
    Rat.cast_eq_zero, and_self]

theorem sampleReads {literal : DecimalLiteral} (h : InRange (-100) 100 64 literal.value) :
    ReadsDirected sampleSources (-100) 100 64 literal where
  down x hx := by
    obtain rfl := Except.ok.inj hx
    exact (placed_rounds h).2
  up x hx := by
    obtain rfl := Except.ok.inj hx
    exact (placed_rounds h).2

def sampleLower : DecimalLiteral := ⟨['-', '0', '.', '1']⟩

def sampleUpper : DecimalLiteral := ⟨['0', '.', '1']⟩

theorem intervalCount_exact_tenths :
    eigenvalueCount zeroMatrix (fun x => ((sampleLower.value : ℚ) : ℝ) ≤ x ∧
      x ≤ ((sampleUpper.value : ℚ) : ℝ)) = 2 :=
  ((intervalCount_exact sampleSources sampleOperator zeroMatrix sampleInertia
    (-100) 100 sampleLower sampleUpper 2 64
    (sampleReads (by decide +kernel)) (sampleReads (by decide +kernel))).1
      (some (placed 64 .down sampleLower.value)) (placed 64 .up sampleUpper.value) 2
        (by decide +kernel)).2

end

end Xcelerator.Solver.BoundaryCount
