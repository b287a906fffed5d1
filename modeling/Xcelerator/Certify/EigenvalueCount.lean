import Mathlib
import Xcelerator.Certify.SelectedEigenvalueSoundness

/-! # Eigenvalue counts of an interval matrix

The number of eigenvalues below a threshold or inside an open interval, read off
boundary proofs at the thresholds. A conclusive count is the count of every
enclosed symmetric matrix, no eigenvalue of which lies on a threshold, and
counts over adjacent intervals add up. -/

namespace Xcelerator.Certify.EigenvalueCount
open Xcelerator.Foundations.Machine (bind_eq_ok ok_bind)
open Xcelerator.Foundations.Inertia
open Xcelerator.Numerics.Interval (RationalInterval)
open Xcelerator.Certify.RationalInertiaSoundness
open Xcelerator.Certify.SelectedEigenvalue Xcelerator.Certify.SelectedEigenvalueSoundness

structure IntervalEigenvalueCountCertificate where
  dimension : Nat
  lowerBoundary : Option EigenvalueCountBoundaryCertificate
  upperBoundary : EigenvalueCountBoundaryCertificate
  eigenvalueCount : Nat
  intervalSemantics : String
deriving DecidableEq, Repr

inductive IntervalEigenvalueCountResult where
  | conclusive (certificate : IntervalEigenvalueCountCertificate)
  | inconclusive (boundary reason : String)
deriving DecidableEq, Repr

variable (env : Environment) (matrix : List RationalInterval) (dimension : Nat)

def belowCertificate (upperBoundary : EigenvalueCountBoundaryCertificate) :
    IntervalEigenvalueCountCertificate :=
  { dimension
    lowerBoundary := none
    upperBoundary
    eigenvalueCount := upperBoundary.countBelow
    intervalSemantics := "(-infinity, upper)" }

/-- Both entry points below a threshold. -/
def eigenvaluesBelowRoute (threshold : ℚ) (precision : Option Nat) :
    Outcome IntervalEigenvalueCountResult := do
  match ← producer env matrix dimension precision threshold "upper" with
  | .ok upperBoundary => return .conclusive (belowCertificate dimension upperBoundary)
  | .error (boundary, reason) => return .inconclusive boundary reason

def certifyIntervalMatrixEigenvaluesBelow (threshold : ℚ) : Outcome IntervalEigenvalueCountResult :=
  eigenvaluesBelowRoute env matrix dimension threshold none

def certifyIntervalMatrixEigenvaluesBelowMpfr (threshold : ℚ) (p : Nat) :
    Outcome IntervalEigenvalueCountResult :=
  eigenvaluesBelowRoute env matrix dimension threshold (some p)

def betweenCertificate (lowerBoundary upperBoundary : EigenvalueCountBoundaryCertificate) :
    IntervalEigenvalueCountCertificate :=
  { dimension
    lowerBoundary := some lowerBoundary
    upperBoundary
    eigenvalueCount := upperBoundary.countBelow - lowerBoundary.countBelow
    intervalSemantics := "(lower, upper)" }

/-- The last step over both boundary proofs. -/
def reconcile (reconciliation : String)
    (lowerBoundary upperBoundary : EigenvalueCountBoundaryCertificate) :
    IntervalEigenvalueCountResult :=
  if upperBoundary.countBelow < lowerBoundary.countBelow then
    .inconclusive "reconciliation" reconciliation
  else .conclusive (betweenCertificate dimension lowerBoundary upperBoundary)

/-- Both entry points over an open interval; they differ in their messages. -/
def eigenvaluesInOpenIntervalRoute (ordering reconciliation : String) (lower upper : ℚ)
    (precision : Option Nat) : Outcome IntervalEigenvalueCountResult :=
  if lower ≥ upper then .ok (.inconclusive "configuration" ordering)
  else do
    match ← producer env matrix dimension precision lower "lower" with
    | .error (boundary, reason) => return .inconclusive boundary reason
    | .ok lowerBoundary =>
      match ← producer env matrix dimension precision upper "upper" with
      | .error (boundary, reason) => return .inconclusive boundary reason
      | .ok upperBoundary => return reconcile dimension reconciliation lowerBoundary upperBoundary

def certifyIntervalMatrixEigenvaluesInOpenInterval (lower upper : ℚ) :
    Outcome IntervalEigenvalueCountResult :=
  eigenvaluesInOpenIntervalRoute env matrix dimension
    "eigenvalue count interval requires lower < upper"
    "shifted inertia count decreased across ordered thresholds" lower upper none

def certifyIntervalMatrixEigenvaluesInOpenIntervalMpfr (lower upper : ℚ) (p : Nat) :
    Outcome IntervalEigenvalueCountResult :=
  eigenvaluesInOpenIntervalRoute env matrix dimension "lower must precede upper" "counts decreased"
    lower upper (some p)

variable {env matrix dimension}

/-! ## What a conclusive run did -/

theorem below_conclusive {threshold : ℚ} {precision : Option Nat}
    {c : IntervalEigenvalueCountCertificate} :
    eigenvaluesBelowRoute env matrix dimension threshold precision = .ok (.conclusive c) ↔
      ∃ upperBoundary, producer env matrix dimension precision threshold "upper" =
        .ok (.ok upperBoundary) ∧ c = belowCertificate dimension upperBoundary := by
  unfold eigenvaluesBelowRoute
  cases producer env matrix dimension precision threshold "upper" with
  | error message => simp [bind, Except.bind]
  | ok answer =>
    cases answer with
    | error refusal => simp [ok_bind, pure, Except.pure]
    | ok upperBoundary => simp [ok_bind, pure, Except.pure, eq_comm]

theorem openInterval_conclusive {ordering reconciliation : String} {lower upper : ℚ}
    {precision : Option Nat} {result : IntervalEigenvalueCountResult} (hlt : lower < upper)
    {lowerBoundary upperBoundary : EigenvalueCountBoundaryCertificate}
    (hl : producer env matrix dimension precision lower "lower" = .ok (.ok lowerBoundary))
    (hu : producer env matrix dimension precision upper "upper" = .ok (.ok upperBoundary)) :
    eigenvaluesInOpenIntervalRoute env matrix dimension ordering reconciliation lower upper
      precision =
      .ok result ↔ reconcile dimension reconciliation lowerBoundary upperBoundary = result := by
  unfold eigenvaluesInOpenIntervalRoute
  rw [if_neg (not_le.mpr hlt), hl, ok_bind]
  dsimp only
  rw [hu, ok_bind]
  simp [pure, Except.pure]

/-- A run over an open interval is a refusal before the reconciliation, or has both proofs. -/
theorem openInterval_cases {ordering reconciliation : String} {lower upper : ℚ}
    {precision : Option Nat} {result : IntervalEigenvalueCountResult}
    (h : eigenvaluesInOpenIntervalRoute env matrix dimension ordering reconciliation lower upper
      precision =
      .ok result) :
    (∃ boundary reason, result = .inconclusive boundary reason ∧ boundary ≠ "reconciliation") ∨
      lower < upper ∧ ∃ lowerBoundary upperBoundary,
        producer env matrix dimension precision lower "lower" = .ok (.ok lowerBoundary) ∧
        producer env matrix dimension precision upper "upper" = .ok (.ok upperBoundary) := by
  have hrun := h
  unfold eigenvaluesInOpenIntervalRoute at h
  split at h
  · cases h
    exact .inl ⟨_, _, rfl, by decide⟩
  rename_i hlt
  obtain ⟨first, hfirst, h⟩ := bind_eq_ok h
  cases first with
  | error refusal =>
    cases h
    exact .inl ⟨_, _, rfl, by rw [boundary_refusal_name hfirst]; decide⟩
  | ok lowerBoundary =>
    obtain ⟨second, hsecond, h⟩ := bind_eq_ok h
    cases second with
    | error refusal =>
      cases h
      exact .inl ⟨_, _, rfl, by rw [boundary_refusal_name hsecond]; decide⟩
    | ok upperBoundary =>
      exact .inr ⟨not_le.mp hlt, lowerBoundary, upperBoundary, hfirst, hsecond⟩

/-! ## What a count says -/

/-- Every eigenvalue has its place in the ascending order. -/
theorem exists_ascending {n : Nat} {A : Matrix (Fin n) (Fin n) ℝ} (hA : A.IsHermitian) (i : Fin n) :
    ∃ j, ascending hA j = hA.eigenvalues i := by
  let place : Fin (Fintype.card (Fin n)) := (Fintype.equivOfCardEq (Fintype.card_fin _)).symm i
  refine ⟨(Fin.cast (Fintype.card_fin n) place).rev, ?_⟩
  unfold ascending
  rw [Fin.rev_rev]
  rfl

theorem eigenvalues_ne {n : Nat} {t : ℚ} {b : EigenvalueCountBoundaryCertificate}
    (h : Located matrix n t b) {A : Matrix (Fin n) (Fin n) ℝ} (hA : A.IsHermitian)
    (hin : Encloses matrix A) (i : Fin n) : hA.eigenvalues i ≠ t := by
  obtain ⟨j, hj⟩ := exists_ascending hA i
  rw [← hj]
  exact (h.below A hA hin j).2

/-- A boundary proof counts the eigenvalues below its threshold. -/
theorem card_below {n : Nat} {t : ℚ} {b : EigenvalueCountBoundaryCertificate}
    (h : Located matrix n t b) {A : Matrix (Fin n) (Fin n) ℝ} (hA : A.IsHermitian)
    (hin : Encloses matrix A) :
    (Finset.univ.filter fun i => hA.eigenvalues i < t).card = b.countBelow := by
  have htotal := h.total
  rw [← card_ascending]
  simp only [(h.below A hA hin _).1]
  rw [Fin.card_filter_val_lt]
  omega

theorem countBelow_mono {n : Nat} {l u : ℚ}
    {lowerBoundary upperBoundary : EigenvalueCountBoundaryCertificate}
    (hl : Located matrix n l lowerBoundary) (hu : Located matrix n u upperBoundary) (hlu : l < u)
    {A : Matrix (Fin n) (Fin n) ℝ} (hA : A.IsHermitian) (hin : Encloses matrix A) :
    lowerBoundary.countBelow ≤ upperBoundary.countBelow := by
  rw [← card_below hl hA hin, ← card_below hu hA hin]
  refine Finset.card_le_card fun i hi => ?_
  have hi : hA.eigenvalues i < l := by simpa using hi
  have hlu' : (l : ℝ) < u := by exact_mod_cast hlu
  simpa using hi.trans hlu'

/-- The two counts differ by the eigenvalues between the thresholds. -/
theorem card_between {n : Nat} {l u : ℚ}
    {lowerBoundary upperBoundary : EigenvalueCountBoundaryCertificate}
    (hl : Located matrix n l lowerBoundary) (hu : Located matrix n u upperBoundary) (hlu : l < u)
    {A : Matrix (Fin n) (Fin n) ℝ} (hA : A.IsHermitian) (hin : Encloses matrix A) :
    (Finset.univ.filter fun i => (l : ℝ) < hA.eigenvalues i ∧ hA.eigenvalues i < u).card =
      upperBoundary.countBelow - lowerBoundary.countBelow := by
  have hlu' : (l : ℝ) < u := by exact_mod_cast hlu
  rw [← card_below hl hA hin, ← card_below hu hA hin, ← Finset.card_sdiff_of_subset]
  · congr 1
    ext i
    have hne := eigenvalues_ne hl hA hin i
    simp only [Finset.mem_filter, Finset.mem_univ, true_and, Finset.mem_sdiff, not_lt]
    constructor
    · intro h
      exact ⟨h.2, h.1.le⟩
    · intro h
      exact ⟨lt_of_le_of_ne h.2 hne.symm, h.1⟩
  · intro i hi
    have hi : hA.eigenvalues i < l := by simpa using hi
    simpa using hi.trans hlu'

/-- What a conclusive count promises of every enclosed symmetric matrix. -/
structure Counts (matrix : List RationalInterval) (n count : Nat) (inside thresholds : Set ℝ) :
    Prop where
  exact : ∀ (A : Matrix (Fin n) (Fin n) ℝ) (hA : A.IsHermitian), Encloses matrix A →
    {i | hA.eigenvalues i ∈ inside}.ncard = count
  avoided : ∀ (A : Matrix (Fin n) (Fin n) ℝ) (hA : A.IsHermitian), Encloses matrix A →
    ∀ i, hA.eigenvalues i ∉ thresholds

theorem below_counts {threshold : ℚ} {precision : Option Nat}
    {c : IntervalEigenvalueCountCertificate} (hm : precision.isSome = true → env.rounding.Directed)
    (h : eigenvaluesBelowRoute env matrix dimension threshold precision = .ok (.conclusive c)) :
    Counts matrix dimension c.eigenvalueCount (Set.Iio threshold) {(threshold : ℝ)} := by
  obtain ⟨upperBoundary, hrun, rfl⟩ := below_conclusive.mp h
  have hu := boundary_located hm hrun
  refine ⟨fun A hA hin => ?_, fun A hA hin i => eigenvalues_ne hu hA hin i⟩
  rw [Set.ncard_eq_toFinset_card', Set.toFinset_ofPred]
  exact card_below hu hA hin

theorem reconcile_conclusive {reconciliation : String}
    {lowerBoundary upperBoundary : EigenvalueCountBoundaryCertificate}
    {c : IntervalEigenvalueCountCertificate}
    (h : reconcile dimension reconciliation lowerBoundary upperBoundary = .conclusive c) :
    lowerBoundary.countBelow ≤ upperBoundary.countBelow ∧
      c.eigenvalueCount = upperBoundary.countBelow - lowerBoundary.countBelow := by
  unfold reconcile at h
  split at h
  · cases h
  · cases h
    exact ⟨by omega, rfl⟩

/-- A conclusive run over an open interval, with its boundary proofs. -/
theorem openInterval_spec {ordering reconciliation : String} {lower upper : ℚ}
    {precision : Option Nat} {c : IntervalEigenvalueCountCertificate}
    (h : eigenvaluesInOpenIntervalRoute env matrix dimension ordering reconciliation lower upper
      precision =
      .ok (.conclusive c)) :
    lower < upper ∧ ∃ lowerBoundary upperBoundary,
      producer env matrix dimension precision lower "lower" = .ok (.ok lowerBoundary) ∧
      producer env matrix dimension precision upper "upper" = .ok (.ok upperBoundary) ∧
      lowerBoundary.countBelow ≤ upperBoundary.countBelow ∧
      c.eigenvalueCount = upperBoundary.countBelow - lowerBoundary.countBelow := by
  rcases openInterval_cases h with ⟨_, _, heq, _⟩ | ⟨hlt, lowerBoundary, upperBoundary, hl, hu⟩
  · cases heq
  · obtain ⟨hle, hcount⟩ := reconcile_conclusive ((openInterval_conclusive hlt hl hu).mp h)
    exact ⟨hlt, lowerBoundary, upperBoundary, hl, hu, hle, hcount⟩

theorem openInterval_counts {ordering reconciliation : String} {lower upper : ℚ}
    {precision : Option Nat}
    {c : IntervalEigenvalueCountCertificate} (hm : precision.isSome = true → env.rounding.Directed)
    (h : eigenvaluesInOpenIntervalRoute env matrix dimension ordering reconciliation lower upper
      precision =
      .ok (.conclusive c)) :
    Counts matrix dimension c.eigenvalueCount (Set.Ioo lower upper) {(lower : ℝ), (upper : ℝ)} := by
  obtain ⟨hlt, lowerBoundary, upperBoundary, hl, hu, _, hcount⟩ := openInterval_spec h
  have hlower := boundary_located hm hl
  have hupper := boundary_located hm hu
  refine ⟨fun A hA hin => ?_, fun A hA hin i hi => ?_⟩
  · rw [hcount, Set.ncard_eq_toFinset_card', Set.toFinset_ofPred]
    exact card_between hlower hupper hlt hA hin
  · rcases hi with hi | hi
    · exact eigenvalues_ne hlower hA hin i hi
    · exact eigenvalues_ne hupper hA hin i hi

/-- Over a matrix that encloses a symmetric one, the counts never decrease. -/
theorem reconciliation_unreachable {ordering reconciliation reason : String} {lower upper : ℚ}
    {precision : Option Nat} (hm : precision.isSome = true → env.rounding.Directed)
    {A : Matrix (Fin dimension) (Fin dimension) ℝ} (hA : A.IsHermitian) (hin : Encloses matrix A) :
    eigenvaluesInOpenIntervalRoute env matrix dimension ordering reconciliation lower upper
      precision ≠
      .ok (.inconclusive "reconciliation" reason) := by
  intro h
  rcases openInterval_cases h with ⟨name, _, heq, hname⟩
    | ⟨hlt, lowerBoundary, upperBoundary, hl, hu⟩
  · cases heq
    exact hname rfl
  · have hmono := countBelow_mono (boundary_located hm hl) (boundary_located hm hu) hlt hA hin
    have hend := (openInterval_conclusive hlt hl hu).mp h
    rw [reconcile, if_neg (by omega)] at hend
    cases hend

/-- The counts of adjacent intervals add up. -/
theorem openInterval_append {ordering reconciliation : String} {lower middle upper : ℚ}
    {precision : Option Nat} {first second : IntervalEigenvalueCountCertificate}
    (hfirst : eigenvaluesInOpenIntervalRoute env matrix dimension ordering reconciliation
      lower middle
      precision = .ok (.conclusive first))
    (hsecond : eigenvaluesInOpenIntervalRoute env matrix dimension ordering reconciliation
      middle upper
      precision = .ok (.conclusive second)) :
    ∃ whole, eigenvaluesInOpenIntervalRoute env matrix dimension ordering reconciliation lower upper
        precision = .ok (.conclusive whole) ∧
      whole.eigenvalueCount = first.eigenvalueCount + second.eigenvalueCount := by
  obtain ⟨hlm, a, b, ha, hb, hab, hone⟩ := openInterval_spec hfirst
  obtain ⟨hmu, b', c, hb', hc, hbc, htwo⟩ := openInterval_spec hsecond
  -- the same boundary proof stands at the end of the first interval and the start of the second
  have hsame : b = b' := by
    have hname := boundary_name hb "lower"
    exact Except.ok.inj (Except.ok.inj (hname.symm.trans hb'))
  subst hsame
  refine ⟨betweenCertificate dimension a c, (openInterval_conclusive (hlm.trans hmu) ha hc).mpr ?_,
    ?_⟩
  · rw [reconcile, if_neg (by omega)]
  · rw [hone, htwo]
    dsimp only [betweenCertificate]
    omega

/-- **Eigenvalue counts are exact**, for the exact and the directed route: they
hold of every enclosed symmetric matrix, are never irreconcilable when there is
one, and add up over adjacent intervals. The last four are the entry points. -/
theorem eigenvalue_counts_exact (env : Environment) (matrix : List RationalInterval) (n : Nat)
    (precision : Option Nat) (hm : precision.isSome = true → env.rounding.Directed)
    (ordering reconciliation : String) :
    (∀ t c, eigenvaluesBelowRoute env matrix n t precision = .ok (.conclusive c) →
      Counts matrix n c.eigenvalueCount (Set.Iio t) {(t : ℝ)}) ∧
    (∀ l u c, eigenvaluesInOpenIntervalRoute env matrix n ordering reconciliation l u precision =
        .ok (.conclusive c) →
      Counts matrix n c.eigenvalueCount (Set.Ioo l u) {(l : ℝ), (u : ℝ)}) ∧
    (∀ (A : Matrix (Fin n) (Fin n) ℝ), A.IsHermitian → Encloses matrix A → ∀ l u reason,
      eigenvaluesInOpenIntervalRoute env matrix n ordering reconciliation l u precision ≠
        .ok (.inconclusive "reconciliation" reason)) ∧
    (∀ l m u first second,
      eigenvaluesInOpenIntervalRoute env matrix n ordering reconciliation l m precision =
        .ok (.conclusive first) →
      eigenvaluesInOpenIntervalRoute env matrix n ordering reconciliation m u precision =
        .ok (.conclusive second) →
      ∃ whole, eigenvaluesInOpenIntervalRoute env matrix n ordering reconciliation l u precision =
          .ok (.conclusive whole) ∧
        whole.eigenvalueCount = first.eigenvalueCount + second.eigenvalueCount) ∧
    (∀ t c, certifyIntervalMatrixEigenvaluesBelow env matrix n t = .ok (.conclusive c) →
      Counts matrix n c.eigenvalueCount (Set.Iio t) {(t : ℝ)}) ∧
    (∀ l u c, certifyIntervalMatrixEigenvaluesInOpenInterval env matrix n l u =
      .ok (.conclusive c) →
      Counts matrix n c.eigenvalueCount (Set.Ioo l u) {(l : ℝ), (u : ℝ)}) ∧
    (∀ p, precision = some p → ∀ t c,
      certifyIntervalMatrixEigenvaluesBelowMpfr env matrix n t p = .ok (.conclusive c) →
      Counts matrix n c.eigenvalueCount (Set.Iio t) {(t : ℝ)}) ∧
    ∀ p, precision = some p → ∀ l u c,
      certifyIntervalMatrixEigenvaluesInOpenIntervalMpfr env matrix n l u p = .ok (.conclusive c) →
      Counts matrix n c.eigenvalueCount (Set.Ioo l u) {(l : ℝ), (u : ℝ)} := by
  have hexact : (none : Option Nat).isSome = true → env.rounding.Directed := fun h => by cases h
  refine ⟨fun t c h => below_counts hm h, fun l u c h => openInterval_counts hm h, ?_, ?_,
    fun t c h => below_counts hexact h, fun l u c h => openInterval_counts hexact h, ?_, ?_⟩
  · intro A hA hin l u reason
    exact reconciliation_unreachable hm hA hin
  · intro l m u first second hfirst hsecond
    exact openInterval_append hfirst hsecond
  · intro p hp t c h
    exact below_counts (fun _ => hm (by rw [hp]; rfl)) h
  · intro p hp l u c h
    exact openInterval_counts (fun _ => hm (by rw [hp]; rfl)) h

/-- The count of a conclusive result. -/
def countOf : IntervalEigenvalueCountResult → Option Nat
  | .conclusive c => some c.eigenvalueCount
  | .inconclusive _ _ => none

theorem conclusive_of_count {run : Outcome IntervalEigenvalueCountResult} {k : Nat}
    (h : run.toOption.bind countOf = some k) :
    ∃ c, run = .ok (.conclusive c) ∧ c.eigenvalueCount = k := by
  cases run with
  | error message => cases h
  | ok result =>
    cases result with
    | inconclusive name reason => cases h
    | conclusive c => exact ⟨c, rfl, Option.some.inj h⟩

/-- The eigenvalues one and three: one below two, one on each side of two inside zero and four, two
together. -/
theorem eigenvalue_counts_exact_diagonal :
    Counts diagonalMatrix 2 1 (Set.Iio (2 : ℚ)) {((2 : ℚ) : ℝ)} ∧
    Counts diagonalMatrix 2 1 (Set.Ioo (0 : ℚ) (2 : ℚ)) {((0 : ℚ) : ℝ), ((2 : ℚ) : ℝ)} ∧
    Counts diagonalMatrix 2 2 (Set.Ioo (0 : ℚ) (4 : ℚ)) {((0 : ℚ) : ℝ), ((4 : ℚ) : ℝ)} := by
  have hruns :
      (certifyIntervalMatrixEigenvaluesBelowMpfr diagonalEnvironment diagonalMatrix 2 2
        64).toOption.bind countOf =
        some 1 ∧
      (certifyIntervalMatrixEigenvaluesInOpenIntervalMpfr diagonalEnvironment diagonalMatrix 2 0 2
        64).toOption.bind
        countOf = some 1 ∧
      (certifyIntervalMatrixEigenvaluesInOpenIntervalMpfr diagonalEnvironment diagonalMatrix 2 2 4
        64).toOption.bind
        countOf = some 1 := by
    decide +kernel
  obtain ⟨below, hbelow, hbelowCount⟩ := conclusive_of_count hruns.1
  obtain ⟨first, hfirst, hfirstCount⟩ := conclusive_of_count hruns.2.1
  obtain ⟨second, hsecond, hsecondCount⟩ := conclusive_of_count hruns.2.2
  obtain ⟨-, hcounts, -, happend, -, -, hbelowCounts, hopenCounts⟩ :=
    eigenvalue_counts_exact diagonalEnvironment diagonalMatrix 2 (some 64)
      (fun _ => Xcelerator.Numerics.Mpfr.Rounding.unbounded_directed) "lower must precede upper"
        "counts decreased"
  obtain ⟨whole, hwhole, hwholeCount⟩ := happend 0 2 4 first second hfirst hsecond
  have htwo : whole.eigenvalueCount = 2 := by omega
  exact ⟨hbelowCount ▸ hbelowCounts 64 rfl 2 below hbelow,
    hfirstCount ▸ hopenCounts 64 rfl 0 2 first hfirst, htwo ▸ hcounts 0 4 whole hwhole⟩

end Xcelerator.Certify.EigenvalueCount
