import Mathlib
import Xcelerator.Certify.SelectedEigenvalue

/-! # Selected eigenvalue certificates are sound and replay

A boundary proof locates its threshold among the ascending eigenvalues of every
enclosed matrix. The loop keeps a bracket with a proof at each end whose counts
lie on both sides of the requested index, so a certificate encloses exactly the
recorded indices and its own boundary proofs accept it again. -/

namespace Xcelerator.Certify.SelectedEigenvalueSoundness
open Xcelerator.Foundations.Machine (bind_eq_ok ok_bind)
open Xcelerator.Foundations.Inertia
open Xcelerator.Cache (ContentDigest checkedAdd)
open Xcelerator.Cache.Digest (hexDigest_validate)
open Xcelerator.Numerics.Interval (RationalInterval)
open Xcelerator.Certify.Records Xcelerator.Certify.RationalInertia
open Xcelerator.Certify.RationalInertiaSoundness
open Xcelerator.Certify.PortableInertia (VerificationReport mpfrVerified)
open Xcelerator.Certify.MpfrInertia (index_lt inertiaRoute_conclusive)
open Xcelerator.Certify.SelectedEigenvalue

/-! ## The shifted matrix -/

theorem foldl_modify {f : RationalInterval → RationalInterval} (index : Nat → Nat) {ds : List Nat}
    (hindex : ∀ d ∈ ds, ∀ d' ∈ ds, index d = index d' → d = d') (hnd : ds.Nodup)
    (matrix : List RationalInterval) {k : Nat} (hk : k < matrix.length) (v : RationalInterval) :
    (ds.foldl (fun m d => m.modify (index d) f) matrix).getD k v =
      if k ∈ ds.map index then f (matrix.getD k v) else matrix.getD k v := by
  induction ds generalizing matrix with
  | nil => simp
  | cons d ds ih =>
    obtain ⟨hd, hnd⟩ := List.nodup_cons.mp hnd
    rw [List.foldl_cons, ih (fun a ha b hb => hindex a (List.mem_cons_of_mem _ ha) b
      (List.mem_cons_of_mem _ hb)) hnd _ (by simpa using hk)]
    have hmodify : (matrix.modify (index d) f).getD k v =
        if index d = k then f (matrix.getD k v) else matrix.getD k v := by
      rw [List.getD_eq_getElem _ _ (by simpa using hk), List.getD_eq_getElem _ _ hk,
        List.getElem_modify]
    rw [hmodify, List.map_cons]
    by_cases hkd : index d = k
    · have hnot : k ∉ ds.map index := by
        intro hmem
        obtain ⟨d', hd', heq⟩ := List.mem_map.mp hmem
        have hsame := hindex d (by simp) d' (List.mem_cons_of_mem _ hd') (hkd.trans heq.symm)
        exact hd (hsame ▸ hd')
      simp [hkd, hnot]
    · have hkd' : ¬ k = index d := fun h => hkd h.symm
      simp [hkd, hkd']

theorem cells_shift {matrix : List RationalInterval} {n : Nat}
    (hlength : matrix.length = n * n) (t : ℚ) {i j : Nat} (hi : i < n) (hj : j < n) :
    cells (shift matrix n t) n i j =
      if i = j then (cells matrix n i j).sub (RationalInterval.point t) else
        cells matrix n i j := by
  have hdiag : ∀ d, d < n → (i * n + j = d * n + d ↔ i = d ∧ j = d) := by
    intro d hd
    constructor
    · intro heq
      have hdiv := congrArg (· / n) heq
      have hmod := congrArg (· % n) heq
      simp only [mul_comm _ n,
        Nat.mul_add_div (show 0 < n by omega), Nat.div_eq_of_lt hj, Nat.div_eq_of_lt hd,
        Nat.mul_add_mod, Nat.mod_eq_of_lt hj, Nat.mod_eq_of_lt hd] at hdiv hmod
      omega
    · rintro ⟨rfl, rfl⟩
      rfl
  unfold cells shift
  rw [foldl_modify (fun d => d * n + d) ?_ List.nodup_range matrix
    (by rw [hlength]; exact index_lt hi hj)]
  · have hmem : i * n + j ∈ (List.range n).map (fun d => d * n + d) ↔ i = j := by
      simp only [List.mem_map, List.mem_range]
      constructor
      · rintro ⟨d, hd, heq⟩
        have := (hdiag d hd).mp heq.symm
        omega
      · intro hij
        exact ⟨i, hi, by rw [hij]⟩
    simp only [hmem]
  · intro d hd d' hd' heq
    rw [List.mem_range] at hd hd'
    have heq' : d * (n + 1) = d' * (n + 1) := by
      simpa [Nat.mul_add] using heq
    exact Nat.eq_of_mul_eq_mul_right (Nat.succ_pos n) heq'

theorem encloses_shift {matrix : List RationalInterval} {n : Nat} {A : Matrix (Fin n) (Fin n) ℝ}
    (h : Encloses matrix A) (hlength : matrix.length = n * n) (t : ℚ) :
    Encloses (shift matrix n t) (A - (t : ℝ) • 1) := by
  intro i j
  rw [cells_shift hlength t i.isLt j.isLt, Matrix.sub_apply, Matrix.smul_apply, Matrix.one_apply]
  by_cases hij : i = j
  · rw [if_pos (congrArg Fin.val hij), if_pos hij, smul_eq_mul, mul_one]
    exact (h i j).sub (RationalInterval.contains_point t)
  · rw [if_neg (fun hval => hij (Fin.ext hval)), if_neg hij, smul_zero, sub_zero]
    exact h i j

theorem hermitian_shift {n : Nat} {A : Matrix (Fin n) (Fin n) ℝ} (hA : A.IsHermitian) (t : ℝ) :
    (A - t • (1 : Matrix (Fin n) (Fin n) ℝ)).IsHermitian := by
  refine hA.sub ?_
  ext i j
  simp [Matrix.one_apply, eq_comm]

/-! ## Boundary proofs -/

/-- What a boundary proof at a threshold says. -/
structure Located (matrix : List RationalInterval) (n : Nat) (t : ℚ)
    (b : EigenvalueCountBoundaryCertificate) : Prop where
  square : matrix.length = n * n
  slice : n * n < 2 ^ 64
  dimension : n < 2 ^ 64
  threshold : b.threshold = rationalRecord t
  total : b.countBelow + b.positiveAbove = n
  pivots : ∃ pivots : List RationalInterval, pivots.length = n ∧
    b.pivotEnclosures = pivots.map intervalRecord
  below : ∀ (A : Matrix (Fin n) (Fin n) ℝ) (hA : A.IsHermitian), Encloses matrix A →
    ∀ i, (ascending hA i < t ↔ (i : Nat) < b.countBelow) ∧ ascending hA i ≠ t

variable {env : Environment}

/-- Every route's conclusive counts are the inertia of the enclosed matrices. -/
theorem routeInertia_conclusive {matrix : List RationalInterval} {n positive negative : Nat}
    {scaleInvariant enforceBudget : Bool} {precision : Option Nat} {pivots : List RationalInterval}
    (hm : precision.isSome = true → env.rounding.Directed)
    (h : routeInertia env matrix n scaleInvariant enforceBudget precision =
      .ok (.conclusive positive negative pivots)) :
    positive + negative = n ∧ pivots.length = n ∧ ∀ (A : Matrix (Fin n) (Fin n) ℝ), A.IsHermitian →
      Encloses matrix A → HasInertia A positive negative := by
  cases precision with
  | some p =>
    simp only [routeInertia, mpfrVerified] at h
    split at h
    · rename_i hroute
      cases h
      exact inertiaRoute_conclusive (hm rfl) hroute
    · cases h
    · cases h
  | none =>
    obtain ⟨htrue, hsum, hpivots⟩ := result_true h
    refine ⟨hsum, hpivots, fun A hA hin => ?_⟩
    obtain ⟨hpos, hneg⟩ := htrue A hA hin
    obtain ⟨T, hT⟩ := eigenvalues_diagonalize hA
    exact hasInertia_iff.mpr ⟨⟨_, T, hT, hpos, hneg⟩, by simpa using hsum⟩

theorem boundary_located {matrix : List RationalInterval} {n : Nat} {t : ℚ} {name : String}
    {scaleInvariant enforceBudget : Bool} {precision : Option Nat}
    {b : EigenvalueCountBoundaryCertificate} (hm : precision.isSome = true → env.rounding.Directed)
    (h : eigenvalueCountBoundaryRoute env matrix n t name scaleInvariant enforceBudget precision =
      .ok (.ok b)) : Located matrix n t b := by
  unfold eigenvalueCountBoundaryRoute at h
  split at h
  · cases h
  rename_i hshape
  simp only [checkedMul, not_or, ne_eq, not_not] at hshape
  obtain ⟨hn, hshape⟩ := hshape
  split at hshape
  · rename_i hlt
    have hsquare : matrix.length = n * n := (Option.some.inj hshape).symm
    have hsmall : n < 2 ^ 64 := lt_of_le_of_lt (Nat.le_mul_of_pos_left n (by omega)) hlt
    split at h
    · rename_i positive negative pivots hroute
      cases h
      obtain ⟨hsum, hpivots, hinertia⟩ := routeInertia_conclusive hm hroute
      refine ⟨hsquare, hlt, hsmall, rfl, by dsimp only; omega,
        ⟨pivots, hpivots, rfl⟩, fun A hA hin i => ?_⟩
      exact (hinertia _ (hermitian_shift hA t) (encloses_shift hin hsquare t)).threshold hA i
    · cases h
    · cases h
    · cases h
  · cases hshape

/-- The name of a boundary shows in refusals only. -/
theorem boundary_name {matrix : List RationalInterval} {n : Nat} {t : ℚ} {name : String}
    {scaleInvariant enforceBudget : Bool} {precision : Option Nat}
    {b : EigenvalueCountBoundaryCertificate}
    (h : eigenvalueCountBoundaryRoute env matrix n t name scaleInvariant enforceBudget precision =
      .ok (.ok b)) (other : String) :
    eigenvalueCountBoundaryRoute env matrix n t other scaleInvariant enforceBudget precision =
      .ok (.ok b) := by
  unfold eigenvalueCountBoundaryRoute at h ⊢
  split at h
  · cases h
  · rename_i hshape
    rw [if_neg hshape]
    split at h <;> simp_all

/-! ## Bisection -/

theorem admitSplit_spec {boundary : Boundary} {lower width point : ℚ} {denominators : List Nat}
    {proof : EigenvalueCountBoundaryCertificate}
    (h : admitSplit boundary lower width denominators = .ok (some (point, proof))) :
    (∃ d ∈ denominators, point = lower + width / d) ∧
      boundary point "interior split" = .ok (.ok proof) := by
  induction denominators with
  | nil => cases h
  | cons d rest ih =>
    unfold admitSplit at h
    obtain ⟨result, hresult, h⟩ := bind_eq_ok h
    cases result with
    | ok found =>
      cases h
      exact ⟨⟨d, by simp, rfl⟩, hresult⟩
    | error refusal =>
      obtain ⟨⟨d', hd', hpoint⟩, hproof⟩ := ih h
      exact ⟨⟨d', List.mem_cons_of_mem _ hd', hpoint⟩, hproof⟩

/-- Every split point is interior. -/
theorem split_interior {lower upper : ℚ} (h : lower < upper) {d : Nat}
    (hd : d ∈ splitDenominators) :
    lower < lower + (upper - lower) / d ∧ lower + (upper - lower) / d < upper := by
  have hd2 : 2 ≤ d := by
    simp only [splitDenominators, List.mem_cons, List.not_mem_nil, or_false] at hd
    omega
  have hwidth : 0 < upper - lower := sub_pos.mpr h
  have hdq : (1 : ℚ) < d := by exact_mod_cast hd2
  have hquotient : (upper - lower) / d < upper - lower := div_lt_self hwidth hdq
  have hpositive : 0 < (upper - lower) / d := by positivity
  constructor <;> linarith

/-- The invariant of the loop: a proof at each end of a bracket inside the first
one, with the requested index between the counts. -/
structure Bracketed (boundary : Boundary) (requestedIndex : Nat) (lower upper : ℚ) (b : Bracket) :
    Prop where
  lowerProof : ∃ name, boundary b.lower name = .ok (.ok b.lowerBoundary)
  upperProof : ∃ name, boundary b.upper name = .ok (.ok b.upperBoundary)
  ordered : b.lower < b.upper
  inside : lower ≤ b.lower ∧ b.upper ≤ upper
  index : b.lowerBoundary.countBelow ≤ requestedIndex ∧ requestedIndex < b.upperBoundary.countBelow

section
variable {boundary : Boundary} {requestedIndex : Nat} {lower upper width : ℚ} {maximum : Nat}

theorem bisect_bracketed {b b' : Bracket} {remaining : Nat}
    (h : bisect boundary requestedIndex width maximum b remaining = .ok (.inr b'))
    (hb : Bracketed boundary requestedIndex lower upper b) :
    Bracketed boundary requestedIndex lower upper b' ∧ b'.upper - b'.lower ≤ width := by
  induction remaining generalizing b with
  | zero =>
    unfold bisect at h
    split at h
    · cases h
    · rename_i hwidth
      cases h
      exact ⟨hb, not_lt.mp hwidth⟩
  | succ remaining ih =>
    unfold bisect at h
    split at h
    · obtain ⟨split, hsplit, h⟩ := bind_eq_ok h
      cases split with
      | none => cases h
      | some found =>
        obtain ⟨midpoint, proof⟩ := found
        obtain ⟨⟨d, hd, rfl⟩, hproof⟩ := admitSplit_spec hsplit
        obtain ⟨hlow, hhigh⟩ := split_interior hb.ordered hd
        dsimp only at h
        split at h
        · rename_i hcount
          exact ih h ⟨⟨_, hproof⟩, hb.upperProof, hhigh, ⟨hb.inside.1.trans hlow.le, hb.inside.2⟩,
            hcount, hb.index.2⟩
        · rename_i hcount
          exact ih h ⟨hb.lowerProof, ⟨_, hproof⟩, hlow, ⟨hb.inside.1, hhigh.le.trans hb.inside.2⟩,
            hb.index.1, not_le.mp hcount⟩
    · rename_i hwidth
      cases h
      exact ⟨hb, not_lt.mp hwidth⟩

theorem bisect_refusal {b : Bracket} {remaining : Nat} {refusal : SelectedEigenvalueEnclosureResult}
    (h : bisect boundary requestedIndex width maximum b remaining = .ok (.inl refusal)) :
    ∃ name reason, refusal = .inconclusive name reason ∧ name ≠ "reconciliation" := by
  induction remaining generalizing b with
  | zero =>
    unfold bisect at h
    split at h
    · cases h
      exact ⟨_, _, rfl, by decide⟩
    · cases h
  | succ remaining ih =>
    unfold bisect at h
    split at h
    · obtain ⟨split, _, h⟩ := bind_eq_ok h
      cases split with
      | none =>
        cases h
        exact ⟨_, _, rfl, by decide⟩
      | some found =>
        dsimp only at h
        split at h
        · exact ih h
        · exact ih h
    · cases h

end

/-! ## The route -/

theorem boundary_refusal_name {matrix : List RationalInterval} {n : Nat} {t : ℚ} {name : String}
    {scaleInvariant enforceBudget : Bool} {precision : Option Nat} {refusal : String × String}
    (h : eigenvalueCountBoundaryRoute env matrix n t name scaleInvariant enforceBudget precision =
      .ok (.error refusal)) : refusal.1 = name := by
  unfold eigenvalueCountBoundaryRoute at h
  split at h
  · cases h
    rfl
  · split at h <;> cases h <;> rfl

/-- The producer's boundary proofs. -/
abbrev producer (env : Environment) (matrix : List RationalInterval) (n : Nat)
    (precision : Option Nat) :
    Boundary := fun x name => eigenvalueCountBoundaryRoute env matrix n x name true true precision

/-- A run ends in a refusal of its own name or with a bracket that is narrow enough. -/
theorem route_spec {matrix : List RationalInterval} {n requestedIndex maximum : Nat}
    {lower upper width : ℚ} {precision : Option Nat} {result : SelectedEigenvalueEnclosureResult}
    (h : certifySelectedIntervalEigenvalueRoute env matrix n requestedIndex lower upper
      width maximum
      precision = .ok result) :
    (∃ name reason, result = .inconclusive name reason ∧ name ≠ "reconciliation") ∨
      ∃ b, requestedIndex < n ∧
      Bracketed (producer env matrix n precision) requestedIndex lower upper b ∧
        b.upper - b.lower ≤ width ∧ result = conclude env matrix n requestedIndex precision b := by
  unfold certifySelectedIntervalEigenvalueRoute at h
  split at h
  · cases h
    exact .inl ⟨_, _, rfl, by decide⟩
  rename_i hconfiguration
  simp only [Bool.or_eq_true, decide_eq_true_eq, not_or, not_le] at hconfiguration
  obtain ⟨⟨⟨⟨_, hindex⟩, hordered⟩, _⟩, _⟩ := hconfiguration
  obtain ⟨first, hfirst, h⟩ := bind_eq_ok h
  cases first with
  | error refusal =>
    cases h
    refine .inl ⟨_, _, rfl, ?_⟩
    rw [boundary_refusal_name hfirst]
    decide
  | ok lowerBoundary =>
    obtain ⟨second, hsecond, h⟩ := bind_eq_ok h
    cases second with
    | error refusal =>
      cases h
      refine .inl ⟨_, _, rfl, ?_⟩
      rw [boundary_refusal_name hsecond]
      decide
    | ok upperBoundary =>
      dsimp only at h
      split at h
      · cases h
        exact .inl ⟨_, _, rfl, by decide⟩
      rename_i hcounts
      simp only [Bool.or_eq_true, decide_eq_true_eq, not_or, not_lt, not_le] at hcounts
      obtain ⟨final, hfinal, h⟩ := bind_eq_ok h
      cases final with
      | inl refusal =>
        cases h
        exact .inl (bisect_refusal hfinal)
      | inr b =>
        cases h
        have hstart : Bracketed (producer env matrix n precision) requestedIndex lower upper
            { lower, upper, lowerBoundary, upperBoundary, bisectionSteps := 0 } :=
          ⟨⟨_, hfirst⟩, ⟨_, hsecond⟩, hordered, ⟨le_rfl, le_rfl⟩, hcounts⟩
        obtain ⟨hb, hwidth⟩ := bisect_bracketed hfinal hstart
        exact .inr ⟨b, hindex, hb, hwidth, rfl⟩

/-- Between the two counts lie exactly the enclosed eigenvalues. -/
theorem enclosed_iff {matrix : List RationalInterval} {n : Nat} {l u : ℚ}
    {lowerBoundary upperBoundary : EigenvalueCountBoundaryCertificate}
    (hl : Located matrix n l lowerBoundary) (hu : Located matrix n u upperBoundary)
    {A : Matrix (Fin n) (Fin n) ℝ} (hA : A.IsHermitian) (hin : Encloses matrix A) (i : Fin n) :
    (lowerBoundary.countBelow ≤ (i : Nat) ∧ (i : Nat) < upperBoundary.countBelow) ↔
      (l : ℝ) < ascending hA i ∧ ascending hA i < u := by
  obtain ⟨hlow, hne⟩ := hl.below A hA hin i
  obtain ⟨hup, _⟩ := hu.below A hA hin i
  rw [hup, ← not_lt, ← hlow, not_lt]
  constructor
  · rintro ⟨hge, hlt⟩
    exact ⟨lt_of_le_of_ne hge hne.symm, hlt⟩
  · rintro ⟨hgt, hlt⟩
    exact ⟨hgt.le, hlt⟩

/-! ## Replay -/

theorem check_eq_ok {condition : Bool} (h : condition = true) (error : CertificateError) :
    check condition error = .ok () := if_pos h

theorem forM_parseInterval (pivots : List RationalInterval) :
    ((pivots.map intervalRecord).forM fun pivot => (do let _ ← parseInterval pivot : Result Unit)) =
      .ok () := by
  induction pivots with
  | nil => rfl
  | cons v pivots ih =>
    rw [List.map_cons]
    unfold List.forM
    rw [parseInterval_intervalRecord]
    exact ih

/-- The certificate of a located bracket passes the structural checks. -/
theorem validate_accepts {matrix : List RationalInterval} {n requestedIndex : Nat}
    (precision : Option Nat) {b : Bracket} {digest : ContentDigest}
    (hdigest : digest.validate = true) (hindex : requestedIndex < n) (hordered : b.lower < b.upper)
    (hcounts : b.lowerBoundary.countBelow ≤ requestedIndex ∧
      requestedIndex < b.upperBoundary.countBelow)
    (hl : Located matrix n b.lower b.lowerBoundary)
    (hu : Located matrix n b.upper b.upperBoundary) :
    validateSelectedEigenvalueEnclosure
      { inertiaPrecisionBits := precision, dimension := n, matrixDigest := digest, requestedIndex,
        firstEnclosedIndex := b.lowerBoundary.countBelow
        lastEnclosedIndex := b.upperBoundary.countBelow - 1
        lower := rationalRecord b.lower, upper := rationalRecord b.upper
        lowerBoundary := b.lowerBoundary, upperBoundary := b.upperBoundary
        bisectionSteps := b.bisectionSteps
        simple := b.upperBoundary.countBelow - b.lowerBoundary.countBelow == 1 } =
      .ok (b.lower, b.upper) := by
  obtain ⟨lowerPivots, hlp, hlrec⟩ := hl.pivots
  obtain ⟨upperPivots, hup, hurec⟩ := hu.pivots
  have hltotal := hl.total
  have hutotal := hu.total
  have hsmall := hl.dimension
  unfold validateSelectedEigenvalueEnclosure
  dsimp only
  rw [check_eq_ok (by
    simp only [Bool.not_eq_true', Bool.or_eq_false_iff, beq_eq_false_iff_ne,
      decide_eq_false_iff_not]
    omega), check_eq_ok hdigest, check_eq_ok (by
    have hsimple : (b.upperBoundary.countBelow - b.lowerBoundary.countBelow == 1) =
        decide (b.lowerBoundary.countBelow = b.upperBoundary.countBelow - 1) := by
      rw [Bool.eq_iff_iff, beq_iff_eq, decide_eq_true_eq]
      omega
    have hlast : saturatingAdd (b.upperBoundary.countBelow - 1) 1 = b.upperBoundary.countBelow := by
      unfold saturatingAdd
      omega
    have hadd : ∀ x y, x + y = n → checkedAdd x y = some n := by
      intro x y hxy
      unfold checkedAdd
      rw [hxy, if_pos hsmall]
    rw [hsimple, hlast, hadd _ _ hltotal, hadd _ _ hutotal, hlrec, hurec, List.length_map,
      List.length_map, hlp, hup]
    simp)]
  simp only [ok_bind, parse_rationalRecord, hl.threshold, hu.threshold]
  rw [check_eq_ok (decide_eq_true hordered), hlrec, hurec, ← List.map_append]
  simp only [ok_bind, decide_true, check_eq_ok, forM_parseInterval]
  rfl

/-- A boundary proof of the producer replays to itself. -/
theorem matchesBoundary_accepts {matrix : List RationalInterval}
    {c : ExactSelectedEigenvalueEnclosure}
    {t : ℚ} {recorded : EigenvalueCountBoundaryCertificate} {given : String}
    (h : producer env matrix c.dimension c.inertiaPrecisionBits t given = .ok (.ok recorded))
    (historical : Bool) (name : String) :
    matchesBoundary env c matrix historical t name recorded = .ok true := by
  unfold matchesBoundary replays
  rw [boundary_name h name]
  simp only [ok_bind, decide_true]
  rfl

/-- Everything a replay of a produced certificate checks again. -/
structure Replayable (env : Environment) (matrix : List RationalInterval)
    (c : ExactSelectedEigenvalueEnclosure) (l u : ℚ) : Prop where
  structural : validateSelectedEigenvalueEnclosure c = .ok (l, u)
  square : matrix.length = saturatingMul c.dimension c.dimension
  digest : exactIntervalMatrixDigest env matrix c.dimension = .ok c.matrixDigest
  lower : ∃ name, producer env matrix c.dimension c.inertiaPrecisionBits l name =
    .ok (.ok c.lowerBoundary)
  upper : ∃ name, producer env matrix c.dimension c.inertiaPrecisionBits u name =
    .ok (.ok c.upperBoundary)

theorem Replayable.verify {matrix : List RationalInterval} {c : ExactSelectedEigenvalueEnclosure}
    {l u : ℚ} (h : Replayable env matrix c l u) (historical : Bool) :
    verifySelectedIntervalEigenvalueEnclosureWithPolicy env c matrix historical =
      .ok acceptedReport := by
  obtain ⟨_, hlower⟩ := h.lower
  obtain ⟨_, hupper⟩ := h.upper
  unfold verifySelectedIntervalEigenvalueEnclosureWithPolicy verifySelected
  simp only [h.structural, h.square, h.digest, ne_eq, not_true_eq_false, if_false,
    matchesBoundary_accepts hlower, matchesBoundary_accepts hupper, ok_bind]
  rfl

theorem Replayable.portable {matrix : List RationalInterval} {c : ExactSelectedEigenvalueEnclosure}
    {l u : ℚ} (h : Replayable env matrix c l u) :
    ∃ portable, buildPortableSelectedEigenvalueCertificate env matrix c = .ok (.ok portable) ∧
      verifyPortableSelectedEigenvalueCertificate env portable = .ok acceptedReport := by
  have hverify : verifyPortableSelectedEigenvalueCertificate env
      { schemaVersion := if c.inertiaPrecisionBits.isSome then 2 else 3
        matrixRowMajor := matrix.map intervalRecord
        enclosure := c } = .ok acceptedReport := by
    unfold verifyPortableSelectedEigenvalueCertificate
    rw [if_neg (by cases c.inertiaPrecisionBits <;> simp)]
    simp only [mapM_parseInterval]
    exact h.verify _
  refine ⟨_, ?_, hverify⟩
  unfold buildPortableSelectedEigenvalueCertificate
  simp only [hverify, ok_bind]
  rfl

/-- What a conclusive certificate promises. -/
structure Sound (env : Environment) (matrix : List RationalInterval) (n requestedIndex : Nat)
    (lower upper width : ℚ) (c : ExactSelectedEigenvalueEnclosure) (l u : ℚ) : Prop where
  endpoints : parse c.lower = .ok l ∧ parse c.upper = .ok u
  bracket : lower ≤ l ∧ l < u ∧ u ≤ upper
  narrow : u - l ≤ width
  requested : c.requestedIndex = requestedIndex ∧ c.firstEnclosedIndex ≤ requestedIndex ∧
    requestedIndex ≤ c.lastEnclosedIndex ∧ c.lastEnclosedIndex < n
  simple : c.simple = true ↔ c.firstEnclosedIndex = c.lastEnclosedIndex
  enclosed : ∀ (A : Matrix (Fin n) (Fin n) ℝ) (hA : A.IsHermitian), Encloses matrix A → ∀ i : Fin n,
    ((c.firstEnclosedIndex ≤ (i : Nat) ∧ (i : Nat) ≤ c.lastEnclosedIndex) ↔
      (l : ℝ) < ascending hA i ∧ ascending hA i < u) ∧
    ascending hA i ≠ l ∧ ascending hA i ≠ u
  replayed : ∃ report, verifySelectedIntervalEigenvalueEnclosure env c matrix = .ok report ∧
    report.valid = true
  portable : ∃ portable report, buildPortableSelectedEigenvalueCertificate env matrix c =
    .ok (.ok portable) ∧
    verifyPortableSelectedEigenvalueCertificate env portable = .ok report ∧ report.valid = true

theorem conclude_spec {matrix : List RationalInterval} {n requestedIndex : Nat}
    {lower upper width : ℚ}
    {precision : Option Nat} (hm : precision.isSome = true → env.rounding.Directed) {b : Bracket}
    (hindex : requestedIndex < n)
    (hb : Bracketed (producer env matrix n precision) requestedIndex lower upper b)
    (hwidth : b.upper - b.lower ≤ width) :
    (∃ reason, conclude env matrix n requestedIndex precision b =
      .inconclusive "serialization" reason) ∨
      ∃ c l u, conclude env matrix n requestedIndex precision b = .conclusive c ∧
        Sound env matrix n requestedIndex lower upper width c l u := by
  obtain ⟨lowerName, hlower⟩ := hb.lowerProof
  obtain ⟨upperName, hupper⟩ := hb.upperProof
  have hl := boundary_located hm hlower
  have hu := boundary_located hm hupper
  have hcounts := hb.index
  have hutotal := hu.total
  unfold conclude
  rw [if_neg (by omega), if_neg (by omega)]
  cases hdigest : exactIntervalMatrixDigest env matrix n with
  | error error => exact .inl ⟨_, rfl⟩
  | ok digest =>
    have hvalid : digest.validate = true := by
      unfold exactIntervalMatrixDigest at hdigest
      split at hdigest
      · cases hdigest
        exact hexDigest_validate _ (by simp)
      · cases hdigest
    refine .inr ⟨_, b.lower, b.upper, rfl, ?_⟩
    have hsquare : matrix.length = saturatingMul n n := by
      have hslice := hl.slice
      rw [hl.square, saturatingMul]
      omega
    have hreplay : Replayable env matrix _ b.lower b.upper :=
      ⟨validate_accepts precision hvalid hindex hb.ordered hcounts hl hu, hsquare, hdigest,
        ⟨_, hlower⟩, ⟨_, hupper⟩⟩
    obtain ⟨portable, hbuild, hverify⟩ := hreplay.portable
    refine ⟨⟨parse_rationalRecord _, parse_rationalRecord _⟩,
      ⟨hb.inside.1, hb.ordered, hb.inside.2⟩, hwidth,
      ⟨rfl, hcounts.1, by dsimp only; omega, by dsimp only; omega⟩, ?_, fun A hA hin i =>
        ⟨?_, ?_, ?_⟩,
      ⟨_, hreplay.verify true, rfl⟩, ⟨portable, _, hbuild, hverify, rfl⟩⟩
    · dsimp only
      rw [beq_iff_eq]
      omega
    · rw [← enclosed_iff hl hu hA hin i]
      dsimp only
      omega
    · exact (hl.below A hA hin i).2
    · exact (hu.below A hA hin i).2

/-- **Selected-eigenvalue certificates are sound**, for the exact and the
directed route, and no run ends in a reconciliation refusal. -/
theorem certifySelected_sound (env : Environment) (matrix : List RationalInterval)
    (n requestedIndex : Nat) (lower upper width : ℚ) (maximum : Nat) (precision : Option Nat)
    (hm : precision.isSome = true → env.rounding.Directed)
    (result : SelectedEigenvalueEnclosureResult)
    (h : certifySelectedIntervalEigenvalueRoute env matrix n requestedIndex lower upper
      width maximum
      precision = .ok result) :
    (∀ reason, result ≠ .inconclusive "reconciliation" reason) ∧
      ∀ c, result = .conclusive c →
      ∃ l u, Sound env matrix n requestedIndex lower upper width c l u := by
  rcases route_spec h with ⟨name, reason, rfl, hname⟩ | ⟨b, hindex, hb, hwidth, rfl⟩
  · refine ⟨fun other heq => ?_, fun c heq => (by cases heq)⟩
    cases heq
    exact hname rfl
  · rcases conclude_spec hm hindex hb hwidth with ⟨reason, heq⟩ | ⟨c, l, u, heq, hsound⟩
    · rw [heq]
      refine ⟨fun other hother => ?_, fun c hc => (by cases hc)⟩
      exact absurd (SelectedEigenvalueEnclosureResult.inconclusive.inj hother).1 (by decide)
    · rw [heq]
      refine ⟨fun other hother => (by cases hother), fun c' hc' => ?_⟩
      cases hc'
      exact ⟨l, u, hsound⟩

/-- The digest of the diagonal matrix with entries one and three. -/
def diagonalEnvironment : Environment where
  rounding := .unbounded
  pool := .serial
  matrixSha256 _ _ := .ok (Vector.mk #[221, 142, 38, 179, 225, 139, 90, 86, 197, 159, 99, 78, 77,
    130, 192, 150, 107, 227, 243, 131, 209, 227, 50, 158, 230, 24, 162, 81, 89, 136, 161, 112] rfl)

def diagonalMatrix : List RationalInterval := [1, 0, 0, 3].map RationalInterval.point

/-- The bisection steps of a conclusive result. -/
def stepsTaken : SelectedEigenvalueEnclosureResult → Nat
  | .conclusive c => c.bisectionSteps
  | .inconclusive _ _ => 0

/-- One bisection step of the directed route. -/
theorem certifySelected_sound_diagonal :
    ∃ c l u, certifySelectedIntervalEigenvalueMpfr diagonalEnvironment diagonalMatrix 2 0
      0 4 2 8 64 =
        .ok (.conclusive c) ∧ c.bisectionSteps = 1 ∧
      Sound diagonalEnvironment diagonalMatrix 2 0 0 4 2 c l u := by
  have hsome : ((certifySelectedIntervalEigenvalueMpfr diagonalEnvironment diagonalMatrix 2 0 0 4 2
    8 64).toOption.map
      stepsTaken) = some 1 := by decide +kernel
  cases hrun : certifySelectedIntervalEigenvalueMpfr diagonalEnvironment diagonalMatrix 2 0 0 4
    2 8 64 with
  | error message => simp [hrun, Except.toOption] at hsome
  | ok result =>
    have hsound := certifySelected_sound diagonalEnvironment diagonalMatrix 2 0 0 4 2 8 (some 64)
      (fun _ => Xcelerator.Numerics.Mpfr.Rounding.unbounded_directed) result hrun
    cases result with
    | inconclusive name reason => simp [hrun, Except.toOption, stepsTaken] at hsome
    | conclusive c =>
      obtain ⟨l, u, hlu⟩ := hsound.2 c rfl
      exact ⟨c, l, u, rfl, by simpa [hrun, Except.toOption, stepsTaken] using hsome, hlu⟩

end Xcelerator.Certify.SelectedEigenvalueSoundness
