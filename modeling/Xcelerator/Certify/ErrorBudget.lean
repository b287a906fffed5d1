import Mathlib
import Xcelerator.Certify.Records

/-! # The certification error budget

A claim lists the error sources it depends on; each component states an exact
bound for one source. An accepted budget covers every required source once, so
its combined bound is the sum over the required sources and dominates every
combination of errors within the stated bounds. -/

namespace Xcelerator.Certify.ErrorBudget
open Xcelerator.Foundations.Machine (bind_eq_ok ok_bind)
open Xcelerator.Cache (ContentDigest blank isAsciiDigit)
open Xcelerator.Certify.Records

inductive CertificationErrorSource where
  | matrixAssembly | quadrature | truncation | banding | basis | transformation | rounding
deriving DecidableEq, Repr

/-- Every source in the derived order. -/
def CertificationErrorSource.all : List CertificationErrorSource :=
  [.matrixAssembly, .quadrature, .truncation, .banding, .basis, .transformation, .rounding]

/-- The derived `Debug`. -/
def CertificationErrorSource.debug : CertificationErrorSource → String
  | .matrixAssembly => "MatrixAssembly"
  | .quadrature => "Quadrature"
  | .truncation => "Truncation"
  | .banding => "Banding"
  | .basis => "Basis"
  | .transformation => "Transformation"
  | .rounding => "Rounding"

structure CertificationErrorComponent where
  source : CertificationErrorSource
  absoluteBound : ExactRationalRecord
  affectsClaim : Bool
  evidenceDigest : ContentDigest
  method : String
deriving DecidableEq, Repr

structure CertificationErrorBudget where
  requiredSources : List CertificationErrorSource
  components : List CertificationErrorComponent
deriving DecidableEq, Repr

/-- A numerator spelled with a sign and a digit other than zero. -/
def negativeNumerator (numerator : String) : Bool :=
  numerator.toList.head? == some '-' && numerator.toList.tail.any (· != '0')

/-- The body of the loop; `observed` are the sources of the components before. -/
def checkComponent (required observed : List CertificationErrorSource)
    (component : CertificationErrorComponent) : Result (List CertificationErrorSource) := do
  component.absoluteBound.validateSyntax
  check (!negativeNumerator component.absoluteBound.numerator)
    (.invalid "absolute error bounds must be nonnegative")
  check (component.evidenceDigest.validate && !blank component.method)
    (.invalid "certification error component lacks evidence or method")
  check (decide (component.source ∉ observed))
    (.invalid "certification error budget repeats a component source")
  check (decide (component.source ∈ required) == component.affectsClaim)
    (.invalid ("error source " ++ component.source.debug ++
      " has inconsistent claim-impact declaration"))
  return component.source :: observed

/-- The required sources without a component, in order. -/
def missing (required observed : List CertificationErrorSource) : List CertificationErrorSource :=
  CertificationErrorSource.all.filter fun source => source ∈ required ∧ source ∉ observed

def CertificationErrorBudget.validateDeclaredCoverage (budget : CertificationErrorBudget) :
    Result Unit := do
  check (decide budget.requiredSources.Nodup)
    (.invalid "certification error budget repeats a required source")
  let observed ← budget.components.foldlM (checkComponent budget.requiredSources) []
  check (missing budget.requiredSources observed).isEmpty
    (.verificationFailed ("certification error budget omits required sources: [" ++
      ", ".intercalate ((missing budget.requiredSources observed).map
        CertificationErrorSource.debug) ++ "]"))

/-- The body of the summing loop. -/
def addBound (total : ℚ) (component : CertificationErrorComponent) : Result ℚ := do
  let bound ← parse component.absoluteBound
  check (decide (0 ≤ bound))
    (.invalid ("error bound for " ++ component.source.debug ++ " is negative"))
  return if component.affectsClaim then total + bound else total

def combinedCertificationErrorBound (budget : CertificationErrorBudget) : Result ℚ := do
  budget.validateDeclaredCoverage
  budget.components.foldlM addBound 0

/-! ## The sign of a spelled bound -/

theorem check_iff {condition : Bool} {error : CertificateError} :
    check condition error = .ok () ↔ condition = true := by
  unfold check
  split
  · simp [*]
  · simp [*]

theorem ofDigitChars_pos {digits : List Char} {start : Nat} (h : 0 < start) :
    0 < Nat.ofDigitChars 10 digits start := by
  induction digits generalizing start with
  | nil => simpa using h
  | cons c digits ih =>
    rw [Nat.ofDigitChars_cons]
    exact ih (by omega)

theorem digit_pos {c : Char} (h : isAsciiDigit c = true) (hne : c ≠ '0') :
    0 < c.toNat - '0'.toNat := by
  simp only [isAsciiDigit, Bool.and_eq_true, decide_eq_true_eq] at h
  have hle : '0'.toNat ≤ c.toNat := h.1
  have hval : '0'.toNat ≠ c.toNat := fun heq => hne (Char.toNat_inj.mp heq.symm)
  omega

/-- A digit text is zero exactly when every digit is. -/
theorem ofDigitChars_pos_iff {digits : List Char} (h : digits.all isAsciiDigit = true) :
    0 < Nat.ofDigitChars 10 digits 0 ↔ digits.any (· != '0') = true := by
  induction digits with
  | nil => simp
  | cons c digits ih =>
    rw [List.all_cons, Bool.and_eq_true] at h
    rw [Nat.ofDigitChars_cons, List.any_cons]
    by_cases hc : c = '0'
    · subst hc
      simpa using ih h.2
    · have hpos := digit_pos h.1 hc
      have hstart : 0 < Nat.ofDigitChars 10 digits (10 * 0 + (c.toNat - '0'.toNat)) :=
        ofDigitChars_pos (by omega)
      exact iff_of_true hstart (by simp [hc])

theorem validateSyntax_iff {record : ExactRationalRecord} : record.validateSyntax = .ok () ↔
    validInteger record.numerator true = true ∧ validInteger record.denominator false = true ∧
      (record.denominator.toList.dropWhile (· == '0')).isEmpty = false := by
  unfold ExactRationalRecord.validateSyntax
  constructor
  · intro h
    obtain ⟨_, hfirst, hsecond⟩ := bind_eq_ok h
    have hden := check_iff.mp hsecond
    rw [Bool.and_eq_true, Bool.not_eq_true'] at hden
    exact ⟨check_iff.mp hfirst, hden.1, hden.2⟩
  · intro h
    rw [check_iff.mpr h.1, ok_bind]
    exact check_iff.mpr (by simp [h.2.1, h.2.2])

/-- A well-formed denominator is positive. -/
theorem denominator_pos {record : ExactRationalRecord} (h : record.validateSyntax = .ok ()) :
    0 < decimalInteger record.denominator := by
  obtain ⟨_, hvalid, hnonzero⟩ := validateSyntax_iff.mp h
  simp only [validInteger, unsigned, Bool.false_and, Bool.false_eq_true, if_false,
    Bool.and_eq_true] at hvalid
  have hsign : record.denominator.toList.head? ≠ some '-' := by
    intro hhead
    exact absurd (List.all_eq_true.mp hvalid.2 '-' (List.mem_of_mem_head? hhead)) (by decide)
  have hany : record.denominator.toList.any (· != '0') = true := by
    by_contra hnone
    rw [Bool.not_eq_true, List.any_eq_false] at hnone
    have hempty : record.denominator.toList.dropWhile (· == '0') = [] :=
      List.dropWhile_eq_nil_iff.mpr fun c hc => by simpa using hnone c hc
    simp [hempty] at hnonzero
  have hpos := (ofDigitChars_pos_iff hvalid.2).mpr hany
  simp only [decimalInteger, unsigned, Bool.true_and, beq_iff_eq, hsign, if_false]
  exact_mod_cast hpos

theorem numerator_neg_iff {record : ExactRationalRecord} (h : record.validateSyntax = .ok ()) :
    decimalInteger record.numerator < 0 ↔ negativeNumerator record.numerator = true := by
  obtain ⟨hvalid, _⟩ := validateSyntax_iff.mp h
  simp only [validInteger, unsigned, Bool.true_and, beq_iff_eq, Bool.and_eq_true] at hvalid
  by_cases hsign : record.numerator.toList.head? = some '-'
  · have hdigits := hvalid.2
    rw [if_pos hsign] at hdigits
    simp only [decimalInteger, unsigned, negativeNumerator, hsign, Bool.true_and,
      beq_self_eq_true, if_true]
    rw [← ofDigitChars_pos_iff hdigits]
    omega
  · simp only [decimalInteger, unsigned, negativeNumerator, hsign, Bool.true_and,
      beq_iff_eq, if_false, Bool.and_eq_true, false_and, iff_false]
    omega

/-- **The textual sign test is the sign of the value.** -/
theorem parse_nonneg {record : ExactRationalRecord} {bound : ℚ} (h : parse record = .ok bound) :
    0 ≤ bound ↔ negativeNumerator record.numerator = false := by
  obtain ⟨_, hwell, hvalue⟩ := bind_eq_ok h
  cases hvalue
  have hden : (0 : ℚ) < decimalInteger record.denominator := by exact_mod_cast denominator_pos hwell
  rw [← Bool.not_eq_true, ← numerator_neg_iff hwell, not_lt, le_div_iff₀ hden, zero_mul]
  exact Int.cast_nonneg_iff

/-! ## What an accepted budget says -/

/-- A component that passes its own checks, with the value of its bound. -/
structure Admitted (required : List CertificationErrorSource)
    (component : CertificationErrorComponent) (bound : ℚ) : Prop where
  parsed : parse component.absoluteBound = .ok bound
  nonnegative : 0 ≤ bound
  evidence : component.evidenceDigest.validate = true ∧ blank component.method = false
  impact : component.affectsClaim = true ↔ component.source ∈ required

structure Covered (budget : CertificationErrorBudget) : Prop where
  required : budget.requiredSources.Nodup
  admitted : ∀ component ∈ budget.components, ∃ bound,
    Admitted budget.requiredSources component bound
  distinct : (budget.components.map CertificationErrorComponent.source).Nodup
  complete : ∀ source ∈ budget.requiredSources,
    source ∈ budget.components.map CertificationErrorComponent.source

/-- The value of a component's bound. -/
def boundOf (component : CertificationErrorComponent) : ℚ :=
  (parse component.absoluteBound).toOption.getD 0

theorem Admitted.boundOf_eq {required : List CertificationErrorSource}
    {component : CertificationErrorComponent} {bound : ℚ} (h : Admitted required component bound) :
    boundOf component = bound := by
  rw [boundOf, h.parsed]
  rfl

def claimBounds (components : List CertificationErrorComponent) : List ℚ :=
  (components.filter CertificationErrorComponent.affectsClaim).map boundOf

theorem checkComponent_iff {required observed observed' : List CertificationErrorSource}
    {component : CertificationErrorComponent} :
    checkComponent required observed component = .ok observed' ↔
      (∃ bound, Admitted required component bound) ∧ component.source ∉ observed ∧
        observed' = component.source :: observed := by
  unfold checkComponent
  constructor
  · intro h
    obtain ⟨_, hwell, h⟩ := bind_eq_ok h
    obtain ⟨_, hsign, h⟩ := bind_eq_ok h
    obtain ⟨_, hevidence, h⟩ := bind_eq_ok h
    obtain ⟨_, hfresh, h⟩ := bind_eq_ok h
    obtain ⟨_, himpact, h⟩ := bind_eq_ok h
    cases h
    have hparsed : parse component.absoluteBound =
      .ok (decimalInteger component.absoluteBound.numerator /
        decimalInteger component.absoluteBound.denominator) := by
      rw [parse, hwell]
      rfl
    have hsign := check_iff.mp hsign
    have hevidence := check_iff.mp hevidence
    have himpact := check_iff.mp himpact
    rw [Bool.not_eq_true'] at hsign
    rw [Bool.and_eq_true, Bool.not_eq_true'] at hevidence
    rw [beq_iff_eq] at himpact
    have hbound := (parse_nonneg hparsed).mpr hsign
    refine ⟨⟨_, hparsed, hbound, hevidence, ?_⟩, by simpa using check_iff.mp hfresh, rfl⟩
    rw [← himpact, decide_eq_true_eq]
  · intro h
    obtain ⟨⟨bound, hbound⟩, hfresh, rfl⟩ := h
    obtain ⟨_, hwell, _⟩ := bind_eq_ok hbound.parsed
    have himpact : decide (component.source ∈ required) = component.affectsClaim := by
      rw [Bool.eq_iff_iff, decide_eq_true_eq]
      exact hbound.impact.symm
    rw [hwell, ok_bind,
      check_iff.mpr (by simp [(parse_nonneg hbound.parsed).mp hbound.nonnegative]), ok_bind,
      check_iff.mpr (by simp [hbound.evidence.1, hbound.evidence.2]), ok_bind,
      check_iff.mpr (by simpa using hfresh), ok_bind, check_iff.mpr (by simp [himpact]), ok_bind]
    rfl

/-- The loop over the components. -/
theorem checkComponents_iff {required observed observed' : List CertificationErrorSource}
    {components : List CertificationErrorComponent} :
    components.foldlM (checkComponent required) observed = .ok observed' ↔
      (∀ component ∈ components, ∃ bound, Admitted required component bound) ∧
      (components.map CertificationErrorComponent.source).Nodup ∧
      (∀ component ∈ components, component.source ∉ observed) ∧
      observed' = (components.map CertificationErrorComponent.source).reverse ++ observed := by
  induction components generalizing observed with
  | nil => simp [pure, Except.pure, eq_comm]
  | cons component components ih =>
    rw [List.foldlM_cons]
    constructor
    · intro h
      obtain ⟨next, hstep, h⟩ := bind_eq_ok h
      obtain ⟨hadmitted, hfresh, rfl⟩ := checkComponent_iff.mp hstep
      obtain ⟨hall, hnodup, hrest, rfl⟩ := ih.mp h
      refine ⟨List.forall_mem_cons.mpr ⟨hadmitted, hall⟩, ?_,
        List.forall_mem_cons.mpr ⟨hfresh, ?_⟩, by simp⟩
      · rw [List.map_cons, List.nodup_cons]
        refine ⟨fun hmem => ?_, hnodup⟩
        obtain ⟨other, hother, heq⟩ := List.mem_map.mp hmem
        exact hrest other hother (heq ▸ List.mem_cons_self)
      · intro other hother hmem
        exact hrest other hother (List.mem_cons_of_mem _ hmem)
    · intro h
      obtain ⟨hall, hnodup, hfresh, rfl⟩ := h
      rw [List.map_cons, List.nodup_cons] at hnodup
      have hstep : checkComponent required observed component =
          .ok (component.source :: observed) :=
        checkComponent_iff.mpr ⟨hall component List.mem_cons_self,
          hfresh component List.mem_cons_self, rfl⟩
      rw [hstep, ok_bind]
      refine ih.mpr ⟨fun other hother => hall other (List.mem_cons_of_mem _ hother), hnodup.2,
        ?_, by simp⟩
      intro other hother hmem
      rcases List.mem_cons.mp hmem with heq | hmem
      · exact hnodup.1 (heq ▸ List.mem_map_of_mem hother)
      · exact hfresh other (List.mem_cons_of_mem _ hother) hmem

theorem missing_empty {required observed : List CertificationErrorSource} :
    (missing required observed).isEmpty = true ↔ ∀ source ∈ required, source ∈ observed := by
  have hall : ∀ source : CertificationErrorSource, source ∈ CertificationErrorSource.all := by
    intro source
    cases source <;> decide
  rw [List.isEmpty_iff, missing, List.filter_eq_nil_iff]
  constructor
  · intro h source hsource
    by_contra hmissing
    exact h source (hall source) (by simp [hsource, hmissing])
  · intro h source _
    simp only [decide_eq_true_eq, not_and, not_not]
    exact h source

theorem validate_iff {budget : CertificationErrorBudget} :
    budget.validateDeclaredCoverage = .ok () ↔ Covered budget := by
  unfold CertificationErrorBudget.validateDeclaredCoverage
  constructor
  · intro h
    obtain ⟨_, hrequired, h⟩ := bind_eq_ok h
    obtain ⟨observed, hloop, h⟩ := bind_eq_ok h
    obtain ⟨hadmitted, hdistinct, _, rfl⟩ := checkComponents_iff.mp hloop
    have hmissing := missing_empty.mp (check_iff.mp h)
    refine ⟨by simpa using check_iff.mp hrequired, hadmitted, hdistinct, fun source hsource => ?_⟩
    simpa using hmissing source hsource
  · intro h
    have hloop := checkComponents_iff.mpr ⟨h.admitted, h.distinct, fun _ _ => List.not_mem_nil, rfl⟩
    rw [check_iff.mpr (by simpa using h.required), ok_bind, hloop, ok_bind]
    refine check_iff.mpr (missing_empty.mpr fun source hsource => ?_)
    simpa using h.complete source hsource

/-- The summing loop over admitted components never refuses. -/
theorem addBounds {required : List CertificationErrorSource}
    {components : List CertificationErrorComponent}
    (h : ∀ component ∈ components, ∃ bound, Admitted required component bound) (total : ℚ) :
    components.foldlM addBound total = .ok (total + (claimBounds components).sum) := by
  induction components generalizing total with
  | nil => simp [claimBounds, pure, Except.pure]
  | cons component components ih =>
    obtain ⟨bound, hbound⟩ := h component List.mem_cons_self
    have hrest := ih fun other hother => h other (List.mem_cons_of_mem _ hother)
    have hstep : addBound total component =
        .ok (if component.affectsClaim then total + bound else total) := by
      rw [addBound, hbound.parsed, ok_bind, check_iff.mpr (by simpa using hbound.nonnegative)]
      rfl
    rw [List.foldlM_cons, hstep, ok_bind, hrest]
    cases hclaim : component.affectsClaim with
    | true => simp [claimBounds, hclaim, hbound.boundOf_eq, add_assoc]
    | false => simp [claimBounds, hclaim]

theorem combined_iff {budget : CertificationErrorBudget} {total : ℚ} :
    combinedCertificationErrorBound budget = .ok total ↔
      Covered budget ∧ total = (claimBounds budget.components).sum := by
  unfold combinedCertificationErrorBound
  constructor
  · intro h
    obtain ⟨_, hvalid, h⟩ := bind_eq_ok h
    have hcovered := validate_iff.mp hvalid
    rw [addBounds hcovered.admitted, zero_add] at h
    exact ⟨hcovered, (Except.ok.inj h).symm⟩
  · intro h
    rw [validate_iff.mpr h.1, ok_bind, addBounds h.1.admitted, zero_add, h.2]

/-- After the declared coverage nothing is refused. -/
theorem combined_error {budget : CertificationErrorBudget} {error : CertificateError} :
    combinedCertificationErrorBound budget = .error error ↔
    budget.validateDeclaredCoverage = .error error := by
  unfold combinedCertificationErrorBound
  cases hvalid : budget.validateDeclaredCoverage with
  | error refusal =>
    constructor
    · intro h
      cases h
      rfl
    · intro h
      cases h
      rfl
  | ok u =>
    rw [ok_bind, addBounds (validate_iff.mp hvalid).admitted]
    simp

/-! ## The bound dominates -/

/-- The claim's components are those of the required sources, each once. -/
theorem Covered.claim_sources {budget : CertificationErrorBudget} (h : Covered budget) :
    ((budget.components.filter CertificationErrorComponent.affectsClaim).map
      CertificationErrorComponent.source).Perm budget.requiredSources := by
  have hnodup : ((budget.components.filter CertificationErrorComponent.affectsClaim).map
      CertificationErrorComponent.source).Nodup :=
    h.distinct.sublist (List.filter_sublist.map _)
  refine (List.perm_ext_iff_of_nodup hnodup h.required).mpr fun source => ?_
  rw [List.mem_map]
  constructor
  · intro hmem
    obtain ⟨component, hcomponent, rfl⟩ := hmem
    obtain ⟨hin, hclaim⟩ := List.mem_filter.mp hcomponent
    obtain ⟨bound, hbound⟩ := h.admitted component hin
    exact hbound.impact.mp hclaim
  · intro hrequired
    obtain ⟨component, hin, rfl⟩ := List.mem_map.mp (h.complete source hrequired)
    obtain ⟨bound, hbound⟩ := h.admitted component hin
    exact ⟨component, List.mem_filter.mpr ⟨hin, hbound.impact.mpr hrequired⟩, rfl⟩

theorem abs_sum_le {components : List CertificationErrorComponent}
    (error : CertificationErrorSource → ℝ)
    (h : ∀ component ∈ components, |error component.source| ≤ boundOf component) :
    |(components.map fun component => error component.source).sum| ≤
      ((components.map boundOf).sum : ℚ) := by
  induction components with
  | nil => simp
  | cons component components ih =>
    rw [List.map_cons, List.map_cons, List.sum_cons, List.sum_cons, Rat.cast_add]
    have hrest := ih fun other hother => h other (List.mem_cons_of_mem _ hother)
    exact (abs_add_le _ _).trans (add_le_add (h component List.mem_cons_self) hrest)

theorem Covered.dominates {budget : CertificationErrorBudget} (h : Covered budget)
    (error : CertificationErrorSource → ℝ)
    (herror : ∀ component ∈ budget.components, |error component.source| ≤ boundOf component) :
    |(budget.requiredSources.map error).sum| ≤ ((claimBounds budget.components).sum : ℚ) := by
  rw [← (h.claim_sources.map error).sum_eq, List.map_map]
  exact abs_sum_le error fun component hcomponent =>
    herror component (List.mem_filter.mp hcomponent).1

/-- The order of the components does not matter. -/
theorem Covered.perm {budget : CertificationErrorBudget}
    {components : List CertificationErrorComponent}
    (h : Covered budget) (hperm : components.Perm budget.components) :
    Covered { budget with components } := by
  refine ⟨h.required, fun component hin => h.admitted component (hperm.mem_iff.mp hin), ?_, ?_⟩
  · exact (hperm.map _).nodup_iff.mpr h.distinct
  · intro source hsource
    exact (hperm.map _).mem_iff.mpr (h.complete source hsource)

theorem claimBounds_perm {components components' : List CertificationErrorComponent}
    (h : components.Perm components') :
    (claimBounds components).sum = (claimBounds components').sum :=
  ((h.filter _).map _).sum_eq

/-- **The combined bound is exact**: it is returned for the covered budgets and
no others, whatever the order of the components, and dominates the total error of
the required sources. The sign of a bound's text is the sign of its value, so that
only the declared coverage refuses. -/
theorem combined_bound_exact (budget : CertificationErrorBudget) (total : ℚ) :
    (combinedCertificationErrorBound budget = .ok total ↔
      Covered budget ∧ total = (claimBounds budget.components).sum) ∧
    (combinedCertificationErrorBound budget = .ok total → ∀ components,
      components.Perm budget.components →
      combinedCertificationErrorBound { budget with components } = .ok total) ∧
    (combinedCertificationErrorBound budget = .ok total → ∀ error : CertificationErrorSource → ℝ,
      (∀ component ∈ budget.components, |error component.source| ≤ boundOf component) →
      |(budget.requiredSources.map error).sum| ≤ total) ∧
    (∀ (record : ExactRationalRecord) (bound : ℚ), parse record = .ok bound →
      (0 ≤ bound ↔ negativeNumerator record.numerator = false)) ∧
    ∀ error, combinedCertificationErrorBound budget = .error error ↔
      budget.validateDeclaredCoverage = .error error := by
  refine ⟨combined_iff, fun h components hperm => ?_, fun h error herror => ?_, fun _ _ =>
    parse_nonneg, fun _ => combined_error⟩
  · obtain ⟨hcovered, rfl⟩ := combined_iff.mp h
    exact combined_iff.mpr ⟨hcovered.perm hperm, (claimBounds_perm hperm).symm⟩
  · obtain ⟨hcovered, rfl⟩ := combined_iff.mp h
    exact hcovered.dominates error herror

def sampleComponent (source : CertificationErrorSource) (numerator : String) (affectsClaim : Bool) :
    CertificationErrorComponent :=
  { source, absoluteBound := ⟨numerator, "10"⟩, affectsClaim
    evidenceDigest := ⟨"0000000000000000000000000000000000000000000000000000000000000000"⟩
    method := "interval" }

def sampleBudget : CertificationErrorBudget :=
  { requiredSources := [.rounding, .quadrature]
    components := [sampleComponent .quadrature "1" true, sampleComponent .basis "7" false,
      sampleComponent .rounding "2" true] }

/-- Errors of one and two tenths stay within three tenths. -/
theorem combined_bound_exact_sample :
    |([CertificationErrorSource.rounding, .quadrature].map fun _ => (1 / 10 : ℝ)).sum| ≤
      ((3 / 10 : ℚ) : ℝ) := by
  have hrun : combinedCertificationErrorBound sampleBudget = .ok (3 / 10) := by decide +kernel
  have hbound : ∀ component ∈ sampleBudget.components, (1 / 10 : ℚ) ≤ boundOf component :=
    by decide +kernel
  refine (combined_bound_exact sampleBudget (3 / 10)).2.2.1 hrun _ fun component hcomponent => ?_
  rw [abs_of_nonneg (by norm_num)]
  have hreal : ((1 / 10 : ℚ) : ℝ) ≤ boundOf component := by
    exact_mod_cast hbound component hcomponent
  simpa using hreal

end Xcelerator.Certify.ErrorBudget
