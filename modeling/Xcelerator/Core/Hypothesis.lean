import Mathlib
import Xcelerator.Cache.CanonicalJson
import Xcelerator.Core.DecimalCanonical

/-! # Frozen hypotheses

A hypothesis plans its observations before they are made. Its validation keeps
a design, in any spelling of its coordinates, in one partition and one family.
A `BTreeMap` is its entries in key order; the texts of numbers and strings and
the digest are parameters. -/

namespace Xcelerator.Core.Hypothesis
open Foundations.Machine
open Xcelerator.Core.DecimalLiteral (Result Outcome ofResult)
open Xcelerator.Core.ConfigResolution
  (Value Encoding insertField canonicalJson ConfigResolutionError)
open Xcelerator.Cache (blank)
open Xcelerator.Cache.CanonicalJson (validateSecretFree)

/-! ## The specification -/

structure ConfigDigest where
  text : String
deriving DecidableEq

inductive ObservableTarget where
  | finite
  | stabilizedPlateau
  | sampledMinimum
  | extrapolatedLimit
deriving DecidableEq

inductive LogBase where
  | natural
  | decimal
deriving DecidableEq

inductive ObservableTransform where
  | identity
  | positiveLog (base : LogBase) (negative : Bool)
  | signedLogMagnitude (base : LogBase) (negative : Bool)
deriving DecidableEq

inductive RootErrorConvention where
  | absolute
  | relative
deriving DecidableEq

structure RootObservable where
  index : Nat
  referenceIdentity : ConfigDigest
  error : RootErrorConvention

structure ProlateObservable where
  index : Nat
  indexingConvention : String
  deficiencyConvention : String
  asymptoticApproximation : Bool

structure ObservableContract where
  definitionId : String
  definitionVersion : Nat
  target : ObservableTarget
  transform : ObservableTransform
  normalization : String
  metric : String
  targetDefinition : Option ConfigDigest
  derivativeCoordinate : Option String
  root : Option RootObservable
  prolate : Option ProlateObservable

/-- An exact planned design, including algorithmic differences. -/
structure ObservationDesign where
  coordinates : List (String × DecimalLiteral)
  nModes : Option Nat
  dimension : Nat
  parity : String
  basis : String
  method : String
  quadratureIdentity : String
  sourcePrecisionBits : Nat
  exactInputIdentity : ConfigDigest

inductive DatasetPartition where
  | calibration
  | development
  | replication
  | protectedValidation
deriving DecidableEq

inductive ParameterOrigin where
  | theoryFixed (justification : String)
  | external (evidence : String)
  | fitted (calibrationDigest : ConfigDigest)
  | postHoc (selectionRecord : String)

structure HypothesisParameter where
  value : DecimalLiteral
  origin : ParameterOrigin

inductive NonzeroSign where
  | positive
  | negative
deriving DecidableEq

structure PlannedObservation where
  predictionSign : Option NonzeroSign
  familyId : String
  design : ObservationDesign
  partition : DatasetPartition
  prediction : DecimalLiteral
  absoluteTolerance : DecimalLiteral

structure HypothesisSpec where
  schemaVersion : Nat
  scoringSemantics : String
  modelId : String
  modelVersion : String
  evaluatorDigest : ConfigDigest
  observable : ObservableContract
  parameters : List (String × HypothesisParameter)
  regime : String
  selectionPolicy : String
  exposureRecord : String
  priorSpecification : Option ConfigDigest
  exclusions : List (String × String)
  cases : List (String × PlannedObservation)

/-! ## Records as JSON -/

def object (fields : List (String × Value)) : Value :=
  .object (fields.foldl (fun map field => insertField map field.1 field.2) [])

def natural (n : Nat) : Value := .number (.posInt n)

def optional {α : Type} (toValue : α → Value) : Option α → Value
  | none => .null
  | some a => toValue a

def ConfigDigest.toValue (digest : ConfigDigest) : Value := .string digest.text

def literalValue (literal : DecimalLiteral) : Value := .string (String.ofList literal.text)

def ObservableTarget.toValue : ObservableTarget → Value
  | .finite => .string "finite"
  | .stabilizedPlateau => .string "stabilized_plateau"
  | .sampledMinimum => .string "sampled_minimum"
  | .extrapolatedLimit => .string "extrapolated_limit"

def LogBase.toValue : LogBase → Value
  | .natural => .string "natural"
  | .decimal => .string "decimal"

def ObservableTransform.toValue : ObservableTransform → Value
  | .identity => object [("kind", .string "identity")]
  | .positiveLog base negative =>
    object [("kind", .string "positive_log"), ("base", base.toValue), ("negative", .bool negative)]
  | .signedLogMagnitude base negative =>
    object [("kind", .string "signed_log_magnitude"), ("base", base.toValue),
      ("negative", .bool negative)]

def RootErrorConvention.toValue : RootErrorConvention → Value
  | .absolute => .string "absolute"
  | .relative => .string "relative"

def RootObservable.toValue (root : RootObservable) : Value :=
  object [("index", natural root.index), ("reference_identity", root.referenceIdentity.toValue),
    ("error", root.error.toValue)]

def ProlateObservable.toValue (prolate : ProlateObservable) : Value :=
  object [("index", natural prolate.index),
    ("indexing_convention", .string prolate.indexingConvention),
    ("deficiency_convention", .string prolate.deficiencyConvention),
    ("asymptotic_approximation", .bool prolate.asymptoticApproximation)]

def ObservableContract.toValue (observable : ObservableContract) : Value :=
  object [("definition_id", .string observable.definitionId),
    ("definition_version", natural observable.definitionVersion),
    ("target", observable.target.toValue),
    ("transform", observable.transform.toValue),
    ("normalization", .string observable.normalization), ("metric", .string observable.metric),
    ("target_definition", optional ConfigDigest.toValue observable.targetDefinition),
    ("derivative_coordinate", optional .string observable.derivativeCoordinate),
    ("root", optional RootObservable.toValue observable.root),
    ("prolate", optional ProlateObservable.toValue observable.prolate)]

def ObservationDesign.toValue (design : ObservationDesign) : Value :=
  object [("coordinates", object (design.coordinates.map fun c => (c.1, literalValue c.2))),
    ("n_modes", optional natural design.nModes), ("dimension", natural design.dimension),
    ("parity", .string design.parity), ("basis", .string design.basis),
    ("method", .string design.method), ("quadrature_identity", .string design.quadratureIdentity),
    ("source_precision_bits", natural design.sourcePrecisionBits),
    ("exact_input_identity", design.exactInputIdentity.toValue)]

def DatasetPartition.toValue : DatasetPartition → Value
  | .calibration => .string "calibration"
  | .development => .string "development"
  | .replication => .string "replication"
  | .protectedValidation => .string "protected_validation"

def ParameterOrigin.toValue : ParameterOrigin → Value
  | .theoryFixed justification =>
    object [("origin", .string "theory_fixed"), ("justification", .string justification)]
  | .external evidence => object [("origin", .string "external"), ("evidence", .string evidence)]
  | .fitted calibration =>
    object [("origin", .string "fitted"), ("calibration_digest", calibration.toValue)]
  | .postHoc selection => object [("origin", .string "post_hoc"),
      ("selection_record", .string selection)]

def HypothesisParameter.toValue (parameter : HypothesisParameter) : Value :=
  object [("value", literalValue parameter.value), ("origin", parameter.origin.toValue)]

def NonzeroSign.toValue : NonzeroSign → Value
  | .positive => .string "positive"
  | .negative => .string "negative"

def PlannedObservation.toValue (planned : PlannedObservation) : Value :=
  object [("prediction_sign", optional NonzeroSign.toValue planned.predictionSign),
    ("family_id", .string planned.familyId), ("design", planned.design.toValue),
    ("partition", planned.partition.toValue), ("prediction", literalValue planned.prediction),
    ("absolute_tolerance", literalValue planned.absoluteTolerance)]

def HypothesisSpec.toValue (spec : HypothesisSpec) : Value :=
  object [("schema_version", natural spec.schemaVersion),
    ("scoring_semantics", .string spec.scoringSemantics),
    ("model_id", .string spec.modelId), ("model_version", .string spec.modelVersion),
    ("evaluator_digest", spec.evaluatorDigest.toValue), ("observable", spec.observable.toValue),
    ("parameters", object (spec.parameters.map fun p => (p.1, p.2.toValue))),
    ("regime", .string spec.regime),
    ("selection_policy", .string spec.selectionPolicy),
    ("exposure_record", .string spec.exposureRecord),
    ("prior_specification", optional ConfigDigest.toValue spec.priorSpecification),
    ("exclusions", object (spec.exclusions.map fun e => (e.1, .string e.2))),
    ("cases", object (spec.cases.map fun c => (c.1, c.2.toValue)))]

/-! ## Checks -/

def configError {α : Type} (message : String) : Outcome α := .error (.config message)

def refuse (condition : Prop) [Decidable condition] (message : String) : Outcome Unit :=
  if condition then configError message else .ok ()

def required (value field : String) : Outcome Unit :=
  if blank value then configError (field ++ " must be nonempty") else .ok ()

def ConfigDigest.isSha256 (digest : ConfigDigest) : Bool :=
  digest.text.utf8ByteSize == 64 && digest.text.toList.all fun c => ('0' ≤ c && c ≤ '9') ||
    ('a' ≤ c && c ≤ 'f')

def checkDigest (value : ConfigDigest) (field : String) : Outcome Unit :=
  if value.isSha256 then .ok () else configError (field ++ " must be lowercase SHA-256")

def nonnegative (value : DecimalLiteral) : Outcome Unit := do
  let zero ← ofResult (DecimalLiteral.new ['0'])
  let order ← value.cmpNumeric zero
  if order = .lt then configError "resolution/remainder must be nonnegative" else .ok ()

def validateLiteral (literal : DecimalLiteral) : Outcome Unit :=
  ofResult (DecimalLiteral.validateStr literal.text)

def whenSome {α : Type} (check : α → Outcome Unit) : Option α → Outcome Unit
  | none => .ok ()
  | some a => check a

def ObservableContract.validate (observable : ObservableContract) : Outcome Unit := do
  required observable.definitionId "observable definition"
  required observable.normalization "observable normalization"
  required observable.metric "observable metric"
  refuse (observable.definitionVersion = 0) "observable version must be positive"
  whenSome (checkDigest · "target definition") observable.targetDefinition
  whenSome (required · "derivative coordinate") observable.derivativeCoordinate
  whenSome (fun root => do
    refuse (root.index = 0) "root index must be one-based"
    checkDigest root.referenceIdentity "root reference") observable.root
  whenSome (fun prolate => do
    required prolate.indexingConvention "prolate indexing convention"
    required prolate.deficiencyConvention "prolate deficiency convention") observable.prolate

def ObservationDesign.validate (design : ObservationDesign) : Outcome Unit := do
  refuse (design.dimension = 0 ∨ design.sourcePrecisionBits < 2 ∨ design.coordinates = [])
    "observation requires dimension, source precision and exact coordinates"
  design.coordinates.forM fun coordinate => do
    required coordinate.1 "coordinate"
    validateLiteral coordinate.2
  required design.parity "parity"
  required design.basis "basis"
  required design.method "method"
  required design.quadratureIdentity "quadrature identity"
  checkDigest design.exactInputIdentity "exact input identity"

def ParameterOrigin.validate : ParameterOrigin → Outcome Unit
  | .theoryFixed justification => required justification "theory justification"
  | .external evidence => required evidence "external parameter evidence"
  | .fitted calibration => checkDigest calibration "calibration"
  | .postHoc selection => required selection "post-hoc selection"

def canonicalDesign (design : ObservationDesign) : Result ObservationDesign := do
  let coordinates ← design.coordinates.mapM fun coordinate => do
    let canonical ← coordinate.2.canonical
    return (coordinate.1, canonical)
  return { design with coordinates := coordinates }

/-- The text of an error of the canonical writer. -/
def serializationError : ConfigResolutionError → String
  | .serialization message => "configuration serialization failed: " ++ message
  | _ => ""

def researchDigest (e : Encoding) (value : Value) : Result String := do
  validateSecretFree value "research specification"
  let text ← (canonicalJson e value).mapError serializationError
  return e.sha256Hex text

def ObservableTransform.signed : ObservableTransform → Bool
  | .signedLogMagnitude _ _ => true
  | _ => false

/-! ## Validation -/

/-- The two maps that the pass over the cases fills. -/
structure Ledger where
  families : Std.ExtTreeMap String DatasetPartition
  designs : Std.ExtTreeMap String (DatasetPartition × String)

def recordCase (e : Encoding) (spec : HypothesisSpec) (ledger : Ledger)
    (entry : String × PlannedObservation) :
    Outcome Ledger := do
  let (id, c) := entry
  required id "case ID"
  required c.familyId "family ID"
  c.design.validate
  let canonical ← ofResult (canonicalDesign c.design)
  let designDigest ← ofResult (researchDigest e canonical.toValue)
  refuse (ledger.designs[designDigest]?.any fun seen => seen.1 != c.partition ||
    seen.2 != c.familyId)
    "the same exact design cannot be split across partitions or independent families"
  refuse (c.predictionSign.isSome != spec.observable.transform.signed)
    "prediction sign must be explicit exactly for signed-log observables"
  validateLiteral c.prediction
  nonnegative c.absoluteTolerance
  refuse (spec.exclusions.any fun exclusion => exclusion.1 == id) "planned case is also excluded"
  refuse (ledger.families[c.familyId]?.any fun seen => seen != c.partition)
    "a design family cannot straddle fitting and validation partitions"
  return { families := ledger.families.insert c.familyId c.partition,
           designs := ledger.designs.insert designDigest (c.partition, c.familyId) }

def hypothesisScoringSemantics : String := "frozen-finite-domain-absolute-envelope-v1"

def HypothesisSpec.validate (e : Encoding) (spec : HypothesisSpec) : Outcome Unit := do
  refuse (spec.schemaVersion ≠ 1 ∨ spec.scoringSemantics ≠ hypothesisScoringSemantics ∨
    spec.cases = [])
    "hypothesis requires schema 1 and planned cases"
  required spec.modelId "model"
  required spec.modelVersion "model version"
  required spec.regime "regime"
  required spec.selectionPolicy "selection policy"
  required spec.exposureRecord "exposure record"
  spec.observable.validate
  checkDigest spec.evaluatorDigest "evaluator"
  whenSome (checkDigest · "prior specification") spec.priorSpecification
  spec.parameters.forM fun parameter => do
    required parameter.1 "parameter name"
    validateLiteral parameter.2.value
    parameter.2.origin.validate
  let _ ← spec.cases.foldlM (recordCase e spec) ⟨{}, {}⟩
  spec.exclusions.forM fun exclusion => do
    required exclusion.1 "exclusion ID"
    required exclusion.2 "exclusion reason"
  ofResult (validateSecretFree spec.toValue "hypothesis")

/-! ## Separation -/

/-- The same design up to the spelling of its coordinates. -/
def NumericallyEqual (a b : ObservationDesign) : Prop :=
  a.coordinates.map (fun c => (c.1, c.2.value)) = b.coordinates.map (fun c => (c.1, c.2.value)) ∧
    ({ a with coordinates := [] } : ObservationDesign) = { b with coordinates := [] }

theorem ofResult_ok {α : Type} {x : Result α} {a : α} (h : ofResult x = .ok a) : x = .ok a := by
  cases x with
  | error message => cases h
  | ok b =>
    cases h
    rfl

/-- A guard that was passed. -/
theorem guard_ok {condition : Prop} [Decidable condition] {message : String} {u : Unit}
    (h : refuse condition message = .ok u) : ¬ condition := by
  intro hcondition
  rw [refuse, if_pos hcondition] at h
  cases h

theorem design_coordinates_valid {design : ObservationDesign} (h : design.validate = .ok ()) :
    ∀ c ∈ design.coordinates, DecimalLiteral.validateStr c.2.text = .ok () := by
  unfold ObservationDesign.validate at h
  obtain ⟨_, _, h⟩ := bind_eq_ok h
  obtain ⟨_, hcoordinates, _⟩ := bind_eq_ok h
  intro c hc
  obtain ⟨_, _, hvalid⟩ := bind_eq_ok (forM_ok hcoordinates c hc)
  exact ofResult_ok hvalid

/-- Equal values have one canonical spelling. -/
theorem canonical_eq {a b : DecimalLiteral} (ha : DecimalLiteral.validateStr a.text = .ok ())
    (hb : DecimalLiteral.validateStr b.text = .ok ()) (h : a.value = b.value) :
    a.canonical = b.canonical := by
  obtain ⟨p, hp⟩ := DecimalLiteral.validateStr_ok ha
  obtain ⟨q, hq⟩ := DecimalLiteral.validateStr_ok hb
  rw [DecimalLiteral.canonical, DecimalLiteral.canonical, hp, hq,
    DecimalLiteral.parts_unique hp hq h]

theorem canonicalCoordinates_eq {xs ys : List (String × DecimalLiteral)}
    (hxs : ∀ c ∈ xs, DecimalLiteral.validateStr c.2.text = .ok ())
    (hys : ∀ c ∈ ys, DecimalLiteral.validateStr c.2.text = .ok ())
    (h : xs.map (fun c => (c.1, c.2.value)) = ys.map (fun c => (c.1, c.2.value))) :
    (xs.mapM fun c => do return (c.1, ← c.2.canonical) : Result (List (String × DecimalLiteral))) =
      ys.mapM fun c => do return (c.1, ← c.2.canonical) := by
  induction xs generalizing ys with
  | nil =>
    cases ys with
    | nil => rfl
    | cons y ys => cases h
  | cons x xs ih =>
    cases ys with
    | nil => cases h
    | cons y ys =>
      rw [List.map_cons, List.map_cons, List.cons.injEq, Prod.mk.injEq] at h
      obtain ⟨⟨hname, hvalue⟩, hrest⟩ := h
      have hfirst := canonical_eq (hxs x List.mem_cons_self) (hys y List.mem_cons_self) hvalue
      have htail := ih (fun c hc => hxs c (List.mem_cons_of_mem _ hc)) (fun c hc =>
        hys c (List.mem_cons_of_mem _ hc)) hrest
      rw [List.mapM_cons, List.mapM_cons, htail, hfirst, hname]

theorem canonicalDesign_eq {a b : ObservationDesign} (ha : a.validate = .ok ())
    (hb : b.validate = .ok ())
    (h : NumericallyEqual a b) : canonicalDesign a = canonicalDesign b := by
  have hcoordinates := canonicalCoordinates_eq (design_coordinates_valid ha)
    (design_coordinates_valid hb) h.1
  have hrest := h.2
  cases a
  cases b
  simp only [ObservationDesign.mk.injEq, true_and] at hrest
  obtain ⟨rfl, rfl, rfl, rfl, rfl, rfl, rfl, rfl⟩ := hrest
  unfold canonicalDesign
  dsimp only at hcoordinates ⊢
  rw [hcoordinates]

/-- The digest that a case is filed under. -/
def FiledUnder (e : Encoding) (design : ObservationDesign) (digest : String) : Prop :=
  design.validate = .ok () ∧
    ∃ canonical, canonicalDesign design = .ok canonical ∧
    researchDigest e canonical.toValue = .ok digest

theorem FiledUnder.unique {e : Encoding} {a b : ObservationDesign} {s t : String}
    (ha : FiledUnder e a s) (hb : FiledUnder e b t) (h : NumericallyEqual a b) : s = t := by
  obtain ⟨havalid, ca, hca, hs⟩ := ha
  obtain ⟨hbvalid, cb, hcb, ht⟩ := hb
  rw [canonicalDesign_eq havalid hbvalid h, hcb] at hca
  cases hca
  rw [hs] at ht
  cases ht
  rfl

/-- What the ledger knows of a case. -/
def Filed (e : Encoding) (ledger : Ledger) (c : PlannedObservation) : Prop :=
  ledger.families[c.familyId]? = some c.partition ∧
    ∃ digest, FiledUnder e c.design digest ∧
    ledger.designs[digest]? = some (c.partition, c.familyId)

/-- One case: it is filed, and nothing filed before is displaced. -/
theorem recordCase_files {e : Encoding} {spec : HypothesisSpec} {ledger ledger' : Ledger}
    {entry : String × PlannedObservation} (h : recordCase e spec ledger entry = .ok ledger') :
    Filed e ledger' entry.2 ∧ ∀ c, Filed e ledger c → Filed e ledger' c := by
  obtain ⟨id, c⟩ := entry
  unfold recordCase at h
  dsimp only at h
  obtain ⟨_, _, h⟩ := bind_eq_ok h
  obtain ⟨_, _, h⟩ := bind_eq_ok h
  obtain ⟨_, hvalid, h⟩ := bind_eq_ok h
  obtain ⟨canonical, hcanonical, h⟩ := bind_eq_ok h
  obtain ⟨digest, hdigest, h⟩ := bind_eq_ok h
  obtain ⟨_, hdesigns, h⟩ := bind_eq_ok h
  obtain ⟨_, _, h⟩ := bind_eq_ok h
  obtain ⟨_, _, h⟩ := bind_eq_ok h
  obtain ⟨_, _, h⟩ := bind_eq_ok h
  obtain ⟨_, _, h⟩ := bind_eq_ok h
  obtain ⟨_, hfamilies, h⟩ := bind_eq_ok h
  cases h
  have hdesign : ∀ seen, ledger.designs[digest]? = some seen →
      seen = (c.partition, c.familyId) := by
    intro seen hseen
    have hsame := guard_ok hdesigns
    rw [hseen] at hsame
    simpa [Prod.ext_iff] using hsame
  have hfamily : ∀ seen, ledger.families[c.familyId]? = some seen → seen = c.partition := by
    intro seen hseen
    have hsame := guard_ok hfamilies
    rw [hseen] at hsame
    simpa using hsame
  refine ⟨⟨by simp, digest, ⟨hvalid, canonical, ofResult_ok hcanonical, ofResult_ok hdigest⟩, by
    simp⟩, ?_⟩
  rintro other ⟨hother, filed, hfiled, hwhere⟩
  refine ⟨?_, filed, hfiled, ?_⟩
  · dsimp only
    rw [Std.ExtTreeMap.getElem?_insert]
    split
    · rename_i hkey
      rw [Std.LawfulEqOrd.compare_eq_iff_eq] at hkey
      rw [← hkey] at hother
      rw [← hfamily _ hother]
    · exact hother
  · dsimp only
    rw [Std.ExtTreeMap.getElem?_insert]
    split
    · rename_i hkey
      rw [Std.LawfulEqOrd.compare_eq_iff_eq] at hkey
      rw [← hkey] at hwhere
      rw [← hdesign _ hwhere]
    · exact hwhere

/-- All of the cases, in any ledger. -/
theorem recordCases_file {e : Encoding} {spec : HypothesisSpec}
    {cases : List (String × PlannedObservation)}
    {ledger ledger' : Ledger} (h : cases.foldlM (recordCase e spec) ledger = .ok ledger') :
    (∀ entry ∈ cases, Filed e ledger' entry.2) ∧ ∀ c, Filed e ledger c → Filed e ledger' c := by
  induction cases generalizing ledger with
  | nil =>
    cases h
    simp
  | cons entry rest ih =>
    rw [List.foldlM_cons] at h
    obtain ⟨middle, hfirst, hrest⟩ := bind_eq_ok h
    obtain ⟨hfiled, hkept⟩ := recordCase_files hfirst
    obtain ⟨hlater, hstays⟩ := ih hrest
    refine ⟨fun other hother => ?_, fun c hc => hstays c (hkept c hc)⟩
    rcases List.mem_cons.mp hother with rfl | hother
    · exact hstays _ hfiled
    · exact hlater other hother

theorem validate_files {e : Encoding} {spec : HypothesisSpec} (h : spec.validate e = .ok ()) :
    ∃ ledger, ∀ entry ∈ spec.cases, Filed e ledger entry.2 := by
  unfold HypothesisSpec.validate at h
  obtain ⟨_, _, h⟩ := bind_eq_ok h
  obtain ⟨_, _, h⟩ := bind_eq_ok h
  obtain ⟨_, _, h⟩ := bind_eq_ok h
  obtain ⟨_, _, h⟩ := bind_eq_ok h
  obtain ⟨_, _, h⟩ := bind_eq_ok h
  obtain ⟨_, _, h⟩ := bind_eq_ok h
  obtain ⟨_, _, h⟩ := bind_eq_ok h
  obtain ⟨_, _, h⟩ := bind_eq_ok h
  obtain ⟨_, _, h⟩ := bind_eq_ok h
  obtain ⟨_, _, h⟩ := bind_eq_ok h
  obtain ⟨ledger, hcases, _⟩ := bind_eq_ok h
  exact ⟨ledger, (recordCases_file hcases).1⟩

/-- **No design leaks.** In an accepted hypothesis a design, however its coordinates are spelled,
has one partition and one family, and a family has one partition. -/
theorem designs_never_leak (e : Encoding) (spec : HypothesisSpec) (h : spec.validate e = .ok ()) :
    (∀ a ∈ spec.cases, ∀ b ∈ spec.cases, NumericallyEqual a.2.design b.2.design →
      a.2.partition = b.2.partition ∧ a.2.familyId = b.2.familyId) ∧
    ∀ a ∈ spec.cases, ∀ b ∈ spec.cases, a.2.familyId = b.2.familyId →
    a.2.partition = b.2.partition := by
  obtain ⟨ledger, hfiled⟩ := validate_files h
  constructor
  · intro a ha b hb hequal
    obtain ⟨_, s, hs, hsa⟩ := hfiled a ha
    obtain ⟨_, t, ht, htb⟩ := hfiled b hb
    rw [hs.unique ht hequal, htb, Option.some.injEq, Prod.mk.injEq] at hsa
    exact ⟨hsa.1.symm, hsa.2.symm⟩
  · intro a ha b hb hfamily
    have hpa := (hfiled a ha).1
    have hpb := (hfiled b hb).1
    rw [hfamily, hpb, Option.some.injEq] at hpa
    exact hpa.symm

/-! One coordinate in two spellings, planned for one family. -/

def sampleDigest : ConfigDigest := ⟨String.ofList (List.replicate 64 'a')⟩

def sampleDesign (spelling : List Char) : ObservationDesign where
  coordinates := [("u", ⟨spelling⟩)]
  nModes := none
  dimension := 1
  parity := "even"
  basis := "b"
  method := "m"
  quadratureIdentity := "q"
  sourcePrecisionBits := 53
  exactInputIdentity := sampleDigest

def samplePlanned (spelling : List Char) : PlannedObservation where
  predictionSign := none
  familyId := "f"
  design := sampleDesign spelling
  partition := .calibration
  prediction := ⟨['0']⟩
  absoluteTolerance := ⟨['1']⟩

def sampleSpec : HypothesisSpec where
  schemaVersion := 1
  scoringSemantics := hypothesisScoringSemantics
  modelId := "m"
  modelVersion := "1"
  evaluatorDigest := sampleDigest
  observable := ⟨"d", 1, .finite, .identity, "n", "m", none, none, none, none⟩
  parameters := []
  regime := "r"
  selectionPolicy := "s"
  exposureRecord := "e"
  priorSpecification := none
  exclusions := []
  cases := [("one", samplePlanned ['1', '.', '5']),
    ("two", samplePlanned ['1', '5', 'e', '-', '1'])]

/-- Texts as the writer gives them, and the digest of the one design. -/
def sampleEncoding : Encoding where
  numberText := Cache.CanonicalJson.numberText fun _ => "0.0"
  stringText := fun text => .ok (Cache.CanonicalJson.quoted text)
  sha256Hex := fun _ => "2a86b0659812a5105450abbbdcd71850aa922b98889d0b380417645cbed2f56b"
  debug := id

theorem sampleSpec_valid : sampleSpec.validate sampleEncoding = .ok () := by
  decide +kernel

theorem designs_never_leak_spellings :
    (∀ a ∈ sampleSpec.cases, ∀ b ∈ sampleSpec.cases, NumericallyEqual a.2.design b.2.design →
      a.2.partition = b.2.partition ∧ a.2.familyId = b.2.familyId) ∧
    ∀ a ∈ sampleSpec.cases, ∀ b ∈ sampleSpec.cases, a.2.familyId = b.2.familyId →
    a.2.partition = b.2.partition :=
  designs_never_leak sampleEncoding sampleSpec sampleSpec_valid

end Xcelerator.Core.Hypothesis
