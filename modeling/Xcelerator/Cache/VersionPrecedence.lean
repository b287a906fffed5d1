import Mathlib
import Xcelerator.Foundations.Machine
import Xcelerator.Foundations.AsciiDecimal

/-! # Toolkit versions

The version that a cache record names: its parser, its text, and the order that
compatibility windows are decided in. Strings are their UTF-8 bytes. -/

namespace Xcelerator.Cache.VersionPrecedence
open Xcelerator.Foundations.Machine Xcelerator.Foundations.AsciiDecimal

/-! ## The record -/

structure ToolkitVersion where
  major : UInt64
  minor : UInt64
  patch : UInt64
  prerelease : Option Bytes
  deriving DecidableEq, Repr

/-- The messages of `InvalidManifest`; the first two quote the text they refuse. -/
inductive CacheError where
  | invalidVersion (value : Bytes)
  | notMajorMinorPatch (value : Bytes)
  | invalidPrerelease
  deriving DecidableEq, Repr

def splitOnce (separator : UInt8) : Bytes → Option (Bytes × Bytes)
  | [] => none
  | byte :: text =>
    if byte = separator then some ([], text)
    else (splitOnce separator text).map fun parts => (byte :: parts.1, parts.2)

def isAlphanumeric (byte : UInt8) : Bool :=
  isDigit byte || (65 ≤ byte && byte ≤ 90) || (97 ≤ byte && byte ≤ 122)

/-- What `validate` refuses in one dot-separated part. -/
def badPart (part : Bytes) : Bool :=
  part.isEmpty || !part.all (fun byte => isAlphanumeric byte || byte == 45) ||
    (decide (1 < part.length) && part.head? == some 48 && part.all isDigit)

def ToolkitVersion.validate (version : ToolkitVersion) : Except CacheError Unit :=
  if version.prerelease.any fun label => (label.splitOn 46).any badPart then
    .error .invalidPrerelease
  else .ok ()

def parsePart (value part : Bytes) : Except CacheError UInt64 :=
  if part.isEmpty || !part.all isDigit || (decide (1 < part.length) && part.head? == some 48) then
    .error (.invalidVersion value)
  else if decimal part < 2 ^ 64 then .ok (UInt64.ofNat (decimal part))
  else .error (.invalidVersion value)

def splitPrerelease (value : Bytes) : Except CacheError (Bytes × Option Bytes) :=
  match splitOnce 45 value with
  | some (core, prerelease) =>
    if prerelease.isEmpty then .error (.invalidVersion value) else .ok (core, some prerelease)
  | none => .ok (value, none)

def ToolkitVersion.parse (value : Bytes) : Except CacheError ToolkitVersion := do
  let (core, prerelease) ← splitPrerelease value
  match core.splitOn 46 with
  | [major, minor, patch] =>
    let version : ToolkitVersion :=
      { major := ← parsePart value major, minor := ← parsePart value minor,
        patch := ← parsePart value patch, prerelease := prerelease }
    version.validate
    return version
  | _ => .error (.notMajorMinorPatch value)

/-- `major.minor.patch`. -/
def coreText (major minor patch : Bytes) : Bytes := [46].intercalate [major, minor, patch]

def prereleaseText : Option Bytes → Bytes
  | none => []
  | some prerelease => 45 :: prerelease

def ToolkitVersion.display (version : ToolkitVersion) : Bytes :=
  coreText (renderNat version.major.toNat) (renderNat version.minor.toNat)
    (renderNat version.patch.toNat) ++ prereleaseText version.prerelease

def identifierCmp (a b : Bytes) : Ordering :=
  match a.all isDigit, b.all isDigit with
  | true, true => (compare a.length b.length).then (textCmp a b)
  | true, false => .lt
  | false, true => .gt
  | false, false => textCmp a b

def labelsCmp : List Bytes → List Bytes → Ordering
  | [], [] => .eq
  | [], _ :: _ => .lt
  | _ :: _, [] => .gt
  | a :: left, b :: right => (identifierCmp a b).then (labelsCmp left right)

def prereleaseCmp : Option Bytes → Option Bytes → Ordering
  | none, none => .eq
  | none, some _ => .gt
  | some _, none => .lt
  | some left, some right => labelsCmp (left.splitOn 46) (right.splitOn 46)

def ToolkitVersion.cmp (version other : ToolkitVersion) : Ordering :=
  ((compare version.major other.major).then
    ((compare version.minor other.minor).then (compare version.patch other.patch))).then
      (prereleaseCmp version.prerelease other.prerelease)

/-! ## The order is total -/

instance : Std.OrientedCmp textCmp where
  eq_swap {a b} := by
    rcases lt_trichotomy (a.map UInt8.toNat) (b.map UInt8.toNat) with h | h | h
    · rw [textCmp_lt h, textCmp_gt h]
      rfl
    · rw [List.map_injective_iff.mpr toNat_injective h, textCmp_self]
      rfl
    · rw [textCmp_lt h, textCmp_gt h]
      rfl

theorem textCmp_isLE {s t : Bytes} : (textCmp s t).isLE = true ↔
    s.map UInt8.toNat ≤ t.map UInt8.toNat := by
  rcases lt_trichotomy (s.map UInt8.toNat) (t.map UInt8.toNat) with h | h | h
  · simp [textCmp_lt h, h.le]
  · rw [List.map_injective_iff.mpr toNat_injective h, textCmp_self]
    simp
  · simp [textCmp_gt h, h]

instance : Std.TransCmp textCmp where
  isLE_trans hab hbc := textCmp_isLE.mpr ((textCmp_isLE.mp hab).trans (textCmp_isLE.mp hbc))

instance : Std.LawfulEqCmp textCmp where
  compare_self := textCmp_self _
  eq_of_compare := textCmp_eq_iff.mp

/-- Numbers stand before text. -/
def kind (part : Bytes) : Nat := if part.all isDigit then 0 else 1

/-- Shorter numbers stand before longer ones. -/
def extent (part : Bytes) : Nat := if part.all isDigit then part.length else 0

theorem identifierCmp_eq :
    identifierCmp = compareLex (compareOn kind) (compareLex (compareOn extent) textCmp) := by
  funext a b
  unfold identifierCmp compareLex compareOn kind extent
  cases a.all isDigit <;> cases b.all isDigit <;> rfl

instance : Std.TransCmp identifierCmp := by
  rw [identifierCmp_eq]
  infer_instance

theorem identifierCmp_eq_iff {a b : Bytes} : identifierCmp a b = .eq ↔ a = b := by
  constructor
  · intro h
    rw [identifierCmp_eq, compareLex, compareLex, Ordering.then_eq_eq, Ordering.then_eq_eq] at h
    exact textCmp_eq_iff.mp h.2.2
  · rintro rfl
    exact Std.ReflCmp.compare_self

instance : Std.LawfulEqCmp identifierCmp where
  compare_self := identifierCmp_eq_iff.mpr rfl
  eq_of_compare := identifierCmp_eq_iff.mp

theorem labelsCmp_eq : labelsCmp = List.compareLex identifierCmp := by
  funext left right
  induction left generalizing right with
  | nil => cases right <;> rfl
  | cons a left ih =>
    cases right with
    | nil => rfl
    | cons b right => rw [labelsCmp, ih, List.compareLex_cons_cons]

instance : Std.TransCmp labelsCmp := by
  rw [labelsCmp_eq]
  infer_instance

instance : Std.LawfulEqCmp labelsCmp := by
  rw [labelsCmp_eq]
  infer_instance

instance : Std.OrientedCmp prereleaseCmp where
  eq_swap {a b} := by
    cases a with
    | none => cases b <;> rfl
    | some left =>
      cases b with
      | none => rfl
      | some right => exact @Std.OrientedCmp.eq_swap _ labelsCmp _ _ _

instance : Std.TransCmp prereleaseCmp where
  isLE_trans {a b c} hab hbc := by
    cases c with
    | none => cases a <;> rfl
    | some right =>
      cases b with
      | none => exact absurd hbc (by simp [prereleaseCmp])
      | some middle =>
        cases a with
        | none => exact absurd hab (by simp [prereleaseCmp])
        | some left => exact @Std.TransCmp.isLE_trans _ labelsCmp _ _ _ _ hab hbc

theorem prereleaseCmp_eq_iff {a b : Option Bytes} : prereleaseCmp a b = .eq ↔ a = b := by
  constructor
  · intro h
    cases a with
    | none =>
      cases b with
      | none => rfl
      | some right => cases h
    | some left =>
      cases b with
      | none => cases h
      | some right =>
        have hparts : left.splitOn 46 = right.splitOn 46 := Std.LawfulEqCmp.eq_of_compare h
        have hjoin := congrArg [46].intercalate hparts
        rw [List.intercalate_splitOn, List.intercalate_splitOn] at hjoin
        rw [hjoin]
  · rintro rfl
    exact Std.ReflCmp.compare_self

theorem cmp_eq : ToolkitVersion.cmp =
    compareLex
      (compareLex (compareOn ToolkitVersion.major)
        (compareLex (compareOn ToolkitVersion.minor) (compareOn ToolkitVersion.patch)))
      fun version other => prereleaseCmp version.prerelease other.prerelease := rfl

instance : Std.TransCmp fun version other :
    ToolkitVersion => prereleaseCmp version.prerelease other.prerelease where
  eq_swap {_ _} := @Std.OrientedCmp.eq_swap _ prereleaseCmp _ _ _
  isLE_trans {_ _ _} hab hbc := @Std.TransCmp.isLE_trans _ prereleaseCmp _ _ _ _ hab hbc

/-- Any three versions, validated or not. -/
theorem cmp_trans : Std.TransCmp ToolkitVersion.cmp := by
  rw [cmp_eq]
  infer_instance

theorem cmp_eq_iff {version other : ToolkitVersion} :
    version.cmp other = .eq ↔ version = other := by
  constructor
  · intro h
    unfold ToolkitVersion.cmp at h
    simp only [Ordering.then_eq_eq, Std.LawfulEqOrd.compare_eq_iff_eq, prereleaseCmp_eq_iff] at h
    obtain ⟨⟨hmajor, hminor, hpatch⟩, hprerelease⟩ := h
    cases version
    cases other
    simp_all
  · rintro rfl
    have := cmp_trans
    exact Std.ReflCmp.compare_self

/-! ## What the parser accepts -/

/-- A prerelease identifier; one of digits only has no leading zero. -/
structure Identifier (part : Bytes) : Prop where
  nonempty : part ≠ []
  characters : ∀ byte ∈ part, isAlphanumeric byte = true ∨ byte = 45
  numeric : part.all isDigit = true → 1 < part.length → part.head? ≠ some 48

/-- A numeric field: no leading zero, and it fits. -/
def Field (part : Bytes) : Prop := Numeric part ∧ decimal part < 2 ^ 64

def Release (text : Bytes) : Prop :=
  ∃ major minor patch, Field major ∧ Field minor ∧ Field patch ∧ text = coreText major minor patch

/-- `MAJOR.MINOR.PATCH[-PRERELEASE]`. -/
def Grammar (value : Bytes) : Prop :=
  Release value ∨ ∃ core labels, Release core ∧ labels ≠ [] ∧ (∀ part ∈ labels, Identifier part) ∧
    value = core ++ 45 :: [46].intercalate labels

theorem badPart_eq_false {part : Bytes} : badPart part = false ↔ Identifier part := by
  unfold badPart
  constructor
  · intro h
    simp only [Bool.or_eq_false_iff, Bool.and_eq_false_iff, Bool.not_eq_false', List.all_eq_true,
      Bool.or_eq_true, beq_iff_eq, beq_eq_false_iff_ne, decide_eq_false_iff_not] at h
    refine ⟨by simpa using h.1.1, h.1.2, fun hdigits hlength => ?_⟩
    rcases h.2 with (hshort | hhead) | hother
    · exact absurd hlength hshort
    · exact hhead
    · rw [hother] at hdigits
      cases hdigits
  · intro h
    have hempty : part.isEmpty = false := by simpa using h.nonempty
    have hall : part.all (fun byte => isAlphanumeric byte || byte == 45) = true := by
      simpa using h.characters
    rw [hempty, hall]
    by_cases hdigits : part.all isDigit = true
    · by_cases hlength : 1 < part.length
      · simp [h.numeric hdigits hlength]
      · simp [hlength]
    · rw [Bool.not_eq_true] at hdigits
      simp [hdigits]

/-- Every identifier of an accepted prerelease label is one of the grammar's. -/
theorem validate_ok {version : ToolkitVersion} : version.validate = .ok () ↔
    ∀ label, version.prerelease = some label → ∀ part ∈ label.splitOn 46, Identifier part := by
  unfold ToolkitVersion.validate
  cases version.prerelease with
  | none => simp
  | some label =>
    simp only [Option.any_some]
    constructor
    · intro h other hother part hpart
      cases hother
      by_contra hbad
      have hany : (label.splitOn 46).any badPart = true :=
        List.any_eq_true.mpr ⟨part, hpart, by
          rw [← Bool.not_eq_false]
          exact fun hgood => hbad (badPart_eq_false.mp hgood)⟩
      rw [if_pos hany] at h
      cases h
    · intro h
      have hnone : (label.splitOn 46).any badPart = false := by
        rw [List.any_eq_false]
        intro part hpart
        rw [Bool.not_eq_true]
        exact badPart_eq_false.mpr (h label rfl part hpart)
      simp [hnone]

theorem parsePart_ok {value part : Bytes} {number : UInt64} :
    parsePart value part = .ok number ↔ Numeric part ∧ decimal part = number.toNat := by
  unfold parsePart
  constructor
  · intro h
    split at h
    · cases h
    · rename_i hgood
      split at h
      · rename_i hfits
        simp only [Except.ok.injEq] at h
        simp only [Bool.or_eq_true, Bool.and_eq_true, Bool.not_eq_true', decide_eq_true_eq,
          beq_iff_eq, List.isEmpty_iff, not_or, not_and, Bool.not_eq_false] at hgood
        refine ⟨⟨hgood.1.1, hgood.1.2, hgood.2⟩, ?_⟩
        rw [← h, UInt64.toNat_ofNat_of_lt' hfits]
      · cases h
  · rintro ⟨hnumeric, hvalue⟩
    have hgood : (part.isEmpty || !part.all isDigit ||
        (decide (1 < part.length) && part.head? == some 48)) = false := by
      simp only [Bool.or_eq_false_iff, Bool.and_eq_false_iff, decide_eq_false_iff_not,
        beq_eq_false_iff_ne, hnumeric.digits]
      refine ⟨⟨by simpa using hnumeric.nonempty, rfl⟩, ?_⟩
      by_cases hlength : 1 < part.length
      · exact .inr (hnumeric.leading hlength)
      · exact .inl hlength
    have hfits : decimal part < 2 ^ 64 := by
      rw [hvalue]
      exact number.toNat_lt
    rw [hgood, if_neg Bool.false_ne_true, if_pos hfits, hvalue, UInt64.ofNat_toNat]

theorem splitOnce_some {separator : UInt8} {text left right : Bytes}
    (h : splitOnce separator text = some (left, right)) :
    text = left ++ separator :: right := by
  induction text generalizing left with
  | nil => cases h
  | cons byte text ih =>
    rw [splitOnce] at h
    split at h
    · rename_i heq
      cases h
      rw [heq, List.nil_append]
    · obtain ⟨parts, hparts, hcons⟩ := Option.map_eq_some_iff.mp h
      cases hcons
      rw [ih hparts, List.cons_append]

theorem splitOnce_append {separator : UInt8} {left : Bytes} (h : separator ∉ left) (right : Bytes) :
    splitOnce separator (left ++ separator :: right) = some (left, right) := by
  induction left with
  | nil => rw [List.nil_append, splitOnce, if_pos rfl]
  | cons byte left ih =>
    rw [List.mem_cons, not_or] at h
    rw [List.cons_append, splitOnce, if_neg (Ne.symm h.1), ih h.2]
    rfl

theorem splitOnce_none {separator : UInt8} {text : Bytes} (h : separator ∉ text) :
    splitOnce separator text = none := by
  induction text with
  | nil => rfl
  | cons byte text ih =>
    rw [List.mem_cons, not_or] at h
    rw [splitOnce, if_neg (Ne.symm h.1), ih h.2]
    rfl

theorem numeric_not_mem {part : Bytes} (h : Numeric part) {byte : UInt8}
    (hbyte : isDigit byte = false) : byte ∉ part := by
  intro hmem
  have := List.all_eq_true.mp h.digits byte hmem
  rw [hbyte] at this
  cases this

theorem coreText_split {major minor patch : Bytes} (hmajor : Numeric major) (hminor : Numeric minor)
    (hpatch : Numeric patch) : (coreText major minor patch).splitOn 46 = [major, minor, patch] ∧
      45 ∉ coreText major minor patch := by
  constructor
  · refine List.splitOn_intercalate 46 ?_ (by simp)
    intro part hpart
    simp only [List.mem_cons, List.not_mem_nil, or_false] at hpart
    rcases hpart with rfl | rfl | rfl
    · exact numeric_not_mem hmajor rfl
    · exact numeric_not_mem hminor rfl
    · exact numeric_not_mem hpatch rfl
  · have h1 : (45 : UInt8) ∉ major := numeric_not_mem hmajor rfl
    have h2 : (45 : UInt8) ∉ minor := numeric_not_mem hminor rfl
    have h3 : (45 : UInt8) ∉ patch := numeric_not_mem hpatch rfl
    simp [coreText, List.intercalate, List.intersperse, h1, h2, h3]

theorem splitPrerelease_ok {value core : Bytes} {prerelease : Option Bytes}
    (h : splitPrerelease value = .ok (core, prerelease)) :
    value = core ++ prereleaseText prerelease := by
  unfold splitPrerelease at h
  split at h
  · rename_i left right hsplit
    split at h
    · cases h
    · cases h
      exact splitOnce_some hsplit
  · cases h
    rw [prereleaseText, List.append_nil]

/-- The parser inverts `display` on validated versions, and nothing else is accepted. -/
theorem parse_ok {value : Bytes} {version : ToolkitVersion} :
    ToolkitVersion.parse value = .ok version ↔ version.display = value ∧
    version.validate = .ok () := by
  constructor
  · intro h
    unfold ToolkitVersion.parse at h
    obtain ⟨⟨core, prerelease⟩, hsplit, h⟩ := bind_eq_ok h
    dsimp only at h
    split at h
    · rename_i major minor patch hparts
      obtain ⟨x, hx, h⟩ := bind_eq_ok h
      obtain ⟨y, hy, h⟩ := bind_eq_ok h
      obtain ⟨z, hz, h⟩ := bind_eq_ok h
      obtain ⟨_, hvalid, h⟩ := bind_eq_ok h
      cases h
      refine ⟨?_, hvalid⟩
      have hcore : core = coreText major minor patch := by
        rw [coreText, ← hparts, List.intercalate_splitOn]
      obtain ⟨hmajor, hx⟩ := parsePart_ok.mp hx
      obtain ⟨hminor, hy⟩ := parsePart_ok.mp hy
      obtain ⟨hpatch, hz⟩ := parsePart_ok.mp hz
      rw [ToolkitVersion.display, ← hx, ← hy, ← hz, renderNat_decimal hmajor,
        renderNat_decimal hminor, renderNat_decimal hpatch, ← hcore, splitPrerelease_ok hsplit]
    · cases h
  · rintro ⟨rfl, hvalid⟩
    obtain ⟨hmajor, hx⟩ := numeric_renderNat version.major.toNat
    obtain ⟨hminor, hy⟩ := numeric_renderNat version.minor.toNat
    obtain ⟨hpatch, hz⟩ := numeric_renderNat version.patch.toNat
    obtain ⟨hparts, hhyphen⟩ := coreText_split hmajor hminor hpatch
    have hsplit : splitPrerelease version.display =
        .ok (coreText (renderNat version.major.toNat) (renderNat version.minor.toNat)
          (renderNat version.patch.toNat), version.prerelease) := by
      unfold splitPrerelease ToolkitVersion.display
      cases hlabel : version.prerelease with
      | none => rw [prereleaseText, List.append_nil, splitOnce_none hhyphen]
      | some label =>
        have hne : label.isEmpty = false := by
          cases label with
          | nil => exact absurd rfl ((validate_ok.mp hvalid [] hlabel [] (by simp)).nonempty)
          | cons byte label => rfl
        rw [prereleaseText, splitOnce_append hhyphen]
        simp [hne]
    unfold ToolkitVersion.parse
    rw [hsplit, ok_bind]
    simp only [hparts]
    rw [parsePart_ok.mpr ⟨hmajor, hx⟩, ok_bind, parsePart_ok.mpr ⟨hminor, hy⟩, ok_bind,
      parsePart_ok.mpr ⟨hpatch, hz⟩, ok_bind, hvalid]
    rfl

/-- The grammar is what the validated versions display. -/
theorem grammar_iff {value : Bytes} :
    Grammar value ↔ ∃ version : ToolkitVersion, version.display = value ∧
    version.validate = .ok () := by
  have hfield : ∀ number : UInt64, Field (renderNat number.toNat) := fun number =>
    ⟨(numeric_renderNat _).1, by rw [(numeric_renderNat _).2]; exact number.toNat_lt⟩
  have hrender : ∀ {part : Bytes}, Field part →
      renderNat (UInt64.ofNat (decimal part)).toNat = part :=
    fun h => by rw [UInt64.toNat_ofNat_of_lt' h.2, renderNat_decimal h.1]
  constructor
  · intro h
    rcases h with ⟨major, minor, patch, hmajor, hminor, hpatch, rfl⟩ |
      ⟨core, labels, ⟨major, minor, patch, hmajor, hminor, hpatch, rfl⟩, hne, hlabels, rfl⟩
    · refine ⟨⟨.ofNat (decimal major), .ofNat (decimal minor), .ofNat (decimal patch), none⟩, ?_,
        rfl⟩
      rw [ToolkitVersion.display, hrender hmajor, hrender hminor, hrender hpatch, prereleaseText,
        List.append_nil]
    · refine ⟨⟨.ofNat (decimal major), .ofNat (decimal minor), .ofNat (decimal patch),
        some ([46].intercalate labels)⟩, ?_, validate_ok.mpr fun label hlabel => ?_⟩
      · rw [ToolkitVersion.display, hrender hmajor, hrender hminor, hrender hpatch, prereleaseText]
      · cases hlabel
        have hdots : ∀ part ∈ labels, (46 : UInt8) ∉ part := by
          intro part hpart hmem
          rcases (hlabels part hpart).characters 46 hmem with h | h
          · exact absurd h (by decide)
          · exact absurd h (by decide)
        rw [List.splitOn_intercalate 46 hdots hne]
        exact hlabels
  · rintro ⟨version, rfl, hvalid⟩
    have hrelease : Release (coreText (renderNat version.major.toNat)
      (renderNat version.minor.toNat)
        (renderNat version.patch.toNat)) := ⟨_, _, _, hfield _, hfield _, hfield _, rfl⟩
    unfold ToolkitVersion.display
    cases hlabel : version.prerelease with
    | none =>
      left
      simpa [prereleaseText] using hrelease
    | some label =>
      right
      refine ⟨_, label.splitOn 46, hrelease, by simp, validate_ok.mp hvalid label hlabel, ?_⟩
      rw [List.intercalate_splitOn, prereleaseText]

/-! ## Precedence -/

/-- An identifier by what it means. -/
inductive Label where
  | number (value : Nat)
  | text (characters : List Nat)

def Label.Lt : Label → Label → Prop
  | .number m, .number n => m < n
  | .number _, .text _ => True
  | .text _, .number _ => False
  | .text s, .text t => s < t

def labelOf (part : Bytes) : Label :=
  if part.all isDigit then .number (decimal part) else .text (part.map UInt8.toNat)

/-- A release stands after its prereleases; labels compare from the left, a
proper beginning first. -/
def PrereleasePrecedes : Option Bytes → Option Bytes → Prop
  | some left, some right =>
    List.Lex Label.Lt ((left.splitOn 46).map labelOf) ((right.splitOn 46).map labelOf)
  | some _, none => True
  | none, _ => False

def coreOf (version : ToolkitVersion) : Nat ×ₗ Nat ×ₗ Nat :=
  toLex (version.major.toNat, toLex (version.minor.toNat, version.patch.toNat))

/-- Semantic versioning's precedence. -/
def Precedes (version other : ToolkitVersion) : Prop :=
  coreOf version < coreOf other ∨
    coreOf version = coreOf other ∧ PrereleasePrecedes version.prerelease other.prerelease

theorem Identifier.toNumeric {part : Bytes} (h : Identifier part)
    (hdigits : part.all isDigit = true) : Numeric part :=
  ⟨h.nonempty, hdigits, h.numeric hdigits⟩

theorem labelOf_injective {a b : Bytes} (ha : Identifier a) (hb : Identifier b)
    (h : labelOf a = labelOf b) : a = b := by
  unfold labelOf at h
  split at h
  · rename_i hdigits
    split at h
    · rename_i hother
      exact decimal_injective (ha.toNumeric hdigits) (hb.toNumeric hother) (by simpa using h)
    · cases h
  · split at h
    · cases h
    · exact List.map_injective_iff.mpr toNat_injective (by simpa using h)

theorem textCmp_lt_iff {s t : Bytes} :
    textCmp s t = .lt ↔ s.map UInt8.toNat < t.map UInt8.toNat := by
  constructor
  · intro h
    rcases lt_trichotomy (s.map UInt8.toNat) (t.map UInt8.toNat) with hlt | heq | hgt
    · exact hlt
    · rw [textCmp_eq_iff.mpr (List.map_injective_iff.mpr toNat_injective heq)] at h
      cases h
    · rw [textCmp_gt hgt] at h
      cases h
  · exact textCmp_lt

theorem identifierCmp_lt_iff {a b : Bytes} (ha : Identifier a) (hb : Identifier b) :
    identifierCmp a b = .lt ↔ (labelOf a).Lt (labelOf b) := by
  unfold identifierCmp labelOf
  cases hx : a.all isDigit with
  | true =>
    cases hy : b.all isDigit with
    | true =>
      simp only [if_true, Label.Lt]
      rw [← cmp_eq_compare, numeric_cmp (ha.toNumeric hx) (hb.toNumeric hy), cmp_eq_lt_iff]
    | false => simp [Label.Lt]
  | false =>
    cases hy : b.all isDigit with
    | true => simp [Label.Lt]
    | false =>
      simp only [Bool.false_eq_true, if_false, Label.Lt]
      exact textCmp_lt_iff

theorem labelsCmp_lt_iff {left right : List Bytes} (hleft : ∀ part ∈ left, Identifier part)
    (hright : ∀ part ∈ right, Identifier part) :
    labelsCmp left right = .lt ↔ List.Lex Label.Lt (left.map labelOf) (right.map labelOf) := by
  induction left generalizing right with
  | nil =>
    cases right with
    | nil => simp [labelsCmp]
    | cons b right => simp [labelsCmp]
  | cons a left ih =>
    cases right with
    | nil => simp [labelsCmp]
    | cons b right =>
      have ha := hleft a List.mem_cons_self
      have hb := hright b List.mem_cons_self
      have hrest := @ih right (fun part h => hleft part (List.mem_cons_of_mem _ h))
        fun part h => hright part (List.mem_cons_of_mem _ h)
      rw [labelsCmp, List.map_cons, List.map_cons, List.cons_lex_cons_iff, Ordering.then_eq_lt,
        identifierCmp_lt_iff ha hb, identifierCmp_eq_iff, hrest]
      constructor
      · rintro (hlt | ⟨rfl, hlt⟩)
        · exact .inl hlt
        · exact .inr ⟨rfl, hlt⟩
      · rintro (hlt | ⟨heq, hlt⟩)
        · exact .inl hlt
        · exact .inr ⟨labelOf_injective ha hb heq, hlt⟩

theorem uint64_compare_lt {m n : UInt64} : compare m n = .lt ↔ m.toNat < n.toNat := by
  rw [← UInt64.lt_iff_toNat_lt]
  exact Std.compare_eq_lt

theorem cmp_lt_iff {version other : ToolkitVersion} (hversion : version.validate = .ok ())
    (hother : other.validate = .ok ()) : version.cmp other = .lt ↔ Precedes version other := by
  have hprerelease : prereleaseCmp version.prerelease other.prerelease = .lt ↔
      PrereleasePrecedes version.prerelease other.prerelease := by
    cases hleft : version.prerelease with
    | none => cases other.prerelease <;> simp [prereleaseCmp, PrereleasePrecedes]
    | some left =>
      cases hright : other.prerelease with
      | none => simp [prereleaseCmp, PrereleasePrecedes]
      | some right =>
        exact labelsCmp_lt_iff (validate_ok.mp hversion left hleft)
          (validate_ok.mp hother right hright)
  unfold ToolkitVersion.cmp Precedes coreOf
  rw [Ordering.then_eq_lt, Ordering.then_eq_eq, Ordering.then_eq_lt, Ordering.then_eq_lt,
    Ordering.then_eq_eq,
    hprerelease, uint64_compare_lt, uint64_compare_lt, uint64_compare_lt, Prod.Lex.toLex_lt_toLex,
    Prod.Lex.toLex_lt_toLex]
  simp only [Std.LawfulEqOrd.compare_eq_iff_eq, ← UInt64.toNat_inj, toLex_inj, Prod.mk.injEq]

/-- **Versions.** The parser accepts the grammar and inverts `display` on validated versions; the
order is total and is semantic versioning's precedence on validated versions. -/
theorem toolkitVersion_semver :
    (∀ value, (∃ version, ToolkitVersion.parse value = .ok version) ↔ Grammar value) ∧
    (∀ value version, ToolkitVersion.parse value = .ok version →
      version.display = value ∧ version.validate = .ok ()) ∧
    (∀ version : ToolkitVersion, version.validate = .ok () →
      ToolkitVersion.parse version.display = .ok version) ∧
    (Std.TransCmp ToolkitVersion.cmp ∧ ∀ version other : ToolkitVersion, version.cmp other = .eq ↔
      version = other) ∧
    ∀ version other : ToolkitVersion, version.validate = .ok () → other.validate = .ok () →
      (version.cmp other = .lt ↔ Precedes version other) ∧
      (version.cmp other = .gt ↔ Precedes other version) := by
  refine ⟨fun value => ?_, fun _ _ h => parse_ok.mp h, fun _ h => parse_ok.mpr ⟨rfl, h⟩,
    ⟨cmp_trans, fun _ _ => cmp_eq_iff⟩, fun version other hversion hother =>
      ⟨cmp_lt_iff hversion hother, ?_⟩⟩
  · rw [grammar_iff]
    exact exists_congr fun version => parse_ok
  · have := cmp_trans
    rw [← cmp_lt_iff hother hversion]
    exact Std.OrientedCmp.gt_iff_lt

/-- `1.0.0-b.2` precedes `1.0.0-b.11`. -/
theorem toolkitVersion_semver_numbers :
    Precedes ⟨1, 0, 0, some [98, 46, 50]⟩ ⟨1, 0, 0, some [98, 46, 49, 49]⟩ :=
  (toolkitVersion_semver.2.2.2.2 ⟨1, 0, 0, some [98, 46, 50]⟩ ⟨1, 0, 0, some [98, 46, 49, 49]⟩
    (by decide) (by decide)).1.mp (by decide)

end Xcelerator.Cache.VersionPrecedence
