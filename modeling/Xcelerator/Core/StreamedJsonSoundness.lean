import Mathlib
import Xcelerator.Cache.CanonicalJsonInjective
import Xcelerator.Core.StreamedJson
import Xcelerator.Foundations.Machine

/-! # The streamed text is the text of the tree

The writer agrees with the route through the tree on every value of the data model whose
objects have distinct keys: an accepted value has one text, and a secret found in the tree
is the first one that the writer meets. -/

namespace Xcelerator.Core.StreamedJson
open Foundations.Machine
open Xcelerator.Cache.CanonicalJson
open Xcelerator.Core.ConfigResolution
  (Value Number Fields Encoding ConfigResolutionError canonicalJson canonicalValues
  canonicalFields insertField)
open Xcelerator.Core.Hypothesis (researchDigest serializationError)

/-! ## The conversion to a tree -/

/-- A field of an object and its tree. -/
def fieldTree (m : Serde) (field : String × Data) : Run (String × Value) := do
  let tree ← m.toValue field.2
  return (field.1, tree)

def entryTree (m : Serde) (entry : Data × Data) : Run (String × Value) := do
  let key ← m.keyText entry.1
  let tree ← m.toValue entry.2
  return (key, tree)

/-- An object keeps its keys sorted and the last value of a key. -/
def collected (fields : Fields) : Value :=
  .object (fields.foldl (fun object field => insertField object field.1 field.2) [])

/-- What `serde_json` documents of the conversion, of numbers and of strings. -/
structure Serde.Documented (m : Serde) : Prop where
  bool : ∀ value, m.toValue (.bool value) = .ok (.bool value)
  signed : ∀ value, m.toValue (.signed value) = .ok (.number (numberOf value))
  unsigned : ∀ value, m.toValue (.unsigned value) = .ok (.number (.posInt value))
  i128 : ∀ value, m.toValue (.i128 value) = (wideNumber value).map .number
  u128 : ∀ value, m.toValue (.u128 value) = (wideNumber value).map .number
  f32 : ∀ bits, m.toValue (.f32 bits) =
    if isFinite32 bits then .ok (.number (.float (m.widen bits))) else .error nonfinite
  f64 : ∀ bits, m.toValue (.f64 bits) = if isFinite64 bits then .ok (.number (.float bits)) else
    .error nonfinite
  char : ∀ value, m.toValue (.char value) = .ok (.string (String.singleton value))
  str : ∀ value, m.toValue (.str value) = .ok (.string value)
  bytes : ∀ value, m.toValue (.bytes value) =
    .ok (.array (value.map fun byte => .number (.posInt byte.toNat)))
  none : m.toValue .none = .ok .null
  some : ∀ value, m.toValue (.some value) = m.toValue value
  unit : m.toValue .unit = .ok .null
  unitStruct : m.toValue .unitStruct = .ok .null
  unitVariant : ∀ variant, m.toValue (.unitVariant variant) = .ok (.string variant)
  newtypeStruct : ∀ value, m.toValue (.newtypeStruct value) = m.toValue value
  newtypeVariant : ∀ variant value, m.toValue (.newtypeVariant variant value) =
    (m.toValue value).map fun tree => .object [(variant, tree)]
  seq : ∀ elements, m.toValue (.seq elements) = (elements.mapM m.toValue).map .array
  tuple : ∀ elements, m.toValue (.tuple elements) = (elements.mapM m.toValue).map .array
  tupleStruct : ∀ fields, m.toValue (.tupleStruct fields) = (fields.mapM m.toValue).map .array
  tupleVariant : ∀ variant fields, m.toValue (.tupleVariant variant fields) =
    (fields.mapM m.toValue).map fun trees => .object [(variant, .array trees)]
  map : ∀ entries, m.toValue (.map entries) = (entries.mapM (entryTree m)).map collected
  struct : ∀ fields, m.toValue (.struct fields) = (fields.mapM (fieldTree m)).map collected
  structVariant : ∀ variant fields, m.toValue (.structVariant variant fields) =
    (fields.mapM (fieldTree m)).map fun trees => .object [(variant, collected trees)]
  widen : ∀ bits, isFinite64 (m.widen bits) = isFinite32 bits
  integer : ∀ n, m.encoding.numberText (.posInt n) = toString n
  string : ∀ text, ∃ quoted, m.encoding.stringText text = .ok quoted

/-! ## Agreement -/

section
variable {m : Serde} {sink : CanonicalSink}

/-- The writer's result is the outcome of the screen and the text of the tree. -/
def Matches (m : Serde) (context path : String) (tree : Value) (result : Run String) : Prop :=
  (∃ message, inspectValue context path tree = .error message ∧ result = .error message) ∨
    inspectValue context path tree = .ok () ∧ ∃ text, canonicalJson m.encoding tree = .ok text ∧
    result = .ok text

/-- Both routes refuse, or the writer matches the tree. -/
structure Agrees (m : Serde) (context path : String) (tree : Run Value) (result : Run String) :
    Prop where
  converted : ∀ {text}, result = .ok text → ∃ value, tree = .ok value
  matched : ∀ {value}, tree = .ok value → Matches m context path value result

/-- The writer agrees with the tree at every path. -/
def Streams (m : Serde) (sink : CanonicalSink) (value : Data) : Prop :=
  ∀ path, Agrees m sink.context path (m.toValue value) (writeCanonical m sink path value)

theorem map_ok {α β : Type} {x : Run α} {f : α → β} {b : β} (h : x.map f = .ok b) :
    ∃ a, x = .ok a ∧ f a = b := by
  cases x with
  | error message => cases h
  | ok a =>
    cases h
    exact ⟨a, rfl, rfl⟩

theorem Agrees.refused {context path message : String} {result : Run String}
    (h : ∀ text, result ≠ .ok text) :
    Agrees m context path (.error message) result where
  converted hresult := absurd hresult (h _)
  matched h := by cases h

theorem Agrees.of_ok {context path : String} {value : Value} {result : Run String}
    (h : Matches m context path value result) : Agrees m context path (.ok value) result where
  converted _ := ⟨value, rfl⟩
  matched h' := by
    cases h'
    exact h

/-- A leaf that the screen does not look at. -/
theorem Matches.leaf {context path text : String} {value : Value}
    (hinspect : inspectValue context path value = .ok ())
    (htext : canonicalJson m.encoding value = .ok text) : Matches m context path value (.ok text) :=
  .inr ⟨hinspect, text, htext, rfl⟩

theorem jsonString_ok (hm : m.Documented) (text : String) :
    ∃ quoted, jsonString m text = .ok quoted :=
  hm.string text

theorem writeStr_matches (hm : m.Documented) {path text : String} :
    Matches m sink.context path (.string text) (writeStr m sink path text) := by
  obtain ⟨quoted, hquoted⟩ := hm.string text
  unfold writeStr
  cases hmarker : (secretMarker text).isSome with
  | true =>
    refine .inl ⟨_, ?_, if_pos rfl⟩
    rw [inspectValue, if_pos hmarker]
  | false =>
    refine .inr ⟨?_, quoted, ?_, ?_⟩
    · rw [inspectValue, if_neg (by rw [hmarker]; decide)]
    · rw [canonicalJson, hquoted]
      rfl
    · exact hquoted

/-! ### Fields -/

/-- The texts of the fields from the first one on. -/
def separated : Bool → List String → String
  | _, [] => ""
  | first, text :: rest => (if first then "" else ",") ++ text ++ separated false rest

theorem separated_eq (texts : List String) : separated true texts = ",".intercalate texts := by
  rw [← commaSeparated_eq]
  cases texts with
  | nil => rfl
  | cons text rest =>
    have hrest : ∀ (text : String) (rest : List String),
        text ++ separated false rest = commaSeparated (text :: rest) := by
      intro text rest
      induction rest generalizing text with
      | nil => simp [separated, commaSeparated]
      | cons next rest ih =>
        rw [separated, commaSeparated, ← ih next]
        · simp [String.append_assoc]
        · simp
    rw [separated, ← hrest]
    simp

def FieldsMatch (m : Serde) (context path : String) (first : Bool) (trees : Fields)
    (result : Run String) : Prop :=
  (∃ message, inspectFields context path trees = .error message ∧ result = .error message) ∨
    inspectFields context path trees = .ok () ∧
      ∃ texts, canonicalFields m.encoding trees = .ok texts ∧ result = .ok (separated first texts)

theorem FieldsMatch.nil {context path : String} {first : Bool} :
    FieldsMatch m context path first [] (.ok "") :=
  .inr ⟨rfl, [], rfl, by cases first <;> rfl⟩

/-- One field: its key, its text and the rest. -/
def fieldText (m : Serde) (sink : CanonicalSink) (path key : String) (first : Bool)
    (value rest : Run String) :
    Run String := do
  checkKey sink key path
  let name ← jsonString m key
  let text ← value
  let more ← rest
  return (if first then "" else ",") ++ (name ++ ":" ++ text) ++ more

theorem fieldText_ok {path key : String} {first : Bool} {value rest : Run String} {text : String}
    (h : fieldText m sink path key first value rest = .ok text) :
    (∃ t, value = .ok t) ∧ ∃ t, rest = .ok t := by
  obtain ⟨_, -, h⟩ := bind_eq_ok h
  obtain ⟨_, -, h⟩ := bind_eq_ok h
  obtain ⟨t, hvalue, h⟩ := bind_eq_ok h
  obtain ⟨t', hrest, -⟩ := bind_eq_ok h
  exact ⟨⟨t, hvalue⟩, ⟨t', hrest⟩⟩

theorem FieldsMatch.cons (hm : m.Documented) {path key : String} {first : Bool} {tree : Value}
    {trees : Fields}
    {value rest : Run String} (hvalue : Matches m sink.context (path ++ "." ++ key) tree value)
    (hrest : FieldsMatch m sink.context path false trees rest) :
    FieldsMatch m sink.context path first ((key, tree) :: trees)
    (fieldText m sink path key first value rest) := by
  obtain ⟨name, hname⟩ := jsonString_ok hm key
  unfold FieldsMatch fieldText checkKey
  rw [inspectFields]
  cases hkey : sensitiveKey key with
  | true => exact .inl ⟨_, if_pos rfl, by rw [if_pos rfl]; rfl⟩
  | false =>
    rw [if_neg (by decide), if_neg (by decide), ok_bind, hname, ok_bind]
    rcases hvalue with ⟨message, hinspect, rfl⟩ | ⟨hinspect, text, htext, rfl⟩
    · exact .inl ⟨message, by rw [hinspect]; rfl, rfl⟩
    · rw [hinspect, ok_bind, ok_bind]
      rcases hrest with ⟨message, hinspects, rfl⟩ | ⟨hinspects, texts, htexts, rfl⟩
      · exact .inl ⟨message, hinspects, rfl⟩
      · refine .inr ⟨hinspects, (name ++ ":" ++ text) :: texts, ?_, rfl⟩
        have hquoted : m.encoding.stringText key = .ok name := hname
        rw [canonicalFields, hquoted, htext, htexts]
        rfl

/-- The braces around the fields. -/
theorem FieldsMatch.object {path : String} {trees : Fields} {result : Run String}
    (h : FieldsMatch m sink.context path true trees result) :
    Matches m sink.context path (.object trees) (do
      let text ← result
      return "\x7b" ++ text ++ "\x7d") := by
  unfold Matches
  rw [inspectValue, canonicalJson]
  rcases h with ⟨message, hinspect, rfl⟩ | ⟨hinspect, texts, htexts, rfl⟩
  · exact .inl ⟨message, hinspect, rfl⟩
  · refine .inr ⟨hinspect, _, by rw [htexts]; rfl, ?_⟩
    rw [separated_eq]
    rfl

/-! ### Elements -/

/-- The texts of the elements from an index on, with the brackets. -/
def bracketed : Nat → List String → String
  | index, [] => if index = 0 then "[]" else "]"
  | index, text :: rest => (if index = 0 then "[" else ",") ++ text ++ bracketed (index + 1) rest

theorem bracketed_eq (texts : List String) :
    bracketed 0 texts = "[" ++ ",".intercalate texts ++ "]" := by
  have hrest : ∀ (index : Nat) (rest : List String), bracketed (index + 1) rest =
      separated false rest ++ "]" := by
    intro index rest
    induction rest generalizing index with
    | nil => rfl
    | cons text rest ih =>
      rw [bracketed, separated, ih]
      simp [String.append_assoc]
  rw [← separated_eq]
  cases texts with
  | nil => rfl
  | cons text rest =>
    rw [bracketed, hrest, separated]
    simp [String.append_assoc]

def ElementsMatch (m : Serde) (context path : String) (index : Nat) (trees : List Value)
    (result : Run String) : Prop :=
  (∃ message, inspectItems context path index trees = .error message ∧ result = .error message) ∨
    inspectItems context path index trees = .ok () ∧
      ∃ texts, canonicalValues m.encoding trees = .ok texts ∧ result = .ok (bracketed index texts)

theorem ElementsMatch.array {context path : String} {trees : List Value} {result : Run String}
    (h : ElementsMatch m context path 0 trees result) :
    Matches m context path (.array trees) result := by
  unfold Matches
  rw [inspectValue, canonicalJson]
  rcases h with ⟨message, hinspect, rfl⟩ | ⟨hinspect, texts, htexts, rfl⟩
  · exact .inl ⟨message, hinspect, rfl⟩
  · exact .inr ⟨hinspect, _, by rw [htexts]; rfl, by rw [bracketed_eq]⟩

theorem writeElements_agrees {path : String} {elements : List Data} {index : Nat}
    (h : ∀ value ∈ elements, Streams m sink value) :
    (∀ {text}, writeElements m sink path index elements = .ok text →
      ∃ trees, elements.mapM m.toValue = .ok trees) ∧
      ∀ {trees}, elements.mapM m.toValue = .ok trees →
        ElementsMatch m sink.context path index trees
          (writeElements m sink path index elements) := by
  induction elements generalizing index with
  | nil =>
    refine ⟨fun _ => ⟨[], rfl⟩, ?_⟩
    intro trees htrees
    cases htrees
    exact .inr ⟨rfl, [], rfl, by rw [writeElements]; rfl⟩
  | cons value rest ih =>
    obtain ⟨hconverted, hmatched⟩ :=
      @ih (index + 1) fun value hvalue => h value (List.mem_cons_of_mem _ hvalue)
    have hvalue := h value List.mem_cons_self (path ++ "[" ++ toString index ++ "]")
    rw [writeElements, List.mapM_cons]
    constructor
    · intro text htext
      obtain ⟨t, ht, htext⟩ := bind_eq_ok htext
      obtain ⟨more, hmore, -⟩ := bind_eq_ok htext
      obtain ⟨tree, htree⟩ := hvalue.converted ht
      obtain ⟨trees, htrees⟩ := hconverted hmore
      exact ⟨tree :: trees, by rw [htree, htrees]; rfl⟩
    · intro trees htrees
      obtain ⟨tree, htree, htrees⟩ := bind_eq_ok htrees
      obtain ⟨more, hmore, htrees⟩ := bind_eq_ok htrees
      cases htrees
      unfold ElementsMatch
      rw [inspectItems]
      rcases hvalue.matched htree with ⟨message, hinspect, hresult⟩
        | ⟨hinspect, text, htext, hresult⟩
      · rw [hresult, hinspect]
        exact .inl ⟨message, rfl, rfl⟩
      · rw [hresult, hinspect, ok_bind, ok_bind]
        rcases hmatched hmore with ⟨message, hinspects, hresults⟩
          | ⟨hinspects, texts, htexts, hresults⟩
        · rw [hresults]
          exact .inl ⟨message, hinspects, rfl⟩
        · rw [hresults]
          exact .inr ⟨hinspects, text :: texts, by rw [canonicalValues, htext, htexts]; rfl, rfl⟩

/-! ### Objects -/

theorem insertField_sorted {fields : Fields} (h : (fields.map (·.1)).Pairwise (· < ·))
    (key : String) (value : Value) :
    ((insertField fields key value).map (·.1)).Pairwise (· < ·) ∧
      ∀ k ∈ (insertField fields key value).map (·.1), k = key ∨ k ∈ fields.map (·.1) := by
  induction fields with
  | nil => exact ⟨List.pairwise_singleton _ _, fun k hk => by simpa [insertField] using hk⟩
  | cons field rest ih =>
    obtain ⟨k, v⟩ := field
    obtain ⟨hhead, hrest⟩ := List.pairwise_cons.mp h
    obtain ⟨hsorted, hmem⟩ := ih hrest
    rw [insertField]
    split
    · rename_i hlt
      refine ⟨List.pairwise_cons.mpr ⟨?_, h⟩, fun k' hk' => by simpa using hk'⟩
      intro k' hk'
      rcases List.mem_cons.mp hk' with rfl | hk'
      · exact hlt
      · exact hlt.trans (hhead k' hk')
    · split
      · rename_i heq
        subst heq
        exact ⟨List.pairwise_cons.mpr ⟨hhead, hrest⟩, fun k' hk' => .inr hk'⟩
      · rename_i hle hne
        refine ⟨List.pairwise_cons.mpr ⟨?_, hsorted⟩, ?_⟩
        · intro k' hk'
          rcases hmem k' hk' with rfl | hk'
          · exact lt_of_le_of_ne (not_lt.mp hle) (Ne.symm hne)
          · exact hhead k' hk'
        · intro k' hk'
          rcases List.mem_cons.mp hk' with rfl | hk'
          · exact .inr List.mem_cons_self
          · exact (hmem k' hk').imp_right (List.mem_cons_of_mem _)

theorem insertField_perm {fields : Fields} {key : String} (value : Value)
    (h : key ∉ fields.map (·.1)) :
    (insertField fields key value).Perm ((key, value) :: fields) := by
  induction fields with
  | nil => exact .refl _
  | cons field rest ih =>
    obtain ⟨k, v⟩ := field
    rw [List.map_cons, List.mem_cons, not_or] at h
    rw [insertField]
    split
    · exact .refl _
    · rw [if_neg h.1]
      exact ((ih h.2).cons _).trans (.swap _ _ _)

/-- Distinct keys are collected in their order. -/
theorem collected_perm {fields object : Fields} (hnodup : ((object ++ fields).map (·.1)).Nodup)
    (hsorted : (object.map (·.1)).Pairwise (· < ·)) :
    ((fields.foldl (fun object field => insertField object field.1 field.2) object).map
      (·.1)).Pairwise (· < ·) ∧
      (fields.foldl (fun object field => insertField object field.1 field.2) object).Perm
        (object ++ fields) := by
  induction fields generalizing object with
  | nil => exact ⟨hsorted, by simp⟩
  | cons field rest ih =>
    obtain ⟨key, value⟩ := field
    have hnew : key ∉ object.map (·.1) := by
      intro hmem
      rw [List.map_append, List.nodup_append] at hnodup
      exact hnodup.2.2 key hmem key (by simp) rfl
    have hperm := insertField_perm value hnew
    have hmove : (insertField object key value ++ rest).Perm (object ++ (key, value) :: rest) :=
      (hperm.append_right rest).trans List.perm_middle.symm
    obtain ⟨hcollected, hall⟩ :=
      ih ((hmove.map (·.1)).nodup_iff.mpr hnodup) (insertField_sorted hsorted key value).1
    exact ⟨hcollected, hall.trans hmove⟩

theorem ascending_iff {keys : List String} : ascending keys = true ↔ keys.Pairwise (· < ·) := by
  rw [← List.isChain_iff_pairwise]
  induction keys with
  | nil => simp [ascending]
  | cons first rest ih =>
    cases rest with
    | nil => simp [ascending]
    | cons second rest =>
      rw [ascending, Bool.and_eq_true, decide_eq_true_eq, ih, List.isChain_cons_cons]

theorem repeatedKey_none {keys : List String} (h : keys.Nodup) : repeatedKey keys = none := by
  induction keys with
  | nil => rfl
  | cons first rest ih =>
    cases rest with
    | nil => rfl
    | cons second rest =>
      rw [repeatedKey, if_neg, ih h.of_cons]
      rintro rfl
      simp at h

/-- The keys of the collected object are the sorted keys. -/
theorem insertionSort_keys {fields object : Fields} (hsorted : (object.map (·.1)).Pairwise (· < ·))
    (hperm : object.Perm fields) : (fields.map (·.1)).insertionSort (· ≤ ·) = object.map (·.1) := by
  refine (((fields.map (·.1)).perm_insertionSort (· ≤ ·)).trans
    (hperm.map (·.1)).symm).eq_of_pairwise'
    (List.pairwise_insertionSort (· ≤ ·) _) (hsorted.imp le_of_lt)

/-- With a target, a pass writes the one field of that key. -/
theorem writeFields_target {keys : List String} {path key : String} {value : Data}
    {fields : List (String × Data)}
    {index : Nat} {found : Bool} (hnodup : (fields.map (·.1)).Nodup)
    (hlength : index + fields.length = keys.length)
    (hfound : found = true → key ∉ fields.map (·.1))
    (hmem : found = false → (key, value) ∈ fields) :
    writeFields m sink (some key) keys path index found fields =
      if found then .ok "" else writeCanonical m sink path value := by
  induction fields generalizing index found with
  | nil =>
    cases found with
    | false => simp at hmem
    | true =>
      have hdone : index = keys.length := by simpa using hlength
      rw [writeFields]
      simp [hdone]
  | cons field rest ih =>
    obtain ⟨k, v⟩ := field
    rw [List.map_cons, List.nodup_cons] at hnodup
    have hnext : index + 1 + rest.length = keys.length := by
      rw [List.length_cons] at hlength
      omega
    rw [writeFields]
    by_cases hk : k = key
    · subst hk
      cases found with
      | true => exact absurd List.mem_cons_self (hfound rfl)
      | false =>
        have hvalue : value = v := by
          rcases List.mem_cons.mp (hmem rfl) with h | h
          · exact (Prod.mk.inj h).2
          · exact absurd (List.mem_map_of_mem h) hnodup.1
        have hrest := @ih (index + 1) true hnodup.2 hnext (fun _ => hnodup.1) (fun h => by cases h)
        rw [if_pos rfl, if_neg (by decide), hrest, hvalue, if_pos rfl, if_neg (by decide)]
        cases writeCanonical m sink path v with
        | error message => rfl
        | ok text =>
          show Except.ok (text ++ "") = _
          rw [String.append_empty]
    · rw [if_neg hk]
      refine ih hnodup.2 hnext ?_ ?_
      · intro h hin
        exact hfound h (List.mem_cons_of_mem _ hin)
      · intro h
        rcases List.mem_cons.mp (hmem h) with h | h
        · exact absurd (Prod.mk.inj h).1.symm hk
        · exact h

/-- Without one, it writes every field. -/
theorem writeFields_all {keys before : List String} {path : String} {fields : List (String × Data)}
    {found : Bool} (hm : m.Documented) (hkeys : keys = before ++ fields.map (·.1))
    (h : ∀ field ∈ fields, Streams m sink field.2) :
    (∀ {text}, writeFields m sink none keys path before.length found fields = .ok text →
      ∃ trees, fields.mapM (fieldTree m) = .ok trees) ∧
    ∀ {trees}, fields.mapM (fieldTree m) = .ok trees →
      FieldsMatch m sink.context path (decide (before.length = 0)) trees
        (writeFields m sink none keys path before.length found fields) := by
  induction fields generalizing before with
  | nil =>
    have hdone : before.length = keys.length := by simp [hkeys]
    have hwrite : writeFields m sink none keys path before.length found [] = .ok "" := by
      rw [writeFields]
      simp [hdone]
    refine ⟨fun _ => ⟨[], rfl⟩, ?_⟩
    intro trees htrees
    cases htrees
    rw [hwrite]
    exact .nil
  | cons field rest ih =>
    obtain ⟨key, value⟩ := field
    have hnext := @ih (before ++ [key]) (by simpa using hkeys) fun field hfield =>
      h field (List.mem_cons_of_mem _ hfield)
    rw [List.length_append, List.length_singleton] at hnext
    obtain ⟨hconverted, hmatched⟩ := hnext
    have hvalue := h (key, value) List.mem_cons_self (path ++ "." ++ key)
    have hkey : keys[before.length]? = some key := by simp [hkeys]
    have hwrite : writeFields m sink none keys path before.length found ((key, value) :: rest) =
        fieldText m sink path key (decide (before.length = 0))
          (writeCanonical m sink (path ++ "." ++ key) value)
          (writeFields m sink none keys path (before.length + 1) found rest) := by
      rw [writeFields]
      rw [if_neg (by rw [hkey]; simp)]
      simp [fieldText]
    rw [hwrite, List.mapM_cons]
    constructor
    · intro text htext
      obtain ⟨⟨t, ht⟩, more, hmore⟩ := fieldText_ok htext
      obtain ⟨tree, htree⟩ := hvalue.converted ht
      obtain ⟨trees, htrees⟩ := hconverted hmore
      exact ⟨(key, tree) :: trees, by rw [fieldTree, htree, htrees]; rfl⟩
    · intro trees htrees
      obtain ⟨pair, hpair, htrees⟩ := bind_eq_ok htrees
      obtain ⟨more, hmore, htrees⟩ := bind_eq_ok htrees
      obtain ⟨tree, htree, hpair⟩ := bind_eq_ok hpair
      cases htrees
      cases hpair
      have hrest := hmatched hmore
      rw [decide_eq_false (by omega)] at hrest
      exact .cons hm (hvalue.matched htree) hrest

/-- The loop over the keys, where each field matches its tree. -/
theorem writeKeys_matches (hm : m.Documented) (homit : sink.omitted = []) {path : String}
    {field : Option String → String → Run String} {first : Bool} {trees : Fields}
    (h : ∀ tree ∈ trees,
      Matches m sink.context (path ++ "." ++ tree.1) tree.2
        (field (some tree.1) (path ++ "." ++ tree.1))) :
    FieldsMatch m sink.context path first trees
      (writeKeys m sink path field first (trees.map (·.1))) := by
  induction trees generalizing first with
  | nil =>
    rw [List.map_nil, writeKeys]
    exact .nil
  | cons tree rest ih =>
    obtain ⟨key, tree⟩ := tree
    have hwrite : writeKeys m sink path field first (key :: rest.map (·.1)) =
        fieldText m sink path key first (field (some key) (path ++ "." ++ key))
          (writeKeys m sink path field false (rest.map (·.1))) := by
      rw [writeKeys, if_neg (by simp [homit])]
      rfl
    rw [List.map_cons, hwrite]
    exact .cons hm (h (key, tree) List.mem_cons_self) (ih fun tree htree =>
      h tree (List.mem_cons_of_mem _ htree))

theorem writeKeys_ok (homit : sink.omitted = []) {path text : String}
    {field : Option String → String → Run String}
    {first : Bool} {keys : List String} (h : writeKeys m sink path field first keys = .ok text) :
    ∀ key ∈ keys, ∃ text, field (some key) (path ++ "." ++ key) = .ok text := by
  induction keys generalizing first text with
  | nil => simp
  | cons key rest ih =>
    have hwrite : writeKeys m sink path field first (key :: rest) =
        fieldText m sink path key first (field (some key) (path ++ "." ++ key))
          (writeKeys m sink path field false rest) := by
      rw [writeKeys, if_neg (by simp [homit])]
      rfl
    obtain ⟨hfirst, more, hmore⟩ := fieldText_ok (hwrite ▸ h)
    intro k hk
    rcases List.mem_cons.mp hk with rfl | hk
    · exact hfirst
    · exact ih hmore k hk

/-- The tree of every field, in the order of the fields. -/
theorem fieldTrees_forall₂ {fields : List (String × Data)} {trees : Fields}
    (h : fields.mapM (fieldTree m) = .ok trees) :
    List.Forall₂ (fun field tree => tree.1 = field.1 ∧ m.toValue field.2 = .ok tree.2) fields
      trees := by
  induction fields generalizing trees with
  | nil =>
    cases h
    exact .nil
  | cons field rest ih =>
    rw [List.mapM_cons] at h
    obtain ⟨pair, hpair, h⟩ := bind_eq_ok h
    obtain ⟨more, hmore, h⟩ := bind_eq_ok h
    obtain ⟨tree, htree, hpair⟩ := bind_eq_ok hpair
    cases h
    cases hpair
    exact .cons ⟨rfl, htree⟩ (ih hmore)

theorem fieldTrees_ok {fields : List (String × Data)}
    (h : ∀ field ∈ fields, ∃ tree, m.toValue field.2 = .ok tree) :
    ∃ trees, fields.mapM (fieldTree m) = .ok trees := by
  have hall : ∀ field ∈ fields, ∃ tree, fieldTree m field = .ok tree ∧ True := by
    intro field hfield
    obtain ⟨tree, htree⟩ := h field hfield
    exact ⟨(field.1, tree), by rw [fieldTree, htree]; rfl, trivial⟩
  obtain ⟨trees, htrees, -⟩ := mapM_forall₂ hall
  exact ⟨trees, htrees⟩

/-- The collected trees of fields with distinct keys, in the order of the keys. -/
theorem collected_fields {fields : List (String × Data)} (hnodup : (fields.map (·.1)).Nodup)
    {trees : Fields}
    (htrees : fields.mapM (fieldTree m) = .ok trees) : trees.map (·.1) = fields.map (·.1) ∧
      ∃ object, collected trees = .object object ∧ (object.map (·.1)).Pairwise (· < ·) ∧
      object.Perm trees := by
  have hkeys : trees.map (·.1) = fields.map (·.1) := by
    have hpairs := fieldTrees_forall₂ htrees
    clear hnodup htrees
    induction hpairs with
    | nil => rfl
    | cons hpair _ ih => rw [List.map_cons, List.map_cons, hpair.1, ih]
  have hnodup' : ((([] : Fields) ++ trees).map (·.1)).Nodup := by
    rw [List.nil_append, hkeys]
    exact hnodup
  obtain ⟨hsorted, hperm⟩ := collected_perm hnodup' .nil
  exact ⟨hkeys, _, rfl, hsorted, hperm⟩

theorem exists_field {fields : List (String × Data)} {trees : Fields}
    (htrees : fields.mapM (fieldTree m) = .ok trees)
    {tree : String × Value} (htree : tree ∈ trees) :
    ∃ field ∈ fields, tree.1 = field.1 ∧ m.toValue field.2 = .ok tree.2 := by
  obtain ⟨i, hi, rfl⟩ := List.getElem_of_mem htree
  have hpairs := fieldTrees_forall₂ htrees
  have hi' : i < fields.length := by rw [hpairs.length_eq]; exact hi
  exact ⟨fields[i], List.getElem_mem hi', hpairs.get hi' hi⟩

/-- Keys that already ascend are written in one pass. -/
theorem writeFields_agrees (hm : m.Documented) {path : String} {fields : List (String × Data)}
    (hascending : (fields.map (·.1)).Pairwise (· < ·))
    (h : ∀ field ∈ fields, Streams m sink field.2) :
    Agrees m sink.context path ((fields.mapM (fieldTree m)).map collected) (do
      let text ← writeFields m sink none (fields.map (·.1)) path 0 false fields
      return "\x7b" ++ text ++ "\x7d") := by
  obtain ⟨hconverted, hmatched⟩ :=
    @writeFields_all m sink (fields.map (·.1)) [] path fields false hm rfl h
  constructor
  · intro text htext
    obtain ⟨t, ht, -⟩ := bind_eq_ok htext
    obtain ⟨trees, htrees⟩ := hconverted ht
    exact ⟨collected trees, by rw [htrees]; rfl⟩
  · intro value hvalue
    obtain ⟨trees, htrees, rfl⟩ := map_ok hvalue
    obtain ⟨hkeys, object, hobject, hsorted, hperm⟩ :=
      collected_fields (hascending.imp ne_of_lt) htrees
    have heq : object = trees := by
      have htrees : (trees.map (·.1)).Pairwise (· < ·) := by
        rw [hkeys]
        exact hascending
      exact hperm.eq_of_pairwise (fun a b _ _ hab hba => absurd hab (lt_asymm hba))
        (List.pairwise_map.mp hsorted)
        (List.pairwise_map.mp htrees)
    rw [hobject, heq]
    exact (hmatched htrees).object

/-- Otherwise one pass for each key, in the order of the keys. -/
theorem writeKeys_agrees (hm : m.Documented) (homit : sink.omitted = []) {path : String}
    {fields : List (String × Data)} (hnodup : (fields.map (·.1)).Nodup)
    (h : ∀ field ∈ fields, Streams m sink field.2) :
    Agrees m sink.context path ((fields.mapM (fieldTree m)).map collected) (do
      let text ← writeKeys m sink path (fun target path =>
        writeFields m sink target (fields.map (·.1)) path 0 false fields) true
        ((fields.map (·.1)).insertionSort (· ≤ ·))
      return "\x7b" ++ text ++ "\x7d") := by
  have htarget : ∀ {field}, field ∈ fields → ∀ path,
      writeFields m sink (some field.1) (fields.map (·.1)) path 0 false fields =
          writeCanonical m sink path field.2 := by
    intro field hfield path
    have hlength : 0 + fields.length = (fields.map (·.1)).length :=
      by rw [List.length_map, Nat.zero_add]
    exact writeFields_target hnodup hlength (fun h => by cases h) (fun _ => hfield)
  constructor
  · intro text htext
    obtain ⟨t, ht, -⟩ := bind_eq_ok htext
    obtain ⟨trees, htrees⟩ : ∃ trees, fields.mapM (fieldTree m) = .ok trees := by
      apply fieldTrees_ok
      intro field hfield
      obtain ⟨t, ht⟩ := writeKeys_ok homit ht field.1
        ((List.perm_insertionSort _ _).mem_iff.mpr (List.mem_map_of_mem hfield))
      rw [htarget hfield] at ht
      exact (h field hfield _).converted ht
    exact ⟨collected trees, by rw [htrees]; rfl⟩
  · intro value hvalue
    obtain ⟨trees, htrees, rfl⟩ := map_ok hvalue
    obtain ⟨hkeys, object, hobject, hsorted, hperm⟩ := collected_fields hnodup htrees
    rw [hobject, ← hkeys, insertionSort_keys hsorted hperm]
    refine FieldsMatch.object (writeKeys_matches hm homit ?_)
    intro tree htree
    obtain ⟨field, hfield, hkey, hvalue⟩ := exists_field htrees (hperm.mem_iff.mp htree)
    rw [hkeys, hkey, htarget hfield]
    exact (h field hfield _).matched hvalue

/-- The writer of an object agrees with its tree, in either of its ways. -/
theorem writeObject_agrees (hm : m.Documented) (homit : sink.omitted = []) {path : String}
    {fields : List (String × Data)} (hnodup : (fields.map (·.1)).Nodup)
    (h : ∀ field ∈ fields, Streams m sink field.2) :
    Agrees m sink.context path ((fields.mapM (fieldTree m)).map collected)
      (writeObject m sink (fields.map (·.1)) path fun target path =>
        writeFields m sink target (fields.map (·.1)) path 0 false fields) := by
  unfold writeObject omitting
  rw [homit]
  simp only [List.isEmpty_nil, Bool.not_true, Bool.and_false, Bool.not_false, Bool.true_and]
  split
  · rename_i hascending
    exact writeFields_agrees hm (ascending_iff.mp hascending) h
  · rw [repeatedKey_none ((List.perm_insertionSort _ _).nodup_iff.mpr hnodup)]
    exact writeKeys_agrees hm homit hnodup h

/-! ### Maps and variants -/

theorem mapKeyText_eq (hm : m.Documented) (key : Data) : mapKeyText m key = m.keyText key := by
  unfold mapKeyText
  rw [hm.map, List.mapM_cons, List.mapM_nil, entryTree]
  cases m.keyText key with
  | error message => rfl
  | ok text =>
    rw [hm.unit]
    rfl

/-- The pass over a map is the pass over its entries under the texts of their keys. -/
theorem writeEntries_eq (hm : m.Documented) {entries : List (Data × Data)} {texts : List String}
    (h : (entries.mapM fun entry => m.keyText entry.1) = .ok texts) (target : Option String)
    (keys : List String) (path : String) (index : Nat) (found : Bool) :
    writeEntries m sink target keys path index found entries =
      writeFields m sink target keys path index found (texts.zip (entries.map (·.2))) := by
  induction entries generalizing texts index found with
  | nil =>
    cases h
    show writeEntries m sink target keys path index found [] =
      writeFields m sink target keys path index found []
    rw [writeEntries, writeFields]
  | cons entry rest ih =>
    obtain ⟨key, value⟩ := entry
    rw [List.mapM_cons] at h
    obtain ⟨text, htext, h⟩ := bind_eq_ok h
    obtain ⟨more, hmore, h⟩ := bind_eq_ok h
    cases h
    have hrest := ih hmore
    rw [writeEntries, mapKeyText_eq hm, htext, ok_bind, List.map_cons, List.zip_cons_cons]
    cases target with
    | none =>
      rw [writeFields]
      simp only [hrest]
    | some wanted =>
      rw [writeFields]
      simp only [hrest]

theorem entryTrees_eq {entries : List (Data × Data)} {texts : List String}
    (h : (entries.mapM fun entry => m.keyText entry.1) = .ok texts) :
    entries.mapM (entryTree m) = (texts.zip (entries.map (·.2))).mapM (fieldTree m) := by
  induction entries generalizing texts with
  | nil =>
    cases h
    rfl
  | cons entry rest ih =>
    rw [List.mapM_cons] at h
    obtain ⟨text, htext, h⟩ := bind_eq_ok h
    obtain ⟨more, hmore, h⟩ := bind_eq_ok h
    cases h
    rw [List.mapM_cons, ih hmore, List.map_cons, List.zip_cons_cons, List.mapM_cons,
      entryTree, htext]
    rfl

theorem keyTexts_length {entries : List (Data × Data)} {texts : List String}
    (h : (entries.mapM fun entry => m.keyText entry.1) = .ok texts) :
    texts.length = entries.length ∧ entries.filterMap (fun entry => (m.keyText entry.1).toOption) =
      texts := by
  induction entries generalizing texts with
  | nil =>
    cases h
    exact ⟨rfl, rfl⟩
  | cons entry rest ih =>
    rw [List.mapM_cons] at h
    obtain ⟨text, htext, h⟩ := bind_eq_ok h
    obtain ⟨more, hmore, h⟩ := bind_eq_ok h
    cases h
    obtain ⟨hlength, htexts⟩ := ih hmore
    refine ⟨by rw [List.length_cons, List.length_cons, hlength], ?_⟩
    rw [List.filterMap_cons, htext, htexts]
    rfl

theorem writeVariant_agrees (hm : m.Documented) (homit : sink.omitted = []) {variant path : String}
    {tree : Run Value} {inner : String → Run String}
    (h : ∀ path, Agrees m sink.context path tree (inner path)) :
    Agrees m sink.context path (tree.map fun tree => .object [(variant, tree)])
      (writeVariant m sink variant path inner) := by
  have hwrite : writeVariant m sink variant path inner = (do
      let text ← fieldText m sink path variant true (inner (path ++ "." ++ variant)) (.ok "")
      return "\x7b" ++ text ++ "\x7d") := by
    unfold writeVariant omitting fieldText
    rw [homit]
    cases checkKey sink variant path with
    | error message => simp
    | ok done =>
      cases jsonString m variant with
      | error message => simp
      | ok name =>
        cases inner (path ++ "." ++ variant) with
        | error message => simp
        | ok text => simp [String.append_assoc]
  have hinner := h (path ++ "." ++ variant)
  rw [hwrite]
  constructor
  · intro text htext
    obtain ⟨t, ht, -⟩ := bind_eq_ok htext
    obtain ⟨⟨t', ht'⟩, -⟩ := fieldText_ok ht
    obtain ⟨value, hvalue⟩ := hinner.converted ht'
    exact ⟨_, by rw [hvalue]; rfl⟩
  · intro value hvalue
    cases tree with
    | error message => cases hvalue
    | ok tree =>
      cases hvalue
      exact (FieldsMatch.cons hm (hinner.matched rfl) .nil).object

theorem writeElements_array {path : String} {elements : List Data}
    (h : ∀ value ∈ elements, Streams m sink value) :
    Agrees m sink.context path ((elements.mapM m.toValue).map .array)
    (writeElements m sink path 0 elements) := by
  obtain ⟨hconverted, hmatched⟩ := @writeElements_agrees m sink path elements 0 h
  constructor
  · intro text htext
    obtain ⟨trees, htrees⟩ := hconverted htext
    exact ⟨.array trees, by rw [htrees]; rfl⟩
  · intro value hvalue
    obtain ⟨trees, htrees, rfl⟩ := map_ok hvalue
    exact (hmatched htrees).array

theorem writeMap_agrees (hm : m.Documented) (homit : sink.omitted = []) {path : String}
    {entries : List (Data × Data)}
    (hnodup : (entries.filterMap fun entry => (m.keyText entry.1).toOption).Nodup)
    (h : ∀ entry ∈ entries, Streams m sink entry.2) :
    Agrees m sink.context path (m.toValue (.map entries))
    (writeCanonical m sink path (.map entries)) := by
  have hkeys : (entries.mapM fun entry => mapKeyText m entry.1) = entries.mapM fun entry =>
    m.keyText entry.1 := by
    simp only [mapKeyText_eq hm]
  rw [hm.map, writeCanonical, hkeys]
  cases htexts : entries.mapM fun entry => m.keyText entry.1 with
  | error message =>
    have htree : ∀ trees, entries.mapM (entryTree m) ≠ .ok trees := by
      intro trees htrees
      have hall : ∃ texts, (entries.mapM fun entry => m.keyText entry.1) = .ok texts := by
        clear hnodup h hkeys htexts
        induction entries generalizing trees with
        | nil => exact ⟨[], rfl⟩
        | cons entry rest ih =>
          rw [List.mapM_cons] at htrees
          obtain ⟨pair, hpair, htrees⟩ := bind_eq_ok htrees
          obtain ⟨more, hmore, -⟩ := bind_eq_ok htrees
          obtain ⟨text, htext, -⟩ := bind_eq_ok hpair
          obtain ⟨texts, htexts⟩ := ih more hmore
          exact ⟨text :: texts, by rw [List.mapM_cons, htext, htexts]; rfl⟩
      obtain ⟨texts, hall⟩ := hall
      rw [htexts] at hall
      cases hall
    cases htrees : entries.mapM (entryTree m) with
    | error message => exact .refused fun text htext => by cases htext
    | ok trees => exact absurd htrees (htree trees)
  | ok texts =>
    obtain ⟨hlength, hfilter⟩ := keyTexts_length htexts
    have hzip : (texts.zip (entries.map (·.2))).map (·.1) = texts :=
      List.map_fst_zip (by simp [hlength])
    have hfields : ∀ field ∈ texts.zip (entries.map (·.2)), Streams m sink field.2 := by
      intro field hfield path
      obtain ⟨entry, hentry, hvalue⟩ := List.mem_map.mp (List.of_mem_zip hfield).2
      rw [← hvalue]
      exact h entry hentry path
    have hagrees := @writeObject_agrees m sink hm homit path _
      (by rw [hzip, ← hfilter]; exact hnodup) hfields
    rw [hzip] at hagrees
    rw [entryTrees_eq htexts, ok_bind]
    simpa only [writeEntries_eq hm htexts] using hagrees

end

/-! ## The writer and the tree -/

-- Distinct keys in every object of a value; the keys of a map are compared by their texts.
mutual
def DistinctKeys (m : Serde) : Data → Prop
  | .some value => DistinctKeys m value
  | .newtypeStruct value => DistinctKeys m value
  | .newtypeVariant _ value => DistinctKeys m value
  | .seq elements => DistinctElements m elements
  | .tuple elements => DistinctElements m elements
  | .tupleStruct fields => DistinctElements m fields
  | .tupleVariant _ fields => DistinctElements m fields
  | .map entries => (entries.filterMap fun entry => (m.keyText entry.1).toOption).Nodup ∧
      DistinctEntries m entries
  | .struct fields => (fields.map (·.1)).Nodup ∧ DistinctFields m fields
  | .structVariant _ fields => (fields.map (·.1)).Nodup ∧ DistinctFields m fields
  | _ => True

def DistinctElements (m : Serde) : List Data → Prop
  | [] => True
  | value :: rest => DistinctKeys m value ∧ DistinctElements m rest

def DistinctEntries (m : Serde) : List (Data × Data) → Prop
  | [] => True
  | (_, value) :: rest => DistinctKeys m value ∧ DistinctEntries m rest

def DistinctFields (m : Serde) : List (String × Data) → Prop
  | [] => True
  | (_, value) :: rest => DistinctKeys m value ∧ DistinctFields m rest
end

section
variable {m : Serde} {sink : CanonicalSink}

theorem floatText_agrees {path : String} {tree : Run Value} {bits : UInt64} {finite : Bool}
    (hfinite : isFinite64 bits = finite)
    (htree : tree = if finite then .ok (.number (.float bits)) else .error nonfinite) :
    Agrees m sink.context path tree (floatText m bits) := by
  unfold floatText
  rw [htree, hfinite]
  cases finite with
  | false => exact .refused fun text htext => by cases htext
  | true => exact .of_ok (.leaf rfl rfl)

theorem wideNumber_agrees {path : String} {tree : Run Value} {value : Int}
    (htree : tree = (wideNumber value).map .number) :
    Agrees m sink.context path tree ((wideNumber value).map m.encoding.numberText) := by
  rw [htree]
  cases wideNumber value with
  | error message => exact .refused fun text htext => by cases htext
  | ok number => exact .of_ok (.leaf rfl rfl)

theorem bytes_agrees (hm : m.Documented) {path : String} {value : List UInt8} :
    Matches m sink.context path (.array (value.map fun byte => .number (.posInt byte.toNat)))
      (.ok ("[" ++ ",".intercalate (value.map fun byte => toString byte.toNat) ++ "]")) := by
  have hitems : ∀ (index : Nat) (bytes : List UInt8), inspectItems sink.context path index
      (bytes.map fun byte => .number (.posInt byte.toNat)) = .ok () := by
    intro index bytes
    induction bytes generalizing index with
    | nil => rfl
    | cons byte rest ih =>
      have hbyte : ∀ path, inspectValue sink.context path (.number (.posInt byte.toNat)) = .ok () :=
        fun _ => rfl
      rw [List.map_cons, inspectItems, hbyte, ok_bind, ih]
  have htexts : ∀ bytes : List UInt8, canonicalValues m.encoding (bytes.map fun byte =>
    .number (.posInt byte.toNat)) =
      .ok (bytes.map fun byte => toString byte.toNat) := by
    intro bytes
    induction bytes with
    | nil => rfl
    | cons byte rest ih =>
      rw [List.map_cons, canonicalValues, canonicalJson, ih, hm.integer]
      rfl
  refine .leaf ?_ ?_
  · rw [inspectValue, hitems]
  · rw [canonicalJson, htexts]
    rfl

mutual
theorem writeCanonical_agrees (hm : m.Documented) (homit : sink.omitted = []) :
    ∀ {value : Data}, DistinctKeys m value → Streams m sink value
  | .bool _, _, _ => by
    rw [hm.bool, writeCanonical]
    exact .of_ok (.leaf rfl rfl)
  | .signed _, _, _ => by
    rw [hm.signed, writeCanonical]
    exact .of_ok (.leaf rfl rfl)
  | .unsigned _, _, _ => by
    rw [hm.unsigned, writeCanonical]
    exact .of_ok (.leaf rfl rfl)
  | .i128 value, _, _ => by
    rw [writeCanonical]
    exact wideNumber_agrees (hm.i128 value)
  | .u128 value, _, _ => by
    rw [writeCanonical]
    exact wideNumber_agrees (hm.u128 value)
  | .f32 bits, _, _ => by
    rw [writeCanonical]
    exact floatText_agrees (hm.widen bits) (hm.f32 bits)
  | .f64 bits, _, _ => by
    rw [writeCanonical]
    exact floatText_agrees rfl (hm.f64 bits)
  | .char _, _, _ => by
    rw [hm.char, writeCanonical]
    exact .of_ok (writeStr_matches hm)
  | .str _, _, _ => by
    rw [hm.str, writeCanonical]
    exact .of_ok (writeStr_matches hm)
  | .bytes _, _, _ => by
    rw [hm.bytes, writeCanonical]
    exact .of_ok (bytes_agrees hm)
  | .none, _, _ => by
    rw [hm.none, writeCanonical]
    exact .of_ok (.leaf rfl rfl)
  | .some _, h, path => by
    rw [hm.some, writeCanonical]
    rw [DistinctKeys] at h
    exact writeCanonical_agrees hm homit h path
  | .unit, _, _ => by
    rw [hm.unit, writeCanonical]
    exact .of_ok (.leaf rfl rfl)
  | .unitStruct, _, _ => by
    rw [hm.unitStruct, writeCanonical]
    exact .of_ok (.leaf rfl rfl)
  | .unitVariant _, _, _ => by
    rw [hm.unitVariant, writeCanonical]
    exact .of_ok (writeStr_matches hm)
  | .newtypeStruct _, h, path => by
    rw [hm.newtypeStruct, writeCanonical]
    rw [DistinctKeys] at h
    exact writeCanonical_agrees hm homit h path
  | .newtypeVariant _ _, h, _ => by
    rw [hm.newtypeVariant, writeCanonical]
    rw [DistinctKeys] at h
    exact writeVariant_agrees hm homit fun path => writeCanonical_agrees hm homit h path
  | .seq _, h, _ => by
    rw [hm.seq, writeCanonical]
    rw [DistinctKeys] at h
    exact writeElements_array (elements_agree hm homit h)
  | .tuple _, h, _ => by
    rw [hm.tuple, writeCanonical]
    rw [DistinctKeys] at h
    exact writeElements_array (elements_agree hm homit h)
  | .tupleStruct _, h, _ => by
    rw [hm.tupleStruct, writeCanonical]
    rw [DistinctKeys] at h
    exact writeElements_array (elements_agree hm homit h)
  | .tupleVariant variant fields, h, path => by
    rw [writeCanonical]
    rw [DistinctKeys] at h
    have hagrees := @writeVariant_agrees m sink hm homit variant path _ _ fun path =>
      @writeElements_array m sink path _ (elements_agree hm homit h)
    rw [hm.tupleVariant]
    cases htrees : fields.mapM m.toValue with
    | error message =>
      rw [htrees] at hagrees
      exact hagrees
    | ok trees =>
      rw [htrees] at hagrees
      exact hagrees
  | .map _, h, _ => by
    rw [DistinctKeys] at h
    exact writeMap_agrees hm homit h.1 (entries_agree hm homit h.2)
  | .struct _, h, _ => by
    rw [hm.struct, writeCanonical]
    rw [DistinctKeys] at h
    exact writeObject_agrees hm homit h.1 (fields_agree hm homit h.2)
  | .structVariant variant fields, h, path => by
    rw [writeCanonical]
    rw [DistinctKeys] at h
    have hagrees := @writeVariant_agrees m sink hm homit variant path _ _ fun path =>
      @writeObject_agrees m sink hm homit path _ h.1 (fields_agree hm homit h.2)
    rw [hm.structVariant]
    cases htrees : fields.mapM (fieldTree m) with
    | error message =>
      rw [htrees] at hagrees
      exact hagrees
    | ok trees =>
      rw [htrees] at hagrees
      exact hagrees

theorem elements_agree (hm : m.Documented) (homit : sink.omitted = []) :
    ∀ {elements : List Data}, DistinctElements m elements → ∀ value ∈ elements, Streams m sink value
  | [], _, _, hvalue, _ => absurd hvalue List.not_mem_nil
  | first :: rest, h, value, hvalue, path => by
    rw [DistinctElements] at h
    rcases List.mem_cons.mp hvalue with heq | hvalue
    · rw [heq]
      exact writeCanonical_agrees hm homit h.1 path
    · exact elements_agree hm homit h.2 value hvalue path

theorem entries_agree (hm : m.Documented) (homit : sink.omitted = []) :
    ∀ {entries : List (Data × Data)}, DistinctEntries m entries →
      ∀ entry ∈ entries, Streams m sink entry.2
  | [], _, _, hentry, _ => absurd hentry List.not_mem_nil
  | (key, first) :: rest, h, entry, hentry, path => by
    rw [DistinctEntries] at h
    rcases List.mem_cons.mp hentry with heq | hentry
    · rw [heq]
      exact writeCanonical_agrees hm homit h.1 path
    · exact entries_agree hm homit h.2 entry hentry path

theorem fields_agree (hm : m.Documented) (homit : sink.omitted = []) :
    ∀ {fields : List (String × Data)}, DistinctFields m fields →
      ∀ field ∈ fields, Streams m sink field.2
  | [], _, _, hfield, _ => absurd hfield List.not_mem_nil
  | (key, first) :: rest, h, field, hfield, path => by
    rw [DistinctFields] at h
    rcases List.mem_cons.mp hfield with heq | hfield
    · rw [heq]
      exact writeCanonical_agrees hm homit h.1 path
    · exact fields_agree hm homit h.2 field hfield path
end

end

/-- **The streamed text is the canonical text of the tree.** One route accepts where the other does,
with the same text and the same digest; where the tree has a secret, the writer reports that one, at
its path. -/
theorem writeCanonical_eq_tree (m : Serde) (hm : m.Documented) (value : Data)
    (hkeys : DistinctKeys m value) :
    (∀ context text, writeCanonical m ⟨context, []⟩ "$" value = .ok text ↔
      treeText m context value = .ok text) ∧
    (∀ context, (∃ message, writeCanonical m ⟨context, []⟩ "$" value = .error message) ↔
      ∃ message, treeText m context value = .error message) ∧
    (∀ context tree message, m.toValue value = .ok tree →
      (writeCanonical m ⟨context, []⟩ "$" value = .error message ↔
        validateSecretFree tree context = .error message)) ∧
    ∀ digest, researchDigestStreamed m value = .ok digest ↔
    researchDigestTree m value = .ok digest := by
  have hagrees : ∀ context, Agrees m context "$" (m.toValue value)
      (writeCanonical m ⟨context, []⟩ "$" value) :=
    fun context => @writeCanonical_agrees m ⟨context, []⟩ hm rfl value hkeys "$"
  cases htree : m.toValue value with
  | error message =>
    have hrefused : ∀ context, ∃ message, writeCanonical m ⟨context, []⟩ "$" value =
        .error message := by
      intro context
      cases hresult : writeCanonical m ⟨context, []⟩ "$" value with
      | error message => exact ⟨message, rfl⟩
      | ok text =>
        obtain ⟨tree, h⟩ := (hagrees context).converted hresult
        rw [htree] at h
        cases h
    have htext : ∀ context, treeText m context value = .error message :=
      fun context => by rw [treeText, htree]; rfl
    refine ⟨fun context text => ?_, fun context => ?_, fun context tree message h =>
      ?_, fun digest => ?_⟩
    · obtain ⟨message', h⟩ := hrefused context
      rw [h, htext]
      exact ⟨nofun, nofun⟩
    · exact ⟨fun _ => ⟨message, htext context⟩, fun _ => hrefused context⟩
    · cases h
    · obtain ⟨message', h⟩ := hrefused "research specification"
      rw [researchDigestStreamed, researchDigestTree, h, htree]
      exact ⟨nofun, nofun⟩
  | ok tree =>
    have hmatches : ∀ context, Matches m context "$" tree
        (writeCanonical m ⟨context, []⟩ "$" value) :=
      fun context => (hagrees context).matched htree
    have htext : ∀ context, treeText m context value = (do
        inspectValue context "$" tree
        (canonicalJson m.encoding tree).mapError serializationError) :=
          fun context => by rw [treeText, htree]; rfl
    refine ⟨fun context text => ?_, fun context => ?_, fun context tree' message h =>
      ?_, fun digest => ?_⟩
    · rw [htext]
      rcases hmatches context with ⟨message, hinspect, hresult⟩
        | ⟨hinspect, text', hcanonical, hresult⟩
      · rw [hinspect, hresult]
        exact ⟨nofun, nofun⟩
      · rw [hinspect, hresult, ok_bind, hcanonical]
        exact Iff.rfl
    · rw [htext]
      rcases hmatches context with ⟨message, hinspect, hresult⟩
        | ⟨hinspect, text, hcanonical, hresult⟩
      · rw [hinspect, hresult]
        exact ⟨fun _ => ⟨message, rfl⟩, fun _ => ⟨message, rfl⟩⟩
      · rw [hinspect, hresult, ok_bind, hcanonical]
        exact ⟨nofun, nofun⟩
    · cases h
      unfold validateSecretFree
      rcases hmatches context with ⟨message', hinspect, hresult⟩ | ⟨hinspect, text, -, hresult⟩
      · rw [hinspect, hresult]
        exact ⟨fun h => congrArg _ (Except.error.inj h), fun h => congrArg _ (Except.error.inj h)⟩
      · rw [hinspect, hresult]
        exact ⟨nofun, nofun⟩
    · rw [researchDigestStreamed, researchDigestTree, htree, ok_bind, researchDigest,
        validateSecretFree]
      rcases hmatches "research specification" with ⟨message, hinspect, hresult⟩
        | ⟨hinspect, text, hcanonical, hresult⟩
      · rw [hinspect, hresult]
        exact ⟨nofun, nofun⟩
      · rw [hinspect, hresult, ok_bind, ok_bind, hcanonical]
        exact Iff.rfl

/-! ### A value with its keys out of order -/

def sampleKey : Data → Run String
  | .bool value => .ok (if value then "true" else "false")
  | .signed value => .ok (toString value)
  | .unsigned value => .ok (toString value)
  | .i128 value => .ok (toString value)
  | .u128 value => .ok (toString value)
  | .char value => .ok (String.singleton value)
  | .str value => .ok value
  | .unitVariant variant => .ok variant
  | .newtypeStruct value => sampleKey value
  | _ => .error "key must be a string"

mutual
def sampleValue (widen : UInt32 → UInt64) : Data → Run Value
  | .bool value => .ok (.bool value)
  | .signed value => .ok (.number (numberOf value))
  | .unsigned value => .ok (.number (.posInt value))
  | .i128 value => (wideNumber value).map .number
  | .u128 value => (wideNumber value).map .number
  | .f32 bits => if isFinite32 bits then .ok (.number (.float (widen bits))) else .error nonfinite
  | .f64 bits => if isFinite64 bits then .ok (.number (.float bits)) else .error nonfinite
  | .char value => .ok (.string (String.singleton value))
  | .str value => .ok (.string value)
  | .bytes value => .ok (.array (value.map fun byte => .number (.posInt byte.toNat)))
  | .none => .ok .null
  | .some value => sampleValue widen value
  | .unit => .ok .null
  | .unitStruct => .ok .null
  | .unitVariant variant => .ok (.string variant)
  | .newtypeStruct value => sampleValue widen value
  | .newtypeVariant variant value => (sampleValue widen value).map fun tree =>
    .object [(variant, tree)]
  | .seq elements => (sampleValues widen elements).map .array
  | .tuple elements => (sampleValues widen elements).map .array
  | .tupleStruct fields => (sampleValues widen fields).map .array
  | .tupleVariant variant fields => (sampleValues widen fields).map fun trees =>
    .object [(variant, .array trees)]
  | .map entries => (sampleEntries widen entries).map collected
  | .struct fields => (sampleFields widen fields).map collected
  | .structVariant variant fields => (sampleFields widen fields).map fun trees =>
    .object [(variant, collected trees)]

def sampleValues (widen : UInt32 → UInt64) : List Data → Run (List Value)
  | [] => .ok []
  | value :: rest => do
    let tree ← sampleValue widen value
    let trees ← sampleValues widen rest
    return tree :: trees

def sampleEntries (widen : UInt32 → UInt64) : List (Data × Data) → Run Fields
  | [] => .ok []
  | (key, value) :: rest => do
    let text ← sampleKey key
    let tree ← sampleValue widen value
    let trees ← sampleEntries widen rest
    return (text, tree) :: trees

def sampleFields (widen : UInt32 → UInt64) : List (String × Data) → Run Fields
  | [] => .ok []
  | (key, value) :: rest => do
    let tree ← sampleValue widen value
    let trees ← sampleFields widen rest
    return (key, tree) :: trees
end

def sampleWiden (bits : UInt32) : UInt64 := if isFinite32 bits then 0 else 0x7ff0000000000000

def sampleText : String := "\x7b\"a\":\x7b\"n\":[1,null]\x7d,\"b\":\"x\"\x7d"

def sampleDigest : String := "e82b2e55045e187a80652d2a7ee449c41fd39ecce3e7588a13c900174702cbf4"

def sampleSerde : Serde where
  toValue := sampleValue sampleWiden
  keyText := sampleKey
  widen := sampleWiden
  encoding :=
    { numberText := numberText fun _ => "0.0"
      stringText := fun text => .ok (quoted text)
      sha256Hex := fun text => if text = sampleText then sampleDigest else ""
      debug := quoted }

theorem sampleValues_eq (elements : List Data) :
    sampleValues sampleWiden elements = elements.mapM sampleSerde.toValue := by
  induction elements with
  | nil => rfl
  | cons value rest ih =>
    rw [sampleValues, ih, List.mapM_cons]
    rfl

theorem sampleEntries_eq (entries : List (Data × Data)) :
    sampleEntries sampleWiden entries = entries.mapM (entryTree sampleSerde) := by
  induction entries with
  | nil => rfl
  | cons entry rest ih =>
    obtain ⟨key, value⟩ := entry
    rw [sampleEntries, ih, List.mapM_cons, entryTree]
    show _ = (do
      let pair ← (do
        let text ← sampleKey key
        let tree ← sampleValue sampleWiden value
        return (text, tree))
      let more ← rest.mapM (entryTree sampleSerde)
      return pair :: more)
    simp

theorem sampleFields_eq (fields : List (String × Data)) :
    sampleFields sampleWiden fields = fields.mapM (fieldTree sampleSerde) := by
  induction fields with
  | nil => rfl
  | cons field rest ih =>
    obtain ⟨key, value⟩ := field
    rw [sampleFields, ih, List.mapM_cons, fieldTree]
    show _ = (do
      let pair ← (do
        let tree ← sampleValue sampleWiden value
        return (key, tree))
      let more ← rest.mapM (fieldTree sampleSerde)
      return pair :: more)
    simp

theorem sampleSerde_documented : sampleSerde.Documented where
  bool _ := by simp only [sampleSerde, sampleValue]
  signed _ := by simp only [sampleSerde, sampleValue]
  unsigned _ := by simp only [sampleSerde, sampleValue]
  i128 _ := by simp only [sampleSerde, sampleValue]
  u128 _ := by simp only [sampleSerde, sampleValue]
  f32 _ := by simp only [sampleSerde, sampleValue]
  f64 _ := by simp only [sampleSerde, sampleValue]
  char _ := by simp only [sampleSerde, sampleValue]
  str _ := by simp only [sampleSerde, sampleValue]
  bytes _ := by simp only [sampleSerde, sampleValue]
  none := by simp only [sampleSerde, sampleValue]
  some _ := by simp only [sampleSerde, sampleValue]
  unit := by simp only [sampleSerde, sampleValue]
  unitStruct := by simp only [sampleSerde, sampleValue]
  unitVariant _ := by simp only [sampleSerde, sampleValue]
  newtypeStruct _ := by simp only [sampleSerde, sampleValue]
  newtypeVariant _ _ := by simp only [sampleSerde, sampleValue]
  seq elements := by
    rw [← sampleValues_eq]
    simp only [sampleSerde, sampleValue]
  tuple elements := by
    rw [← sampleValues_eq]
    simp only [sampleSerde, sampleValue]
  tupleStruct fields := by
    rw [← sampleValues_eq]
    simp only [sampleSerde, sampleValue]
  tupleVariant variant fields := by
    rw [← sampleValues_eq]
    simp only [sampleSerde, sampleValue]
  map entries := by
    rw [← sampleEntries_eq]
    simp only [sampleSerde, sampleValue]
  struct fields := by
    rw [← sampleFields_eq]
    simp only [sampleSerde, sampleValue]
  structVariant variant fields := by
    rw [← sampleFields_eq]
    simp only [sampleSerde, sampleValue]
  widen bits := by
    show isFinite64 (sampleWiden bits) = isFinite32 bits
    unfold sampleWiden
    cases isFinite32 bits with
    | false => decide
    | true => decide
  integer _ := rfl
  string text := ⟨quoted text, rfl⟩

def sampleData : Data :=
  .map [(.str "b", .str "x"), (.str "a", .some (.struct [("n", .seq [.unsigned 1, .none])]))]

theorem writeCanonical_eq_tree_sorted :
    treeText sampleSerde "research specification" sampleData = .ok sampleText ∧
    researchDigestTree sampleSerde sampleData = .ok sampleDigest := by
  have hkeys : DistinctKeys sampleSerde sampleData := by
    simp [sampleData, sampleSerde, sampleKey, DistinctKeys, DistinctEntries, DistinctFields,
      DistinctElements, Except.toOption]
  obtain ⟨htext, -, -, hdigest⟩ :=
    writeCanonical_eq_tree sampleSerde sampleSerde_documented sampleData hkeys
  have hwrite : writeCanonical sampleSerde ⟨"research specification", []⟩ "$" sampleData =
      .ok sampleText := by
    decide +kernel
  refine ⟨(htext _ _).mp hwrite, (hdigest _).mp ?_⟩
  rw [researchDigestStreamed, hwrite, ok_bind]
  have hdigest : sampleSerde.encoding.sha256Hex sampleText = sampleDigest := by simp [sampleSerde]
  exact congrArg Except.ok hdigest

end Xcelerator.Core.StreamedJson
