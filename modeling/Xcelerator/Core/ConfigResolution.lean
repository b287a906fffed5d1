import Mathlib
import Xcelerator.Cache.Basic

/-! # Layered configuration resolution

JSON layers are merged in the order of their sources, and every leaf of the
merged document is attributed to the layer that supplied it. `serde_json` keeps
an object as a map sorted by key, here a list of fields; the recorded paths are
a `BTreeMap`, here the extensional tree map. The typed schema, the texts of
numbers and strings and the digest are parameters. -/

namespace Xcelerator.Core.ConfigResolution

/-! ## Documents -/

/-- A JSON number; a float is its bit pattern. -/
inductive Number where
  | posInt (n : Nat)
  | negInt (n : Int)
  | float (bits : UInt64)
deriving DecidableEq, Repr

inductive Value where
  | null
  | bool (b : Bool)
  | number (n : Number)
  | string (s : String)
  | array (values : List Value)
  | object (fields : List (String × Value))
deriving Repr

abbrev Fields := List (String × Value)

def Value.isObject : Value → Bool
  | .object _ => true
  | _ => false

def Value.asStr : Value → Option String
  | .string s => some s
  | _ => none

def Value.fields : Value → Fields
  | .object fields => fields
  | _ => []

def lookup : Fields → String → Option Value
  | [], _ => none
  | (k, v) :: rest, key => if k = key then some v else lookup rest key

def insertField : Fields → String → Value → Fields
  | [], key, value => [(key, value)]
  | (k, v) :: rest, key, value =>
    if key < k then (key, value) :: (k, v) :: rest
    else if key = k then (key, value) :: rest
    else (k, v) :: insertField rest key value

/-- Objects keep their keys sorted, at every depth. -/
inductive Sorted : Value → Prop where
  | null : Sorted .null
  | bool (b : Bool) : Sorted (.bool b)
  | number (n : Number) : Sorted (.number n)
  | string (s : String) : Sorted (.string s)
  | array {values : List Value} (h : ∀ v ∈ values, Sorted v) : Sorted (.array values)
  | object {fields : Fields} (keys : fields.Pairwise fun l r => l.1 < r.1)
      (h : ∀ f ∈ fields, Sorted f.2) : Sorted (.object fields)

/-- A JSON document as `serde_json` holds it. -/
structure Document where
  value : Value
  sorted : Sorted value

/-! ## Layers -/

/-- In increasing precedence. -/
inductive ConfigSource where
  | builtIn
  | user
  | project
  | run
  | commandLine
  | environment
deriving DecidableEq, Repr

def ConfigSource.rank : ConfigSource → Nat
  | builtIn => 0
  | user => 1
  | project => 2
  | run => 3
  | commandLine => 4
  | environment => 5

structure ConfigurationLayer where
  source : ConfigSource
  name : String
  document : Document
  overrideAllowlist : Option (Std.ExtTreeSet String)

structure ConfigLayerRecord where
  source : ConfigSource
  name : String
  canonicalDigest : String

structure ConfigOverrideRecord where
  path : String
  source : ConfigSource
  effectiveValue : Value

inductive ConfigResolutionError where
  | emptyLayers
  | duplicateSource (source : ConfigSource)
  | invalidLayer (message : String)
  | forbiddenOverride (source : ConfigSource) (path : String)
  | serialization (message : String)
  | validation (message : String)
deriving DecidableEq

abbrev Resolved := Except ConfigResolutionError

abbrev Paths := Std.ExtTreeMap String ConfigSource

structure EffectiveConfiguration (T : Type) where
  algorithmSemantics : String
  resolved : T
  canonicalJson : String
  digest : String
  layers : List ConfigLayerRecord
  resolvedPaths : Paths
  overrides : List ConfigOverrideRecord

/-- What the typed root configuration brings along: its (de)serialization, its
validation and its tagged enum objects. -/
structure Schema (T : Type) where
  fromValue : Value → Except String T
  toValue : T → Except String Document
  validateResolved : T → Except String Unit
  configurationVariantTags : List (String × String)

/-- The texts of numbers and strings and the digest of a text. -/
structure Encoding where
  numberText : Number → String
  stringText : String → Except String String
  sha256Hex : String → String
  debug : String → String

/-! ## Canonical text -/

-- The fields are sorted already, so sorting the keys changes nothing.
mutual
def canonicalJson (e : Encoding) : Value → Resolved String
  | .null => .ok "null"
  | .bool b => .ok (if b then "true" else "false")
  | .number n => .ok (e.numberText n)
  | .string s => (e.stringText s).mapError .serialization
  | .array values => do
    let texts ← canonicalValues e values
    return "[" ++ ",".intercalate texts ++ "]"
  | .object fields => do
    let texts ← canonicalFields e fields
    return "\x7b" ++ ",".intercalate texts ++ "\x7d"

def canonicalValues (e : Encoding) : List Value → Resolved (List String)
  | [] => .ok []
  | value :: rest => do
    let text ← canonicalJson e value
    let texts ← canonicalValues e rest
    return text :: texts

def canonicalFields (e : Encoding) : List (String × Value) → Resolved (List String)
  | [] => .ok []
  | (key, value) :: rest => do
    let keyText ← (e.stringText key).mapError .serialization
    let text ← canonicalJson e value
    let texts ← canonicalFields e rest
    return (keyText ++ ":" ++ text) :: texts
end

/-! ## Paths -/

def joinPath ( pre key : String) : String :=
  if pre.isEmpty then key else pre ++ "." ++ key

def removeRecordedSubtree (paths : Paths) (pre : String) : Paths :=
  paths.filter fun path _ => path != pre && !(pre ++ ".").toList.isPrefixOf path.toList

mutual
/-- The recursion of `collect_leaf_paths` into an object. -/
def collectFields : List (String × Value) → String → List String
  | [], _ => []
  | (key, child) :: rest, pre =>
    collectChild child (joinPath pre key) ++ collectFields rest pre

def collectChild : Value → String → List String
  | .object fields, path =>
    (if fields.isEmpty && !path.isEmpty then [path] else []) ++ collectFields fields path
  | _, path => [path]
end

def collectLeafPaths (value : Value) : Std.ExtTreeSet String :=
  .ofList (collectFields value.fields "")

/-- `split('.')` and descend. -/
def valueAtPath (value : Value) (path : String) : Option Value :=
  (path.toList.splitOn '.').foldlM (fun current component =>
    match current with
    | .object fields => lookup fields (String.ofList component)
    | _ => none) value

/-! ## Merging -/

/-- Some tag of this object changes from one string to another. -/
def variantChanged (tags : List (String × String)) ( pre : String) (target incoming : Fields) :
    Bool :=
  tags.any fun (path, tag) =>
    path == pre &&
      match (lookup target tag).bind Value.asStr, (lookup incoming tag).bind Value.asStr with
      | some before, some after => before != after
      | _, _ => false

/-- The child an object is merged into, and the paths recorded by then. -/
def enterChild (child : Option Value) (value : Value) (path : String) (paths : Paths) :
    Value × Paths :=
  match child.getD (.object []) with
  | .object fields => (.object fields, if value.fields.isEmpty then paths else paths.erase path)
  | _ => (.object [], removeRecordedSubtree paths path)

/-- The target and the paths after a changed variant was cleared. -/
def clearVariant (changed : Bool) (target : Fields) (paths : Paths) ( pre : String) :
    Fields × Paths :=
  if changed then ([], removeRecordedSubtree paths pre) else (target, paths)

/-- An empty object over an empty object is a leaf of its own. -/
def recordEmpty (incoming target : Fields) (paths : Paths) ( pre : String) (source : ConfigSource) :
    Paths :=
  if incoming.isEmpty && target.isEmpty && !pre.isEmpty then
    (removeRecordedSubtree paths pre).insert pre source
  else paths

mutual
def mergeValues (tags : List (String × String)) (source : ConfigSource) :
    Value → Value → String → Paths → Resolved (Value × Paths)
  | .object incoming, .object target, pre, paths => do
    let cleared := clearVariant (variantChanged tags pre target incoming) target paths pre
    let merged ← mergeFields tags source incoming cleared.1 pre
      (recordEmpty incoming cleared.1 cleared.2 pre source)
    return (.object merged.1, merged.2)
  | _, _, _, _ => .error (.invalidLayer "configuration merge encountered a non-object root")

def mergeFields (tags : List (String × String)) (source : ConfigSource) :
    List (String × Value) → Fields → String → Paths → Resolved (Fields × Paths)
  | [], target, _, paths => .ok (target, paths)
  | (key, value) :: rest, target, pre, paths =>
    let path := joinPath pre key
    if value.isObject then do
      let entered := enterChild (lookup target key) value path paths
      let child ← mergeValues tags source value entered.1 path entered.2
      mergeFields tags source rest (insertField target key child.1) pre child.2
    else
      mergeFields tags source rest (insertField target key value) pre
        ((removeRecordedSubtree paths path).insert path source)
end

/-! ## Resolution -/

/-- The locals of the loop over the layers. -/
structure Resolution where
  seen : List ConfigSource
  merged : Value
  resolvedPaths : Paths
  records : List ConfigLayerRecord

def Resolution.start : Resolution := ⟨[], .object [], {}, []⟩

def checkAllowlist (layer : ConfigurationLayer) : Resolved Unit :=
  match layer.source, layer.overrideAllowlist with
  | .environment, some allowlist =>
    (collectLeafPaths layer.document.value).toList.forM fun path =>
      if path ∈ allowlist then .ok () else .error (.forbiddenOverride layer.source path)
  | .environment, none =>
    .error (.invalidLayer "environment layer requires an explicit override allowlist")
  | _, some _ =>
    .error (.invalidLayer "override allowlists are valid only for environment layers")
  | _, none => .ok ()

def check (condition : Bool) (error : ConfigResolutionError) : Resolved Unit :=
  if condition then .ok () else .error error

def resolveLayer (tags : List (String × String)) (e : Encoding) (s : Resolution)
    (layer : ConfigurationLayer) : Resolved Resolution := do
  check (!s.seen.contains layer.source) (.duplicateSource layer.source)
  check (!Cache.blank layer.name) (.invalidLayer "layer name must be nonempty")
  check layer.document.value.isObject
    (.invalidLayer ("layer " ++ e.debug layer.name ++ " must be a JSON object"))
  checkAllowlist layer
  let canonicalLayer ← canonicalJson e layer.document.value
  let merged ← mergeValues tags layer.source layer.document.value s.merged "" s.resolvedPaths
  return {
    seen := layer.source :: s.seen
    merged := merged.1
    resolvedPaths := merged.2
    records := s.records ++ [⟨layer.source, layer.name, e.sha256Hex canonicalLayer⟩] }

def overrideRecord (e : Encoding) (resolvedValue : Value) (entry : String × ConfigSource) :
    Resolved ConfigOverrideRecord :=
  match valueAtPath resolvedValue entry.1 with
  | some value => .ok ⟨entry.1, entry.2, value⟩
  | none => .error (.serialization
      ("resolved configuration does not contain recorded path " ++ e.debug entry.1))

def sortLayers (layers : List ConfigurationLayer) : List ConfigurationLayer :=
  layers.insertionSort fun l r => l.source.rank ≤ r.source.rank

/-- What is done with the merged document. -/
def finish {T : Type} (schema : Schema T) (e : Encoding) (s : Resolution) :
    Resolved (EffectiveConfiguration T) := do
  let resolved ← (schema.fromValue s.merged).mapError fun error =>
    .serialization ("effective configuration does not match its typed schema: " ++ error)
  (schema.validateResolved resolved).mapError .validation
  let resolvedValue ← (schema.toValue resolved).mapError .serialization
  let text ← canonicalJson e resolvedValue.value
  let overrides ← (s.resolvedPaths.toList.filter fun entry => entry.2 != .builtIn).mapM
    (overrideRecord e resolvedValue.value)
  return {
    algorithmSemantics := "typed-variant-replacement-resolution-v2"
    resolved := resolved
    canonicalJson := text
    digest := e.sha256Hex text
    layers := s.records
    resolvedPaths := s.resolvedPaths
    overrides := overrides }

def resolveConfiguration {T : Type} (schema : Schema T) (e : Encoding)
    (layers : List ConfigurationLayer) : Resolved (EffectiveConfiguration T) := do
  check (!layers.isEmpty) .emptyLayers
  let s ← (sortLayers layers).foldlM (resolveLayer schema.configurationVariantTags e) .start
  finish schema e s

end Xcelerator.Core.ConfigResolution
