import Mathlib
import Xcelerator.Core.Hypothesis

/-! # Streamed canonical JSON

The writer of canonical text that serializes a value without building its JSON tree, next
to the route through the tree. A value is what it presents to a serializer, the same in
every pass; the text of the sink is the text returned. The conversion of `serde_json` to a
tree and the texts it gives to map keys are parameters. -/

namespace Xcelerator.Core.StreamedJson
open Xcelerator.Cache.CanonicalJson (sensitiveKey secretMarker validateSecretFree)
open Xcelerator.Core.ConfigResolution
  (Value Number Fields Encoding ConfigResolutionError canonicalJson insertField)
open Xcelerator.Core.DecimalLiteral (Result)
open Xcelerator.Core.Hypothesis (researchDigest serializationError)

/-- The data model of `serde`; a float is its bit pattern. -/
inductive Data where
  | bool (value : Bool)
  | signed (value : Int)
  | unsigned (value : Nat)
  | i128 (value : Int)
  | u128 (value : Nat)
  | f32 (bits : UInt32)
  | f64 (bits : UInt64)
  | char (value : Char)
  | str (value : String)
  | bytes (value : List UInt8)
  | none
  | some (value : Data)
  | unit
  | unitStruct
  | unitVariant (variant : String)
  | newtypeStruct (value : Data)
  | newtypeVariant (variant : String) (value : Data)
  | seq (elements : List Data)
  | tuple (elements : List Data)
  | tupleStruct (fields : List Data)
  | tupleVariant (variant : String) (fields : List Data)
  | map (entries : List (Data × Data))
  | struct (fields : List (String × Data))
  | structVariant (variant : String) (fields : List (String × Data))

abbrev Run := Except String

/-- `serde_json`: the tree of a value whose floats are all finite, the text of a map key, the
widening of a float, and the texts of numbers and strings. -/
structure Serde where
  toValue : Data → Run Value
  keyText : Data → Run String
  widen : UInt32 → UInt64
  encoding : Encoding

def nonfinite : String := "nonfinite float cannot be retained as JSON"

def isFinite32 (bits : UInt32) : Bool := bits.toNat / 2 ^ 23 % 2 ^ 8 != 2 ^ 8 - 1

def isFinite64 (bits : UInt64) : Bool := bits.toNat / 2 ^ 52 % 2 ^ 11 != 2 ^ 11 - 1

/-- `Number::from`. -/
def numberOf (n : Int) : Number := if n < 0 then .negInt n else .posInt n.toNat

/-- A 128-bit integer that fits a number. -/
def wideNumber (n : Int) : Run Number :=
  if 0 ≤ n ∧ n < 2 ^ 64 then .ok (numberOf n)
  else if -2 ^ 63 ≤ n ∧ n < 2 ^ 63 then .ok (numberOf n)
  else .error "number out of range"

/-- Where canonical text goes: how a secret is reported, and the top-level fields left out. -/
structure CanonicalSink where
  context : String
  omitted : List String

section
variable (m : Serde) (sink : CanonicalSink)

def jsonString (text : String) : Run String := m.encoding.stringText text

def checkKey (key path : String) : Run Unit :=
  if sensitiveKey key then
    .error (sink.context ++ " contains a credential-bearing field at " ++ (path ++ "." ++ key))
  else .ok ()

def writeStr (path text : String) : Run String :=
  if (secretMarker text).isSome then
    .error (sink.context ++ " contains credential-shaped material at " ++ path)
  else jsonString m text

def floatText (bits : UInt64) : Run String :=
  if !isFinite64 bits then .error nonfinite else .ok (m.encoding.numberText (.float bits))

/-- The only key of the tree of a map with one entry. -/
def mapKeyText (key : Data) : Run String := do
  match ← m.toValue (.map [(key, .unit)]) with
  | .object [(text, _)] => return text
  | _ => .error "map key conversion did not yield exactly one key"

def unstable {α : Type} : Run α := .error "value serialized differently on a repeated pass"

/-! ## Objects -/

def omitting (path : String) : Bool := path == "$" && !sink.omitted.isEmpty

def ascending : List String → Bool
  | first :: second :: rest => decide (first < second) && ascending (second :: rest)
  | _ => true

def repeatedKey : List String → Option String
  | first :: second :: rest => if first = second then some first else repeatedKey (second :: rest)
  | _ => none

/-- The loop over the sorted keys, each written followed by its field. -/
def writeKeys (path : String) (field : Option String → String → Run String) :
    Bool → List String → Run String
  | _, [] => .ok ""
  | first, key :: rest =>
    if omitting sink path && sink.omitted.contains key then writeKeys path field first rest
    else do
      checkKey sink key path
      let name ← jsonString m key
      let text ← field (some key) (path ++ "." ++ key)
      let more ← writeKeys path field false rest
      return (if first then "" else ",") ++ (name ++ ":" ++ text) ++ more

def writeObject (keys : List String) (path : String) (field : Option String → String → Run String) :
    Run String :=
  if !omitting sink path && ascending keys then do
    let text ← field none path
    return "\x7b" ++ text ++ "\x7d"
  else
    let sorted := keys.insertionSort (· ≤ ·)
    match repeatedKey sorted with
    | some key =>
      .error ("repeated object key " ++ m.encoding.debug key ++ " at " ++ path ++
        " is not supported by the streamed writer")
    | none => do
      let text ← writeKeys m sink path field true sorted
      return "\x7b" ++ text ++ "\x7d"

/-- A variant that carries data is an object with one field. -/
def writeVariant (variant path : String) (inner : String → Run String) : Run String := do
  if omitting sink path then
    .error "field omission requires a top-level struct or map, not an enum variant"
  else do
    checkKey sink variant path
    let name ← jsonString m variant
    let text ← inner (path ++ "." ++ variant)
    return "\x7b" ++ name ++ ":" ++ text ++ "\x7d"

/-! ## The writer -/

-- A repeatable value takes the form that its probe found, so a second pass meets that form.
mutual
def writeCanonical (path : String) : Data → Run String
  | .bool value => .ok (if value then "true" else "false")
  | .signed value => .ok (m.encoding.numberText (numberOf value))
  | .unsigned value => .ok (m.encoding.numberText (.posInt value))
  | .i128 value => (wideNumber value).map m.encoding.numberText
  | .u128 value => (wideNumber value).map m.encoding.numberText
  | .f32 bits => floatText m (m.widen bits)
  | .f64 bits => floatText m bits
  | .char value => writeStr m sink path (String.singleton value)
  | .str value => writeStr m sink path value
  | .bytes value => .ok ("[" ++ ",".intercalate (value.map fun byte => toString byte.toNat) ++ "]")
  | .none => .ok "null"
  | .some value => writeCanonical path value
  | .unit => .ok "null"
  | .unitStruct => .ok "null"
  | .unitVariant variant => writeStr m sink path variant
  | .newtypeStruct value => writeCanonical path value
  | .newtypeVariant variant value => writeVariant m sink variant path fun path =>
    writeCanonical path value
  | .seq elements => writeElements path 0 elements
  | .tuple elements => writeElements path 0 elements
  | .tupleStruct fields => writeElements path 0 fields
  | .tupleVariant variant fields => writeVariant m sink variant path fun path =>
    writeElements path 0 fields
  | .map entries => do
    let keys ← entries.mapM fun entry => mapKeyText m entry.1
    writeObject m sink keys path fun target path => writeEntries target keys path 0 false entries
  | .struct fields =>
    writeObject m sink (fields.map (·.1)) path fun target path =>
      writeFields target (fields.map (·.1)) path 0 false fields
  | .structVariant variant fields =>
    writeVariant m sink variant path fun path =>
      writeObject m sink (fields.map (·.1)) path fun target path =>
        writeFields target (fields.map (·.1)) path 0 false fields

/-- The elements from an index on, with the brackets at the two ends. -/
def writeElements (path : String) (index : Nat) : List Data → Run String
  | [] => .ok (if index = 0 then "[]" else "]")
  | value :: rest => do
    let text ← writeCanonical (path ++ "[" ++ toString index ++ "]") value
    let more ← writeElements path (index + 1) rest
    return (if index = 0 then "[" else ",") ++ text ++ more

/-- One pass over the fields: with a target its entry alone, else every entry after its key. -/
def writeFields (target : Option String) (keys : List String) (path : String) (index : Nat)
    (found : Bool) :
    List (String × Data) → Run String
  | [] => if index ≠ keys.length || (target.isSome && !found) then unstable else .ok ""
  | (key, value) :: rest =>
    match target with
    | some wanted =>
      if key = wanted then
        if found then unstable
        else do
          let text ← writeCanonical path value
          let more ← writeFields target keys path (index + 1) true rest
          return text ++ more
      else writeFields target keys path (index + 1) found rest
    | none =>
      if keys[index]? ≠ some key then unstable
      else do
        checkKey sink key path
        let name ← jsonString m key
        let text ← writeCanonical (path ++ "." ++ key) value
        let more ← writeFields target keys path (index + 1) found rest
        return (if index = 0 then "" else ",") ++ (name ++ ":" ++ text) ++ more

/-- The same pass over a map, whose keys are converted again. -/
def writeEntries (target : Option String) (keys : List String) (path : String) (index : Nat)
    (found : Bool) :
    List (Data × Data) → Run String
  | [] => if index ≠ keys.length || (target.isSome && !found) then unstable else .ok ""
  | (key, value) :: rest => do
    let key ← mapKeyText m key
    match target with
    | some wanted =>
      if key = wanted then
        if found then unstable
        else do
          let text ← writeCanonical path value
          let more ← writeEntries target keys path (index + 1) true rest
          return text ++ more
      else writeEntries target keys path (index + 1) found rest
    | none =>
      if keys[index]? ≠ some key then unstable
      else do
        checkKey sink key path
        let name ← jsonString m key
        let text ← writeCanonical (path ++ "." ++ key) value
        let more ← writeEntries target keys path (index + 1) found rest
        return (if index = 0 then "" else ",") ++ (name ++ ":" ++ text) ++ more
end

end

/-! ## The two routes -/

/-- The canonical text through the tree of the value. -/
def treeText (m : Serde) (context : String) (value : Data) : Run String := do
  let tree ← m.toValue value
  validateSecretFree tree context
  (canonicalJson m.encoding tree).mapError serializationError

/-- `research_digest`. -/
def researchDigestTree (m : Serde) (value : Data) : Run String := do
  let tree ← m.toValue value
  researchDigest m.encoding tree

def researchDigestStreamed (m : Serde) (value : Data) : Run String := do
  let text ← writeCanonical m ⟨"research specification", []⟩ "$" value
  return m.encoding.sha256Hex text

end Xcelerator.Core.StreamedJson
