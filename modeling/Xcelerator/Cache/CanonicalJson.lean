import Mathlib
import Xcelerator.Cache.Basic
import Xcelerator.Core.ConfigResolution

/-! # Canonical JSON

The writer that sorts object keys and keeps array order, and the refusal of
credential-shaped records before one is written. The text of a float is a
parameter: no cache record holds one. -/

namespace Xcelerator.Cache.CanonicalJson
open Xcelerator.Core.ConfigResolution (Value Number Fields)

/-! ## Credentials -/

def sensitiveKeys : List String :=
  ["access_token", "api_key", "authorization_header", "client_secret", "credential", "password",
    "private_key", "refresh_token", "secret", "secret_key", "signed_url"]

def toAsciiLowercase (c : Char) : Char := if 'A' ≤ c ∧ c ≤ 'Z' then Char.ofNat (c.toNat + 32) else c

def sensitiveKey (key : String) : Bool :=
  sensitiveKeys.contains (String.ofList ((key.toList.map toAsciiLowercase).map fun c =>
    if c = '-' ∨ c = ' ' then '_' else c))

/-- What follows the first occurrence of the pattern. -/
def afterFirst (pattern : List Char) : List Char → Option (List Char)
  | [] => if pattern.isEmpty then some [] else none
  | c :: text =>
    if pattern.isPrefixOf (c :: text) then some ((c :: text).drop pattern.length)
    else afterFirst pattern text

def trim (text : List Char) : List Char :=
  ((text.dropWhile isWhiteSpace).reverse.dropWhile isWhiteSpace).reverse

def signedMaterial : List String :=
  ["-----begin private key-----", "-----begin rsa private key-----",
    "-----begin openssh private key-----", "x-amz-signature=", "x-goog-signature="]

def providerPrefixes : List String :=
  ["github_pat_", "ghp_", "gho_", "ghu_", "ghs_", "ghr_", "xoxb-", "xoxp-"]

def isAsciiAlphanumeric (c : Char) : Bool :=
  isAsciiDigit c || ('a' ≤ c && c ≤ 'z') || ('A' ≤ c && c ≤ 'Z')

def secretMarker (text : String) : Option String :=
  let trimmed := trim text.toList
  let lower := trimmed.map toAsciiLowercase
  if signedMaterial.any fun pattern => (afterFirst pattern.toList lower).isSome then
    some "key_or_signed_url"
  else if providerPrefixes.any fun pattern =>
      (afterFirst pattern.toList lower).any fun rest => decide (String.utf8Len rest ≥ 16) then
    some "provider_token"
  else if trimmed.length == 20 &&
    ("AKIA".toList.isPrefixOf trimmed || "ASIA".toList.isPrefixOf trimmed) &&
      trimmed.all isAsciiAlphanumeric then
    some "cloud_access_key"
  else none

mutual
def inspectValue (context path : String) : Value → Except String Unit
  | .object fields => inspectFields context path fields
  | .array items => inspectItems context path 0 items
  | .string text =>
    if (secretMarker text).isSome then
      .error (context ++ " contains credential-shaped material at " ++ path)
    else .ok ()
  | _ => .ok ()

def inspectFields (context path : String) : List (String × Value) → Except String Unit
  | [] => .ok ()
  | (key, child) :: rest =>
    if sensitiveKey key then
      .error (context ++ " contains a credential-bearing field at " ++ (path ++ "." ++ key))
    else do
      inspectValue context (path ++ "." ++ key) child
      inspectFields context path rest

def inspectItems (context path : String) (index : Nat) : List Value → Except String Unit
  | [] => .ok ()
  | child :: rest => do
    inspectValue context (path ++ "[" ++ toString index ++ "]") child
    inspectItems context path (index + 1) rest
end

def validateSecretFree (value : Value) (context : String) : Except String Unit :=
  inspectValue context "$" value

/-! ## The writer -/

/-- The escapes of a JSON string. -/
def escape (c : Char) : String :=
  if c = '"' then "\\\""
  else if c = '\\' then "\\\\"
  else if c.toNat = 8 then "\\b"
  else if c.toNat = 9 then "\\t"
  else if c.toNat = 10 then "\\n"
  else if c.toNat = 12 then "\\f"
  else if c.toNat = 13 then "\\r"
  else if c.toNat < 32 then
    "\\u00" ++ String.ofList [Nat.digitChar (c.toNat / 16), Nat.digitChar (c.toNat % 16)]
  else String.ofList [c]

def quoted (text : String) : String :=
  "\"" ++ String.ofList (text.toList.flatMap fun c => (escape c).toList) ++ "\""

def commaSeparated : List String → String
  | [] => ""
  | [text] => text
  | text :: rest => text ++ "," ++ commaSeparated rest

def keyed (field : String × String) : String := quoted field.1 ++ ":" ++ field.2

section
variable (floatText : UInt64 → String)

def numberText : Number → String
  | .posInt n => toString n
  | .negInt n => toString n
  | .float bits => floatText bits

mutual
def writeCanonicalJson : Value → String
  | .null => "null"
  | .bool b => if b then "true" else "false"
  | .number n => numberText floatText n
  | .string text => quoted text
  | .array values => "[" ++ commaSeparated (writeValues values) ++ "]"
  | .object fields => "\x7b" ++ commaSeparated
      (((writeFields fields).insertionSort fun a b => a.1 ≤ b.1).map keyed) ++ "\x7d"

def writeValues : List Value → List String
  | [] => []
  | value :: rest => writeCanonicalJson value :: writeValues rest

def writeFields : List (String × Value) → List (String × String)
  | [] => []
  | (key, value) :: rest => (key, writeCanonicalJson value) :: writeFields rest
end

def canonicalJsonBytes (value : Value) : Result ByteArray :=
  match validateSecretFree value "canonical cache record" with
  | .error message => .error (.invalidManifest message)
  | .ok () => .ok (writeCanonicalJson floatText value).toUTF8

/-! ## Sizes -/

theorem commaSeparated_size (texts : List String) :
    (commaSeparated texts).utf8ByteSize = (texts.map String.utf8ByteSize).sum +
      (texts.length - 1) := by
  induction texts with
  | nil => rfl
  | cons text rest ih =>
    cases rest with
    | nil => simp [commaSeparated]
    | cons next rest =>
      show (text ++ "," ++ commaSeparated (next :: rest)).utf8ByteSize = _
      rw [String.utf8ByteSize_append, String.utf8ByteSize_append, ih]
      simp only [List.map_cons, List.sum_cons, List.length_cons]
      have hcomma : ",".utf8ByteSize = 1 := rfl
      omega

/-- The bytes of one written field. -/
def fieldSize (field : String × Value) : Nat :=
  (quoted field.1).utf8ByteSize + 1 + (writeCanonicalJson floatText field.2).utf8ByteSize

theorem writeFields_eq (fields : List (String × Value)) :
    writeFields floatText fields = fields.map fun field =>
    (field.1, writeCanonicalJson floatText field.2) := by
  induction fields with
  | nil => rfl
  | cons field rest ih =>
    obtain ⟨key, value⟩ := field
    rw [writeFields, ih]
    rfl

/-- The size of an object does not depend on the order of its keys. -/
theorem writeObject_size (fields : List (String × Value)) :
    (writeCanonicalJson floatText (.object fields)).utf8ByteSize =
      (fields.map (fieldSize floatText)).sum + (fields.length - 1) + 2 := by
  have hperm := (writeFields floatText fields).perm_insertionSort fun a b => a.1 ≤ b.1
  have hsum := ((hperm.map keyed).map String.utf8ByteSize).sum_eq
  have hkeyed : ∀ field : String × Value,
      (keyed (field.1, writeCanonicalJson floatText field.2)).utf8ByteSize =
          fieldSize floatText field := by
    intro field
    simp only [keyed, String.utf8ByteSize_append, fieldSize]
    rfl
  rw [writeCanonicalJson, String.utf8ByteSize_append, String.utf8ByteSize_append,
    commaSeparated_size, hsum,
    List.length_map, hperm.length_eq, writeFields_eq, List.map_map, List.map_map, List.length_map]
  have hopen : "\x7b".utf8ByteSize = 1 := rfl
  have hclose : "\x7d".utf8ByteSize = 1 := rfl
  rw [hopen, hclose]
  have hmap : fields.map ((String.utf8ByteSize ∘ keyed) ∘ fun field =>
      (field.1, writeCanonicalJson floatText field.2)) = fields.map (fieldSize floatText) :=
    List.map_congr_left fun field _ => hkeyed field
  rw [hmap]
  omega

end

/-- Text without quotes, backslashes and control characters is written as it stands. -/
theorem quoted_size_of_plain {text : String}
    (h : ∀ c ∈ text.toList, c ≠ '"' ∧ c ≠ '\\' ∧ 32 ≤ c.toNat) :
    (quoted text).utf8ByteSize = text.utf8ByteSize + 2 := by
  have hflat : text.toList.flatMap (fun c => (escape c).toList) = text.toList := by
    refine (List.flatMap_congr fun c hc => ?_).trans (List.flatMap_singleton' _)
    obtain ⟨hquote, hslash, hlow⟩ := h c hc
    unfold escape
    rw [if_neg hquote, if_neg hslash, if_neg (by omega), if_neg (by omega), if_neg (by omega),
      if_neg (by omega), if_neg (by omega), if_neg (by omega)]
    simp
  rw [quoted, hflat, String.utf8ByteSize_append, String.utf8ByteSize_append, String.ofList_toList]
  have hmark : "\"".utf8ByteSize = 1 := rfl
  omega

end Xcelerator.Cache.CanonicalJson
