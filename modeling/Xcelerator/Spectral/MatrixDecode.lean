import Mathlib
import Xcelerator.Cache.Digest
import Xcelerator.Spectral.ExactCutoff

/-! # Decoding a retained matrix in two passes

The stream is read twice, each time to its end, hashed and bounded by its declared
length. The first pass counts the entries and reads the rest; the second reads the
entries only. The JSON grammar is the parameter `Library.json`: the tree of a whole
document, in which text that has no decoding and numbers that are not unsigned keep
no value. An error of a reader ends the decoding, but an interrupted read is repeated;
what only the wording of an error depends on is left out, and memory once reserved is had. -/

namespace Xcelerator.Spectral.MatrixDecode
open Xcelerator.Cache (ContentDigest)
open Xcelerator.Cache.Digest (Sha256 contentDigest)

abbrev Bytes := List UInt8

/-! ## JSON -/

inductive Json where
  | null
  | bool (value : Bool)
  | number (unsigned : Option Nat)
  | string (text : Option String)
  | array (elements : List Json)
  | object (members : List (Option String × Json))

def Json.asString : Json → Option String
  | .string text => text
  | _ => none

/-- An unsigned number of `w` bits. -/
def Json.asUnsigned (w : Nat) : Json → Option Nat
  | .number (some n) => if n < 2 ^ w then some n else none
  | _ => none

/-- The fields of a payload, with the entries in whatever form they are kept. -/
structure Payload (α : Type) where
  schemaVersion : Nat
  lambdaSquared : String
  nModes : Nat
  precisionBits : Nat
  entries : α

/-- The fields met so far. -/
structure Fields (α : Type) where
  schemaVersion : Option Nat
  lambdaSquared : Option String
  nModes : Option Nat
  precisionBits : Option Nat
  entries : Option α

/-- A field that may be set once. -/
def once {α : Type} (field value : Option α) : Option (Option α) :=
  match field with
  | some _ => none
  | none => value.map some

section
variable {α : Type} (entries : Json → Option α)

/-- One member of an object, as the derived visitor reads it; unknown fields are ignored. -/
def decodeMember (fields : Fields α) (member : Option String × Json) : Option (Fields α) := do
  let key ← member.1
  if key = "schema_version" then
    let value ← once fields.schemaVersion (member.2.asUnsigned 32)
    return { fields with schemaVersion := value }
  else if key = "lambda_squared" then
    let value ← once fields.lambdaSquared member.2.asString
    return { fields with lambdaSquared := value }
  else if key = "n_modes" then
    let value ← once fields.nModes (member.2.asUnsigned 64)
    return { fields with nModes := value }
  else if key = "precision_bits" then
    let value ← once fields.precisionBits (member.2.asUnsigned 32)
    return { fields with precisionBits := value }
  else if key = "entries" then
    let value ← once fields.entries (entries member.2)
    return { fields with entries := value }
  else return fields

def finish (fields : Fields α) : Option (Payload α) := do
  let schemaVersion ← fields.schemaVersion
  let lambdaSquared ← fields.lambdaSquared
  let nModes ← fields.nModes
  let precisionBits ← fields.precisionBits
  let entries ← fields.entries
  return { schemaVersion, lambdaSquared, nModes, precisionBits, entries }

/-- The derived decoding of a struct, by name or by position. -/
def decodeStruct : Json → Option (Payload α)
  | .object members => do
    let fields ← members.foldlM (decodeMember entries) ⟨none, none, none, none, none⟩
    finish fields
  | .array [schemaVersion, lambdaSquared, nModes, precisionBits, list] => do
    let schemaVersion ← schemaVersion.asUnsigned 32
    let lambdaSquared ← lambdaSquared.asString
    let nModes ← nModes.asUnsigned 64
    let precisionBits ← precisionBits.asUnsigned 32
    let entries ← entries list
    return { schemaVersion, lambdaSquared, nModes, precisionBits, entries }
  | _ => none

end

def countElement (count : Nat) (element : Json) : Option Nat := do
  let _ ← element.asString
  if count + 1 < 2 ^ 64 then some (count + 1) else none

/-- `count_entries`: every element is a string, none is kept. -/
def countEntries : Json → Option Nat
  | .array elements => elements.foldlM countElement 0
  | _ => none

/-- `Vec<String>`. -/
def stringEntries : Json → Option (List String)
  | .array elements => elements.mapM Json.asString
  | _ => none

/-! ## The checks -/

/-- What the decoding takes from its libraries: SHA-256, the grammar, and the reading of a
scalar. -/
structure Library (F : Type) where
  sha256 : Sha256
  json : Bytes → Option Json
  scalar : String → Nat → Option F

def precisionOk (p : Nat) : Bool := 64 ≤ p && p ≤ 1000000

def retainedMatrixShape (modes p entries : Nat) : Option Nat :=
  if precisionOk p ∧ 2 * modes + 1 < 2 ^ 64 ∧ modes ≤ 8192 ∧ (2 * modes + 1) * (2 * modes + 1) =
      entries then
    some (2 * modes + 1)
  else none

def retainedMatrixBytes (p entries : Nat) : Option Nat :=
  let bytes := entries * ((p + 63) / 64 * 8 + 96) + 4096
  if precisionOk p ∧ bytes < 2 ^ 64 then some bytes else none

structure DecodedMatrix (F : Type) where
  cutoff : String
  modes : Nat
  precision : Nat
  dimension : Nat
  entries : List F
deriving DecidableEq

def guardCutoff (text : String) : Option Unit :=
  match ExactCutoff.parse text.toList with
  | .ok _ => some ()
  | .error _ => none

def guardThat (condition : Prop) [Decidable condition] : Option Unit :=
  if condition then some () else none

theorem bind_some {α β : Type} {x : Option α} {f : α → Option β} {b : β} (h : x >>= f = some b) :
    ∃ a, x = some a ∧ f a = some b := Option.bind_eq_some_iff.mp h

theorem guardThat_iff {condition : Prop} [Decidable condition] {u : Unit} :
    guardThat condition = some u ↔ condition := by
  rw [guardThat]
  split <;> simp_all

theorem guardThat_pos {condition : Prop} [Decidable condition] (h : condition) :
    guardThat condition = some () :=
  guardThat_iff.mpr h

/-! ## The second pass -/

section
variable {F : Type} (lib : Library F)

def entryFloat (precision : Nat) (element : Json) : Option F := do
  let text ← element.asString
  lib.scalar text precision

/-- `EntrySequence`: the counted elements, and no other. -/
def entrySequence (count precision : Nat) : Json → Option (List F)
  | .array elements => do
    let entries ← (elements.take count).mapM (entryFloat lib precision)
    guardThat (elements.length = count)
    return entries
  | _ => none

def matrixMember (count precision : Nat) (found : Option (List F)) (member : Option String × Json) :
    Option (Option (List F)) := do
  let key ← member.1
  if key = "entries" then once found (entrySequence lib count precision member.2) else return found

/-- `MatrixEntries`: the entries alone, by name or by position. -/
def matrixEntries (count precision : Nat) : Json → Option (List F)
  | .object members => do
    let found ← members.foldlM (matrixMember lib count precision) none
    found
  | .array [_, _, _, _, list] => entrySequence lib count precision list
  | _ => none

/-! ## The reference -/

/-- The whole payload decoded at once. -/
def reference (b : Bytes) : Option (DecodedMatrix F) := do
  let tree ← lib.json b
  let payload ← decodeStruct stringEntries tree
  let dimension ← retainedMatrixShape payload.nModes payload.precisionBits payload.entries.length
  guardCutoff payload.lambdaSquared
  guardThat (payload.schemaVersion = 2)
  let entries ← payload.entries.mapM fun text => lib.scalar text payload.precisionBits
  return ⟨payload.lambdaSquared, payload.nModes, payload.precisionBits, dimension, entries⟩

end

/-! ## Reading -/

inductive Event where
  | data (bytes : Bytes)
  | interrupted
  | failed

/-- A seekable reader: a read answers with no more bytes than it is asked for, and with none at the
end. -/
structure Reader (σ : Type) where
  read : σ → Nat → Event × σ
  seekStart : σ → Option σ
  bounded : ∀ s limit bytes s', read s limit = (.data bytes, s') → bytes.length ≤ limit

structure Resources (ρ : Type) where
  reserveWorking : ρ → Nat → Option ρ
  reserveRetained : ρ → Nat → Option ρ

def readBuffer : Nat := 16 * 1024

structure ParserBudget (ρ : Type) where
  state : ρ
  maximumToken : Nat
  admittedToken : Nat

/-- `checked_next_power_of_two`, or the maximum, and never more than it. -/
def capacity (maximum token : Nat) : Nat :=
  min (if 2 ^ Nat.clog 2 token < 2 ^ 64 then 2 ^ Nat.clog 2 token else maximum) maximum

structure Scan where
  quoted : Bool
  escaped : Bool
  token : Nat
deriving DecidableEq

def isSeparator (byte : UInt8) : Bool :=
  byte == 32 || byte == 9 || byte == 10 || byte == 12 || byte == 13 ||
    byte == 91 || byte == 93 || byte == 123 || byte == 125 || byte == 44 || byte == 58

def Scan.step (s : Scan) (byte : UInt8) : Scan :=
  if s.quoted then
    if s.escaped then ⟨true, false, s.token + 1⟩
    else if byte = 92 then ⟨true, true, s.token + 1⟩
    else if byte = 34 then ⟨false, false, 0⟩
    else ⟨true, false, s.token + 1⟩
  else if byte = 34 then ⟨true, s.escaped, 1⟩
  else if isSeparator byte then ⟨false, s.escaped, 0⟩
  else ⟨false, s.escaped, s.token + 1⟩

/-- Whether the byte lengthens a token, a closing quote included. -/
def Scan.adds (s : Scan) (byte : UInt8) : Bool := s.quoted || !(byte == 34 || isSeparator byte)

structure CheckedRead (ρ : Type) where
  read : Nat
  hashed : Bytes
  scan : Scan
  budget : ParserBudget ρ

section
variable {σ ρ : Type} (reader : Reader σ) (resources : Resources ρ)

def ParserBudget.admitToken (budget : ParserBudget ρ) (token : Nat) : Option (ParserBudget ρ) :=
  if token ≤ budget.admittedToken then some budget
  else do
    let capacity := capacity budget.maximumToken token
    guardThat (budget.admittedToken ≤ capacity ∧ (capacity - budget.admittedToken) * 32 < 2 ^ 64)
    let state ← resources.reserveWorking budget.state ((capacity - budget.admittedToken) * 32)
    return { budget with state, admittedToken := capacity }

def checkByte (state : Scan × ParserBudget ρ) (byte : UInt8) : Option (Scan × ParserBudget ρ) := do
  guardThat (state.1.adds byte = true → state.1.token + 1 < 2 ^ 64)
  let budget ← state.2.admitToken resources (state.1.step byte).token
  return (state.1.step byte, budget)

/-- What one read does with the bytes it is given. -/
def CheckedRead.accept (expected : Nat) (checked : CheckedRead ρ) (bytes : Bytes) :
    Option (CheckedRead ρ) := do
  guardThat (checked.read + bytes.length < 2 ^ 64)
  guardThat (checked.read + bytes.length ≤ expected)
  let state ← bytes.foldlM (checkByte resources) (checked.scan, checked.budget)
  return ⟨checked.read + bytes.length, checked.hashed ++ bytes, state.1, state.2⟩

/-- At the declared end one byte is asked for. -/
def limit (expected read : Nat) : Nat := max (min readBuffer (expected - read)) 1

/-- The stream up to its end. -/
def pass (expected : Nat) : Nat → σ → CheckedRead ρ → Option (σ × CheckedRead ρ)
  | 0, _, _ => none
  | fuel + 1, s, checked =>
    match reader.read s (limit expected checked.read) with
    | (.failed, _) => none
    | (.interrupted, s) => pass expected fuel s checked
    | (.data [], s) => some (s, checked)
    | (.data (byte :: bytes), s) => do
      let checked ← checked.accept resources expected (byte :: bytes)
      pass expected fuel s checked

def CheckedRead.new (budget : ParserBudget ρ) : CheckedRead ρ := ⟨0, [], ⟨false, false, 0⟩, budget⟩

/-- A pass from the start of the stream, verified. -/
def verifiedPass (sha256 : Sha256) (fuel : Nat) (s : σ) (length : Nat) (digest : ContentDigest)
    (budget : ParserBudget ρ) :
    Option (σ × CheckedRead ρ) := do
  let s ← reader.seekStart s
  let result ← pass reader resources length fuel s (CheckedRead.new budget)
  guardThat (result.2.read = length ∧ contentDigest sha256 result.2.hashed = digest)
  return result

variable {F : Type} (lib : Library F)

def decodeReader (fuel : Nat) (s : σ) (length : Nat) (digest : ContentDigest) (state : ρ) :
    Option (DecodedMatrix F) := do
  let state ← resources.reserveWorking state (4 * readBuffer)
  let first ← verifiedPass reader resources lib.sha256 fuel s length digest ⟨state, length, 0⟩
  let tree ← lib.json first.2.hashed
  let metadata ← decodeStruct countEntries tree
  let dimension ← retainedMatrixShape metadata.nModes metadata.precisionBits metadata.entries
  guardCutoff metadata.lambdaSquared
  guardThat (metadata.schemaVersion = 2)
  let state ← resources.reserveWorking first.2.budget.state
    ((metadata.precisionBits + 7) / 8 * 32 + 65536)
  let bytes ← retainedMatrixBytes metadata.precisionBits metadata.entries
  guardThat (bytes + metadata.lambdaSquared.utf8ByteSize < 2 ^ 64)
  let state ← resources.reserveRetained state (bytes + metadata.lambdaSquared.utf8ByteSize)
  let second ← verifiedPass reader resources lib.sha256 fuel first.1 length digest
    { first.2.budget with state }
  let tree ← lib.json second.2.hashed
  let entries ← matrixEntries lib metadata.entries metadata.precisionBits tree
  return ⟨metadata.lambdaSquared, metadata.nModes, metadata.precisionBits, dimension, entries⟩

end

end Xcelerator.Spectral.MatrixDecode
