import Mathlib
import Xcelerator.Foundations.Machine
import Xcelerator.Cache.Digest

/-! # Transport parts

Splitting an encoded package into hashed, content-addressed parts, the checks on
a transport record, and reconstruction from a part store. A stream is its bytes;
the sink is a function of its own state; a cancellation token answers its checks
in order. A running hash is kept as the bytes it has seen. -/

namespace Xcelerator.Cache.Transport
open Xcelerator.Cache.Digest

abbrev Bytes := List UInt8

def githubHardFileBoundaryBytes : Nat := 100000000
def defaultSplitPartBytes : Nat := 94371840
def githubMaxPublicationBatchBytes : Nat := 1000000000

structure TransportPolicy where
  maximumFileBytesExclusive : Nat
  splitPartBytes : Nat
  maximumBatchPayloadBytes : Nat
  maximumPendingBatches : Nat
deriving DecidableEq, Repr

def TransportPolicy.validate (policy : TransportPolicy) : Result Unit := do
  check (policy.maximumFileBytesExclusive == 0 ||
      decide (policy.maximumFileBytesExclusive > githubHardFileBoundaryBytes))
    (.invalidManifest ("file boundary must be at most " ++
      toString githubHardFileBoundaryBytes ++ " bytes"))
  check (policy.splitPartBytes == 0 ||
    decide (policy.splitPartBytes ≥ policy.maximumFileBytesExclusive) ||
      decide (policy.splitPartBytes > defaultSplitPartBytes))
    (.invalidManifest ("split part size must be positive, below the file boundary, and no larger than " ++
      toString defaultSplitPartBytes))
  check (policy.maximumBatchPayloadBytes == 0 ||
      decide (policy.maximumBatchPayloadBytes > githubMaxPublicationBatchBytes) ||
      decide (policy.maximumBatchPayloadBytes < policy.splitPartBytes))
    (.invalidManifest ("batch payload must contain one part and may not exceed " ++
      toString githubMaxPublicationBatchBytes ++ " bytes"))
  check (policy.maximumPendingBatches == 0)
    (.invalidManifest "at least one pending publication batch must be allowed")

structure TransportPart where
  sequence : Nat
  repositoryPath : String
  sizeBytes : Nat
  contentDigest : ContentDigest
deriving DecidableEq, Repr

structure TransportEncodingRecord where
  schemaVersion : Nat
  canonicalPayloadDigest : ContentDigest
  encoderProfile : String
  packageSizeBytes : Nat
  packageDigest : ContentDigest
  orderedParts : List TransportPart
  reconstruction : String
deriving DecidableEq, Repr

def deterministicZip64ProfileV1 : String :=
  "xc-zip64-deflate-v1;zip-rs=2.4.2;flate2=1.1.9;miniz_oxide=0.8.9;" ++
    "level=6;mtime=1980-01-01T00:00:00;mode=0644;order=utf8-bytewise"

def deterministicZip64ProfileV2 : String :=
  "xc-zip64-deflate-v2;zip-rs=2.4.2;flate2=1.1.9;miniz_oxide=0.8.9;" ++
    "level=6;mtime=1980-01-01T00:00:00;mode=0644;order=utf8-bytewise;zip64=always"

/-- The general category `Cc`. -/
def isControl (c : Char) : Bool := c.toNat < 0x20 || (0x7F ≤ c.toNat && c.toNat < 0xA0)

/-- The components between slashes, as `str::split`. -/
def components (path : List Char) : List (List Char) := path.splitOn '/'

def normalizedRelativePath (path : String) : Bool :=
  let chars := path.toList
  !chars.isEmpty && chars.head? != some '/' && chars.head? != some '\\' && !chars.contains '\\' &&
    !chars.contains ':' && !chars.any isControl &&
    !(components chars).any fun part => part.isEmpty || part == ['.'] || part == ['.', '.']

/-- The distinct blobs with their sizes. -/
def blobSizes : List TransportPart → List (ContentDigest × Nat) →
    Result (List (ContentDigest × Nat))
  | [], sizes => .ok sizes
  | part :: rest, sizes =>
    match sizes.lookup part.contentDigest with
    | some previous =>
      if previous ≠ part.sizeBytes then
        .error (.invalidManifest "one transport blob has conflicting byte counts")
      else blobSizes rest sizes
    | none => blobSizes rest ((part.contentDigest, part.sizeBytes) :: sizes)

def uniqueTransportBlobBytes (parts : List TransportPart) : Result Nat := do
  let sizes ← blobSizes parts []
  sizes.foldlM (fun sum size => require (checkedAdd sum size.2)
    (.resourceLimit "unique transport bytes exceed u64")) 0

/-- The checks of one part; `paths` holds what was recorded under each path. -/
def validatePart (schemaVersion index : Nat) (part : TransportPart)
    (paths : List (String × ContentDigest × Nat)) : Result Unit := do
  check (part.sequence != index || blank part.repositoryPath ||
    !normalizedRelativePath part.repositoryPath ||
      part.sizeBytes == 0 || decide (part.sizeBytes ≥ githubHardFileBoundaryBytes) ||
      !part.contentDigest.validate)
    (.invalidManifest ("transport part " ++ toString index ++ " is invalid"))
  match paths.lookup part.repositoryPath with
  | some (digest, size) =>
    check (schemaVersion == 1 || digest != part.contentDigest || size != part.sizeBytes)
      (.invalidManifest "repeated transport path requires schema 2 and identical bytes")
  | none => return ()

def validateParts (schemaVersion : Nat) :
    List TransportPart → Nat → List (String × ContentDigest × Nat) → Nat → Result Nat
  | [], _, _, total => .ok total
  | part :: rest, index, paths, total => do
    validatePart schemaVersion index part paths
    let total ← require (checkedAdd total part.sizeBytes)
      (.invalidManifest "transport size overflows u64")
    validateParts schemaVersion rest (index + 1)
      ((part.repositoryPath, part.contentDigest, part.sizeBytes) :: paths) total

def TransportEncodingRecord.validate (record : TransportEncodingRecord) : Result Unit := do
  check (!(record.schemaVersion == 1 || record.schemaVersion == 2) ||
      !(record.encoderProfile == deterministicZip64ProfileV1 ||
        record.encoderProfile == deterministicZip64ProfileV2) ||
      blank record.reconstruction || !record.canonicalPayloadDigest.validate ||
      !record.packageDigest.validate || record.orderedParts.isEmpty)
    (.invalidManifest "transport encoding record is incomplete")
  let total ← validateParts record.schemaVersion record.orderedParts 0 [] 0
  check (total != record.packageSizeBytes)
    (.invalidManifest ("transport parts total " ++ toString total ++ ", expected " ++
      toString record.packageSizeBytes))
  let _ ← uniqueTransportBlobBytes record.orderedParts

/-- The limits of a resource policy that the transport reads. -/
structure ResourcePolicy where
  maximumMemoryBytes : Option Nat
  maximumTemporaryDiskBytes : Option Nat
  maximumTransferBytes : Option Nat
deriving DecidableEq, Repr

/-- The answers of a cancellation token to its checks, in order. -/
abbrev Cancellation := Nat → Option String

def Cancellation.check (cancellation : Cancellation) (checks : Nat) : Result Unit :=
  match cancellation checks with
  | some reason => .error (.cancelled reason)
  | none => .ok ()

/-! ## Splitting -/

/-- The record of one chunk under its content address. -/
def transportPart (sha256 : Sha256) (sequence : Nat) (bytes : Bytes) : TransportPart :=
  let digest := contentDigest sha256 bytes
  { sequence
    repositoryPath := "objects/sha256/" ++ String.ofList (digest.text.toList.take 2) ++ "/" ++
      digest.text ++ ".part"
    sizeBytes := bytes.length
    contentDigest := digest }

/-- The sink's state with what has been split off so far. -/
structure Split (σ : Type) where
  sink : σ
  packaged : Bytes
  packageSize : Nat
  orderedParts : List TransportPart
  checks : Nat

section
variable {σ : Type} (sha256 : Sha256) (policy : TransportPolicy) (resources : ResourcePolicy)
  (cancellation : Cancellation) (sink : σ → TransportPart → Bytes → Result σ)

/-- The admission of a chunk and its hand-over to the sink. -/
def splitChunk (s : Split σ) (bytes : Bytes) : Result (Split σ) := do
  let packageSize ← require (checkedAdd s.packageSize bytes.length)
    (.resourceLimit "package size exceeds u64")
  check (resources.maximumTransferBytes.any fun maximum => decide (packageSize > maximum))
    (.resourceLimit ("encoded transfer " ++ toString packageSize ++ " bytes exceeds policy"))
  let part := transportPart sha256 s.orderedParts.length bytes
  let state ← sink s.sink part bytes
  return { sink := state, packaged := s.packaged ++ bytes, packageSize,
           orderedParts := s.orderedParts ++ [part], checks := s.checks + 1 }

def splitLoop (stream : Bytes) (s : Split σ) : Result (Split σ) :=
  match cancellation.check s.checks with
  | .error error => .error error
  | .ok () =>
    if h : stream.take policy.splitPartBytes = [] then .ok s
    else
      match splitChunk sha256 resources sink s (stream.take policy.splitPartBytes) with
      | .error error => .error error
      | .ok s' => splitLoop (stream.drop policy.splitPartBytes) s'
termination_by stream.length
decreasing_by
  rw [List.take_eq_nil_iff, not_or] at h
  rw [List.length_drop]
  have hpos := List.length_pos_iff.mpr h.2
  omega

/-- The record of a finished split. -/
def splitRecord (canonicalPayloadDigest : ContentDigest) (encoderProfile : String) (s : Split σ) :
    TransportEncodingRecord :=
  { schemaVersion :=
      if (s.orderedParts.map (·.repositoryPath)).dedup.length = s.orderedParts.length then 1 else 2
    canonicalPayloadDigest
    encoderProfile
    packageSizeBytes := s.packageSize
    packageDigest := contentDigest sha256 s.packaged
    orderedParts := s.orderedParts
    reconstruction := "concatenate ordered parts, then decode the named deterministic profile" }

def streamSplitEncoded (stream : Bytes) (canonicalPayloadDigest : ContentDigest)
    (encoderProfile : String) (start : σ) : Result (TransportEncodingRecord × σ) := do
  policy.validate
  check (!canonicalPayloadDigest.validate) (.invalidManifest "canonical payload digest is invalid")
  check (resources.maximumMemoryBytes.any fun maximum => decide (policy.splitPartBytes > maximum))
    (.resourceLimit ("one split part requires " ++ toString policy.splitPartBytes ++
      " bytes, above the memory budget"))
  let s ← splitLoop sha256 policy resources cancellation sink stream
    { sink := start, packaged := [], packageSize := 0, orderedParts := [], checks := 0 }
  check s.orderedParts.isEmpty (.invalidManifest "encoded package must not be empty")
  let record := splitRecord sha256 canonicalPayloadDigest encoderProfile s
  record.validate
  return (record, s.sink)

end

/-! ## Reconstruction -/

/-- What a path of the part store, or the destination, holds. -/
inductive Entry where
  | file (bytes : Bytes)
  | symlink
  | other
deriving DecidableEq, Repr

abbrev Store := String → Option Entry

structure DeterministicPackageReport where
  canonicalPayloadDigest : ContentDigest
  encoderProfile : String
  packageSizeBytes : Nat
  packageDigest : ContentDigest
  createdNew : Bool
deriving DecidableEq, Repr

def copyBufferBytes : Nat := 1024 * 1024

/-- `clamp(1, COPY_BUFFER_BYTES)` of the memory budget. -/
def bufferBytes (resources : ResourcePolicy) : Nat :=
  max 1 (min (resources.maximumMemoryBytes.getD copyBufferBytes) copyBufferBytes)

/-- A size with its digest, as mismatches name them. -/
def identity (digest : ContentDigest) (size : Nat) : String :=
  digest.text ++ " (" ++ toString size ++ " bytes)"

/-- The temporary file and the checks made so far. -/
structure Copy where
  written : Bytes
  checks : Nat

section
variable (resources : ResourcePolicy) (cancellation : Cancellation) (debug : String → String)

/-- `write_all` of the controlled file: nothing past the disk budget or `u64`. -/
def writeAll (c : Copy) (fragment : Bytes) : Result Copy :=
  let refused : CacheError :=
    match cancellation c.checks with
    | some reason => .cancelled reason
    | none => .resourceLimit "deterministic package exceeds temporary-disk budget"
  match checkedAdd c.written.length fragment.length with
  | none => .error refused
  | some «end» =>
    if resources.maximumTemporaryDiskBytes.any fun maximum => decide («end» > maximum) then
      .error refused
    else .ok { c with written := c.written ++ fragment }

/-- The read loop of one part: buffer by buffer until the end of the file. -/
def copyPart (buffer : Nat) (remaining : Bytes) (c : Copy) : Result Copy :=
  match cancellation.check c.checks with
  | .error error => .error error
  | .ok () =>
    if h : remaining.take buffer = [] then .ok { c with checks := c.checks + 1 }
    else
      match writeAll resources cancellation { c with
        checks := c.checks + 1 } (remaining.take buffer) with
      | .error error => .error error
      | .ok c' => copyPart buffer (remaining.drop buffer) c'
termination_by remaining.length
decreasing_by
  rw [List.take_eq_nil_iff, not_or] at h
  rw [List.length_drop]
  have hpos := List.length_pos_iff.mpr h.2
  omega

/-- `resolve_part_path` and the metadata checks; the store is keyed by the
normalized path and `debug` is the `Debug` text of a string. -/
def openPart (store : Store) (part : TransportPart) : Result Bytes := do
  check (!normalizedRelativePath part.repositoryPath)
    (.invalidManifest ("transport part path " ++ debug part.repositoryPath ++ " is unsafe"))
  match store part.repositoryPath with
  | none => .error (.notFound ("transport part " ++ part.repositoryPath))
  | some (.file bytes) =>
    check (bytes.length != part.sizeBytes)
      (.digestMismatch (toString part.sizeBytes ++ " bytes") (toString bytes.length ++ " bytes"))
    return bytes
  | some _ => .error (.invalidManifest ("transport part " ++ debug part.repositoryPath ++
      " must be a regular non-symlink file"))

variable (sha256 : Sha256)

def reconstructPart (store : Store) (c : Copy) (part : TransportPart) : Result Copy := do
  cancellation.check c.checks
  let bytes ← openPart debug store part
  let c ← copyPart resources cancellation (bufferBytes resources) bytes { c with
    checks := c.checks + 1 }
  let partDigest := contentDigest sha256 bytes
  check (bytes.length != part.sizeBytes || partDigest != part.contentDigest)
    (.digestMismatch (identity part.contentDigest part.sizeBytes)
    (identity partDigest bytes.length))
  return c

/-- A package already at the destination is accepted by size and digest. -/
def verifiedExistingTransportPackage (record : TransportEncodingRecord) :
    Entry → Result (DeterministicPackageReport × Bytes)
  | .file bytes => do
    check (bytes.length != record.packageSizeBytes)
      (.invalidManifest "existing reconstructed package has invalid filesystem metadata")
    let digest := contentDigest sha256 bytes
    check (digest != record.packageDigest)
      (.digestMismatch (identity record.packageDigest record.packageSizeBytes)
      (identity digest bytes.length))
    return ({ canonicalPayloadDigest := record.canonicalPayloadDigest
              encoderProfile := record.encoderProfile
              packageSizeBytes := bytes.length
              packageDigest := digest
              createdNew := false }, bytes)
  | _ => .error (.invalidManifest "existing reconstructed package has invalid filesystem metadata")

/-- The report and the bytes at the destination; `found` is what another process
has put there by the time of the link. -/
def reconstructInner (record : TransportEncodingRecord) (store : Store) (found : Option Entry) :
    Result (DeterministicPackageReport × Bytes) := do
  let c ← record.orderedParts.foldlM (reconstructPart resources cancellation debug sha256 store)
    { written := [], checks := 0 }
  let packageDigest := contentDigest sha256 c.written
  check (c.written.length != record.packageSizeBytes || packageDigest != record.packageDigest)
    (.digestMismatch (identity record.packageDigest record.packageSizeBytes)
      (identity packageDigest c.written.length))
  match found with
  | some entry => verifiedExistingTransportPackage sha256 record entry
  | none => return ({ canonicalPayloadDigest := record.canonicalPayloadDigest
                      encoderProfile := record.encoderProfile
                      packageSizeBytes := c.written.length
                      packageDigest
                      createdNew := true }, c.written)

end

end Xcelerator.Cache.Transport
