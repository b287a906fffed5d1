import Mathlib
import Xcelerator.Cache.Basic

/-! # Content digests

SHA-256 itself is a parameter: 32 bytes for every byte string. A content digest
is its lowercase hexadecimal text, which is well formed and keeps the bytes
apart, so two digests agree only where SHA-256 does. -/

namespace Xcelerator.Cache.Digest
open Xcelerator.Cache (ContentDigest isAsciiDigit)

abbrev Sha256 := List UInt8 → Vector UInt8 32

/-- Two lowercase hexadecimal digits a byte. -/
def hexDigest (bytes : List UInt8) : String :=
  String.ofList (bytes.flatMap fun byte =>
    [Nat.digitChar (byte.toNat / 16), Nat.digitChar (byte.toNat % 16)])

/-- `ContentDigest::sha256`. -/
def contentDigest (sha256 : Sha256) (payload : List UInt8) : ContentDigest :=
  ⟨hexDigest (sha256 payload).toList⟩

/-- SHA-256 separates the given byte strings. -/
def NoCollision (sha256 : Sha256) (payloads : List (List UInt8)) : Prop :=
  ∀ a ∈ payloads, ∀ b ∈ payloads, sha256 a = sha256 b → a = b

theorem digitChar_hex {d : Nat} (h : d < 16) :
    (Nat.digitChar d).utf8Size = 1 ∧
      (isAsciiDigit (Nat.digitChar d) || ('a' ≤ Nat.digitChar d && Nat.digitChar d ≤ 'f')) =
        true := by
  interval_cases d <;> decide

/-- A SHA-256 digest in hexadecimal is a well-formed content digest. -/
theorem hexDigest_validate (bytes : List UInt8) (h : bytes.length = 32) :
    (ContentDigest.mk (hexDigest bytes)).validate = true := by
  have hdigit : ∀ byte : UInt8, byte.toNat / 16 < 16 ∧ byte.toNat % 16 < 16 := by
    intro byte
    have := byte.toNat_lt
    omega
  have hsize : ∀ bytes : List UInt8, String.utf8Len (bytes.flatMap fun byte =>
      [Nat.digitChar (byte.toNat / 16), Nat.digitChar (byte.toNat % 16)]) = 2 * bytes.length := by
    intro bytes
    induction bytes with
    | nil => rfl
    | cons byte bytes ih =>
      simp only [List.flatMap_cons, List.cons_append, List.nil_append, String.utf8Len_cons, ih,
        (digitChar_hex (hdigit byte).1).1, (digitChar_hex (hdigit byte).2).1, List.length_cons]
      omega
  unfold ContentDigest.validate hexDigest
  rw [Bool.and_eq_true, String.utf8ByteSize_ofList, hsize, h, String.toList_ofList,
    List.all_eq_true]
  refine ⟨rfl, fun c hc => ?_⟩
  obtain ⟨byte, _, hc⟩ := List.mem_flatMap.mp hc
  rcases List.mem_pair.mp hc with rfl | rfl
  · exact (digitChar_hex (hdigit byte).1).2
  · exact (digitChar_hex (hdigit byte).2).2

theorem contentDigest_validate (sha256 : Sha256) (payload : List UInt8) :
    (contentDigest sha256 payload).validate = true := hexDigest_validate _ (by simp)

theorem digitChar_injective {d d' : Nat} (hd : d < 16) (hd' : d' < 16)
    (h : Nat.digitChar d = Nat.digitChar d') : d = d' := by
  revert h
  interval_cases d <;> interval_cases d' <;> decide

theorem hexDigest_injective {a b : List UInt8} (h : hexDigest a = hexDigest b) : a = b := by
  unfold hexDigest at h
  replace h := congrArg String.toList h
  rw [String.toList_ofList, String.toList_ofList] at h
  induction a generalizing b with
  | nil =>
    cases b with
    | nil => rfl
    | cons y b => simp at h
  | cons x a ih =>
    cases b with
    | nil => simp at h
    | cons y b =>
      simp only [List.flatMap_cons, List.cons_append, List.nil_append, List.cons.injEq] at h
      have hx := x.toNat_lt
      have hy := y.toNat_lt
      have hhigh := digitChar_injective (by omega) (by omega) h.1
      have hlow := digitChar_injective (by omega) (by omega) h.2.1
      have hbyte : x = y := UInt8.toNat_inj.mp (by omega)
      rw [hbyte, ih h.2.2]

theorem contentDigest_injective {sha256 : Sha256} {a b : List UInt8}
    (h : contentDigest sha256 a = contentDigest sha256 b) : sha256 a = sha256 b := by
  have hbytes := hexDigest_injective (ContentDigest.mk.inj h)
  exact Vector.toList_inj.mp hbytes

/-- Every byte string has the digest of the empty one. -/
def emptyDigest : Sha256 := fun _ =>
  ⟨#[0xe3, 0xb0, 0xc4, 0x42, 0x98, 0xfc, 0x1c, 0x14, 0x9a, 0xfb, 0xf4, 0xc8, 0x99, 0x6f, 0xb9, 0x24,
    0x27, 0xae, 0x41, 0xe4, 0x64, 0x9b, 0x93, 0x4c, 0xa4, 0x95, 0x99, 0x1b, 0x78, 0x52, 0xb8,
    0x55], rfl⟩

/-- The digests of the one-letter texts a, b and c, and of the empty one. -/
def letterDigest : Sha256 := fun bytes =>
  if bytes = [0x61] then
    ⟨#[0xca, 0x97, 0x81, 0x12, 0xca, 0x1b, 0xbd, 0xca, 0xfa, 0xc2, 0x31, 0xb3, 0x9a, 0x23,
      0xdc, 0x4d,
      0xa7, 0x86, 0xef, 0xf8, 0x14, 0x7c, 0x4e, 0x72, 0xb9, 0x80, 0x77, 0x85, 0xaf, 0xee, 0x48,
      0xbb], rfl⟩
  else if bytes = [0x62] then
    ⟨#[0x3e, 0x23, 0xe8, 0x16, 0x00, 0x39, 0x59, 0x4a, 0x33, 0x89, 0x4f, 0x65, 0x64, 0xe1,
      0xb1, 0x34,
      0x8b, 0xbd, 0x7a, 0x00, 0x88, 0xd4, 0x2c, 0x4a, 0xcb, 0x73, 0xee, 0xae, 0xd5, 0x9c, 0x00,
      0x9d], rfl⟩
  else if bytes = [0x63] then
    ⟨#[0x2e, 0x7d, 0x2c, 0x03, 0xa9, 0x50, 0x7a, 0xe2, 0x65, 0xec, 0xf5, 0xb5, 0x35, 0x68,
      0x85, 0xa5,
      0x33, 0x93, 0xa2, 0x02, 0x9d, 0x24, 0x13, 0x94, 0x99, 0x72, 0x65, 0xa1, 0xa2, 0x5a, 0xef,
      0xc6], rfl⟩
  else emptyDigest bytes

end Xcelerator.Cache.Digest
