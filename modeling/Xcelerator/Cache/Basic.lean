import Mathlib

/-! Errors, revisions and digests shared by the publication protocol. Text is
`String`; a `u64` is a `Nat` whose checked additions are explicit. -/

namespace Xcelerator.Cache

inductive CacheError where
  | invalidManifest (message : String)
  | invalidTransition (message : String)
  | resourceLimit (message : String)
  | notFound (message : String)
  | noWritableShard (message : String)
  | digestMismatch (expected actual : String)
  | cancelled (message : String)
deriving DecidableEq, Repr

abbrev Result := Except CacheError

/-- A commit identifier, as text. -/
abbrev Revision := String

/-- A ref of a repository. -/
structure RefName where
  repository : String
  branch : String
deriving DecidableEq, Repr

inductive PublicationDestination where
  | privateShard
  | publicShard
deriving DecidableEq, Repr

def PublicationDestination.debug : PublicationDestination → String
  | privateShard => "Private"
  | publicShard => "Public"

def PublicationDestination.text : PublicationDestination → String
  | privateShard => "private"
  | publicShard => "public"

/-- One character of `{:?}`: beyond ASCII only control characters are escaped here. -/
def debugChar (c : Char) : String :=
  match c with
  | '"' => "\\\""
  | '\\' => "\\\\"
  | '\t' => "\\t"
  | '\r' => "\\r"
  | '\n' => "\\n"
  | c =>
    if c.toNat == 0 then "\\0"
    else if c.toNat < 0x20 || (0x7F ≤ c.toNat && c.toNat ≤ 0x9F) then
      "\\u\x7b" ++ String.ofList (Nat.toDigits 16 c.toNat) ++ "\x7d"
    else c.toString

/-- `{:?}` of a text. -/
def debugText (text : String) : String := "\"" ++ String.join (text.toList.map debugChar) ++ "\""

def check (condition : Bool) (error : CacheError) : Result Unit :=
  if condition then .error error else .ok ()

/-- `Option::ok_or_else`. -/
def require {α : Type} (x : Option α) (error : CacheError) : Result α :=
  match x with
  | some a => .ok a
  | none => .error error

/-- `u64::checked_add`. -/
def checkedAdd (a b : Nat) : Option Nat := if a + b < 2 ^ 64 then some (a + b) else none

/-- The Unicode `White_Space` property, which `str::trim` removes. -/
def isWhiteSpace (c : Char) : Bool :=
  let n := c.toNat
  (9 ≤ n && n ≤ 13) || n == 0x20 || n == 0x85 || n == 0xA0 || n == 0x1680 ||
    (0x2000 ≤ n && n ≤ 0x200A) || n == 0x2028 || n == 0x2029 || n == 0x202F || n == 0x205F ||
    n == 0x3000

/-- `text.trim().is_empty()`. -/
def blank (text : String) : Bool := text.toList.all isWhiteSpace

def isAsciiDigit (c : Char) : Bool := '0' ≤ c && c ≤ '9'

def isAsciiHexDigit (c : Char) : Bool :=
  isAsciiDigit c || ('a' ≤ c && c ≤ 'f') || ('A' ≤ c && c ≤ 'F')

def validRevision (revision : Revision) : Bool :=
  (revision.utf8ByteSize == 40 || revision.utf8ByteSize == 64) &&
    revision.toList.all isAsciiHexDigit

/-- A lowercase SHA-256 digest. -/
structure ContentDigest where
  text : String
deriving DecidableEq, Repr

def ContentDigest.validate (digest : ContentDigest) : Bool :=
  digest.text.utf8ByteSize == 64 && digest.text.toList.all fun c =>
    isAsciiDigit c || ('a' ≤ c && c ≤ 'f')

theorem check_ok {condition : Bool} {error : CacheError} {u : Unit}
    (h : check condition error = .ok u) : condition = false := by
  unfold check at h
  split at h
  · cases h
  · simpa using ‹¬ condition = true›

theorem require_ok {α : Type} {x : Option α} {error : CacheError} {a : α}
    (h : require x error = .ok a) : x = some a := by
  cases x with
  | none => cases h
  | some b => cases h; rfl

theorem checkedAdd_some {a b c : Nat} (h : checkedAdd a b = some c) : c = a + b := by
  unfold checkedAdd at h
  split at h
  · exact (Option.some.inj h).symm
  · cases h

end Xcelerator.Cache
